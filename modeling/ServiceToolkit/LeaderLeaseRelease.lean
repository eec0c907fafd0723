import ServiceToolkit.LeaderLease

/-!
# Giving the Lease Up

`release` lets go of the renew task, cancels it, awaits it, and only then has the lock delete the
key. Two things can come between: an exception of the task leaves the `await` and the rest of
`release` undone, and the lock sends its script only if its own flag is set.

The flag is set whenever the key is this instance's as long as calls do not overlap, no `SET` finds
the instance's own token in the key, and no `SET` that was granted ends in an exception. A call of
the lease is then one of a few phases (`Running`), and each phase knows enough of the key and the
tasks (`OrderlyAt`). **In every such run in which no `release` meets a task that ended on an
exception, a `release` that has ended has given the lease up** (`release_gives_up`).
-/

namespace ServiceToolkit.Lease

open List Option

variable {T : Type*}

/-- The phases of a call that is running. -/
inductive Running
  | acquiring (reply : Option Bool)
  | awaiting (task : ℕ)
  | deleting (reply : Option Bool)
  deriving DecidableEq

/-- The phase of an `acquire` call that is running. -/
def AcquirePhase.running : AcquirePhase → Option Running
  | .setting reply => some (.acquiring reply)
  | .returned _ | .raised => none

/-- The phase of a `release` call that is running. -/
def ReleasePhase.running : ReleasePhase → Option Running
  | .awaiting i => some (.awaiting i)
  | .deleting reply => some (.deleting reply)
  | .returned | .raised => none

/-- The calls that are running. -/
def State.running (s : State T) : List Running :=
  s.acquires.filterMap AcquirePhase.running ++ s.releases.filterMap ReleasePhase.running

/-- The lease's renew task ended on an exception. -/
def State.renewalRaised (s : State T) : Bool :=
  (s.task.bind (s.tasks[·]?)).any fun task => task.phase == .ended .raised

/-- **The condition on a step**: calls do not overlap, a `release` does not meet a renew task that
ended on an exception, no `SET` finds the instance's own token, and an `acquire` that raises was
not granted the key. -/
def orderly [DecidableEq T] (c : Config T) (s : State T) : Event T → Bool
  | .acquire => s.running == []
  | .release => s.running == [] && !s.renewalRaised
  | .serveSet _ => s.key ≠ some c.token
  | .acquireRaises call => s.acquires[call]? ≠ some (.setting (some true))
  | _ => true

/-- What the key has to do with the lock's flag, by the call that is running. -/
def KeyFits (c : Config T) (s : State T) : Option Running → Prop
  | some (.acquiring (some true)) => True
  | some (.acquiring (some false)) => s.key ≠ some c.token
  | some (.deleting (some _)) => s.key ≠ some c.token
  | _ => s.key = some c.token → s.held = true

/-- What is true of a renew task, by the call that is running: between calls it runs only as the
lease's own, a `release` awaits the last one that runs, and during the rest none does. -/
def TaskFits (c : Config T) (s : State T) (i : ℕ) (task : RenewTask) : Option Running → Prop
  | none => task.running = true → s.task = some i ∧ task.cancelRequested = false ∧
      (task.phase = .extending (some false) → s.key ≠ some c.token)
  | some (.awaiting j) => (task.running = true → i = j) ∧
      (i = j → task.cancelRequested = true ∧ task.phase ≠ .ended .raised)
  | some _ => task.running = false

/-- The lease with at most one call running, and what that call knows. -/
structure OrderlyAt (c : Config T) (s : State T) (call : Option Running) : Prop where
  running : s.running = call.toList
  key : KeyFits c s call
  tasks : ∀ {i task}, s.tasks[i]? = some task → TaskFits c s i task call

/-! ### The one running call -/

section

variable {s s' : State T} {i : ℕ}

theorem filterMap_set_of_singleton {α β : Type*} {f : α → Option β} {l : List α} {a b : α}
    {x : β} (hi : l[i]? = some a) (ha : f a = some x) (hl : l.filterMap f = [x]) :
    (l.set i b).filterMap f = (f b).toList := by
  induction l generalizing i with
  | nil => cases hi
  | cons a' l ih =>
    cases i with
    | zero =>
      obtain rfl : a' = a := some.inj hi
      rw [filterMap_cons_some ha] at hl
      have hnil : l.filterMap f = [] := (cons.inj hl).2
      rw [set_cons_zero, filterMap_cons, hnil]
      cases f b <;> rfl
    | succ i =>
      rw [getElem?_cons_succ] at hi
      have hmem : x ∈ l.filterMap f := mem_filterMap.mpr ⟨a, mem_of_getElem? hi, ha⟩
      cases hf : f a' with
      | none =>
        rw [filterMap_cons_none hf] at hl
        rw [set_cons_succ, filterMap_cons_none hf, ih hi hl]
      | some y =>
        rw [filterMap_cons_some hf] at hl
        rw [(cons.inj hl).2] at hmem
        cases hmem

theorem append_eq_toList_left {α : Type*} {l l' : List α} {o : Option α} {x : α}
    (h : l ++ l' = o.toList) (hx : x ∈ l) : o = some x ∧ l = [x] ∧ l' = [] := by
  cases o with
  | none =>
    rw [(append_eq_nil_iff.mp h).1] at hx
    cases hx
  | some y =>
    rcases append_eq_singleton_iff.mp h with ⟨rfl, -⟩ | ⟨rfl, rfl⟩
    · cases hx
    · obtain rfl := mem_singleton.mp hx
      exact ⟨rfl, rfl, rfl⟩

theorem append_eq_toList_right {α : Type*} {l l' : List α} {o : Option α} {x : α}
    (h : l ++ l' = o.toList) (hx : x ∈ l') : o = some x ∧ l = [] ∧ l' = [x] := by
  cases o with
  | none =>
    rw [(append_eq_nil_iff.mp h).2] at hx
    cases hx
  | some y =>
    rcases append_eq_singleton_iff.mp h with ⟨rfl, rfl⟩ | ⟨-, rfl⟩
    · obtain rfl := mem_singleton.mp hx
      exact ⟨rfl, rfl, rfl⟩
    · cases hx

variable {call : Option Running} {a : AcquirePhase} {x : Running}

theorem call_of_acquire
    (h : s.running = call.toList) (hi : s.acquires[i]? = some a) (ha : a.running = some x) :
    call = some x :=
  (append_eq_toList_left h (mem_filterMap.mpr ⟨a, mem_of_getElem? hi, ha⟩)).1

theorem running_set_acquire (b : AcquirePhase)
    (h : s.running = [x]) (hi : s.acquires[i]? = some a) (ha : a.running = some x)
    (hacquires : s'.acquires = s.acquires.set i b) (hreleases : s'.releases = s.releases) :
    s'.running = b.running.toList := by
  obtain ⟨-, hacquiring, hreleasing⟩ := append_eq_toList_left (o := some x) h
    (mem_filterMap.mpr ⟨a, mem_of_getElem? hi, ha⟩)
  rw [State.running, hacquires, hreleases, hreleasing, append_nil]
  exact filterMap_set_of_singleton hi ha hacquiring

theorem call_of_release {a : ReleasePhase}
    (h : s.running = call.toList) (hi : s.releases[i]? = some a) (ha : a.running = some x) :
    call = some x :=
  (append_eq_toList_right h (mem_filterMap.mpr ⟨a, mem_of_getElem? hi, ha⟩)).1

theorem running_set_release {a : ReleasePhase} (b : ReleasePhase)
    (h : s.running = [x]) (hi : s.releases[i]? = some a) (ha : a.running = some x)
    (hreleases : s'.releases = s.releases.set i b) (hacquires : s'.acquires = s.acquires) :
    s'.running = b.running.toList := by
  obtain ⟨-, hacquiring, hreleasing⟩ := append_eq_toList_right (o := some x) h
    (mem_filterMap.mpr ⟨a, mem_of_getElem? hi, ha⟩)
  rw [State.running, hacquires, hreleases, hacquiring, nil_append]
  exact filterMap_set_of_singleton hi ha hreleasing

theorem running_acquire (h : s.running = [])
    (hacquires : s'.acquires = s.acquires ++ [a]) (hreleases : s'.releases = s.releases) :
    s'.running = a.running.toList := by
  obtain ⟨hacquiring, hreleasing⟩ := append_eq_nil_iff.mp h
  rw [State.running, hacquires, hreleases, hreleasing, filterMap_append, hacquiring]
  cases ha : a.running <;> simp [ha]

theorem running_release {r : ReleasePhase} (h : s.running = [])
    (hreleases : s'.releases = s.releases ++ [r]) (hacquires : s'.acquires = s.acquires) :
    s'.running = r.running.toList := by
  obtain ⟨hacquiring, hreleasing⟩ := append_eq_nil_iff.mp h
  rw [State.running, hacquires, hreleases, hacquiring, filterMap_append, hreleasing]
  cases hr : r.running <;> simp [hr]

theorem OrderlyAt.call_eq_none {c : Config T} (h : OrderlyAt c s call)
    (hquiet : s.running = []) : call = none := by
  cases call with
  | none => rfl
  | some x =>
    rw [h.running] at hquiet
    cases hquiet

end

/-! ### The steps -/

/-- No renew task is running. -/
def State.Still (s : State T) : Prop := ∀ task ∈ s.tasks, task.running = false

section

variable {c : Config T} {s s' : State T} {call : Option Running} {i : ℕ} {task : RenewTask}

theorem OrderlyAt.still {x : Running} (h : OrderlyAt c s (some x)) (hx : ∀ j, x ≠ .awaiting j) :
    s.Still := by
  intro task hmem
  obtain ⟨i, hi⟩ := mem_iff_getElem?.mp hmem
  have hfits := h.tasks hi
  cases x with
  | awaiting j => exact absurd rfl (hx j)
  | acquiring | deleting => exact hfits

theorem OrderlyAt.of_still (call : Option Running) (hrunning : s.running = call.toList)
    (hkey : KeyFits c s call) (hstill : s.Still) (hcall : ∀ j, call ≠ some (.awaiting j)) :
    OrderlyAt c s call := by
  refine ⟨hrunning, hkey, fun {i task} hi => ?_⟩
  have hnot : task.running = false := hstill task (mem_of_getElem? hi)
  cases call with
  | none =>
    intro hrun
    rw [hnot] at hrun
    cases hrun
  | some x =>
    cases x with
    | awaiting j => exact absurd rfl (hcall j)
    | acquiring | deleting => exact hnot

theorem OrderlyAt.still_of_task (h : OrderlyAt c s none)
    (htask : ∀ i task, s.task = some i → s.tasks[i]? = some task → task.running = false) :
    s.Still := by
  intro task hmem
  obtain ⟨i, hi⟩ := mem_iff_getElem?.mp hmem
  cases hrun : task.running with
  | false => rfl
  | true => rw [← hrun, htask i task (h.tasks hi hrun).1 hi]

variable (s') in
theorem orderlyAt_deletePhase (hstill : s'.Still) (hheld : s'.held = s.held)
    (hrunning : s'.running = (deletePhase s).running.toList)
    (hkey : s'.key = some c.token → s'.held = true) : OrderlyAt c s' (deletePhase s).running ∧
      ((deletePhase s).running = none → s'.key ≠ some c.token) := by
  unfold deletePhase at hrunning ⊢
  split at hrunning
  · rename_i hset
    rw [if_pos hset]
    refine ⟨.of_still _ hrunning hkey hstill (fun j => ?_), fun hnone => ?_⟩
    · rintro ⟨⟩
    · cases hnone
  · rename_i hset
    rw [if_neg hset]
    refine ⟨.of_still _ hrunning hkey hstill (fun j => ?_), fun _ hown => hset ?_⟩
    · rintro ⟨⟩
    · rw [← hheld, hkey hown]

/-! ### Releases that end -/

/-- A `release` call ends between the two states. -/
def EndsRelease (s s' : State T) : Prop :=
  ∃ (i : ℕ) (r : ReleasePhase), s'.releases[i]? = some r ∧ r.running = none ∧
    ∀ r' : ReleasePhase, s.releases[i]? = some r' → r'.running ≠ none

theorem not_endsRelease (h : s'.releases = s.releases) : ¬ EndsRelease s s' := by
  rintro ⟨i, r, hi, hr, hnew⟩
  rw [h] at hi
  exact hnew r hi hr

theorem EndsRelease.of_concat {r : ReleasePhase} (h : EndsRelease s s')
    (hreleases : s'.releases = s.releases ++ [r]) : r.running = none := by
  obtain ⟨i, r', hi, hr, hnew⟩ := h
  rw [hreleases] at hi
  by_cases hlen : i = s.releases.length
  · subst hlen
    rw [getElem?_concat_length] at hi
    rw [some.inj hi]
    exact hr
  · rw [getElem?_concat_of_ne hlen] at hi
    exact absurd hr (hnew r' hi)

variable {j : ℕ}

theorem EndsRelease.of_set {r : ReleasePhase} (h : EndsRelease s s')
    (hreleases : s'.releases = s.releases.set j r) : r.running = none := by
  obtain ⟨i, r', hi, hr, hnew⟩ := h
  rw [hreleases] at hi
  by_cases hij : j = i
  · subst hij
    rw [getElem?_set_self'] at hi
    obtain ⟨old, -, heq⟩ := map_eq_some_iff.mp hi
    rw [show r = r' from heq]
    exact hr
  · rw [getElem?_set_ne hij] at hi
    exact absurd hr (hnew r' hi)

/-- **What an orderly step leaves**: a lease in order, and if a `release` ended, a key that is not
this instance's and no renew task that runs. -/
structure Kept (c : Config T) (s s' : State T) : Prop where
  orderly : ∃ call, OrderlyAt c s' call
  released : EndsRelease s s' → s'.key ≠ some c.token ∧ s'.Still

theorem Kept.of_orderlyAt (call : Option Running) (h : OrderlyAt c s' call)
    (hreleases : s'.releases = s.releases) : Kept c s s' :=
  ⟨⟨call, h⟩, fun hends => absurd hends (not_endsRelease hreleases)⟩

theorem OrderlyAt.setTask (h : OrderlyAt c s call) (htasks : s'.tasks = s.tasks.set i task)
    (hown : s'.key = s.key) (htask : s'.task = s.task) (hacquires : s'.acquires = s.acquires)
    (hreleases : s'.releases = s.releases) (hkey : KeyFits c s' call)
    (hfits : TaskFits c s' i task call) : Kept c s s' := by
  refine .of_orderlyAt call ⟨?_, hkey, ?_⟩ hreleases
  · rw [State.running, hacquires, hreleases]
    exact h.running
  · rw [htasks]
    refine forall_getElem?_set (P := fun i task => TaskFits c s' i task call) ?_ hfits
    intro j task' hj _
    have hold := h.tasks hj
    unfold TaskFits at hold ⊢
    rw [hown, htask]
    exact hold

theorem OrderlyAt.startRelease (h : OrderlyAt c s none) (hraised : s.renewalRaised = false)
    (hs : startRelease s = some s') : Kept c s s' := by
  have hquiet : s.running = [] := h.running
  -- where the lease's own task does not run, the lock is next
  have hdelete : ∀ {s₁ : State T}, (∀ i task, s.task = some i → s.tasks[i]? = some task →
      task.running = false) → s₁.tasks = s.tasks → s₁.key = s.key → s₁.held = s.held →
      s₁.acquires = s.acquires → s₁.releases = s.releases ++ [deletePhase s] → Kept c s s₁ := by
    intro s₁ hended htasks hkey hheld hacquires hreleases
    have hstill : s₁.Still := by
      rw [State.Still, htasks]
      exact h.still_of_task hended
    obtain ⟨horderly, hgone⟩ := orderlyAt_deletePhase s₁ hstill hheld
      (running_release hquiet hreleases hacquires) (by rw [hkey, hheld]; exact h.key)
    exact ⟨⟨_, horderly⟩, fun hends => ⟨hgone (hends.of_concat hreleases), hstill⟩⟩
  unfold Lease.startRelease at hs
  dsimp only at hs
  split at hs
  · rename_i htask
    cases hs
    refine hdelete (fun i task hi _ => ?_) rfl rfl rfl rfl rfl
    rw [htask] at hi
    cases hi
  · rename_i i htask
    split at hs
    · cases hs
    · rename_i outcome cancelRequested hi
      cases hs
      have hphase : phaseAfter s outcome = deletePhase s := by
        cases outcome with
        | lost | cancelled => rfl
        | raised => simp [State.renewalRaised, htask, hi] at hraised
      refine hdelete (fun j task hj htask' => ?_) rfl rfl rfl rfl (by rw [hphase])
      obtain rfl : i = j := some.inj (htask.symm.trans hj)
      rw [some.inj (htask'.symm.trans hi)]
      rfl
    · rename_i task hnot hi
      cases hs
      refine ⟨⟨some (.awaiting i), ?_, h.key, ?_⟩, fun hends => ?_⟩
      · exact running_release (r := .awaiting i) hquiet rfl rfl
      · refine forall_getElem?_set (P := fun j task => TaskFits c _ j task (some (.awaiting i)))
          (fun {j task'} hj hne => ⟨fun hrun => ?_, fun hij => absurd hij hne⟩)
          ⟨fun _ => rfl, fun _ => ⟨rfl, fun hraised' => hnot .raised task.cancelRequested ?_⟩⟩
        · exact (some.inj (htask.symm.trans (h.tasks hj hrun).1)).symm
        · obtain ⟨phase, cancelRequested⟩ := task
          obtain rfl : phase = .ended .raised := hraised'
          rfl
      · cases hends.of_concat rfl

/-- The reply to a `SET`: a granted one starts a renew task, a refused one clears the flag. -/
theorem OrderlyAt.acquired {ok : Bool} (h : OrderlyAt c s call)
    (hj : s.acquires[j]? = some (.setting (some ok))) : OrderlyAt c (acquired s j ok) none := by
  obtain rfl := call_of_acquire h.running hj rfl
  have hstill : s.Still := h.still (by rintro _ ⟨⟩)
  cases ok with
  | false =>
    have hrunning : (Lease.acquired s j false).running = [] :=
      running_set_acquire (.returned false) h.running hj rfl rfl rfl
    exact .of_still _ hrunning (fun hown => absurd hown h.key) hstill (by rintro _ ⟨⟩)
  | true =>
    have hrunning : (Lease.acquired s j true).running = [] :=
      running_set_acquire (.returned true) h.running hj rfl rfl rfl
    refine ⟨hrunning, fun _ => rfl, ?_⟩
    refine forall_getElem?_concat (P := fun i task => TaskFits c (Lease.acquired s j true) i task
      none) (fun {i task} hi hrun => ?_) (fun _ => ⟨rfl, rfl, by rintro ⟨⟩⟩)
    rw [hstill task (mem_of_getElem? hi)] at hrun
    cases hrun

theorem OrderlyAt.own_task (h : OrderlyAt c s call) (hi : s.tasks[i]? = some task)
    (hrun : task.running = true) (hcancel : task.cancelRequested = false) :
    call = none ∧ s.task = some i ∧
      (task.phase = .extending (some false) → s.key ≠ some c.token) := by
  have hfits := h.tasks hi
  cases call with
  | none => exact ⟨rfl, (hfits hrun).1, (hfits hrun).2.2⟩
  | some x =>
    cases x with
    | awaiting j =>
      have hasked := (hfits.2 (hfits.1 hrun)).1
      rw [hcancel] at hasked
      cases hasked
    | acquiring | deleting =>
      have hnot : task.running = false := hfits
      rw [hrun] at hnot
      cases hnot

theorem OrderlyAt.setKey (h : OrderlyAt c s call) {key : Option T} (hkey : key ≠ some c.token) :
    OrderlyAt c { s with key := key } call := by
  refine ⟨h.running, ?_, fun {i task} hi => ?_⟩
  · unfold KeyFits
    split
    · trivial
    · exact hkey
    · exact hkey
    · exact fun hown => absurd hown hkey
  · have hfits := h.tasks hi
    cases call with
    | none => exact fun hrun => ⟨(hfits hrun).1, (hfits hrun).2.1, fun _ => hkey⟩
    | some x => cases x <;> exact hfits

theorem taskFits_ended {outcome : Outcome} {cancelRequested : Bool} (s : State T)
    (hcall : ∀ j, call = some (.awaiting j) → cancelRequested = true ∧ outcome ≠ .raised) :
    TaskFits c s i ⟨.ended outcome, cancelRequested⟩ call := by
  unfold TaskFits
  split
  · rintro ⟨⟩
  · rename_i j
    refine ⟨by rintro ⟨⟩, fun _ => ⟨(hcall j rfl).1, fun heq => (hcall j rfl).2 ?_⟩⟩
    exact RenewPhase.ended.inj heq
  · rfl

/-! ### One event at a time -/

variable [DecidableEq T]

section

variable (h : OrderlyAt c s call)
include h

theorem OrderlyAt.kept_acquire (hok : orderly c s .acquire = true)
    (hs : step c s .acquire = some s') : Kept c s s' := by
  have hquiet : s.running = [] := by simpa [orderly] using hok
  obtain rfl := h.call_eq_none hquiet
  simp only [step] at hs
  split at hs
  · cases hs
    refine .of_orderlyAt none ⟨?_, h.key, h.tasks⟩ rfl
    exact running_acquire (a := .returned s.isHeld) hquiet rfl rfl
  · rename_i hidle
    cases hs
    have hstill : s.Still := by
      refine h.still_of_task fun i task htask hi => ?_
      by_contra hrun
      exact hidle (renewing_iff.mpr ⟨i, task, htask, hi, by simpa using hrun⟩)
    refine .of_orderlyAt (some (.acquiring none)) (.of_still _ ?_ h.key hstill ?_) rfl
    · exact running_acquire (a := .setting none) hquiet rfl rfl
    · rintro j ⟨⟩

theorem OrderlyAt.kept_serveSet
    (hok : orderly c s (.serveSet j) = true) (hs : step c s (.serveSet j) = some s') :
    Kept c s s' := by
  have hkey : s.key ≠ some c.token := by simpa [orderly] using hok
  simp only [step] at hs
  split at hs
  · rename_i hj
    cases hs
    obtain rfl := call_of_acquire h.running hj rfl
    refine .of_orderlyAt (some (.acquiring (some s.key.isNone)))
      (.of_still _ ?_ ?_ (h.still (by rintro _ ⟨⟩)) (by rintro _ ⟨⟩)) rfl
    · exact running_set_acquire (.setting (some s.key.isNone)) h.running hj rfl rfl rfl
    · cases hnone : s.key with
      | none => trivial
      | some token =>
        rw [hnone] at hkey
        exact hkey
  · cases hs

theorem OrderlyAt.kept_acquireRaises
    (hok : orderly c s (.acquireRaises j) = true) (hs : step c s (.acquireRaises j) = some s') :
    Kept c s s' := by
  simp only [step] at hs
  split at hs
  · rename_i reply hj
    cases hs
    obtain rfl := call_of_acquire h.running hj rfl
    refine .of_orderlyAt none (.of_still _ ?_ ?_ (h.still (by rintro _ ⟨⟩)) (by rintro _ ⟨⟩)) rfl
    · exact running_set_acquire .raised h.running hj rfl rfl rfl
    · rcases reply with _ | _ | _
      · exact h.key
      · exact fun hown => absurd hown h.key
      · simp [orderly, hj] at hok
  · cases hs

theorem OrderlyAt.kept_releaseResume
    (hs : step c s (.releaseResume j) = some s') : Kept c s s' := by
  simp only [step] at hs
  split at hs
  · rename_i i hj
    split at hs
    · rename_i outcome cancelRequested hi
      cases hs
      obtain rfl := call_of_release h.running hj rfl
      have hphase : phaseAfter s outcome = deletePhase s := by
        cases outcome with
        | lost | cancelled => rfl
        | raised => exact absurd rfl (((h.tasks hi).2 rfl).2)
      have hstill : s.Still := by
        intro task hmem
        obtain ⟨k, hk⟩ := mem_iff_getElem?.mp hmem
        cases hrun : task.running with
        | false => rfl
        | true =>
          obtain rfl : k = i := (h.tasks hk).1 hrun
          rw [some.inj (hk.symm.trans hi)] at hrun
          cases hrun
      rw [hphase]
      obtain ⟨horderly, hgone⟩ := orderlyAt_deletePhase
        { s with releases := s.releases.set j (deletePhase s) } hstill rfl
        (running_set_release (deletePhase s) h.running hj rfl rfl rfl) h.key
      exact ⟨⟨_, horderly⟩, fun hends => ⟨hgone (hends.of_set rfl), hstill⟩⟩
    · cases hs
  · cases hs

theorem OrderlyAt.kept_serveDelete (hs : step c s (.serveDelete j) = some s') : Kept c s s' := by
  simp only [step] at hs
  split at hs
  · rename_i hj
    cases hs
    obtain rfl := call_of_release h.running hj rfl
    have hgone : (if s.key = some c.token then none else s.key) ≠ some c.token := by
      split
      · rintro ⟨⟩
      · next hne => exact hne
    refine ⟨⟨_, .of_still (some (.deleting (some (s.key = some c.token)))) ?_ hgone
      (h.still (by rintro _ ⟨⟩)) (by rintro _ ⟨⟩)⟩, fun hends => ?_⟩
    · exact running_set_release (.deleting (some (s.key = some c.token))) h.running hj rfl rfl rfl
    · cases hends.of_set rfl
  · cases hs

theorem OrderlyAt.kept_releaseReply (hs : step c s (.releaseReply j) = some s') : Kept c s s' := by
  simp only [step] at hs
  split at hs
  · rename_i hj
    cases hs
    obtain rfl := call_of_release h.running hj rfl
    have hstill : s.Still := h.still (by rintro _ ⟨⟩)
    refine ⟨⟨none, .of_still _ ?_ (fun hown => absurd hown h.key) hstill (by rintro _ ⟨⟩)⟩,
      fun _ => ⟨h.key, hstill⟩⟩
    exact running_set_release .returned h.running hj rfl rfl rfl
  · cases hs

theorem OrderlyAt.kept_tick (hs : step c s (.tick i) = some s') : Kept c s s' := by
  simp only [step] at hs
  split at hs
  · rename_i hi
    obtain ⟨rfl, htask, -⟩ := h.own_task hi rfl rfl
    split at hs
    · cases hs
      refine h.setTask rfl rfl rfl rfl rfl h.key fun _ => ?_
      exact ⟨htask, rfl, by rintro ⟨⟩⟩
    · cases hs
      exact h.setTask rfl rfl rfl rfl rfl h.key (taskFits_ended _ (by rintro _ ⟨⟩))
  · cases hs

theorem OrderlyAt.kept_serveExtend (hs : step c s (.serveExtend i) = some s') : Kept c s s' := by
  simp only [step] at hs
  split at hs
  · rename_i cancelRequested hi
    cases hs
    refine h.setTask rfl rfl rfl rfl rfl h.key ?_
    have hfits := h.tasks hi
    cases call with
    | none =>
      refine fun _ => ⟨(hfits rfl).1, (hfits rfl).2.1, fun hrefused => ?_⟩
      have hnot : s.key ≠ some c.token := by simpa using hrefused
      exact hnot
    | some x =>
      cases x with
      | awaiting k => exact ⟨fun _ => hfits.1 rfl, fun hik => ⟨(hfits.2 hik).1, by rintro ⟨⟩⟩⟩
      | acquiring | deleting => cases hfits
  · cases hs

theorem OrderlyAt.kept_extendReply (hs : step c s (.extendReply i) = some s') : Kept c s s' := by
  simp only [step] at hs
  split at hs
  · rename_i hi
    cases hs
    obtain ⟨rfl, htask, -⟩ := h.own_task hi rfl rfl
    refine h.setTask rfl rfl rfl rfl rfl h.key fun _ => ?_
    exact ⟨htask, rfl, by rintro ⟨⟩⟩
  · rename_i hi
    cases hs
    obtain ⟨rfl, -, hrefused⟩ := h.own_task hi rfl rfl
    exact h.setTask rfl rfl rfl rfl rfl (fun hown => absurd hown (hrefused rfl))
      (taskFits_ended _ (by rintro _ ⟨⟩))
  · cases hs

/-- **The step lemma**: an orderly step of a lease in order, with Redis answering the script of
`release`. -/
theorem kept_step {e : Event T} (hok : orderly c s e = true)
    (hanswers : ∀ call, e ≠ .releaseRaises call) (hs : step c s e = some s') : Kept c s s' := by
  cases e with
  | acquire => exact h.kept_acquire hok hs
  | serveSet j => exact h.kept_serveSet hok hs
  | acquireReply j =>
    simp only [step] at hs
    split at hs
    · rename_i ok hj
      cases hs
      refine .of_orderlyAt _ (h.acquired hj) ?_
      cases ok <;> rfl
    · cases hs
  | acquireRaises j => exact h.kept_acquireRaises hok hs
  | release =>
    obtain ⟨hquiet, hraised⟩ : s.running = [] ∧ s.renewalRaised = false := by
      simpa [orderly] using hok
    obtain rfl := h.call_eq_none hquiet
    exact h.startRelease hraised hs
  | releaseResume j => exact h.kept_releaseResume hs
  | serveDelete j => exact h.kept_serveDelete hs
  | releaseReply j => exact h.kept_releaseReply hs
  | releaseRaises j => exact absurd rfl (hanswers j)
  | tick i => exact h.kept_tick hs
  | serveExtend i => exact h.kept_serveExtend hs
  | extendReply i => exact h.kept_extendReply hs
  | extendRaises i =>
    simp only [step] at hs
    split at hs
    · rename_i reply hi
      cases hs
      obtain ⟨rfl, -, -⟩ := h.own_task hi rfl rfl
      exact h.setTask rfl rfl rfl rfl rfl h.key (taskFits_ended _ (by rintro _ ⟨⟩))
    · cases hs
  | deliverCancel i =>
    simp only [step] at hs
    split at hs
    · cases hs
    · cases hs
      exact h.setTask rfl rfl rfl rfl rfl h.key
        (taskFits_ended _ fun _ _ => ⟨rfl, by rintro ⟨⟩⟩)
    · cases hs
  | expire =>
    cases hs
    exact .of_orderlyAt _ (h.setKey (by rintro ⟨⟩)) rfl
  | otherTakes token =>
    simp only [step] at hs
    split at hs
    · rename_i hfree
      cases hs
      exact .of_orderlyAt _ (h.setKey fun hown => hfree.2 (some.inj hown)) rfl
    · cases hs

end

/-- **The run lemma**: an orderly run, with Redis answering the script of `release`, keeps the lease
in order. -/
theorem orderly_run {key : Option T} {es : List (Event T)} (hfresh : key ≠ some c.token)
    (hok : StepsMeet (step c) (fun s e => orderly c s e = true) (.initial key) es)
    (hanswers : ∀ call, .releaseRaises call ∉ es) (hrun : run (step c) (.initial key) es = some s) :
    ∃ call, OrderlyAt c s call := by
  have hinitial : ∃ call, OrderlyAt c (.initial key) call :=
    ⟨none, .of_still none rfl (fun hown => absurd hown hfresh) (by rintro _ ⟨⟩) (by rintro _ ⟨⟩)⟩
  refine run_invariant_where_mem (P := fun s => ∃ call, OrderlyAt c s call) ?_ hinitial hok hrun
  rintro s e s' he ⟨call, h⟩ hmeets hs
  refine (kept_step h hmeets (fun j heq => ?_) hs).orderly
  exact hanswers j (heq ▸ he)

end

/-- **A `release` that has ended has given the lease up**: in every orderly run in which Redis
answers its script, the key does not hold this instance's token then and no renew task is running.
-/
theorem release_gives_up [DecidableEq T] (c : Config T) (key : Option T)
    (hfresh : key ≠ some c.token) (es : List (Event T)) (e : Event T) (s s' : State T)
    (hrun : run (step c) (.initial key) es = some s) (hs : step c s e = some s')
    (hanswers : ∀ call, .releaseRaises call ∉ es ++ [e])
    (hok : StepsMeet (step c) (fun s e => orderly c s e = true) (.initial key) (es ++ [e]))
    (hends : EndsRelease s s') :
    s'.key ≠ some c.token ∧ ∀ task ∈ s'.tasks, task.running = false := by
  obtain ⟨hpast, hlast⟩ := stepsMeet_append hok hrun
  obtain ⟨call, h⟩ := orderly_run hfresh hpast
    (fun call hmem => hanswers call (mem_append_left _ hmem)) hrun
  refine (kept_step h (stepsMeet_cons hlast hs).1 (fun call heq => ?_) hs).released hends
  exact hanswers call (by simp [heq])

/-- A lease that renews, raises at its next renewal, loses the key by expiry, leads again and is
released in the middle of a renewal. -/
def regainSchedule : List (Event Bool) :=
  [.acquire, .serveSet 0, .acquireReply 0, .tick 0, .serveExtend 0, .extendReply 0, .tick 0,
    .extendRaises 0, .expire, .acquire, .serveSet 1, .acquireReply 1, .tick 1, .release,
    .serveExtend 1, .deliverCancel 1, .releaseResume 0, .serveDelete 0]

theorem release_gives_up_regainSchedule :
    ∃ s', run (step ⟨true, true⟩) (.initial none) (regainSchedule ++ [.releaseReply 0]) = some s' ∧
      s'.releases = [.returned] ∧ s'.key ≠ some true ∧
      ∀ task ∈ s'.tasks, task.running = false := by
  obtain ⟨s, s', hrun, hs, hbefore, hafter⟩ :
      ∃ s s', run (step ⟨true, true⟩) (.initial none) regainSchedule = some s ∧
        step ⟨true, true⟩ s (.releaseReply 0) = some s' ∧
        s.releases = [.deleting (some true)] ∧ s'.releases = [.returned] :=
    ⟨_, _, rfl, rfl, rfl, rfl⟩
  have hends : EndsRelease s s' := by
    refine ⟨0, .returned, by rw [hafter]; rfl, rfl, fun r' hr' => ?_⟩
    rw [hbefore] at hr'
    obtain rfl : ReleasePhase.deleting (some true) = r' := some.inj hr'
    rintro ⟨⟩
  refine ⟨s', by rw [run_append, hrun, bind_some, run_cons, hs]; rfl, hafter, ?_⟩
  exact release_gives_up ⟨true, true⟩ none (by decide) regainSchedule (.releaseReply 0) s s' hrun hs
    (by simp [regainSchedule]) (by decide +kernel) hends

/-- **A lease that is not given up**: a renewal raises, and `release` raises the exception again
instead of deleting the key. -/
theorem raisedRenewal_not_released :
    ∃ s s', run (step ⟨true, true⟩) (.initial none)
        [.acquire, .serveSet 0, .acquireReply 0, .tick 0, .extendRaises 0] = some s ∧
      step ⟨true, true⟩ s .release = some s' ∧ EndsRelease s s' ∧ s'.releases = [.raised] ∧
      s'.key = some true := by
  refine ⟨_, _, rfl, rfl, ⟨0, .raised, rfl, rfl, fun r' hr' => ?_⟩, rfl, rfl⟩
  cases hr'

end ServiceToolkit.Lease
