import Mathlib.Tactic.Common
import ServiceToolkit.Runs

/-!
# The Leader Lease

`LeaderLease` keeps a key in Redis for as long as this instance leads: `acquire` takes the
key and starts a renew task, the task extends the key's life at every tick, and `release`
cancels the task and deletes the key. Whether the instance believes itself leader is spread
over three places: the lock's own `_held` flag, the `_lost` event and the renew task.

## The scheduler

Any number of `acquire` and `release` calls may be running on one lease. An `Event` is what
happens between two awaits of one of them or of a renew task, or what happens outside:

* a call starts; the server executes the command a call or a task has sent; the reply, or an
  error in its place, reaches the one that sent it;
* the sleep of a renew task is over (`tick`); a cancellation reaches it;
* the key expires, or another instance takes it.

The server executes `SET NX PX` and the two scripts atomically, at any time between the
sending and the reply. Expiry may come at any time, so the model has no clock and no TTL.

Renew tasks are numbered in the order of their creation; `onLost` lists, for every
scheduled `on_lost` callback, the task that scheduled it.
-/

namespace ServiceToolkit.Lease

open Option

/-- How a renew task ended: its renewal was refused, `release` cancelled it, or its renewal
raised. -/
inductive Outcome
  | lost
  | cancelled
  | raised
  deriving DecidableEq

/-- Where a renew task is. A reply is there once the server has executed the script. -/
inductive RenewPhase
  | sleeping
  | extending (reply : Option Bool)
  | ended (outcome : Outcome)
  deriving DecidableEq

/-- A renew task. -/
structure RenewTask where
  phase : RenewPhase
  cancelRequested : Bool
  deriving DecidableEq

/-- `not task.done()`. -/
def RenewTask.running (task : RenewTask) : Bool :=
  match task.phase with
  | .ended _ => false
  | _ => true

/-- Where an `acquire` call is. -/
inductive AcquirePhase
  | setting (reply : Option Bool)
  | returned (result : Bool)
  | raised
  deriving DecidableEq

/-- Where a `release` call is. -/
inductive ReleasePhase
  | awaiting (task : ℕ)
  | deleting (reply : Option Bool)
  | returned
  | raised
  deriving DecidableEq

/-- What is fixed for a lease: its token, and whether it was given an `on_lost` callback. -/
structure Config (T : Type*) where
  token : T
  onLost : Bool

/-- The lease, its calls and tasks, and the key in Redis: the token it holds, if any. -/
structure State (T : Type*) where
  key : Option T
  held : Bool
  lost : Bool
  task : Option ℕ
  tasks : List RenewTask
  onLost : List ℕ
  acquires : List AcquirePhase
  releases : List ReleasePhase
  deriving DecidableEq

/-- A fresh lease; the key may be anyone's. -/
def State.initial {T : Type*} (key : Option T) : State T :=
  ⟨key, false, false, none, [], [], [], []⟩

/-- What can happen next. -/
inductive Event (T : Type*)
  | acquire
  | serveSet (call : ℕ)
  | acquireReply (call : ℕ)
  | acquireRaises (call : ℕ)
  | release
  | releaseResume (call : ℕ)
  | serveDelete (call : ℕ)
  | releaseReply (call : ℕ)
  | releaseRaises (call : ℕ)
  | tick (task : ℕ)
  | serveExtend (task : ℕ)
  | extendReply (task : ℕ)
  | extendRaises (task : ℕ)
  | deliverCancel (task : ℕ)
  | expire
  | otherTakes (token : T)
  deriving DecidableEq

variable {T : Type*}

/-- `LeaderLease.held`. -/
def State.isHeld (s : State T) : Bool := s.held && !s.lost

/-- The lease's renew task is there and not done. -/
def State.renewing (s : State T) : Bool :=
  (s.task.bind (s.tasks[·]?)).any RenewTask.running

/-- `acquire` after the reply to its `SET`. -/
def acquired (s : State T) (call : ℕ) (ok : Bool) : State T :=
  if ok then
    { s with
      held := true
      lost := false
      task := some s.tasks.length
      tasks := s.tasks ++ [⟨.sleeping, false⟩]
      acquires := s.acquires.set call (.returned true) }
  else { s with held := false, acquires := s.acquires.set call (.returned false) }

/-- `RedisLock.release` as far as its first await. -/
def deletePhase (s : State T) : ReleasePhase := if s.held then .deleting none else .returned

/-- `release` once the task it awaited has ended: an exception of the task comes out of the
`await`. -/
def phaseAfter (s : State T) : Outcome → ReleasePhase
  | .raised => .raised
  | .lost | .cancelled => deletePhase s

/-- `release` as far as its first await. -/
def startRelease (s : State T) : Option (State T) :=
  let s₁ := { s with task := none, lost := true }
  match s.task with
  | none => some { s₁ with releases := s.releases ++ [deletePhase s] }
  | some i =>
    match s.tasks[i]? with
    | none => none
    | some ⟨.ended outcome, _⟩ =>
      some { s₁ with releases := s.releases ++ [phaseAfter s outcome] }
    | some task =>
      some { s₁ with
        tasks := s.tasks.set i { task with cancelRequested := true }
        releases := s.releases ++ [.awaiting i] }

/-- A renew task moves on. -/
def moveTask (s : State T) (i : ℕ) (phase : RenewPhase) (cancelRequested : Bool) : State T :=
  { s with tasks := s.tasks.set i ⟨phase, cancelRequested⟩ }

/-- A renew task whose renewal was refused: it sets `_lost`, schedules `on_lost` and ends. -/
def lose (c : Config T) (s : State T) (i : ℕ) : State T :=
  { moveTask s i (.ended .lost) false with
    lost := true
    onLost := if c.onLost then s.onLost ++ [i] else s.onLost }

variable [DecidableEq T]

/-- One event. -/
def step (c : Config T) (s : State T) : Event T → Option (State T)
  | .acquire =>
    if s.renewing then some { s with acquires := s.acquires ++ [.returned s.isHeld] }
    else some { s with acquires := s.acquires ++ [.setting none] }
  | .serveSet call =>
    match s.acquires[call]? with
    | some (.setting none) =>
      some { s with
        key := s.key.or (some c.token)
        acquires := s.acquires.set call (.setting (some s.key.isNone)) }
    | _ => none
  | .acquireReply call =>
    match s.acquires[call]? with
    | some (.setting (some ok)) => some (acquired s call ok)
    | _ => none
  | .acquireRaises call =>
    match s.acquires[call]? with
    | some (.setting _) => some { s with acquires := s.acquires.set call .raised }
    | _ => none
  | .release => startRelease s
  | .releaseResume call =>
    match s.releases[call]? with
    | some (.awaiting i) =>
      match s.tasks[i]? with
      | some ⟨.ended outcome, _⟩ =>
        some { s with releases := s.releases.set call (phaseAfter s outcome) }
      | _ => none
    | _ => none
  | .serveDelete call =>
    match s.releases[call]? with
    | some (.deleting none) =>
      some { s with
        key := if s.key = some c.token then none else s.key
        releases := s.releases.set call (.deleting (some (s.key = some c.token))) }
    | _ => none
  | .releaseReply call =>
    match s.releases[call]? with
    | some (.deleting (some _)) =>
      some { s with held := false, releases := s.releases.set call .returned }
    | _ => none
  | .releaseRaises call =>
    match s.releases[call]? with
    | some (.deleting _) => some { s with releases := s.releases.set call .raised }
    | _ => none
  | .tick i =>
    match s.tasks[i]? with
    | some ⟨.sleeping, false⟩ =>
      if s.held then some (moveTask s i (.extending none) false) else some (lose c s i)
    | _ => none
  | .serveExtend i =>
    match s.tasks[i]? with
    | some ⟨.extending none, cancelRequested⟩ =>
      some (moveTask s i (.extending (some (s.key = some c.token))) cancelRequested)
    | _ => none
  | .extendReply i =>
    match s.tasks[i]? with
    | some ⟨.extending (some true), false⟩ => some (moveTask s i .sleeping false)
    | some ⟨.extending (some false), false⟩ => some (lose c { s with held := false } i)
    | _ => none
  | .extendRaises i =>
    match s.tasks[i]? with
    | some ⟨.extending _, false⟩ => some (moveTask s i (.ended .raised) false)
    | _ => none
  | .deliverCancel i =>
    match s.tasks[i]? with
    | some ⟨.ended _, _⟩ => none
    | some ⟨_, true⟩ => some (moveTask s i (.ended .cancelled) true)
    | _ => none
  | .expire => some { s with key := none }
  | .otherTakes token =>
    if s.key = none ∧ token ≠ c.token then some { s with key := some token } else none

/-! ### The agreement of flag, event and task -/

omit [DecidableEq T] in
theorem renewing_iff {s : State T} :
    s.renewing = true ↔
      ∃ i task, s.task = some i ∧ s.tasks[i]? = some task ∧ task.running = true := by
  simp only [State.renewing, any_eq_true, bind_eq_some_iff]
  constructor
  · rintro ⟨task, ⟨i, hi, htask⟩, hrunning⟩
    exact ⟨i, task, hi, htask, hrunning⟩
  · rintro ⟨i, task, hi, htask, hrunning⟩
    exact ⟨task, ⟨i, hi, htask⟩, hrunning⟩

/-- What is true of every renew task: the one the lease refers to is not being cancelled, one whose
renewal was refused scheduled the callback, and none ended on an exception. -/
structure TaskOk (c : Config T) (s : State T) (i : ℕ) (task : RenewTask) : Prop where
  not_cancelled : s.task = some i → task.cancelRequested = false
  scheduled : c.onLost = true → task.phase = .ended .lost → i ∈ s.onLost
  not_raised : task.phase ≠ .ended .raised

/-- The **agreement** of the lock's flag, the `_lost` event and the renew tasks: a lease that
reports itself held is being renewed. -/
structure Inv (c : Config T) (s : State T) : Prop where
  held_renewing : s.isHeld = true → s.renewing = true
  tasks : ∀ {i : ℕ} {task : RenewTask}, s.tasks[i]? = some task → TaskOk c s i task

section

omit [DecidableEq T]

variable {c : Config T} {s s' : State T} {i : ℕ} {task : RenewTask}

theorem Inv.initial (c : Config T) (key : Option T) : Inv c (.initial key) where
  held_renewing := by simp [State.initial, State.isHeld]
  tasks := by simp [State.initial]

theorem TaskOk.mono (h : TaskOk c s i task) (htask : ∀ j, s'.task = some j → s.task = some j)
    (honLost : s.onLost ⊆ s'.onLost) : TaskOk c s' i task where
  not_cancelled hi := h.not_cancelled (htask i hi)
  scheduled hc hp := honLost (h.scheduled hc hp)
  not_raised := h.not_raised

theorem Inv.frame (h : Inv c s) (hheld : s'.isHeld = true → s.isHeld = true)
    (htask : s'.task = s.task) (htasks : s'.tasks = s.tasks) (honLost : s'.onLost = s.onLost) :
    Inv c s' where
  held_renewing hs := by
    rw [State.renewing, htask, htasks]
    exact h.held_renewing (hheld hs)
  tasks := by
    rw [htasks]
    exact fun hi => (h.tasks hi).mono (fun _ => htask ▸ id) (honLost ▸ fun _ => id)

theorem Inv.tasks_set (h : Inv c s) (s' : State T) (i : ℕ) (task : RenewTask)
    (htasks : s'.tasks = s.tasks.set i task) (hself : ∀ j, s'.task = some j → s.task = some j)
    (honLost : s.onLost ⊆ s'.onLost) (hok : TaskOk c s' i task) :
    ∀ {j : ℕ} {task' : RenewTask}, s'.tasks[j]? = some task' → TaskOk c s' j task' := by
  rw [htasks]
  exact forall_getElem?_set (P := TaskOk c s') (fun hj _ => (h.tasks hj).mono hself honLost) hok

theorem Inv.acquired (h : Inv c s) (call : ℕ) (ok : Bool) : Inv c (acquired s call ok) := by
  cases ok with
  | false => exact h.frame (by simp [Lease.acquired, State.isHeld]) rfl rfl rfl
  | true =>
    refine ⟨fun _ => renewing_iff.mpr ⟨s.tasks.length, _, rfl, List.getElem?_concat_length, rfl⟩,
      forall_getElem?_concat ?_ ⟨fun _ => rfl, by simp, by simp⟩⟩
    intro i task hi
    have hlt : i < s.tasks.length := lt_of_getElem? hi
    refine ⟨fun hnew => ?_, (h.tasks hi).scheduled, (h.tasks hi).not_raised⟩
    obtain rfl : s.tasks.length = i := some.inj hnew
    omega

/-- `release` lets go of its task and sets `_lost`, so nothing is reported held. -/
theorem Inv.startRelease (h : Inv c s) (hs : startRelease s = some s') : Inv c s' := by
  have hfree : ∀ {i : ℕ} {task : RenewTask}, s.tasks[i]? = some task →
      ∀ {s' : State T}, s'.task = none → s'.onLost = s.onLost → TaskOk c s' i task :=
    fun hi s' htask honLost =>
      (h.tasks hi).mono (fun j hj => by rw [htask] at hj; cases hj) (honLost ▸ fun _ => id)
  unfold Lease.startRelease at hs
  simp only at hs
  split at hs
  · cases hs
    exact ⟨by simp [State.isHeld], fun hi => hfree hi rfl rfl⟩
  · rename_i j hj
    split at hs
    · cases hs
    · cases hs
      exact ⟨by simp [State.isHeld], fun hi => hfree hi rfl rfl⟩
    · rename_i task hphase htask
      cases hs
      refine ⟨by simp [State.isHeld], ?_⟩
      refine h.tasks_set _ j { task with cancelRequested := true } rfl ?_ ?_ ?_
      · intro k hk
        cases hk
      · exact List.Subset.refl _
      · exact ⟨(by cases ·), (h.tasks htask).scheduled, (h.tasks htask).not_raised⟩

theorem Inv.move (h : Inv c s) (hi : s.tasks[i]? = some task) {phase : RenewPhase}
    (hphase : ∀ o, phase ≠ .ended o) : Inv c (moveTask s i phase task.cancelRequested) where
  held_renewing hs := by
    obtain ⟨j, task', hj, htask', hrunning⟩ := renewing_iff.mp (h.held_renewing hs)
    rw [renewing_iff]
    by_cases hij : i = j
    · subst hij
      refine ⟨i, _, hj, getElem?_set_some hi, ?_⟩
      cases phase with
      | ended o => exact absurd rfl (hphase o)
      | _ => rfl
    · exact ⟨j, task', hj, (List.getElem?_set_ne hij).trans htask', hrunning⟩
  tasks := h.tasks_set (moveTask s i phase task.cancelRequested) i
    ⟨phase, task.cancelRequested⟩ rfl (fun _ => id) (fun _ => id)
    ⟨(h.tasks hi).not_cancelled, fun _ hp => absurd hp (hphase _), hphase _⟩

theorem Inv.lose (h : Inv c s) (i : ℕ) : Inv c (lose c s i) where
  held_renewing hs := by simp [Lease.lose, State.isHeld] at hs
  tasks := h.tasks_set (Lease.lose c s i) i ⟨.ended .lost, false⟩ rfl (fun _ => id)
    (by simp only [Lease.lose]; split <;> simp)
    ⟨fun _ => rfl, fun hc _ => by simp [Lease.lose, hc], by simp⟩

theorem Inv.cancel (h : Inv c s) (hi : s.tasks[i]? = some task)
    (hcancel : task.cancelRequested = true) : Inv c (moveTask s i (.ended .cancelled) true) where
  held_renewing hs := by
    obtain ⟨j, task', hj, htask', hrunning⟩ := renewing_iff.mp (h.held_renewing hs)
    have hij : i ≠ j := by
      rintro rfl
      rw [(h.tasks hi).not_cancelled hj] at hcancel
      cases hcancel
    exact renewing_iff.mpr ⟨j, task', hj, (List.getElem?_set_ne hij).trans htask', hrunning⟩
  tasks := h.tasks_set (moveTask s i (.ended .cancelled) true) i ⟨.ended .cancelled, true⟩ rfl
    (fun _ => id) (fun _ => id)
    ⟨fun hj => absurd ((h.tasks hi).not_cancelled hj) (by simp [hcancel]), by simp, by simp⟩

end

/-! ### Runs -/

/-- The event is a renewal that raises. -/
def Event.raisesRenewal : Event T → Bool
  | .extendRaises _ => true
  | _ => false

/-- The step is not a renewal that raises. -/
def NoRaise (_ : State T) (e : Event T) : Prop := e.raisesRenewal = false

instance (s : State T) (e : Event T) : Decidable (NoRaise s e) :=
  inferInstanceAs (Decidable (e.raisesRenewal = false))

/-- **The step lemma.** -/
theorem inv_step {c : Config T} {s s' : State T} {e : Event T} (h : Inv c s) (hok : NoRaise s e)
    (hs : step c s e = some s') : Inv c s' := by
  cases e with
  | acquire =>
    simp only [step] at hs
    split at hs <;> cases hs <;> exact h.frame id rfl rfl rfl
  | serveSet call | acquireRaises call | serveDelete call | releaseRaises call | otherTakes token =>
    simp only [step] at hs
    split at hs
    · cases hs
      exact h.frame id rfl rfl rfl
    · cases hs
  | acquireReply call =>
    simp only [step] at hs
    split at hs
    · cases hs
      exact h.acquired call _
    · cases hs
  | release => exact h.startRelease hs
  | releaseResume call =>
    simp only [step] at hs
    split at hs
    · split at hs
      · cases hs
        exact h.frame id rfl rfl rfl
      · cases hs
    · cases hs
  | releaseReply call =>
    simp only [step] at hs
    split at hs
    · cases hs
      exact h.frame (by simp [State.isHeld]) rfl rfl rfl
    · cases hs
  | tick i =>
    simp only [step] at hs
    split at hs
    · rename_i hi
      split at hs <;> cases hs
      · exact h.move hi (by simp)
      · exact h.lose i
    · cases hs
  | serveExtend i =>
    simp only [step] at hs
    split at hs
    · rename_i cancelRequested hi
      cases hs
      exact h.move hi (by simp)
    · cases hs
  | extendReply i =>
    simp only [step] at hs
    split at hs
    · rename_i hi
      cases hs
      exact h.move hi (by simp)
    · rename_i hi
      cases hs
      have hdropped : Inv c { s with held := false } :=
        h.frame (by simp [State.isHeld]) rfl rfl rfl
      exact hdropped.lose i
    · cases hs
  | extendRaises i => cases hok
  | deliverCancel i =>
    simp only [step] at hs
    split at hs
    · cases hs
    · rename_i hi
      cases hs
      exact h.cancel hi rfl
    · cases hs
  | expire =>
    cases hs
    exact h.frame id rfl rfl rfl

/-- **The run lemma.** -/
theorem inv_run {c : Config T} {s s' : State T} {es : List (Event T)} (h : Inv c s)
    (hok : StepsMeet (step c) NoRaise s es) (hrun : run (step c) s es = some s') : Inv c s' :=
  run_invariant_where inv_step h hok hrun

/-- **A lease is held only while it is renewed.** In every run in which no renewal raises: whenever
the renew task is not running, the lease does not report itself held, and every renew task that
ended other than through `release` scheduled `on_lost`. -/
theorem lease_held_only_while_renewing (c : Config T) (key : Option T) (es : List (Event T))
    (s : State T) (hok : StepsMeet (step c) NoRaise (.initial key) es)
    (hrun : run (step c) (.initial key) es = some s) :
    (s.renewing = false → s.isHeld = false) ∧
      (c.onLost = true → ∀ i task outcome, s.tasks[i]? = some task →
        task.phase = .ended outcome → outcome ≠ .cancelled → i ∈ s.onLost) := by
  have hinv : Inv c s := inv_run (Inv.initial c key) hok hrun
  constructor
  · intro hidle
    by_contra hheld
    rw [hinv.held_renewing (by simpa using hheld)] at hidle
    cases hidle
  · intro hc i task outcome hi hended hnot
    cases outcome with
    | lost => exact (hinv.tasks hi).scheduled hc hended
    | cancelled => exact absurd rfl hnot
    | raised => exact absurd hended (hinv.tasks hi).not_raised

/-- A lease that renews once, loses its key to another instance and notices at the next
tick. -/
def lostSchedule : List (Event Bool) :=
  [.acquire, .serveSet 0, .acquireReply 0, .tick 0, .serveExtend 0, .extendReply 0, .expire,
    .otherTakes false, .tick 0, .serveExtend 0, .extendReply 0]

/-- There the lease stops reporting itself held and schedules `on_lost`. -/
theorem lostSchedule_not_held :
    ∃ s, run (step ⟨true, true⟩) (.initial none) lostSchedule = some s ∧
      s.renewing = false ∧ s.isHeld = false ∧ 0 ∈ s.onLost := by
  obtain ⟨s, hrun, hidle, task, htask, hphase⟩ :
      ∃ s, run (step ⟨true, true⟩) (.initial none) lostSchedule = some s ∧
        s.renewing = false ∧ ∃ task, s.tasks[0]? = some task ∧ task.phase = .ended .lost :=
    ⟨_, rfl, rfl, _, rfl, rfl⟩
  obtain ⟨hheld, hlost⟩ := lease_held_only_while_renewing ⟨true, true⟩ none lostSchedule s
    (by decide) hrun
  exact ⟨s, hrun, hidle, hheld hidle, hlost rfl 0 task .lost htask hphase (by decide)⟩

/-- A renewal that raises, after which the key expires and another instance takes it. -/
def raisingSchedule : List (Event Bool) :=
  [.acquire, .serveSet 0, .acquireReply 0, .tick 0, .extendRaises 0, .expire, .otherTakes false]

/-- **Two leaders**: the renew task ended on the exception, nothing was scheduled, and the
lease still reports itself held while the key is another instance's. -/
theorem raisingRenewal_keeps_leading :
    ∃ s, run (step ⟨true, true⟩) (.initial none) raisingSchedule = some s ∧
      s.renewing = false ∧ s.isHeld = true ∧ s.tasks = [⟨.ended .raised, false⟩] ∧
      s.onLost = [] ∧ s.key = some false :=
  ⟨_, rfl, rfl, rfl, rfl, rfl, rfl⟩

end ServiceToolkit.Lease
