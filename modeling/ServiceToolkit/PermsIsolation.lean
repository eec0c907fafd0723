import ServiceToolkit.PermsBookkeeping
import ServiceToolkit.SharedTasks

/-!
# Isolation of the Callers of a Fetch

The owner of a fetch and every caller that joined it await the same task directly, so cancelling
one of them cancels the fetch for all: a caller that nobody cancelled then ends with the
`CancelledError` of another (`cancelled_with_the_owner`).

The module proves what does hold. Where a caller is cancelled during its fetch only when no other
call awaits the fetch, and a fetch that is being cancelled is not joined (`isolated`), **every
call that was not cancelled itself receives what the provider gave**: its answer, its error, or a
cancellation of the provider's own (`Abandoned`).
-/

namespace ServiceToolkit.Perms

open List Option

/-- The fetch was asked to end cancelled, and has not ended otherwise. -/
def Fetch.doomed (x : Fetch) : Bool :=
  x.cancelRequested &&
    match x.phase with
    | .finished (.entry _) | .finished .failed => false
    | _ => true

/-- How the calls of the resolver await its fetches. -/
def sharedFetches : SharedTasks.Awaiting Call Fetch where
  awaits c := c.phase.awaits
  marked := Call.mustCancel
  doomed := Fetch.doomed

/-- The fetch in flight for the subject, if any, can be joined. -/
def joinable (s : State) (key : SubjectKey) : Bool :=
  ((s.inflight.get? key).bind (s.fetches[·]?)).all fun x => !x.doomed

/-- **The condition on a step**: no call joins a doomed fetch, and a caller whose fetch has not
finished and is not yet doomed is cancelled only if no other call awaits the fetch. -/
def isolated (cfg : Config) (s : State) : Event → Bool
  | .get key now => (cached cfg s key now).isSome || joinable s key
  | .acquire i => (s.calls[i]?).all fun c => c.mustCancel || joinable s c.key
  | .cancel i =>
    (s.calls[i]?).all fun c => c.phase.awaits.all fun f => (s.fetches[f]?).all fun x =>
      match x.phase with
      | .finished _ => true
      | _ => x.doomed || sharedFetches.alone s.calls i f
  | _ => true

/-- The provider itself ended a fetch of the subject with a cancellation. -/
def Abandoned (fetches : List Fetch) (key : SubjectKey) : Prop :=
  ∃ (f : ℕ) (x : Fetch), fetches[f]? = some x ∧ x.key = key ∧ x.phase = .finished .cancelled ∧
    x.cancelRequested = false

/-- **The invariant**: a call that is to end cancelled was cancelled itself, and one that ended
cancelled was, or the provider did it. -/
structure Accounted (es : List Event) (s : State) : Prop where
  lost : sharedFetches.Accounted (fun i => .cancel i ∈ es) s.fetches s.calls
  ended : ∀ {i : ℕ} {c : Call}, s.calls[i]? = some c → c.phase = .done .cancelled →
    .cancel i ∈ es ∨ Abandoned s.fetches c.key

/-! ### Fetches -/

section

variable {cfg : Config} {s s' : State} {es : List Event} {e : Event} {fetches : List Fetch}
  {x : Fetch}

theorem Fetch.Unfinished.doomed_eq (hx : x.Unfinished) : x.doomed = x.cancelRequested := by
  obtain ⟨key, phase, cancelRequested⟩ := x
  cases phase with
  | finished o => exact absurd rfl (hx o)
  | scheduled | calling => exact Bool.and_true _

theorem doomed_of_cancelled (hx : x.phase = .finished .cancelled) :
    x.doomed = x.cancelRequested := by
  rw [Fetch.doomed, hx, Bool.and_true]

variable {key : SubjectKey}

theorem Abandoned.concat (h : Abandoned fetches key) (x : Fetch) :
    Abandoned (fetches ++ [x]) key := by
  obtain ⟨f, y, hy, hkey⟩ := h
  exact ⟨f, y, getElem?_append_some hy, hkey⟩

variable {f i : ℕ} {c : Call} {o : Outcome}

theorem Abandoned.set (h : Abandoned fetches key)
    (hx : fetches[f]? = some x) (hunfinished : x.Unfinished) (x' : Fetch) :
    Abandoned (fetches.set f x') key := by
  obtain ⟨g, y, hy, hkey, hphase, hrequested⟩ := h
  have hne : f ≠ g := by
    rintro rfl
    obtain rfl : x = y := some.inj (hx.symm.trans hy)
    exact hunfinished _ hphase
  exact ⟨g, y, (getElem?_set_ne hne).trans hy, hkey, hphase, hrequested⟩

/-! ### What keeps the calls accounted for -/

theorem lost_of_done {r : Result}
    (hlost : sharedFetches.lost fetches { c with phase := .done r } = true) :
    sharedFetches.lost fetches c = true := by
  have hmarked : c.mustCancel = true := by
    simpa [SharedTasks.Awaiting.lost, sharedFetches, Phase.awaits] using hlost
  exact SharedTasks.Awaiting.lost_of_marked hmarked

theorem Fetch.unfinished_of_ended {ph : FetchPhase} (h : x.ended o = some ph) : x.Unfinished := by
  obtain ⟨key, phase, cancelRequested⟩ := x
  cases phase with
  | calling => nofun
  | scheduled | finished => cases h

theorem not_lost_joined {mustCancel : Bool}
    (hmarked : mustCancel = false) (hf : s.inflight.get? key = some f)
    (hok : joinable s key = true) :
    sharedFetches.lost s.fetches ⟨key, .joined f, mustCancel⟩ = false := by
  rw [joinable, hf] at hok
  simpa [SharedTasks.Awaiting.lost, sharedFetches, Phase.awaits, hmarked, Option.any_eq_false,
    Option.all_eq_true] using hok

theorem settle_cancelled {epoch : ℕ}
    (h : (settle cfg s key epoch o).2 = .cancelled) : o = .cancelled := by
  cases o with
  | cancelled => rfl
  | failed => cases h
  | entry e =>
    simp only [settle] at h
    split at h
    · split at h <;> cases h
    · cases h

theorem Accounted.initial : Accounted [] State.initial where
  lost := SharedTasks.Awaiting.Accounted.nil
  ended := by simp [State.initial]

section

variable (h : Accounted es s)
include h

theorem Accounted.concat (e : Event) : Accounted (es ++ [e]) s where
  lost := h.lost.mono fun _ => mem_append_left _
  ended hi hc := (h.ended hi hc).imp_left (mem_append_left _)

theorem Accounted.frame (hcalls : s'.calls = s.calls)
    (hfetches : s'.fetches = s.fetches) : Accounted es s' where
  lost := by
    rw [hcalls, hfetches]
    exact h.lost
  ended := by
    rw [hcalls, hfetches]
    exact h.ended

theorem Accounted.concat_call
    (hlost : sharedFetches.lost s.fetches c = false) (hended : c.phase ≠ .done .cancelled) :
    Accounted es { s with calls := s.calls ++ [c] } where
  lost := h.lost.concat_call hlost
  ended := forall_getElem?_concat (P := fun i (c : Call) => c.phase = .done .cancelled →
    .cancel i ∈ es ∨ Abandoned s.fetches c.key) h.ended fun hc => absurd hc hended

theorem Accounted.set_call (hlost : sharedFetches.lost s.fetches c = true → .cancel i ∈ es)
    (hended : c.phase = .done .cancelled → .cancel i ∈ es ∨ Abandoned s.fetches c.key) :
    Accounted es { s with calls := s.calls.set i c } where
  lost := h.lost.set_call hlost
  ended := forall_getElem?_set (P := fun i (c : Call) => c.phase = .done .cancelled →
    .cancel i ∈ es ∨ Abandoned s.fetches c.key) (fun hi _ => h.ended hi) hended

theorem Accounted.set_fetch {x' : Fetch}
    (hx : s.fetches[f]? = some x) (hunfinished : x.Unfinished)
    (hrequested : x'.cancelRequested = x.cancelRequested) :
    Accounted es { s with fetches := s.fetches.set f x' } where
  lost := by
    refine h.lost.set_task hx fun hdoomed => hunfinished.doomed_eq.trans ?_
    exact hrequested ▸ (Bool.and_eq_true_iff.mp hdoomed).1
  ended hi hc := (h.ended hi hc).imp_right fun habandoned => habandoned.set hx hunfinished x'

theorem Accounted.set_done {r : Result} (hi : s.calls[i]? = some c)
    (hended : r = .cancelled → .cancel i ∈ es ∨ Abandoned s.fetches c.key) :
    Accounted es { s with calls := s.calls.set i { c with phase := .done r } } := by
  refine h.set_call (fun hlost => h.lost i c hi (lost_of_done hlost)) fun hr => hended ?_
  exact Phase.done.inj hr

/-! ### The steps -/

theorem Accounted.get {now : ℚ}
    (hok : isolated cfg s (.get key now) = true) : Accounted es (get cfg s key now) := by
  refine h.concat_call ?_ ?_
  · cases hc : cached cfg s key now with
    | some entry => rfl
    | none =>
      rw [isolated, hc] at hok
      cases hf : s.inflight.get? key with
      | some f => exact not_lost_joined rfl hf hok
      | none => rfl
  · cases cached cfg s key now with
    | some entry => nofun
    | none => cases s.inflight.get? key <;> nofun

theorem Accounted.lockBody (hmarked : c.mustCancel = false) (hok : joinable s c.key = true) :
    Accounted es (lockBody s i c) := by
  cases hf : s.inflight.get? c.key with
  | some f =>
    rw [Perms.lockBody, hf]
    refine h.set_call (fun hlost => ?_) (by rintro ⟨⟩)
    have hnot := not_lost_joined hmarked hf hok
    rw [hlost] at hnot
    cases hnot
  | none =>
    rw [lockBody_create hf]
    have hcreated : Accounted es { s with fetches := s.fetches ++ [⟨c.key, .scheduled, false⟩] } :=
      ⟨h.lost.concat_task rfl, fun hi hc => (h.ended hi hc).imp_right (·.concat _)⟩
    have howner : Accounted es { s with
        fetches := s.fetches ++ [⟨c.key, .scheduled, false⟩]
        calls := s.calls.set i
          { c with phase := .owner s.fetches.length (s.epochs.getD c.key.1 0) } } := by
      refine hcreated.set_call (fun hlost => ?_) (by rintro ⟨⟩)
      simp [SharedTasks.Awaiting.lost, sharedFetches, Phase.awaits, hmarked, Fetch.doomed] at hlost
    exact howner.frame rfl rfl

theorem Accounted.awaited_cancelled (hinv : Inv s)
    (hi : s.calls[i]? = some c) (hf : c.phase.awaits = some f)
    (ho : awaited s c f = some .cancelled) : .cancel i ∈ es ∨ Abandoned s.fetches c.key := by
  obtain ⟨x, o', hx, hphase, heq⟩ := awaited_eq_some ho
  cases hlost : sharedFetches.lost s.fetches c with
  | true => exact .inl (h.lost i c hi hlost)
  | false =>
    obtain ⟨x', hx', hkey⟩ := (hinv.calls c (mem_of_getElem? hi)).awaits hf
    obtain rfl : x = x' := some.inj (hx.symm.trans hx')
    simp only [SharedTasks.Awaiting.lost, sharedFetches, hf, bind_some, hx,
      any_some, Bool.or_eq_false_iff] at hlost
    rw [hlost.1] at heq
    obtain rfl : o' = .cancelled := heq.symm
    exact .inr ⟨f, x, hx, hkey, hphase, (doomed_of_cancelled hphase).symm.trans hlost.2⟩

theorem Accounted.resume (hinv : Inv s)
    (hi : s.calls[i]? = some c) (hresume : resume cfg s i c = some s') : Accounted es s' := by
  unfold Perms.resume at hresume
  split at hresume
  · rename_i f hc
    obtain ⟨o, ho, rfl⟩ := map_eq_some_iff.mp hresume
    refine h.set_done hi fun hr => h.awaited_cancelled hinv hi (by rw [hc]; rfl) ?_
    cases o with
    | cancelled => exact ho
    | entry | failed => cases hr
  · rename_i f epoch hc
    obtain ⟨o, ho, rfl⟩ := map_eq_some_iff.mp hresume
    rw [hinv.closeFetch_eq hi hc]
    refine (h.set_done hi fun hr => h.awaited_cancelled hinv hi (by rw [hc]; rfl) ?_).frame rfl rfl
    rw [settle_cancelled hr] at ho
    exact ho
  · cases hresume

theorem Accounted.cancel (hi : s.calls[i]? = some c)
    (hown : .cancel i ∈ es) (hok : isolated cfg s (.cancel i) = true) :
    Accounted es (cancel s i c) := by
  rcases cancel_cases s i c with ⟨f, x, hf, hx, hunfinished, heq⟩ | heq
  · rw [heq]
    simp only [isolated, hi, all_some, hf, hx] at hok
    refine ⟨h.lost.doom hx hown ?_, ?_⟩
    · split at hok
      · next o ho => exact absurd ho (hunfinished o)
      · exact Bool.or_eq_true _ _ ▸ hok
    · exact fun hi hc => (h.ended hi hc).imp_right fun hab => hab.set hx hunfinished _
  · rw [heq]
    exact h.set_call (fun _ => hown) fun _ => .inl hown

theorem Accounted.moveFetch {next : Fetch → Option FetchPhase}
    (hnext : ∀ {x ph}, next x = some ph → x.Unfinished)
    (hmove : moveFetch s f next = some s') : Accounted es s' := by
  simp only [Perms.moveFetch, bind, Option.bind_eq_some_iff, Option.pure_def,
    Option.some.injEq] at hmove
  obtain ⟨x, hx, ph, hph, rfl⟩ := hmove
  exact h.set_fetch hx (hnext hph) rfl

end

/-- **The step lemma.** -/
theorem accounted_step (h : Inv s ∧ Accounted es s) (hok : isolated cfg s e = true)
    (hstep : step cfg s e = some s') : Inv s' ∧ Accounted (es ++ [e]) s' := by
  refine ⟨inv_step h.1 hstep, ?_⟩
  have hes := h.2.concat e
  cases e with
  | get key now =>
    cases hstep
    exact hes.get hok
  | acquire i =>
    simp only [step, bind, bind_eq_some_iff] at hstep
    obtain ⟨c, hi, hstep⟩ := hstep
    simp only [isolated, hi, all_some, Bool.or_eq_true] at hok
    split at hstep
    · split at hstep
      · rename_i hmust
        cases hstep
        refine hes.set_done hi fun _ => .inl (hes.lost i c hi ?_)
        exact SharedTasks.Awaiting.lost_of_marked hmust
      · rename_i hmust
        cases hstep
        exact hes.lockBody (Bool.eq_false_iff.mpr hmust) (hok.resolve_left hmust)
    · cases hstep
  | resume i =>
    simp only [step, bind, bind_eq_some_iff] at hstep
    obtain ⟨c, hi, hstep⟩ := hstep
    exact hes.resume h.1 hi hstep
  | cancel i =>
    simp only [step, bind, Option.bind_eq_some_iff, Option.pure_def, Option.some.injEq] at hstep
    obtain ⟨c, hi, rfl⟩ := hstep
    exact hes.cancel hi (mem_append_right _ mem_cons_self) hok
  | start f => exact hes.moveFetch (fun hx => (Fetch.started_spec f hx).1) hstep
  | answer f r now | fail f | abandon f =>
    exact hes.moveFetch (fun hx => Fetch.unfinished_of_ended hx) hstep
  | invalidateMany | clear =>
    cases hstep
    exact hes.frame rfl rfl

/-- **The run lemma.** -/
theorem accounted_run (hok : StepsMeet (step cfg) (fun s e => isolated cfg s e = true) .initial es)
    (hrun : run (step cfg) .initial es = some s) : Inv s ∧ Accounted es s :=
  run_history_where (P := fun es s => Inv s ∧ Accounted es s) accounted_step
    ⟨Inv.initial, Accounted.initial⟩ hok hrun

/-! ### What a call receives -/

theorem store_isSome (hmax : 0 < cfg.maxEntries) (cache : Dict SubjectKey CacheEntry)
    (key : SubjectKey) (entry : CacheEntry) :
    ∃ cache', store cfg cache key entry = some cache' := by
  rw [store]
  split
  · rename_i hfull
    cases hold : oldest cache with
    | some k => exact ⟨_, rfl⟩
    | none =>
      have hempty : cache.entries = [] :=
        argmin_eq_none.mp (map_eq_none_iff.mp hold)
      have hsize : cache.size = 0 := by rw [Dict.size, hempty]; rfl
      omega
  · exact ⟨_, rfl⟩

theorem settle_eq (hmax : 0 < cfg.maxEntries) (key : SubjectKey) (epoch : ℕ) (o : Outcome) :
    (settle cfg s key epoch o).2 = .ofOutcome key.1 o := by
  cases o with
  | entry entry =>
    obtain ⟨cache', hstore⟩ := store_isSome hmax s.cache key entry
    simp only [settle, hstore]
    split <;> rfl
  | failed | cancelled => rfl

theorem resume_of_not_marked (hinv : Inv s) (hmax : 0 < cfg.maxEntries) (hi : s.calls[i]? = some c)
    (hmarked : c.mustCancel = false)
    (hf : c.phase.awaits = some f) (hx : s.fetches[f]? = some x) (ho : x.phase = .finished o) :
    ∃ s', step cfg s (.resume i) = some s' ∧
      s'.calls[i]? = some { c with phase := .done (.ofOutcome c.key.1 o) } := by
  obtain ⟨xkey, xphase, requested⟩ := x
  obtain rfl : xphase = .finished o := ho
  have hawaited : awaited s c f = some o := by simp [awaited, hx, hmarked]
  simp only [step, hi, bind_eq_bind, bind_some]
  cases hc : c.phase with
  | joined g =>
    obtain rfl : g = f := some.inj (by rw [← hf, hc]; rfl)
    simp only [resume, hc, hawaited, map_some]
    exact ⟨_, rfl, getElem?_set_some hi⟩
  | owner g epoch =>
    obtain rfl : g = f := some.inj (by rw [← hf, hc]; rfl)
    simp only [resume, hc, hawaited, map_some, hinv.closeFetch_eq hi hc, settle_eq hmax]
    exact ⟨_, rfl, getElem?_set_some hi⟩
  | locking | done => rw [hc] at hf; cases hf

/-- **Isolation**: in every run of isolated steps, a call that was not cancelled itself has ended
cancelled only if the provider did so, and if it awaits a finished fetch, nobody asked for that to
be cancelled and the call ends with what the provider gave. -/
theorem perms_callers_isolated (cfg : Config) (hmax : 0 < cfg.maxEntries) (es : List Event)
    (s : State) (hrun : run (step cfg) .initial es = some s)
    (hok : StepsMeet (step cfg) (fun s e => isolated cfg s e = true) .initial es)
    (i : ℕ) (c : Call) (hi : s.calls[i]? = some c) (hnot : .cancel i ∉ es) :
    (c.phase = .done .cancelled → Abandoned s.fetches c.key) ∧
    ∀ f x o, c.phase.awaits = some f → s.fetches[f]? = some x → x.phase = .finished o →
      (o = .cancelled → x.cancelRequested = false) ∧
      ∃ s', step cfg s (.resume i) = some s' ∧
        s'.calls[i]? = some { c with phase := .done (.ofOutcome c.key.1 o) } := by
  obtain ⟨hinv, haccounted⟩ := accounted_run hok hrun
  have hlost : sharedFetches.lost s.fetches c = false :=
    Bool.eq_false_iff.mpr fun hlost => hnot (haccounted.lost i c hi hlost)
  refine ⟨fun hc => (haccounted.ended hi hc).resolve_left hnot, ?_⟩
  intro f x o hf hx ho
  simp only [SharedTasks.Awaiting.lost, sharedFetches, hf, bind_some, hx,
    any_some, Bool.or_eq_false_iff] at hlost
  refine ⟨?_, resume_of_not_marked hinv hmax hi hlost.1 hf hx ho⟩
  rintro rfl
  exact (doomed_of_cancelled ho).symm.trans hlost.2

end

/-- A caller is cancelled alone, and two callers share the fetch after it. -/
def aloneSchedule : List Event :=
  [.get (1, none) 0, .acquire 0, .start 0, .cancel 0, .abandon 0, .resume 0,
    .get (1, none) 1, .acquire 1, .get (1, none) 1, .start 1,
    .answer 1 ⟨some 5, none, none, none⟩ 2, .resume 1]

theorem perms_callers_isolated_aloneSchedule :
    ∃ s c, run (step ⟨60, 10⟩) .initial aloneSchedule = some s ∧ s.calls[2]? = some c ∧
      c.phase = .joined 1 ∧ ∃ s', step ⟨60, 10⟩ s (.resume 2) = some s' ∧
        s'.calls[2]? = some { c with phase := .done (.perms ⟨1, 5, 0, [], 0⟩ 1) } := by
  have hstate : (run (step ⟨60, 10⟩) .initial aloneSchedule).map
      (fun s => (s.calls[2]?, s.fetches[1]?)) =
        some (some ⟨(1, none), .joined 1, false⟩,
          some ⟨(1, none), .finished (.entry ⟨5, 0, [], 0, 2, 1⟩), false⟩) := by decide +kernel
  obtain ⟨s, hs, hstate⟩ := map_eq_some_iff.mp hstate
  obtain ⟨hcall, hfetch⟩ := Prod.mk.inj hstate
  refine ⟨s, _, hs, hcall, rfl, ?_⟩
  exact ((perms_callers_isolated _ (by decide) _ s hs (by decide +kernel) 2 _ hcall
    (by simp [aloneSchedule])).2 1 _ _ rfl hfetch rfl).2

/-- The owner of a fetch that another caller joined is cancelled while the provider works. -/
def disconnectSchedule : List Event :=
  [.get (1, none) 0, .acquire 0, .get (1, none) 0, .start 0, .cancel 0, .abandon 0, .resume 0,
    .resume 1]

/-- **The owner's cancellation**: nobody cancelled the caller that joined, the one fetch ended
cancelled because its owner was, and the caller ends cancelled. -/
theorem cancelled_with_the_owner :
    ∃ s c, run (step ⟨60, 10⟩) .initial disconnectSchedule = some s ∧
      .cancel 1 ∉ disconnectSchedule ∧ s.calls[1]? = some c ∧ c.phase = .done .cancelled ∧
      s.fetches = [⟨(1, none), .finished .cancelled, true⟩] := by
  have hstate : (run (step ⟨60, 10⟩) .initial disconnectSchedule).map
      (fun s => (s.calls[1]?, s.fetches)) =
        some (some ⟨(1, none), .done .cancelled, false⟩,
          [⟨(1, none), .finished .cancelled, true⟩]) := by decide +kernel
  obtain ⟨s, hs, hstate⟩ := map_eq_some_iff.mp hstate
  obtain ⟨hcall, hfetches⟩ := Prod.mk.inj hstate
  exact ⟨s, _, hs, by simp [disconnectSchedule], hcall, rfl, hfetches⟩

end ServiceToolkit.Perms
