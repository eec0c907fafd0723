import ServiceToolkit.LookupCache
import ServiceToolkit.SharedTasks

/-!
# Isolation of the Callers of a Load

`get` awaits the shared load task directly, so cancelling one caller cancels the task for all of
them: a caller that nobody cancelled then ends with the `CancelledError` of another
(`cancelled_with_another_caller`).

The module proves what does hold. Where a caller is cancelled during the load only when no other
call awaits it, and a load that is being cancelled is not joined (`isolated`), **a call ends
cancelled only if it was cancelled itself**, and every other call ends with what the load
brought. The invariant follows the calls whose load is `doomed` to end cancelled.
-/

namespace ServiceToolkit.Cache

open Option

variable {V : Type*}

/-- The load is on its way out of the body, or out of it, with a cancellation. -/
def LoadPhase.leavesCancelled : LoadPhase V → Bool
  | .releasing .cancelled | .finished .cancelled => true
  | _ => false

/-- The load is to end cancelled: it was requested, or has been delivered. -/
def Load.doomed (load : Load V) : Bool := load.cancelRequested || load.phase.leavesCancelled

/-- The load the call awaits. -/
def Call.awaits (call : Call V) : Option ℕ :=
  match call.phase with
  | .awaiting j _ _ => some j
  | _ => none

/-- The call ended cancelled, or is to end so whatever its load brings. -/
def Call.marked (call : Call V) : Bool :=
  match call.phase with
  | .cancelled => true
  | .awaiting _ _ cancelRequested => cancelRequested
  | _ => false

/-- How the calls of the cache await its loads. -/
def sharedLoads : SharedTasks.Awaiting (Call V) (Load V) where
  awaits := Call.awaits
  marked := Call.marked
  doomed := Load.doomed

/-- **The condition on a step**: `get` does not join a doomed load, and a caller whose load has
not finished and is not yet doomed is cancelled only if no other call awaits the load. -/
def isolated (c : Config V) (s : State V) : Event V → Bool
  | .get =>
    (s.layers.peekLocal c).isSome || (s.inflight.bind (s.loads[·]?)).all fun load => !load.doomed
  | .cancel i =>
    match s.calls[i]? with
    | some ⟨_, .awaiting j _ _⟩ =>
      (s.loads[j]?).all fun load => load.outcome.isSome || load.doomed ||
        sharedLoads.alone s.calls i j
    | _ => true
  | _ => true

/-! ### Loads that are not cancelled -/

section

variable {c : Config V} {s s' : State V} {es : List (Event V)} {e : Event V}

theorem leave_leavesCancelled (locked : Bool) (outcome : Outcome V) :
    (leave locked outcome).leavesCancelled = true ↔ outcome = .cancelled := by
  cases locked <;> cases outcome <;> simp [leave, LoadPhase.leavesCancelled]

theorem afterRead_leavesCancelled (layers : Layers V) (u : Draw) (site : ReadSite)
    (found : Option (Stamped V)) :
    (afterRead c layers u site found).2.leavesCancelled = false := by
  cases site <;> cases found <;> simp only [afterRead] <;> first | rfl | (split <;> rfl)

theorem afterLoad_leavesCancelled (layers : Layers V) (v : Stamped V) (u w : Draw)
    (site : LoadSite) : (afterLoad c layers v u w site).2.leavesCancelled = false := by
  cases site <;> simp only [afterLoad] <;> first | rfl | (split <;> rfl)

theorem loadStep_leavesCancelled {now : ℕ} {layers : Layers V} {phase : LoadPhase V}
    {e : LoadEvent V} {r : Layers V × LoadPhase V}
    (hstep : loadStep c now layers phase e = some r) (hleaves : r.2.leavesCancelled = true) :
    phase.leavesCancelled = true ∨ e = .cancelled := by
  rw [loadStep.eq_def] at hstep
  -- Every case but the release of the lock leaves with an outcome of its own.
  split at hstep <;> grind [LoadPhase.leavesCancelled, leave_leavesCancelled,
    afterRead_leavesCancelled, afterLoad_leavesCancelled]

theorem loadStep_doomed {now createdAt : ℕ} {layers : Layers V} {load : Load V} {e : LoadEvent V}
    {r : Layers V × LoadPhase V} (hpossible : e.possible load.cancelRequested = true)
    (hstep : loadStep c now layers load.phase e = some r)
    (hdoomed : (⟨createdAt, r.2, e.pending load.cancelRequested⟩ : Load V).doomed = true) :
    load.doomed = true := by
  rw [Load.doomed, Bool.or_eq_true] at hdoomed ⊢
  rcases hdoomed with hpending | hleaves
  · cases e with
    | execute => exact .inl hpending
    | _ => cases hpending
  · rcases loadStep_leavesCancelled hstep hleaves with hphase | rfl
    · exact .inr hphase
    · exact .inl hpossible

/-! ### Calls that are cancelled -/

/-- **The invariant**: a call that ended cancelled, or is to, was cancelled itself. -/
def Accounted (es : List (Event V)) (s : State V) : Prop :=
  sharedLoads.Accounted (fun i => .cancel i ∈ es) s.loads s.calls

theorem Accounted.initial (redis : Option (Stamped V)) : Accounted [] (State.initial redis) :=
  SharedTasks.Awaiting.Accounted.nil

theorem Accounted.concat (h : Accounted es s) (e : Event V) : Accounted (es ++ [e]) s :=
  h.mono fun _ => List.mem_append_left _

theorem Accounted.startGet (h : Accounted es s) (hok : isolated c s .get = true) :
    Accounted es (startGet c s) := by
  rw [Cache.startGet]
  split
  · exact h.concat_call rfl
  · rename_i hmiss
    split
    · rename_i j hj
      refine h.concat_call ?_
      rw [isolated, hmiss, hj] at hok
      simpa [SharedTasks.Awaiting.lost, sharedLoads, Call.awaits, Call.marked,
        any_eq_false, all_eq_true] using hok
    · refine (h.concat_task rfl).concat_call ?_
      simp [SharedTasks.Awaiting.lost, sharedLoads, Call.awaits, Call.marked, Load.doomed,
        LoadPhase.leavesCancelled]

variable {i j startedAt : ℕ} {cancelRequested created : Bool}

/-- A call ends with its load: cancelled if it was cancelled after the load had finished, or
with the load. -/
theorem Accounted.resume (h : Accounted es s) {outcome : Outcome V} {inflight : Option ℕ}
    (hi : s.calls[i]? = some ⟨startedAt, .awaiting j created cancelRequested⟩)
    (hj : s.loads[j]?.bind Load.outcome = some outcome) :
    Accounted es ({ s with inflight := inflight }.setCall i startedAt
      (if cancelRequested then .cancelled else outcome.toCall)) := by
  obtain ⟨load, hload, houtcome⟩ := bind_eq_some_iff.mp hj
  refine h.set_call fun hlost => h _ _ hi ?_
  cases cancelRequested with
  | true => rfl
  | false =>
    refine SharedTasks.Awaiting.lost_of_awaits rfl hload ?_
    cases outcome with
    | cancelled =>
      simp [sharedLoads, Load.doomed, outcome_eq_some.mp houtcome, LoadPhase.leavesCancelled]
    | value | failed => cases hlost

theorem Accounted.cancelLoad {load : Load V} (h : Accounted es s)
    (hi : s.calls[i]? = some ⟨startedAt, .awaiting j created cancelRequested⟩)
    (hj : s.loads[j]? = some load) (hrunning : ¬ load.outcome.isSome = true)
    (hok : isolated c s (.cancel i) = true) :
    Accounted (es ++ [.cancel i])
      { s with loads := s.loads.set j { load with cancelRequested := true } } := by
  simp only [isolated, hi, hj, all_some, Bool.or_eq_true, hrunning, Bool.false_eq_true,
    false_or] at hok
  exact (h.concat (.cancel i)).doom hj (List.mem_append_right _ List.mem_cons_self) hok

theorem Accounted.afterReadCached (h : Accounted es s) (u : Draw)
    (found : Option (Stamped V)) : Accounted es (afterReadCached c s i startedAt u found) := by
  cases found with
  | none | some v => exact h.set_call nofun

theorem Accounted.act (h : Accounted es s) (hok : isolated c s e = true)
    (heffect : Effect c s e s') : Accounted (es ++ [e]) s' := by
  have hes := h.concat e
  cases heffect with
  | get => exact hes.startGet hok
  | resume hi hj => exact hes.resume hi hj
  | cancelAwaiting | cancelReading =>
    exact hes.set_call fun _ => List.mem_append_right _ List.mem_cons_self
  | cancelLoad hi hj hrunning => exact h.cancelLoad hi hj hrunning hok
  | getCached =>
    rw [startGetCached]
    split
    · exact hes.concat_call rfl
    · split <;> exact hes.concat_call rfl
  | executeRead | readRaises => exact hes.set_call nofun
  | readReply u hi => exact hes.afterReadCached u _
  | readFails u hi => exact hes.afterReadCached u none
  | load hi hpossible hr => exact hes.set_task hi (loadStep_doomed hpossible hr)
  | set | invalidate | executeOp | opReply | opFails | cancelOp | late | clearLocal | dropLocal
  | dropRedis | otherWrites => exact hes

/-- **The step lemma.** -/
theorem accounted_step (h : Accounted es s) (hok : isolated c s e = true)
    (hstep : step c s e = some s') : Accounted (es ++ [e]) s' := by
  obtain ⟨s₁, hact, rfl⟩ := map_eq_some_iff.mp hstep
  have hkept : Accounted (es ++ [e]) s₁ := h.act hok (act_effect hact)
  exact hkept

/-! ### Whole runs -/

theorem accounted_run {redis : Option (Stamped V)}
    (hok : StepsMeet (step c) (fun s e => isolated c s e = true) (.initial redis) es)
    (hrun : run (step c) (.initial redis) es = some s) : Accounted es s :=
  run_history_where accounted_step (Accounted.initial redis) hok hrun

theorem resume_of_not_lost {outcome : Outcome V}
    (hi : s.calls[i]? = some ⟨startedAt, .awaiting j created cancelRequested⟩)
    (hj : s.loads[j]?.bind Load.outcome = some outcome)
    (hlost : sharedLoads.lost s.loads ⟨startedAt, .awaiting j created cancelRequested⟩ = false) :
    outcome ≠ .cancelled ∧
      ∃ s', step c s (.resume i) = some s' ∧ s'.calls[i]? = some ⟨startedAt, outcome.toCall⟩ := by
  obtain ⟨load, hload, houtcome⟩ := bind_eq_some_iff.mp hj
  simp only [SharedTasks.Awaiting.lost, sharedLoads, Call.awaits, Call.marked, bind_some,
    hload, any_some, Bool.or_eq_false_iff] at hlost
  obtain ⟨rfl, hdoomed⟩ := hlost
  refine ⟨?_, ?_⟩
  · rintro rfl
    rw [Load.doomed, outcome_eq_some.mp houtcome] at hdoomed
    cases (Bool.or_eq_false_iff.mp hdoomed).2
  · simp only [step, act, hi, hj, map_some]
    exact ⟨_, rfl, getElem?_set_some hi⟩

/-- **Isolation**: in every run of isolated steps, a call that was not cancelled itself has not
ended cancelled, and if it awaits a load that has finished, the call ends with the load's value or
exception. -/
theorem callers_isolated (c : Config V) (redis : Option (Stamped V)) (es : List (Event V))
    (s : State V) (hrun : run (step c) (.initial redis) es = some s)
    (hok : StepsMeet (step c) (fun s e => isolated c s e = true) (.initial redis) es)
    (i : ℕ) (call : Call V) (hi : s.calls[i]? = some call) (hnot : .cancel i ∉ es) :
    call.phase ≠ .cancelled ∧
    ∀ j created cancelRequested outcome, call.phase = .awaiting j created cancelRequested →
      s.loads[j]?.bind Load.outcome = some outcome →
      outcome ≠ .cancelled ∧ ∃ s', step c s (.resume i) = some s' ∧
        s'.calls[i]? = some ⟨call.startedAt, outcome.toCall⟩ := by
  obtain ⟨startedAt, phase⟩ := call
  have hlost : sharedLoads.lost s.loads ⟨startedAt, phase⟩ = false :=
    Bool.eq_false_iff.mpr fun hlost => hnot (accounted_run hok hrun i _ hi hlost)
  refine ⟨?_, ?_⟩
  · rintro rfl
    cases hlost
  · rintro j created cancelRequested outcome rfl hj
    exact resume_of_not_lost hi hj hlost

end

/-- A caller is cancelled alone, and two callers share the load after it. -/
def aloneSchedule : List (Event ℕ) :=
  [.get, .load 0 .start, .load 0 .callLoader, .cancel 0, .load 0 .cancelled, .resume 0, .get, .get,
    .load 1 .start, .load 1 .callLoader, .load 1 (.loaderReply (some 7) noJitter noJitter),
    .resume 1]

theorem callers_isolated_aloneSchedule :
    ∃ s call, run (step (defaultCache .local nofun)) (.initial none) aloneSchedule = some s ∧
      s.calls[2]? = some call ∧ call.phase = .awaiting 1 false false ∧
      ∃ s', step (defaultCache .local nofun) s (.resume 2) = some s' ∧
        s'.calls[2]? = some ⟨call.startedAt, .returned (some ⟨7, some 9⟩)⟩ := by
  have hsome : (run (step (defaultCache .local nofun)) (.initial none)
      aloneSchedule).map (fun s => (s.calls[2]?, s.loads[1]?.bind Load.outcome)) =
        some (some ⟨7, .awaiting 1 false false⟩, some (.value ⟨7, some 9⟩)) := by
    decide +kernel
  obtain ⟨s, hs, hstate⟩ := map_eq_some_iff.mp hsome
  obtain ⟨hcall, hload⟩ := Prod.mk.inj hstate
  refine ⟨s, _, hs, hcall, rfl, ?_⟩
  exact ((callers_isolated _ _ _ s hs (by decide +kernel) 2 _ hcall (by decide)).2
    1 false false _ rfl hload).2

/-- The first of two callers of a load is cancelled while the loader runs. -/
def disconnectSchedule : List (Event ℕ) :=
  [.get, .get, .load 0 .start, .load 0 .callLoader, .cancel 0, .load 0 .cancelled, .resume 0,
    .resume 1]

/-- **The other caller's cancellation**: nobody cancelled the second caller, and it ends
cancelled. -/
theorem cancelled_with_another_caller :
    ∃ s startedAt, run (step (defaultCache .local nofun)) (.initial none)
        disconnectSchedule = some s ∧
      .cancel 1 ∉ disconnectSchedule ∧ s.calls[1]? = some ⟨startedAt, .cancelled⟩ := by
  have hcall : (run (step (defaultCache .local nofun)) (.initial none)
      disconnectSchedule).map (fun s => s.calls[1]?) = some (some ⟨1, .cancelled⟩) := by
    decide +kernel
  obtain ⟨s, hs, hcall⟩ := map_eq_some_iff.mp hcall
  exact ⟨s, 1, hs, by decide, hcall⟩

end ServiceToolkit.Cache
