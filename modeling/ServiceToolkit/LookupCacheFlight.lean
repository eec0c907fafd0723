import ServiceToolkit.LookupCache

/-!
# Single Flight

Concurrent `get` calls of a key share one load. The module proves it for every schedule of any
number of calls on any number of keys, with failing loaders, cancelled callers, `set`,
`invalidate` and `clear_local`:

* a load that has not finished is the one registered for its key, so **two loader calls for a
  key never run at the same time**;
* a registered load is awaited by the call that created it, so **nothing stays registered** once
  every call has ended;
* in a cache without Redis, **a loader is called again** only after its last call failed, was
  cancelled or brought a value that was not stored, or after the entry was dropped
  (`ReloadReason`).

Both facts about the registration are one invariant (`Flight`), kept by every event.
-/

namespace ServiceToolkit.Cache

open List Option

variable {V : Type*}

/-! ### The registered load -/

/-- The call awaits the load it created. -/
def Call.owns (j : ℕ) (call : Call V) : Prop :=
  ∃ cancelRequested, call.phase = .awaiting j true cancelRequested

/-- The **registration**: an unfinished load is registered, and a registered load is awaited by
the call that created it. -/
structure Flight (s : State V) : Prop where
  registered : ∀ {i : ℕ} {load : Load V}, s.loads[i]? = some load → load.outcome = none →
    s.inflight = some i
  owned : ∀ {j : ℕ}, s.inflight = some j → ∃ call ∈ s.calls, call.owns j

section

variable {c : Config V} {s s' : State V} {i j startedAt : ℕ}

theorem Flight.initial (redis : Option (Stamped V)) : Flight (State.initial redis) where
  registered := by simp [State.initial]
  owned := by simp [State.initial]

theorem not_owns_reading {reply : Option (Option (Stamped V))} :
    ¬ (⟨startedAt, .reading reply⟩ : Call V).owns j := by
  rintro ⟨_, ⟨⟩⟩

section

variable {e : Event V} (h : Flight s)
include h

theorem Flight.frame (hinflight : s'.inflight = s.inflight)
    (hloads : s'.loads = s.loads) (hcalls : s'.calls = s.calls) : Flight s' where
  registered := by
    rw [hloads, hinflight]
    exact h.registered
  owned := by
    rw [hcalls, hinflight]
    exact h.owned

theorem Flight.addCall (phase : CallPhase V) : Flight (s.addCall phase) where
  registered := h.registered
  owned hj := by
    obtain ⟨call, hcall, howns⟩ := h.owned hj
    exact ⟨call, mem_append_left _ hcall, howns⟩

theorem Flight.setCall {call : Call V} {phase : CallPhase V}
    (hi : s.calls[i]? = some call)
    (howner : ∀ j, s.inflight = some j → call.owns j → (⟨call.startedAt, phase⟩ : Call V).owns j) :
    Flight (s.setCall i call.startedAt phase) where
  registered := h.registered
  owned {j} hj := by
    obtain ⟨owner, howner', howns⟩ := h.owned hj
    obtain ⟨k, hk⟩ := getElem?_of_mem howner'
    by_cases hik : i = k
    · subst hik
      obtain rfl : call = owner := some.inj (hi.symm.trans hk)
      exact ⟨_, mem_set (lt_of_getElem? hi) _, howner j hj howns⟩
    · refine ⟨owner, mem_of_getElem? (i := k) ?_, howns⟩
      rw [State.setCall, getElem?_set_ne hik, hk]

theorem Flight.setLoad {load load' : Load V}
    {strays : List (Option (Stamped V))} (layers : Layers V)
    (hi : s.loads[i]? = some load) (hunfinished : load.outcome = none) :
    Flight { s with layers := layers, loads := s.loads.set i load', strays := strays } where
  registered := by
    refine forall_getElem?_set
      (P := fun k (x : Load V) => x.outcome = none → s.inflight = some k) ?_ ?_
    · exact fun hk _ => h.registered hk
    · exact fun _ => h.registered hi hunfinished
  owned := h.owned

theorem Flight.register (hnone : s.inflight = none) : Flight (({ s with
      loads := s.loads ++ [⟨s.now, .created, false⟩]
      inflight := some s.loads.length } : State V).addCall
        (.awaiting s.loads.length true false)) where
  registered := by
    refine forall_getElem?_concat
      (P := fun k (x : Load V) => x.outcome = none → some s.loads.length = some k) ?_ fun _ => rfl
    intro i load hi hunfinished
    have hregistered := h.registered hi hunfinished
    rw [hnone] at hregistered
    cases hregistered
  owned := by
    rintro j ⟨⟩
    exact ⟨_, mem_append_right _ mem_cons_self, false, rfl⟩

theorem Flight.startGet : Flight (startGet c s) := by
  rw [Cache.startGet]
  split
  · exact h.addCall _
  · split
    · exact h.addCall _
    · rename_i hnone
      exact h.register hnone

/-- A call ends with its load, and takes it out of the registration if it created it. -/
theorem Flight.resume {created cancelRequested : Bool} {outcome : Outcome V}
    (hi : s.calls[i]? = some ⟨startedAt, .awaiting j created cancelRequested⟩)
    (hj : s.loads[j]?.bind Load.outcome = some outcome) (phase : CallPhase V) :
    Flight ({ s with
      inflight := if created ∧ s.inflight = some j then none else s.inflight }.setCall
        i startedAt phase) := by
  obtain ⟨load, hload, houtcome⟩ := bind_eq_some_iff.mp hj
  by_cases hpop : created = true ∧ s.inflight = some j
  · rw [if_pos hpop]
    refine ⟨fun {k x} hk hunfinished => ?_, nofun⟩
    have hregistered := h.registered hk hunfinished
    obtain rfl : j = k := some.inj (hpop.2.symm.trans hregistered)
    obtain rfl : load = x := some.inj (hload.symm.trans hk)
    rw [houtcome] at hunfinished
    cases hunfinished
  · rw [if_neg hpop]
    refine h.setCall hi fun k hk howns => ?_
    obtain ⟨_, hphase⟩ := howns
    obtain ⟨rfl, rfl, -⟩ := CallPhase.awaiting.inj hphase
    exact absurd ⟨rfl, hk⟩ hpop

theorem Flight.afterReadCached
    {reply : Option (Option (Stamped V))} (hi : s.calls[i]? = some ⟨startedAt, .reading reply⟩)
    (u : Draw) (found : Option (Stamped V)) :
    Flight (afterReadCached c s i startedAt u found) := by
  cases found with
  | none => exact h.setCall hi fun _ _ howns => absurd howns not_owns_reading
  | some v =>
    have hstored : Flight { s with layers := s.layers.storeLocal c v u } := h.frame rfl rfl rfl
    exact hstored.setCall hi fun _ _ howns => absurd howns not_owns_reading

theorem Flight.act (heffect : Effect c s e s') : Flight s' := by
  cases heffect with
  | get => exact h.startGet
  | resume hi hj => exact h.resume hi hj _
  | cancelAwaiting hi _ _ =>
    refine h.setCall hi fun j _ howns => ?_
    obtain ⟨_, hphase⟩ := howns
    obtain ⟨rfl, rfl, -⟩ := CallPhase.awaiting.inj hphase
    exact ⟨true, rfl⟩
  | cancelLoad _ hj hrunning =>
    exact h.setLoad s.layers hj (not_isSome_iff_eq_none.mp hrunning)
  | getCached =>
    rw [startGetCached]
    split <;> exact h.addCall _
  | cancelReading hi | executeRead hi | readRaises _ hi =>
    exact h.setCall hi fun _ _ howns => absurd howns not_owns_reading
  | readReply u hi => exact h.afterReadCached hi u _
  | readFails u hi => exact h.afterReadCached hi u none
  | load hi _ hr => exact h.setLoad _ hi (outcome_of_loadStep hr)
  | set | invalidate | executeOp | opReply | opFails | cancelOp | late | clearLocal | dropLocal
  | dropRedis | otherWrites => exact h.frame rfl rfl rfl

/-- A step keeps at most one flight. -/
theorem flight_step (hstep : step c s e = some s') : Flight s' := by
  obtain ⟨s₁, hact, rfl⟩ := map_eq_some_iff.mp hstep
  exact (h.act (act_effect hact)).frame rfl rfl rfl

end

/-- A run has at most one flight. -/
theorem flight_run {redis : Option (Stamped V)} {es : List (Event V)}
    (hrun : run (step c) (.initial redis) es = some s) : Flight s :=
  run_invariant flight_step (Flight.initial redis) hrun

theorem Flight.eq_of_unfinished (h : Flight s) {load load' : Load V}
    (hi : s.loads[i]? = some load) (hj : s.loads[j]? = some load') (hload : load.outcome = none)
    (hload' : load'.outcome = none) : i = j :=
  some.inj ((h.registered hi hload).symm.trans (h.registered hj hload'))

end

/-! ### Calling the loader again -/

/-- The event drops the entry of the key: it expires or is evicted, or `invalidate` or
`clear_local` removes it. -/
def Event.drops : Event V → Bool
  | .dropLocal | .invalidate | .clearLocal => true
  | _ => false

/-- **Why a loader is called again**: since the loader call of load `i`, it failed or was
cancelled, or it answered and its value was not stored or the entry was dropped after it. -/
inductive ReloadReason (c : Config V) (i : ℕ) : List (Event V) → Prop
  | failed {es u w} (hreply : .load i (.loaderReply none u w) ∈ es) :
      ReloadReason c i es
  | cancelled {es} (hreply : .load i .cancelled ∈ es) : ReloadReason c i es
  | notStored {es value u w}
      (hreply : .load i (.loaderReply (some value) u w) ∈ es)
      (hstore : ¬ (c.localEnabled ∧ 0 < c.effectiveLocalTtl value u)) : ReloadReason c i es
  | dropped {es es' value u w d}
      (hreply : .load i (.loaderReply (some value) u w) ∈ es) (hdrop : d ∈ es')
      (hdrops : d.drops = true) : ReloadReason c i (es ++ es')

/-- The load has had its loader's answer, or needs none. -/
def LoadPhase.pastLoader : LoadPhase V → Bool
  | .writing _ _ _ | .releasing _ | .finished _ => true
  | _ => false

section

variable {c : Config V} {s s' : State V} {i : ℕ} {es : List (Event V)} {e : Event V}

theorem ReloadReason.concat (h : ReloadReason c i es) (e : Event V) :
    ReloadReason c i (es ++ [e]) := by
  cases h with
  | failed hreply => exact .failed (mem_append_left _ hreply)
  | cancelled hreply => exact .cancelled (mem_append_left _ hreply)
  | notStored hreply hstore => exact .notStored (mem_append_left _ hreply) hstore
  | dropped hreply hdrop hdrops =>
    rw [append_assoc]
    exact .dropped hreply (mem_append_left _ hdrop) hdrops

theorem leave_pastLoader (locked : Bool) (outcome : Outcome V) :
    (leave locked outcome).pastLoader = true := by
  cases locked <;> rfl

theorem afterLoad_pastLoader (layers : Layers V) (v : Stamped V) (u w : Draw) (site : LoadSite) :
    (afterLoad c layers v u w site).2.pastLoader = true := by
  cases site with
  | «local» | withoutRedis => rfl
  | locked | unlocked =>
    simp only [afterLoad]
    split <;> rfl

theorem afterLoad_layers (layers : Layers V) (v : Stamped V) (u w : Draw) (site : LoadSite) :
    (afterLoad c layers v u w site).1 = layers.storeLocal c v u := by
  cases site <;> rfl

variable {load : Load V}

theorem pastLoader_of_outcome (houtcome : load.outcome ≠ none) : load.phase.pastLoader = true := by
  obtain ⟨outcome, hsome⟩ := ne_none_iff_exists'.mp houtcome
  rw [outcome_eq_some.mp hsome]
  rfl

variable {now : ℕ} {layers : Layers V} {r : Layers V × LoadPhase V}

theorem loadStep_pastLoader {phase : LoadPhase V}
    {e : LoadEvent V} (hpast : phase.pastLoader = true)
    (hstep : loadStep c now layers phase e = some r) :
    r.1.entry = layers.entry ∧ r.2.pastLoader = true := by
  cases phase with
  | created | reading | locking | sleeping | queued | loading => cases hpast
  | finished outcome =>
    rw [loadStep_finished] at hstep
    cases hstep
  | releasing outcome =>
    cases e <;> cases hstep
    · exact ⟨rfl, rfl⟩
    · exact ⟨rfl, rfl⟩
  | writing site v executed =>
    cases e with
    | execute =>
      cases executed <;> cases hstep
      exact ⟨rfl, rfl⟩
    | writeReply ok =>
      cases ok <;> cases executed <;> cases hstep <;> exact ⟨rfl, leave_pastLoader _ _⟩
    | cancelled =>
      cases executed <;> cases hstep <;> exact ⟨rfl, leave_pastLoader _ _⟩
    | _ => cases executed <;> cases hstep

theorem storeLocal_isSome (hentry : layers.entry.isSome = true)
    (v : Stamped V) (u : Draw) : (layers.storeLocal c v u).entry.isSome = true := by
  rw [Layers.storeLocal]
  split
  · rfl
  · exact hentry

/-- The value of the loader call is **kept**: it was stored in an enabled layer, the entry is
still there, and no load is short of its loader's answer. -/
structure Kept (c : Config V) (i : ℕ) (es : List (Event V)) (s : State V) : Prop where
  enabled : c.localEnabled = true
  replied : ∃ value u w, .load i (.loaderReply (some value) u w) ∈ es
  entry : s.layers.entry.isSome = true
  past : ∀ {j : ℕ} {load : Load V}, s.loads[j]? = some load → load.phase.pastLoader = true

/-- Where a loader call has got to: it is running, its value is kept, or there is a reason to
call the loader again. -/
inductive LoaderCall (c : Config V) (i : ℕ) (es : List (Event V)) (s : State V) : Prop
  | running {since : ℕ} {load site} (hi : s.loads[i]? = some load)
      (hloading : load.phase = .loading site since)
  | kept (h : Kept c i es s)
  | ended (h : ReloadReason c i es)

theorem Kept.frame (h : Kept c i es s) (hentry : s'.layers.entry.isSome = true)
    (hloads : s'.loads = s.loads) : Kept c i (es ++ [e]) s' where
  enabled := h.enabled
  replied := by
    obtain ⟨value, u, w, hreply⟩ := h.replied
    exact ⟨value, u, w, mem_append_left _ hreply⟩
  entry := hentry
  past := by
    rw [hloads]
    exact h.past

theorem Kept.dropped (h : Kept c i es s) (hdrops : e.drops = true) :
    ReloadReason c i (es ++ [e]) := by
  obtain ⟨value, u, w, hreply⟩ := h.replied
  exact .dropped hreply mem_cons_self hdrops

theorem Kept.startGet_loads (h : Kept c i es s) :
    (startGet c s).layers = s.layers ∧ (startGet c s).loads = s.loads := by
  obtain ⟨v, hv⟩ := isSome_iff_exists.mp h.entry
  rw [startGet, Layers.peekLocal, if_pos h.enabled, hv]
  exact ⟨rfl, rfl⟩

theorem Kept.setLoad (h : Kept c i es s) {j : ℕ} {load' : Load V}
    {strays : List (Option (Stamped V))}
    (hentry : layers.entry.isSome = true) (hpast : load'.phase.pastLoader = true) :
    Kept c i (es ++ [e])
      { s with layers := layers, loads := s.loads.set j load', strays := strays } where
  enabled := h.enabled
  replied := (h.frame h.entry rfl).replied
  entry := hentry
  past := forall_getElem?_set (P := fun _ (x : Load V) => x.phase.pastLoader = true)
    (fun hk _ => h.past hk) hpast

theorem afterReadCached_entry (j startedAt : ℕ) (u : Draw) (found : Option (Stamped V))
    (hentry : s.layers.entry.isSome = true) :
    (afterReadCached c s j startedAt u found).layers.entry.isSome = true := by
  cases found with
  | none => exact hentry
  | some v => exact storeLocal_isSome hentry v u

theorem afterReadCached_loads (j startedAt : ℕ) (u : Draw) (found : Option (Stamped V)) :
    (afterReadCached c s j startedAt u found).loads = s.loads := by
  cases found <;> rfl

theorem startGetCached_layers_loads (s : State V) :
    (startGetCached c s).layers = s.layers ∧ (startGetCached c s).loads = s.loads := by
  rw [startGetCached]
  split <;> exact ⟨rfl, rfl⟩

theorem Kept.act (h : Kept c i es s) (heffect : Effect c s e s') :
    LoaderCall c i (es ++ [e]) s' := by
  cases heffect with
  | get => exact .kept (h.frame (h.startGet_loads.1 ▸ h.entry) h.startGet_loads.2)
  | cancelLoad _ hj _ =>
    have hpast := h.past hj
    exact .kept (h.setLoad h.entry hpast)
  | getCached =>
    obtain ⟨hlayers, hloads⟩ := startGetCached_layers_loads (c := c) s
    exact .kept (h.frame (hlayers ▸ h.entry) hloads)
  | readReply u hi | readFails u hi =>
    exact .kept (h.frame (afterReadCached_entry _ _ u _ h.entry) (afterReadCached_loads _ _ u _))
  | set value u w => exact .kept (h.frame (storeLocal_isSome h.entry _ u) rfl)
  | load hi _ hr =>
    obtain ⟨hentry, hpast⟩ := loadStep_pastLoader (h.past hi) hr
    exact .kept (h.setLoad (hentry ▸ h.entry) hpast)
  | invalidate | clearLocal | dropLocal => exact .ended (h.dropped rfl)
  | resume | cancelAwaiting | cancelReading | executeRead | readRaises | executeOp | opReply
  | opFails | cancelOp | late | dropRedis | otherWrites => exact .kept (h.frame h.entry rfl)

variable {site : LoadSite} {since : ℕ}

theorem loadStep_loading {e : LoadEvent V}
    (hstep : loadStep c now layers (.loading site since) e = some r) :
    (∃ u w, e = .loaderReply none u w) ∨ e = .cancelled ∨
      ∃ value u w, e = .loaderReply (some value) u w ∧
        r = afterLoad c layers ⟨value, some since⟩ u w site := by
  cases e with
  | loaderReply answer u w =>
    cases answer with
    | none => exact .inl ⟨u, w, rfl⟩
    | some value => exact .inr (.inr ⟨value, u, w, rfl, (some.inj hstep).symm⟩)
  | cancelled => exact .inr (.inl rfl)
  | _ => cases hstep

theorem startGet_getElem? (hi : s.loads[i]? = some load) :
    (startGet c s).loads[i]? = some load := by
  rw [startGet]
  split
  · exact hi
  · split
    · exact hi
    · exact getElem?_append_some hi

theorem loaderReply_loaderCall {load' : Load V} {value : V} {u w : Draw}
    {strays : List (Option (Stamped V))} (hflight : Flight s)
    (hi : s.loads[i]? = some load) (hunfinished : load.outcome = none)
    (hload' : load'.phase = (afterLoad c s.layers ⟨value, some since⟩ u w site).2) :
    LoaderCall c i (es ++ [.load i (.loaderReply (some value) u w)])
      { s with
        layers := (afterLoad c s.layers ⟨value, some since⟩ u w site).1
        loads := s.loads.set i load'
        strays := strays } := by
  have hreply : Event.load i (.loaderReply (some value) u w) ∈
      es ++ [.load i (.loaderReply (some value) u w)] :=
    mem_append_right _ mem_cons_self
  by_cases hstore : c.localEnabled ∧ 0 < c.effectiveLocalTtl value u
  · refine .kept ⟨hstore.1, ⟨value, u, w, hreply⟩, ?_, ?_⟩
    · rw [afterLoad_layers, Layers.storeLocal, if_pos hstore]
      rfl
    · refine forall_getElem?_set (P := fun _ (x : Load V) => x.phase.pastLoader = true) ?_ ?_
      · intro j x hj hne
        refine pastLoader_of_outcome fun hrunning => hne ?_
        exact hflight.eq_of_unfinished hj hi hrunning hunfinished
      · rw [hload']
        exact afterLoad_pastLoader _ _ _ _ _
  · exact .ended (.notStored hreply hstore)

theorem running_act (hflight : Flight s)
    (hi : s.loads[i]? = some load) (hloading : load.phase = .loading site since)
    (heffect : Effect c s e s') : LoaderCall c i (es ++ [e]) s' := by
  have hunfinished : load.outcome = none := by rw [Load.outcome, hloading]
  cases heffect with
  | get => exact .running (startGet_getElem? hi) hloading
  | @cancelLoad _ _ j _ _ load' _ hj hrunning =>
    obtain rfl := hflight.eq_of_unfinished hj hi (not_isSome_iff_eq_none.mp hrunning) hunfinished
    obtain rfl := some.inj (hj.symm.trans hi)
    exact .running (getElem?_set_some hi) hloading
  | getCached => exact .running ((startGetCached_layers_loads s).2 ▸ hi) hloading
  | readReply u _ | readFails u _ =>
    exact .running ((afterReadCached_loads _ _ u _).symm ▸ hi) hloading
  | @load j e load' r hj _ hr =>
    obtain rfl := hflight.eq_of_unfinished hj hi (outcome_of_loadStep hr) hunfinished
    obtain rfl := some.inj (hj.symm.trans hi)
    have hmem : Event.load j e ∈ es ++ [.load j e] :=
      mem_append_right _ mem_cons_self
    rw [hloading] at hr
    rcases loadStep_loading hr with ⟨u, w, rfl⟩ | rfl | ⟨value, u, w, rfl, rfl⟩
    · exact .ended (.failed hmem)
    · exact .ended (.cancelled hmem)
    · exact loaderReply_loaderCall hflight hi hunfinished rfl
  | set | invalidate | clearLocal | dropLocal | resume | cancelAwaiting | cancelReading
  | executeRead | readRaises | executeOp | opReply | opFails | cancelOp | late | dropRedis
  | otherWrites => exact .running hi hloading

theorem LoaderCall.tick (h : LoaderCall c i es s) : LoaderCall c i es { s with now := now } := by
  cases h with
  | running hi hloading => exact .running hi hloading
  | kept h => exact .kept ⟨h.enabled, h.replied, h.entry, h.past⟩
  | ended h => exact .ended h

theorem LoaderCall.step (hflight : Flight s) (h : LoaderCall c i es s)
    (hstep : Cache.step c s e = some s') : LoaderCall c i (es ++ [e]) s' := by
  obtain ⟨s₁, hact, rfl⟩ := map_eq_some_iff.mp hstep
  cases h with
  | running hi hloading => exact (running_act hflight hi hloading (act_effect hact)).tick
  | kept h => exact (h.act (act_effect hact)).tick
  | ended h => exact .ended (h.concat e)

theorem loadStep_callLoader {phase : LoadPhase V}
    (hstep : loadStep c now layers phase .callLoader = some r) :
    ∃ site, phase = .queued site ∧ r.2 = .loading site now := by
  cases phase with
  | queued site =>
    cases hstep
    exact ⟨site, rfl, rfl⟩
  | reading site since reply => cases reply <;> cases hstep
  | writing site v executed => cases executed <;> cases hstep
  | _ => cases hstep

theorem callLoader_step (hstep : Cache.step c s (.load i .callLoader) = some s') :
    ∃ load site, s.loads[i]? = some load ∧ load.phase = .queued site ∧
      ∃ load', s'.loads[i]? = some load' ∧ load'.phase = .loading site s.now := by
  obtain ⟨s₁, hact, rfl⟩ := map_eq_some_iff.mp hstep
  cases act_effect hact with
  | @load _ _ load r hi _ hr =>
    obtain ⟨site, hqueued, hloading⟩ := loadStep_callLoader hr
    exact ⟨load, site, hi, hqueued, _, getElem?_set_some hi, hloading⟩

/-- **The run lemma**: between two loader calls there is a reason for the second. -/
theorem reloadReason_run {redis : Option (Stamped V)} {j : ℕ} {es₁ es₂ es₃ : List (Event V)}
    (hrun : run (Cache.step c) (.initial redis)
      (es₁ ++ .load i .callLoader :: (es₂ ++ .load j .callLoader :: es₃)) = some s) :
    ReloadReason c i es₂ := by
  obtain ⟨s₁, hrun₁, hrest₁⟩ := run_append_eq_some hrun
  obtain ⟨s₂, hcall, hrest₂⟩ := run_cons_eq_some hrest₁
  obtain ⟨s₃, hrun₃, hrest₃⟩ := run_append_eq_some hrest₂
  obtain ⟨s₄, hcall', -⟩ := run_cons_eq_some hrest₃
  obtain ⟨-, site, -, -, load, hi, hloading⟩ := callLoader_step hcall
  obtain ⟨load', site', hj, hqueued, -⟩ := callLoader_step hcall'
  have hflight : Flight s₂ := flight_step (flight_run hrun₁) hcall
  obtain ⟨hflight', hcalled⟩ := run_history (P := fun es s => Flight s ∧ LoaderCall c i es s)
    (fun h hstep => ⟨flight_step h.1 hstep, h.2.step h.1 hstep⟩)
    (show Flight s₂ ∧ LoaderCall c i [] s₂ from ⟨hflight, .running hi hloading⟩) hrun₃
  cases hcalled with
  | ended h => exact h
  | kept h =>
    have hpast := h.past hj
    rw [hqueued] at hpast
    cases hpast
  | running hi' hloading' =>
    obtain rfl := hflight'.eq_of_unfinished hi' hj (by rw [Load.outcome, hloading'])
      (by rw [Load.outcome, hqueued])
    obtain rfl := some.inj (hi'.symm.trans hj)
    rw [hqueued] at hloading'
    cases hloading'

end

/-! ### Any number of keys -/

/-- What can happen next in a cache of many keys: an event on one of them, or `clear_local`. -/
inductive KeyedEvent (K V : Type*)
  | on (key : K) (e : Event V)
  | clearLocal
  deriving DecidableEq

section

variable {K : Type*} [DecidableEq K] {c : Config V} {s s' : K → State V} {k : K}

/-- The events of a cache of many keys that concern one of them. -/
def KeyedEvent.at (k : K) : KeyedEvent K V → Option (Event V)
  | .on key e => if key = k then some e else none
  | .clearLocal => some .clearLocal

/-- One event of a cache of many keys. Only `clear_local` touches more than one. -/
def keyedStep (c : Config V) (s : K → State V) : KeyedEvent K V → Option (K → State V)
  | .on _ .clearLocal => none
  | .on key e => (step c (s key) e).map (Function.update s key)
  | .clearLocal => some fun key =>
    { s key with now := (s key).now + 1, layers := { (s key).layers with entry := none } }

theorem keyedStep_on {key : K} {e : Event V} (hstep : keyedStep c s (.on key e) = some s') :
    ∃ s₁, step c (s key) e = some s₁ ∧ Function.update s key s₁ = s' := by
  cases e with
  | clearLocal => cases hstep
  | _ => exact map_eq_some_iff.mp hstep

/-- **Refinement**: on each of its keys, a cache of many keys is a cache of one. -/
theorem run_key {es : List (KeyedEvent K V)} (hrun : run (keyedStep c) s es = some s') (k : K) :
    run (step c) (s k) (es.filterMap (KeyedEvent.at k)) = some (s' k) := by
  refine run_part (fun s : K → State V => s k) ?_ ?_ hrun
  · rintro s (⟨key, e⟩ | _) s' f hf hstep
    · obtain ⟨s₁, hs₁, rfl⟩ := keyedStep_on hstep
      rw [KeyedEvent.at] at hf
      split at hf
      · rename_i hkey
        cases hf
        subst hkey
        rw [Function.update_self, hs₁]
      · cases hf
    · cases hf
      cases hstep
      rfl
  · rintro s (⟨key, e⟩ | _) s' hf hstep
    · obtain ⟨s₁, -, rfl⟩ := keyedStep_on hstep
      rw [KeyedEvent.at] at hf
      split at hf
      · cases hf
      · rename_i hkey
        exact Function.update_of_ne (Ne.symm hkey) _ _
    · cases hf

/-- The load is in its loader call. -/
def Load.runsLoader (load : Load V) : Bool :=
  match load.phase with
  | .loading _ _ => true
  | _ => false

/-- The call is a `get` that has not ended. -/
def Call.inGet (call : Call V) : Bool :=
  match call.phase with
  | .awaiting _ _ _ => true
  | _ => false

theorem outcome_of_runsLoader {load : Load V} (h : load.runsLoader = true) :
    load.outcome = none := by
  obtain ⟨createdAt, phase, cancelRequested⟩ := load
  cases phase with
  | loading => rfl
  | _ => cases h

theorem Flight.inflight_eq_none {s : State V} (h : Flight s)
    (hended : ∀ call ∈ s.calls, call.inGet = false) : s.inflight = none := by
  refine eq_none_iff_forall_ne_some.mpr fun j hj => ?_
  obtain ⟨call, hcall, _, hphase⟩ := h.owned hj
  have hended' := hended call hcall
  rw [Call.inGet, hphase] at hended'
  cases hended'

/-- **Single flight**, for every schedule: two loads of a key are never in their loader calls at
once; after every `get` of the key nothing is in flight for it; and a further loader call has a
reason to. -/
theorem single_flight (c : Config V) (redis : K → Option (Stamped V))
    (es : List (KeyedEvent K V)) (s : K → State V)
    (hrun : run (keyedStep c) (fun k => .initial (redis k)) es = some s) (k : K) :
    (∀ (i j : ℕ) (load load' : Load V), (s k).loads[i]? = some load →
      (s k).loads[j]? = some load' → load.runsLoader = true → load'.runsLoader = true → i = j) ∧
    ((∀ call ∈ (s k).calls, call.inGet = false) → (s k).inflight = none) ∧
    ∀ i j es₁ es₂ es₃, es = es₁ ++ .on k (.load i .callLoader) ::
        (es₂ ++ .on k (.load j .callLoader) :: es₃) →
      ReloadReason c i (es₂.filterMap (KeyedEvent.at k)) := by
  have hkey := run_key hrun k
  have hflight : Flight (s k) := flight_run hkey
  refine ⟨?_, hflight.inflight_eq_none, ?_⟩
  · intro i j load load' hi hj hload hload'
    exact hflight.eq_of_unfinished hi hj (outcome_of_runsLoader hload)
      (outcome_of_runsLoader hload')
  · rintro i j es₁ es₂ es₃ rfl
    simp only [filterMap_append, filterMap_cons, KeyedEvent.at, if_true] at hkey
    exact reloadReason_run hkey

end

/-- Two callers of one key share a load whose loader fails while another key is loaded; a third
caller loads again. -/
def sharedSchedule : List (KeyedEvent Bool ℕ) :=
  [.on true .get, .on true .get, .on false .get, .on true (.load 0 .start),
    .on true (.load 0 .callLoader), .on false (.load 0 .start), .on false (.load 0 .callLoader),
    .on true (.load 0 (.loaderReply none noJitter noJitter)), .on true (.resume 0),
    .on true (.resume 1), .on true .get, .on true (.load 1 .start),
    .on true (.load 1 .callLoader),
    .on true (.load 1 (.loaderReply (some 7) noJitter noJitter)), .on true (.resume 2)]

theorem single_flight_sharedSchedule :
    ∃ s, run (keyedStep (defaultCache .local nofun)) (fun _ => .initial none)
        sharedSchedule = some s ∧ (s true).inflight = none ∧
      ReloadReason (defaultCache .local nofun) 0
        (((sharedSchedule.drop 5).take 7).filterMap (KeyedEvent.at true)) := by
  have hsome : (run (keyedStep (defaultCache .local nofun)) (fun _ => .initial none)
      sharedSchedule).isSome = true := by decide +kernel
  have hcalls : (run (keyedStep (defaultCache .local nofun)) (fun _ => .initial none)
      sharedSchedule).all (fun s => (s true).calls.all fun call => !call.inGet) = true := by
    decide +kernel
  obtain ⟨s, hs⟩ := isSome_iff_exists.mp hsome
  rw [hs] at hcalls
  obtain ⟨-, hinflight, hreason⟩ := single_flight _ _ _ s hs true
  refine ⟨s, hs, hinflight ?_, hreason 0 1 (sharedSchedule.take 4) _ (sharedSchedule.drop 13) ?_⟩
  · simpa using hcalls
  · decide

end ServiceToolkit.Cache
