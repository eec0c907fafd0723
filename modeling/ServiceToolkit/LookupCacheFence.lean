import ServiceToolkit.LookupCache

/-!
# Values Older Than an Invalidation

A lookup that starts after an `invalidate` or `set` has completed must not return what was
obtained before it. Nothing in the lookup cache fences a load that is under way: its stores
land whenever it gets there (`load_in_flight_outlives_invalidate`). The module proves the
property for the schedules in which the writers are not raced (`Orderly`).

The argument is in two halves. Once a completed operation has found nothing in flight and left
nothing older in either layer (`Settled`), **no** schedule brings an older value back but by a write
that was given up and is executed late (`Settled.act`). What the condition is for otherwise is the
time between the operation's start and its completion, over which `Orderly` keeps the key quiet
(`Quiet.act`).
-/

namespace ServiceToolkit.Cache

open List Option

variable {V : Type*}

/-! ### Ages -/

/-- The value was not obtained by a loader call or Redis read that began before `a`. -/
def Stamped.NotBefore (a : ℕ) (v : Stamped V) : Prop := ∀ b ∈ v.since, a ≤ b

instance (a : ℕ) (v : Stamped V) : Decidable (v.NotBefore a) :=
  inferInstanceAs (Decidable (∀ b ∈ v.since, a ≤ b))

/-- No value of an optional one was obtained before `a`. -/
def NoneBefore (a : ℕ) (o : Option (Stamped V)) : Prop := ∀ v ∈ o, v.NotBefore a

instance (a : ℕ) (o : Option (Stamped V)) : Decidable (NoneBefore a o) :=
  inferInstanceAs (Decidable (∀ v ∈ o, v.NotBefore a))

@[simp] theorem noneBefore_none (a : ℕ) : NoneBefore a (none : Option (Stamped V)) := by
  simp [NoneBefore]

variable {a : ℕ}

@[simp] theorem noneBefore_some {v : Stamped V} : NoneBefore a (some v) ↔ v.NotBefore a := by
  simp [NoneBefore]

theorem notBefore_given (a : ℕ) (value : V) : Stamped.NotBefore a ⟨value, none⟩ := by
  simp [Stamped.NotBefore]

variable {since : ℕ}

theorem notBefore_loaded (value : V) (h : a ≤ since) : Stamped.NotBefore a ⟨value, some since⟩ := by
  simpa [Stamped.NotBefore] using h

theorem Stamped.NotBefore.readSince {v : Stamped V} (h : v.NotBefore a)
    (ha : a ≤ since) : (v.readSince since).NotBefore a := by
  intro b hb
  obtain rfl : v.since.elim since (min since) = b := by
    simpa [Stamped.readSince] using hb
  cases hv : v.since with
  | none => exact ha
  | some b => exact le_min ha (h b hv)

theorem NoneBefore.readSince {o : Option (Stamped V)} (h : NoneBefore a o)
    (ha : a ≤ since) : NoneBefore a (o.map (Stamped.readSince · since)) := by
  cases o with
  | none => simp
  | some v =>
    simp only [noneBefore_some, map_some] at h ⊢
    exact h.readSince ha

/-- Neither layer holds a value obtained before `a`. -/
structure Layers.From (c : Config V) (a : ℕ) (layers : Layers V) : Prop where
  entry : NoneBefore a (layers.peekLocal c)
  redis : NoneBefore a (layers.readRedis c)

section

variable {c : Config V} {a : ℕ} {layers : Layers V} {v : Stamped V} {u w : Draw}

theorem peekLocal_storeLocal (h : NoneBefore a (layers.peekLocal c)) (hv : v.NotBefore a) :
    NoneBefore a ((layers.storeLocal c v u).peekLocal c) := by
  rw [Layers.storeLocal]
  split
  · rename_i hstored
    simpa [Layers.peekLocal, hstored.1] using hv
  · exact h

@[simp] theorem readRedis_storeLocal :
    (layers.storeLocal c v u).readRedis c = layers.readRedis c := by
  rw [Layers.storeLocal]
  split <;> rfl

theorem Layers.From.storeLocal (h : layers.From c a) (hv : v.NotBefore a) :
    (layers.storeLocal c v u).From c a :=
  ⟨peekLocal_storeLocal h.entry hv, by simpa using h.redis⟩

theorem peekLocal_drop : NoneBefore a (({ layers with entry := none } : Layers V).peekLocal c) := by
  simp [Layers.peekLocal]

theorem readRedis_write {content : Option (Stamped V)} (h : NoneBefore a content) :
    NoneBefore a (({ layers with redis := content } : Layers V).readRedis c) := by
  rw [Layers.readRedis]
  split
  · exact h
  · exact noneBefore_none a

end

/-! ### A load -/

/-- The outcome carries no value obtained before `a`. -/
def Outcome.From (a : ℕ) : Outcome V → Prop
  | .value v => v.NotBefore a
  | .failed | .cancelled => True

/-- The load carries no value obtained before `a`, and what it is obtaining began later. -/
def LoadPhase.From (a : ℕ) : LoadPhase V → Prop
  | .reading _ since reply => a ≤ since ∧ NoneBefore a reply.join
  | .loading _ since => a ≤ since
  | .writing _ v _ => v.NotBefore a
  | .releasing outcome | .finished outcome => outcome.From a
  | .created | .locking | .sleeping | .queued _ => True

section

variable {c : Config V} {a now : ℕ} {layers : Layers V} {u w : Draw}

theorem leave_from {locked : Bool} {outcome : Outcome V} (h : outcome.From a) :
    (leave locked outcome).From a := by
  cases locked <;> exact h

theorem afterRead_from (h : layers.From c a) (site : ReadSite) {found : Option (Stamped V)}
    (hfound : NoneBefore a found) : (afterRead c layers u site found).1.From c a ∧
      (afterRead c layers u site found).2.From a := by
  cases found with
  | none =>
    cases site with
    | first =>
      simp only [afterRead]
      split <;> exact ⟨h, trivial⟩
    | locked | fill | withoutRedis => exact ⟨h, trivial⟩
  | some v =>
    rw [noneBefore_some] at hfound
    cases site with
    | first | locked | fill => exact ⟨h.storeLocal hfound, hfound⟩
    | withoutRedis => exact ⟨h, hfound⟩

theorem afterLoad_from (h : layers.From c a) (site : LoadSite) {v : Stamped V}
    (hv : v.NotBefore a) :
    (afterLoad c layers v u w site).1.From c a ∧ (afterLoad c layers v u w site).2.From a := by
  cases site with
  | «local» | withoutRedis => exact ⟨h.storeLocal hv, hv⟩
  | locked | unlocked =>
    refine ⟨h.storeLocal hv, ?_⟩
    simp only [afterLoad]
    split <;> exact hv

/-- **A load step brings nothing older in**: from layers and a load without values obtained
before `a`, at a moment not before `a`. -/
theorem loadStep_from {phase : LoadPhase V} {e : LoadEvent V} {r : Layers V × LoadPhase V}
    (h : layers.From c a) (hphase : phase.From a) (hnow : a ≤ now)
    (hstep : loadStep c now layers phase e = some r) : r.1.From c a ∧ r.2.From a := by
  fun_cases loadStep c now layers phase e with
  | case1 hredis =>
    rw [loadStep, if_pos hredis] at hstep
    cases hstep
    exact ⟨h, hnow, noneBefore_none a⟩
  | case2 hredis =>
    rw [loadStep, if_neg hredis] at hstep
    cases hstep
    exact ⟨h, trivial⟩
  | case3 site since =>
    cases hstep
    exact ⟨h, hphase.1, h.redis.readSince hphase.1⟩
  | case4 site since reply u =>
    cases hstep
    exact afterRead_from h site hphase.2
  | case5 site since reply u hraise =>
    simp only [loadStep, hraise, if_true] at hstep
    cases hstep
    exact ⟨h, leave_from trivial⟩
  | case6 site since reply u hraise =>
    simp only [loadStep, hraise, if_false] at hstep
    cases hstep
    exact afterRead_from h site (noneBefore_none a)
  | case7 | case10 =>
    cases hstep
    exact ⟨h, hnow, noneBefore_none a⟩
  | case8 =>
    cases hstep
    refine ⟨h, ?_⟩
    dsimp only
    split <;> trivial
  | case9 =>
    cases hstep
    refine ⟨h, ?_⟩
    dsimp only
    split
    · exact ⟨hnow, noneBefore_none a⟩
    · trivial
  | case11 =>
    cases hstep
    exact ⟨h, trivial⟩
  | case12 site =>
    cases hstep
    exact ⟨h, hnow⟩
  | case13 site since value u w =>
    cases hstep
    exact afterLoad_from h site (notBefore_loaded value hphase)
  | case14 site since =>
    cases hstep
    exact ⟨h, leave_from trivial⟩
  | case15 site v =>
    cases hstep
    exact ⟨⟨h.entry, readRedis_write (noneBefore_some.mpr hphase)⟩, hphase⟩
  | case16 site v =>
    cases hstep
    exact ⟨h, leave_from hphase⟩
  | case17 site v executed =>
    rw [loadStep] at hstep
    cases hstep
    refine ⟨h, leave_from ?_⟩
    split
    · trivial
    · exact hphase
  | case18 outcome ok =>
    cases hstep
    refine ⟨h, ?_⟩
    dsimp only
    split
    · trivial
    · exact hphase
  | case19 outcome => cases hstep
  | case20 =>
    rw [loadStep] at hstep
    · cases hstep
      exact ⟨h, leave_from trivial⟩
    · assumption
  | case21 =>
    rw [loadStep] at hstep
    · cases hstep
    all_goals assumption

end

/-! ### After a completed operation

The operation started at `a` and completed at `d`. -/

/-- The load with a number was created after `d`. -/
def LoadAfter (loads : List (Load V)) (d j : ℕ) : Prop :=
  ∀ {load : Load V}, loads[j]? = some load → d < load.createdAt

/-- The load, if it can still store something, was created after the operation, and then it
carries nothing older. -/
structure LoadOk (a d : ℕ) (load : Load V) : Prop where
  created : load.outcome = none → d < load.createdAt
  fresh : d < load.createdAt → load.phase.From a

/-- The call, if it started after the operation, has nothing older to return. A call that is
reading did. -/
def CallOk (loads : List (Load V)) (a d : ℕ) (call : Call V) : Prop :=
  match call.phase with
  | .awaiting j _ _ => d < call.startedAt → LoadAfter loads d j
  | .reading reply => d < call.startedAt ∧ NoneBefore a reply.join
  | .returned v => d < call.startedAt → NoneBefore a v
  | .failed | .cancelled => True

/-- The operation is **settled**: nothing in the layers, and nothing that can still get there
or be returned by a later call, is older. -/
structure Settled (c : Config V) (s : State V) (a d : ℕ) : Prop where
  le : a ≤ d
  lt : d < s.now
  layers : s.layers.From c a
  inflight : ∀ {j : ℕ}, s.inflight = some j → LoadAfter s.loads d j
  loads : ∀ {i : ℕ} {load : Load V}, s.loads[i]? = some load → LoadOk a d load
  calls : ∀ {i : ℕ} {call : Call V}, s.calls[i]? = some call → CallOk s.loads a d call

section

variable {c : Config V} {s : State V} {a d : ℕ} {loads : List (Load V)} {i j : ℕ}

theorem LoadAfter.set {load load' : Load V} (h : LoadAfter loads d j) (hi : loads[i]? = some load)
    (hcreated : load'.createdAt = load.createdAt) : LoadAfter (loads.set i load') d j := by
  intro x hx
  by_cases hij : i = j
  · subst hij
    rw [getElem?_set_self', hi] at hx
    obtain rfl : load' = x := some.inj hx
    rw [hcreated]
    exact h hi
  · rw [getElem?_set_ne hij] at hx
    exact h hx

theorem LoadAfter.concat {load : Load V} (h : LoadAfter loads d j) (hload : d < load.createdAt) :
    LoadAfter (loads ++ [load]) d j := by
  intro x hx
  rw [getElem?_append] at hx
  split at hx
  · exact h hx
  · obtain rfl := mem_singleton.mp (mem_of_getElem? hx)
    exact hload

variable {call : Call V}

theorem CallOk.mono {loads' : List (Load V)} (h : CallOk loads a d call)
    (hafter : ∀ j, LoadAfter loads d j → LoadAfter loads' d j) : CallOk loads' a d call := by
  obtain ⟨startedAt, phase⟩ := call
  cases phase with
  | awaiting j created cancelRequested => exact fun hlt => hafter j (h hlt)
  | reading | returned | failed | cancelled => exact h

section

variable (h : Settled c s a d)
include h

theorem Settled.withLayers {layers : Layers V} (hl : layers.From c a) :
    Settled c { s with layers := layers } a d :=
  { h with layers := hl }

theorem Settled.withOps (ops : List (Op V))
    (strays : List (Option (Stamped V))) : Settled c { s with ops := ops, strays := strays } a d :=
  { h with }

theorem Settled.addCall {phase : CallPhase V}
    (hcall : CallOk s.loads a d ⟨s.now, phase⟩) : Settled c (s.addCall phase) a d :=
  { h with calls := forall_getElem?_concat h.calls hcall }

theorem Settled.setCall {startedAt : ℕ} {phase : CallPhase V}
    (hcall : CallOk s.loads a d ⟨startedAt, phase⟩) : Settled c (s.setCall i startedAt phase) a d :=
  { h with calls := forall_getElem?_set (fun hi _ => h.calls hi) hcall }

theorem Settled.setLoad {load load' : Load V}
    {layers : Layers V} {strays : List (Option (Stamped V))} (hl : layers.From c a)
    (hi : s.loads[i]? = some load) (hcreated : load'.createdAt = load.createdAt)
    (hload : LoadOk a d load') :
    Settled c { s with layers := layers, loads := s.loads.set i load', strays := strays } a d := by
  have hafter : ∀ j, LoadAfter s.loads d j → LoadAfter (s.loads.set i load') d j :=
    fun j hj => hj.set hi hcreated
  exact {
    le := h.le
    lt := h.lt
    layers := hl
    inflight := fun hj => hafter _ (h.inflight hj)
    loads := forall_getElem?_set (fun hk _ => h.loads hk) hload
    calls := fun hk => (h.calls hk).mono hafter }

theorem Settled.addLoad :
    Settled c
      { s with
        loads := s.loads ++ [⟨s.now, .created, false⟩]
        inflight := some s.loads.length } a d := by
  have hnew : LoadAfter (s.loads ++ [⟨s.now, .created, false⟩]) d s.loads.length := by
    intro load hload
    rw [getElem?_concat_length] at hload
    cases hload
    exact h.lt
  have hload : LoadOk a d (⟨s.now, .created, false⟩ : Load V) := ⟨fun _ => h.lt, fun _ => trivial⟩
  exact {
    le := h.le
    lt := h.lt
    layers := h.layers
    inflight := fun hj => some.inj hj ▸ hnew
    loads := forall_getElem?_concat h.loads hload
    calls := fun hk => (h.calls hk).mono fun _ hj => hj.concat h.lt }

theorem Settled.startGet : Settled c (startGet c s) a d := by
  rw [Cache.startGet]
  split
  · rename_i v hv
    exact h.addCall fun _ => hv ▸ h.layers.entry
  · split
    · rename_i j hj
      exact h.addCall fun _ => h.inflight hj
    · refine h.addLoad.addCall fun _ => ?_
      exact h.addLoad.inflight rfl

theorem Settled.startGetCached : Settled c (startGetCached c s) a d := by
  rw [Cache.startGetCached]
  split
  · rename_i v hv
    exact h.addCall fun _ => hv ▸ h.layers.entry
  · split
    · exact h.addCall ⟨h.lt, noneBefore_none a⟩
    · exact h.addCall fun _ => noneBefore_none a

theorem Settled.afterReadCached {startedAt : ℕ} {u : Draw}
    {found : Option (Stamped V)} (hfound : NoneBefore a found) :
    Settled c (afterReadCached c s i startedAt u found) a d := by
  cases found with
  | none => exact h.setCall fun _ => hfound
  | some v =>
    exact (h.withLayers (h.layers.storeLocal (noneBefore_some.mp hfound))).setCall fun _ => hfound

theorem Settled.resume {startedAt : ℕ} {created cancelRequested : Bool}
    {outcome : Outcome V} (hi : s.calls[i]? = some ⟨startedAt, .awaiting j created cancelRequested⟩)
    (hj : s.loads[j]?.bind Load.outcome = some outcome) (inflight : Option ℕ)
    (hinflight : ∀ k, inflight = some k → s.inflight = some k) :
    Settled c ({ s with inflight := inflight }.setCall i startedAt
      (if cancelRequested then .cancelled else outcome.toCall)) a d := by
  have hs : Settled c { s with inflight := inflight } a d :=
    { h with inflight := fun hk => h.inflight (hinflight _ hk) }
  obtain ⟨load, hload, houtcome⟩ := bind_eq_some_iff.mp hj
  have hcall := h.calls hi
  refine hs.setCall ?_
  cases cancelRequested with
  | true => trivial
  | false =>
    cases outcome with
    | failed | cancelled => trivial
    | value v =>
      intro hlt
      have hfresh := (h.loads hload).fresh (hcall hlt hload)
      rw [outcome_eq_some.mp houtcome] at hfresh
      exact noneBefore_some.mpr hfresh

theorem Settled.load {load : Load V} {e : LoadEvent V}
    {r : Layers V × LoadPhase V} (hi : s.loads[i]? = some load)
    (hstep : loadStep c s.now s.layers load.phase e = some r) (cancelRequested : Bool)
    (strays : List (Option (Stamped V))) :
    Settled c { s with
      layers := r.1
      loads := s.loads.set i ⟨load.createdAt, r.2, cancelRequested⟩
      strays := strays } a d := by
  have hcreated : d < load.createdAt := (h.loads hi).created (outcome_of_loadStep hstep)
  have hnow : a ≤ s.now := h.le.trans h.lt.le
  obtain ⟨hlayers, hphase⟩ :=
    loadStep_from h.layers ((h.loads hi).fresh hcreated) hnow hstep
  exact h.setLoad hlayers hi rfl ⟨fun _ => hcreated, fun _ => hphase⟩

end

/-- What a `set` or `invalidate` is sending was given to it. -/
def Op.Given (op : Op V) : Prop :=
  ∀ {content executed}, op.phase = .sending content executed → ∀ a, NoneBefore a content

/-- A write that was given up brings nothing older than `a` if the event executes it. -/
def LateFrom (s : State V) (a : ℕ) (e : Event V) : Prop :=
  ∀ {i content}, e = .late i → s.strays[i]? = some content → NoneBefore a content

theorem Settled.act {s' : State V} {e : Event V} (h : Settled c s a d)
    (hgiven : ∀ {i : ℕ} {op : Op V}, s.ops[i]? = some op → op.Given)
    (hlate : LateFrom s a e) (heffect : Effect c s e s') : Settled c s' a d := by
  cases heffect with
  | get => exact h.startGet
  | resume hi hj =>
    refine h.resume hi hj _ fun k hk => ?_
    split at hk
    · cases hk
    · exact hk
  | cancelAwaiting hi _ _ =>
    have hcall := h.calls hi
    exact h.setCall hcall
  | cancelLoad _ hj _ =>
    exact h.setLoad h.layers hj rfl ⟨(h.loads hj).created, (h.loads hj).fresh⟩
  | cancelReading _ | readRaises _ _ => exact h.setCall trivial
  | getCached => exact h.startGetCached
  | executeRead hi =>
    have hlt := (h.calls hi).1
    exact h.setCall ⟨hlt, h.layers.redis.readSince (h.le.trans hlt.le)⟩
  | readReply _ hi => exact h.afterReadCached (h.calls hi).2
  | readFails _ _ => exact h.afterReadCached (noneBefore_none a)
  | set value _ _ =>
    exact (h.withLayers (h.layers.storeLocal (notBefore_given a value))).withOps _ _
  | invalidate => exact (h.withLayers ⟨peekLocal_drop, h.layers.redis⟩).withOps _ _
  | @executeOp _ _ content hi =>
    have hlayers : ({ s.layers with redis := content } : Layers V).From c a :=
      ⟨h.layers.entry, readRedis_write (hgiven hi rfl a)⟩
    exact (h.withLayers hlayers).withOps _ _
  | opReply _ | opFails _ | cancelOp _ => exact h.withOps _ _
  | @late _ content hi =>
    have hlayers : ({ s.layers with redis := content } : Layers V).From c a :=
      ⟨h.layers.entry, readRedis_write (hlate rfl hi)⟩
    exact (h.withLayers hlayers).withOps _ _
  | clearLocal | dropLocal => exact h.withLayers ⟨peekLocal_drop, h.layers.redis⟩
  | load hi _ hr => exact h.load hi hr _ _
  | dropRedis =>
    exact h.withLayers ⟨h.layers.entry, readRedis_write (noneBefore_none a)⟩
  | otherWrites value =>
    exact h.withLayers ⟨h.layers.entry, readRedis_write (noneBefore_some.mpr
      (notBefore_given a value))⟩

end

/-! ### While an operation is under way -/

/-- The call is a `get_cached` that is reading Redis. -/
def Call.isReading (call : Call V) : Bool :=
  match call.phase with
  | .reading _ => true
  | _ => false

/-- Nothing is being obtained: no load is running or still registered, no call is reading. -/
structure State.Quiet (s : State V) : Prop where
  inflight : s.inflight = none
  loads : ∀ load ∈ s.loads, load.outcome.isSome = true
  calls : ∀ call ∈ s.calls, call.isReading = false

theorem quiet_iff {s : State V} :
    s.Quiet ↔ s.inflight.isNone = true ∧ (∀ load ∈ s.loads, load.outcome.isSome = true) ∧
      ∀ call ∈ s.calls, call.isReading = false :=
  ⟨fun h => ⟨by rw [h.inflight]; rfl, h.loads, h.calls⟩,
    fun h => ⟨isNone_iff_eq_none.mp h.1, h.2.1, h.2.2⟩⟩

instance (s : State V) : Decidable s.Quiet := decidable_of_iff _ quiet_iff.symm

/-- A `set` or `invalidate` has started and not ended. -/
def State.writing (s : State V) : Bool :=
  s.ops.any fun op => match op.phase with
    | .sending _ _ => true
    | _ => false

/-- The **orderly** steps. A `set` or `invalidate` starts when nothing is being obtained, and a
`set` of a value that every layer stores; until it ends a lookup finds its value locally; its
failure to reach Redis is raised; and a write that was given up is executed late only if no `set` or
`invalidate` that did not fail has started since its value was obtained. -/
def Orderly (c : Config V) (s : State V) : Event V → Prop
  | .get | .getCached => s.writing = true → (s.layers.peekLocal c).isSome = true
  | .set value u w => s.Quiet ∧ (c.localEnabled = true → 0 < c.effectiveLocalTtl value u) ∧
      (c.redisEnabled = true → 0 < c.effectiveRedisTtl value w)
  | .invalidate => s.Quiet
  | .opReply _ ok => ok = false → c.redisFailureMode = .raise
  | .late i => ∀ content ∈ s.strays[i]?, ∀ op ∈ s.ops,
      op.phase.isFailed = true ∨ NoneBefore op.startedAt content
  | _ => True

instance (c : Config V) (s : State V) (e : Event V) : Decidable (Orderly c s e) := by
  cases e <;> simp only [Orderly] <;> infer_instance

/-- No layer gets a value obtained before `a`. -/
def Layers.Renewed (c : Config V) (a : ℕ) (layers layers' : Layers V) : Prop :=
  (NoneBefore a (layers.peekLocal c) → NoneBefore a (layers'.peekLocal c)) ∧
    (NoneBefore a (layers.readRedis c) → NoneBefore a (layers'.readRedis c))

section

variable {c : Config V} {s : State V} {a : ℕ}

theorem Layers.Renewed.refl (layers : Layers V) : layers.Renewed c a layers := ⟨id, id⟩

theorem State.Quiet.addCall (h : s.Quiet) {phase : CallPhase V}
    (hphase : (⟨s.now, phase⟩ : Call V).isReading = false) : (s.addCall phase).Quiet where
  inflight := h.inflight
  loads := h.loads
  calls := by
    intro call hcall
    rcases mem_append.mp hcall with hcall | hcall
    · exact h.calls call hcall
    · rw [mem_singleton.mp hcall]
      exact hphase

variable {i : ℕ}

theorem State.Quiet.setCall (h : s.Quiet) {startedAt : ℕ} {phase : CallPhase V}
    (hphase : (⟨startedAt, phase⟩ : Call V).isReading = false) :
    (s.setCall i startedAt phase).Quiet where
  inflight := h.inflight
  loads := h.loads
  calls := by
    intro call' hcall
    rcases mem_or_eq_of_mem_set hcall with hcall | rfl
    · exact h.calls call' hcall
    · exact hphase

theorem State.Quiet.frame {s' : State V} (h : s.Quiet) (hinflight : s'.inflight = s.inflight)
    (hloads : s'.loads = s.loads) (hcalls : s'.calls = s.calls) : s'.Quiet where
  inflight := hinflight.trans h.inflight
  loads := hloads ▸ h.loads
  calls := hcalls ▸ h.calls

theorem State.Quiet.not_reading (h : s.Quiet) {startedAt : ℕ}
    {reply : Option (Option (Stamped V))} : s.calls[i]? ≠ some ⟨startedAt, .reading reply⟩ := by
  intro hi
  cases h.calls _ (mem_of_getElem? hi)

theorem State.Quiet.loadStep_eq_none (h : s.Quiet) {load : Load V}
    (hi : s.loads[i]? = some load) (e : LoadEvent V) :
    loadStep c s.now s.layers load.phase e = none := by
  obtain ⟨outcome, houtcome⟩ := isSome_iff_exists.mp (h.loads _ (mem_of_getElem? hi))
  rw [outcome_eq_some.mp houtcome]
  exact loadStep_finished outcome e

theorem isReading_toCall (outcome : Outcome V) (startedAt : ℕ) :
    (⟨startedAt, outcome.toCall⟩ : Call V).isReading = false := by
  cases outcome <;> rfl

theorem State.Quiet.lookup (h : s.Quiet) (hhit : (s.layers.peekLocal c).isSome = true) :
    (startGet c s).Quiet ∧ (startGet c s).layers = s.layers ∧
      startGetCached c s = startGet c s := by
  obtain ⟨v, hv⟩ := isSome_iff_exists.mp hhit
  simp only [startGet, startGetCached, hv]
  exact ⟨h.addCall rfl, rfl, trivial⟩

/-- **The key stays quiet** under orderly steps while an operation is under way, and no layer
gets older. -/
theorem State.Quiet.act {s' : State V} {e : Event V} (h : s.Quiet) (hwriting : s.writing = true)
    (hgiven : ∀ {i : ℕ} {op : Op V}, s.ops[i]? = some op → op.Given) (hok : Orderly c s e)
    (hlate : LateFrom s a e) (heffect : Effect c s e s') :
    s'.Quiet ∧ s.layers.Renewed c a s'.layers := by
  cases heffect with
  | get =>
    obtain ⟨hquiet, hlayers, -⟩ := h.lookup (hok hwriting)
    exact ⟨hquiet, hlayers ▸ .refl _⟩
  | getCached =>
    obtain ⟨hquiet, hlayers, heq⟩ := h.lookup (hok hwriting)
    rw [heq]
    exact ⟨hquiet, hlayers ▸ .refl _⟩
  | @resume _ _ _ _ _ outcome _ _ =>
    have hs : ({ s with inflight := none } : State V).Quiet := { h with inflight := rfl }
    rw [h.inflight, ite_self]
    refine ⟨hs.setCall ?_, .refl _⟩
    split
    · rfl
    · exact isReading_toCall outcome _
  | cancelAwaiting _ _ _ => exact ⟨h.setCall rfl, .refl _⟩
  | cancelLoad _ hj hrunning => exact absurd (h.loads _ (mem_of_getElem? hj)) hrunning
  -- no call of a quiet key is reading
  | cancelReading hi | executeRead hi | readReply _ hi | readRaises _ hi | readFails _ hi =>
    exact absurd hi h.not_reading
  | set value u _ =>
    refine ⟨h.frame rfl rfl rfl, fun hl => ?_, fun hr => ?_⟩
    · exact peekLocal_storeLocal hl (notBefore_given a value)
    · exact (readRedis_storeLocal (v := ⟨value, none⟩) (u := u)).symm ▸ hr
  | executeOp hi =>
    have hredis := hgiven hi rfl
    exact ⟨h.frame rfl rfl rfl, id, fun _ => readRedis_write (hredis a)⟩
  | opReply _ | opFails _ | cancelOp _ => exact ⟨h.frame rfl rfl rfl, .refl _⟩
  | late hi => exact ⟨h.frame rfl rfl rfl, id, fun _ => readRedis_write (hlate rfl hi)⟩
  | invalidate | clearLocal | dropLocal =>
    exact ⟨h.frame rfl rfl rfl, fun _ => peekLocal_drop, id⟩
  | load hi _ hr =>
    rw [h.loadStep_eq_none hi] at hr
    cases hr
  | dropRedis =>
    exact ⟨h.frame rfl rfl rfl, id, fun _ => readRedis_write (noneBefore_none a)⟩
  | otherWrites value =>
    exact ⟨h.frame rfl rfl rfl, id, fun _ => readRedis_write
      (noneBefore_some.mpr (notBefore_given a value))⟩

end

/-! ### Whole runs -/

/-- Loads and calls began at some moment so far. -/
structure Timed (s : State V) : Prop where
  loads : ∀ load ∈ s.loads, load.createdAt ≤ s.now
  calls : ∀ call ∈ s.calls, call.startedAt ≤ s.now

/-- What holds of an operation that has not failed: under way, the key is quiet and its part in
the layers is done as far as it got; completed, it is settled. -/
def OpOk (c : Config V) (s : State V) (op : Op V) : Prop :=
  match op.phase with
  | .sending _ executed => op.startedAt ≤ s.now ∧ s.Quiet ∧
      NoneBefore op.startedAt (s.layers.peekLocal c) ∧
      (executed = true → NoneBefore op.startedAt (s.layers.readRedis c))
  | .done d => Settled c s op.startedAt d
  | .failed => True

/-- The **invariant** of orderly runs. -/
structure Inv (c : Config V) (s : State V) : Prop where
  timed : Timed s
  given : ∀ {i : ℕ} {op : Op V}, s.ops[i]? = some op → op.Given
  ops : ∀ {i : ℕ} {op : Op V}, s.ops[i]? = some op → OpOk c s op

section

variable {c : Config V} {s s' : State V} {a : ℕ}

theorem Timed.frame (h : Timed s) (hnow : s'.now = s.now) (hloads : s'.loads = s.loads)
    (hcalls : s'.calls = s.calls) : Timed s' where
  loads := hloads ▸ hnow ▸ h.loads
  calls := hcalls ▸ hnow ▸ h.calls

theorem Timed.addCall (h : Timed s) (phase : CallPhase V) : Timed (s.addCall phase) where
  loads := h.loads
  calls := forall_mem_append.mpr ⟨h.calls, forall_mem_singleton.mpr le_rfl⟩

theorem Timed.addLoad (h : Timed s) (inflight : Option ℕ) :
    Timed { s with
      loads := s.loads ++ [⟨s.now, .created, false⟩]
      inflight := inflight } where
  loads := forall_mem_append.mpr ⟨h.loads, forall_mem_singleton.mpr le_rfl⟩
  calls := h.calls

variable {i : ℕ} {call : Call V}

theorem Timed.setCall (h : Timed s) (hi : s.calls[i]? = some call)
    (phase : CallPhase V) : Timed (s.setCall i call.startedAt phase) where
  loads := h.loads
  calls := by
    intro x hx
    rcases mem_or_eq_of_mem_set hx with hx | rfl
    · exact h.calls x hx
    · exact h.calls call (mem_of_getElem? hi)

theorem Timed.setLoad (h : Timed s) {load : Load V} (hi : s.loads[i]? = some load)
    (phase : LoadPhase V) (cancelRequested : Bool) (layers : Layers V)
    (strays : List (Option (Stamped V))) :
    Timed { s with
      layers := layers
      loads := s.loads.set i ⟨load.createdAt, phase, cancelRequested⟩
      strays := strays } where
  loads := by
    intro x hx
    rcases mem_or_eq_of_mem_set hx with hx | rfl
    · exact h.loads x hx
    · exact h.loads load (mem_of_getElem? hi)
  calls := h.calls

theorem startGet_frame : (startGet c s).now = s.now ∧ (startGet c s).ops = s.ops := by
  rw [Cache.startGet]
  split
  · exact ⟨rfl, rfl⟩
  · split <;> exact ⟨rfl, rfl⟩

theorem afterReadCached_frame {startedAt : ℕ} {u : Draw} {found : Option (Stamped V)} :
    (afterReadCached c s i startedAt u found).now = s.now ∧
      (afterReadCached c s i startedAt u found).ops = s.ops := by
  cases found <;> exact ⟨rfl, rfl⟩

theorem Timed.startGet (h : Timed s) : Timed (startGet c s) := by
  rw [Cache.startGet]
  split
  · exact h.addCall _
  · split
    · exact h.addCall _
    · exact (h.addLoad _).addCall _

theorem Timed.afterReadCached (h : Timed s)
    (hi : s.calls[i]? = some call) (u : Draw) (found : Option (Stamped V)) :
    Timed (afterReadCached c s i call.startedAt u found) := by
  cases found with
  | none => exact h.setCall hi _
  | some v => exact (h.setCall hi _).frame rfl rfl rfl

variable {e : Event V}

theorem Timed.act (h : Timed s) (heffect : Effect c s e s') : s'.now = s.now ∧ Timed s' := by
  cases heffect with
  | get => exact ⟨startGet_frame.1, h.startGet⟩
  | getCached =>
    rw [Cache.startGetCached]
    split <;> exact ⟨rfl, h.addCall _⟩
  | resume hi _ => exact ⟨rfl, (h.setCall hi _).frame rfl rfl rfl⟩
  | cancelAwaiting hi _ _ => exact ⟨rfl, h.setCall hi _⟩
  | cancelReading hi | executeRead hi | readRaises _ hi => exact ⟨rfl, h.setCall hi _⟩
  | readReply u hi => exact ⟨afterReadCached_frame.1, h.afterReadCached hi u _⟩
  | readFails u hi => exact ⟨rfl, h.afterReadCached hi u none⟩
  | cancelLoad _ hj _ => exact ⟨rfl, h.setLoad hj _ _ _ _⟩
  | load hi _ _ => exact ⟨rfl, h.setLoad hi _ _ _ _⟩
  | set | invalidate | clearLocal | dropLocal | dropRedis | otherWrites | executeOp | opReply
  | opFails | cancelOp | late => exact ⟨rfl, h.frame rfl rfl rfl⟩

theorem Settled.tick {d : ℕ} (h : Settled c s a d) : Settled c { s with now := s.now + 1 } a d :=
  { h with lt := h.lt.trans (Nat.lt_succ_self _) }

theorem Timed.tick (h : Timed s) : Timed { s with now := s.now + 1 } where
  loads load hload := (h.loads load hload).trans (Nat.le_succ _)
  calls call hcall := (h.calls call hcall).trans (Nat.le_succ _)

variable {op : Op V}

theorem OpOk.tick (h : OpOk c s op) : OpOk c { s with now := s.now + 1 } op := by
  obtain ⟨startedAt, phase⟩ := op
  cases phase with
  | sending content executed =>
    obtain ⟨hle, hquiet, hentry, hredis⟩ := h
    exact ⟨hle.trans (Nat.le_succ _), hquiet.frame rfl rfl rfl, hentry, hredis⟩
  | done d => exact Settled.tick h
  | failed => trivial

/-- An operation that completes on a quiet key, with nothing older left in the layers, is
settled. -/
theorem Settled.of_quiet (hquiet : s.Quiet) (htimed : Timed s) (hle : a ≤ s.now)
    (hlayers : s.layers.From c a) : Settled c { s with now := s.now + 1 } a s.now where
  le := hle
  lt := Nat.lt_succ_self _
  layers := hlayers
  inflight := by
    intro j hj
    rw [hquiet.inflight] at hj
    cases hj
  loads := by
    intro i load hi
    have hmem := mem_of_getElem? hi
    refine ⟨fun hnone => ?_, fun hlt => absurd hlt (htimed.loads load hmem).not_gt⟩
    have hsome := hquiet.loads load hmem
    rw [hnone] at hsome
    cases hsome
  calls := by
    intro i call hi
    have hmem := mem_of_getElem? hi
    have hle := (htimed.calls call hmem).not_gt
    have hreading := hquiet.calls call hmem
    obtain ⟨startedAt, phase⟩ := call
    cases phase with
    | awaiting | returned => exact fun hlt => absurd hlt hle
    | reading => cases hreading
    | failed | cancelled => trivial

variable {startedAt : ℕ} {content : Option (Stamped V)}

theorem writing_of_sending {executed : Bool}
    (hi : s.ops[i]? = some ⟨startedAt, .sending content executed⟩) : s.writing = true :=
  any_eq_true.mpr ⟨_, mem_of_getElem? hi, rfl⟩

/-- An orderly event executes nothing late that is older than an operation which did not fail. -/
theorem Orderly.lateFrom (hok : Orderly c s e) (hi : s.ops[i]? = some op)
    (hfailed : op.phase.isFailed = false) : LateFrom s op.startedAt e := by
  rintro j content rfl hj
  refine (hok content hj op (mem_of_getElem? hi)).resolve_left fun h => ?_
  rw [hfailed] at h
  cases h

/-- **The step of one operation that does not move**: what holds of it is kept by every orderly
event. -/
theorem OpOk.act (h : Inv c s) (hi : s.ops[i]? = some op)
    (hok : Orderly c s e) (heffect : Effect c s e s') : OpOk c s' op := by
  have hop := h.ops hi
  obtain ⟨startedAt, phase⟩ := op
  cases phase with
  | sending content executed =>
    obtain ⟨hle, hquiet, hentry, hredis⟩ := hop
    obtain ⟨hquiet', hlayers⟩ := hquiet.act (writing_of_sending hi) h.given hok
      (hok.lateFrom hi rfl) heffect
    have hnow : startedAt ≤ s'.now := hle.trans (h.timed.act heffect).1.ge
    exact ⟨hnow, hquiet', hlayers.1 hentry, fun hexecuted => hlayers.2 (hredis hexecuted)⟩
  | done d => exact Settled.act hop h.given (hok.lateFrom hi rfl) heffect
  | failed => trivial

theorem Inv.of_moved (h : Inv c s) (hok : Orderly c s e) (heffect : Effect c s e s')
    (hops : ∀ {i : ℕ} {op : Op V}, s'.ops[i]? = some op → s.ops[i]? = some op ∨
      (op.Given ∧ OpOk c { s' with now := s'.now + 1 } op)) :
    Inv c { s' with now := s'.now + 1 } where
  timed := (h.timed.act heffect).2.tick
  given := by
    intro i op hi
    rcases hops hi with hold | hnew
    · exact h.given hold
    · exact hnew.1
  ops := by
    intro i op hi
    rcases hops hi with hold | hnew
    · exact (OpOk.act h hold hok heffect).tick
    · exact hnew.2

theorem Inv.of_add (h : Inv c s) (hok : Orderly c s e)
    (heffect : Effect c s e s') (hops : s'.ops = s.ops ++ [op]) (hgiven : op.Given)
    (hop : OpOk c { s' with now := s'.now + 1 } op) : Inv c { s' with now := s'.now + 1 } := by
  refine h.of_moved hok heffect fun hi => ?_
  rw [hops] at hi
  exact forall_getElem?_concat
    (P := fun k x => s.ops[k]? = some x ∨ (x.Given ∧ OpOk c { s' with now := s'.now + 1 } x))
    Or.inl (Or.inr ⟨hgiven, hop⟩) hi

theorem Inv.of_set (h : Inv c s) (hok : Orderly c s e)
    (heffect : Effect c s e s') (hops : s'.ops = s.ops.set i op) (hgiven : op.Given)
    (hop : OpOk c { s' with now := s'.now + 1 } op) : Inv c { s' with now := s'.now + 1 } := by
  refine h.of_moved hok heffect fun hi => ?_
  rw [hops] at hi
  exact forall_getElem?_set
    (P := fun k x => s.ops[k]? = some x ∨ (x.Given ∧ OpOk c { s' with now := s'.now + 1 } x))
    (fun hk _ => Or.inl hk) (Or.inr ⟨hgiven, hop⟩) hi

theorem given_done {d : ℕ} : (⟨startedAt, .done d⟩ : Op V).Given := by
  rintro content executed ⟨⟩

theorem given_failed : (⟨startedAt, .failed⟩ : Op V).Given := by
  rintro content executed ⟨⟩

theorem given_sending {executed : Bool}
    (h : ∀ a, NoneBefore a content) : (⟨startedAt, .sending content executed⟩ : Op V).Given := by
  rintro content executed ⟨⟩
  exact h

variable {layers : Layers V}

theorem readRedis_of_disabled (h : c.redisEnabled = false) : NoneBefore a (layers.readRedis c) := by
  simp [Layers.readRedis, h]

theorem peekLocal_given {value : V} {u : Draw}
    (h : c.localEnabled = true → 0 < c.effectiveLocalTtl value u) :
    NoneBefore a ((layers.storeLocal c ⟨value, none⟩ u).peekLocal c) := by
  cases henabled : c.localEnabled with
  | false => simp [Layers.peekLocal, henabled]
  | true =>
    rw [Layers.storeLocal, if_pos ⟨henabled, h henabled⟩, Layers.peekLocal, if_pos henabled]
    exact noneBefore_some.mpr (notBefore_given a value)

theorem opOk_start (content : Option (Stamped V)) {writes : Bool}
    (hquiet : s.Quiet) (htimed : Timed s) (hentry : NoneBefore s.now (layers.peekLocal c))
    (hwrites : writes = false → c.redisEnabled = false) :
    OpOk c
      { s.addOp layers (if writes then .sending content false else .done s.now) with
        now := s.now + 1 }
      ⟨s.now, if writes then .sending content false else .done s.now⟩ := by
  cases writes with
  | true => exact ⟨Nat.le_succ _, hquiet.frame rfl rfl rfl, hentry, nofun⟩
  | false =>
    refine Settled.of_quiet (s := s.addOp layers (.done s.now)) (hquiet.frame rfl rfl rfl)
      (htimed.frame rfl rfl rfl) le_rfl ⟨hentry, ?_⟩
    exact readRedis_of_disabled (hwrites rfl)

theorem given_start {writes : Bool} (h : ∀ a, NoneBefore a content) :
    (⟨s.now, if writes then .sending content false else .done s.now⟩ : Op V).Given := by
  cases writes with
  | true => exact given_sending h
  | false => exact given_done

/-- The events that move no operation. -/
def Event.isLookup : Event V → Bool
  | .set _ _ _ | .invalidate | .executeOp _ | .opReply _ _ | .cancelOp _ => false
  | _ => true

theorem Effect.ops_eq (heffect : Effect c s e s') (he : e.isLookup = true) : s'.ops = s.ops := by
  cases heffect with
  | get => exact startGet_frame.2
  | getCached =>
    rw [startGetCached]
    split <;> rfl
  | readReply => exact afterReadCached_frame.2
  | set | invalidate | executeOp | opReply | opFails | cancelOp => cases he
  | _ => rfl

/-- **The step lemma.** -/
theorem inv_step (h : Inv c s) (hok : Orderly c s e) (hstep : step c s e = some s') : Inv c s' := by
  obtain ⟨s₁, hact, rfl⟩ := map_eq_some_iff.mp hstep
  have heffect := act_effect hact
  by_cases he : e.isLookup = true
  · exact h.of_moved hok heffect fun hi => .inl (heffect.ops_eq he ▸ hi)
  cases id heffect with
  | set value u w =>
    obtain ⟨hquiet, hlocal, hredis⟩ := id hok
    have hwrites : c.writesRedis ⟨value, none⟩ w = false → c.redisEnabled = false := by
      intro hwrites
      by_contra henabled
      rw [Bool.not_eq_false] at henabled
      simp [Config.writesRedis, henabled, hredis henabled] at hwrites
    have hentry : NoneBefore s.now ((s.layers.storeLocal c ⟨value, none⟩ u).peekLocal c) :=
      peekLocal_given hlocal
    have hop := opOk_start (some ⟨value, none⟩) hquiet h.timed hentry hwrites
    exact h.of_add hok heffect rfl
      (given_start fun a => noneBefore_some.mpr (notBefore_given a value)) hop
  | invalidate =>
    have hentry : NoneBefore s.now (({ s.layers with entry := none } : Layers V).peekLocal c) :=
      peekLocal_drop
    have hop := opOk_start none hok h.timed hentry fun hwrites : c.redisEnabled = false => hwrites
    exact h.of_add hok heffect rfl (given_start noneBefore_none) hop
  | executeOp hi =>
    have hgiven := h.given hi rfl
    obtain ⟨hle, hquiet, hentry, -⟩ := h.ops hi
    exact h.of_set hok heffect rfl (given_sending hgiven)
      ⟨hle.trans (Nat.le_succ _), hquiet.frame rfl rfl rfl, hentry,
        fun _ => readRedis_write (hgiven _)⟩
  | opReply hi =>
    obtain ⟨hle, hquiet, hentry, hredis⟩ := h.ops hi
    exact h.of_set hok heffect rfl given_done <| Settled.of_quiet
      (hquiet.frame rfl rfl rfl) (h.timed.frame rfl rfl rfl) hle ⟨hentry, hredis rfl⟩
  | opFails hi =>
    rw [hok rfl, if_pos rfl] at heffect ⊢
    exact h.of_set hok heffect rfl given_failed trivial
  | cancelOp hi => exact h.of_set hok heffect rfl given_failed trivial
  | _ => exact absurd rfl he

theorem Inv.initial (c : Config V) (redis : Option (Stamped V)) : Inv c (.initial redis) where
  timed := ⟨nofun, nofun⟩
  given := by simp [State.initial]
  ops := by simp [State.initial]

/-- **The run lemma.** -/
theorem inv_run {redis : Option (Stamped V)} {es : List (Event V)}
    (hok : StepsMeet (step c) (Orderly c) (.initial redis) es)
    (hrun : run (step c) (.initial redis) es = some s) : Inv c s :=
  run_invariant_where inv_step (Inv.initial c redis) hok hrun

end

/-- **No older value after an orderly write**: once a `set` or `invalidate` has completed, neither
layer holds a value whose loader call or Redis read began before it, and no later lookup returned
one. -/
theorem lookups_after_write_not_older (c : Config V) (redis : Option (Stamped V))
    (es : List (Event V)) (s : State V)
    (hok : StepsMeet (step c) (Orderly c) (.initial redis) es)
    (hrun : run (step c) (.initial redis) es = some s) :
    ∀ op ∈ s.ops, ∀ d, op.phase = .done d →
      s.layers.From c op.startedAt ∧
      ∀ call ∈ s.calls, d < call.startedAt → ∀ v, call.phase = .returned (some v) →
        v.NotBefore op.startedAt := by
  intro op hop d hdone
  obtain ⟨i, hi⟩ := getElem?_of_mem hop
  have hsettled : Settled c s op.startedAt d := by
    have hok := (inv_run hok hrun).ops hi
    rw [OpOk, hdone] at hok
    exact hok
  refine ⟨hsettled.layers, fun call hcall hlt v hv => ?_⟩
  obtain ⟨k, hk⟩ := getElem?_of_mem hcall
  have hcallOk := hsettled.calls hk
  rw [CallOk, hv] at hcallOk
  exact noneBefore_some.mp (hcallOk hlt)

/-- A load under the Redis lock, from the creation of its task to its end. -/
def lockedLoad (task value : ℕ) : List (Event ℕ) :=
  [.start, .execute, .readReply true noJitter, .lockReply true, .execute,
    .readReply true noJitter, .callLoader, .loaderReply (some value) noJitter noJitter, .execute,
    .writeReply true, .releaseReply true].map (.load task ·)

/-- A value is loaded, the key is invalidated, and a new value is loaded. -/
def orderlySchedule : List (Event ℕ) :=
  .get :: lockedLoad 0 7 ++ [.resume 0, .invalidate, .executeOp 0, .opReply 0 true, .get] ++
    lockedLoad 1 8 ++ [.resume 1]

/-- The lookup after the invalidation returns the value of the second load. -/
theorem orderlySchedule_returns_reloaded :
    ∃ s, run (step (defaultCache .hybrid nofun)) (.initial none) orderlySchedule = some s ∧
      ⟨13, .done 15⟩ ∈ s.ops ∧ ⟨16, .returned (some ⟨8, some 23⟩)⟩ ∈ s.calls ∧
      Stamped.NotBefore 13 (⟨8, some 23⟩ : Stamped ℕ) := by
  have hsome : (run (step (defaultCache .hybrid nofun)) (.initial none)
      orderlySchedule).isSome = true := by decide
  have hrun := (some_get hsome).symm
  have hop : ⟨13, .done 15⟩ ∈ (get _ hsome).ops := by decide +revert
  have hcall : ⟨16, .returned (some ⟨8, some 23⟩)⟩ ∈ (get _ hsome).calls := by
    decide +revert
  obtain ⟨-, hcalls⟩ := lookups_after_write_not_older _ none orderlySchedule _ (by decide) hrun
    _ hop 15 rfl
  exact ⟨_, hrun, hop, hcall, hcalls _ hcall (by decide) _ rfl⟩

/-- A loader is called, the key is invalidated, the loader answers, and the key is looked up. -/
def staleSchedule : List (Event ℕ) :=
  [.get, .load 0 .start, .load 0 .callLoader, .invalidate,
    .load 0 (.loaderReply (some 7) noJitter noJitter), .resume 0, .get]

/-- **A load in flight outlives an invalidation**: its loader call began before `invalidate`, it
stores its value after it, and the next `get` returns that value. -/
theorem load_in_flight_outlives_invalidate :
    ∃ s op call v d,
      run (step (defaultCache .local nofun)) (.initial none) staleSchedule = some s ∧
      op ∈ s.ops ∧ op.phase = .done d ∧ call ∈ s.calls ∧ d < call.startedAt ∧
      call.phase = .returned (some v) ∧ ¬ v.NotBefore op.startedAt := by
  have hsome : (run (step (defaultCache .local nofun)) (.initial none)
      staleSchedule).isSome = true := by decide
  exact ⟨get _ hsome, ⟨3, .done 3⟩, ⟨6, .returned (some ⟨7, some 2⟩)⟩, ⟨7, some 2⟩, 3,
    (some_get hsome).symm, by decide +revert, rfl, by decide +revert, by decide, rfl,
    by decide⟩

end ServiceToolkit.Cache
