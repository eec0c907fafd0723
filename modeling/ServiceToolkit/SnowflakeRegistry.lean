import ServiceToolkit.Snowflake

/-!
# The Default Generator of a Process

`generate_id` uses one generator per process, which `configure_default_generator` replaces and
`reset_default_generator` drops; without one, `generate_id` makes the generator of worker 0. The
last millisecond and sequence number live in the instance, so a new generator of the same worker
knows nothing of the ids its predecessor returned: within one millisecond it returns the same
ones (`repeated_id`).

For readings that never go back, this is the only way an id repeats. **Ids are unique exactly
when every new generator reads its first millisecond after the last one of every earlier
generator of the same worker** (`process_ids_nodup_iff`). The invariant `Ledger` says what the
returned ids tell about the clock; in a run that meets the condition the clock is also ahead of
all of them (`Ahead`).
-/

namespace ServiceToolkit.Ids

open List

/-! ### The registry -/

/-- An id that `generate_id` returned, with the generator and the clock its call left. -/
structure Returned where
  id : ℤ
  generator : SnowflakeGenerator
  clock : Clock
  deriving DecidableEq

/-- A process: `_Registry.instance`, the readings of the clock to come, and the ids returned so
far. -/
structure Process where
  inst : Option (SnowflakeGenerator × Clock)
  readings : List ℤ
  returned : List Returned
  deriving DecidableEq

/-- A process before its first call. -/
def Process.initial (readings : List ℤ) : Process := ⟨none, readings, []⟩

/-- The calls of the module. -/
inductive RegistryCall
  | generateId
  | configureDefaultGenerator (workerId datacenterId : ℤ)
  | resetDefaultGenerator
  deriving DecidableEq

/-- The generator made with the defaults of the constructor. -/
def newDefault (workerId datacenterId : ℤ) : Except String SnowflakeGenerator :=
  SnowflakeGenerator.new defaultEpochMs workerId datacenterId 12 5 5

/-- `_get_default`. -/
def getDefault (s : Process) : Except String (SnowflakeGenerator × Clock) :=
  match s.inst with
  | some inst => .ok inst
  | none => (newDefault 0 0).map fun g => (g, .initial)

/-- `generate_id`; `none` while it waits for a reading. -/
def generateId (s : Process) : Option Process :=
  match getDefault s with
  | .error _ => some s
  | .ok (g, c) =>
    (g.generate c s.readings).map fun r =>
      ⟨some (g, r.2.1), r.2.2, s.returned ++ [⟨r.1, g, r.2.1⟩]⟩

/-- `configure_default_generator`: an id out of range raises and changes nothing. -/
def configureDefaultGenerator (s : Process) (workerId datacenterId : ℤ) : Process :=
  match newDefault workerId datacenterId with
  | .error _ => s
  | .ok g => { s with inst := some (g, .initial) }

/-- One call. -/
def Process.step (s : Process) : RegistryCall → Option Process
  | .generateId => generateId s
  | .configureDefaultGenerator workerId datacenterId =>
    some (configureDefaultGenerator s workerId datacenterId)
  | .resetDefaultGenerator => some { s with inst := none }

/-- The generator and clock the next `generate_id` uses. -/
def Process.current (s : Process) : SnowflakeGenerator × Clock :=
  s.inst.getD (firstWorker, .initial)

/-- **The condition on a call**: a generator that has returned no id yet reads a millisecond after
those of all ids of an earlier generator of the same datacenter and worker. -/
def Process.freshMillis (s : Process) : RegistryCall → Bool
  | .generateId =>
    s.current.2 != .initial || s.returned.all fun r =>
      r.generator != s.current.1 || s.readings.head?.all (r.clock.lastTimestamp < ·)
  | _ => true

section

variable {s s' : Process} {call : RegistryCall}

theorem newDefault_zero : newDefault 0 0 = .ok firstWorker := firstWorker.new_self

theorem getDefault_eq (s : Process) : getDefault s = .ok s.current := by
  cases hinst : s.inst with
  | some inst => simp only [getDefault, Process.current, hinst, Option.getD_some]
  | none => simp only [getDefault, Process.current, hinst, newDefault_zero, Option.getD_none,
      Except.map]

/-- A generator with the defaults of the constructor. -/
def SnowflakeGenerator.IsDefault (g : SnowflakeGenerator) : Prop :=
  g.epochMs = defaultEpochMs ∧ g.widths = .default

theorem isDefault_of_newDefault {workerId datacenterId : ℤ} {g : SnowflakeGenerator}
    (h : newDefault workerId datacenterId = .ok g) : g.IsDefault := by
  obtain ⟨hepoch, -, -, hsequence, hworker, hdatacenter⟩ := SnowflakeGenerator.new_eq_ok h
  refine ⟨hepoch, ?_⟩
  rcases hwidths : g.widths with ⟨sequenceBits, workerBits, datacenterBits⟩
  simp only [hwidths] at hsequence hworker hdatacenter
  simp only [Widths.default, Widths.mk.injEq]
  omega

/-- What a call finds and does. -/
inductive Process.Effect (s : Process) : RegistryCall → Process → Prop
  | generateId {c rest id}
      (hgenerate : s.current.1.generate s.current.2 s.readings = some (id, c, rest)) :
      Effect s .generateId
        ⟨some (s.current.1, c), rest, s.returned ++ [⟨id, s.current.1, c⟩]⟩
  | configured {workerId datacenterId g}
      (hg : newDefault workerId datacenterId = .ok g) :
      Effect s (.configureDefaultGenerator workerId datacenterId)
        { s with inst := some (g, .initial) }
  | refused {workerId datacenterId} :
      Effect s (.configureDefaultGenerator workerId datacenterId) s
  | reset : Effect s .resetDefaultGenerator { s with inst := none }

/-- The step relation has every step. -/
theorem step_effect (h : s.step call = some s') : s.Effect call s' := by
  cases call with
  | generateId =>
    rw [Process.step, generateId, getDefault_eq] at h
    obtain ⟨⟨id, c, rest⟩, hgenerate, rfl⟩ := Option.map_eq_some_iff.mp h
    exact .generateId hgenerate
  | configureDefaultGenerator workerId datacenterId =>
    cases h
    rw [configureDefaultGenerator]
    split
    · exact .refused
    · rename_i hg
      exact .configured hg
  | resetDefaultGenerator =>
    cases h
    exact .reset

/-! ### What the returned ids tell -/

/-- The sequence number of a generator's first id in a millisecond: a new generator takes itself
to be at -1, so there it starts at one. -/
def firstSequence (timestamp : ℤ) : ℕ := if timestamp = -1 then 1 else 0

/-- A returned id is the one of its generator and clock. -/
structure Returned.Ok (r : Returned) : Prop where
  isDefault : r.generator.IsDefault
  sequence_le : r.clock.sequence ≤ r.generator.widths.maxSequence
  timestamp_ge : -1 ≤ r.clock.lastTimestamp
  id_eq : r.id = r.generator.widths.pack (r.generator.fields r.clock)

theorem generator_ext {g g' : SnowflakeGenerator} (h : g.IsDefault) (h' : g'.IsDefault)
    (hdatacenter : g.datacenterId = g'.datacenterId) (hworker : g.workerId = g'.workerId) :
    g = g' := by
  obtain ⟨hepoch, hwidths⟩ := h
  obtain ⟨hepoch', hwidths'⟩ := h'
  cases g
  cases g'
  simp_all

theorem Returned.Ok.inj {r r' : Returned} (h : r.Ok) (h' : r'.Ok) (hid : r.id = r'.id) :
    r.generator = r'.generator ∧ r.clock = r'.clock := by
  have hwidths : r'.generator.widths = r.generator.widths :=
    h'.isDefault.2.trans h.isDefault.2.symm
  rw [h.id_eq, h'.id_eq, hwidths] at hid
  have hfields := pack_inj (fields_fit _ h.sequence_le) (hwidths ▸ fields_fit _ h'.sequence_le) hid
  have hgenerator : r.generator = r'.generator :=
    generator_ext h.isDefault h'.isDefault (congrArg Fields.datacenterId hfields)
      (congrArg Fields.workerId hfields)
  refine ⟨hgenerator, ?_⟩
  have hmillis := congrArg Fields.millis hfields
  have hsequence := congrArg Fields.sequence hfields
  simp only [SnowflakeGenerator.fields, hgenerator] at hmillis hsequence
  rcases hclock : r.clock with ⟨lastTimestamp, sequence⟩
  rcases hclock' : r'.clock with ⟨lastTimestamp', sequence'⟩
  simp only [hclock, hclock'] at hmillis hsequence
  rw [Clock.mk.injEq]
  omega

/-- **The ledger**: the readings to come are in order and after everything returned, the current
clock is new or that of a returned id, and whatever was returned in a millisecond, the
generator's first id of it was. -/
structure Ledger (s : Process) : Prop where
  sorted : s.readings.Pairwise (· ≤ ·)
  past : ∀ r ∈ s.returned, ∀ t ∈ s.readings, r.clock.lastTimestamp ≤ t
  ok : ∀ r ∈ s.returned, r.Ok
  isDefault : s.current.1.IsDefault
  last : s.current.2 = .initial ∨
    ∃ r ∈ s.returned, r.generator = s.current.1 ∧ r.clock = s.current.2
  first : ∀ r ∈ s.returned, ∃ r' ∈ s.returned, r'.generator = r.generator ∧
    r'.clock = ⟨r.clock.lastTimestamp, firstSequence r.clock.lastTimestamp⟩

theorem Ledger.initial {readings : List ℤ} (hsorted : readings.Pairwise (· ≤ ·)) :
    Ledger (.initial readings) where
  sorted := hsorted
  past := nofun
  ok := nofun
  isDefault := ⟨rfl, rfl⟩
  last := .inl rfl
  first := nofun

theorem Ledger.current_ok (h : Ledger s) :
    s.current.2.sequence ≤ s.current.1.widths.maxSequence ∧ -1 ≤ s.current.2.lastTimestamp := by
  rcases h.last with hinitial | ⟨r, hr, hgenerator, hclock⟩
  · rw [hinitial]
    exact ⟨Nat.zero_le _, le_rfl⟩
  · rw [← hgenerator, ← hclock]
    exact ⟨(h.ok r hr).sequence_le, (h.ok r hr).timestamp_ge⟩

section

variable {c : Clock} {rest : List ℤ} {id : ℤ}

theorem Ledger.next_ok (h : Ledger s)
    (hgenerate : s.current.1.generate s.current.2 s.readings = some (id, c, rest)) :
    Ticked s.current.1.widths s.current.2 s.readings c rest ∧
      Returned.Ok ⟨id, s.current.1, c⟩ := by
  obtain ⟨hsequence, htimestamp⟩ := h.current_ok
  obtain ⟨hticked, hid⟩ := generate_spec hsequence hgenerate
  refine ⟨hticked, h.isDefault, hticked.sequence_le, ?_, hid⟩
  rcases hticked.before with hlt | ⟨heq, -⟩
  · exact htimestamp.trans hlt.le
  · exact heq ▸ htimestamp

/-- The first id of the millisecond the clock moves to has been returned, or is this one. -/
theorem Ledger.next_first (h : Ledger s) {w : Widths}
    (hticked : Ticked w s.current.2 s.readings c rest) :
    c = ⟨c.lastTimestamp, firstSequence c.lastTimestamp⟩ ∨
      ∃ r ∈ s.returned, r.generator = s.current.1 ∧
        r.clock = ⟨c.lastTimestamp, firstSequence c.lastTimestamp⟩ := by
  cases hticked with
  | next =>
    rcases h.last with hinitial | ⟨r, hr, hgenerator, hclock⟩
    · left
      rw [hinitial]
      rfl
    · right
      obtain ⟨r', hr', hgenerator', hclock'⟩ := h.first r hr
      exact ⟨r', hr', hgenerator'.trans hgenerator, hclock ▸ hclock'⟩
  | @later timestamp _ _ _ hlater =>
    left
    have hne : timestamp ≠ -1 := by
      have := h.current_ok.2
      omega
    rw [firstSequence, if_neg hne]

theorem Ledger.generateId (h : Ledger s)
    (hgenerate : s.current.1.generate s.current.2 s.readings = some (id, c, rest)) :
    Ledger ⟨some (s.current.1, c), rest, s.returned ++ [⟨id, s.current.1, c⟩]⟩ := by
  obtain ⟨hticked, hok⟩ := h.next_ok hgenerate
  obtain ⟨skipped, hreadings⟩ := hticked.readings_eq
  have hsorted := h.sorted
  rw [hreadings] at hsorted
  obtain ⟨hlater, hrest⟩ := pairwise_cons.mp (pairwise_append.mp hsorted).2.1
  refine ⟨hrest, ?_, ?_, h.isDefault, .inr ⟨_, mem_append_right _ mem_cons_self, rfl, rfl⟩, ?_⟩
  · intro r hr t ht
    rcases mem_append.mp hr with hr | hr
    · refine h.past r hr t ?_
      rw [hreadings]
      exact mem_append_right _ (mem_cons_of_mem _ ht)
    · obtain rfl := mem_singleton.mp hr
      exact hlater t ht
  · intro r hr
    rcases mem_append.mp hr with hr | hr
    · exact h.ok r hr
    · obtain rfl := mem_singleton.mp hr
      exact hok
  · intro r hr
    rcases mem_append.mp hr with hr | hr
    · obtain ⟨r', hr', hfirst⟩ := h.first r hr
      exact ⟨r', mem_append_left _ hr', hfirst⟩
    · obtain rfl := mem_singleton.mp hr
      rcases h.next_first hticked with hthis | ⟨r', hr', hfirst⟩
      · exact ⟨_, mem_append_right _ mem_cons_self, rfl, hthis⟩
      · exact ⟨r', mem_append_left _ hr', hfirst⟩

end

/-- A step keeps the ledger. -/
theorem Ledger.step (h : Ledger s) (hstep : s.step call = some s') : Ledger s' := by
  cases step_effect hstep with
  | generateId hgenerate => exact h.generateId hgenerate
  | configured hg =>
    exact ⟨h.sorted, h.past, h.ok, isDefault_of_newDefault hg, .inl rfl, h.first⟩
  | refused => exact h
  | reset => exact ⟨h.sorted, h.past, h.ok, ⟨rfl, rfl⟩, .inl rfl, h.first⟩

/-! ### Uniqueness -/

/-- The ids returned so far. -/
def Process.ids (s : Process) : List ℤ := s.returned.map Returned.id

/-- The current clock is **ahead** of every id its generator's worker returned. -/
def Ahead (s : Process) : Prop :=
  s.current.2 = .initial ∨ ∀ r ∈ s.returned, r.generator = s.current.1 →
    r.clock = s.current.2 ∨ r.clock.Before s.current.2

theorem Clock.Before.irrefl (c : Clock) : ¬ c.Before c := by
  unfold Clock.Before
  omega

section

variable {c : Clock} {rest : List ℤ} {id : ℤ}

/-- In a fresh millisecond, or on a clock that is ahead, the next clock is after every id of the
worker. -/
theorem Ledger.next_before (h : Ledger s) (hahead : Ahead s)
    (hok : s.freshMillis .generateId = true)
    (hticked : Ticked s.current.1.widths s.current.2 s.readings c rest) :
    ∀ r ∈ s.returned, r.generator = s.current.1 → r.clock.Before c := by
  intro r hr hgenerator
  by_cases hinitial : s.current.2 = .initial
  · left
    obtain ⟨skipped, hreadings⟩ := hticked.readings_eq
    have hsorted := h.sorted
    simp only [Process.freshMillis, hinitial, bne_self_eq_false, Bool.false_or, all_eq_true] at hok
    have hhead := hok r hr
    rw [hgenerator, bne_self_eq_false, Bool.false_or] at hhead
    rw [hreadings] at hhead hsorted
    cases skipped with
    | nil => exact of_decide_eq_true hhead
    | cons t skipped =>
      have hlt : r.clock.lastTimestamp < t := of_decide_eq_true hhead
      refine hlt.trans_le ((pairwise_cons.mp hsorted).1 _ ?_)
      exact mem_append_right _ mem_cons_self
  · rcases hahead.resolve_left hinitial r hr hgenerator with heq | hbefore
    · exact heq ▸ hticked.before
    · exact hbefore.trans hticked.before

theorem nodup_step (h : Ledger s ∧ Ahead s ∧ s.ids.Nodup) (hok : s.freshMillis call = true)
    (hstep : s.step call = some s') : Ledger s' ∧ Ahead s' ∧ s'.ids.Nodup := by
  obtain ⟨hledger, hahead, hnodup⟩ := h
  refine ⟨hledger.step hstep, ?_⟩
  cases step_effect hstep with
  | @generateId c rest id hgenerate =>
    obtain ⟨hticked, hreturned⟩ := hledger.next_ok hgenerate
    have hbefore := hledger.next_before hahead hok hticked
    refine ⟨.inr fun r hr hgenerator => ?_, ?_⟩
    · rcases mem_append.mp hr with hr | hr
      · exact .inr (hbefore r hr hgenerator)
      · obtain rfl := mem_singleton.mp hr
        exact .inl rfl
    · rw [Process.ids, map_append, map_singleton, nodup_append]
      refine ⟨hnodup, nodup_cons.mpr ⟨nofun, nodup_nil⟩, ?_⟩
      intro a ha b hb hab
      obtain ⟨r, hr, rfl⟩ := mem_map.mp ha
      obtain rfl := mem_singleton.mp hb
      obtain ⟨hgenerator, hclock⟩ := (hledger.ok r hr).inj hreturned hab
      have hself := hbefore r hr hgenerator
      rw [hclock] at hself
      exact Clock.Before.irrefl c hself
  | configured | reset => exact ⟨.inl rfl, hnodup⟩
  | refused => exact ⟨hahead, hnodup⟩

theorem generate_initial {g : SnowflakeGenerator} (hg : g.IsDefault) {t : ℤ} (ht : -1 ≤ t) :
    g.generate .initial (t :: rest) =
      some (g.widths.pack (g.fields ⟨t, firstSequence t⟩), ⟨t, firstSequence t⟩, rest) := by
  have hread : readMillis (-1) (t :: rest) = some (t, rest) := by
    rw [readMillis, if_neg (not_lt.mpr ht)]
  rcases ht.eq_or_lt with rfl | hlt
  · simp only [SnowflakeGenerator.generate, tick, Clock.initial, hread, hg.2]
    rfl
  · simp only [SnowflakeGenerator.generate, tick, Clock.initial, hread, firstSequence, hlt.ne',
      bind, Option.bind_some, pure, if_false]

/-- **A repeated id**: outside a fresh millisecond, the first id of a new generator is one that
was returned before. -/
theorem Ledger.repeated (h : Ledger s) (hnot : ¬ s.freshMillis .generateId = true)
    (hgenerate : s.current.1.generate s.current.2 s.readings = some (id, c, rest)) :
    id ∈ s.ids := by
  simp only [Process.freshMillis, Bool.or_eq_true, bne_iff_ne, not_or, not_not, all_eq_true,
    not_forall] at hnot
  obtain ⟨hinitial, r, hr, hgenerator, hhead⟩ := hnot
  cases hreadings : s.readings with
  | nil =>
    rw [hreadings] at hgenerate
    cases hgenerate
  | cons t readings =>
    rw [hreadings] at hhead hgenerate
    have hle : r.clock.lastTimestamp ≤ t := h.past r hr t (hreadings ▸ mem_cons_self)
    have hge : ¬ r.clock.lastTimestamp < t := fun hlt => hhead (decide_eq_true hlt)
    have htimestamp : r.clock.lastTimestamp = t := le_antisymm hle (not_lt.mp hge)
    have hfirst := h.first r hr
    rw [htimestamp] at hfirst
    obtain ⟨r', hr', hgenerator', hclock⟩ := hfirst
    rw [hinitial, generate_initial h.isDefault (htimestamp ▸ (h.ok r hr).timestamp_ge)]
      at hgenerate
    obtain ⟨rfl, -⟩ := Prod.mk.inj (Option.some.inj hgenerate)
    refine mem_map.mpr ⟨r', hr', ?_⟩
    rw [(h.ok r' hr').id_eq, hgenerator', hgenerator, hclock]

end

theorem ids_grow {calls : List RegistryCall} (hrun : run Process.step s calls = some s') :
    s.ids <+: s'.ids := by
  refine run_invariant (P := fun x => s.ids <+: x.ids) ?_ prefix_rfl hrun
  intro s₁ call s₂ hids hstep
  cases step_effect hstep with
  | generateId =>
    refine hids.trans ?_
    rw [Process.ids, Process.ids, map_append]
    exact prefix_append _ _
  | configured | refused | reset => exact hids

theorem stepsMeet_of_nodup {calls : List RegistryCall} (h : Ledger s)
    (hrun : run Process.step s calls = some s') (hnodup : s'.ids.Nodup) :
    StepsMeet Process.step (fun s call => s.freshMillis call = true) s calls := by
  induction calls generalizing s with
  | nil => trivial
  | cons call calls ih =>
    obtain ⟨s₁, hstep, hrest⟩ := run_cons_eq_some hrun
    refine (stepsMeet_cons_iff hstep).mpr ⟨?_, ih (h.step hstep) hrest⟩
    have hnodup₁ : s₁.ids.Nodup := hnodup.sublist (ids_grow hrest).sublist
    cases step_effect hstep with
    | generateId hgenerate =>
      by_contra hnot
      rw [Process.ids, map_append, map_singleton, nodup_append] at hnodup₁
      exact hnodup₁.2.2 _ (h.repeated hnot hgenerate) _ mem_cons_self rfl
    | configured | refused | reset => rfl

/-- **Process-wide uniqueness**: for readings that never go back, no id is returned twice exactly
when every call meets the condition. -/
theorem process_ids_nodup_iff (readings : List ℤ) (hsorted : readings.Pairwise (· ≤ ·))
    (calls : List RegistryCall) (s : Process)
    (hrun : run Process.step (.initial readings) calls = some s) :
    s.ids.Nodup ↔
      StepsMeet Process.step (fun s call => s.freshMillis call = true) (.initial readings)
        calls := by
  have hledger : Ledger (.initial readings) := .initial hsorted
  refine ⟨stepsMeet_of_nodup hledger hrun, fun hok => ?_⟩
  exact (run_invariant_where (P := fun s => Ledger s ∧ Ahead s ∧ s.ids.Nodup) nodup_step
    ⟨hledger, .inl rfl, nodup_nil⟩ hok hrun).2.2

end

/-- A generator is replaced by one of the same worker, a millisecond later. -/
theorem process_ids_nodup_iff_reconfigured :
    ∃ s, run Process.step (.initial [defaultEpochMs, defaultEpochMs + 1])
        [.generateId, .configureDefaultGenerator 0 0, .generateId] = some s ∧ s.ids.Nodup := by
  have hrun : (run Process.step (.initial [defaultEpochMs, defaultEpochMs + 1])
      [.generateId, .configureDefaultGenerator 0 0, .generateId]).isSome = true := by
    decide +kernel
  obtain ⟨s, hs⟩ := Option.isSome_iff_exists.mp hrun
  refine ⟨s, hs, (process_ids_nodup_iff _ ?_ _ s hs).mpr (by decide +kernel)⟩
  decide +kernel

/-- **The same id twice**: the default generator is reset between two calls in one
millisecond. -/
theorem repeated_id :
    ∃ s, run Process.step (.initial [defaultEpochMs + 5, defaultEpochMs + 5])
        [.generateId, .resetDefaultGenerator, .generateId] = some s ∧
      s.ids = [20971520, 20971520] := by
  have hids : (run Process.step (.initial [defaultEpochMs + 5, defaultEpochMs + 5])
      [.generateId, .resetDefaultGenerator, .generateId]).map Process.ids =
        some [20971520, 20971520] := by decide +kernel
  obtain ⟨s, hs, hids⟩ := Option.map_eq_some_iff.mp hids
  exact ⟨s, hs, hids⟩

end ServiceToolkit.Ids
