import ServiceToolkit.ImportResolve

/-!
# The Law of Import Resolution

Which value `pick_field_value` picks, said without any sorting: the newest of the forced
source, or else that of the candidate which is least by the ranks, the time and the name of its
source. Candidates without a value, or with `None`, do not count.
-/

namespace ServiceToolkit.ImportResolve

open StableSort List

/-! ### The orders -/

instance transCmp_newer : Std.TransCmp (fun a b : WithBot ℚ => compare b a) := Std.TransCmp.opposite

instance transCmp_compareNewest : Std.TransCmp compareNewest := by
  rw [compareNewest]
  infer_instance

instance transCmp_compareGlobal (priorities : Dict String ℕ) :
    Std.TransCmp (compareGlobal priorities) := by
  rw [compareGlobal]
  infer_instance

instance transCmp_compareField (priorities fieldPriorities : Dict String ℕ) :
    Std.TransCmp (compareField priorities fieldPriorities) := by
  rw [compareField]
  infer_instance

theorem compareNewest_eq {a b : Origin} (h : compareNewest a b = .eq) : a.timestamp = b.timestamp :=
  (compare_eq_iff_eq.mp h).symm

variable {priorities : Dict String ℕ}

theorem compareGlobal_eq {a b : Origin} (h : compareGlobal priorities a b = .eq) : a = b := by
  rw [compareGlobal, compareLex_eq_eq, compareLex_eq_eq] at h
  obtain ⟨-, htime, hsource⟩ := h
  have htime := compareNewest_eq htime
  have hsource : a.source = b.source := compare_eq_iff_eq.mp hsource
  cases a
  cases b
  cases htime
  cases hsource
  rfl

variable {fieldPriorities : Dict String ℕ}

theorem compareField_eq {a b : Origin}
    (h : compareField priorities fieldPriorities a b = .eq) : a = b :=
  compareGlobal_eq (compareLex_eq_eq.mp h).2

theorem compareField_of_empty
    (h : fieldPriorities.entries = []) :
    compareField priorities fieldPriorities = compareGlobal priorities := by
  funext a b
  have hrank : ∀ source, rank fieldPriorities source = 10000 := by
    intro source
    rw [rank, Dict.get?, h]
    rfl
  simp [compareField, compareLex, compareOn, hrank]

/-! ### The first value -/

section

variable {V : Type*} (py : Python V) (value : Candidate V → Option V)

/-- The candidate has a value that is not `None`. -/
def Has (c : Candidate V) : Bool := (py.given (value c)).isSome

theorem firstGiven_eq (l : List (Candidate V)) :
    firstGiven py value l = (l.find? (Has py value)).bind fun c => py.given (value c) := by
  induction l with
  | nil => rfl
  | cons c l ih =>
    rw [firstGiven, findSome?_cons, find?_cons, Has]
    cases h : py.given (value c) with
    | none =>
      rw [Option.isSome_none]
      exact ih
    | some v =>
      rw [Option.isSome_some, Option.bind_some, h]

variable {py value}

theorem firstGiven_eq_some {l : List (Candidate V)} {v : V} (h : firstGiven py value l = some v) :
    ∃ c, l.find? (Has py value) = some c ∧ py.given (value c) = some v := by
  rw [firstGiven_eq] at h
  exact Option.bind_eq_some_iff.mp h

theorem firstGiven_eq_none {l : List (Candidate V)} :
    firstGiven py value l = none ↔ ∀ c ∈ l, Has py value c = false := by
  rw [firstGiven, findSome?_eq_none_iff]
  exact forall₂_congr fun c _ => by rw [Has, Option.isSome_eq_false_iff, Option.isNone_iff_eq_none]

theorem given_eq_some {v : V} {o : Option V} (h : py.given o = some v) :
    o = some v ∧ v ≠ py.none := by
  obtain ⟨ho, hv⟩ := Option.filter_eq_some_iff.mp h
  refine ⟨ho, fun hnone => ?_⟩
  rw [(py.isNone_iff v).mpr hnone] at hv
  cases hv

theorem firstGiven_forced {candidates : List (Candidate V)} {forced : String} {v : V}
    (h : firstGiven py value (forcedCandidates candidates forced) = some v) :
    ∃ c, FirstLeast (comparing compareNewest Candidate.toOrigin)
        (fun c => c.source == forced && Has py value c) candidates c ∧
      py.given (value c) = some v := by
  obtain ⟨c, hfind, hv⟩ := firstGiven_eq_some h
  rw [forcedCandidates, find?_map] at hfind
  obtain ⟨indexed, hfound, rfl⟩ := Option.map_eq_some_iff.mp hfind
  exact ⟨indexed.1, (firstLeast_of_find? hfound).of_filter.of_zipIdx, hv⟩

theorem mem_forcedCandidates {candidates : List (Candidate V)} {forced : String} {c : Candidate V} :
    c ∈ forcedCandidates candidates forced ↔ c ∈ candidates ∧ c.source = forced := by
  simp only [forcedCandidates, mem_map, mem_sortBy, mem_filter, beq_iff_eq]
  constructor
  · rintro ⟨indexed, ⟨hmem, hsource⟩, rfl⟩
    refine ⟨?_, hsource⟩
    rw [← zipIdx_map_fst 0 candidates]
    exact mem_map_of_mem hmem
  · rintro ⟨hmem, hsource⟩
    rw [← zipIdx_map_fst 0 candidates] at hmem
    obtain ⟨indexed, hindexed, rfl⟩ := mem_map.mp hmem
    exact ⟨indexed, ⟨hindexed, hsource⟩, rfl⟩

end

/-! ### The value that is picked -/

section

variable {V : Type*} (py : Python V) (value : Candidate V → Option V)
  (candidates : List (Candidate V)) (priorities fieldPriorities : Dict String ℕ)
  (forcedSource : Option String)

/-- The forced source has a value. -/
def ForcedHas : Prop :=
  ∃ forced, forcedSource = some forced ∧ ∃ c ∈ candidates, c.source = forced ∧ Has py value c = true

/-- **The newest** value of a source comes from this candidate. -/
def NewestOf (forced : String) (c : Candidate V) : Prop :=
  FirstLeast (comparing compareNewest Candidate.toOrigin)
    (fun c => c.source == forced && Has py value c) candidates c

/-- **The least** candidate that has a value, by field rank, source rank, newest time and name of
the source. -/
def LeastOf (c : Candidate V) : Prop :=
  FirstLeast (comparing (compareField priorities fieldPriorities) Candidate.toOrigin)
    (Has py value) candidates c

variable {py value candidates priorities fieldPriorities forcedSource}

theorem forcedValue_eq_none (h : ¬ ForcedHas py value candidates forcedSource) :
    (forcedSource.bind fun forced =>
      firstGiven py value (forcedCandidates candidates forced)) = none := by
  rw [Option.bind_eq_none_iff]
  intro forced hforced
  rw [firstGiven_eq_none]
  intro c hc
  obtain ⟨hmem, hsource⟩ := mem_forcedCandidates.mp hc
  exact Bool.eq_false_iff.mpr fun hhas => h ⟨forced, hforced, c, hmem, hsource, hhas⟩

theorem pickValue_of_not_forced (h : ¬ ForcedHas py value candidates forcedSource) :
    pickValue py value candidates priorities fieldPriorities forcedSource =
      (firstGiven py value (sortBy (comparing (compareField priorities fieldPriorities)
        Candidate.toOrigin) candidates)).getD py.none := by
  rw [pickValue, forcedValue_eq_none h]
  by_cases hempty : fieldPriorities.entries = []
  · simp only [hempty, if_true, compareField_of_empty hempty]
  · simp only [hempty, if_false]
    cases hfirst : firstGiven py value (sortBy (comparing (compareField priorities fieldPriorities)
        Candidate.toOrigin) candidates) with
    | some v => rfl
    | none =>
      have hnone : firstGiven py value (sortBy (comparing (compareGlobal priorities)
          Candidate.toOrigin) (sortBy (comparing (compareField priorities fieldPriorities)
          Candidate.toOrigin) candidates)) = none := by
        rw [firstGiven_eq_none] at hfirst ⊢
        exact fun c hc => hfirst c (mem_sortBy.mp hc)
      rw [hnone]

variable (priorities fieldPriorities) in
/-- With a forced source that has a value, the newest of that source is picked. -/
theorem pickValue_of_forced {forced : String} (hforced : forcedSource = some forced)
    (h : ∃ c ∈ candidates, c.source = forced ∧ Has py value c = true) :
    ∃ c, NewestOf py value candidates forced c ∧ py.given (value c) =
      some (pickValue py value candidates priorities fieldPriorities forcedSource) := by
  obtain ⟨c, hmem, hsource, hhas⟩ := h
  cases hfirst : firstGiven py value (forcedCandidates candidates forced) with
  | none =>
    have hnot := firstGiven_eq_none.mp hfirst c (mem_forcedCandidates.mpr ⟨hmem, hsource⟩)
    rw [hhas] at hnot
    cases hnot
  | some v =>
    obtain ⟨newest, hnewest, hv⟩ := firstGiven_forced hfirst
    refine ⟨newest, hnewest, ?_⟩
    rw [pickValue, hforced, Option.bind_some, hfirst, hv]

variable (priorities fieldPriorities) in
/-- Without one, the value of the least candidate is picked. -/
theorem pickValue_of_least (hforced : ¬ ForcedHas py value candidates forcedSource)
    (h : ∃ c ∈ candidates, Has py value c = true) :
    ∃ c, LeastOf py value candidates priorities fieldPriorities c ∧ py.given (value c) =
      some (pickValue py value candidates priorities fieldPriorities forcedSource) := by
  obtain ⟨c, hmem, hhas⟩ := h
  rw [pickValue_of_not_forced hforced]
  cases hfirst : firstGiven py value (sortBy (comparing (compareField priorities fieldPriorities)
      Candidate.toOrigin) candidates) with
  | none =>
    have hnot := firstGiven_eq_none.mp hfirst c (mem_sortBy.mpr hmem)
    rw [hhas] at hnot
    cases hnot
  | some v =>
    obtain ⟨least, hfind, hv⟩ := firstGiven_eq_some hfirst
    exact ⟨least, firstLeast_of_find? hfind, hv⟩

theorem pickValue_eq_none (h : ¬ ∃ c ∈ candidates, Has py value c = true) :
    pickValue py value candidates priorities fieldPriorities forcedSource = py.none := by
  have hforced : ¬ ForcedHas py value candidates forcedSource := by
    rintro ⟨_, -, c, hmem, -, hhas⟩
    exact h ⟨c, hmem, hhas⟩
  have hfirst : firstGiven py value (sortBy (comparing (compareField priorities fieldPriorities)
      Candidate.toOrigin) candidates) = none :=
    firstGiven_eq_none.mpr fun c hc => Bool.eq_false_iff.mpr fun hhas =>
      h ⟨c, mem_sortBy.mp hc, hhas⟩
  rw [pickValue_of_not_forced hforced, hfirst]
  rfl

theorem pickValue_ne_none_iff :
    pickValue py value candidates priorities fieldPriorities forcedSource ≠ py.none ↔
      ∃ c ∈ candidates, Has py value c = true := by
  constructor
  · exact fun hne => by_contra fun h => hne (pickValue_eq_none h)
  · intro h
    by_cases hforced : ForcedHas py value candidates forcedSource
    · obtain ⟨forced, heq, hhas⟩ := hforced
      obtain ⟨c, -, hv⟩ := pickValue_of_forced priorities fieldPriorities heq hhas
      exact (given_eq_some hv).2
    · obtain ⟨c, -, hv⟩ := pickValue_of_least priorities fieldPriorities hforced h
      exact (given_eq_some hv).2

theorem eq_of_origin (hdistinct : (candidates.map Candidate.toOrigin).Nodup) {c c' : Candidate V}
    (hc : c ∈ candidates) (hc' : c' ∈ candidates) (h : c.toOrigin = c'.toOrigin) : c = c' :=
  inj_on_of_nodup_map hdistinct hc hc' h

/-- **The order of the candidates does not matter**, if no two share source and time. -/
theorem pickValue_perm {candidates' : List (Candidate V)} (hperm : candidates'.Perm candidates)
    (hdistinct : (candidates.map Candidate.toOrigin).Nodup) :
    pickValue py value candidates' priorities fieldPriorities forcedSource =
      pickValue py value candidates priorities fieldPriorities forcedSource := by
  have hmem : ∀ {P : Candidate V → Prop}, (∃ c ∈ candidates', P c) ↔ ∃ c ∈ candidates, P c :=
    exists_congr fun c => and_congr_left fun _ => hperm.mem_iff
  have hforcedIff : ForcedHas py value candidates' forcedSource ↔
      ForcedHas py value candidates forcedSource := by
    simp only [ForcedHas, hmem]
  by_cases h : ∃ c ∈ candidates, Has py value c = true
  · by_cases hforced : ForcedHas py value candidates forcedSource
    · obtain ⟨forced, heq, hhas⟩ := hforced
      obtain ⟨c, hc, hv⟩ := pickValue_of_forced priorities fieldPriorities heq hhas
      obtain ⟨c', hc', hv'⟩ := pickValue_of_forced priorities fieldPriorities heq (hmem.mpr hhas)
      have hsame : c = c' := by
        refine hc.eq_of_perm hperm hc' fun y hy z hz hpy hpz hyz => eq_of_origin hdistinct hy hz ?_
        rw [Bool.and_eq_true, beq_iff_eq] at hpy hpz
        have htime : y.timestamp = z.timestamp := compareNewest_eq hyz
        have hsource : y.source = z.source := hpy.1.trans hpz.1.symm
        exact Origin.ext hsource htime
      rw [← hsame, hv] at hv'
      exact (Option.some.inj hv').symm
    · obtain ⟨c, hc, hv⟩ := pickValue_of_least priorities fieldPriorities hforced h
      obtain ⟨c', hc', hv'⟩ := pickValue_of_least priorities fieldPriorities
        (fun hf => hforced (hforcedIff.mp hf)) (hmem.mpr h)
      have hsame : c = c' := by
        refine hc.eq_of_perm hperm hc' fun y hy z hz _ _ hyz => eq_of_origin hdistinct hy hz ?_
        exact compareField_eq hyz
      rw [← hsame, hv] at hv'
      exact (Option.some.inj hv').symm
  · rw [pickValue_eq_none h, pickValue_eq_none fun h' => h (hmem.mp h')]

end

/-! ### The fields of the result -/

section

variable {V : Type*} (py : Python V) {fieldPriority : Dict String (List String)}

theorem get?_of_fields {sourcePriority : List String}
    {overrides : Dict String String} {candidates : List (Candidate V)}
    {resolvableFields : List String} {start st : Dict String (Slot V) × List String}
    (h : run (fieldStep py sourcePriority fieldPriority overrides candidates) start
      resolvableFields = some st) :
    ∀ field ∈ resolvableFields, st.1.get? field =
      some (.value (fieldValue py sourcePriority fieldPriority overrides candidates field)) := by
  refine run_history (P := fun done (st : Dict String (Slot V) × List String) =>
    ∀ field ∈ done, st.1.get? field =
      some (.value (fieldValue py sourcePriority fieldPriority overrides candidates field)))
    (fun {done st current st'} hdone hstep field hfield => ?_) (by simp) h
  obtain ⟨conflict, -, rfl⟩ := Option.map_eq_some_iff.mp hstep
  rw [Dict.get?_set]
  by_cases heq : field = current
  · rw [if_pos heq, heq]
  · rw [if_neg heq]
    rcases mem_append.mp hfield with hmem | hmem
    · exact hdone field hmem
    · exact absurd (mem_singleton.mp hmem) heq

theorem get?_resolveCandidates {identity : String} {items : List V} {sourcePriority : List String}
    {manualOverrides : Dict String (Dict String String)} {resolvableFields : List String}
    {result : Dict String (Slot V) × List String}
    (h : resolveCandidates py identity items sourcePriority fieldPriority manualOverrides
      resolvableFields = some result) {field : String} (hfield : field ∈ resolvableFields)
    (hne : field ≠ "answers") :
    result.1.get? field = some (.value (fieldValue py sourcePriority fieldPriority
      (overridesFor identity manualOverrides) (py.candidates items) field)) := by
  simp only [resolveCandidates, Option.bind_eq_bind, Option.bind_eq_some_iff] at h
  obtain ⟨st, hfields, byKey, -, heq⟩ := h
  cases heq
  rw [Dict.get?_set, if_neg hne]
  exact get?_of_fields py hfields field hfield

theorem candidates_perm {items items' : List V} (h : items'.Perm items) :
    (py.candidates items').Perm (py.candidates items) :=
  (h.filterMap py.dict).map _

end

/-- **The law of the fields.** A field has a value exactly when a candidate has one: the newest of
the forced source, if that has any, and otherwise that of the least candidate by field rank, source
rank, newest time and name of the source; among equals, the first listed. If no two candidates share
source and time, their order does not matter. -/
theorem field_resolution_law {V : Type*} (py : Python V) (identity : String) (items : List V)
    (sourcePriority : List String) (fieldPriority : Dict String (List String))
    (manualOverrides : Dict String (Dict String String)) (field : String) :
    let candidates := py.candidates items
    let overrides := overridesFor identity manualOverrides
    let value := fun c : Candidate V => c.items.get? (.text field)
    let resolved := fieldValue py sourcePriority fieldPriority overrides candidates field
    (∀ resolvableFields result, resolveCandidates py identity items sourcePriority fieldPriority
        manualOverrides resolvableFields = some result → field ∈ resolvableFields →
      field ≠ "answers" → result.1.get? field = some (.value resolved)) ∧
    (resolved ≠ py.none ↔ ∃ c ∈ candidates, Has py value c = true) ∧
    (∀ forced, overrides.get? field = some forced →
      (∃ c ∈ candidates, c.source = forced ∧ Has py value c = true) →
      ∃ c, NewestOf py value candidates forced c ∧ value c = some resolved) ∧
    (¬ ForcedHas py value candidates (overrides.get? field) →
      (∃ c ∈ candidates, Has py value c = true) →
      ∃ c, LeastOf py value candidates (ranks sourcePriority)
        ((fieldPriority.get? field).elim .empty ranks) c ∧ value c = some resolved) ∧
    (∀ items', items'.Perm items → (candidates.map Candidate.toOrigin).Nodup →
      fieldValue py sourcePriority fieldPriority overrides (py.candidates items') field =
        resolved) := by
  intro candidates overrides value resolved
  refine ⟨fun _ _ h hfield hne => get?_resolveCandidates py h hfield hne, pickValue_ne_none_iff,
    fun forced hforced hhas => ?_, fun hforced hhas => ?_, fun items' hperm hdistinct => ?_⟩
  · obtain ⟨c, hc, hv⟩ := pickValue_of_forced _ _ hforced hhas
    exact ⟨c, hc, (given_eq_some hv).1⟩
  · obtain ⟨c, hc, hv⟩ := pickValue_of_least _ _ hforced hhas
    exact ⟨c, hc, (given_eq_some hv).1⟩
  · exact pickValue_perm (candidates_perm py hperm) hdistinct

end ServiceToolkit.ImportResolve
