import ServiceToolkit.Segments
import ServiceToolkit.StableSort

/-!
# The Classification of an Instant

Which state `resolve_state_at` gives an instant on what `build_segment_intervals` built is said
without any interval list: `segmentAt` asks, in the order of the priorities, whether an
override covers the instant, what the last sample reported, and whether a detector's interval
covers it. The two agree at every instant (`resolveStateAt_build`).

Everything goes through the coverage of labels: clamping restricts it to the window
(`covered_push`), merging keeps it (`covered_mergeIntervals`), the maintenance loop covers an
instant exactly when the last sample before it reported maintenance
(`covered_buildStatefulIntervals`), and resolving reads nothing else of the list
(`resolveStateAt_eq_find`).
-/

namespace ServiceToolkit.Segments

open Coverage List

/-- Some interval with the label covers the instant. -/
abbrev CoveredBy (l : List Interval) (label : Label) (t : ℚ) : Prop :=
  Covered Interval.startsAt Interval.endsAt Interval.label l label t

variable {label : Label} {t : ℚ}

theorem coveredBy_append {l l' : List Interval} :
    CoveredBy (l ++ l') label t ↔ CoveredBy l label t ∨ CoveredBy l' label t :=
  covered_append

theorem coveredBy_reverse {l : List Interval} : CoveredBy l.reverse label t ↔ CoveredBy l label t :=
  covered_congr fun _ => mem_reverse

/-! ### Merging -/

theorem mergesTouching :
    MergesTouching Interval.startsAt Interval.endsAt Interval.label canMerge extend where
  tag_eq h := by
    simp only [canMerge, Bool.and_eq_true, beq_iff_eq] at h
    exact h.1
  touch h := by
    simp only [canMerge, Bool.and_eq_true, decide_eq_true_eq] at h
    exact h.2
  tag_extend x y := by
    rw [extend]
    split <;> rfl
  start_extend x y := by
    rw [extend]
    split <;> rfl
  stop_extend x y := by
    rw [extend]
    split
    · rename_i h
      exact (max_eq_right (le_of_lt h)).symm
    · rename_i h
      exact (max_eq_left (not_lt.mp h)).symm

theorem startsAt_le_of_compare {a b : Interval} (h : (compareIntervals a b).isLE = true)
    (hlabel : a.label = b.label) : a.startsAt ≤ b.startsAt := by
  by_contra hlt
  have hgt : compare a.startsAt b.startsAt = .gt := compare_gt_iff_gt.mpr (not_le.mp hlt)
  simp [compareIntervals, compareLex, compareOn, hlabel, hgt] at h

instance transCmp_compareIntervals : Std.TransCmp compareIntervals := by
  rw [compareIntervals]
  infer_instance

theorem pairwise_mergeSort (l : List Interval) :
    (l.mergeSort fun a b => (compareIntervals a b).isLE).Pairwise
      fun a b => (compareIntervals a b).isLE = true :=
  StableSort.pairwise_sortBy l

theorem sorted_mergeSort (l : List Interval) :
    (l.mergeSort fun a b => (compareIntervals a b).isLE).Pairwise
      fun a b => a.label = b.label → a.startsAt ≤ b.startsAt :=
  (pairwise_mergeSort l).imp startsAt_le_of_compare

theorem covered_mergeIntervals (l : List Interval) (label : Label) (t : ℚ) :
    CoveredBy (mergeIntervals l) label t ↔ CoveredBy l label t := by
  rw [mergeIntervals, CoveredBy, covered_mergeRuns mergesTouching (sorted_mergeSort l)]
  exact covered_congr fun x => mem_mergeSort

/-! ### Clamping -/

variable {we ws : ℚ}

theorem clamp_eq_some {startsAt endsAt s e : ℚ} (h : clamp startsAt endsAt ws we = some (s, e)) :
    s = max startsAt ws ∧ e = min endsAt we := by
  rw [clamp] at h
  split at h
  · cases h
  · cases h
    exact ⟨rfl, rfl⟩

theorem covered_push {pushed : List Interval} {k : Label} {startsAt endsAt : ℚ} :
    CoveredBy (push pushed label startsAt endsAt ws we) k t ↔
      (k = label ∧ t ∈ Set.Ico ws we ∧ t ∈ Set.Ico startsAt endsAt) ∨
        CoveredBy pushed k t := by
  have hclamp : t ∈ Set.Ico (max startsAt ws) (min endsAt we) ↔
      t ∈ Set.Ico ws we ∧ t ∈ Set.Ico startsAt endsAt := by
    simp only [Set.mem_Ico, max_le_iff, lt_min_iff]
    tauto
  unfold push
  split
  · rename_i s e h
    obtain ⟨rfl, rfl⟩ := clamp_eq_some h
    rw [CoveredBy, covered_cons, Covers, hclamp, eq_comm]
  · rename_i h
    have hempty : ¬ (t ∈ Set.Ico ws we ∧ t ∈ Set.Ico startsAt endsAt) := by
      rw [← hclamp]
      rintro ⟨hle, hlt⟩
      simp only [clamp, ite_eq_left_iff, reduceCtorEq, imp_false, not_not] at h
      exact absurd (hle.trans_lt hlt) h.not_gt
    simp only [hempty, and_false, false_or]

/-- A list covers instants of the window only, and only under one label. -/
def Inside (label : Label) (windowStart windowEnd : ℚ) (l : List Interval) : Prop :=
  ∀ k t, CoveredBy l k t → k = label ∧ t ∈ Set.Ico windowStart windowEnd

section

variable {label : Label} {ws we : ℚ} {l : List Interval}

theorem Inside.nil : Inside label ws we [] :=
  fun _ _ h => absurd h not_covered_nil

theorem Inside.push (h : Inside label ws we l) (startsAt endsAt : ℚ) :
    Inside label ws we (push l label startsAt endsAt ws we) := by
  intro k t hcovered
  rcases covered_push.mp hcovered with ⟨rfl, hwindow, -⟩ | hold
  · exact ⟨rfl, hwindow⟩
  · exact h k t hold

theorem Inside.reverse (h : Inside label ws we l) : Inside label ws we l.reverse :=
  fun k t hcovered => h k t (coveredBy_reverse.mp hcovered)

theorem Inside.append {l' : List Interval} (h : Inside label ws we l) (h' : Inside label ws we l') :
    Inside label ws we (l ++ l') :=
  fun k t hcovered => (coveredBy_append.mp hcovered).elim (h k t) (h' k t)

theorem Inside.merge (h : Inside label ws we l) : Inside label ws we (mergeIntervals l) :=
  fun k t hcovered => h k t ((covered_mergeIntervals l k t).mp hcovered)

end

/-! ### Overrides -/

/-- An override with the label covers the instant. -/
def ForcedBy (overrides : List Override) (label : Label) (t : ℚ) : Prop :=
  ∃ ov ∈ overrides, overrideLabel ov.mode = some label ∧ t ∈ Set.Ico ov.startsAt ov.endsAt

variable {overrides : List Override}

theorem covered_overrides {k : Label} :
    CoveredBy (overrides.foldl (overrideStep ws we) []).reverse k t ↔
      t ∈ Set.Ico ws we ∧ ForcedBy overrides k t := by
  rw [coveredBy_reverse]
  refine foldl_invariant (P := fun done pushed =>
    CoveredBy pushed k t ↔ t ∈ Set.Ico ws we ∧ ForcedBy done k t) ?_ ?_
  · simp [ForcedBy]
  · intro done ov rest pushed _ hinv
    have hforced : ForcedBy (done ++ [ov]) k t ↔ ForcedBy done k t ∨
        (overrideLabel ov.mode = some k ∧ t ∈ Set.Ico ov.startsAt ov.endsAt) := by
      simp only [ForcedBy, mem_append, mem_singleton, or_and_right, exists_or, exists_eq_left]
    rw [overrideStep, hforced, and_or_left, ← hinv]
    cases hlabel : overrideLabel ov.mode with
    | none => simp
    | some label =>
      simp only [covered_push, Option.some.injEq]
      rw [or_comm, eq_comm, and_left_comm]

/-! ### Maintenance -/

/-- The last sample at or before the instant. -/
def lastSample (samples : List Sample) (t : ℚ) : Option Sample :=
  (samples.filter fun sample => decide (sample.ts ≤ t)).getLast?

theorem lastSample_concat (samples : List Sample) (sample : Sample) (t : ℚ) :
    lastSample (samples ++ [sample]) t =
      if sample.ts ≤ t then some sample else lastSample samples t := by
  by_cases h : sample.ts ≤ t <;> simp [lastSample, h]

/-- What the maintenance loop keeps, with `done` the samples it has seen: it pushed inside the
window and before its last sample, the current interval started at a sample, and together they cover
the instants of maintenance. -/
structure StatefulInv (activeFn : Sample → Bool) (label : Label) (windowStart windowEnd : ℚ)
    (done : List Sample) (st : Stateful) : Prop where
  inside : Inside label windowStart windowEnd st.pushed
  before : ∀ {t}, CoveredBy st.pushed label t → ∃ sample ∈ done, t < sample.ts
  current : ∀ start ∈ st.currentStart, ∃ sample ∈ done, start = max sample.ts windowStart
  enabled : ∀ t ∈ Set.Ico windowStart windowEnd,
    (lastSample done t).any activeFn = true ↔
      CoveredBy st.pushed label t ∨ ∃ start ∈ st.currentStart, start ≤ t

theorem StatefulInv.step {activeFn : Sample → Bool}
    {done : List Sample} {st : Stateful} {sample : Sample}
    (h : StatefulInv activeFn label ws we done st) (hsorted : ∀ y ∈ done, y.ts ≤ sample.ts) :
    StatefulInv activeFn label ws we (done ++ [sample])
      (statefulStep activeFn label ws we st sample) := by
  obtain ⟨pushed, currentStart⟩ := st
  have hself : sample ∈ done ++ [sample] := mem_append_right done mem_cons_self
  have hbefore : ∀ {t}, CoveredBy pushed label t → ∃ y ∈ done ++ [sample], t < y.ts := by
    intro t ht
    obtain ⟨y, hy, hlt⟩ := h.before ht
    exact ⟨y, mem_append_left _ hy, hlt⟩
  have hafter : ∀ {t}, sample.ts ≤ t → ¬ CoveredBy pushed label t := by
    intro t hle ht
    obtain ⟨y, hy, hlt⟩ := h.before ht
    exact absurd ((hsorted y hy).trans hle) hlt.not_ge
  cases currentStart with
  | none =>
    cases hactive : activeFn sample with
    | true =>
      simp only [statefulStep, hactive, if_true]
      refine ⟨h.inside, hbefore, ?_, fun t ht => ?_⟩
      · rintro start ⟨⟩
        exact ⟨sample, hself, rfl⟩
      · have henabled := h.enabled t ht
        rw [lastSample_concat]
        by_cases hts : sample.ts ≤ t
        · simp [hts, hactive, ht.1]
        · simpa [hts] using henabled
    | false =>
      simp only [statefulStep, hactive, Bool.false_eq_true, if_false]
      refine ⟨h.inside, hbefore, nofun, fun t ht => ?_⟩
      have henabled := h.enabled t ht
      rw [lastSample_concat]
      by_cases hts : sample.ts ≤ t
      · simp [hts, hactive, hafter hts]
      · simpa [hts] using henabled
  | some start =>
    obtain ⟨y, hy, hstart⟩ := h.current start rfl
    cases hactive : activeFn sample with
    | true =>
      simp only [statefulStep, hactive, if_true]
      refine ⟨h.inside, hbefore, ?_, fun t ht => ?_⟩
      · rintro _ ⟨⟩
        exact ⟨y, mem_append_left _ hy, hstart⟩
      · have henabled := h.enabled t ht
        rw [lastSample_concat]
        by_cases hts : sample.ts ≤ t
        · have hle : start ≤ t := hstart ▸ max_le ((hsorted y hy).trans hts) ht.1
          simp [hts, hactive, hle]
        · simpa [hts] using henabled
    | false =>
      simp only [statefulStep, hactive, Bool.false_eq_true, if_false]
      refine ⟨h.inside.push _ _, fun ht => ?_, nofun, fun t ht => ?_⟩
      · rcases covered_push.mp ht with ⟨-, -, -, hlt⟩ | hold
        · exact ⟨sample, hself, hlt⟩
        · exact hbefore hold
      · have henabled := h.enabled t ht
        rw [lastSample_concat, covered_push]
        by_cases hts : sample.ts ≤ t
        · simp [hts, hactive, hafter hts]
        · rw [if_neg hts, henabled]
          simp [ht.1, ht.2, not_le.mp hts, or_comm]

/-- **Maintenance covers** the instants of the window at which the last sample reported it. -/
theorem covered_buildStatefulIntervals {samples : List Sample}
    (hsorted : samples.Pairwise fun a b => a.ts ≤ b.ts) (ws we : ℚ)
    (activeFn : Sample → Bool) (label k : Label) (t : ℚ) :
    CoveredBy (buildStatefulIntervals samples ws we activeFn label) k t ↔
      t ∈ Set.Ico ws we ∧ k = label ∧
        (lastSample samples t).any activeFn = true := by
  have hinv : StatefulInv activeFn label ws we samples
      (samples.foldl (statefulStep activeFn label ws we) ⟨[], none⟩) := by
    refine foldl_invariant _ ?_ fun done sample rest st hsamples hinv => hinv.step fun y hy => ?_
    · exact ⟨.nil, fun h => absurd h not_covered_nil, nofun, by simp [lastSample]⟩
    · rw [hsamples] at hsorted
      exact (pairwise_append.mp hsorted).2.2 y hy sample mem_cons_self
  rw [buildStatefulIntervals, covered_mergeIntervals, coveredBy_reverse]
  generalize samples.foldl (statefulStep activeFn label ws we) ⟨[], none⟩ = st
    at hinv ⊢
  obtain ⟨pushed, currentStart⟩ := st
  cases currentStart with
  | none =>
    constructor
    · intro hcovered
      obtain ⟨rfl, ht⟩ := hinv.inside k t hcovered
      exact ⟨ht, rfl, (hinv.enabled t ht).mpr (.inl hcovered)⟩
    · rintro ⟨ht, rfl, hlast⟩
      rcases (hinv.enabled t ht).mp hlast with hcovered | ⟨start, hstart, -⟩
      · exact hcovered
      · cases hstart
  | some start =>
    simp only [statefulPushed]
    rw [covered_push]
    constructor
    · rintro (⟨rfl, ht, hstart⟩ | hcovered)
      · exact ⟨ht, rfl, (hinv.enabled t ht).mpr (.inr ⟨start, rfl, hstart.1⟩)⟩
      · obtain ⟨rfl, ht⟩ := hinv.inside k t hcovered
        exact ⟨ht, rfl, (hinv.enabled t ht).mpr (.inl hcovered)⟩
    · rintro ⟨ht, rfl, hlast⟩
      rcases (hinv.enabled t ht).mp hlast with hcovered | ⟨start', hstart', hle⟩
      · exact .inr hcovered
      · cases hstart'
        exact .inl ⟨rfl, ht, hle, ht.2⟩

/-! ### Detectors

Whatever a detector finds, it pushes under the one label and clamped to the window. -/

section

variable {ws we : ℚ} {pushed : List Interval}

theorem Inside.swingsStep {st : Swings} (h : Inside autoSuspect ws we st.pushed)
    (current : Sample) : Inside autoSuspect ws we
      (swingsStep ws we st current).pushed := by
  have hswing : (swing ws st current).pushed = st.pushed := by
    rw [swing]
    split <;> rfl
  rw [Segments.swingsStep]
  split
  · exact h
  · split
    · split
      · exact h.push _ _
      · rwa [hswing]
    · rwa [hswing]

theorem inside_buildAutoSuspectIntervals (samples : List Sample) : Inside autoSuspect ws we
      (buildAutoSuspectIntervals samples ws we) := by
  rw [buildAutoSuspectIntervals.eq_def]
  split
  · rename_i first second rest
    have hinv := foldl_invariant (P := fun _ st => Inside autoSuspect ws we st.pushed)
      (f := swingsStep ws we) (b := ⟨[], [], none, first⟩) (l := second :: rest)
      .nil fun _ current _ _ _ h => h.swingsStep current
    refine (Inside.reverse ?_).merge
    rw [swingsPushed]
    split
    · exact hinv.push _ _
    · exact hinv
  · exact .nil

theorem Inside.pushStagnant (h : Inside autoSuspect ws we pushed)
    (runValue : Option ℤ) (runStart runEnd : ℚ) (stagnantMinOnline : ℤ) :
    Inside autoSuspect ws we (pushStagnantSuspectRun pushed runValue runStart
      runEnd ws we stagnantMinOnline) := by
  cases runValue with
  | none => exact h
  | some online =>
    rw [pushStagnantSuspectRun]
    split
    · exact h
    · exact h.push _ _

theorem pushed_stagnantFrom (stagnantMinOnline : ℤ) (sample : Sample) :
    (stagnantFrom stagnantMinOnline pushed sample).pushed = pushed := by
  rw [stagnantFrom]
  split
  · split <;> rfl
  · rfl

theorem inside_buildStagnantSuspectIntervals (samples : List Sample) (stagnantMinOnline : ℤ) :
    Inside autoSuspect ws we
      (buildStagnantSuspectIntervals samples ws we stagnantMinOnline) := by
  rw [buildStagnantSuspectIntervals.eq_def]
  split
  · rename_i first second rest
    split
    · exact .nil
    · have hinv := foldl_invariant (P := fun _ st => Inside autoSuspect ws we st.pushed)
        (f := stagnantStep ws we stagnantMinOnline)
        (b := stagnantFrom stagnantMinOnline [] first) (l := second :: rest)
        (pushed_stagnantFrom stagnantMinOnline first ▸ .nil) fun _ current _ st _ h => ?_
      · exact (hinv.pushStagnant _ _ _ _).reverse.merge
      · rw [stagnantStep]
        split
        · exact h
        · rw [pushed_stagnantFrom]
          exact h.pushStagnant _ _ _ _
  · exact .nil

variable [F64]

theorem Inside.pushNearFlat (h : Inside autoSuspect ws we pushed)
    (run : Option NearFlatRun) (runEnd : ℚ) : Inside autoSuspect ws we
      (pushNearFlatSuspectRun pushed run runEnd ws we) := by
  cases run with
  | none => exact h
  | some activeRun =>
    rw [pushNearFlatSuspectRun]
    split
    · exact h.push _ _
    · exact h

theorem Inside.nearFlatStep {st : NearFlat}
    (h : Inside autoSuspect ws we st.pushed) (minOnline : ℤ) (sample : Sample) :
    Inside autoSuspect ws we
      (nearFlatStep ws we minOnline st sample).pushed := by
  rw [Segments.nearFlatStep]
  split
  · exact h.pushNearFlat _ _
  · split
    · exact h.pushNearFlat _ _
    · split
      · exact h
      · split
        · exact h
        · split
          · exact h.pushNearFlat _ _
          · exact h

theorem inside_buildNearFlatSuspectIntervals (samples : List Sample) (stagnantMinOnline : ℤ) :
    Inside autoSuspect ws we
      (buildNearFlatSuspectIntervals samples ws we stagnantMinOnline) := by
  rw [buildNearFlatSuspectIntervals]
  split
  · exact .nil
  · have hinv := foldl_invariant (P := fun _ st => Inside autoSuspect ws we st.pushed)
      (f := nearFlatStep ws we (max stagnantMinOnline suspectNearFlatMinOnline))
      (b := ⟨[], none⟩) (l := samples) .nil fun _ sample _ _ _ h => h.nearFlatStep _ sample
    refine (Inside.reverse ?_).merge
    rw [nearFlatPushed]
    split
    · exact hinv
    · exact hinv.pushNearFlat _ _

theorem inside_autoIntervals (samples : List Sample) (stagnantMinOnline : ℤ) :
    Inside autoSuspect ws we
      (autoIntervals samples ws we stagnantMinOnline) :=
  ((inside_buildAutoSuspectIntervals samples).append
    (inside_buildStagnantSuspectIntervals samples _)).append
    (inside_buildNearFlatSuspectIntervals samples _)

end

/-! ### Resolving -/

/-- The state an interval with the label gives. -/
def Label.state (label : Label) : State :=
  if label.clears then .empty
  else ⟨label.status, some label.source, label.excludeFromScore⟩

variable {iv : Interval}

theorem active_iff : iv.active t = true ↔ Covers Interval.startsAt Interval.endsAt iv t := by
  simp [Interval.active, Covers]

variable {intervals : List Interval}

theorem exists_active_iff : (∃ iv ∈ intervals.filter (Interval.active t), iv.label = label) ↔
      CoveredBy intervals label t := by
  simp only [mem_filter, active_iff, Covered, and_assoc]
  exact exists_congr fun iv => and_congr_right fun _ => and_comm

/-- What resolving does with the intervals it found. -/
def stateOf (active : List Interval) : State :=
  if active.any (·.label.clears) then .empty
  else
    match maxByKey (·.label.priority) active with
    | some best => ⟨best.label.status, some best.label.source, best.label.excludeFromScore⟩
    | none => .empty

theorem resolveStateAt_eq (t : ℚ) (intervals : List Interval) :
    resolveStateAt t intervals = stateOf (intervals.filter (Interval.active t)) :=
  rfl

@[simp] theorem stateOf_nil : stateOf [] = .empty := rfl

theorem stateOf_of_clears {active : List Interval} (hiv : iv ∈ active)
    (hclears : iv.label.clears = true) : stateOf active = .empty := by
  rw [stateOf, if_pos (any_eq_true.mpr ⟨iv, hiv, hclears⟩)]

/-- An interval of the greatest priority gives its state, if all of its priority agree and none
clears. -/
theorem stateOf_of_greatest {active : List Interval} (hiv : iv ∈ active)
    (hgreatest : ∀ other ∈ active, other.label.priority ≤ iv.label.priority)
    (hlabel : ∀ other ∈ active, other.label.priority = iv.label.priority →
      other.label = iv.label)
    (hclears : ∀ other ∈ active, other.label.clears = false) : stateOf active = iv.label.state := by
  have hnone : active.any (·.label.clears) = false :=
    any_eq_false.mpr fun other hother => by simp [hclears other hother]
  rw [stateOf, hnone, if_neg Bool.false_ne_true, Label.state, hclears iv hiv,
    if_neg Bool.false_ne_true]
  cases hbest : maxByKey (fun iv : Interval => iv.label.priority) active with
  | none =>
    rw [maxByKey_eq_none.mp hbest] at hiv
    cases hiv
  | some best =>
    obtain ⟨hmem, hmax⟩ := maxByKey_spec hbest
    have heq : best.label = iv.label :=
      hlabel best hmem (le_antisymm (hgreatest best hmem) (hmax iv hiv))
    simp only [heq]

theorem resolveStateAt_of_none
    (h : ∀ label, ¬ CoveredBy intervals label t) : resolveStateAt t intervals = .empty := by
  have hnil : intervals.filter (Interval.active t) = [] :=
    eq_nil_iff_forall_not_mem.mpr fun iv hiv => h _ (exists_active_iff.mp ⟨iv, hiv, rfl⟩)
  rw [resolveStateAt_eq, hnil, stateOf_nil]

/-- An instant that a label covers and otherwise only labels of lower priority that do not
clear. -/
theorem resolveStateAt_of_greatest (hlabel : CoveredBy intervals label t)
    (hothers : ∀ other, CoveredBy intervals other t →
      other = label ∨ (other.priority < label.priority ∧ other.clears = false)) :
    resolveStateAt t intervals = label.state := by
  obtain ⟨iv, hiv, rfl⟩ := exists_active_iff.mpr hlabel
  have hactive : ∀ other ∈ intervals.filter (Interval.active t), other.label = iv.label ∨
      (other.label.priority < iv.label.priority ∧ other.label.clears = false) :=
    fun other hother => hothers _ (exists_active_iff.mp ⟨other, hother, rfl⟩)
  rw [resolveStateAt_eq]
  cases hclear : iv.label.clears with
  | true => rw [stateOf_of_clears hiv hclear, Label.state, if_pos hclear]
  | false =>
    refine stateOf_of_greatest hiv (fun other hother => ?_) (fun other hother heq => ?_)
      fun other hother => ?_
    · rcases hactive other hother with heq | ⟨hlt, -⟩
      · exact (congrArg Label.priority heq).le
      · exact hlt.le
    · rcases hactive other hother with hother | ⟨hlt, -⟩
      · exact hother
      · exact absurd heq hlt.ne
    · rcases hactive other hother with heq | ⟨-, hother⟩
      · rw [heq, hclear]
      · exact hother

/-- **Resolving reads the covered labels only**: with the labels listed by decreasing priority, and
only the first of them clearing, the state is that of the first label that covers the instant. -/
theorem resolveStateAt_eq_find {labels : List Label}
    (hsorted : labels.Pairwise fun a b => b.priority < a.priority ∧ b.clears = false)
    (covered : Label → Bool)
    (hcovered : ∀ label, CoveredBy intervals label t ↔ label ∈ labels ∧ covered label = true) :
    resolveStateAt t intervals = (labels.find? covered).elim .empty Label.state := by
  cases hfind : labels.find? covered with
  | none =>
    refine resolveStateAt_of_none fun label hlabel => ?_
    obtain ⟨hmem, hcov⟩ := (hcovered label).mp hlabel
    exact find?_eq_none.mp hfind label hmem hcov
  | some label =>
    obtain ⟨hcov, before, after, rfl, hbefore⟩ := find?_eq_some_iff_append.mp hfind
    refine resolveStateAt_of_greatest ((hcovered label).mpr ⟨by simp, hcov⟩) fun other hother => ?_
    obtain ⟨hmem, hcov'⟩ := (hcovered other).mp hother
    have hafter := (pairwise_append.mp hsorted).2.1
    rw [pairwise_cons] at hafter
    rcases mem_append.mp hmem with hmem | hmem
    · have hnot := hbefore other hmem
      simp [hcov'] at hnot
    · rcases mem_cons.mp hmem with heq | hmem
      · exact .inl heq
      · exact .inr (hafter.1 other hmem)

/-! ### The classification -/

/-- An override with the mode covers the instant. -/
def forced (overrides : List Override) (mode : String) (t : ℚ) : Bool :=
  overrides.any fun ov => decide (ov.mode = mode ∧ ov.startsAt ≤ t ∧ t < ov.endsAt)

/-- The **classification** of an instant, by the first that applies. -/
def segmentAt [F64] (samples : List Sample) (overrides : List Override) (windowStart windowEnd : ℚ)
    (stagnantMinOnline : ℤ) (t : ℚ) : State :=
  if ¬ (windowStart ≤ t ∧ t < windowEnd) ∨ forced overrides modeForceNormal t then .empty
  else if forced overrides modeForceSuspect t then ⟨some "suspect", some "manual", true⟩
  else if forced overrides modeForceMaintenance t then ⟨some "maintenance", some "manual", true⟩
  else if (lastSample samples t).any (·.pluginMaintenance) then
    ⟨some "maintenance", some "plugin", true⟩
  else if (lastSample samples t).any (·.motdMaintenance) then
    ⟨some "maintenance", some "motd", true⟩
  else if (autoIntervals samples windowStart windowEnd stagnantMinOnline).any (Interval.active t)
    then ⟨some "suspect", some "auto", true⟩
  else .empty

/-- The labels, by decreasing priority. -/
def labels : List Label :=
  [manualClear, manualSuspect, manualMaintenance, plugin, motd, autoSuspect]

/-- What covers an instant of the window, by the label's priority. -/
def coveredAt [F64] (samples : List Sample) (overrides : List Override) (windowStart windowEnd : ℚ)
    (stagnantMinOnline : ℤ) (t : ℚ) (label : Label) : Bool :=
  match label.priority with
  | 100 => forced overrides modeForceNormal t
  | 90 => forced overrides modeForceSuspect t
  | 80 => forced overrides modeForceMaintenance t
  | 70 => (lastSample samples t).any (·.pluginMaintenance)
  | 60 => (lastSample samples t).any (·.motdMaintenance)
  | 50 => (autoIntervals samples windowStart windowEnd stagnantMinOnline).any (Interval.active t)
  | _ => false

theorem labels_sorted : labels.Pairwise fun a b => b.priority < a.priority ∧ b.clears = false := by
  decide

theorem forced_iff {mode : String} : forced overrides mode t = true ↔
      ∃ ov ∈ overrides, ov.mode = mode ∧ t ∈ Set.Ico ov.startsAt ov.endsAt := by
  simp [forced]

theorem overrideLabel_eq_some {mode : String} : overrideLabel mode = some label ↔
      (label = manualClear ∧ mode = modeForceNormal) ∨
      (label = manualSuspect ∧ mode = modeForceSuspect) ∨
      (label = manualMaintenance ∧ mode = modeForceMaintenance) := by
  rw [overrideLabel]
  split
  · rename_i h
    subst h
    simp [modeForceNormal, modeForceSuspect, modeForceMaintenance, eq_comm]
  · split
    · rename_i h
      subst h
      simp [modeForceNormal, modeForceSuspect, modeForceMaintenance, eq_comm]
    · split
      · rename_i h
        subst h
        simp [modeForceNormal, modeForceSuspect, modeForceMaintenance, eq_comm]
      · rename_i h₁ h₂ h₃
        simp [h₁, h₂, h₃]

theorem forcedBy_iff : ForcedBy overrides label t ↔
      (label = manualClear ∧ forced overrides modeForceNormal t = true) ∨
      (label = manualSuspect ∧ forced overrides modeForceSuspect t = true) ∨
      (label = manualMaintenance ∧ forced overrides modeForceMaintenance t = true) := by
  simp only [ForcedBy, overrideLabel_eq_some, forced_iff]
  constructor
  · rintro ⟨ov, hov, (⟨hlabel, hmode⟩ | ⟨hlabel, hmode⟩ | ⟨hlabel, hmode⟩), ht⟩
    · exact .inl ⟨hlabel, ov, hov, hmode, ht⟩
    · exact .inr (.inl ⟨hlabel, ov, hov, hmode, ht⟩)
    · exact .inr (.inr ⟨hlabel, ov, hov, hmode, ht⟩)
  · rintro (⟨hlabel, ov, hov, hmode, ht⟩ | ⟨hlabel, ov, hov, hmode, ht⟩ |
      ⟨hlabel, ov, hov, hmode, ht⟩)
    · exact ⟨ov, hov, .inl ⟨hlabel, hmode⟩, ht⟩
    · exact ⟨ov, hov, .inr (.inl ⟨hlabel, hmode⟩), ht⟩
    · exact ⟨ov, hov, .inr (.inr ⟨hlabel, hmode⟩), ht⟩

variable [F64]

section

variable {samples : List Sample} (overrides : List Override) (ws we : ℚ)
  (stagnantMinOnline : ℤ) (t : ℚ)

theorem covered_autoIntervals (label : Label) :
    CoveredBy (autoIntervals samples ws we stagnantMinOnline) label t ↔
      t ∈ Set.Ico ws we ∧ label = autoSuspect ∧
        (autoIntervals samples ws we stagnantMinOnline).any
          (Interval.active t) = true := by
  constructor
  · intro hcovered
    obtain ⟨hlabel, ht⟩ := inside_autoIntervals samples stagnantMinOnline label t hcovered
    obtain ⟨iv, hiv, -, hcovers⟩ := hcovered
    exact ⟨ht, hlabel, any_eq_true.mpr ⟨iv, hiv, active_iff.mpr hcovers⟩⟩
  · rintro ⟨-, rfl, hany⟩
    obtain ⟨iv, hiv, hactive⟩ := any_eq_true.mp hany
    have hcovers := active_iff.mp hactive
    have hcovered : CoveredBy _ iv.label t := ⟨iv, hiv, rfl, hcovers⟩
    obtain ⟨hlabel, -⟩ := inside_autoIntervals samples stagnantMinOnline iv.label t hcovered
    exact ⟨iv, hiv, hlabel, hcovers⟩

theorem covered_buildSegmentIntervals
    (hsorted : samples.Pairwise fun a b => a.ts ≤ b.ts) (label : Label) :
    CoveredBy (buildSegmentIntervals samples overrides ws we stagnantMinOnline)
        label t ↔
      t ∈ Set.Ico ws we ∧ label ∈ labels ∧
        coveredAt samples overrides ws we stagnantMinOnline t label = true := by
  rw [buildSegmentIntervals, covered_mergeIntervals]
  rw [coveredBy_append, coveredBy_append, coveredBy_append, covered_overrides, forcedBy_iff,
    covered_buildStatefulIntervals hsorted, covered_buildStatefulIntervals hsorted,
    covered_autoIntervals]
  constructor
  · rintro (((⟨ht, (⟨rfl, h⟩ | ⟨rfl, h⟩ | ⟨rfl, h⟩)⟩ | ⟨ht, rfl, h⟩) | ⟨ht, rfl, h⟩) | ⟨ht, rfl, h⟩)
    all_goals exact ⟨ht, by decide, h⟩
  · rintro ⟨ht, hmem, h⟩
    simp only [labels, mem_cons, not_mem_nil, or_false] at hmem
    rcases hmem with rfl | rfl | rfl | rfl | rfl | rfl
    · exact .inl (.inl (.inl ⟨ht, .inl ⟨rfl, h⟩⟩))
    · exact .inl (.inl (.inl ⟨ht, .inr (.inl ⟨rfl, h⟩)⟩))
    · exact .inl (.inl (.inl ⟨ht, .inr (.inr ⟨rfl, h⟩)⟩))
    · exact .inl (.inl (.inr ⟨ht, rfl, h⟩))
    · exact .inl (.inr ⟨ht, rfl, h⟩)
    · exact .inr ⟨ht, rfl, h⟩

theorem resolveStateAt_build (hsorted : samples.Pairwise fun a b => a.ts ≤ b.ts) : resolveStateAt t
        (buildSegmentIntervals samples overrides ws we stagnantMinOnline) =
      segmentAt samples overrides ws we stagnantMinOnline t := by
  have hcovered := covered_buildSegmentIntervals overrides ws we stagnantMinOnline t hsorted
  rw [segmentAt]
  by_cases ht : ws ≤ t ∧ t < we
  · rw [resolveStateAt_eq_find labels_sorted (coveredAt samples overrides ws we stagnantMinOnline t)
      fun label => (hcovered label).trans (and_iff_right ht)]
    simp only [labels, find?_cons, find?_nil, coveredAt, manualClear, manualSuspect,
      manualMaintenance, plugin, motd, autoSuspect, ht, and_self, not_true_eq_false, false_or]
    cases forced overrides modeForceNormal t <;>
    cases forced overrides modeForceSuspect t <;>
    cases forced overrides modeForceMaintenance t <;>
    cases (lastSample samples t).any (·.pluginMaintenance) <;>
    cases (lastSample samples t).any (·.motdMaintenance) <;>
    cases (autoIntervals samples ws we stagnantMinOnline).any (Interval.active t) <;> rfl
  · rw [if_pos (.inl ht)]
    exact resolveStateAt_of_none fun label h => ht ((hcovered label).mp h).1

end

theorem segmentAt_perm {overrides' : List Override} (h : overrides'.Perm overrides)
    (samples : List Sample) (ws we : ℚ) (stagnantMinOnline : ℤ) (t : ℚ) :
    segmentAt samples overrides' ws we stagnantMinOnline t =
      segmentAt samples overrides ws we stagnantMinOnline t := by
  have hforced : ∀ mode, forced overrides' mode t = forced overrides mode t :=
    fun mode => h.any_eq
  simp only [segmentAt, hforced]

/-- **The classification of every instant.** For samples in the order of their timestamps, the state
of every instant on the built intervals is what `segmentAt` says, whatever the order of the
overrides. -/
theorem resolved_state_is_classification (samples : List Sample)
    (hsorted : samples.Pairwise fun a b => a.ts ≤ b.ts) (overrides : List Override)
    (windowStart windowEnd : ℚ) (stagnantMinOnline : ℤ) (t : ℚ) :
    resolveStateAt t
        (buildSegmentIntervals samples overrides windowStart windowEnd stagnantMinOnline) =
      segmentAt samples overrides windowStart windowEnd stagnantMinOnline t ∧
    ∀ overrides' : List Override, overrides'.Perm overrides →
      resolveStateAt t
          (buildSegmentIntervals samples overrides' windowStart windowEnd stagnantMinOnline) =
        resolveStateAt t
          (buildSegmentIntervals samples overrides windowStart windowEnd stagnantMinOnline) := by
  refine ⟨resolveStateAt_build overrides windowStart windowEnd stagnantMinOnline t hsorted,
    fun overrides' hperm => ?_⟩
  rw [resolveStateAt_build _ _ _ _ _ hsorted, resolveStateAt_build _ _ _ _ _ hsorted,
    segmentAt_perm hperm]

omit [F64] in
/-- Maintenance reported by the plugin lasts until a sample without it, but for the time an
override forces to be normal. -/
theorem plugin_maintenance_around_override :
    letI : F64 := ⟨id⟩
    let build := buildSegmentIntervals [⟨0, some 5, true, false⟩, ⟨60, some 5, false, false⟩]
      [⟨10, 20, "force_normal"⟩]
    resolveStateAt 15 (build 0 100 10) = .empty ∧
      resolveStateAt 20 (build 0 100 10) = ⟨some "maintenance", some "plugin", true⟩ ∧
      resolveStateAt 60 (build 0 100 10) = .empty := by
  have hstate := fun t => (@resolved_state_is_classification ⟨id⟩
    [⟨0, some 5, true, false⟩, ⟨60, some 5, false, false⟩] (by decide)
    [⟨10, 20, "force_normal"⟩] 0 100 10 t).1
  refine ⟨(hstate 15).trans ?_, (hstate 20).trans ?_, (hstate 60).trans ?_⟩
  · decide +kernel
  · decide +kernel
  · decide +kernel

end ServiceToolkit.Segments
