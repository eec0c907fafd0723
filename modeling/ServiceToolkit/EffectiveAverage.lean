import ServiceToolkit.SegmentsClassify
import ServiceToolkit.Sweep

/-!
# The Effective Average

`compute_effective_average_stats` averages the player count of a project over a window, without
the time that segment intervals exclude from the score, and says what part of the window the
average rests on (the **coverage**). It sweeps over boundaries: the ends of the window, the
timestamps of the samples and the ends of the intervals.

The source keeps the boundaries in a `BTreeSet` of the bits of their `f64`, so the sweep goes in
the order of the bits (`bitsLe`): numbers that are not negative in their own order, and after
them the negative ones, from zero downwards. (`-0.0`, which has other bits than `0.0`, is not a
number of the model.)

The sweep is brought to the form of `Sweep.total` over the boundaries that are not negative
(`stats_eq`); the others collect nothing. Over ticks it then comes out as the mean over the
ticks that count (`effective_average_is_tick_mean`).
-/

namespace ServiceToolkit.Segments

open List

/-! ### The sweep of the source -/

/-- A timestamp with a player count, if that is known. -/
abbrev SamplePair := ℚ × Option ℤ

/-- The order of the bits of an `f64`. -/
def bitsLe (a b : ℚ) : Prop :=
  (0 ≤ a ∧ 0 ≤ b ∧ a ≤ b) ∨ (0 ≤ a ∧ b < 0) ∨ (a < 0 ∧ b < 0 ∧ b ≤ a)

instance : DecidableRel bitsLe := fun a b => by
  unfold bitsLe
  infer_instance

/-- The count at the start of the window: the last of the pairs not after it. -/
def currentOnline (samplePairs : List SamplePair) (windowStart : ℚ) : Option ℤ :=
  samplePairs.foldl (fun online pair => if pair.1 ≤ windowStart then pair.2 else online) none

/-- The pairs in the window after its start. -/
def futurePairs (samplePairs : List SamplePair) (windowStart windowEnd : ℚ) : List SamplePair :=
  samplePairs.filter fun pair => decide (¬ pair.1 ≤ windowStart ∧ ¬ pair.1 > windowEnd)

/-- The counts `future_samples` holds for a boundary. -/
def futureSamples (samplePairs : List SamplePair) (windowStart windowEnd boundary : ℚ) :
    List (Option ℤ) :=
  ((futurePairs samplePairs windowStart windowEnd).filter fun pair =>
    decide (pair.1 = boundary)).map Prod.snd

/-- The boundaries an interval adds. -/
def intervalBoundaries (windowStart windowEnd : ℚ) (iv : Interval) : List ℚ :=
  (if iv.startsAt > windowStart then [iv.startsAt] else []) ++
    (if iv.endsAt < windowEnd then [iv.endsAt] else [])

/-- The boundaries of the window and of the intervals. -/
def windowBoundaries (windowStart windowEnd : ℚ) (intervals : List Interval) : List ℚ :=
  windowStart :: windowEnd :: intervals.flatMap (intervalBoundaries windowStart windowEnd)

/-- All boundaries in the order the sweep takes them. -/
def ordered (samplePairs : List SamplePair) (windowStart windowEnd : ℚ)
    (intervals : List Interval) : List ℚ :=
  (windowBoundaries windowStart windowEnd intervals ++
    (futurePairs samplePairs windowStart windowEnd).map Prod.fst).dedup.insertionSort bitsLe

/-- What the sweep carries along. -/
structure SweepState where
  currentOnline : Option ℤ
  weightedTotal : ℚ
  trustedSeconds : ℚ

/-- The body of the sweep over one window of boundaries. -/
def sweepStep (future : ℚ → List (Option ℤ)) (intervals : List Interval) (st : SweepState)
    (currentTime nextBoundary : ℚ) : SweepState :=
  let state := resolveStateAt currentTime intervals
  let delta := max (nextBoundary - currentTime) 0
  let collected : SweepState :=
    if delta > 0 ∧ ¬ state.excludeFromScore then
      match st.currentOnline with
      | some online =>
        { st with
          weightedTotal := st.weightedTotal + online * delta
          trustedSeconds := st.trustedSeconds + delta }
      | none => st
    else st
  { collected with
    currentOnline := (future nextBoundary).foldl (fun _ online => online) st.currentOnline }

/-- The sweep. -/
def sweep (future : ℚ → List (Option ℤ)) (intervals : List Interval) :
    SweepState → List ℚ → SweepState
  | st, currentTime :: nextBoundary :: rest =>
    sweep future intervals (sweepStep future intervals st currentTime nextBoundary)
      (nextBoundary :: rest)
  | st, _ => st

/-- `f64::clamp` to the unit interval. -/
def clampUnit (x : ℚ) : ℚ := if x < 0 then 0 else if x > 1 then 1 else x

/-- `compute_effective_average_stats`: the average and the coverage. -/
def computeEffectiveAverageStats (samplePairs : List SamplePair) (windowStart windowEnd : ℚ)
    (intervals : List Interval) : ℚ × ℚ :=
  if windowEnd ≤ windowStart then (0, 0)
  else
    let boundaries := ordered samplePairs windowStart windowEnd intervals
    if boundaries.length < 2 then (0, 0)
    else
      let st := sweep (futureSamples samplePairs windowStart windowEnd) intervals
        ⟨currentOnline samplePairs windowStart, 0, 0⟩ boundaries
      let totalSeconds := max (windowEnd - windowStart) 0
      (if st.trustedSeconds ≤ 0 then 0 else st.weightedTotal / st.trustedSeconds,
        if totalSeconds ≤ 0 then 0 else clampUnit (st.trustedSeconds / totalSeconds))

/-! ### The sweep as a total -/

/-- The count after a boundary. -/
def nextOnline (future : ℚ → List (Option ℤ)) (boundary : ℚ) (online : Option ℤ) : Option ℤ :=
  (future boundary).foldl (fun _ online => online) online

/-- What a second that starts at an instant is worth: nothing when the instant is excluded from
the score or the count is not known. -/
def countedRate (worth : ℤ → ℚ) (intervals : List Interval) (t : ℚ) (online : Option ℤ) : ℚ :=
  if (resolveStateAt t intervals).excludeFromScore then 0 else online.elim 0 worth

/-- A second is worth its count. -/
def weighted (n : ℤ) : ℚ := n

/-- A second is worth itself. -/
def trusted (_ : ℤ) : ℚ := 1

section

variable (future : ℚ → List (Option ℤ)) (intervals : List Interval)

theorem sweepStep_eq (st : SweepState) (currentTime nextBoundary : ℚ) :
    sweepStep future intervals st currentTime nextBoundary =
      let delta := max (nextBoundary - currentTime) 0
      ⟨nextOnline future nextBoundary st.currentOnline,
        st.weightedTotal + delta * countedRate weighted intervals currentTime st.currentOnline,
        st.trustedSeconds +
          delta * countedRate trusted intervals currentTime st.currentOnline⟩ := by
  obtain ⟨online, weightedTotal, trustedSeconds⟩ := st
  have hdelta : 0 ≤ max (nextBoundary - currentTime) 0 := le_max_right _ _
  simp only [sweepStep, nextOnline, countedRate]
  rcases hdelta.eq_or_lt with hzero | hpos
  · simp [← hzero]
  · cases (resolveStateAt currentTime intervals).excludeFromScore with
    | true => simp
    | false =>
      cases online with
      | none => simp
      | some online => simp [hpos, weighted, trusted, mul_comm]

theorem sweep_eq (st : SweepState) (l : List ℚ) :
    (sweep future intervals st l).weightedTotal = st.weightedTotal +
        Sweep.total (nextOnline future) (countedRate weighted intervals) st.currentOnline l ∧
      (sweep future intervals st l).trustedSeconds = st.trustedSeconds +
        Sweep.total (nextOnline future) (countedRate trusted intervals) st.currentOnline l := by
  induction l generalizing st with
  | nil => simp [sweep]
  | cons currentTime l ih =>
    cases l with
    | nil => simp [sweep]
    | cons nextBoundary l =>
      have hstep := ih (sweepStep future intervals st currentTime nextBoundary)
      simp only [sweepStep_eq] at hstep
      rw [sweep, sweepStep_eq, Sweep.total_cons_cons, Sweep.total_cons_cons, ← add_assoc,
        ← add_assoc]
      exact hstep

end

/-! ### The order of the boundaries -/

instance : Std.Total bitsLe where
  total a b := by
    rcases lt_or_ge a 0 with ha | ha <;> rcases lt_or_ge b 0 with hb | hb
    · rcases le_total a b with hab | hab
      · exact .inr (.inr (.inr ⟨hb, ha, hab⟩))
      · exact .inl (.inr (.inr ⟨ha, hb, hab⟩))
    · exact .inr (.inr (.inl ⟨hb, ha⟩))
    · exact .inl (.inr (.inl ⟨ha, hb⟩))
    · rcases le_total a b with hab | hab
      · exact .inl (.inl ⟨ha, hb, hab⟩)
      · exact .inr (.inl ⟨hb, ha, hab⟩)

instance : IsTrans ℚ bitsLe where
  trans a b c := by
    rintro (⟨ha, hb, hab⟩ | ⟨ha, hb⟩ | ⟨ha, hb, hab⟩) (⟨hb', hc, hbc⟩ | ⟨hb', hc⟩ | ⟨hb', hc, hbc⟩)
    · exact .inl ⟨ha, hc, hab.trans hbc⟩
    · exact .inr (.inl ⟨ha, hc⟩)
    · exact absurd hb hb'.not_ge
    · exact absurd hb' hb.not_ge
    · exact absurd hb' hb.not_ge
    · exact .inr (.inl ⟨ha, hc⟩)
    · exact absurd hb' hb.not_ge
    · exact absurd hb' hb.not_ge
    · exact .inr (.inr ⟨ha, hc, hbc.trans hab⟩)

/-- The boundaries that are not negative, in their order: those the sweep collects over. -/
def swept (samplePairs : List SamplePair) (windowStart windowEnd : ℚ)
    (intervals : List Interval) : List ℚ :=
  (ordered samplePairs windowStart windowEnd intervals).filter fun b => decide (0 ≤ b)

section

variable (samplePairs : List SamplePair) (windowStart windowEnd : ℚ) (intervals : List Interval)

theorem ordered_sorted : (ordered samplePairs windowStart windowEnd intervals).Pairwise fun a b =>
      bitsLe a b ∧ a ≠ b := by
  refine (pairwise_insertionSort bitsLe _).and ?_
  rw [← List.Nodup, (perm_insertionSort bitsLe _).nodup_iff]
  exact nodup_dedup _

theorem swept_sorted : (swept samplePairs windowStart windowEnd intervals).Pairwise (· < ·) := by
  refine pairwise_filter.mpr ((ordered_sorted _ _ _ _).imp fun {a b} h ha hb => ?_)
  rw [decide_eq_true_eq] at ha hb
  obtain ⟨⟨-, -, hab⟩ | ⟨-, hb'⟩ | ⟨ha', -⟩, hne⟩ := h
  · exact lt_of_le_of_ne hab hne
  · exact absurd hb hb'.not_ge
  · exact absurd ha ha'.not_ge

variable {samplePairs windowStart windowEnd intervals}

theorem mem_ordered {b : ℚ} : b ∈ ordered samplePairs windowStart windowEnd intervals ↔
      b ∈ windowBoundaries windowStart windowEnd intervals ∨
        b ∈ (futurePairs samplePairs windowStart windowEnd).map Prod.fst := by
  rw [ordered, mem_insertionSort, mem_dedup, mem_append]

theorem mem_swept {b : ℚ} : b ∈ swept samplePairs windowStart windowEnd intervals ↔ 0 ≤ b ∧
      (b ∈ windowBoundaries windowStart windowEnd intervals ∨
        b ∈ (futurePairs samplePairs windowStart windowEnd).map Prod.fst) := by
  rw [swept, mem_filter, mem_ordered, decide_eq_true_eq, and_comm]

variable (samplePairs windowStart windowEnd intervals)

theorem ordered_eq : ∃ negative : List ℚ, negative.Pairwise (· ≥ ·) ∧ (∀ b ∈ negative, b < 0) ∧
      ordered samplePairs windowStart windowEnd intervals =
        swept samplePairs windowStart windowEnd intervals ++ negative := by
  have hsorted := ordered_sorted samplePairs windowStart windowEnd intervals
  refine ⟨_, ?_, ?_, Sweep.eq_filter_append_filter (hsorted.imp fun {a b} h hb => ?_)⟩
  · refine pairwise_filter.mpr (hsorted.imp fun {a b} h ha hb => ?_)
    simp only [Bool.not_eq_true', decide_eq_false_iff_not] at ha hb
    obtain ⟨⟨ha', -⟩ | ⟨ha', -⟩ | ⟨-, -, hab⟩, -⟩ := h
    · exact absurd ha' ha
    · exact absurd ha' ha
    · exact hab
  · intro b hb
    simpa using (mem_filter.mp hb).2
  · rw [decide_eq_true_eq] at hb ⊢
    obtain ⟨⟨ha, -⟩ | ⟨ha, -⟩ | ⟨-, hb', -⟩, -⟩ := h
    · exact ha
    · exact ha
    · exact absurd hb hb'.not_ge

theorem total_ordered (update : ℚ → Option ℤ → Option ℤ) (rate : ℚ → Option ℤ → ℚ) (s : Option ℤ) :
    Sweep.total update rate s (ordered samplePairs windowStart windowEnd intervals) =
      Sweep.total update rate s (swept samplePairs windowStart windowEnd intervals) := by
  obtain ⟨negative, hsorted, hneg, heq⟩ := ordered_eq samplePairs windowStart windowEnd intervals
  rcases eq_nil_or_concat (swept samplePairs windowStart windowEnd intervals) with
    hnil | ⟨l, x, hl⟩
  · rw [heq, hnil, nil_append, Sweep.total_nil, Sweep.total_of_antitone hsorted]
  · have hx : 0 ≤ x := by
      have hmem : x ∈ swept samplePairs windowStart windowEnd intervals := by simp [hl]
      exact (mem_swept.mp hmem).1
    have hdown : (x :: negative).Pairwise (· ≥ ·) :=
      pairwise_cons.mpr ⟨fun b hb => (hneg b hb).le.trans hx, hsorted⟩
    rw [heq, hl, concat_eq_append, append_assoc, singleton_append,
      Sweep.total_append, Sweep.total_of_antitone hdown, add_zero]

/-- What the sweep collects. -/
def sweptTotal (worth : ℤ → ℚ) : ℚ :=
  Sweep.total (nextOnline (futureSamples samplePairs windowStart windowEnd))
    (countedRate worth intervals) (currentOnline samplePairs windowStart)
    (swept samplePairs windowStart windowEnd intervals)

/-- The two results, from the totals and the length of the window. -/
def statsOf (weightedTotal trustedSeconds seconds : ℚ) : ℚ × ℚ :=
  (if trustedSeconds ≤ 0 then 0 else weightedTotal / trustedSeconds,
    clampUnit (trustedSeconds / seconds))

theorem sweep_ordered :
    let st := sweep (futureSamples samplePairs windowStart windowEnd) intervals
      ⟨currentOnline samplePairs windowStart, 0, 0⟩
      (ordered samplePairs windowStart windowEnd intervals)
    st.weightedTotal = sweptTotal samplePairs windowStart windowEnd intervals weighted ∧
      st.trustedSeconds = sweptTotal samplePairs windowStart windowEnd intervals trusted := by
  obtain ⟨hweighted, htrusted⟩ := sweep_eq (futureSamples samplePairs windowStart windowEnd)
    intervals ⟨currentOnline samplePairs windowStart, 0, 0⟩
    (ordered samplePairs windowStart windowEnd intervals)
  rw [zero_add, total_ordered] at hweighted htrusted
  exact ⟨hweighted, htrusted⟩

/-- **The stats of a window**, from the two totals over the boundaries that are not negative. -/
theorem stats_eq (hwindow : windowStart < windowEnd) :
    computeEffectiveAverageStats samplePairs windowStart windowEnd intervals =
      statsOf (sweptTotal samplePairs windowStart windowEnd intervals weighted)
        (sweptTotal samplePairs windowStart windowEnd intervals trusted)
        (windowEnd - windowStart) := by
  have hlength : ¬ (ordered samplePairs windowStart windowEnd intervals).length < 2 := by
    have hsub : [windowStart, windowEnd].Subperm
        (ordered samplePairs windowStart windowEnd intervals) := by
      refine subperm_of_subset (by simp [hwindow.ne]) fun b hb => mem_ordered.mpr (.inl ?_)
      rcases mem_pair.mp hb with rfl | rfl
      · exact mem_cons_self
      · exact mem_cons_of_mem _ mem_cons_self
    exact hsub.length_le.not_gt
  have hpos : 0 < windowEnd - windowStart := sub_pos.mpr hwindow
  obtain ⟨hweighted, htrusted⟩ := sweep_ordered samplePairs windowStart windowEnd intervals
  simp only [computeEffectiveAverageStats, if_neg hwindow.not_ge, if_neg hlength, hweighted,
    htrusted, max_eq_left hpos.le, if_neg hpos.not_ge]
  rfl

variable {samplePairs windowStart windowEnd intervals}

/-! ### Between boundaries nothing changes -/

theorem resolveStateAt_congr {a b : ℚ} (h : ∀ iv ∈ intervals, iv.active a = iv.active b) :
    resolveStateAt a intervals = resolveStateAt b intervals := by
  have hfilter : intervals.filter (Interval.active a) = intervals.filter (Interval.active b) :=
    filter_congr h
  simp only [resolveStateAt, hfilter]

theorem mem_windowBoundaries {b : ℚ} : b ∈ windowBoundaries windowStart windowEnd intervals ↔
      b = windowStart ∨ b = windowEnd ∨ ∃ iv ∈ intervals,
        (windowStart < iv.startsAt ∧ b = iv.startsAt) ∨
          (iv.endsAt < windowEnd ∧ b = iv.endsAt) := by
  simp only [windowBoundaries, intervalBoundaries, mem_cons, mem_flatMap,
    mem_append, mem_ite_nil_right, not_mem_nil, or_false, gt_iff_lt]

/-- The state does not change between boundaries of the window. -/
theorem resolveStateAt_between {p b : ℚ} (hp : windowStart ≤ p) (hpb : p < b) (hb : b < windowEnd)
    (hgap : ∀ y ∈ windowBoundaries windowStart windowEnd intervals, y ≤ p ∨ b < y) :
    resolveStateAt b intervals = resolveStateAt p intervals := by
  refine resolveStateAt_congr fun iv hiv => ?_
  have hstart : iv.startsAt ≤ b ↔ iv.startsAt ≤ p := by
    refine ⟨fun hle => ?_, fun hle => hle.trans hpb.le⟩
    by_contra hlt
    have hmem : iv.startsAt ∈ windowBoundaries windowStart windowEnd intervals :=
      mem_windowBoundaries.mpr (.inr (.inr ⟨iv, hiv, .inl ⟨hp.trans_lt (not_le.mp hlt), rfl⟩⟩))
    exact (hgap _ hmem).elim hlt hle.not_gt
  have hend : b < iv.endsAt ↔ p < iv.endsAt := by
    refine ⟨fun hlt => hpb.trans hlt, fun hlt => ?_⟩
    by_contra hle
    have hmem : iv.endsAt ∈ windowBoundaries windowStart windowEnd intervals :=
      mem_windowBoundaries.mpr (.inr (.inr ⟨iv, hiv, .inr ⟨(not_lt.mp hle).trans_lt hb, rfl⟩⟩))
    exact (hgap _ hmem).elim hlt.not_ge hle
  simp only [Interval.active, hstart, hend]

theorem nextOnline_of_not_mem {b : ℚ}
    (hb : b ∉ (futurePairs samplePairs windowStart windowEnd).map Prod.fst) (online : Option ℤ) :
    nextOnline (futureSamples samplePairs windowStart windowEnd) b online = online := by
  have hnil : futureSamples samplePairs windowStart windowEnd b = [] := by
    rw [futureSamples, map_eq_nil_iff, filter_eq_nil_iff]
    intro pair hpair heq
    exact hb (mem_map.mpr ⟨pair, hpair, by simpa using heq⟩)
  rw [nextOnline, hnil]
  rfl

/-- **Refinement inside the window**: from a first boundary on, the total is the same over any
boundaries up to the end of the window that include those at which something changes. -/
theorem total_refine_window (worth : ℤ → ℚ) (s : Option ℤ) {x : ℚ} {l₁ l₂ : List ℚ}
    (hx : windowStart ≤ x) (hsorted : (x :: l₂).Pairwise (· < ·)) (hsub : l₁.Sublist l₂)
    (hend : windowEnd ∈ l₁) (hle : ∀ b ∈ l₂, b ≤ windowEnd)
    (hboundaries : ∀ y ∈ windowBoundaries windowStart windowEnd intervals, y ≤ x ∨ y ∈ l₁)
    (hsamples : ∀ y ∈ (futurePairs samplePairs windowStart windowEnd).map Prod.fst,
      y ≤ x ∨ y ∈ l₁) :
    Sweep.total (nextOnline (futureSamples samplePairs windowStart windowEnd))
        (countedRate worth intervals) s (x :: l₂) =
      Sweep.total (nextOnline (futureSamples samplePairs windowStart windowEnd))
        (countedRate worth intervals) s (x :: l₁) := by
  have hgt : ∀ b ∈ l₂, x < b := (pairwise_cons.mp hsorted).1
  refine Sweep.total_refine hsub hsorted (fun b hb => ⟨windowEnd, hend, hle b hb⟩) ?_ ?_
  · intro b hb hb₁ online
    refine nextOnline_of_not_mem (fun hmem => ?_) online
    exact (hsamples b hmem).elim (hgt b hb).not_ge hb₁
  · intro b hb hb₁ p hp hpb hgap online
    have hlt : b < windowEnd := lt_of_le_of_ne (hle b hb) fun heq => hb₁ (heq ▸ hend)
    have hstate : resolveStateAt b intervals = resolveStateAt p intervals :=
      resolveStateAt_between (hx.trans hp) hpb hlt fun y hy =>
        (hboundaries y hy).elim (fun hyx => .inl (hyx.trans hp)) (hgap y)
    rw [countedRate, countedRate, hstate]

end

/-! ### Ticks -/

/-- The count of the last pair at or before an instant, if there is one and its count is
known. -/
def lastOnline (samplePairs : List SamplePair) (t : ℚ) : Option ℤ :=
  ((samplePairs.filter fun pair => decide (pair.1 ≤ t)).getLast?).bind Prod.snd

theorem currentOnline_eq_lastOnline (samplePairs : List SamplePair) (t : ℚ) :
    currentOnline samplePairs t = lastOnline samplePairs t := by
  refine foldl_invariant (P := fun done online => online = lastOnline done t) rfl ?_
  rintro done pair rest online - rfl
  by_cases h : pair.1 ≤ t <;> simp [lastOnline, h]

theorem nextOnline_eq (future : ℚ → List (Option ℤ)) (b : ℚ) (online : Option ℤ) :
    nextOnline future b online = (future b).getLast?.getD online := by
  rw [nextOnline]
  refine foldl_invariant (P := fun done current => current = done.getLast?.getD online) rfl ?_
  rintro done count rest current - -
  simp

/-- Pairs whose timestamps are ticks. -/
def tickPairs (pairs : List (ℕ × Option ℤ)) : List SamplePair :=
  pairs.map fun pair => ((pair.1 : ℚ), pair.2)

/-- Intervals between ticks of the window. -/
def OnTicks (windowStart windowEnd : ℕ) (intervals : List Interval) : Prop :=
  ∀ iv ∈ intervals, ∃ a ∈ Finset.Icc windowStart windowEnd, ∃ b ∈ Finset.Icc windowStart windowEnd,
    iv.startsAt = a ∧ iv.endsAt = b

/-- The ticks of the window that **count**: the last pair has a known count, and the state is
not excluded from the score. -/
def countedTicks (samplePairs : List SamplePair) (windowStart windowEnd : ℕ)
    (intervals : List Interval) : Finset ℕ :=
  (Finset.Ico windowStart windowEnd).filter fun t =>
    (lastOnline samplePairs t).isSome ∧ (resolveStateAt t intervals).excludeFromScore = false

section

variable {pairs : List (ℕ × Option ℤ)} {windowStart windowEnd : ℕ} {intervals : List Interval}

theorem lastOnline_tickPairs (t : ℕ) : lastOnline (tickPairs pairs) t =
      (pairs.filter fun pair => decide (pair.1 ≤ t)).getLast?.bind Prod.snd := by
  simp [lastOnline, tickPairs, filter_map, Function.comp_def, getLast?_map, Option.bind_map]

theorem futureSamples_tickPairs {t : ℕ} (hstart : windowStart < t) (hend : t ≤ windowEnd) :
    futureSamples (tickPairs pairs) windowStart windowEnd t =
      (pairs.filter fun pair => decide (pair.1 = t)).map Prod.snd := by
  have hfilter : ∀ pair ∈ pairs, (decide ((pair.1 : ℚ) = t) &&
      decide (¬ (pair.1 : ℚ) ≤ windowStart ∧ ¬ (pair.1 : ℚ) > windowEnd)) =
        decide (pair.1 = t) := by
    intro pair _
    rw [Bool.eq_iff_iff, Bool.and_eq_true, decide_eq_true_eq, decide_eq_true_eq,
      decide_eq_true_eq]
    norm_cast
    omega
  simp only [futureSamples, futurePairs, tickPairs, filter_filter, filter_map,
    map_map, Function.comp_def]
  rw [filter_congr hfilter]

/-- From one tick to the next, the last pair is the last one at that tick, if there is one. -/
theorem lastOnline_succ (hsorted : pairs.Pairwise fun a b => a.1 ≤ b.1) {t : ℕ}
    (ht : t ∈ Finset.Ico windowStart windowEnd) :
    nextOnline (futureSamples (tickPairs pairs) windowStart windowEnd) ((t + 1 : ℕ) : ℚ)
        (lastOnline (tickPairs pairs) t) =
      lastOnline (tickPairs pairs) ((t + 1 : ℕ) : ℚ) := by
  obtain ⟨hstart, hend⟩ := Finset.mem_Ico.mp ht
  have hcut : pairs.filter (fun pair => decide (pair.1 ≤ t + 1)) =
      pairs.filter (fun pair => decide (pair.1 ≤ t)) ++
        pairs.filter (fun pair => decide (pair.1 = t + 1)) := by
    have hsplit := Sweep.eq_filter_append_filter
      (p := fun pair : ℕ × Option ℤ => decide (pair.1 ≤ t))
      (l := pairs.filter fun pair => decide (pair.1 ≤ t + 1))
      ((hsorted.filter _).imp fun {a b} hab hb => by
        rw [decide_eq_true_eq] at hb ⊢
        omega)
    rw [hsplit, filter_filter, filter_filter]
    refine congrArg₂ _ (filter_congr fun pair _ => ?_) (filter_congr fun pair _ => ?_)
    · rw [Bool.eq_iff_iff, Bool.and_eq_true, decide_eq_true_eq, decide_eq_true_eq]
      omega
    · rw [Bool.eq_iff_iff, Bool.and_eq_true, Bool.not_eq_true', decide_eq_false_iff_not,
        decide_eq_true_eq, decide_eq_true_eq]
      omega
  rw [nextOnline_eq, futureSamples_tickPairs (by omega) (by omega), lastOnline_tickPairs,
    lastOnline_tickPairs, hcut, getLast?_append, getLast?_map]
  cases (pairs.filter fun pair => decide (pair.1 = t + 1)).getLast? with
  | none | some pair => simp

theorem tick_of_mem_swept (hwindow : windowStart < windowEnd)
    (hintervals : OnTicks windowStart windowEnd intervals) {b : ℚ}
    (hb : b ∈ swept (tickPairs pairs) windowStart windowEnd intervals) :
    ∃ k ∈ Finset.Icc windowStart windowEnd, b = (k : ℚ) := by
  obtain ⟨-, hboundary | hsample⟩ := mem_swept.mp hb
  · rcases mem_windowBoundaries.mp hboundary with rfl | rfl | ⟨iv, hiv, hends⟩
    · exact ⟨windowStart, by simp [hwindow.le], rfl⟩
    · exact ⟨windowEnd, by simp [hwindow.le], rfl⟩
    · obtain ⟨start, hstart, stop, hstop, hstartsAt, hendsAt⟩ := hintervals iv hiv
      rcases hends with ⟨-, rfl⟩ | ⟨-, rfl⟩
      · exact ⟨start, hstart, hstartsAt⟩
      · exact ⟨stop, hstop, hendsAt⟩
  · obtain ⟨pair, hpair, rfl⟩ := mem_map.mp hsample
    obtain ⟨hmem, hinside⟩ := mem_filter.mp hpair
    obtain ⟨⟨k, online⟩, -, rfl⟩ := mem_map.mp hmem
    refine ⟨k, ?_, rfl⟩
    obtain ⟨hstart, hend⟩ := of_decide_eq_true hinside
    have hstart : (windowStart : ℚ) < k := not_le.mp hstart
    have hend : (k : ℚ) ≤ windowEnd := not_lt.mp hend
    exact Finset.mem_Icc.mpr ⟨(Nat.cast_lt.mp hstart).le, Nat.cast_le.mp hend⟩

/-- The ticks of a window, in their order. -/
def ticks (windowStart windowEnd : ℕ) : List ℚ :=
  (List.range' windowStart (windowEnd - windowStart + 1)).map Nat.cast

theorem ticks_sorted : (ticks windowStart windowEnd).Pairwise (· < ·) :=
  (pairwise_lt_range' ..).map Nat.cast fun _ _ hlt => Nat.cast_lt.mpr hlt

theorem mem_ticks {k : ℕ} : (k : ℚ) ∈ ticks windowStart windowEnd ↔
      windowStart ≤ k ∧ k < windowStart + (windowEnd - windowStart + 1) := by
  simp [ticks]

theorem sweptTotal_eq_ticks (hwindow : windowStart < windowEnd)
    (hintervals : OnTicks windowStart windowEnd intervals) (worth : ℤ → ℚ) :
    sweptTotal (tickPairs pairs) windowStart windowEnd intervals worth =
      Sweep.total (nextOnline (futureSamples (tickPairs pairs) windowStart windowEnd))
        (countedRate worth intervals) (lastOnline (tickPairs pairs) windowStart)
        (ticks windowStart windowEnd) := by
  have hswept := swept_sorted (tickPairs pairs) windowStart windowEnd intervals
  have hsub : swept (tickPairs pairs) windowStart windowEnd intervals ⊆
      ticks windowStart windowEnd := by
    intro b hb
    obtain ⟨k, hk, rfl⟩ := tick_of_mem_swept hwindow hintervals hb
    rw [Finset.mem_Icc] at hk
    exact mem_ticks.mpr (by omega)
  have hwindowEnd : (windowEnd : ℚ) ∈ swept (tickPairs pairs) windowStart windowEnd intervals :=
    mem_swept.mpr ⟨Nat.cast_nonneg _, .inl (mem_windowBoundaries.mpr (.inr (.inl rfl)))⟩
  have hwindowStart : (windowStart : ℚ) ∈ swept (tickPairs pairs) windowStart windowEnd intervals :=
    mem_swept.mpr ⟨Nat.cast_nonneg _, .inl (mem_windowBoundaries.mpr (.inl rfl))⟩
  have hticks : ∀ b ∈ ticks windowStart windowEnd, (windowStart : ℚ) ≤ b ∧ b ≤ windowEnd := by
    intro b hb
    obtain ⟨k, -, rfl⟩ := mem_map.mp hb
    rw [mem_ticks] at hb
    exact ⟨Nat.cast_le.mpr hb.1, Nat.cast_le.mpr (by omega)⟩
  obtain ⟨l₁, hl₁⟩ := Sweep.exists_eq_cons hswept hwindowStart fun b hb => (hticks b (hsub hb)).1
  obtain ⟨l₂, hl₂⟩ := Sweep.exists_eq_cons ticks_sorted (hsub hwindowStart)
    fun b hb => (hticks b hb).1
  have hmem : ∀ y, (y ∈ windowBoundaries (windowStart : ℚ) windowEnd intervals ∨
      y ∈ (futurePairs (tickPairs pairs) windowStart windowEnd).map Prod.fst) →
      y ≤ windowStart ∨ y ∈ l₁ := by
    intro y hy
    rcases lt_or_ge y 0 with hneg | hpos
    · exact .inl (hneg.le.trans (Nat.cast_nonneg _))
    · have hyswept := mem_swept.mpr ⟨hpos, hy⟩
      rw [hl₁] at hyswept
      exact (mem_cons.mp hyswept).imp le_of_eq id
  have hsublist := Sweep.sublist_of_subset hswept ticks_sorted hsub
  rw [sweptTotal, currentOnline_eq_lastOnline, hl₂, hl₁]
  rw [hl₁, hl₂, cons_sublist_cons] at hsublist
  refine (total_refine_window worth _ le_rfl (hl₂ ▸ ticks_sorted) hsublist ?_ ?_
    (fun y hy => hmem y (.inl hy)) (fun y hy => hmem y (.inr hy))).symm
  · rw [hl₁] at hwindowEnd
    exact (mem_cons.mp hwindowEnd).resolve_left (Nat.cast_lt.mpr hwindow).ne'
  · intro b hb
    exact (hticks b (hl₂ ▸ mem_cons_of_mem _ hb)).2

theorem sweptTotal_ticks (hsorted : pairs.Pairwise fun a b => a.1 ≤ b.1)
    (hwindow : windowStart < windowEnd) (hintervals : OnTicks windowStart windowEnd intervals)
    (worth : ℤ → ℚ) : sweptTotal (tickPairs pairs) windowStart windowEnd intervals worth =
      ∑ t ∈ Finset.Ico windowStart windowEnd,
        countedRate worth intervals t (lastOnline (tickPairs pairs) t) := by
  have hend : windowStart + (windowEnd - windowStart) = windowEnd := by omega
  have hsum := Sweep.total_range
    (nextOnline (futureSamples (tickPairs pairs) windowStart windowEnd))
    (countedRate worth intervals) (fun t : ℕ => lastOnline (tickPairs pairs) (t : ℚ))
    (windowEnd - windowStart) windowStart
  rw [hend] at hsum
  rw [sweptTotal_eq_ticks hwindow hintervals, ticks]
  exact hsum fun t ht => lastOnline_succ hsorted ht

theorem sum_countedRate (samplePairs : List SamplePair) (worth : ℤ → ℚ) :
    ∑ t ∈ Finset.Ico windowStart windowEnd,
        countedRate worth intervals t (lastOnline samplePairs t) =
      ∑ t ∈ countedTicks samplePairs windowStart windowEnd intervals,
        worth ((lastOnline samplePairs t).getD 0) := by
  rw [countedTicks, Finset.sum_filter]
  refine Finset.sum_congr rfl fun t _ => ?_
  rw [countedRate]
  cases (resolveStateAt t intervals).excludeFromScore <;>
    cases lastOnline samplePairs t <;> simp

theorem clampUnit_of_mem {x : ℚ} (h₀ : 0 ≤ x) (h₁ : x ≤ 1) : clampUnit x = x := by
  rw [clampUnit, if_neg h₀.not_gt, if_neg h₁.not_gt]

end

/-- **The stats are those of the ticks that count**: with everything on ticks, the coverage is the
share of the window's ticks that count, which needs no clamping, and the average is the mean of the
counts over them, or zero. -/
theorem effective_average_is_tick_mean (pairs : List (ℕ × Option ℤ))
    (hsorted : pairs.Pairwise fun a b => a.1 ≤ b.1) (windowStart windowEnd : ℕ)
    (hwindow : windowStart < windowEnd) (intervals : List Interval)
    (hintervals : OnTicks windowStart windowEnd intervals) :
    let counted := countedTicks (tickPairs pairs) windowStart windowEnd intervals
    let share : ℚ := counted.card / (windowEnd - windowStart)
    let st := sweep (futureSamples (tickPairs pairs) windowStart windowEnd) intervals
      ⟨currentOnline (tickPairs pairs) windowStart, 0, 0⟩
      (ordered (tickPairs pairs) windowStart windowEnd intervals)
    computeEffectiveAverageStats (tickPairs pairs) windowStart windowEnd intervals =
      (if counted = ∅ then 0
        else (∑ t ∈ counted, ((lastOnline (tickPairs pairs) t).getD 0 : ℚ)) / counted.card,
        share) ∧
      st.trustedSeconds / (windowEnd - windowStart) = share ∧ 0 ≤ share ∧ share ≤ 1 := by
  intro counted share st
  have hweighted := sweptTotal_ticks hsorted hwindow hintervals weighted
  have htrusted := sweptTotal_ticks hsorted hwindow hintervals trusted
  rw [sum_countedRate] at hweighted htrusted
  have hcard : sweptTotal (tickPairs pairs) windowStart windowEnd intervals trusted =
      counted.card := by
    rw [htrusted]
    simp [trusted, counted]
  have hseconds : (0 : ℚ) < windowEnd - windowStart := sub_pos.mpr (Nat.cast_lt.mpr hwindow)
  have hle : (counted.card : ℚ) ≤ windowEnd - windowStart := by
    have hcount : counted.card ≤ windowEnd - windowStart := by
      rw [← Nat.card_Ico]
      exact Finset.card_filter_le _ _
    rw [← Nat.cast_sub hwindow.le]
    exact Nat.cast_le.mpr hcount
  have hshare₀ : 0 ≤ share := div_nonneg (Nat.cast_nonneg _) hseconds.le
  have hshare₁ : share ≤ 1 := (div_le_one hseconds).mpr hle
  have hst : st.trustedSeconds = counted.card :=
    (sweep_ordered (tickPairs pairs) windowStart windowEnd intervals).2.trans hcard
  refine ⟨?_, by rw [hst], hshare₀, hshare₁⟩
  rw [stats_eq _ _ _ _ (Nat.cast_lt.mpr hwindow), statsOf, hcard, hweighted,
    clampUnit_of_mem hshare₀ hshare₁]
  refine Prod.ext ?_ rfl
  by_cases hempty : counted = ∅
  · simp [hempty]
  · have hpos : (0 : ℚ) < counted.card := Nat.cast_pos.mpr (Finset.card_pos.mpr
      (Finset.nonempty_iff_ne_empty.mpr hempty))
    simp only [if_neg hempty, if_neg hpos.not_ge]
    rfl

/-- Of four ticks the second is excluded and the third has no known count: the average is over
the other two. -/
theorem average_over_counted_ticks :
    computeEffectiveAverageStats (tickPairs [(0, some 10), (2, none), (3, some 4)])
      (0 : ℕ) (4 : ℕ) [⟨1, 2, autoSuspect⟩] = (7, 1 / 2) := by
  have hcounted : countedTicks (tickPairs [(0, some 10), (2, none), (3, some 4)]) 0 4
      [⟨1, 2, autoSuspect⟩] = {0, 3} := by decide
  have hintervals : OnTicks 0 4 [⟨1, 2, autoSuspect⟩] := by
    intro iv hiv
    rw [mem_singleton.mp hiv]
    exact ⟨1, by decide, 2, by decide, rfl, rfl⟩
  obtain ⟨hstats, -⟩ := effective_average_is_tick_mean [(0, some 10), (2, none), (3, some 4)]
    (by decide) 0 4 (by decide) [⟨1, 2, autoSuspect⟩] hintervals
  rw [hstats, hcounted]
  decide +kernel

end ServiceToolkit.Segments
