import ServiceToolkit.SegmentsStagnant

/-!
# Nearly Flat Counts

What `build_near_flat_suspect_intervals` flags is compared with the samples it was given. The
run the loop is in is the run of the last **stretch** of samples with enough players and no gap
too wide (`NearFlatInv`).

A run is cut at the sample before a gap when the count after the gap is high again, and at the
end of the window. It is not cut when the count after the gap is unknown or low: then it is
measured, and flagged, up to the sample behind the gap.
-/

namespace ServiceToolkit.Segments

open Coverage List

variable [F64]

/-- A sample joins a run, or starts one. A sample not after the last one is skipped. -/
def NearFlatRun.join (run : Option NearFlatRun) (sample : Sample) : Option NearFlatRun :=
  match run with
  | none => some (.new sample.ts (sample.online.getD 0))
  | some activeRun =>
    if sample.ts ≤ activeRun.previousTs then some activeRun
    else some (activeRun.push sample.ts (sample.online.getD 0))

/-- The run of a stretch of samples. -/
def runOf (stretch : List Sample) : Option NearFlatRun := stretch.foldl NearFlatRun.join none

/-- A sample with enough players extends the stretch, or starts one behind a gap. -/
def stretchStep (minOnline : ℤ) (stretch : List Sample) (sample : Sample) : List Sample :=
  if sample.atLeast minOnline then
    match stretch.getLast? with
    | some last =>
      if sample.ts - last.ts ≤ suspectNearFlatMaxGapSecs then stretch ++ [sample] else [sample]
    | none => [sample]
  else []

/-- The **last stretch**: the longest stretch of samples with enough players and no gap too wide
that ends the samples. -/
def lastStretch (minOnline : ℤ) (samples : List Sample) : List Sample :=
  samples.foldl (stretchStep minOnline) []

theorem runOf_concat (stretch : List Sample) (sample : Sample) :
    runOf (stretch ++ [sample]) = NearFlatRun.join (runOf stretch) sample :=
  foldl_concat ..

omit [F64] in
theorem lastStretch_concat (minOnline : ℤ) (samples : List Sample) (sample : Sample) :
    lastStretch minOnline (samples ++ [sample]) =
      stretchStep minOnline (lastStretch minOnline samples) sample :=
  foldl_concat ..

/-! ### An iteration -/

theorem covered_pushNearFlat {pushed : List Interval} {run : Option NearFlatRun} {k : Label}
    {runEnd ws we t : ℚ} : CoveredBy (pushNearFlatSuspectRun pushed run runEnd ws we) k t ↔
      (∃ activeRun ∈ run, activeRun.qualifies runEnd = true ∧ k = autoSuspect ∧
        t ∈ Set.Ico ws we ∧ t ∈ Set.Ico activeRun.start runEnd) ∨
      CoveredBy pushed k t := by
  cases run with
  | none => simp [pushNearFlatSuspectRun]
  | some activeRun =>
    rw [pushNearFlatSuspectRun]
    split
    · rename_i h
      rw [covered_push]
      simp [h]
    · rename_i h
      simp [h]

omit [F64] in
theorem nearFlatMaxGap_nonneg : 0 ≤ suspectNearFlatMaxGapSecs := by
  norm_num [suspectNearFlatMaxGapSecs]

/-- **An iteration** closes the run at an unknown or low count; otherwise the sample joins the
run, and behind a gap a new one. -/
theorem nearFlatStep_cases (ws we : ℚ) (minOnline : ℤ) (st : NearFlat) (sample : Sample) :
    (sample.atLeast minOnline = false ∧
      nearFlatStep ws we minOnline st sample =
        ⟨pushNearFlatSuspectRun st.pushed st.run sample.ts ws we, none⟩) ∨
    (sample.atLeast minOnline = true ∧
      (∀ activeRun, st.run = some activeRun →
        sample.ts - activeRun.previousTs ≤ suspectNearFlatMaxGapSecs) ∧
      nearFlatStep ws we minOnline st sample =
        ⟨st.pushed, NearFlatRun.join st.run sample⟩) ∨
    (sample.atLeast minOnline = true ∧ ∃ activeRun, st.run = some activeRun ∧
      suspectNearFlatMaxGapSecs < sample.ts - activeRun.previousTs ∧
      nearFlatStep ws we minOnline st sample =
        ⟨pushNearFlatSuspectRun st.pushed st.run activeRun.previousTs ws we,
          NearFlatRun.join none sample⟩) := by
  obtain ⟨pushed, run⟩ := st
  have hpos := nearFlatMaxGap_nonneg
  cases honline : sample.online with
  | none => exact .inl ⟨by simp [Sample.atLeast, honline], by simp [nearFlatStep, honline]⟩
  | some online =>
    by_cases hlow : online < minOnline
    · exact .inl ⟨by simp [Sample.atLeast, honline, hlow], by simp [nearFlatStep, honline, hlow]⟩
    · have hhigh : sample.atLeast minOnline = true :=
        atLeast_iff.mpr ⟨online, honline, not_lt.mp hlow⟩
      cases run with
      | none =>
        refine .inr (.inl ⟨hhigh, ?_, ?_⟩)
        · rintro _ ⟨⟩
        · simp [nearFlatStep, honline, hlow, NearFlatRun.join]
      | some activeRun =>
        by_cases hskip : sample.ts ≤ activeRun.previousTs
        · refine .inr (.inl ⟨hhigh, ?_, ?_⟩)
          · rintro _ ⟨⟩
            linarith
          · simp [nearFlatStep, honline, hlow, NearFlatRun.join, hskip]
        · by_cases hgap : sample.ts - activeRun.previousTs > suspectNearFlatMaxGapSecs
          · refine .inr (.inr ⟨hhigh, activeRun, rfl, hgap, ?_⟩)
            simp [nearFlatStep, honline, hlow, NearFlatRun.join, hskip, hgap]
          · refine .inr (.inl ⟨hhigh, ?_, ?_⟩)
            · rintro _ ⟨⟩
              exact not_lt.mp hgap
            · simp [nearFlatStep, honline, hlow, NearFlatRun.join, hskip, hgap]

theorem join_spec {run : Option NearFlatRun} {sample : Sample}
    (hle : ∀ activeRun, run = some activeRun → activeRun.previousTs ≤ sample.ts) :
    ∃ joined, NearFlatRun.join run sample = some joined ∧ joined.previousTs = sample.ts ∧
      (joined.start = sample.ts ∨ ∃ activeRun, run = some activeRun ∧
        joined.start = activeRun.start) := by
  cases run with
  | none => exact ⟨_, rfl, rfl, .inl rfl⟩
  | some activeRun =>
    rw [NearFlatRun.join]
    split
    · rename_i hskip
      exact ⟨activeRun, rfl, le_antisymm (hle activeRun rfl) hskip, .inr ⟨activeRun, rfl, rfl⟩⟩
    · exact ⟨_, rfl, rfl, .inr ⟨activeRun, rfl, rfl⟩⟩

/-! ### The run of the loop -/

/-- The **run** the loop is in after the samples `done`: that of their last stretch. The run
reaches to the last sample, and an instant of it up to the gap after that is backed. -/
structure NearFlatInv (minOnline : ℤ) (done : List Sample) (run : Option NearFlatRun) :
    Prop where
  eq : run = runOf (lastStretch minOnline done)
  idle : run = none → lastStretch minOnline done = []
  last : ∀ activeRun, run = some activeRun → ∃ last, done.getLast? = some last ∧
    (lastStretch minOnline done).getLast? = some last ∧ activeRun.previousTs = last.ts
  started : ∀ activeRun, run = some activeRun → activeRun.start ≤ activeRun.previousTs
  backed : ∀ activeRun, run = some activeRun → ∀ t, activeRun.start ≤ t →
    t - activeRun.previousTs ≤ suspectNearFlatMaxGapSecs →
    Backed suspectNearFlatMaxGapSecs minOnline done t

section

variable {ws we : ℚ} {minOnline : ℤ} {done : List Sample}
  {run : Option NearFlatRun} {st : NearFlat} {sample : Sample}

theorem NearFlatInv.close (hlow : sample.atLeast minOnline = false) :
    NearFlatInv minOnline (done ++ [sample]) none := by
  have hstretch : lastStretch minOnline (done ++ [sample]) = [] := by
    rw [lastStretch_concat, stretchStep, hlow, if_neg Bool.false_ne_true]
  refine ⟨?_, fun _ => hstretch, ?_, ?_, ?_⟩
  · rw [hstretch]
    rfl
  all_goals
    rintro _ ⟨⟩

theorem NearFlatInv.joined (stretch : List Sample) (hhigh : sample.atLeast minOnline = true)
    (hrun : run = runOf stretch)
    (hstretch : lastStretch minOnline (done ++ [sample]) = stretch ++ [sample])
    (hle : ∀ activeRun, run = some activeRun → activeRun.previousTs ≤ sample.ts ∧
      sample.ts - activeRun.previousTs ≤ suspectNearFlatMaxGapSecs ∧
      activeRun.start ≤ activeRun.previousTs ∧ ∀ t, activeRun.start ≤ t →
        t - activeRun.previousTs ≤ suspectNearFlatMaxGapSecs →
        Backed suspectNearFlatMaxGapSecs minOnline done t) :
    NearFlatInv minOnline (done ++ [sample]) (NearFlatRun.join run sample) := by
  obtain ⟨joined, hjoin, hprevious, hstart⟩ :=
    join_spec fun activeRun hactive => (hle activeRun hactive).1
  refine ⟨by rw [hstretch, runOf_concat, hrun], fun hnone => ?_, ?_, ?_, ?_⟩
  · rw [hjoin] at hnone
    cases hnone
  · rintro activeRun hactive
    obtain rfl := Option.some.inj (hjoin.symm.trans hactive)
    exact ⟨sample, by simp, by simp [hstretch], hprevious⟩
  · rintro activeRun hactive
    obtain rfl := Option.some.inj (hjoin.symm.trans hactive)
    rcases hstart with hstart | ⟨old, hold, hstart⟩
    · rw [hstart, hprevious]
    · obtain ⟨hts, -, hstarted, -⟩ := hle old hold
      rw [hstart, hprevious]
      exact hstarted.trans hts
  · rintro activeRun hactive t ht hgap
    obtain rfl := Option.some.inj (hjoin.symm.trans hactive)
    rw [hprevious] at hgap
    rcases le_or_gt sample.ts t with hts | hts
    · exact ⟨sample, by simp, hhigh, hts, hgap⟩
    · rcases hstart with hstart | ⟨old, hold, hstart⟩
      · exact absurd (hstart.symm.trans_le ht) hts.not_ge
      · obtain ⟨-, hnear, -, hbacked⟩ := hle old hold
        refine (hbacked t (hstart.symm.trans_le ht) ?_).mono (subset_append_left done _)
        linarith

theorem NearFlatInv.step (h : NearFlatInv minOnline done st.run)
    (hsorted : ∀ y ∈ done, y.ts ≤ sample.ts) : NearFlatInv minOnline (done ++ [sample])
      (nearFlatStep ws we minOnline st sample).run := by
  rcases nearFlatStep_cases ws we minOnline st sample with
    ⟨hlow, heq⟩ | ⟨hhigh, hnear, heq⟩ | ⟨hhigh, activeRun, hactive, hfar, heq⟩
  · rw [heq]
    exact .close hlow
  · rw [heq]
    refine .joined _ hhigh h.eq ?_ fun activeRun hactive => ?_
    · rw [lastStretch_concat, stretchStep, if_pos hhigh]
      cases hrun : st.run with
      | none => rw [h.idle hrun, getLast?_nil, nil_append]
      | some activeRun =>
        obtain ⟨last, -, hlast, hprevious⟩ := h.last activeRun hrun
        have hgap := hnear activeRun hrun
        rw [hprevious] at hgap
        rw [hlast]
        exact if_pos hgap
    · obtain ⟨last, hlast, -, hprevious⟩ := h.last activeRun hactive
      refine ⟨?_, hnear activeRun hactive, h.started activeRun hactive, h.backed activeRun hactive⟩
      rw [hprevious]
      exact hsorted last (mem_of_getLast? hlast)
  · rw [heq]
    have hstretch : lastStretch minOnline (done ++ [sample]) = [] ++ [sample] := by
      obtain ⟨last, -, hlast, hprevious⟩ := h.last activeRun hactive
      rw [hprevious] at hfar
      rw [lastStretch_concat, stretchStep, if_pos hhigh, hlast]
      exact if_neg hfar.not_ge
    exact .joined [] hhigh rfl hstretch fun _ hnone => absurd hnone.symm (Option.some_ne_none _)

/-! ### What is pushed -/

/-- A run is **stretched over a gap**: the run of the last stretch before an unknown or low count
qualifies with the gap in it, and part of the time behind the stretch and the gap allowed lies in
the window. -/
def StretchedOver (samples : List Sample) (windowStart windowEnd : ℚ) (minOnline : ℤ) : Prop :=
  ∃ before sample after activeRun last, samples = before ++ sample :: after ∧
    sample.atLeast minOnline = false ∧
    runOf (lastStretch minOnline before) = some activeRun ∧
    activeRun.qualifies sample.ts = true ∧ before.getLast? = some last ∧
    max (last.ts + suspectNearFlatMaxGapSecs) windowStart < min sample.ts windowEnd

theorem StretchedOver.concat (h : StretchedOver done ws we minOnline) :
    StretchedOver (done ++ [sample]) ws we minOnline := by
  obtain ⟨before, low, after, activeRun, last, rfl, hrest⟩ := h
  exact ⟨before, low, after ++ [sample], activeRun, last, by simp, hrest⟩

/-- Everything pushed is backed unless a run is stretched, and every run that is closed by an
unknown or low count and qualifies there is pushed. -/
structure NearFlatPushed (windowStart windowEnd : ℚ) (minOnline : ℤ) (done : List Sample)
    (pushed : List Interval) : Prop where
  backed : ∀ k t, CoveredBy pushed k t → Backed suspectNearFlatMaxGapSecs minOnline done t ∨
    StretchedOver done windowStart windowEnd minOnline
  closed : ∀ before low after activeRun, done = before ++ low :: after →
    low.atLeast minOnline = false → runOf (lastStretch minOnline before) = some activeRun →
    activeRun.qualifies low.ts = true → ∀ t ∈ Set.Ico windowStart windowEnd,
    t ∈ Set.Ico activeRun.start low.ts → CoveredBy pushed autoSuspect t

theorem NearFlatPushed.concat {pushed pushed' : List Interval}
    (h : NearFlatPushed ws we minOnline done pushed)
    (hkept : ∀ k t, CoveredBy pushed k t → CoveredBy pushed' k t)
    (hnew : ∀ k t, CoveredBy pushed' k t → CoveredBy pushed k t ∨
      Backed suspectNearFlatMaxGapSecs minOnline done t ∨
      StretchedOver (done ++ [sample]) ws we minOnline)
    (hclosed : sample.atLeast minOnline = false → ∀ activeRun,
      runOf (lastStretch minOnline done) = some activeRun →
      activeRun.qualifies sample.ts = true → ∀ t ∈ Set.Ico ws we,
      t ∈ Set.Ico activeRun.start sample.ts → CoveredBy pushed' autoSuspect t) :
    NearFlatPushed ws we minOnline (done ++ [sample]) pushed' := by
  have hsub : done ⊆ done ++ [sample] := subset_append_left done [sample]
  refine ⟨fun k t ht => ?_,
    fun before low after activeRun hdone hlow hrun hqualifies t ht ht' => ?_⟩
  · rcases hnew k t ht with hpushed | hbacked | hstretched
    · rcases h.backed k t hpushed with hbacked | hstretched
      · exact .inl (hbacked.mono hsub)
      · exact .inr hstretched.concat
    · exact .inl (hbacked.mono hsub)
    · exact .inr hstretched
  · rcases eq_nil_or_concat after with rfl | ⟨after', y, rfl⟩
    · obtain ⟨rfl, hsample⟩ := append_singleton_inj.mp hdone
      subst hsample
      exact hclosed hlow activeRun hrun hqualifies t ht ht'
    · rw [concat_eq_append, ← cons_append, ← append_assoc] at hdone
      obtain ⟨hdone, -⟩ := append_singleton_inj.mp hdone
      exact hkept _ _ (h.closed before low after' activeRun hdone hlow hrun hqualifies t ht ht')

theorem NearFlatInv.backed_or_far (h : NearFlatInv minOnline done run) {activeRun : NearFlatRun}
    (hactive : run = some activeRun) {t : ℚ} (hle : activeRun.start ≤ t) :
    Backed suspectNearFlatMaxGapSecs minOnline done t ∨
      activeRun.previousTs + suspectNearFlatMaxGapSecs < t := by
  rcases le_or_gt (t - activeRun.previousTs) suspectNearFlatMaxGapSecs with hnear | hfar
  · exact .inl (h.backed activeRun hactive t hle hnear)
  · exact .inr (by linarith)

theorem NearFlatPushed.step (hinv : NearFlatInv minOnline done st.run)
    (h : NearFlatPushed ws we minOnline done st.pushed) :
    NearFlatPushed ws we minOnline (done ++ [sample])
      (nearFlatStep ws we minOnline st sample).pushed := by
  rcases nearFlatStep_cases ws we minOnline st sample with
    ⟨hlow, heq⟩ | ⟨hhigh, -, heq⟩ | ⟨hhigh, activeRun, hactive, -, heq⟩
  · rw [heq]
    refine h.concat (fun k t ht => covered_pushNearFlat.mpr (.inr ht)) (fun k t ht => ?_)
      fun _ activeRun hrun hqualifies t ht ht' => ?_
    · rcases covered_pushNearFlat.mp ht with
        ⟨activeRun, hactive, hqualifies, -, hwindow, hle, hlt⟩ | hpushed
      · right
        refine (hinv.backed_or_far hactive hle).imp_right fun hfar => ?_
        obtain ⟨last, hlast, -, hprevious⟩ := hinv.last activeRun hactive
        refine ⟨done, sample, [], activeRun, last, rfl, hlow, hinv.eq ▸ hactive, hqualifies, hlast,
          max_lt ?_ ?_⟩
        · rw [← hprevious]
          exact lt_min (hfar.trans hlt) (hfar.trans hwindow.2)
        · exact lt_min (hwindow.1.trans_lt hlt) (hwindow.1.trans_lt hwindow.2)
      · exact .inl hpushed
    · exact covered_pushNearFlat.mpr
        (.inl ⟨activeRun, hinv.eq.trans hrun, hqualifies, rfl, ht, ht'⟩)
  · rw [heq]
    refine h.concat (fun k t ht => ht) (fun k t ht => .inl ht) fun hlow => ?_
    rw [hhigh] at hlow
    cases hlow
  · rw [heq]
    refine h.concat (fun k t ht => covered_pushNearFlat.mpr (.inr ht)) (fun k t ht => ?_)
      fun hlow => ?_
    · rcases covered_pushNearFlat.mp ht with ⟨other, hother, -, -, -, hle, hlt⟩ | hpushed
      · -- the run was cut at its last sample
        obtain rfl := Option.some.inj (hactive.symm.trans hother)
        refine .inr (.inl (hinv.backed activeRun hactive t hle ?_))
        linarith [nearFlatMaxGap_nonneg]
      · exact .inl hpushed
    · rw [hhigh] at hlow
      cases hlow

/-! ### The whole loop -/

theorem nearFlat_loop (ws we : ℚ) (minOnline : ℤ) {samples : List Sample}
    (hsorted : samples.Pairwise fun a b => a.ts ≤ b.ts) :
    let st := samples.foldl (nearFlatStep ws we minOnline) ⟨[], none⟩
    NearFlatInv minOnline samples st.run ∧
      NearFlatPushed ws we minOnline samples st.pushed := by
  refine foldl_invariant (P := fun done (st : NearFlat) => NearFlatInv minOnline done st.run ∧
    NearFlatPushed ws we minOnline done st.pushed) ⟨⟨rfl, fun _ => rfl, ?_, ?_, ?_⟩,
      ⟨fun k t ht => absurd ht not_covered_nil, ?_⟩⟩ fun done sample after st hl hinv => ?_
  · rintro _ ⟨⟩
  · rintro _ ⟨⟩
  · rintro _ ⟨⟩
  · intro before low after _ hdone
    exact absurd hdone (by simp)
  · refine ⟨hinv.1.step fun y hy => ?_, hinv.2.step hinv.1⟩
    rw [hl] at hsorted
    exact (pairwise_append.mp hsorted).2.2 y hy sample mem_cons_self

theorem runOf_start_le {samples : List Sample} {activeRun : NearFlatRun} {last : Sample}
    (hsorted : samples.Pairwise fun a b => a.ts ≤ b.ts)
    (hrun : runOf (lastStretch minOnline samples) = some activeRun)
    (hlast : samples.getLast? = some last) :
    activeRun.start ≤ last.ts + suspectNearFlatMaxGapSecs := by
  obtain ⟨hinv, -⟩ := nearFlat_loop 0 0 minOnline hsorted
  have hactive := hinv.eq.trans hrun
  obtain ⟨last', hlast', -, hprevious⟩ := hinv.last activeRun hactive
  obtain rfl := Option.some.inj (hlast.symm.trans hlast')
  have hstarted := hinv.started activeRun hactive
  linarith [nearFlatMaxGap_nonneg]

theorem covered_nearFlatPushed (hinv : NearFlatInv minOnline done st.run) {k : Label} {t : ℚ}
    (ht : CoveredBy (nearFlatPushed ws we st) k t) :
    CoveredBy st.pushed k t ∨ Backed suspectNearFlatMaxGapSecs minOnline done t := by
  rw [nearFlatPushed] at ht
  split at ht
  · exact .inl ht
  · rename_i activeRun hactive
    rcases covered_pushNearFlat.mp ht with ⟨other, hother, -, -, hwindow, hle, hlt⟩ | hpushed
    · obtain rfl := Option.some.inj (hactive.symm.trans hother)
      refine .inr (hinv.backed activeRun hactive t hle ?_)
      split at hlt
      · linarith [nearFlatMaxGap_nonneg]
      · rename_i hnear
        linarith
    · exact .inl hpushed

theorem covered_nearFlatPushed_of_pushed {k : Label} {t : ℚ} (ht : CoveredBy st.pushed k t) :
    CoveredBy (nearFlatPushed ws we st) k t := by
  rw [nearFlatPushed]
  split
  · exact ht
  · exact covered_pushNearFlat.mpr (.inr ht)

omit [F64] in
/-- Behind the gap after the last sample with enough players nothing is backed before the next
one. -/
theorem not_backed_of_gap {before after : List Sample} {low last : Sample} {maxGap t : ℚ}
    (hsorted : (before ++ low :: after).Pairwise fun a b => a.ts ≤ b.ts)
    (hlow : low.atLeast minOnline = false) (hlast : before.getLast? = some last)
    (hgap : last.ts + maxGap < t) (hlt : t < low.ts) :
    ¬ Backed maxGap minOnline (before ++ low :: after) t := by
  obtain ⟨hbefore, hafter, -⟩ := pairwise_append.mp hsorted
  rintro ⟨sample, hsample, hhigh, hle, hnear⟩
  rcases mem_append.mp hsample with hmem | hmem
  · have hts := ts_le_last hbefore hlast sample hmem
    linarith
  · rcases mem_cons.mp hmem with rfl | hmem
    · rw [hlow] at hhigh
      cases hhigh
    · have hts := rel_of_pairwise_cons hafter hmem
      exact absurd (hlt.trans_le (hts.trans hle)) (lt_irrefl _)

end

/-- **What is flagged is backed by data exactly when no run is stretched over a gap**, however the
detector's arithmetic is rounded. -/
theorem nearFlat_backed_iff (samples : List Sample)
    (hsorted : samples.Pairwise fun a b => a.ts ≤ b.ts) (windowStart windowEnd : ℚ)
    (stagnantMinOnline : ℤ) (hpos : 0 < stagnantMinOnline) :
    (∀ t, Flagged
        (buildNearFlatSuspectIntervals samples windowStart windowEnd stagnantMinOnline) t →
      Backed suspectNearFlatMaxGapSecs (max stagnantMinOnline suspectNearFlatMinOnline) samples t) ↔
    ¬ StretchedOver samples windowStart windowEnd
      (max stagnantMinOnline suspectNearFlatMinOnline) := by
  rw [buildNearFlatSuspectIntervals]
  split
  · rename_i hshort
    refine iff_of_true (fun t ht => ?_) ?_
    · obtain ⟨iv, hiv, -⟩ := ht
      cases hiv
    · rintro ⟨before, low, after, _, last, rfl, -, -, -, hlast, -⟩
      have hne : before ≠ [] := ne_nil_of_mem (mem_of_getLast? hlast)
      have hlength : 0 < before.length := length_pos_iff.mpr hne
      rw [length_append, length_cons] at hshort
      omega
  · obtain ⟨hinv, hpushed⟩ := nearFlat_loop windowStart windowEnd
      (max stagnantMinOnline suspectNearFlatMinOnline) hsorted
    simp only [flagged_iff]
    constructor
    · rintro hall ⟨before, low, after, activeRun, last, rfl, hlow, hrun, hqualifies, hlast, hlt⟩
      obtain ⟨t, ht, htend⟩ := exists_between hlt
      obtain ⟨htgap, htwindow⟩ := max_lt_iff.mp ht
      obtain ⟨htlow, htend⟩ := lt_min_iff.mp htend
      refine not_backed_of_gap hsorted hlow hlast htgap htlow (hall t ⟨autoSuspect, ?_⟩)
      refine covered_nearFlatPushed_of_pushed (hpushed.closed before low after activeRun rfl hlow
        hrun hqualifies t ⟨htwindow.le, htend⟩ ⟨?_, htlow⟩)
      exact ((runOf_start_le (pairwise_append.mp hsorted).1 hrun hlast).trans_lt htgap).le
    · rintro hnot t ⟨k, ht⟩
      rcases covered_nearFlatPushed hinv ht with hcovered | hbacked
      · exact (hpushed.backed k t hcovered).resolve_right hnot
      · exact hbacked

/-- Arithmetic without rounding. -/
abbrev F64.exact : F64 := ⟨id⟩

omit [F64] in
/-- A hundred players at each half hour of twelve hours. -/
theorem nearFlat_backed_twelve_hours :
    letI := F64.exact
    let samples : List Sample :=
      (range 25).map fun n => ⟨1800 * n, some 100, false, false⟩
    Flagged (buildNearFlatSuspectIntervals samples 0 43200 10) 43000 ∧
      ∀ t, Flagged (buildNearFlatSuspectIntervals samples 0 43200 10) t →
        Backed suspectNearFlatMaxGapSecs (max 10 suspectNearFlatMinOnline) samples t := by
  intro samples
  have hsorted : samples.Pairwise fun a b => a.ts ≤ b.ts := by
    decide +kernel
  refine ⟨by decide +kernel,
    (@nearFlat_backed_iff F64.exact samples hsorted 0 43200 10 (by decide)).mpr ?_⟩
  rintro ⟨before, low, after, _, _, hsamples, hlow, -⟩
  have hhigh : ∀ sample ∈ samples, sample.atLeast (max 10 suspectNearFlatMinOnline) = true := by
    decide +kernel
  rw [hhigh low (by simp [hsamples])] at hlow
  cases hlow

omit [F64] in
/-- A hundred players at midnight and a minute later, and an unknown count thirteen hours later:
noon is flagged. -/
theorem nearFlat_flags_unbacked :
    letI := F64.exact
    Flagged (buildNearFlatSuspectIntervals [⟨0, some 100, false, false⟩,
        ⟨60, some 100, false, false⟩, ⟨46800, none, false, false⟩] 0 86400 10) 43200 ∧
      ¬ Backed suspectNearFlatMaxGapSecs (max 10 suspectNearFlatMinOnline)
        [⟨0, some 100, false, false⟩, ⟨60, some 100, false, false⟩,
          ⟨46800, none, false, false⟩] 43200 := by
  decide +kernel

end ServiceToolkit.Segments
