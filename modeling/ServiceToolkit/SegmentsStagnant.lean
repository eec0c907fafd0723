import Mathlib.Algebra.Field.Rat
import Mathlib.Algebra.Order.Field.Basic
import Mathlib.Data.List.Chain
import Mathlib.Tactic.Linarith
import ServiceToolkit.SegmentsClassify

/-!
# Stagnant Counts

What `build_stagnant_suspect_intervals` flags is compared with the samples it was given: a
**block** is a stretch of samples that report one same count, with no gap too wide.

The run the loop is in is the longest block that ends the samples seen (`StagnantRun`). From
this follow both directions (`stagnant_backed_iff`, `stagnant_misses_nothing`).
-/

namespace ServiceToolkit.Segments

open Coverage List Option

/-- The sample reports at least the count. -/
def Sample.atLeast (minOnline : ℤ) (sample : Sample) : Bool :=
  sample.online.any fun online => decide (minOnline ≤ online)

theorem atLeast_iff {minOnline : ℤ} {sample : Sample} : sample.atLeast minOnline = true ↔
      ∃ online, sample.online = some online ∧ minOnline ≤ online := by
  cases h : sample.online <;> simp [Sample.atLeast, h]

/-- An instant is **backed** by data: a sample with at least the count is at most the gap
before it. -/
def Backed (maxGap : ℚ) (minOnline : ℤ) (samples : List Sample) (t : ℚ) : Prop :=
  ∃ sample ∈ samples, sample.atLeast minOnline = true ∧ sample.ts ≤ t ∧ t - sample.ts ≤ maxGap

instance (maxGap : ℚ) (minOnline : ℤ) (samples : List Sample) (t : ℚ) :
    Decidable (Backed maxGap minOnline samples t) :=
  inferInstanceAs (Decidable (∃ sample ∈ samples,
    sample.atLeast minOnline = true ∧ sample.ts ≤ t ∧ t - sample.ts ≤ maxGap))

theorem Backed.mono {maxGap : ℚ} {minOnline : ℤ} {samples samples' : List Sample} {t : ℚ}
    (h : Backed maxGap minOnline samples t) (hsub : samples ⊆ samples') :
    Backed maxGap minOnline samples' t := by
  obtain ⟨sample, hsample, hbacks⟩ := h
  exact ⟨sample, hsub hsample, hbacks⟩

/-- A **block**: samples with one same count of at least the minimum and no gap too wide. -/
structure StagnantBlock (minOnline online : ℤ) (block : List Sample) : Prop where
  enough : minOnline ≤ online
  same : ∀ sample ∈ block, sample.online = some online
  gaps : block.IsChain fun a b => b.ts - a.ts ≤ suspectStagnantMaxGapSecs

section

variable {minOnline online : ℤ} {block : List Sample} {sample : Sample}

theorem StagnantBlock.singleton (henough : minOnline ≤ online)
    (hsample : sample.online = some online) : StagnantBlock minOnline online [sample] :=
  ⟨henough, by simpa using hsample, isChain_singleton sample⟩

theorem stagnantBlock_concat : StagnantBlock minOnline online (block ++ [sample]) ↔
      StagnantBlock minOnline online block ∧ sample.online = some online ∧
        ∀ last ∈ block.getLast?, sample.ts - last.ts ≤ suspectStagnantMaxGapSecs := by
  constructor
  · rintro ⟨henough, hsame, hgaps⟩
    obtain ⟨hblock, -, hlast⟩ := isChain_append.mp hgaps
    rw [forall_mem_append, forall_mem_singleton] at hsame
    exact ⟨⟨henough, hsame.1, hblock⟩, hsame.2, fun last h => hlast last h sample rfl⟩
  · rintro ⟨⟨henough, hsame, hgaps⟩, hsample, hlast⟩
    refine ⟨henough, forall_mem_append.mpr ⟨hsame, by simpa using hsample⟩,
      isChain_append.mpr ⟨hgaps, isChain_singleton sample, ?_⟩⟩
    rintro last hmem _ ⟨⟩
    exact hlast last hmem

end

/-! ### An iteration -/

theorem covered_pushStagnant {pushed : List Interval} {runValue : Option ℤ} {k : Label}
    {runStart runEnd ws we t : ℚ} {minOnline : ℤ} :
    CoveredBy (pushStagnantSuspectRun pushed runValue runStart runEnd ws we
        minOnline) k t ↔
      ((∃ online ∈ runValue, minOnline ≤ online) ∧
        suspectStagnantMinDurationSecs ≤ runEnd - runStart ∧ k = autoSuspect ∧
        t ∈ Set.Ico ws we ∧ t ∈ Set.Ico runStart runEnd) ∨
      CoveredBy pushed k t := by
  cases runValue with
  | none => simp [pushStagnantSuspectRun]
  | some online =>
    rw [pushStagnantSuspectRun]
    split
    · rename_i h
      have hnot : ¬ (minOnline ≤ online ∧ suspectStagnantMinDurationSecs ≤ runEnd - runStart) := by
        rintro ⟨henough, hlong⟩
        exact h.elim henough.not_gt hlong.not_gt
      constructor
      · exact .inr
      · rintro (⟨⟨_, ⟨⟩, henough⟩, hlong, -⟩ | hpushed)
        · exact absurd ⟨henough, hlong⟩ hnot
        · exact hpushed
    · rename_i h
      rw [not_or, not_lt, not_lt] at h
      rw [covered_push]
      simp [h.1, h.2]

/-- **An iteration** continues the run, or closes it and may start one. The run ends where the
sample is, and at the sample before when the gap is too wide. -/
theorem stagnantStep_cases (ws we : ℚ) (minOnline : ℤ) (st : Stagnant) (current : Sample) :
    (∃ online, st.runValue = some online ∧ current.online = some online ∧
      current.ts - st.previousTs ≤ suspectStagnantMaxGapSecs ∧
      stagnantStep ws we minOnline st current =
        { st with previousTs := current.ts }) ∨
    ((∀ online, st.runValue = some online → current.online = some online →
        ¬ current.ts - st.previousTs ≤ suspectStagnantMaxGapSecs) ∧
      ∃ runEnd, (runEnd = st.previousTs ∨ (runEnd = current.ts ∧ (st.runValue.isSome = true →
          current.ts - st.previousTs ≤ suspectStagnantMaxGapSecs))) ∧
        stagnantStep ws we minOnline st current =
          stagnantFrom minOnline (pushStagnantSuspectRun st.pushed st.runValue st.runStart runEnd
            ws we minOnline) current) := by
  rw [stagnantStep]
  split
  · rename_i hsame
    left
    rw [sameValue.eq_def] at hsame
    split at hsame
    · rename_i runOnline online hrun honline
      rw [Bool.and_eq_true, beq_iff_eq, decide_eq_true_eq] at hsame
      obtain ⟨rfl, hgap⟩ := hsame
      exact ⟨runOnline, hrun, honline, hgap, rfl⟩
    · cases hsame
  · rename_i hsame
    right
    refine ⟨fun online hrun honline hgap => hsame ?_, _, ?_, rfl⟩
    · simp [sameValue, hrun, honline, hgap]
    · split
      · exact .inl rfl
      · rename_i hgap
        rw [not_and, not_lt] at hgap
        exact .inr ⟨rfl, hgap⟩

theorem stagnantFrom_spec (minOnline : ℤ) (pushed : List Interval) (sample : Sample) :
    (stagnantFrom minOnline pushed sample).previousTs = sample.ts ∧
      (∀ online, (stagnantFrom minOnline pushed sample).runValue = some online ↔
        sample.online = some online ∧ minOnline ≤ online) ∧
      ((stagnantFrom minOnline pushed sample).runValue.isSome = true →
        (stagnantFrom minOnline pushed sample).runStart = sample.ts) := by
  cases honline : sample.online with
  | none => simp [stagnantFrom, honline]
  | some online =>
    by_cases henough : minOnline ≤ online
    · simp only [stagnantFrom, honline, ge_iff_le, henough, if_true, some.injEq,
        implies_true, true_and, and_true]
      rintro _
      constructor
      · rintro rfl
        exact ⟨rfl, henough⟩
      · exact fun h => h.1
    · simp only [stagnantFrom, honline, ge_iff_le, henough, if_false, some.injEq,
        reduceCtorEq, false_iff, not_and, isSome_none, Bool.false_eq_true,
        false_imp_iff, and_true, true_and]
      rintro _ rfl
      exact henough

/-! ### The run of the loop -/

/-- The **run** the loop is in after the samples `done`: a block that ends them, and every block
that ends them lies in it. -/
structure StagnantRun (minOnline : ℤ) (done : List Sample) (st : Stagnant) : Prop where
  last : ∃ sample, done.getLast? = some sample ∧ st.previousTs = sample.ts
  run : ∀ online, st.runValue = some online → ∃ block first, block <:+ done ∧
    StagnantBlock minOnline online block ∧ block.head? = some first ∧ st.runStart = first.ts
  started : st.runValue.isSome = true → st.runStart ≤ st.previousTs
  ending : ∀ block online first, block <:+ done → StagnantBlock minOnline online block →
    block.head? = some first → st.runValue = some online ∧ st.runStart ≤ first.ts

section

variable {ws we : ℚ} {minOnline : ℤ} {done : List Sample} {st : Stagnant}
  {current : Sample}

theorem StagnantRun.enough (h : StagnantRun minOnline done st)
    (hsome : st.runValue.isSome = true) : ∃ online ∈ st.runValue, minOnline ≤ online := by
  obtain ⟨online, honline⟩ := isSome_iff_exists.mp hsome
  obtain ⟨_, _, -, hblock, -⟩ := h.run online honline
  exact ⟨online, honline, hblock.enough⟩

theorem StagnantRun.previous_le (h : StagnantRun minOnline done st)
    (hsorted : ∀ sample ∈ done, sample.ts ≤ current.ts) : st.previousTs ≤ current.ts := by
  obtain ⟨sample, hlast, hprevious⟩ := h.last
  rw [hprevious]
  exact hsorted sample (mem_of_getLast? hlast)

theorem StagnantBlock.split {online : ℤ} {block : List Sample} {first : Sample}
    (hblock : StagnantBlock minOnline online block) (hsuffix : block <:+ done ++ [current])
    (hfirst : block.head? = some first) :
    current.online = some online ∧ (first = current ∨ ∃ block', block' <:+ done ∧
      StagnantBlock minOnline online block' ∧ block'.head? = some first ∧
      ∀ last ∈ done.getLast?, current.ts - last.ts ≤ suspectStagnantMaxGapSecs) := by
  rcases suffix_concat_iff.mp hsuffix with rfl | ⟨block', rfl, hsuffix'⟩
  · cases hfirst
  · obtain ⟨hblock', honline, hlast⟩ := stagnantBlock_concat.mp hblock
    refine ⟨honline, ?_⟩
    cases block' with
    | nil => exact .inl (some.inj hfirst).symm
    | cons x rest =>
      refine .inr ⟨x :: rest, hsuffix', hblock', hfirst, fun last hmem => hlast last ?_⟩
      obtain ⟨before, rfl⟩ := hsuffix'
      rw [getLast?_append] at hmem
      cases hl : (x :: rest).getLast? with
      | none => cases getLast?_eq_none_iff.mp hl
      | some y => rwa [hl] at hmem

theorem StagnantRun.start (pushed : List Interval)
    (hending : ∀ block online, block <:+ done → StagnantBlock minOnline online block →
      block ≠ [] → current.online = some online →
      ∃ last ∈ done.getLast?, ¬ current.ts - last.ts ≤ suspectStagnantMaxGapSecs) :
    StagnantRun minOnline (done ++ [current]) (stagnantFrom minOnline pushed current) := by
  obtain ⟨hprevious, hvalue, hstart⟩ := stagnantFrom_spec minOnline pushed current
  refine ⟨⟨current, by simp, hprevious⟩, fun online honline => ?_, fun hsome => ?_, ?_⟩
  · obtain ⟨hcurrent, henough⟩ := (hvalue online).mp honline
    exact ⟨[current], current, suffix_append done [current], .singleton henough hcurrent, rfl,
      hstart (isSome_of_eq_some honline)⟩
  · rw [hstart hsome, hprevious]
  · intro block online first hsuffix hblock hfirst
    obtain ⟨honline, rfl | ⟨block', hsuffix', hblock', hfirst', hgap⟩⟩ :=
      hblock.split hsuffix hfirst
    · have hsome := (hvalue online).mpr ⟨honline, hblock.enough⟩
      exact ⟨hsome, (hstart (isSome_of_eq_some hsome)).le⟩
    · have hne : block' ≠ [] := by
        rintro rfl
        cases hfirst'
      obtain ⟨last, hlast, hwide⟩ := hending block' online hsuffix' hblock' hne honline
      exact absurd (hgap last hlast) hwide

theorem StagnantRun.step (h : StagnantRun minOnline done st)
    (hsorted : ∀ sample ∈ done, sample.ts ≤ current.ts) : StagnantRun minOnline (done ++ [current])
      (stagnantStep ws we minOnline st current) := by
  obtain ⟨last, hlast, hprevious⟩ := h.last
  rcases stagnantStep_cases ws we minOnline st current with
    ⟨online, hrun, honline, hgap, heq⟩ | ⟨hwide, runEnd, -, heq⟩
  · rw [heq]
    refine ⟨⟨current, by simp, rfl⟩, fun online' honline' => ?_, fun hsome => ?_, ?_⟩
    · obtain ⟨block, first, hsuffix, hblock, hfirst, hstart⟩ := h.run online' honline'
      have heq' : online = online' := some.inj (hrun.symm.trans honline')
      refine ⟨block ++ [current], first, ?_, ?_, ?_, hstart⟩
      · exact suffix_concat_iff.mpr (.inr ⟨block, rfl, hsuffix⟩)
      · refine stagnantBlock_concat.mpr ⟨hblock, heq' ▸ honline, fun x hx => ?_⟩
        obtain ⟨before, rfl⟩ := hsuffix
        rw [getLast?_append, hx] at hlast
        cases hlast
        rwa [← hprevious]
      · rw [head?_append, hfirst]
        rfl
    · exact (h.started hsome).trans (h.previous_le hsorted)
    · intro block online' first hsuffix hblock hfirst
      obtain ⟨honline', rfl | ⟨block', hsuffix', hblock', hfirst', -⟩⟩ :=
        hblock.split hsuffix hfirst
      · have hsome := isSome_of_eq_some hrun
        rw [honline] at honline'
        exact ⟨hrun.trans honline', (h.started hsome).trans (h.previous_le hsorted)⟩
      · exact h.ending block' online' first hsuffix' hblock' hfirst'
  · rw [heq]
    refine .start _ fun block online hsuffix hblock hne honline => ?_
    obtain ⟨first, hfirst⟩ := isSome_iff_exists.mp (isSome_head?.mpr hne)
    obtain ⟨hrun, -⟩ := h.ending block online first hsuffix hblock hfirst
    exact ⟨last, hlast, hprevious ▸ hwide online hrun honline⟩

/-! ### What is flagged is backed -/

/-- Everything pushed is **backed**, and so is the run up to the gap after its last sample. -/
structure StagnantBacked (minOnline : ℤ) (done : List Sample) (st : Stagnant) : Prop where
  pushed : ∀ k t, CoveredBy st.pushed k t → Backed suspectStagnantMaxGapSecs minOnline done t
  run : st.runValue.isSome = true → ∀ t, st.runStart ≤ t →
    t - st.previousTs ≤ suspectStagnantMaxGapSecs →
    Backed suspectStagnantMaxGapSecs minOnline done t

theorem StagnantBacked.start {pushed : List Interval} (h : ∀ k t, CoveredBy pushed k t →
      Backed suspectStagnantMaxGapSecs minOnline (done ++ [current]) t) :
    StagnantBacked minOnline (done ++ [current]) (stagnantFrom minOnline pushed current) := by
  obtain ⟨hprevious, hvalue, hstart⟩ := stagnantFrom_spec minOnline pushed current
  refine ⟨?_, fun hsome t hle hgap => ?_⟩
  · rwa [pushed_stagnantFrom]
  · obtain ⟨online, honline⟩ := isSome_iff_exists.mp hsome
    rw [hstart hsome] at hle
    rw [hprevious] at hgap
    exact ⟨current, by simp, atLeast_iff.mpr ⟨online, (hvalue online).mp honline⟩, hle, hgap⟩

theorem StagnantBacked.step (hrun : StagnantRun minOnline done st)
    (h : StagnantBacked minOnline done st) : StagnantBacked minOnline (done ++ [current])
      (stagnantStep ws we minOnline st current) := by
  have hsub : done ⊆ done ++ [current] := subset_append_left done [current]
  rcases stagnantStep_cases ws we minOnline st current with
    ⟨online, hvalue, honline, hgap, heq⟩ | ⟨-, runEnd, hend, heq⟩
  · have hsome := isSome_of_eq_some hvalue
    rw [heq]
    refine ⟨fun k t ht => (h.pushed k t ht).mono hsub, fun _ t hle hgap' => ?_⟩
    rcases le_or_gt (t - st.previousTs) suspectStagnantMaxGapSecs with hnear | hfar
    · exact (h.run hsome t hle hnear).mono hsub
    · obtain ⟨_, honline', henough⟩ := hrun.enough hsome
      obtain rfl : online = _ := some.inj (hvalue.symm.trans honline')
      refine ⟨current, by simp, atLeast_iff.mpr ⟨online, honline, henough⟩, ?_, hgap'⟩
      linarith
  · rw [heq]
    refine .start fun k t ht => ?_
    rcases covered_pushStagnant.mp ht with ⟨⟨online, hvalue, -⟩, -, -, -, hle, hlt⟩ | hpushed
    · have hsome := isSome_of_eq_some hvalue
      refine (h.run hsome t hle ?_).mono hsub
      rcases hend with rfl | ⟨rfl, hgap⟩
      · have hpos : (0 : ℚ) ≤ suspectStagnantMaxGapSecs := by
          norm_num [suspectStagnantMaxGapSecs]
        linarith
      · linarith [hgap hsome]
    · exact (h.pushed k t hpushed).mono hsub

/-! ### Nothing is missed -/

/-- A block within the samples, from `first` to `last`, that **lasts long enough**. -/
structure LongBlock (minOnline : ℤ) (samples block : List Sample) (first last : Sample) :
    Prop where
  within : block <:+: samples
  steady : ∃ online, StagnantBlock minOnline online block
  starts : block.head? = some first
  ends : block.getLast? = some last
  long : suspectStagnantMinDurationSecs ≤ last.ts - first.ts

/-- Every block that lasts long enough is flagged, or the run the loop is in will flag it. -/
def StagnantFound (windowStart windowEnd : ℚ) (minOnline : ℤ) (done : List Sample)
    (st : Stagnant) : Prop :=
  ∀ block first last, LongBlock minOnline done block first last →
    ∀ t ∈ Set.Ico windowStart windowEnd, t ∈ Set.Ico first.ts last.ts →
    CoveredBy st.pushed autoSuspect t ∨
      (st.runValue.isSome = true ∧ st.runStart ≤ first.ts ∧ last.ts ≤ st.previousTs)

theorem StagnantRun.covers (hrun : StagnantRun minOnline done st) {first last : Sample}
    {runEnd t : ℚ} (ht : t ∈ Set.Ico ws we) (ht' : t ∈ Set.Ico first.ts last.ts)
    (hlong : suspectStagnantMinDurationSecs ≤ last.ts - first.ts)
    (hfound : CoveredBy st.pushed autoSuspect t ∨
      (st.runValue.isSome = true ∧ st.runStart ≤ first.ts ∧ last.ts ≤ st.previousTs))
    (hend : st.previousTs ≤ runEnd) :
    CoveredBy (pushStagnantSuspectRun st.pushed st.runValue st.runStart runEnd ws
      we minOnline) autoSuspect t := by
  rw [covered_pushStagnant]
  rcases hfound with hpushed | ⟨hsome, hstart, hlast⟩
  · exact .inr hpushed
  · refine .inl ⟨hrun.enough hsome, ?_, rfl, ht, hstart.trans ht'.1,
      ht'.2.trans_le (hlast.trans hend)⟩
    linarith

theorem StagnantFound.step (hrun : StagnantRun minOnline done st)
    (hsorted : ∀ sample ∈ done, sample.ts ≤ current.ts)
    (h : StagnantFound ws we minOnline done st) : StagnantFound ws we minOnline (done ++ [current])
      (stagnantStep ws we minOnline st current) := by
  intro block first last hblock t ht ht'
  have hrun' : StagnantRun minOnline (done ++ [current])
      (stagnantStep ws we minOnline st current) := hrun.step hsorted
  rcases infix_concat_iff.mp hblock.within with hsuffix | hinfix
  · -- the block ends at the sample, so it lies in the run
    obtain ⟨online, honline⟩ := hblock.steady
    obtain ⟨hvalue, hstart⟩ := hrun'.ending block online first hsuffix honline hblock.starts
    refine .inr ⟨isSome_of_eq_some hvalue, hstart, ?_⟩
    obtain ⟨sample, hlast, hprevious⟩ := hrun'.last
    obtain ⟨before, hbefore⟩ := hsuffix
    rw [← hbefore, getLast?_append, hblock.ends] at hlast
    cases hlast
    exact hprevious.ge
  · have hfound := h block first last { hblock with within := hinfix } t ht ht'
    have hle : st.previousTs ≤ current.ts := hrun.previous_le hsorted
    rcases stagnantStep_cases ws we minOnline st current with
      ⟨online, -, -, -, heq⟩ | ⟨-, runEnd, hend, heq⟩
    · rw [heq]
      exact hfound.imp_right fun hopen => ⟨hopen.1, hopen.2.1, hopen.2.2.trans hle⟩
    · rw [heq, pushed_stagnantFrom]
      refine .inl (hrun.covers ht ht' hblock.long hfound ?_)
      rcases hend with rfl | ⟨rfl, -⟩
      · exact le_rfl
      · exact hle

end

/-! ### The whole loop -/

/-- The instant lies in one of the intervals. -/
def Flagged (intervals : List Interval) (t : ℚ) : Prop :=
  ∃ iv ∈ intervals, t ∈ Set.Ico iv.startsAt iv.endsAt

instance (intervals : List Interval) (t : ℚ) : Decidable (Flagged intervals t) :=
  inferInstanceAs (Decidable (∃ iv ∈ intervals, iv.startsAt ≤ t ∧ t < iv.endsAt))

section

variable {samples : List Sample} {ws we : ℚ} {minOnline : ℤ}

theorem flagged_iff {pushed : List Interval} {t : ℚ} :
    Flagged (mergeIntervals pushed.reverse) t ↔ ∃ k, CoveredBy pushed k t := by
  have hlabels : ∀ {l : List Interval}, Flagged l t ↔ ∃ k, CoveredBy l k t := by
    intro l
    constructor
    · rintro ⟨iv, hiv, ht⟩
      exact ⟨iv.label, iv, hiv, rfl, ht⟩
    · rintro ⟨k, iv, hiv, -, ht⟩
      exact ⟨iv, hiv, ht⟩
  rw [hlabels]
  exact exists_congr fun k => by rw [covered_mergeIntervals, coveredBy_reverse]

theorem stagnant_loop (ws we : ℚ) {first second : Sample} {rest : List Sample}
    (hsorted : (first :: second :: rest).Pairwise fun a b => a.ts ≤ b.ts) (hpos : 0 < minOnline) :
    ∃ st, StagnantRun minOnline (first :: second :: rest) st ∧
      StagnantBacked minOnline (first :: second :: rest) st ∧
      StagnantFound ws we minOnline (first :: second :: rest) st ∧
      buildStagnantSuspectIntervals (first :: second :: rest) ws we minOnline =
        mergeIntervals (pushStagnantSuspectRun st.pushed st.runValue st.runStart we
          ws we minOnline).reverse := by
  have hinv := foldl_invariant (P := fun done st => StagnantRun minOnline (first :: done) st ∧
      StagnantBacked minOnline (first :: done) st ∧
      StagnantFound ws we minOnline (first :: done) st)
    (f := stagnantStep ws we minOnline)
    (b := stagnantFrom minOnline [] first) (l := second :: rest) ?_ ?_
  · refine ⟨_, hinv.1, hinv.2.1, hinv.2.2, ?_⟩
    rw [buildStagnantSuspectIntervals, if_neg hpos.not_ge]
  · have hrun : StagnantRun minOnline ([] ++ [first]) (stagnantFrom minOnline [] first) :=
      .start [] fun block online hsuffix _ hne _ => absurd (suffix_nil.mp hsuffix) hne
    have hbacked : StagnantBacked minOnline ([] ++ [first]) (stagnantFrom minOnline [] first) :=
      .start fun k t ht => absurd ht not_covered_nil
    refine ⟨hrun, hbacked, ?_⟩
    intro block x y hblock t _ ht
    have hx : x = first := by simpa using hblock.within.subset (mem_of_head? hblock.starts)
    have hy : y = first := by simpa using hblock.within.subset (mem_of_getLast? hblock.ends)
    rw [hx, hy] at ht
    exact absurd (ht.1.trans_lt ht.2) (lt_irrefl _)
  · intro done current after st hl hinv
    obtain ⟨hrun, hbacked, hfound⟩ := hinv
    have hsorted' : ∀ sample ∈ first :: done, sample.ts ≤ current.ts := by
      rw [hl, ← cons_append] at hsorted
      exact fun sample hs => (pairwise_append.mp hsorted).2.2 sample hs current mem_cons_self
    exact ⟨hrun.step hsorted', hbacked.step hrun, hfound.step hrun hsorted'⟩

theorem ts_le_last (hsorted : samples.Pairwise fun a b => a.ts ≤ b.ts) {last : Sample}
    (hlast : samples.getLast? = some last) : ∀ sample ∈ samples, sample.ts ≤ last.ts := by
  obtain ⟨before, rfl⟩ := getLast?_eq_some_iff.mp hlast
  intro sample hsample
  rcases mem_append.mp hsample with hmem | hmem
  · exact (pairwise_append.mp hsorted).2.2 sample hmem last mem_cons_self
  · rw [mem_singleton.mp hmem]

/-- The run that is open at the end is **stretched** to the end of the window: the window ends
more than the gap after the last sample, and a block that ends the samples started the minimal
duration before that. -/
def StretchedEnd (samples : List Sample) (windowStart windowEnd : ℚ) (minOnline : ℤ) : Prop :=
  2 ≤ samples.length ∧ windowStart < windowEnd ∧
  (∃ last ∈ samples.getLast?, suspectStagnantMaxGapSecs < windowEnd - last.ts) ∧
  ∃ block online first, block <:+ samples ∧ StagnantBlock minOnline online block ∧
    block.head? = some first ∧ suspectStagnantMinDurationSecs ≤ windowEnd - first.ts

end

/-- **What is flagged is backed by data exactly when the last run is not stretched.** -/
theorem stagnant_backed_iff (samples : List Sample)
    (hsorted : samples.Pairwise fun a b => a.ts ≤ b.ts) (windowStart windowEnd : ℚ)
    (stagnantMinOnline : ℤ) (hpos : 0 < stagnantMinOnline) :
    (∀ t, Flagged
        (buildStagnantSuspectIntervals samples windowStart windowEnd stagnantMinOnline) t →
      Backed suspectStagnantMaxGapSecs stagnantMinOnline samples t) ↔
    ¬ StretchedEnd samples windowStart windowEnd stagnantMinOnline := by
  match samples with
  | [] => simp [buildStagnantSuspectIntervals, Flagged, StretchedEnd]
  | [_] => simp [buildStagnantSuspectIntervals, Flagged, StretchedEnd]
  | first :: second :: rest =>
    obtain ⟨st, hrun, hbacked, -, heq⟩ := stagnant_loop windowStart windowEnd hsorted hpos
    obtain ⟨last, hlast, hprevious⟩ := hrun.last
    simp only [heq, flagged_iff, covered_pushStagnant]
    constructor
    · rintro hall ⟨-, hwindow, ⟨_, hlast', hgap⟩, block, online, x, hsuffix, hblock, hx, hlong⟩
      obtain rfl : last = _ := some.inj (hlast.symm.trans hlast')
      obtain ⟨hvalue, hstart⟩ := hrun.ending block online x hsuffix hblock hx
      have hsome := isSome_of_eq_some hvalue
      have hle := hrun.started hsome
      -- an instant of the window between the last sample's gap and the end
      obtain ⟨t, htgap, htend⟩ := exists_between
        (show max windowStart (last.ts + suspectStagnantMaxGapSecs) < windowEnd from
          max_lt hwindow (by linarith))
      obtain ⟨htwindow, htlast⟩ := max_lt_iff.mp htgap
      have hgap_pos : (0 : ℚ) < suspectStagnantMaxGapSecs := by
        norm_num [suspectStagnantMaxGapSecs]
      obtain ⟨sample, hsample, -, -, hnear⟩ := hall t ⟨autoSuspect, .inl ⟨hrun.enough hsome,
        by linarith, rfl, ⟨htwindow.le, htend⟩, by linarith, htend⟩⟩
      have hts := ts_le_last hsorted hlast sample hsample
      linarith
    · rintro hnot t ⟨k, ⟨⟨online, hvalue, -⟩, hlong, -, hwindow, hle, hlt⟩ | hpushed⟩
      · have hsome := isSome_of_eq_some hvalue
        refine hbacked.run hsome t hle (le_of_not_gt fun hfar => hnot ?_)
        obtain ⟨block, x, hsuffix, hblock, hx, hstart⟩ := hrun.run online hvalue
        refine ⟨by simp, hwindow.1.trans_lt hwindow.2, ⟨last, hlast, by linarith⟩, block, online,
          x, hsuffix, hblock, hx, ?_⟩
        rwa [← hstart]
      · exact hbacked.pushed k t hpushed

/-- Twenty players at each half hour of a window of six hours. -/
theorem stagnant_backed_six_hours :
    let samples : List Sample :=
      (range 13).map fun n => ⟨1800 * n, some 20, false, false⟩
    Flagged (buildStagnantSuspectIntervals samples 0 21600 10) 21000 ∧
      ∀ t, Flagged (buildStagnantSuspectIntervals samples 0 21600 10) t →
        Backed suspectStagnantMaxGapSecs 10 samples t := by
  intro samples
  refine ⟨by decide +kernel,
    (stagnant_backed_iff samples (by decide +kernel) 0 21600 10 (by decide)).mpr ?_⟩
  rintro ⟨-, -, ⟨last, hlast, hgap⟩, -⟩
  have hts : samples.getLast? = some ⟨21600, some 20, false, false⟩ := by decide +kernel
  obtain rfl := some.inj (hlast.symm.trans hts)
  norm_num [suspectStagnantMaxGapSecs] at hgap

/-- Two samples a minute apart, and none in the rest of the day: noon is flagged. -/
theorem stagnant_flags_unbacked :
    Flagged (buildStagnantSuspectIntervals
        [⟨0, some 10, false, false⟩, ⟨60, some 10, false, false⟩] 0 86400 10) 43200 ∧
      ¬ Backed suspectStagnantMaxGapSecs 10
        [⟨0, some 10, false, false⟩, ⟨60, some 10, false, false⟩] 43200 := by
  decide +kernel

/-- **Nothing is missed**: each block of one same count that lasts long enough is flagged from
its first sample to its last, as far as it lies in the window. -/
theorem stagnant_misses_nothing (samples : List Sample)
    (hsorted : samples.Pairwise fun a b => a.ts ≤ b.ts) (windowStart windowEnd : ℚ)
    (hend : ∀ sample ∈ samples, sample.ts ≤ windowEnd) (stagnantMinOnline : ℤ)
    (hpos : 0 < stagnantMinOnline) (block : List Sample) (first last : Sample)
    (hblock : LongBlock stagnantMinOnline samples block first last) (t : ℚ)
    (ht : t ∈ Set.Ico (max first.ts windowStart) (min last.ts windowEnd)) :
    Flagged (buildStagnantSuspectIntervals samples windowStart windowEnd stagnantMinOnline) t := by
  obtain ⟨hstart, hstop⟩ := ht
  obtain ⟨hfirst, hwindow⟩ := max_le_iff.mp hstart
  obtain ⟨hlast, hwindow'⟩ := lt_min_iff.mp hstop
  have hmem := hblock.within.subset (mem_of_head? hblock.starts)
  have hmem' := hblock.within.subset (mem_of_getLast? hblock.ends)
  match samples with
  | [] => cases hmem
  | [sample] =>
    rw [mem_singleton.mp hmem] at hfirst
    rw [mem_singleton.mp hmem'] at hlast
    exact absurd (hfirst.trans_lt hlast) (lt_irrefl _)
  | x :: y :: rest =>
    obtain ⟨st, hrun, -, hfound, heq⟩ := stagnant_loop windowStart windowEnd hsorted hpos
    obtain ⟨sample, hsample, hprevious⟩ := hrun.last
    rw [heq, flagged_iff]
    refine ⟨autoSuspect, hrun.covers ⟨hwindow, hwindow'⟩ ⟨hfirst, hlast⟩ hblock.long ?_ ?_⟩
    · exact hfound block first last hblock t ⟨hwindow, hwindow'⟩ ⟨hfirst, hlast⟩
    · rw [hprevious]
      exact hend sample (mem_of_getLast? hsample)

/-- Twenty players at each half hour of six hours. -/
theorem stagnant_misses_nothing_six_hours :
    let samples : List Sample :=
      (range 13).map fun n => ⟨1800 * n, some 20, false, false⟩
    Flagged (buildStagnantSuspectIntervals samples 3600 21600 10) 7200 := by
  intro samples
  refine stagnant_misses_nothing samples (by decide +kernel) 3600 21600 (by decide +kernel) 10
    (by decide) samples ⟨0, some 20, false, false⟩ ⟨21600, some 20, false, false⟩ ?_ 7200
    (by decide +kernel)
  exact ⟨infix_rfl, ⟨20, by decide, by decide +kernel, by decide +kernel⟩,
    by decide +kernel, by decide +kernel, by decide +kernel⟩

end ServiceToolkit.Segments
