import ServiceToolkit.EffectiveAverage

/-!
# The Effective Average and the Window

The stats of a window should depend on the intervals only as far as these lie in it. The
boundary tests of the sweep are one-sided: an interval adds its start when that is after the
start of the window, and so also a start after the **end** of the window, and the same with
ends. The sweep then goes on outside of the window (`interval_after_window_counts`).

`stats_clip_iff` says for which intervals that goes unnoticed whatever the samples are
(`OutsideExcluded`): at every boundary outside of the window from which the sweep goes on, the
intervals themselves exclude the time from the score. Negative boundaries come last in the
order of the bits and collect nothing, so only the others matter.
-/

namespace ServiceToolkit.Segments

open Coverage List

/-! ### Clipping -/

/-- The part of an interval that lies in the window, if there is one. -/
def Interval.clip (windowStart windowEnd : ℚ) (iv : Interval) : Option Interval :=
  (clamp iv.startsAt iv.endsAt windowStart windowEnd).map fun (s, e) =>
    { iv with startsAt := s, endsAt := e }

/-- Each interval is replaced by its part in the window. -/
def clip (windowStart windowEnd : ℚ) (intervals : List Interval) : List Interval :=
  intervals.filterMap (Interval.clip windowStart windowEnd)

section

variable {ws we : ℚ} {intervals : List Interval}

theorem clip_eq_some {iv iv' : Interval} (h : iv.clip ws we = some iv') :
    iv'.startsAt = max iv.startsAt ws ∧ iv'.endsAt = min iv.endsAt we ∧
      iv'.startsAt < iv'.endsAt ∧ iv'.label = iv.label := by
  obtain ⟨⟨s, e⟩, hclamp, rfl⟩ := Option.map_eq_some_iff.mp h
  obtain ⟨rfl, rfl⟩ := clamp_eq_some hclamp
  refine ⟨rfl, rfl, ?_, rfl⟩
  rw [clamp] at hclamp
  split at hclamp
  · cases hclamp
  · rename_i hle
    exact not_le.mp hle

theorem clip_eq_none {iv : Interval} (h : iv.clip ws we = none) :
    min iv.endsAt we ≤ max iv.startsAt ws := by
  rw [Interval.clip, Option.map_eq_none_iff, clamp] at h
  split at h
  · rename_i hle
    exact hle
  · cases h

theorem resolveStateAt_eq_of_labels {a b : List Interval} {t : ℚ}
    (h : (a.filter (Interval.active t)).map Interval.label =
      (b.filter (Interval.active t)).map Interval.label) :
    resolveStateAt t a = resolveStateAt t b := by
  have hlabels : ∀ l : List Interval, resolveStateAt t l =
      let labels := (l.filter (Interval.active t)).map Interval.label
      if labels.any (·.clears) then .empty
      else (maxByKey (·.priority) labels).elim .empty
        fun best => ⟨best.status, some best.source, best.excludeFromScore⟩ := by
    intro l
    simp only [resolveStateAt, any_map, Function.comp_def, maxByKey_map]
    cases maxByKey (fun iv : Interval => iv.label.priority) (l.filter (Interval.active t)) <;> rfl
  rw [hlabels, hlabels, h]

theorem resolveStateAt_clip {t : ℚ} (ht : ws ≤ t ∧ t < we) :
    resolveStateAt t (clip ws we intervals) = resolveStateAt t intervals := by
  refine resolveStateAt_eq_of_labels ?_
  induction intervals with
  | nil => rfl
  | cons iv intervals ih =>
    rw [clip] at ih ⊢
    cases hclip : iv.clip ws we with
    | none =>
      have hle := clip_eq_none hclip
      have hactive : iv.active t = false := by
        rw [Interval.active, decide_eq_false_iff_not]
        rintro ⟨hstart, hend⟩
        exact absurd ((lt_min hend ht.2).trans_le hle) (max_le hstart ht.1).not_gt
      rw [filterMap_cons_none hclip, filter_cons_of_neg (by simp [hactive]), ih]
    | some iv' =>
      obtain ⟨hstart, hend, -, hlabel⟩ := clip_eq_some hclip
      have hactive : iv'.active t = iv.active t := by
        simp only [Interval.active, hstart, hend, max_le_iff, lt_min_iff, ht, and_true]
      rw [filterMap_cons_some hclip, filter_cons, filter_cons, hactive]
      split
      · rw [map_cons, map_cons, hlabel, ih]
      · exact ih

theorem windowBoundaries_clip (hwindow : ws ≤ we) {b : ℚ}
    (hb : b ∈ windowBoundaries ws we (clip ws we intervals)) :
    b ∈ windowBoundaries ws we intervals ∧ ws ≤ b ∧ b ≤ we := by
  rw [mem_windowBoundaries] at hb ⊢
  rcases hb with rfl | rfl | ⟨iv', hiv', hends⟩
  · exact ⟨.inl rfl, le_rfl, hwindow⟩
  · exact ⟨.inr (.inl rfl), hwindow, le_rfl⟩
  · obtain ⟨iv, hiv, hclip⟩ := mem_filterMap.mp hiv'
    obtain ⟨hstart, hend, hlt, -⟩ := clip_eq_some hclip
    rcases hends with ⟨hgt, rfl⟩ | ⟨hgt, rfl⟩
    · rw [hstart, lt_max_iff, or_iff_left (lt_irrefl _)] at hgt
      have heq : iv'.startsAt = iv.startsAt := by rw [hstart, max_eq_left hgt.le]
      refine ⟨.inr (.inr ⟨iv, hiv, .inl ⟨hgt, heq⟩⟩), heq ▸ hgt.le, hlt.le.trans ?_⟩
      exact hend ▸ min_le_right _ _
    · rw [hend, min_lt_iff, or_iff_left (lt_irrefl _)] at hgt
      have heq : iv'.endsAt = iv.endsAt := by rw [hend, min_eq_left hgt.le]
      refine ⟨.inr (.inr ⟨iv, hiv, .inr ⟨hgt, heq⟩⟩), ?_, heq ▸ hgt.le⟩
      exact (le_max_right _ _).trans (hstart ▸ hlt.le)

end

/-! ### The sweep before, inside and after the window -/

section

variable {samplePairs : List SamplePair} {ws we : ℚ} {intervals : List Interval}

theorem mem_futurePairs_fst {y : ℚ} (hy : y ∈ (futurePairs samplePairs ws we).map Prod.fst) :
    ws < y ∧ y ≤ we := by
  obtain ⟨pair, hpair, rfl⟩ := mem_map.mp hy
  obtain ⟨hstart, hend⟩ := of_decide_eq_true (mem_filter.mp hpair).2
  exact ⟨not_le.mp hstart, not_lt.mp hend⟩

theorem mem_swept_clip (hwindow : ws ≤ we) {y : ℚ}
    (hy : y ∈ swept samplePairs ws we (clip ws we intervals)) :
    y ∈ swept samplePairs ws we intervals ∧ ws ≤ y ∧ y ≤ we := by
  obtain ⟨hpos, hboundary | hsample⟩ := mem_swept.mp hy
  · obtain ⟨hmem, hinside⟩ := windowBoundaries_clip hwindow hboundary
    exact ⟨mem_swept.mpr ⟨hpos, .inl hmem⟩, hinside⟩
  · obtain ⟨hstart, hend⟩ := mem_futurePairs_fst hsample
    exact ⟨mem_swept.mpr ⟨hpos, .inr hsample⟩, hstart.le, hend⟩

theorem windowEnd_mem_swept (hend : 0 ≤ we) : we ∈ swept samplePairs ws we intervals :=
  mem_swept.mpr ⟨hend, .inl (mem_windowBoundaries.mpr (.inr (.inl rfl)))⟩

theorem windowEnd_neg_of_swept (h : swept samplePairs ws we intervals = []) : we < 0 := by
  by_contra hpos
  have hmem : we ∈ swept samplePairs ws we intervals :=
    windowEnd_mem_swept (not_lt.mp hpos)
  rw [h] at hmem
  cases hmem

/-- The sweep **cut** at `x`, the first boundary that clipping leaves, and at the end of the
window. -/
structure Cut (samplePairs : List SamplePair) (windowStart windowEnd : ℚ)
    (intervals : List Interval) (x : ℚ) (l pre mid post : List ℚ) : Prop where
  window : windowStart < windowEnd
  clipped : swept samplePairs windowStart windowEnd
    (clip windowStart windowEnd intervals) = x :: l
  split : Sweep.Split (swept samplePairs windowStart windowEnd intervals) x windowEnd pre mid post

theorem exists_cut (hwindow : ws < we) {x : ℚ} {l : List ℚ} (hclip : swept samplePairs ws we
      (clip ws we intervals) = x :: l) :
    ∃ pre mid post, Cut samplePairs ws we intervals x l pre mid post := by
  obtain ⟨hx, -, hend⟩ := mem_swept_clip hwindow.le (hclip ▸ mem_cons_self (a := x) (l := l))
  obtain ⟨pre, mid, post, hsplit⟩ := Sweep.exists_split (swept_sorted _ _ _ _) hx
    (windowEnd_mem_swept ((mem_swept.mp hx).1.trans hend)) hend
  exact ⟨pre, mid, post, hwindow, hclip, hsplit⟩

namespace Cut

variable {x y : ℚ} {l pre mid post : List ℚ}

variable (h : Cut samplePairs ws we intervals x l pre mid post)
include h

theorem sorted : (x :: l).Pairwise (· < ·) :=
  h.clipped ▸ swept_sorted _ _ _ _

theorem mem_clipped : y ∈ x :: l ↔ 0 ≤ y ∧ (y ∈ windowBoundaries ws we (clip ws we intervals) ∨
        y ∈ (futurePairs samplePairs ws we).map Prod.fst) := by
  rw [← h.clipped, mem_swept]

theorem mem_inside (hy : y ∈ x :: l) : y ∈ swept samplePairs ws we intervals ∧ ws ≤ y ∧ y ≤ we :=
  mem_swept_clip h.window.le (h.clipped ▸ hy)

theorem head_le (hy : y ∈ x :: l) : x ≤ y := by
  rcases mem_cons.mp hy with rfl | hyl
  · exact le_rfl
  · exact ((pairwise_cons.mp h.sorted).1 y hyl).le

theorem head_nonneg : 0 ≤ x :=
  (h.mem_clipped.mp mem_cons_self).1

theorem head_inside : ws ≤ x ∧ x ≤ we :=
  (h.mem_inside mem_cons_self).2

theorem head_le_start (hstart : 0 ≤ ws) : x ≤ ws :=
  h.head_le (h.mem_clipped.mpr ⟨hstart, .inl (mem_windowBoundaries.mpr (.inl rfl))⟩)

theorem total_clip (update : ℚ → Option ℤ → Option ℤ) (worth : ℤ → ℚ) (s : Option ℤ) :
    Sweep.total update (countedRate worth intervals) s mid =
      Sweep.total update (countedRate worth (clip ws we intervals)) s mid := by
  refine Sweep.total_congr fun y hy online => ?_
  obtain ⟨hymid, z, hz, hyz⟩ := (Sweep.mem_dropLast_iff h.split.mid_sorted).mp hy
  have hinside : ws ≤ y ∧ y < we :=
    ⟨h.head_inside.1.trans (h.split.mid_mem y hymid).1, hyz.trans_le (h.split.mid_mem z hz).2⟩
  rw [countedRate, countedRate, resolveStateAt_clip hinside]

/-- **Inside the window** the sweep collects what it does over the clipped intervals. -/
theorem total_inside (worth : ℤ → ℚ) (s : Option ℤ) :
    Sweep.total (nextOnline (futureSamples samplePairs ws we))
        (countedRate worth intervals) s mid =
      Sweep.total (nextOnline (futureSamples samplePairs ws we))
        (countedRate worth (clip ws we intervals)) s (x :: l) := by
  obtain ⟨r, hr⟩ := h.split.first
  have hmid := h.split.mid_sorted
  have hsub : x :: l ⊆ mid := fun y hy =>
    h.split.mem_mid_iff.mpr ⟨(h.mem_inside hy).1, h.head_le hy, (h.mem_inside hy).2.2⟩
  rw [h.total_clip, hr]
  rw [hr] at hmid hsub
  have hgt : ∀ y ∈ r, x < y ∧ y ≤ we := fun y hy =>
    ⟨(pairwise_cons.mp hmid).1 y hy, (h.split.mid_mem y (hr ▸ mem_cons_of_mem x hy)).2⟩
  have hsublist := cons_sublist_cons.mp (Sweep.sublist_of_subset h.sorted hmid hsub)
  rcases h.head_inside.2.eq_or_lt with heq | hlt
  · have hnil : r = [] := eq_nil_iff_forall_not_mem.mpr fun y hy =>
      absurd (hgt y hy).1 (heq ▸ (hgt y hy).2).not_gt
    rw [hnil, sublist_nil] at hsublist
    rw [hnil, hsublist]
  · have hmem : ∀ y, (y ∈ windowBoundaries ws we (clip ws we intervals) ∨
          y ∈ (futurePairs samplePairs ws we).map Prod.fst) → y ≤ x ∨ y ∈ l := by
      intro y hy
      rcases lt_or_ge y 0 with hneg | hpos
      · exact .inl (hneg.le.trans h.head_nonneg)
      · exact (mem_cons.mp (h.mem_clipped.mpr ⟨hpos, hy⟩)).imp le_of_eq id
    have hend : we ∈ x :: l :=
      h.clipped ▸ windowEnd_mem_swept (h.head_nonneg.trans h.head_inside.2)
    exact total_refine_window worth s h.head_inside.1 hmid hsublist
      ((mem_cons.mp hend).resolve_left hlt.ne') (fun y hy => (hgt y hy).2)
      (fun y hy => hmem y (.inl hy)) (fun y hy => hmem y (.inr hy))

theorem mem_pre (hy : y ∈ pre) : y ∈ windowBoundaries ws we intervals ∧ 0 ≤ y ∧
      ∀ b ∈ windowBoundaries ws we (clip ws we intervals), 0 ≤ b → y < b := by
  have hhead : ∀ z ∈ x :: l, y < z := fun z hz => (h.split.pre_lt y hy).trans_le (h.head_le hz)
  obtain ⟨hpos, hmem | hsample⟩ := mem_swept.mp (h.split.mem_iff.mpr (.inl hy))
  · exact ⟨hmem, hpos, fun b hb hbpos => hhead b (h.mem_clipped.mpr ⟨hbpos, .inl hb⟩)⟩
  · exact absurd (hhead y (h.mem_clipped.mpr ⟨hpos, .inr hsample⟩)) (lt_irrefl y)

theorem mem_pre_head (hy : y ∈ pre ++ [x]) : 0 ≤ y ∧ y ≤ x := by
  rcases mem_append.mp hy with hy | hy
  · exact ⟨(h.mem_pre hy).2.1, (h.split.pre_lt y hy).le⟩
  · rw [mem_singleton.mp hy]
    exact ⟨h.head_nonneg, le_rfl⟩

theorem final_pre (hpre : ∀ p ∈ pre, p < ws) (s : Option ℤ) :
    Sweep.final (nextOnline (futureSamples samplePairs ws we)) s (pre ++ [x]) = s := by
  refine Sweep.final_eq_self fun z hz => nextOnline_of_not_mem (fun hsample => ?_) s
  have hgt := (mem_futurePairs_fst hsample).1
  cases pre with
  | nil => cases hz
  | cons p pre =>
    rcases mem_append.mp hz with hz | hz
    · exact absurd (hpre z (mem_cons_of_mem p hz)) hgt.not_gt
    · -- a boundary before the window, so that the window starts at a boundary
      have hstart : 0 ≤ ws := (h.mem_pre mem_cons_self).2.1.trans (hpre p mem_cons_self).le
      rw [mem_singleton.mp hz] at hgt
      exact absurd hgt (h.head_le_start hstart).not_gt

end Cut

theorem boundary_of_mem_swept {y : ℚ} (hy : y ∈ swept samplePairs ws we intervals)
    (hle : y ≤ ws ∨ we ≤ y) : y ∈ windowBoundaries ws we intervals := by
  rcases (mem_swept.mp hy).2 with hmem | hsample
  · exact hmem
  · obtain ⟨hstart, hend⟩ := mem_futurePairs_fst hsample
    rcases hle with hle | hle
    · exact absurd hstart hle.not_gt
    · exact mem_windowBoundaries.mpr (.inr (.inl (le_antisymm hend hle)))

end

/-! ### Intervals that the window does not notice -/

/-- The intervals exclude the instant from the score. -/
def Excluded (intervals : List Interval) (t : ℚ) : Prop :=
  (resolveStateAt t intervals).excludeFromScore = true

instance (intervals : List Interval) (t : ℚ) : Decidable (Excluded intervals t) :=
  inferInstanceAs (Decidable (_ = _))

/-- **Where the window does not notice** what lies outside of it. Among the boundaries of the window
and the intervals that are not negative:

* a boundary outside of the window that another one follows is excluded from the score;
* if one inside of the window comes before all that clipping leaves (so the window starts before
  zero), then all inside of it are excluded. -/
structure OutsideExcluded (windowStart windowEnd : ℚ) (intervals : List Interval) : Prop where
  outside : ∀ b ∈ windowBoundaries windowStart windowEnd intervals, 0 ≤ b →
    ¬ (windowStart ≤ b ∧ b < windowEnd) →
    (∃ b' ∈ windowBoundaries windowStart windowEnd intervals, b < b') → Excluded intervals b
  leading : ∀ a ∈ windowBoundaries windowStart windowEnd intervals, 0 ≤ a →
    (windowStart ≤ a ∧ a < windowEnd) →
    (∀ b ∈ windowBoundaries windowStart windowEnd (clip windowStart windowEnd intervals),
      0 ≤ b → a < b) →
    ∀ b ∈ windowBoundaries windowStart windowEnd intervals, 0 ≤ b →
      (windowStart ≤ b ∧ b < windowEnd) → Excluded intervals b

section

variable {samplePairs : List SamplePair} {ws we : ℚ} {intervals : List Interval}

theorem countedRate_of_excluded {t : ℚ} (h : Excluded intervals t) (worth : ℤ → ℚ)
    (online : Option ℤ) : countedRate worth intervals t online = 0 := by
  rw [Excluded] at h
  rw [countedRate, if_pos h]

theorem OutsideExcluded.total_negative (h : OutsideExcluded ws we intervals)
    (hend : we < 0) (worth : ℤ → ℚ) : sweptTotal samplePairs ws we intervals worth = 0 := by
  refine Sweep.total_eq_zero fun y hy online => countedRate_of_excluded ?_ worth online
  obtain ⟨hymem, z, hzmem, hyz⟩ := (Sweep.mem_dropLast_iff (swept_sorted _ _ _ _)).mp hy
  have hypos := (mem_swept.mp hymem).1
  have hzpos := (mem_swept.mp hzmem).1
  exact h.outside y (boundary_of_mem_swept hymem (.inr (hend.le.trans hypos))) hypos
    (fun hinside => absurd (hinside.2.trans hend) hypos.not_gt)
    ⟨z, boundary_of_mem_swept hzmem (.inr (hend.le.trans hzpos)), hyz⟩

variable {x : ℚ} {l pre mid post : List ℚ}

theorem OutsideExcluded.total_post (h : OutsideExcluded ws we intervals)
    (hcut : Cut samplePairs ws we intervals x l pre mid post) (worth : ℤ → ℚ) (s : Option ℤ) :
    Sweep.total (nextOnline (futureSamples samplePairs ws we))
      (countedRate worth intervals) s (we :: post) = 0 := by
  refine Sweep.total_eq_zero fun y hy online => countedRate_of_excluded ?_ worth online
  obtain ⟨hymem, z, hzmem, hyz⟩ := (Sweep.mem_dropLast_iff hcut.split.post_sorted).mp hy
  obtain ⟨hyswept, hyend⟩ := hcut.split.mem_post_iff.mp hymem
  obtain ⟨hzswept, hzend⟩ := hcut.split.mem_post_iff.mp hzmem
  exact h.outside y (boundary_of_mem_swept hyswept (.inr hyend)) (mem_swept.mp hyswept).1
    (fun hinside => absurd hinside.2 hyend.not_gt)
    ⟨z, boundary_of_mem_swept hzswept (.inr hzend), hyz⟩

theorem OutsideExcluded.total_pre (h : OutsideExcluded ws we intervals)
    (hcut : Cut samplePairs ws we intervals x l pre mid post) (worth : ℤ → ℚ) (s : Option ℤ) :
    Sweep.total (nextOnline (futureSamples samplePairs ws we))
      (countedRate worth intervals) s (pre ++ [x]) = 0 := by
  refine Sweep.total_eq_zero fun p hp online => countedRate_of_excluded ?_ worth online
  rw [dropLast_concat] at hp
  obtain ⟨hmem, hpos, hbefore⟩ := hcut.mem_pre hp
  have hlt : p < we := (hcut.split.pre_lt p hp).trans_le hcut.head_inside.2
  by_cases hinside : ws ≤ p ∧ p < we
  · exact h.leading p hmem hpos hinside hbefore p hmem hpos hinside
  · exact h.outside p hmem hpos hinside ⟨we, mem_windowBoundaries.mpr (.inr (.inl rfl)), hlt⟩

/-- Where all boundaries from one on are excluded, all instants from it on are. -/
theorem excluded_of_boundaries {p : ℚ} (hp : p ∈ windowBoundaries ws we intervals) (hpos : 0 ≤ p)
    (hstart : ws ≤ p) (hall : ∀ b ∈ windowBoundaries ws we intervals, 0 ≤ b →
      (ws ≤ b ∧ b < we) → Excluded intervals b)
    {y : ℚ} (hpy : p ≤ y) (hy : y < we) : Excluded intervals y := by
  -- the last boundary not after `y`
  obtain ⟨m, hm, hmax⟩ := Finset.exists_max_image
    ((windowBoundaries ws we intervals).toFinset.filter (· ≤ y)) id ⟨p, by simp [hp, hpy]⟩
  simp only [Finset.mem_filter, mem_toFinset, id_eq, and_imp] at hm hmax
  have hpm : p ≤ m := hmax p hp hpy
  have hexcluded := hall m hm.1 (hpos.trans hpm) ⟨hstart.trans hpm, hm.2.trans_lt hy⟩
  rcases hm.2.eq_or_lt with rfl | hlt
  · exact hexcluded
  · have hstate : resolveStateAt y intervals = resolveStateAt m intervals :=
      resolveStateAt_between (hstart.trans hpm) hlt hy fun z hz => by
        rcases le_or_gt z y with hzy | hzy
        · exact .inl (hmax z hz hzy)
        · exact .inr hzy
    rw [Excluded, hstate]
    exact hexcluded

theorem OutsideExcluded.total_leading (h : OutsideExcluded ws we intervals)
    (hcut : Cut samplePairs ws we intervals x l pre mid post) {p : ℚ}
    (hp : p ∈ pre) (hstart : ws ≤ p) (worth : ℤ → ℚ) (s : Option ℤ) :
    Sweep.total (nextOnline (futureSamples samplePairs ws we))
      (countedRate worth (clip ws we intervals)) s (x :: l) = 0 := by
  refine Sweep.total_eq_zero fun y hy online => countedRate_of_excluded ?_ worth online
  obtain ⟨hymem, z, hz, hyz⟩ := (Sweep.mem_dropLast_iff hcut.sorted).mp hy
  have hyend : y < we := hyz.trans_le (hcut.mem_inside hz).2.2
  have hpy : p < y := (hcut.split.pre_lt p hp).trans_le (hcut.head_le hymem)
  obtain ⟨hmem, hpos, hbefore⟩ := hcut.mem_pre hp
  have hall := h.leading p hmem hpos ⟨hstart, hpy.trans hyend⟩ hbefore
  rw [Excluded, resolveStateAt_clip ⟨(hcut.mem_inside hymem).2.1, hyend⟩]
  exact excluded_of_boundaries hmem hpos hstart hall hpy.le hyend

/-- **Enough**: under the condition clipping changes no total. -/
theorem OutsideExcluded.sweptTotal_clip (hwindow : ws < we)
    (h : OutsideExcluded ws we intervals) (worth : ℤ → ℚ) :
    sweptTotal samplePairs ws we (clip ws we intervals) worth =
      sweptTotal samplePairs ws we intervals worth := by
  cases hclip : swept samplePairs ws we (clip ws we intervals) with
  | nil =>
    rw [h.total_negative (windowEnd_neg_of_swept hclip), sweptTotal, hclip, Sweep.total_nil]
  | cons x l =>
    obtain ⟨pre, mid, post, hcut⟩ := exists_cut hwindow hclip
    rw [sweptTotal, sweptTotal, Sweep.total_split hcut.split, h.total_pre hcut,
      h.total_post hcut, hcut.total_inside, hclip, zero_add, add_zero]
    by_cases hpre : ∀ p ∈ pre, p < ws
    · rw [hcut.final_pre hpre]
    · push Not at hpre
      obtain ⟨p, hp, hstart⟩ := hpre
      rw [h.total_leading hcut hp hstart, h.total_leading hcut hp hstart]

end

/-! ### Samples that notice -/

theorem countedRate_trusted_mem (intervals : List Interval) (t : ℚ) (online : Option ℤ) :
    0 ≤ countedRate trusted intervals t online ∧ countedRate trusted intervals t online ≤ 1 := by
  rw [countedRate]
  split
  · exact ⟨le_rfl, zero_le_one⟩
  · cases online with
    | none => exact ⟨le_rfl, zero_le_one⟩
    | some n => exact ⟨zero_le_one, le_rfl⟩

theorem total_trusted_nonneg {update : ℚ → Option ℤ → Option ℤ} {intervals : List Interval}
    (s : Option ℤ) (l : List ℚ) : 0 ≤ Sweep.total update (countedRate trusted intervals) s l :=
  Sweep.total_nonneg fun t online => (countedRate_trusted_mem _ t online).1

/-- A sweep that collects nothing of a known count finds its boundaries but the last excluded. -/
theorem excluded_of_total {update : ℚ → Option ℤ → Option ℤ} {intervals : List Interval}
    {l : List ℚ} {n : ℤ} {b b' : ℚ} (hsorted : l.Pairwise (· < ·))
    (h : Sweep.total update (countedRate trusted intervals) (some n) l = 0)
    (hupdate : ∀ y ∈ l.tail, update y (some n) = some n) (hb : b ∈ l) (hb' : b' ∈ l)
    (hlt : b < b') : Excluded intervals b := by
  have hzero := (Sweep.total_eq_zero_iff hsorted hupdate fun t online =>
    (countedRate_trusted_mem _ t online).1).mp h b
      ((Sweep.mem_dropLast_iff hsorted).mpr ⟨hb, b', hb', hlt⟩)
  by_contra hnot
  rw [Excluded] at hnot
  rw [countedRate, if_neg hnot] at hzero
  exact one_ne_zero hzero

theorem clampUnit_inj {a b : ℚ} (ha : 0 ≤ a) (hb : 0 ≤ b) (hlt : a < 1)
    (h : clampUnit a = clampUnit b) : a = b := by
  rw [clampUnit_of_mem ha hlt.le, clampUnit, if_neg hb.not_gt] at h
  split at h
  · exact absurd h hlt.ne
  · exact h

section

variable {samplePairs : List SamplePair} {ws we : ℚ} {intervals : List Interval}

/-- **The coverage tells totals apart** as long as one of them is below the length of the
window. -/
theorem sweptTotal_eq_of_stats (hwindow : ws < we) {intervals' : List Interval}
    (hstats : computeEffectiveAverageStats samplePairs ws we intervals' =
      computeEffectiveAverageStats samplePairs ws we intervals)
    (hlt : sweptTotal samplePairs ws we intervals' trusted < we - ws) :
    sweptTotal samplePairs ws we intervals' trusted =
      sweptTotal samplePairs ws we intervals trusted := by
  have hpos : 0 < we - ws := sub_pos.mpr hwindow
  rw [stats_eq _ _ _ _ hwindow, stats_eq _ _ _ _ hwindow] at hstats
  have hcoverage := congrArg Prod.snd hstats
  exact (div_left_inj' hpos.ne').mp (clampUnit_inj (div_nonneg (total_trusted_nonneg _ _) hpos.le)
    (div_nonneg (total_trusted_nonneg _ _) hpos.le) ((div_lt_one hpos).mpr hlt) hcoverage)

/-- One sample at the start of the window and one at its end, and between them a time with no
count known. -/
def probe (windowStart unknownFrom windowEnd : ℚ) : List SamplePair :=
  [(windowStart, some 1), (unknownFrom, none), (windowEnd, some 1)]

variable {m x : ℚ} {l pre mid post : List ℚ}

theorem Cut.ne_unknownFrom (h : Cut samplePairs ws we intervals x l pre mid post)
    (hm : ws < m) (hsign : m < 0 ∨ 0 ≤ ws) {y : ℚ} (hy : y ∈ pre ++ [x]) : y ≠ m := by
  obtain ⟨hpos, hyx⟩ := h.mem_pre_head hy
  rcases hsign with hneg | hstart
  · exact (hneg.trans_le hpos).ne'
  · exact ((hyx.trans (h.head_le_start hstart)).trans_lt hm).ne

section

variable (hm : ws < m ∧ m < we)
include hm

theorem currentOnline_probe : currentOnline (probe ws m we) ws = some 1 := by
  simp [currentOnline, probe, hm.1.not_ge, (hm.1.trans hm.2).not_ge]

theorem nextOnline_probe (y : ℚ) (s : Option ℤ) :
    nextOnline (futureSamples (probe ws m we) ws we) y s =
      if y = m then none else if y = we then some 1 else s := by
  have hpairs : futurePairs (probe ws m we) ws we = [(m, none), (we, some 1)] := by
    simp [futurePairs, probe, hm.1, hm.1.trans hm.2, hm.2.le]
  rw [nextOnline, futureSamples, hpairs]
  rcases eq_or_ne y m with rfl | hym
  · simp [hm.2.ne']
  · rcases eq_or_ne y we with rfl | hyw
    · simp [hym, hym.symm]
    · simp [hym, hyw, hym.symm, hyw.symm]

theorem nextOnline_probe_some {y : ℚ} (hy : y ≠ m) :
    nextOnline (futureSamples (probe ws m we) ws we) y (some 1) = some 1 := by
  rw [nextOnline_probe hm, if_neg hy, ite_self]

theorem sweptTotal_probe_lt (hsign : m < 0 ∨ 0 ≤ ws) :
    sweptTotal (probe ws m we) ws we (clip ws we intervals) trusted < we - ws := by
  have hwindow : ws < we := hm.1.trans hm.2
  have hle : ∀ t online, countedRate trusted (clip ws we intervals) t online ≤ 1 :=
    fun t online => (countedRate_trusted_mem _ t online).2
  rw [sweptTotal]
  cases hclip : swept (probe ws m we) ws we (clip ws we intervals) with
  | nil =>
    rw [Sweep.total_nil]
    exact sub_pos.mpr hwindow
  | cons x l =>
    obtain ⟨pre, mid, post, hcut⟩ := exists_cut hwindow hclip
    rcases lt_or_ge m 0 with hneg | hpos
    · calc _ ≤ we - x := Sweep.total_le hle hcut.sorted fun y hy => (hcut.mem_inside hy).2.2
        _ < we - ws := sub_lt_sub_left ((hm.1.trans hneg).trans_le hcut.head_nonneg) _
    · have hxm : x ≠ m := hcut.ne_unknownFrom hm.1 hsign (by simp)
      have hmem : m ∈ l := by
        have hsample : m ∈ (futurePairs (probe ws m we) ws we).map Prod.fst := by
          simp [futurePairs, probe, hm.1, hm.2.le]
        exact (mem_cons.mp (hcut.mem_clipped.mpr ⟨hpos, .inr hsample⟩)).resolve_left hxm.symm
      have hstays : ∀ y ∈ l.dropLast, m < y →
          nextOnline (futureSamples (probe ws m we) ws we) y none = none := by
        intro y hy hmy
        obtain ⟨-, z, hz, hyz⟩ :=
          (Sweep.mem_dropLast_iff (pairwise_cons.mp hcut.sorted).2).mp hy
        have hyend : y < we := hyz.trans_le (hcut.mem_inside (mem_cons_of_mem x hz)).2.2
        rw [nextOnline_probe hm, if_neg hmy.ne', if_neg hyend.ne]
      calc _ ≤ m - x :=
            Sweep.total_le_until hle hcut.sorted hmem (fun y => by simp [countedRate])
              (fun s => by rw [nextOnline_probe hm, if_pos rfl]) hstays
        _ ≤ m - ws := sub_le_sub_left hcut.head_inside.1 m
        _ < we - ws := sub_lt_sub_right hm.2 ws

theorem Cut.total_probe_outside (h : Cut (probe ws m we) ws we intervals x l pre mid post)
    (hsign : m < 0 ∨ 0 ≤ ws)
    (htotal : sweptTotal (probe ws m we) ws we (clip ws we intervals) trusted =
      sweptTotal (probe ws m we) ws we intervals trusted) :
    let update := nextOnline (futureSamples (probe ws m we) ws we)
    Sweep.total update (countedRate trusted intervals) (some 1) (pre ++ [x]) = 0 ∧
      Sweep.total update (countedRate trusted intervals) (some 1) (we :: post) = 0 := by
  intro update
  have hpre : Sweep.final update (some 1) (pre ++ [x]) = some 1 :=
    Sweep.final_eq_self fun y hy =>
      nextOnline_probe_some hm (h.ne_unknownFrom hm.1 hsign (mem_of_mem_tail hy))
  have hmid : Sweep.final update (some 1) mid = some 1 := by
    obtain ⟨r, rfl⟩ := h.split.last
    rcases eq_or_ne r [] with rfl | hne
    · rfl
    · rw [Sweep.final_concat hne]
      exact (nextOnline_probe hm _ _).trans (by rw [if_neg hm.2.ne', if_pos rfl])
  have hinside := h.total_inside trusted (some 1)
  rw [sweptTotal, sweptTotal, currentOnline_probe hm, Sweep.total_split h.split, hpre, hmid,
    hinside, h.clipped] at htotal
  have hbefore : 0 ≤ Sweep.total update (countedRate trusted intervals) _ (pre ++ [x]) :=
    total_trusted_nonneg (some 1) _
  have hafter : 0 ≤ Sweep.total update (countedRate trusted intervals) _ (we :: post) :=
    total_trusted_nonneg (some 1) _
  constructor
  · linarith
  · linarith

/-- **Necessary, outside of the window.** If clipping goes unnoticed by the probe, the boundaries
outside of the window that another follows are excluded. -/
theorem outside_of_stats (hsign : m < 0 ∨ 0 ≤ ws)
    (hstats : computeEffectiveAverageStats (probe ws m we) ws we (clip ws we intervals) =
      computeEffectiveAverageStats (probe ws m we) ws we intervals)
    {b b' : ℚ} (hb : b ∈ windowBoundaries ws we intervals) (hpos : 0 ≤ b)
    (houtside : ¬ (ws ≤ b ∧ b < we)) (hb' : b' ∈ windowBoundaries ws we intervals) (hlt : b < b') :
    Excluded intervals b := by
  have hwindow : ws < we := hm.1.trans hm.2
  have htotal := sweptTotal_eq_of_stats hwindow hstats (sweptTotal_probe_lt hm hsign)
  have hbswept : b ∈ swept (probe ws m we) ws we intervals := mem_swept.mpr ⟨hpos, .inl hb⟩
  have hbswept' : b' ∈ swept (probe ws m we) ws we intervals :=
    mem_swept.mpr ⟨hpos.trans hlt.le, .inl hb'⟩
  cases hclip : swept (probe ws m we) ws we (clip ws we intervals) with
  | nil =>
    have hend : we < 0 := windowEnd_neg_of_swept hclip
    have hsorted := swept_sorted (probe ws m we) ws we intervals
    rw [sweptTotal, sweptTotal, currentOnline_probe hm, hclip, Sweep.total_nil] at htotal
    refine excluded_of_total hsorted htotal.symm (fun y hy => ?_) hbswept hbswept' hlt
    have hypos : 0 ≤ y := (mem_swept.mp (mem_of_mem_tail hy)).1
    exact nextOnline_probe_some hm ((hm.2.trans hend).trans_le hypos).ne'
  | cons x l =>
    obtain ⟨pre, mid, post, hcut⟩ := exists_cut hwindow hclip
    obtain ⟨hbefore, hafter⟩ := hcut.total_probe_outside hm hsign htotal
    rcases lt_or_ge b ws with hstart | hstart
    · have hbx := hstart.trans_le hcut.head_inside.1
      refine excluded_of_total hcut.split.pre_sorted hbefore (fun y hy => ?_)
        (mem_append_left _ (hcut.split.mem_pre_iff.mpr ⟨hbswept, hbx⟩)) mem_concat_self hbx
      exact nextOnline_probe_some hm (hcut.ne_unknownFrom hm.1 hsign (mem_of_mem_tail hy))
    · have hend : we ≤ b := not_lt.mp fun hend => houtside ⟨hstart, hend⟩
      refine excluded_of_total hcut.split.post_sorted hafter (fun y hy => ?_)
        (hcut.split.mem_post_iff.mpr ⟨hbswept, hend⟩)
        (hcut.split.mem_post_iff.mpr ⟨hbswept', hend.trans hlt.le⟩) hlt
      exact nextOnline_probe_some hm (hm.2.trans (hcut.split.post_gt y hy)).ne'

theorem nextOnline_single (y : ℚ) (s : Option ℤ) :
    nextOnline (futureSamples [(m, some 1)] ws we) y s = if y = m then some 1 else s := by
  have hpairs : futurePairs [(m, some 1)] ws we = [(m, some 1)] := by
    simp [futurePairs, hm.1, hm.2.le]
  rw [nextOnline, futureSamples, hpairs]
  rcases eq_or_ne y m with rfl | hym
  · simp
  · simp [hym, hym.symm]

theorem mem_swept_single {y : ℚ} :
    y ∈ swept [(m, some 1)] ws we intervals ↔ 0 ≤ y ∧
      (y ∈ windowBoundaries ws we intervals ∨ y = m) := by
  simp [mem_swept, futurePairs, hm.1, hm.2.le]

theorem sweptTotal_single_clip (hpos : 0 ≤ m)
    (hbefore : ∀ b ∈ windowBoundaries ws we (clip ws we intervals), 0 ≤ b → m < b) :
    sweptTotal [(m, some 1)] ws we (clip ws we intervals) trusted = 0 := by
  have hsorted := swept_sorted [(m, some 1)] ws we (clip ws we intervals)
  obtain ⟨r, hr⟩ := Sweep.exists_eq_cons hsorted
    ((mem_swept_single hm).mpr ⟨hpos, .inr rfl⟩) fun y hy => by
      obtain ⟨hypos, hy | rfl⟩ := (mem_swept_single hm).mp hy
      · exact (hbefore y hy hypos).le
      · exact le_rfl
  have hnone : currentOnline [(m, some 1)] ws = none := by
    simp [currentOnline, hm.1]
  rw [sweptTotal, hnone, hr]
  rw [hr] at hsorted
  refine Sweep.total_eq_zero_of_state (fun y hy => ?_) fun y => by simp [countedRate]
  have hgt := (pairwise_cons.mp hsorted).1 y (mem_of_mem_dropLast hy)
  rw [nextOnline_single hm, if_neg hgt.ne']

/-- **Necessary, inside of the window.** If clipping goes unnoticed by a single sample between a
boundary and all those that clipping leaves, everything from the sample on is excluded. -/
theorem leading_of_stats {a : ℚ} (ha : a ∈ windowBoundaries ws we intervals) (hpos : 0 ≤ a)
    (ham : a < m) (hbefore : ∀ b ∈ windowBoundaries ws we (clip ws we intervals), 0 ≤ b → m < b)
    (hstats : computeEffectiveAverageStats [(m, some 1)] ws we (clip ws we intervals) =
      computeEffectiveAverageStats [(m, some 1)] ws we intervals)
    {y : ℚ} (hy : y ∈ windowBoundaries ws we intervals ∨ y = m) (hmy : m ≤ y)
    (hend : y < we) : Excluded intervals y := by
  have hwindow : ws < we := hm.1.trans hm.2
  have hmpos : 0 ≤ m := hpos.trans ham.le
  have hzero := sweptTotal_single_clip hm hmpos hbefore
  have htotal := sweptTotal_eq_of_stats hwindow hstats (hzero ▸ sub_pos.mpr hwindow)
  rw [hzero] at htotal
  have hmswept : m ∈ swept [(m, some 1)] ws we intervals :=
    (mem_swept_single hm).mpr ⟨hmpos, .inr rfl⟩
  obtain ⟨pre, mid, post, hsplit⟩ := Sweep.exists_split (swept_sorted [(m, some 1)] ws
    we intervals) hmswept (windowEnd_mem_swept (hmpos.trans hm.2.le)) hm.2.le
  have hpre : pre ≠ [] := ne_nil_of_mem
    (hsplit.mem_pre_iff.mpr ⟨(mem_swept_single hm).mpr ⟨hpos, .inl ha⟩, ham⟩)
  have hmid : Sweep.total (nextOnline (futureSamples [(m, some 1)] ws we))
      (countedRate trusted intervals) (some 1) mid = 0 := by
    have hparts : ∀ s r, 0 ≤ Sweep.total (nextOnline (futureSamples [(m, some 1)] ws we))
        (countedRate trusted intervals) s r := total_trusted_nonneg
    rw [sweptTotal, Sweep.total_split hsplit, Sweep.final_concat hpre, nextOnline_single hm,
      if_pos rfl] at htotal
    refine le_antisymm ?_ (hparts _ _)
    linarith [hparts (currentOnline [(m, some 1)] ws) (pre ++ [m]),
      hparts (Sweep.final (nextOnline (futureSamples [(m, some 1)] ws we))
        (some 1) mid) (we :: post)]
  have hymem : ∀ {z}, z ∈ swept [(m, some 1)] ws we intervals →
      m ≤ z → z ≤ we → z ∈ mid := fun hz hmz hzend =>
    hsplit.mem_mid_iff.mpr ⟨hz, hmz, hzend⟩
  refine excluded_of_total hsplit.mid_sorted hmid (fun z _ => ?_) (hymem ?_ hmy hend.le)
    (hymem (windowEnd_mem_swept (hmpos.trans hm.2.le)) hm.2.le le_rfl) hend
  · rw [nextOnline_single hm, ite_self]
  · exact (mem_swept_single hm).mpr ⟨hmpos.trans hmy, hy⟩

end

theorem exists_unknownFrom (hwindow : ws < we) : ∃ m, (ws < m ∧ m < we) ∧ (m < 0 ∨ 0 ≤ ws) := by
  rcases lt_or_ge ws 0 with hneg | hstart
  · obtain ⟨m, hm, hmlt⟩ := exists_between (lt_min hwindow hneg)
    exact ⟨m, ⟨hm, hmlt.trans_le (min_le_left _ _)⟩, .inl (hmlt.trans_le (min_le_right _ _))⟩
  · obtain ⟨m, hm⟩ := exists_between hwindow
    exact ⟨m, hm, .inr hstart⟩

/-- **Necessary.** -/
theorem outsideExcluded_of_stats (hwindow : ws < we) (hstats : ∀ samplePairs : List SamplePair,
      computeEffectiveAverageStats samplePairs ws we (clip ws we intervals) =
        computeEffectiveAverageStats samplePairs ws we intervals) :
    OutsideExcluded ws we intervals where
  outside b hb hpos houtside := by
    rintro ⟨b', hb', hlt⟩
    obtain ⟨m, hm, hsign⟩ := exists_unknownFrom hwindow
    exact outside_of_stats hm hsign (hstats _) hb hpos houtside hb' hlt
  leading a ha hpos hinside hbefore b hb hbpos hbinside := by
    -- a sample between `a` and the first boundary that clipping leaves
    obtain ⟨x, hx, hmin⟩ := Finset.exists_min_image ((windowBoundaries ws we
        (clip ws we intervals)).toFinset.filter (0 ≤ ·)) id
      ⟨we, by simp [mem_windowBoundaries, hpos.trans hinside.2.le]⟩
    simp only [Finset.mem_filter, mem_toFinset, id_eq, and_imp] at hx hmin
    obtain ⟨m, ham, hmx⟩ := exists_between (hbefore x hx.1 hx.2)
    have hxend : x ≤ we := (windowBoundaries_clip hwindow.le hx.1).2.2
    have hm : ws < m ∧ m < we := ⟨hinside.1.trans_lt ham, hmx.trans_le hxend⟩
    have hgap : ∀ z ∈ windowBoundaries ws we (clip ws we intervals), 0 ≤ z → m < z :=
      fun z hz hzpos => hmx.trans_le (hmin z hz hzpos)
    have hexcluded := fun {y} => leading_of_stats hm ha hpos ham hgap (hstats _) (y := y)
    rcases le_or_gt m b with hmb | hbm
    · exact hexcluded (.inl hb) hmb hbinside.2
    · -- from `b` to the sample the state is that of the clipped intervals, and does not change
      have hstate : resolveStateAt m intervals = resolveStateAt b intervals := by
        rw [← resolveStateAt_clip ⟨hm.1.le, hm.2⟩, ← resolveStateAt_clip hbinside]
        refine resolveStateAt_between hbinside.1 hbm hm.2 fun z hz => ?_
        rcases lt_or_ge z 0 with hneg | hzpos
        · exact .inl (hneg.le.trans hbpos)
        · exact .inr (hgap z hz hzpos)
      rw [Excluded, ← hstate]
      exact hexcluded (.inr rfl) le_rfl hm.2

end

/-- **When only the window matters.** Replacing every interval by its part in the window leaves the
stats of all samples as they are exactly when `OutsideExcluded`. -/
theorem stats_clip_iff (windowStart windowEnd : ℚ) (hwindow : windowStart < windowEnd)
    (intervals : List Interval) :
    (∀ samplePairs : List SamplePair,
      computeEffectiveAverageStats samplePairs windowStart windowEnd
          (clip windowStart windowEnd intervals) =
        computeEffectiveAverageStats samplePairs windowStart windowEnd intervals) ↔
      OutsideExcluded windowStart windowEnd intervals := by
  refine ⟨outsideExcluded_of_stats hwindow, fun h samplePairs => ?_⟩
  rw [stats_eq _ _ _ _ hwindow, stats_eq _ _ _ _ hwindow, h.sweptTotal_clip hwindow,
    h.sweptTotal_clip hwindow]

/-- Two intervals that meet after the window: the sweep goes on to where they meet, but the first
excludes the time until then, so that clipping goes unnoticed. -/
theorem stats_clip_of_meeting_intervals :
    (0 : ℚ) < 10 ∧ ∀ samplePairs : List SamplePair,
      computeEffectiveAverageStats samplePairs 0 10
          (clip 0 10 [⟨5, 20, autoSuspect⟩, ⟨20, 30, autoSuspect⟩]) =
        computeEffectiveAverageStats samplePairs 0 10
          [⟨5, 20, autoSuspect⟩, ⟨20, 30, autoSuspect⟩] :=
  ⟨by decide +kernel, (stats_clip_iff 0 10 (by decide +kernel) _).mpr
    ⟨by decide +kernel, by decide +kernel⟩⟩

/-- **Time after the window counts.** An interval after the window makes the sweep go on to its
start, and the sample of the fifth second covers the whole window instead of half of it. -/
theorem interval_after_window_counts :
    clip 0 10 [⟨20, 30, autoSuspect⟩] = [] ∧
      computeEffectiveAverageStats [(5, some 4)] 0 10 [⟨20, 30, autoSuspect⟩] = (4, 1) ∧
      computeEffectiveAverageStats [(5, some 4)] 0 10 (clip 0 10 [⟨20, 30, autoSuspect⟩]) =
        (4, 1 / 2) := by
  decide +kernel

end ServiceToolkit.Segments
