import ServiceToolkit.SegmentsClassify

/-!
# The Canonical Form of Intervals

`merge_intervals` and the two ways to resolve a state, on lists in which the priority of an
interval determines what it says: `Consistent` lists, which is what every caller builds.
-/

namespace ServiceToolkit.Segments

open Coverage List

/-- An interval of the priority covers the instant. -/
abbrev CoveredAt (l : List Interval) (priority : ℤ) (t : ℚ) : Prop :=
  Covered Interval.startsAt Interval.endsAt (fun iv => iv.label.priority) l priority t

/-- Equal priorities say the same. -/
def Agree (l l' : List Interval) : Prop :=
  ∀ a ∈ l, ∀ b ∈ l', a.label.priority = b.label.priority → a.label = b.label

instance (l l' : List Interval) : Decidable (Agree l l') :=
  inferInstanceAs (Decidable (∀ a ∈ l, ∀ b ∈ l',
    a.label.priority = b.label.priority → a.label = b.label))

/-- A **consistent** list: no interval is empty, and equal priorities say the same. -/
structure Consistent (l : List Interval) : Prop where
  nonempty : ∀ iv ∈ l, iv.startsAt < iv.endsAt
  agree : Agree l l

section

variable {l l' : List Interval}

theorem Consistent.of_subset (h : Consistent l) (hsub : ∀ iv ∈ l', iv ∈ l) : Consistent l' :=
  ⟨fun iv hiv => h.nonempty iv (hsub iv hiv),
    fun a ha b hb => h.agree a (hsub a ha) b (hsub b hb)⟩

theorem Agree.of_labels {m m' : List Interval} (h : Agree l l')
    (hm : ∀ iv ∈ m, iv.label ∈ l.map Interval.label)
    (hm' : ∀ iv ∈ m', iv.label ∈ l'.map Interval.label) : Agree m m' := by
  intro a ha b hb heq
  obtain ⟨x, hx, hxa⟩ := mem_map.mp (hm a ha)
  obtain ⟨y, hy, hyb⟩ := mem_map.mp (hm' b hb)
  rw [← hxa, ← hyb]
  exact h x hx y hy (by rw [hxa, hyb, heq])

end

/-! ### Merging -/

theorem le_of_compare {a b : Interval} (h : (compareIntervals a b).isLE = true)
    (hlabel : a.label.priority = b.label.priority → a.label = b.label) :
    a.label.priority < b.label.priority ∨
      (a.label.priority = b.label.priority ∧ a.startsAt ≤ b.startsAt) := by
  rcases lt_trichotomy a.label.priority b.label.priority with hlt | heq | hgt
  · exact .inl hlt
  · exact .inr ⟨heq, startsAt_le_of_compare h (hlabel heq)⟩
  · have hcompare : compare a.label.priority b.label.priority = .gt := compare_gt_iff_gt.mpr hgt
    simp [compareIntervals, compareLex, compareOn, hcompare] at h

section

variable {l : List Interval}

theorem canonical_mergeIntervals (h : Consistent l) :
    Canonical Interval.startsAt Interval.endsAt (fun iv => iv.label.priority) (mergeIntervals l) ∧
      ∀ iv ∈ mergeIntervals l, iv.label ∈ l.map Interval.label := by
  have hmerges : MergesTouching Interval.startsAt Interval.endsAt
      (fun iv : Interval => iv.label.priority) canMerge extend := by
    refine ⟨fun hmerge => ?_, mergesTouching.touch, fun x y => ?_, mergesTouching.start_extend,
      mergesTouching.stop_extend⟩
    · rw [mergesTouching.tag_eq hmerge]
    · rw [mergesTouching.tag_extend]
  have hmem : ∀ {iv}, iv ∈ l.mergeSort (fun a b => (compareIntervals a b).isLE) → iv ∈ l :=
    mem_mergeSort.mp
  rw [mergeIntervals]
  refine canonical_mergeRuns hmerges (fun {x y} hx _ => ?_) (fun {x y} hx hy hpriority htouch => ?_)
    (fun iv hiv => mem_map_of_mem (hmem hiv)) (fun iv hiv => h.nonempty iv (hmem hiv)) ?_
  · rwa [mergesTouching.tag_extend]
  · have hagree : Agree [x] [y] :=
      h.agree.of_labels (by simpa using hx) (by simpa using hy)
    have hlabel : x.label = y.label := hagree x (by simp) y (by simp) hpriority
    simp [canMerge, hlabel, htouch]
  · refine (pairwise_mergeSort l).imp_of_mem fun {a b} ha hb hle => le_of_compare hle ?_
    exact h.agree a (hmem ha) b (hmem hb)

theorem coveredAt_mergeIntervals (l : List Interval) (priority : ℤ) (t : ℚ) :
    CoveredAt (mergeIntervals l) priority t ↔ CoveredAt l priority t := by
  rw [CoveredAt, CoveredAt, covered_comp Label.priority, covered_comp Label.priority]
  exact exists_congr fun label => and_congr_right fun _ => covered_mergeIntervals l label t

theorem Consistent.mergeIntervals (h : Consistent l) : Consistent (mergeIntervals l) :=
  ⟨(canonical_mergeIntervals h).1.nonempty,
    h.agree.of_labels (canonical_mergeIntervals h).2 (canonical_mergeIntervals h).2⟩

theorem mergeIntervals_congr {l' : List Interval} (h : Consistent l) (h' : Consistent l')
    (hagree : Agree l l')
    (hcovered : ∀ priority t, CoveredAt l priority t ↔ CoveredAt l' priority t) :
    mergeIntervals l = mergeIntervals l' := by
  obtain ⟨hcanonical, hlabels⟩ := canonical_mergeIntervals h
  obtain ⟨hcanonical', hlabels'⟩ := canonical_mergeIntervals h'
  refine hcanonical.unique hcanonical' (fun a ha b hb hpriority hstart hstop => ?_) fun k t => ?_
  · have hlabel := hagree.of_labels hlabels hlabels' a ha b hb hpriority
    obtain ⟨_, _, _⟩ := a
    cases hstart
    cases hstop
    cases hlabel
    rfl
  · exact (coveredAt_mergeIntervals l k t).trans
      ((hcovered k t).trans (coveredAt_mergeIntervals l' k t).symm)

theorem mergeIntervals_of_mem_iff {l' : List Interval} (h : Consistent l)
    (hmem : ∀ iv, iv ∈ l' ↔ iv ∈ l) : mergeIntervals l' = mergeIntervals l := by
  refine mergeIntervals_congr (h.of_subset fun iv => (hmem iv).mp) h ?_ fun priority t =>
    covered_congr hmem
  exact fun a ha b hb => h.agree a ((hmem a).mp ha) b hb

theorem mergeIntervals_split {l₁ l₂ : List Interval} {iv : Interval} {m : ℚ}
    (h : Consistent (l₁ ++ iv :: l₂)) (hstart : iv.startsAt < m) (hend : m < iv.endsAt) :
    mergeIntervals (l₁ ++ ⟨iv.startsAt, m, iv.label⟩ :: ⟨m, iv.endsAt, iv.label⟩ :: l₂) =
      mergeIntervals (l₁ ++ iv :: l₂) := by
  have hlabels : ∀ x ∈ l₁ ++ ⟨iv.startsAt, m, iv.label⟩ :: ⟨m, iv.endsAt, iv.label⟩ :: l₂,
      x.label ∈ (l₁ ++ iv :: l₂).map Interval.label := by
    intro x hx
    simp only [mem_append, mem_cons] at hx
    rcases hx with hx | rfl | rfl | hx
    · exact mem_map_of_mem (mem_append_left _ hx)
    · exact mem_map_of_mem (a := iv) (by simp)
    · exact mem_map_of_mem (a := iv) (by simp)
    · exact mem_map_of_mem (by simp [hx])
  have hself : ∀ x ∈ l₁ ++ iv :: l₂, x.label ∈ (l₁ ++ iv :: l₂).map Interval.label :=
    fun x hx => mem_map_of_mem hx
  refine mergeIntervals_congr ⟨fun x hx => ?_, h.agree.of_labels hlabels hlabels⟩ h
    (h.agree.of_labels hlabels hself) fun priority t => ?_
  · simp only [mem_append, mem_cons] at hx
    rcases hx with hx | rfl | rfl | hx
    · exact h.nonempty x (by simp [hx])
    · exact hstart
    · exact hend
    · exact h.nonempty x (by simp [hx])
  · exact covered_split rfl rfl rfl rfl rfl hstart.le hend.le

end

/-! ### Resolving -/

theorem stateOf_congr {active active' : List Interval} (hagree : Agree active active')
    (hlabels : ∀ label, (∃ iv ∈ active, iv.label = label) ↔ ∃ iv ∈ active', iv.label = label) :
    stateOf active = stateOf active' := by
  have hself : Agree active active := by
    intro a ha b hb hpriority
    obtain ⟨b', hb', hlabel⟩ := (hlabels b.label).mp ⟨b, hb, rfl⟩
    rw [← hlabel] at hpriority ⊢
    exact hagree a ha b' hb' hpriority
  cases hmax : maxByKey (fun iv : Interval => iv.label.priority) active with
  | none =>
    have hnil : active = [] := maxByKey_eq_none.mp hmax
    have hnil' : active' = [] := by
      refine eq_nil_iff_forall_not_mem.mpr fun iv hiv => ?_
      obtain ⟨x, hx, -⟩ := (hlabels iv.label).mpr ⟨iv, hiv, rfl⟩
      rw [hnil] at hx
      cases hx
    rw [hnil, hnil']
  | some iv =>
    obtain ⟨hiv, hgreatest⟩ := maxByKey_spec hmax
    obtain ⟨iv', hiv', hlabel⟩ := (hlabels iv.label).mp ⟨iv, hiv, rfl⟩
    by_cases hclears : ∃ x ∈ active, x.label.clears = true
    · obtain ⟨x, hx, hclears⟩ := hclears
      obtain ⟨x', hx', hxlabel⟩ := (hlabels x.label).mp ⟨x, hx, rfl⟩
      rw [stateOf_of_clears hx hclears, stateOf_of_clears hx' (hxlabel ▸ hclears)]
    · have hkeeps : ∀ x ∈ active, x.label.clears = false :=
        fun x hx => Bool.eq_false_iff.mpr fun h => hclears ⟨x, hx, h⟩
      rw [stateOf_of_greatest hiv hgreatest (fun x hx => hself x hx iv hiv) hkeeps, ← hlabel]
      refine (stateOf_of_greatest hiv' (fun x' hx' => ?_) (fun x' hx' hpriority => ?_)
        fun x' hx' => ?_).symm
      · obtain ⟨x, hx, hxlabel⟩ := (hlabels x'.label).mpr ⟨x', hx', rfl⟩
        rw [← hxlabel, hlabel]
        exact hgreatest x hx
      · rw [hlabel] at hpriority ⊢
        exact (hagree iv hiv x' hx' hpriority.symm).symm
      · obtain ⟨x, hx, hxlabel⟩ := (hlabels x'.label).mpr ⟨x', hx', rfl⟩
        rw [← hxlabel]
        exact hkeeps x hx

theorem resolveStateAt_mergeIntervals {l : List Interval} (h : Consistent l) (t : ℚ) :
    resolveStateAt t (mergeIntervals l) = resolveStateAt t l := by
  rw [resolveStateAt_eq, resolveStateAt_eq]
  refine stateOf_congr (fun a ha b hb => ?_) fun label => ?_
  · have hself : ∀ iv ∈ l, iv.label ∈ l.map Interval.label := fun iv hiv => mem_map_of_mem hiv
    exact h.agree.of_labels (canonical_mergeIntervals h).2 hself a (mem_of_mem_filter ha) b
      (mem_of_mem_filter hb)
  · rw [exists_active_iff, exists_active_iff, covered_mergeIntervals]

/-- **Merging computes a canonical form.** On a consistent list the result is ordered by priority,
then start; the intervals of one priority are disjoint and do not touch; and each priority covers
what it covered. Hence the result depends on the coverage of each priority only; merging twice is
merging once; and an instant resolves to the same state before and after. -/
theorem mergeIntervals_is_canonical_form (l : List Interval) (h : Consistent l) :
    (mergeIntervals l).Pairwise (fun a b => a.label.priority < b.label.priority ∨
      (a.label.priority = b.label.priority ∧ a.startsAt < b.startsAt)) ∧
    (mergeIntervals l).Pairwise (fun a b => a.label.priority = b.label.priority →
      a.endsAt < b.startsAt) ∧
    (∀ priority t, CoveredAt (mergeIntervals l) priority t ↔ CoveredAt l priority t) ∧
    (∀ l', Consistent l' → Agree l l' →
      (∀ priority t, CoveredAt l priority t ↔ CoveredAt l' priority t) →
      mergeIntervals l' = mergeIntervals l) ∧
    (∀ l', (∀ iv, iv ∈ l' ↔ iv ∈ l) → mergeIntervals l' = mergeIntervals l) ∧
    (∀ l₁ iv l₂ m, l = l₁ ++ iv :: l₂ → iv.startsAt < m → m < iv.endsAt →
      mergeIntervals (l₁ ++ ⟨iv.startsAt, m, iv.label⟩ :: ⟨m, iv.endsAt, iv.label⟩ :: l₂) =
        mergeIntervals l) ∧
    mergeIntervals (mergeIntervals l) = mergeIntervals l ∧
    (∀ t, resolveStateAt t (mergeIntervals l) = resolveStateAt t l) := by
  obtain ⟨hcanonical, hlabels⟩ := canonical_mergeIntervals h
  refine ⟨?_, ?_, coveredAt_mergeIntervals l, fun l' h' hagree hcovered => ?_,
    fun l' hmem => mergeIntervals_of_mem_iff h hmem, ?_, ?_, resolveStateAt_mergeIntervals h⟩
  · refine hcanonical.apart.imp_of_mem fun {a b} ha _ hapart => hapart.imp_right ?_
    rintro ⟨hpriority, hlt⟩
    exact ⟨hpriority, (hcanonical.nonempty a ha).trans hlt⟩
  · refine hcanonical.apart.imp fun hapart hpriority => ?_
    rcases hapart with hlt | ⟨-, hlt⟩
    · exact absurd hpriority hlt.ne
    · exact hlt
  · exact (mergeIntervals_congr h h' hagree hcovered).symm
  · rintro l₁ iv l₂ m rfl hstart hend
    exact mergeIntervals_split h hstart hend
  · refine mergeIntervals_congr h.mergeIntervals h ?_ (coveredAt_mergeIntervals l)
    exact h.agree.of_labels hlabels fun iv hiv => mem_map_of_mem hiv

/-- Two touching suspect intervals, a nested one and a clearing one. -/
theorem mergeIntervals_is_canonical_form_nested :
    mergeIntervals (mergeIntervals [⟨0, 5, autoSuspect⟩, ⟨5, 9, autoSuspect⟩,
        ⟨2, 3, autoSuspect⟩, ⟨4, 6, manualClear⟩]) =
      mergeIntervals [⟨0, 5, autoSuspect⟩, ⟨5, 9, autoSuspect⟩, ⟨2, 3, autoSuspect⟩,
        ⟨4, 6, manualClear⟩] := by
  have hconsistent : Consistent [⟨0, 5, autoSuspect⟩, ⟨5, 9, autoSuspect⟩, ⟨2, 3, autoSuspect⟩,
      ⟨4, 6, manualClear⟩] := ⟨by decide, by decide⟩
  exact (mergeIntervals_is_canonical_form _ hconsistent).2.2.2.2.2.2.1

/-! ### Ranges -/

theorem resolveStateForRange_eq (startsAt endsAt : ℚ) (intervals : List Interval) :
    resolveStateForRange startsAt endsAt intervals =
      stateOf (intervals.filter (Interval.overlaps startsAt endsAt)) :=
  rfl

/-- No interval starts or ends strictly inside the range. -/
def NoBoundary (l : List Interval) (s e : ℚ) : Prop :=
  ∀ iv ∈ l, iv.startsAt ∉ Set.Ioo s e ∧ iv.endsAt ∉ Set.Ioo s e

/-- A clearing interval covers the instant. -/
def ClearedAt (l : List Interval) (t : ℚ) : Prop :=
  ∃ iv ∈ l, iv.label.clears = true ∧ t ∈ Set.Ico iv.startsAt iv.endsAt

/-- An instant's **winning priority is the greatest** of the range. -/
def Peak (l : List Interval) (s e t : ℚ) : Prop :=
  ∃ priority, CoveredAt l priority t ∧
    ∀ t' ∈ Set.Ico s e, ∀ priority', CoveredAt l priority' t' → priority' ≤ priority

section

variable {l : List Interval} {s e : ℚ}

theorem overlaps_iff {iv : Interval} (hiv : iv.startsAt < iv.endsAt) (hse : s < e) :
    iv.overlaps s e = true ↔ ∃ t ∈ Set.Ico s e, t ∈ Set.Ico iv.startsAt iv.endsAt := by
  simp only [Interval.overlaps, decide_eq_true_eq, Set.mem_Ico]
  constructor
  · rintro ⟨hstart, hend⟩
    exact ⟨max s iv.startsAt, ⟨le_max_left _ _, max_lt hse hstart⟩, le_max_right _ _,
      max_lt hend hiv⟩
  · rintro ⟨t, ⟨hst, hte⟩, hstart, hend⟩
    exact ⟨hstart.trans_lt hte, hst.trans_lt hend⟩

theorem mem_overlaps_iff (h : Consistent l) (hse : s < e) {iv : Interval} :
    iv ∈ l.filter (Interval.overlaps s e) ↔
      iv ∈ l ∧ ∃ t ∈ Set.Ico s e, t ∈ Set.Ico iv.startsAt iv.endsAt := by
  rw [mem_filter]
  exact and_congr_right fun hiv => overlaps_iff (h.nonempty iv hiv) hse

theorem mem_active_iff {iv : Interval} {t : ℚ} :
    iv ∈ l.filter (Interval.active t) ↔ iv ∈ l ∧ t ∈ Set.Ico iv.startsAt iv.endsAt := by
  rw [mem_filter, active_iff, Covers]

theorem resolveStateForRange_of_empty (h : Consistent l) (hse : s < e)
    (hempty : (∃ t ∈ Set.Ico s e, ClearedAt l t) ∨
      ∀ t ∈ Set.Ico s e, ∀ priority, ¬ CoveredAt l priority t) :
    resolveStateForRange s e l = .empty := by
  rw [resolveStateForRange_eq]
  rcases hempty with ⟨t, ht, iv, hiv, hclears, hcovers⟩ | hnone
  · exact stateOf_of_clears ((mem_overlaps_iff h hse).mpr ⟨hiv, t, ht, hcovers⟩) hclears
  · have hnil : l.filter (Interval.overlaps s e) = [] := by
      refine eq_nil_iff_forall_not_mem.mpr fun iv hiv => ?_
      obtain ⟨hiv, t, ht, hcovers⟩ := (mem_overlaps_iff h hse).mp hiv
      exact hnone t ht iv.label.priority ⟨iv, hiv, rfl, hcovers⟩
    rw [hnil, stateOf_nil]

/-- A range that no clearing interval meets has the state of each of its peaks. -/
theorem resolveStateForRange_of_peak (h : Consistent l) (hse : s < e)
    (hclears : ∀ t ∈ Set.Ico s e, ¬ ClearedAt l t) {t : ℚ} (ht : t ∈ Set.Ico s e)
    (hpeak : Peak l s e t) : resolveStateForRange s e l = resolveStateAt t l := by
  obtain ⟨_, ⟨iv, hiv, rfl, hcovers⟩, hgreatest⟩ := hpeak
  have hactive : ∀ {other}, other ∈ l.filter (Interval.active t) →
      other ∈ l.filter (Interval.overlaps s e) := by
    intro other hother
    obtain ⟨hother, hcovers⟩ := mem_active_iff.mp hother
    exact (mem_overlaps_iff h hse).mpr ⟨hother, t, ht, hcovers⟩
  have hle : ∀ other ∈ l.filter (Interval.overlaps s e),
      other.label.priority ≤ iv.label.priority := by
    intro other hother
    obtain ⟨hother, t', ht', hcovers'⟩ := (mem_overlaps_iff h hse).mp hother
    exact hgreatest t' ht' _ ⟨other, hother, rfl, hcovers'⟩
  have hagree : ∀ other ∈ l.filter (Interval.overlaps s e),
      other.label.priority = iv.label.priority → other.label = iv.label :=
    fun other hother => h.agree other (mem_of_mem_filter hother) iv hiv
  have hkeeps : ∀ other ∈ l.filter (Interval.overlaps s e), other.label.clears = false := by
    intro other hother
    obtain ⟨hother, t', ht', hcovers'⟩ := (mem_overlaps_iff h hse).mp hother
    exact Bool.eq_false_iff.mpr fun hc => hclears t' ht' ⟨other, hother, hc, hcovers'⟩
  have hmem : iv ∈ l.filter (Interval.active t) := mem_active_iff.mpr ⟨hiv, hcovers⟩
  rw [resolveStateForRange_eq, resolveStateAt_eq,
    stateOf_of_greatest (hactive hmem) hle hagree hkeeps,
    stateOf_of_greatest hmem (fun other hother => hle other (hactive hother))
      (fun other hother => hagree other (hactive hother))
      fun other hother => hkeeps other (hactive hother)]

theorem exists_peak (h : Consistent l) (hse : s < e)
    (hsome : ∃ t ∈ Set.Ico s e, ∃ priority, CoveredAt l priority t) :
    ∃ t ∈ Set.Ico s e, Peak l s e t := by
  cases hmax : maxByKey (fun iv : Interval => iv.label.priority)
      (l.filter (Interval.overlaps s e)) with
  | none =>
    obtain ⟨t, ht, _, iv, hiv, -, hcovers⟩ := hsome
    have hmem := (mem_overlaps_iff h hse).mpr ⟨hiv, t, ht, hcovers⟩
    rw [maxByKey_eq_none.mp hmax] at hmem
    cases hmem
  | some iv =>
    obtain ⟨hmem, hgreatest⟩ := maxByKey_spec hmax
    obtain ⟨hiv, t, ht, hcovers⟩ := (mem_overlaps_iff h hse).mp hmem
    refine ⟨t, ht, iv.label.priority, ⟨iv, hiv, rfl, hcovers⟩, ?_⟩
    rintro t' ht' _ ⟨other, hother, rfl, hcovers'⟩
    exact hgreatest other ((mem_overlaps_iff h hse).mpr ⟨hother, t', ht', hcovers'⟩)

theorem resolveStateForRange_of_noBoundary (hboundary : NoBoundary l s e) {t : ℚ}
    (ht : t ∈ Set.Ico s e) : resolveStateForRange s e l = resolveStateAt t l := by
  rw [resolveStateForRange_eq, resolveStateAt_eq]
  congr 1
  refine filter_congr fun iv hiv => ?_
  obtain ⟨hstart, hend⟩ := hboundary iv hiv
  rw [Interval.overlaps, Interval.active, decide_eq_decide]
  constructor
  · rintro ⟨hlt, hgt⟩
    have hle : iv.startsAt ≤ s := le_of_not_gt fun hs => hstart ⟨hs, hlt⟩
    have hge : e ≤ iv.endsAt := le_of_not_gt fun he => hend ⟨hgt, he⟩
    exact ⟨hle.trans ht.1, ht.2.trans_le hge⟩
  · rintro ⟨hle, hlt⟩
    exact ⟨hle.trans_lt ht.2, ht.1.trans_lt hlt⟩

end

theorem get?_buildBucketStateMap (bucketTimes : List ℚ) {bucketSeconds : ℚ}
    (hpos : 0 < bucketSeconds) (l : List Interval) (t : ℚ) :
    (buildBucketStateMap bucketTimes bucketSeconds l).get? t =
      if t ∈ bucketTimes then some (resolveStateForRange t (t + bucketSeconds) l) else none := by
  rw [buildBucketStateMap, if_neg hpos.not_ge]
  exact Dict.get?_ofList_map _ bucketTimes t

/-- **Resolving a range agrees with resolving an instant.** On a consistent list the state of a
range is empty when an instant of it lies under a clearing interval or none under any; otherwise it
is that of every peak, an instant whose winning priority is the greatest of the range. Where no
interval starts or ends strictly inside, it is the state of every instant. The map of the buckets
holds these states. -/
theorem resolveStateForRange_agrees (l : List Interval) (h : Consistent l) :
    (∀ s e, s < e →
      ((∃ t ∈ Set.Ico s e, ClearedAt l t) ∨
        (∀ t ∈ Set.Ico s e, ∀ priority, ¬ CoveredAt l priority t) →
        resolveStateForRange s e l = .empty) ∧
      (¬ (∃ t ∈ Set.Ico s e, ClearedAt l t) →
        (∃ t ∈ Set.Ico s e, ∃ priority, CoveredAt l priority t) →
        (∃ t ∈ Set.Ico s e, Peak l s e t) ∧
        ∀ t ∈ Set.Ico s e, Peak l s e t → resolveStateForRange s e l = resolveStateAt t l) ∧
      (NoBoundary l s e → ∀ t ∈ Set.Ico s e,
        resolveStateForRange s e l = resolveStateAt t l)) ∧
    (∀ bucketTimes bucketSeconds, 0 < bucketSeconds → ∀ t,
      (buildBucketStateMap bucketTimes bucketSeconds l).get? t =
        if t ∈ bucketTimes then some (resolveStateForRange t (t + bucketSeconds) l)
        else none) := by
  refine ⟨fun s e hse => ⟨resolveStateForRange_of_empty h hse, fun hclears hsome => ?_,
    fun hboundary t ht => resolveStateForRange_of_noBoundary hboundary ht⟩,
    fun bucketTimes bucketSeconds hpos t => get?_buildBucketStateMap bucketTimes hpos l t⟩
  refine ⟨exists_peak h hse hsome, fun t ht hpeak => ?_⟩
  exact resolveStateForRange_of_peak h hse (fun t' ht' hc => hclears ⟨t', ht', hc⟩) ht hpeak

/-- A range over the end of a suspect interval has the state of the instants before it. -/
theorem resolveStateForRange_agrees_suspect :
    resolveStateForRange 3 8 [⟨0, 5, autoSuspect⟩, ⟨2, 3, plugin⟩] =
      resolveStateAt 4 [⟨0, 5, autoSuspect⟩, ⟨2, 3, plugin⟩] := by
  have hconsistent : Consistent [⟨0, 5, autoSuspect⟩, ⟨2, 3, plugin⟩] := ⟨by decide, by decide⟩
  obtain ⟨-, hpeaks, -⟩ := (resolveStateForRange_agrees _ hconsistent).1 3 8 (by decide)
  have hcovered : CoveredAt [⟨0, 5, autoSuspect⟩, ⟨2, 3, plugin⟩] 50 4 :=
    ⟨⟨0, 5, autoSuspect⟩, by simp, rfl, by decide, by decide⟩
  refine (hpeaks ?_ ⟨4, ⟨by decide, by decide⟩, 50, hcovered⟩).2 4 ⟨by decide, by decide⟩
    ⟨50, hcovered, ?_⟩
  · rintro ⟨t, -, iv, hiv, hclears, -⟩
    simp only [mem_cons, not_mem_nil, or_false] at hiv
    rcases hiv with rfl | rfl <;> cases hclears
  · rintro t ht _ ⟨iv, hiv, rfl, hcovers⟩
    simp only [mem_cons, not_mem_nil, or_false] at hiv
    rcases hiv with rfl | rfl
    · exact le_rfl
    · exact absurd (ht.1.trans_lt hcovers.2) (lt_irrefl _)

end ServiceToolkit.Segments
