import Mathlib.Data.List.Basic
import Mathlib.Order.Interval.Set.LinearOrder
import Mathlib.Order.MinMax
import ServiceToolkit.Runs

/-!
# Coverage of Tagged Intervals

A list of half-open intervals, each with a tag, is seen through the instants it **covers**
under each tag. The intervals are any type `α` with a start, a stop and a tag; the instants
are any linear order.
-/

namespace ServiceToolkit.Coverage

open List

variable {α κ T : Type*} [LinearOrder T]

section

variable (start stop : α → T) (tag : α → κ)

/-- The instant lies in the interval. -/
def Covers (x : α) (t : T) : Prop := t ∈ Set.Ico (start x) (stop x)

/-- Some interval with the tag covers the instant. -/
def Covered (l : List α) (k : κ) (t : T) : Prop :=
  ∃ x ∈ l, tag x = k ∧ Covers start stop x t

end

section

variable {start stop : α → T} {tag : α → κ} {k : κ} {t : T}

@[simp] theorem not_covered_nil : ¬ Covered start stop tag [] k t := by
  simp [Covered]

theorem covered_cons {x : α} {l : List α} : Covered start stop tag (x :: l) k t ↔
      (tag x = k ∧ Covers start stop x t) ∨ Covered start stop tag l k t := by
  simp [Covered]

variable {l₁ l₂ : List α}

theorem covered_append : Covered start stop tag (l₁ ++ l₂) k t ↔
      Covered start stop tag l₁ k t ∨ Covered start stop tag l₂ k t := by
  simp only [Covered, mem_append, or_and_right, exists_or]

theorem covered_congr (h : ∀ x, x ∈ l₁ ↔ x ∈ l₂) :
    Covered start stop tag l₁ k t ↔ Covered start stop tag l₂ k t := by
  simp only [Covered, h]

theorem covered_comp {κ' : Type*} (f : κ → κ') {l : List α} {k : κ'} :
    Covered start stop (fun x => f (tag x)) l k t ↔
      ∃ k₀, f k₀ = k ∧ Covered start stop tag l k₀ t := by
  constructor
  · rintro ⟨x, hx, htag, hcovers⟩
    exact ⟨tag x, htag, x, hx, rfl, hcovers⟩
  · rintro ⟨k₀, rfl, x, hx, rfl, hcovers⟩
    exact ⟨x, hx, rfl, hcovers⟩

theorem covered_split {x x₁ x₂ : α} (htag₁ : tag x₁ = tag x)
    (htag₂ : tag x₂ = tag x) (hstart : start x₁ = start x) (hmeet : stop x₁ = start x₂)
    (hstop : stop x₂ = stop x) (hle : start x ≤ start x₂) (hle' : start x₂ ≤ stop x) :
    Covered start stop tag (l₁ ++ x₁ :: x₂ :: l₂) k t ↔
      Covered start stop tag (l₁ ++ x :: l₂) k t := by
  have hcovers : Covers start stop x t ↔ Covers start stop x₁ t ∨ Covers start stop x₂ t := by
    rw [Covers, Covers, Covers, hstart, hmeet, hstop, ← Set.mem_union,
      Set.Ico_union_Ico_eq_Ico hle hle']
  rw [covered_append, covered_append, covered_cons, covered_cons, covered_cons, htag₁, htag₂,
    hcovers, ← or_assoc (a := tag x = k ∧ _), and_or_left]

end

/-! ### Merging runs -/

/-- One step of the sweep. The intervals merged so far are kept last first. -/
def mergeStep (canMerge : α → α → Bool) (extend : α → α → α) (merged : List α) (x : α) :
    List α :=
  match merged with
  | [] => [x]
  | prev :: rest => if canMerge prev x then extend prev x :: rest else x :: prev :: rest

/-- The sweep. -/
def mergeRuns (canMerge : α → α → Bool) (extend : α → α → α) (l : List α) : List α :=
  (l.foldl (mergeStep canMerge extend) []).reverse

section

variable {start stop : α → T} {tag : α → κ} {canMerge : α → α → Bool} {extend : α → α → α}

/-- Intervals are merged when they agree on the tag and the later one starts before the earlier
one stops; the merged interval reaches to the later stop. -/
structure MergesTouching (start stop : α → T) (tag : α → κ) (canMerge : α → α → Bool)
    (extend : α → α → α) : Prop where
  tag_eq : ∀ {x y}, canMerge x y = true → tag x = tag y
  touch : ∀ {x y}, canMerge x y = true → start y ≤ stop x
  tag_extend : ∀ x y, tag (extend x y) = tag x
  start_extend : ∀ x y, start (extend x y) = start x
  stop_extend : ∀ x y, stop (extend x y) = max (stop x) (stop y)

theorem MergesTouching.covers_extend (h : MergesTouching start stop tag canMerge extend)
    {x y : α} (hxy : canMerge x y = true) (hstart : start x ≤ start y) (t : T) :
    Covers start stop (extend x y) t ↔ Covers start stop x t ∨ Covers start stop y t := by
  have htouch := h.touch hxy
  simp only [Covers, h.start_extend, h.stop_extend, Set.mem_Ico, lt_max_iff]
  constructor
  · rintro ⟨hle, hlt⟩
    rcases lt_or_ge t (stop x) with hx | hx
    · exact .inl ⟨hle, hx⟩
    · exact .inr ⟨htouch.trans hx, hlt.resolve_left hx.not_gt⟩
  · rintro (⟨hle, hlt⟩ | ⟨hle, hlt⟩)
    · exact ⟨hle, .inl hlt⟩
    · exact ⟨hstart.trans hle, .inr hlt⟩

/-- What the sweep keeps, with `done` the intervals it has seen: the coverage, and that the last
merged interval starts where some interval of its tag did. -/
structure MergeInv (start stop : α → T) (tag : α → κ) (done merged : List α) : Prop where
  covered : ∀ k t, Covered start stop tag merged k t ↔ Covered start stop tag done k t
  last : ∀ prev ∈ merged.head?, ∃ x ∈ done, tag x = tag prev ∧ start x = start prev

theorem MergeInv.step (h : MergesTouching start stop tag canMerge extend) {done merged : List α}
    {x : α} (hinv : MergeInv start stop tag done merged)
    (hx : ∀ y ∈ done, tag y = tag x → start y ≤ start x) :
    MergeInv start stop tag (done ++ [x]) (mergeStep canMerge extend merged x) := by
  have hself : x ∈ done ++ [x] := mem_append_right done mem_cons_self
  cases merged with
  | nil =>
    refine ⟨fun k t => ?_, fun prev hprev => ?_⟩
    · rw [mergeStep, covered_append, ← hinv.covered k t]
      simp
    · obtain rfl : x = prev := by simpa [mergeStep] using hprev
      exact ⟨x, hself, rfl, rfl⟩
  | cons prev rest =>
    have hcovered := hinv.covered
    obtain ⟨y, hy, hytag, hystart⟩ := hinv.last prev rfl
    rw [mergeStep]
    split
    · rename_i hmerge
      have hstart : start prev ≤ start x := by
        rw [← hystart]
        exact hx y hy (hytag.trans (h.tag_eq hmerge))
      refine ⟨fun k t => ?_, fun last hlast => ?_⟩
      · rw [covered_cons, h.tag_extend, h.covers_extend hmerge hstart, covered_append,
          ← hcovered k t, covered_cons, covered_cons, ← h.tag_eq hmerge]
        simp only [not_covered_nil]
        tauto
      · obtain rfl : extend prev x = last := by simpa using hlast
        refine ⟨y, mem_append_left _ hy, ?_, ?_⟩
        · rw [hytag, h.tag_extend]
        · rw [hystart, h.start_extend]
    · refine ⟨fun k t => ?_, fun last hlast => ?_⟩
      · rw [covered_append, ← hcovered k t, covered_cons, covered_cons (l := [])]
        simp only [not_covered_nil, or_false]
        exact or_comm
      · obtain rfl : x = last := by simpa using hlast
        exact ⟨x, hself, rfl, rfl⟩

/-- **Merging keeps the coverage** of every tag. -/
theorem covered_mergeRuns (h : MergesTouching start stop tag canMerge extend) {l : List α}
    (hsorted : l.Pairwise fun x y => tag x = tag y → start x ≤ start y) (k : κ) (t : T) :
    Covered start stop tag (mergeRuns canMerge extend l) k t ↔ Covered start stop tag l k t := by
  have hinv : MergeInv start stop tag l (l.foldl (mergeStep canMerge extend) []) := by
    refine foldl_invariant _ ⟨fun _ _ => Iff.rfl, by simp⟩ fun done x rest merged hl hinv => ?_
    refine hinv.step h fun y hy => ?_
    rw [hl] at hsorted
    exact (pairwise_append.mp hsorted).2.2 y hy x mem_cons_self
  rw [mergeRuns, ← hinv.covered k t]
  exact covered_congr fun x => mem_reverse

end

/-! ### Canonical lists -/

section

variable [LT κ] (start stop : α → T) (tag : α → κ)

/-- The first interval comes before the second: its tag is lower, or it has the same tag and
stops before the second starts. -/
def Apart (x y : α) : Prop := tag x < tag y ∨ (tag x = tag y ∧ stop x < start y)

/-- A **canonical** list: no interval is empty, and each comes before the later ones. -/
structure Canonical (l : List α) : Prop where
  nonempty : ∀ x ∈ l, start x < stop x
  apart : l.Pairwise (Apart start stop tag)

end

section

variable [PartialOrder κ] {start stop : α → T} {tag : α → κ} {x : α} {l : List α}

section

variable (h : Canonical start stop tag (x :: l))
include h

theorem Canonical.tail : Canonical start stop tag l :=
  ⟨fun y hy => h.nonempty y (mem_cons_of_mem x hy), h.apart.of_cons⟩

variable {t : T}

/-- The tail covers nothing under the head's tag before the head stops. -/
theorem Canonical.stop_lt_of_covered (ht : Covered start stop tag l (tag x) t) :
    stop x < t := by
  obtain ⟨y, hy, htag, hcovers⟩ := ht
  rcases rel_of_pairwise_cons h.apart hy with hlt | ⟨-, hlt⟩
  · exact absurd htag hlt.ne'
  · exact hlt.trans_le hcovers.1

theorem Canonical.head_le {k : κ} (ht : Covered start stop tag (x :: l) k t) :
    tag x < k ∨ (tag x = k ∧ start x ≤ t) := by
  rcases covered_cons.mp ht with ⟨htag, hcovers⟩ | ⟨y, hy, rfl, hcovers⟩
  · exact .inr ⟨htag, hcovers.1⟩
  · rcases rel_of_pairwise_cons h.apart hy with hlt | ⟨htag, hlt⟩
    · exact .inl hlt
    · have hnonempty := h.nonempty x mem_cons_self
      exact .inr ⟨htag, (hnonempty.trans hlt).le.trans hcovers.1⟩

theorem Canonical.covered_tail {k : κ} :
    Covered start stop tag l k t ↔
      Covered start stop tag (x :: l) k t ∧ ¬ (tag x = k ∧ Covers start stop x t) := by
  rw [covered_cons]
  constructor
  · intro ht
    refine ⟨.inr ht, ?_⟩
    rintro ⟨rfl, hcovers⟩
    exact absurd (h.stop_lt_of_covered ht) hcovers.2.not_gt
  · rintro ⟨hhead | ht, hnot⟩
    · exact absurd hhead hnot
    · exact ht

theorem Canonical.covered_start :
    Covered start stop tag (x :: l) (tag x) (start x) :=
  covered_cons.mpr (.inl ⟨rfl, le_rfl, h.nonempty x mem_cons_self⟩)

end

variable {l' : List α}

theorem Canonical.stop_le {y : α} (h' : Canonical start stop tag (y :: l'))
    (htag : tag x = tag y) (hstart : start x = start y)
    (hcovered : ∀ k t, Covered start stop tag (x :: l) k t → Covered start stop tag (y :: l') k t) :
    stop x ≤ stop y := by
  by_contra hlt
  have hbetween : Covers start stop x (stop y) :=
    ⟨hstart.trans_le (h'.nonempty y mem_cons_self).le, not_le.mp hlt⟩
  rcases covered_cons.mp (hcovered _ _ (covered_cons.mpr (.inl ⟨htag, hbetween⟩))) with
    ⟨-, hcovers⟩ | ht
  · exact lt_irrefl _ hcovers.2
  · exact lt_irrefl _ (h'.stop_lt_of_covered ht)

theorem Canonical.head_eq {y : α} (h : Canonical start stop tag (x :: l))
    (h' : Canonical start stop tag (y :: l'))
    (hcovered : ∀ k t, Covered start stop tag (x :: l) k t ↔ Covered start stop tag (y :: l') k t) :
    tag x = tag y ∧ start x = start y := by
  have hx := h'.head_le ((hcovered _ _).mp h.covered_start)
  have hy := h.head_le ((hcovered _ _).mpr h'.covered_start)
  rcases hx with hlt | ⟨htag, hle⟩
  · rcases hy with hgt | ⟨htag, -⟩
    · exact absurd hlt hgt.asymm
    · exact absurd htag hlt.ne'
  · rcases hy with hgt | ⟨-, hge⟩
    · exact absurd htag hgt.ne'
    · exact ⟨htag.symm, le_antisymm hge hle⟩

/-- **A canonical list is determined by its coverage**, when its intervals are by their tag and
bounds. -/
theorem Canonical.unique (h : Canonical start stop tag l) (h' : Canonical start stop tag l')
    (hext : ∀ x ∈ l, ∀ y ∈ l', tag x = tag y → start x = start y → stop x = stop y → x = y)
    (hcovered : ∀ k t, Covered start stop tag l k t ↔ Covered start stop tag l' k t) : l = l' := by
  induction l generalizing l' with
  | nil =>
    cases l' with
    | nil => rfl
    | cons y l' => exact absurd ((hcovered _ _).mpr h'.covered_start) not_covered_nil
  | cons x l ih =>
    cases l' with
    | nil => exact absurd ((hcovered _ _).mp h.covered_start) not_covered_nil
    | cons y l' =>
      obtain ⟨htag, hstart⟩ := h.head_eq h' hcovered
      have hstop : stop x = stop y :=
        le_antisymm (h'.stop_le htag hstart fun k t => (hcovered k t).mp)
          (h.stop_le htag.symm hstart.symm fun k t => (hcovered k t).mpr)
      obtain rfl := hext x mem_cons_self y mem_cons_self htag hstart hstop
      congr 1
      refine ih h.tail h'.tail (fun a ha b hb => ?_) fun k t => ?_
      · exact hext a (mem_cons_of_mem x ha) b (mem_cons_of_mem x hb)
      · rw [h.covered_tail, h'.covered_tail, hcovered]

end

/-! ### The sweep makes a list canonical -/

section

variable [PartialOrder κ] {start stop : α → T} {tag : α → κ} {canMerge : α → α → Bool}
  {extend : α → α → α} {P : α → Prop}

/-- What the sweep keeps beside the coverage, last merged interval first: `P`, no interval is
empty, and each comes after the earlier ones. -/
structure MergeOrder (start stop : α → T) (tag : α → κ) (P : α → Prop) (merged : List α) :
    Prop where
  kept : ∀ x ∈ merged, P x
  nonempty : ∀ x ∈ merged, start x < stop x
  apart : merged.Pairwise fun y x => Apart start stop tag x y

theorem MergeOrder.step (h : MergesTouching start stop tag canMerge extend)
    (hextend : ∀ {x y}, P x → P y → P (extend x y))
    (hmerge : ∀ {x y}, P x → P y → tag x = tag y → start y ≤ stop x → canMerge x y = true)
    {done merged : List α} {x : α} (hinv : MergeInv start stop tag done merged)
    (horder : MergeOrder start stop tag P merged) (hP : P x) (hnonempty : start x < stop x)
    (hx : ∀ y ∈ done, tag y < tag x ∨ (tag y = tag x ∧ start y ≤ start x)) :
    MergeOrder start stop tag P (mergeStep canMerge extend merged x) := by
  cases merged with
  | nil => exact ⟨by simpa [mergeStep] using hP, by simpa [mergeStep] using hnonempty,
      pairwise_singleton _ x⟩
  | cons prev rest =>
    obtain ⟨hkept, hnonempty', hapart⟩ := horder
    rw [forall_mem_cons] at hkept hnonempty'
    rw [pairwise_cons] at hapart
    rw [mergeStep]
    split
    · refine ⟨forall_mem_cons.mpr ⟨hextend hkept.1 hP, hkept.2⟩,
        forall_mem_cons.mpr ⟨?_, hnonempty'.2⟩, pairwise_cons.mpr ⟨?_, hapart.2⟩⟩
      · rw [h.start_extend, h.stop_extend]
        exact hnonempty'.1.trans_le (le_max_left _ _)
      · intro z hz
        rw [Apart, h.tag_extend, h.start_extend]
        exact hapart.1 z hz
    · rename_i hnot
      -- the last merged interval starts where an interval of the list does
      obtain ⟨y, hy, hytag, hystart⟩ := hinv.last prev rfl
      have hprev : Apart start stop tag prev x := by
        rcases hx y hy with hlt | ⟨htag, -⟩
        · exact .inl (hytag ▸ hlt)
        · refine .inr ⟨hytag ▸ htag, ?_⟩
          by_contra hle
          exact hnot (hmerge hkept.1 hP (hytag ▸ htag) (not_lt.mp hle))
      refine ⟨forall_mem_cons.mpr ⟨hP, forall_mem_cons.mpr hkept⟩,
        forall_mem_cons.mpr ⟨hnonempty, forall_mem_cons.mpr hnonempty'⟩,
        pairwise_cons.mpr ⟨forall_mem_cons.mpr ⟨hprev, fun z hz => ?_⟩, pairwise_cons.mpr hapart⟩⟩
      rcases hapart.1 z hz with hlt | ⟨htag, hlt⟩
      · rcases hprev with hlt' | ⟨htag', -⟩
        · exact .inl (hlt.trans hlt')
        · exact .inl (htag' ▸ hlt)
      · rcases hprev with hlt' | ⟨htag', hstop⟩
        · exact .inl (htag ▸ hlt')
        · exact .inr ⟨htag.trans htag', hlt.trans (hnonempty'.1.trans hstop)⟩

/-- **The sweep makes a list canonical** that is sorted by tag and start and has no empty interval,
where extending keeps `P` and intervals with `P` are merged whenever they agree on the tag and
touch. -/
theorem canonical_mergeRuns (h : MergesTouching start stop tag canMerge extend)
    (hextend : ∀ {x y}, P x → P y → P (extend x y))
    (hmerge : ∀ {x y}, P x → P y → tag x = tag y → start y ≤ stop x → canMerge x y = true)
    {l : List α} (hP : ∀ x ∈ l, P x) (hnonempty : ∀ x ∈ l, start x < stop x)
    (hsorted : l.Pairwise fun x y => tag x < tag y ∨ (tag x = tag y ∧ start x ≤ start y)) :
    Canonical start stop tag (mergeRuns canMerge extend l) ∧
      ∀ x ∈ mergeRuns canMerge extend l, P x := by
  have hinv : MergeInv start stop tag l (l.foldl (mergeStep canMerge extend) []) ∧
      MergeOrder start stop tag P (l.foldl (mergeStep canMerge extend) []) := by
    refine foldl_invariant (P := fun done merged => MergeInv start stop tag done merged ∧
      MergeOrder start stop tag P merged) ?_ fun done x rest merged hl hinv => ?_
    · exact ⟨⟨fun _ _ => Iff.rfl, by simp⟩, ⟨by simp, by simp, List.Pairwise.nil⟩⟩
    · have hself : x ∈ l := by simp [hl]
      rw [hl] at hsorted
      have hx : ∀ y ∈ done, tag y < tag x ∨ (tag y = tag x ∧ start y ≤ start x) :=
        fun y hy => (pairwise_append.mp hsorted).2.2 y hy x mem_cons_self
      refine ⟨hinv.1.step h fun y hy htag => ?_,
        hinv.2.step h hextend hmerge hinv.1 (hP x hself) (hnonempty x hself) hx⟩
      rcases hx y hy with hlt | ⟨-, hle⟩
      · exact absurd htag hlt.ne
      · exact hle
  obtain ⟨-, hkept, hnonempty', hapart⟩ := hinv
  refine ⟨⟨fun x hx => ?_, pairwise_reverse.mpr hapart⟩, fun x hx => ?_⟩
  · exact hnonempty' x (mem_reverse.mp hx)
  · exact hkept x (mem_reverse.mp hx)

end

/-! ### The greatest key -/

/-- The element with the greatest key, the last of equals. -/
def maxByKey (key : α → T) : List α → Option α
  | [] => none
  | x :: l => some (l.foldl (fun best y => if key best ≤ key y then y else best) x)

theorem maxByKey_map {β : Type*} (f : β → α) (key : α → T) (l : List β) :
    maxByKey key (l.map f) = (maxByKey (fun x => key (f x)) l).map f := by
  cases l with
  | nil => rfl
  | cons x l =>
    simp only [map_cons, maxByKey, Option.map_some, Option.some.injEq]
    induction l generalizing x with
    | nil => rfl
    | cons y l ih =>
      rw [map_cons, foldl_cons, foldl_cons, ← apply_ite f]
      exact ih _

@[simp] theorem maxByKey_eq_none {key : α → T} {l : List α} : maxByKey key l = none ↔ l = [] := by
  cases l <;> simp [maxByKey]

/-- The selected element is one of the list and has the greatest key. -/
theorem maxByKey_spec {key : α → T} {l : List α} {best : α} (h : maxByKey key l = some best) :
    best ∈ l ∧ ∀ x ∈ l, key x ≤ key best := by
  have hfold : ∀ (l : List α) (x : α),
      let best := l.foldl (fun best y => if key best ≤ key y then y else best) x
      best ∈ x :: l ∧ ∀ y ∈ x :: l, key y ≤ key best := by
    intro l
    induction l with
    | nil => simp
    | cons y l ih =>
      intro x
      obtain ⟨hmem, hle⟩ := ih (if key x ≤ key y then y else x)
      simp only [foldl_cons, forall_mem_cons] at hmem hle ⊢
      obtain ⟨hhead, htail⟩ := hle
      split at hhead
      · rename_i hxy
        rw [if_pos hxy] at hmem htail ⊢
        exact ⟨mem_cons_of_mem x hmem, hxy.trans hhead, hhead, htail⟩
      · rename_i hxy
        rw [if_neg hxy] at hmem htail ⊢
        refine ⟨?_, hhead, (not_le.mp hxy).le.trans hhead, htail⟩
        rcases mem_cons.mp hmem with hmem | hmem
        · rw [hmem]
          exact mem_cons_self
        · exact mem_cons_of_mem _ (mem_cons_of_mem _ hmem)
  cases l with
  | nil => cases h
  | cons x l =>
    cases h
    exact hfold l x

end ServiceToolkit.Coverage
