import Mathlib.Data.List.Basic
import Mathlib.Data.List.Sort
import Mathlib.Order.Compare

/-!
# Stable Sorting by a Comparison

A list sorted by a comparison of its elements, elements that compare equal in the order they
had. What a program takes from such a list is mostly the first element that meets a condition:

* `firstLeast_of_find?` — it is the **first of the least** of the elements that meet it, a
  statement about the list before sorting;
* `FirstLeast.of_zipIdx` — breaking ties by the index changes nothing;
* `FirstLeast.eq_of_perm` — it is the same for every order of the list, if no two elements that
  meet the condition compare equal.

Sorting on a key (`sortOn`), upwards or in reverse, gives the same sequence of keys for every order
of the list (`map_sortOn_eq_of_perm`).
-/

namespace ServiceToolkit.StableSort

open List Option

variable {α β : Type*} (cmp : α → α → Ordering)

/-- The comparison of what `f` reads off the elements. -/
def comparing (f : β → α) (x y : β) : Ordering := cmp (f x) (f y)

instance transCmp_comparing (f : β → α) [Std.TransCmp cmp] : Std.TransCmp (comparing cmp f) where
  eq_swap {x y} := by
    rw [comparing, comparing]
    exact Std.OrientedCmp.eq_swap
  isLE_trans {x y z} hxy hyz := by
    rw [comparing] at hxy hyz ⊢
    exact Std.TransCmp.isLE_trans hxy hyz

/-- The list sorted by the comparison. -/
def sortBy (l : List α) : List α := l.mergeSort fun a b => (cmp a b).isLE

/-- The element meets the condition, comes strictly before the earlier elements that do, and not
after the later ones. -/
def FirstLeast (p : α → Bool) (l : List α) (x : α) : Prop :=
  ∃ before after, l = before ++ x :: after ∧ p x = true ∧
    (∀ y ∈ before, p y = true → cmp x y = .lt) ∧ ∀ y ∈ after, p y = true → (cmp x y).isLE = true

variable {cmp} {p : α → Bool} {l : List α} {x : α}

@[simp] theorem mem_sortBy : x ∈ sortBy cmp l ↔ x ∈ l :=
  mem_mergeSort

theorem FirstLeast.mem (h : FirstLeast cmp p l x) : x ∈ l := by
  obtain ⟨before, after, rfl, -⟩ := h
  simp

theorem FirstLeast.meets (h : FirstLeast cmp p l x) : p x = true := by
  obtain ⟨before, after, -, hx, -⟩ := h
  exact hx

theorem FirstLeast.mono {q : α → Bool} (h : FirstLeast cmp p l x)
    (hx : q x = true) (hq : ∀ y, q y = true → p y = true) : FirstLeast cmp q l x := by
  obtain ⟨before, after, hl, -, hbefore, hafter⟩ := h
  exact ⟨before, after, hl, hx, fun y hy hqy => hbefore y hy (hq y hqy),
    fun y hy hqy => hafter y hy (hq y hqy)⟩

theorem FirstLeast.cons (h : FirstLeast cmp p l x) {a : α}
    (ha : p a = true → cmp x a = .lt) : FirstLeast cmp p (a :: l) x := by
  obtain ⟨before, after, rfl, hx, hbefore, hafter⟩ := h
  exact ⟨a :: before, after, rfl, hx, forall_mem_cons.mpr ⟨ha, hbefore⟩, hafter⟩

theorem FirstLeast.of_filter {q : α → Bool}
    (h : FirstLeast cmp p (l.filter q) x) : FirstLeast cmp (fun y => q y && p y) l x := by
  obtain ⟨before, after, hl, hx, hbefore, hafter⟩ := h
  obtain ⟨l₁, l₂, rfl, rfl, hrest⟩ := filter_eq_append_iff.mp hl
  obtain ⟨l₃, l₄, rfl, hskip, hqx, rfl⟩ := filter_eq_cons_iff.mp hrest
  refine ⟨l₁ ++ l₃, l₄, by simp, by simp [hqx, hx], fun y hy hpy => ?_, fun y hy hpy => ?_⟩
  · rw [Bool.and_eq_true] at hpy
    rcases mem_append.mp hy with hmem | hmem
    · exact hbefore y (mem_filter.mpr ⟨hmem, hpy.1⟩) hpy.2
    · exact absurd hpy.1 (hskip y hmem)
  · rw [Bool.and_eq_true] at hpy
    exact hafter y (mem_filter.mpr ⟨hy, hpy.1⟩) hpy.2

theorem FirstLeast.of_filterMap {cmp' : β → β → Ordering} {p' : β → Bool} {f : α → Option β}
    (hcmp : ∀ {x y x' y'}, f x = some x' → f y = some y' → cmp' x' y' = cmp x y)
    {x' : β} (h : FirstLeast cmp' p' (l.filterMap f) x') :
    ∃ x, f x = some x' ∧ FirstLeast cmp (fun x => (f x).any p') l x := by
  obtain ⟨before, after, hl, hx, hbefore, hafter⟩ := h
  obtain ⟨l₁, l₂, rfl, rfl, hrest⟩ := filterMap_eq_append_iff.mp hl
  obtain ⟨l₃, x, l₄, rfl, hskip, hfx, rfl⟩ := filterMap_eq_cons_iff.mp hrest
  refine ⟨x, hfx, l₁ ++ l₃, l₄, by simp, by simp [hfx, hx], fun y hy hpy => ?_,
    fun y hy hpy => ?_⟩
  · obtain ⟨y', hfy, hpy⟩ := (any_eq_true _ _).mp hpy
    rw [← hcmp hfx hfy]
    rcases mem_append.mp hy with hmem | hmem
    · exact hbefore y' (mem_filterMap.mpr ⟨y, hmem, hfy⟩) hpy
    · rw [hskip y hmem] at hfy
      cases hfy
  · obtain ⟨y', hfy, hpy⟩ := (any_eq_true _ _).mp hpy
    rw [← hcmp hfx hfy]
    exact hafter y' (mem_filterMap.mpr ⟨y, hy, hfy⟩) hpy

/-- Ties broken by the index are ties broken by the order of the list. -/
theorem FirstLeast.of_zipIdx {x : α × ℕ}
    (h : FirstLeast (compareLex (comparing cmp Prod.fst) (compareOn Prod.snd)) (fun y => p y.1)
      l.zipIdx x) : FirstLeast cmp p l x.1 := by
  obtain ⟨before, after, hl, hx, hbefore, hafter⟩ := h
  have hindex : (l.zipIdx.map Prod.snd).Pairwise (· < ·) := by
    rw [zipIdx_map_snd]
    exact pairwise_lt_range' 1
  rw [hl, map_append, map_cons, pairwise_append] at hindex
  have hlist : l = before.map Prod.fst ++ x.1 :: after.map Prod.fst := by
    rw [← zipIdx_map_fst 0 l, hl, map_append, map_cons]
  refine ⟨before.map Prod.fst, after.map Prod.fst, hlist, hx, fun y hy hpy => ?_,
    fun y hy hpy => ?_⟩
  · obtain ⟨z, hz, rfl⟩ := mem_map.mp hy
    have hlt : z.2 < x.2 := hindex.2.2 _ (mem_map_of_mem hz) _ mem_cons_self
    have hgt : compare x.2 z.2 = .gt := Nat.compare_eq_gt.mpr hlt
    have hcmp := hbefore z hz hpy
    cases hfirst : cmp x.1 z.1 with
    | lt => rfl
    | eq => simp [compareLex, comparing, compareOn, hfirst, hgt] at hcmp
    | gt => simp [compareLex, comparing, hfirst] at hcmp
  · obtain ⟨z, hz, rfl⟩ := mem_map.mp hy
    have hcmp := hafter z hz hpy
    cases hfirst : cmp x.1 z.1 with
    | lt | eq => rfl
    | gt => simp [compareLex, comparing, hfirst] at hcmp

variable [Std.TransCmp cmp]

theorem isLE_trans (a b c : α) (hab : (cmp a b).isLE = true) (hbc : (cmp b c).isLE = true) :
    (cmp a c).isLE = true :=
  Std.TransCmp.isLE_trans hab hbc

theorem isLE_total (a b : α) : ((cmp a b).isLE || (cmp b a).isLE) = true := by
  have hcases : ∀ o : Ordering, o.isLE = true ∨ o.isGE = true := by
    intro o
    cases o <;> simp
  rw [Bool.or_eq_true, ← Std.OrientedCmp.isGE_iff_isLE]
  exact (hcases _).symm

theorem pairwise_sortBy (l : List α) : (sortBy cmp l).Pairwise fun a b => (cmp a b).isLE = true :=
  pairwise_mergeSort isLE_trans isLE_total l

/-- **The first element of the sorted list that meets the condition** is the first of the least
that do. -/
theorem firstLeast_of_find? (h : (sortBy cmp l).find? p = some x) : FirstLeast cmp p l x := by
  induction l generalizing x with
  | nil => simp [sortBy] at h
  | cons a l ih =>
    have htrans : ∀ a b c : α, (cmp a b).isLE = true → (cmp b c).isLE = true →
        (cmp a c).isLE = true := isLE_trans
    obtain ⟨l₁, l₂, hsort, hrest, hbefore⟩ := mergeSort_cons htrans isLE_total a l
    have hsorted : (l₁ ++ a :: l₂).Pairwise fun a b => (cmp a b).isLE = true :=
      hsort ▸ pairwise_sortBy (a :: l)
    rw [sortBy, hsort, find?_append] at h
    rw [sortBy, hrest] at ih
    cases hfirst : l₁.find? p with
    | some y =>
      -- found before `a`, so strictly less than it
      rw [hfirst, some_or] at h
      refine (ih (by rw [find?_append, hfirst, some_or, h])).cons fun _ => ?_
      have hlt := hbefore x (some.inj h ▸ mem_of_find?_eq_some hfirst)
      rw [Bool.not_eq_true', Ordering.isLE_eq_false] at hlt
      exact Std.OrientedCmp.lt_of_gt hlt
    | none =>
      rw [hfirst, none_or, find?_cons] at h
      cases hpa : p a with
      | true =>
        rw [hpa] at h
        cases h
        refine ⟨[], l, rfl, hpa, by simp, fun y hy hpy => ?_⟩
        have hmem : y ∈ l₁ ++ l₂ := hrest ▸ mem_mergeSort.mpr hy
        rcases mem_append.mp hmem with hmem | hmem
        · exact absurd hpy (by simpa using find?_eq_none.mp hfirst y hmem)
        · exact rel_of_pairwise_cons (pairwise_append.mp hsorted).2.1 hmem
      | false =>
        rw [hpa] at h
        refine (ih ?_).cons fun hpa' => absurd (hpa.symm.trans hpa') Bool.false_ne_true
        rw [find?_append, hfirst, none_or]
        exact h

theorem FirstLeast.le (h : FirstLeast cmp p l x) : ∀ y ∈ l, p y = true → (cmp x y).isLE = true := by
  obtain ⟨before, after, rfl, -, hbefore, hafter⟩ := h
  intro y hy hpy
  rcases mem_append.mp hy with hmem | hmem
  · rw [hbefore y hmem hpy]
    rfl
  · rcases mem_cons.mp hmem with rfl | hmem
    · exact Std.ReflCmp.isLE_rfl
    · exact hafter y hmem hpy

/-- There is one first of the least. -/
theorem FirstLeast.unique {x' : α} (h : FirstLeast cmp p l x)
    (h' : FirstLeast cmp p l x') : x = x' := by
  obtain ⟨before, after, rfl, hx, hbefore, hafter⟩ := h
  obtain ⟨before', after', hl, hx', hbefore', hafter'⟩ := h'
  -- one stands before the other, or they stand at the same place
  rcases append_eq_append_iff.mp hl with ⟨as, rfl, hrest⟩ | ⟨bs, rfl, hrest⟩
  · cases as with
    | nil => exact (cons.inj hrest).1
    | cons a as =>
      obtain ⟨rfl, rfl⟩ := cons.inj hrest
      have hlt := hbefore' x (by simp) hx
      have hle := hafter x' (by simp) hx'
      rw [Std.OrientedCmp.gt_of_lt hlt] at hle
      cases hle
  · cases bs with
    | nil => exact (cons.inj hrest).1.symm
    | cons b bs =>
      obtain ⟨rfl, rfl⟩ := cons.inj hrest
      have hlt := hbefore x' (by simp) hx'
      have hle := hafter' x (by simp) hx
      rw [Std.OrientedCmp.gt_of_lt hlt] at hle
      cases hle

/-- **Whatever the order of the list**, the first of the least is the same, if elements that
meet the condition and compare equal are equal. -/
theorem FirstLeast.eq_of_perm {l' : List α} {x' : α} (hperm : l'.Perm l)
    (h : FirstLeast cmp p l x) (h' : FirstLeast cmp p l' x')
    (heq : ∀ y ∈ l, ∀ z ∈ l, p y = true → p z = true → cmp y z = .eq → y = z) : x = x' := by
  have hmem' : x' ∈ l := hperm.mem_iff.mp h'.mem
  refine heq x h.mem x' hmem' h.meets h'.meets (Std.OrientedCmp.isLE_antisymm ?_ ?_)
  · exact h.le x' hmem' h'.meets
  · exact h'.le x (hperm.mem_iff.mpr h.mem) h.meets

/-! ### Sorting on a key -/

section

variable {κ : Type*} [LinearOrder κ] (f : α → κ) (reverse : Bool)

/-- The order of the keys: upwards, or **in reverse**. -/
def keyLE (k k' : κ) : Prop := if reverse then k' ≤ k else k ≤ k'

instance decidableKeyLE (k k' : κ) : Decidable (keyLE reverse k k') :=
  inferInstanceAs (Decidable (if reverse then k' ≤ k else k ≤ k'))

/-- The list sorted on the key `f`: elements with one key keep their order, in reverse too. -/
def sortOn (l : List α) : List α := l.mergeSort fun a b => keyLE reverse (f a) (f b)

theorem sortOn_perm (l : List α) : (sortOn f reverse l).Perm l := mergeSort_perm l _

theorem keyLE_trans {k₁ k₂ k₃ : κ} (h : keyLE reverse k₁ k₂) (h' : keyLE reverse k₂ k₃) :
    keyLE reverse k₁ k₃ := by
  cases reverse with
  | false => exact h.trans h'
  | true => exact h'.trans h

theorem keyLE_total (k k' : κ) : keyLE reverse k k' ∨ keyLE reverse k' k := by
  cases reverse with
  | false => exact le_total k k'
  | true => exact le_total k' k

theorem keyLE_antisymm {k k' : κ} (h : keyLE reverse k k') (h' : keyLE reverse k' k) : k = k' := by
  cases reverse with
  | false => exact h.antisymm h'
  | true => exact h'.antisymm h

theorem pairwise_sortOn (l : List α) :
    (sortOn f reverse l).Pairwise fun a b => keyLE reverse (f a) (f b) := by
  refine Pairwise.imp of_decide_eq_true (pairwise_mergeSort ?_ ?_ l)
  · intro a b c hab hbc
    exact decide_eq_true
      (keyLE_trans reverse (of_decide_eq_true hab) (of_decide_eq_true hbc))
  · intro a b
    simpa using keyLE_total reverse (f a) (f b)

/-- **The sorted keys do not depend on the order of the list.** -/
theorem map_sortOn_eq_of_perm {l l' : List α} (h : (l.map f).Perm (l'.map f)) :
    (sortOn f reverse l).map f = (sortOn f reverse l').map f := by
  have hperm : ((sortOn f reverse l).map f).Perm ((sortOn f reverse l').map f) :=
    (((sortOn_perm f reverse l).map f).trans h).trans ((sortOn_perm f reverse l').map f).symm
  refine hperm.eq_of_pairwise (fun _ _ _ _ => keyLE_antisymm reverse) ?_ ?_
  · exact pairwise_map.mpr (pairwise_sortOn f reverse l)
  · exact pairwise_map.mpr (pairwise_sortOn f reverse l')

end

end ServiceToolkit.StableSort
