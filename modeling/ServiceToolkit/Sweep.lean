import Mathlib.Algebra.BigOperators.Intervals
import Mathlib.Algebra.Order.Field.Basic
import Mathlib.Data.List.Sort
import Mathlib.Tactic.Linarith
import Mathlib.Tactic.Ring

/-!
# Sweeps over Boundaries

A sweep goes along an ordered list of boundaries with a state that changes at boundaries. Over
each window, from one boundary to the next, it collects the length of the window times a rate
that depends on where the window starts and on the state there. `total` is what it collects.
-/

namespace ServiceToolkit.Sweep

open List

variable {K σ α : Type*} [Field K] [LinearOrder K]

/-- What a sweep collects. -/
def total (update : K → σ → σ) (rate : K → σ → K) : σ → List K → K
  | s, cur :: next :: rest =>
    max (next - cur) 0 * rate cur s + total update rate (update next s) (next :: rest)
  | _, _ => 0

/-- The state a sweep ends in. -/
def final (update : K → σ → σ) (s : σ) (l : List K) : σ :=
  l.tail.foldl (fun s x => update x s) s

section

variable {update : K → σ → σ} {rate : K → σ → K}

@[simp] theorem total_nil (s : σ) : total update rate s [] = 0 := by
  rw [total]
  rintro _ _ _ ⟨⟩

@[simp] theorem total_singleton (s : σ) (x : K) : total update rate s [x] = 0 := by
  rw [total]
  rintro _ _ _ ⟨⟩

theorem total_cons_cons (s : σ) (cur next : K) (rest : List K) :
    total update rate s (cur :: next :: rest) =
      max (next - cur) 0 * rate cur s + total update rate (update next s) (next :: rest) := by
  rw [total]

omit [Field K] [LinearOrder K] in
theorem final_cons_cons (s : σ) (cur next : K) (rest : List K) :
    final update s (cur :: next :: rest) = final update (update next s) (next :: rest) := rfl

/-- **A sweep may be cut** at a boundary. -/
theorem total_append (s : σ) (l : List K) (x : K) (r : List K) : total update rate s (l ++ x :: r) =
      total update rate s (l ++ [x]) + total update rate (final update s (l ++ [x])) (x :: r) := by
  induction l generalizing s with
  | nil => simp [final]
  | cons cur l ih =>
    cases l with
    | nil =>
      simp only [cons_append, nil_append, total_cons_cons, total_singleton, add_zero]
      rfl
    | cons next l =>
      have hcut := ih (update next s)
      simp only [cons_append, total_cons_cons, final_cons_cons] at hcut ⊢
      rw [hcut, add_assoc]

variable {s : σ} {l : List K}

theorem total_eq_zero (h : ∀ x ∈ l.dropLast, ∀ s, rate x s = 0) : total update rate s l = 0 := by
  induction l generalizing s with
  | nil => exact total_nil s
  | cons cur l ih =>
    cases l with
    | nil => exact total_singleton s cur
    | cons next l =>
      rw [dropLast_cons_cons, forall_mem_cons] at h
      rw [total_cons_cons, h.1, mul_zero, zero_add]
      exact ih h.2

theorem total_congr {rate' : K → σ → K} (h : ∀ x ∈ l.dropLast, ∀ s, rate x s = rate' x s) :
    total update rate s l = total update rate' s l := by
  induction l generalizing s with
  | nil => rw [total_nil, total_nil]
  | cons cur l ih =>
    cases l with
    | nil => rw [total_singleton, total_singleton]
    | cons next l =>
      rw [dropLast_cons_cons, forall_mem_cons] at h
      rw [total_cons_cons, total_cons_cons, h.1, ih h.2]

/-- A state that is worth nothing anywhere, and that no boundary but the first and the last
changes. -/
theorem total_eq_zero_of_state (hupdate : ∀ x ∈ l.tail.dropLast, update x s = s)
    (hrate : ∀ x, rate x s = 0) : total update rate s l = 0 := by
  induction l with
  | nil => exact total_nil s
  | cons cur l ih =>
    cases l with
    | nil => exact total_singleton s cur
    | cons next l =>
      rw [total_cons_cons, hrate, mul_zero, zero_add]
      cases l with
      | nil => exact total_singleton _ next
      | cons after l =>
        rw [tail_cons, dropLast_cons_cons, forall_mem_cons] at hupdate
        rw [hupdate.1]
        exact ih hupdate.2

omit [Field K] [LinearOrder K] in
theorem final_eq_self (h : ∀ x ∈ l.tail, update x s = s) : final update s l = s := by
  rw [final]
  generalize l.tail = r at h ⊢
  induction r with
  | nil => rfl
  | cons x l ih =>
    rw [forall_mem_cons] at h
    rw [foldl_cons, h.1]
    exact ih h.2

omit [Field K] [LinearOrder K] in
theorem final_concat (hne : l ≠ []) (x : K) :
    final update s (l ++ [x]) = update x (final update s l) := by
  rw [final, final, tail_append_of_ne_nil hne, foldl_append, foldl_cons, foldl_nil]

end

section

variable [IsStrictOrderedRing K] {update : K → σ → σ} {rate : K → σ → K} {s : σ} {l : List K}

theorem total_of_antitone (h : l.Pairwise (· ≥ ·)) : total update rate s l = 0 := by
  induction l generalizing s with
  | nil => exact total_nil s
  | cons cur l ih =>
    cases l with
    | nil => exact total_singleton s cur
    | cons next l =>
      rw [pairwise_cons] at h
      have hle : next ≤ cur := h.1 next mem_cons_self
      rw [total_cons_cons, max_eq_right (sub_nonpos.mpr hle), zero_mul, zero_add]
      exact ih h.2

variable {x : K}

theorem total_skip {b : K} (hxb : x < b) (hl : ∀ y ∈ l, b < y)
    (hne : l ≠ []) (hupdate : update b s = s) (hrate : rate b s = rate x s) :
    total update rate s (x :: b :: l) = total update rate s (x :: l) := by
  obtain ⟨y, l, rfl⟩ := exists_cons_of_ne_nil hne
  have hby : b < y := hl y mem_cons_self
  rw [total_cons_cons, total_cons_cons, total_cons_cons, hupdate, hrate,
    max_eq_left (sub_nonneg.mpr hxb.le), max_eq_left (sub_nonneg.mpr hby.le),
    max_eq_left (sub_nonneg.mpr (hxb.trans hby).le)]
  ring

/-- **Refinement**: boundaries that change neither the state nor the rate, and are not the
last, may be left out. -/
theorem total_refine {l₁ l₂ : List K} (hsub : l₁.Sublist l₂)
    (hsorted : (x :: l₂).Pairwise (· < ·)) (hlast : ∀ b ∈ l₂, ∃ y ∈ l₁, b ≤ y)
    (hupdate : ∀ b ∈ l₂, b ∉ l₁ → ∀ s, update b s = s)
    (hrate : ∀ b ∈ l₂, b ∉ l₁ → ∀ p, x ≤ p → p < b → (∀ y ∈ l₁, y ≤ p ∨ b < y) →
      ∀ s, rate b s = rate p s) :
    total update rate s (x :: l₂) = total update rate s (x :: l₁) := by
  induction hsub generalizing x s with
  | slnil => rfl
  | @cons l₁ l₂ b hsub ih =>
    rw [pairwise_cons] at hsorted
    obtain ⟨hx, hsorted'⟩ := hsorted
    rw [pairwise_cons] at hsorted'
    have hxb : x < b := hx b mem_cons_self
    have hb : b ∉ l₁ := fun hmem => (hsorted'.1 b (hsub.subset hmem)).false
    obtain ⟨y, hy, -⟩ := hlast b mem_cons_self
    rw [total_skip hxb hsorted'.1 (ne_nil_of_mem (hsub.subset hy)) (hupdate b mem_cons_self hb s)
      (hrate b mem_cons_self hb x le_rfl hxb (fun y hy => .inr (hsorted'.1 y (hsub.subset hy))) s)]
    refine ih ?_ (fun b' hb' => hlast b' (mem_cons_of_mem b hb'))
      (fun b' hb' => hupdate b' (mem_cons_of_mem b hb'))
      (fun b' hb' => hrate b' (mem_cons_of_mem b hb'))
    exact pairwise_cons.mpr ⟨fun y hy => hx y (mem_cons_of_mem b hy), hsorted'.2⟩
  | @cons_cons l₁ l₂ b hsub ih =>
    rw [pairwise_cons] at hsorted
    obtain ⟨hx, hsorted'⟩ := hsorted
    have hxb : x < b := hx b mem_cons_self
    have hgt : ∀ y ∈ l₂, b < y := (pairwise_cons.mp hsorted').1
    have hnot : ∀ {y}, y ∈ l₂ → y ∉ l₁ → y ∉ b :: l₁ := by
      intro y hy hy₁ hmem
      rcases mem_cons.mp hmem with rfl | hmem
      · exact (hgt y hy).false
      · exact hy₁ hmem
    rw [total_cons_cons, total_cons_cons]
    refine congrArg _ (ih hsorted' (fun y hy => ?_) (fun y hy hy₁ => ?_)
      (fun y hy hy₁ p hp hpy hgap => ?_))
    · obtain ⟨z, hz, hyz⟩ := hlast y (mem_cons_of_mem b hy)
      rcases mem_cons.mp hz with rfl | hz
      · exact absurd (hgt y hy) hyz.not_gt
      · exact ⟨z, hz, hyz⟩
    · exact hupdate y (mem_cons_of_mem b hy) (hnot hy hy₁)
    · refine hrate y (mem_cons_of_mem b hy) (hnot hy hy₁) p (hxb.le.trans hp) hpy ?_
      exact forall_mem_cons.mpr ⟨.inl hp, hgap⟩

theorem total_nonneg (hrate : ∀ x s, 0 ≤ rate x s) : 0 ≤ total update rate s l := by
  induction l generalizing s with
  | nil => exact (total_nil s).ge
  | cons cur l ih =>
    cases l with
    | nil => exact (total_singleton s cur).ge
    | cons next l =>
      rw [total_cons_cons]
      exact add_nonneg (mul_nonneg (le_max_right _ _) (hrate cur s)) ih

theorem total_le (hrate : ∀ x s, rate x s ≤ 1) {y : K}
    (hsorted : (x :: l).Pairwise (· < ·)) (hy : ∀ z ∈ x :: l, z ≤ y) :
    total update rate s (x :: l) ≤ y - x := by
  induction l generalizing s x with
  | nil =>
    rw [total_singleton]
    exact sub_nonneg.mpr (hy x mem_cons_self)
  | cons next l ih =>
    rw [pairwise_cons] at hsorted
    rw [forall_mem_cons] at hy
    have hlt : x < next := hsorted.1 next mem_cons_self
    have hrest := ih (s := update next s) hsorted.2 hy.2
    have hwindow : (next - x) * rate x s ≤ next - x :=
      mul_le_of_le_one_right (sub_nonneg.mpr hlt.le) (hrate x s)
    rw [total_cons_cons, max_eq_left (sub_nonneg.mpr hlt.le)]
    linarith

theorem total_le_until (hrate : ∀ x s, rate x s ≤ 1) {t : σ} {m : K}
    (hsorted : (x :: l).Pairwise (· < ·)) (hm : m ∈ l) (hworth : ∀ x, rate x t = 0)
    (hbrings : ∀ s, update m s = t) (hstays : ∀ y ∈ l.dropLast, m < y → update y t = t) :
    total update rate s (x :: l) ≤ m - x := by
  induction l generalizing s x with
  | nil => cases hm
  | cons next l ih =>
    rw [pairwise_cons] at hsorted
    have hlt : x < next := hsorted.1 next mem_cons_self
    have hwindow : (next - x) * rate x s ≤ next - x :=
      mul_le_of_le_one_right (sub_nonneg.mpr hlt.le) (hrate x s)
    rw [total_cons_cons, max_eq_left (sub_nonneg.mpr hlt.le)]
    rcases mem_cons.mp hm with rfl | hm
    · have hzero : total update rate t (m :: l) = 0 := by
        refine total_eq_zero_of_state (fun y hy => ?_) hworth
        rw [tail_cons] at hy
        have hne : l ≠ [] := ne_nil_of_mem (mem_of_mem_dropLast hy)
        refine hstays y ?_ ((pairwise_cons.mp hsorted.2).1 y (mem_of_mem_dropLast hy))
        rw [dropLast_cons_of_ne_nil hne]
        exact mem_cons_of_mem m hy
      rw [hbrings, hzero]
      linarith
    · have hrest := ih (s := update next s) hsorted.2 hm fun y hy hmy => by
        refine hstays y ?_ hmy
        rw [dropLast_cons_of_ne_nil (ne_nil_of_mem hm)]
        exact mem_cons_of_mem next hy
      linarith

/-- **When nothing is collected**: with a state that does not change and rates that are not
negative, exactly when every window has rate zero. -/
theorem total_eq_zero_iff (hsorted : l.Pairwise (· < ·))
    (hupdate : ∀ x ∈ l.tail, update x s = s) (hrate : ∀ x s, 0 ≤ rate x s) :
    total update rate s l = 0 ↔ ∀ x ∈ l.dropLast, rate x s = 0 := by
  induction l with
  | nil => simp
  | cons cur l ih =>
    cases l with
    | nil => simp
    | cons next l =>
      rw [pairwise_cons] at hsorted
      have hlt : 0 < next - cur := sub_pos.mpr (hsorted.1 next mem_cons_self)
      rw [tail_cons, forall_mem_cons] at hupdate
      have ih := ih hsorted.2 hupdate.2
      have hrest : 0 ≤ total update rate s (next :: l) := total_nonneg hrate
      rw [total_cons_cons, hupdate.1, max_eq_left hlt.le, dropLast_cons_cons, forall_mem_cons,
        add_eq_zero_iff_of_nonneg (mul_nonneg hlt.le (hrate cur s)) hrest, ih,
        mul_eq_zero_iff_left hlt.ne']

/-- **Over all ticks**, with the state of every tick given, the total is the sum of the
rates. -/
theorem total_range (update : K → σ → σ) (rate : K → σ → K) (state : ℕ → σ) (n a : ℕ)
    (hstate : ∀ t ∈ Finset.Ico a (a + n), update ((t + 1 : ℕ) : K) (state t) = state (t + 1)) :
    total update rate (state a) ((List.range' a (n + 1)).map (Nat.cast : ℕ → K)) =
      ∑ t ∈ Finset.Ico a (a + n), rate (t : K) (state t) := by
  induction n generalizing a with
  | zero => simp
  | succ n ih =>
    have hlt : a < a + (n + 1) := by omega
    have hnext := hstate a (Finset.mem_Ico.mpr ⟨le_rfl, hlt⟩)
    have hrest := ih (a + 1) fun t ht => hstate t <| by
      rw [Finset.mem_Ico] at ht ⊢
      omega
    rw [range'_succ, range'_succ, map_cons, map_cons, total_cons_cons, hnext,
      Finset.sum_eq_sum_Ico_succ_bot hlt]
    have hend : a + 1 + n = a + (n + 1) := by omega
    rw [range'_succ, map_cons, hend] at hrest
    rw [hrest]
    have hone : max (((a + 1 : ℕ) : K) - a) 0 = 1 := by
      push_cast
      rw [add_sub_cancel_left, max_eq_left zero_le_one]
    rw [hone, one_mul]

end

/-! ### Ordered lists -/

theorem eq_filter_append_filter {α : Type*} {p : α → Bool} {l : List α}
    (h : l.Pairwise fun a b => p b = true → p a = true) : l = l.filter p ++ l.filter (!p ·) := by
  induction l with
  | nil => rfl
  | cons a l ih =>
    rw [pairwise_cons] at h
    cases ha : p a with
    | true =>
      rw [filter_cons_of_pos ha, filter_cons_of_neg (by simp [ha]), cons_append, ← ih h.2]
    | false =>
      have hnone : ∀ b ∈ l, p b = false := by
        intro b hb
        by_contra hpb
        rw [h.1 b hb (Bool.eq_true_of_not_eq_false hpb)] at ha
        cases ha
      have hall : ∀ b ∈ a :: l, p b = false := forall_mem_cons.mpr ⟨ha, hnone⟩
      rw [filter_eq_nil_iff.mpr fun b hb => by simp [hall b hb],
        filter_eq_self.mpr fun b hb => by simp [hall b hb], nil_append]

theorem sublist_of_subset {α : Type*} [PartialOrder α] {l₁ l₂ : List α}
    (h₁ : l₁.Pairwise (· < ·)) (h₂ : l₂.Pairwise (· < ·)) (hsub : l₁ ⊆ l₂) : l₁.Sublist l₂ :=
  sublist_of_subperm_of_pairwise (subperm_of_subset (h₁.imp ne_of_lt) hsub)
    (h₁.imp le_of_lt) (h₂.imp le_of_lt)

theorem exists_eq_cons {α : Type*} [PartialOrder α] {l : List α} (h : l.Pairwise (· < ·)) {x : α}
    (hx : x ∈ l) (hmin : ∀ y ∈ l, x ≤ y) : ∃ r, l = x :: r := by
  cases l with
  | nil => cases hx
  | cons a l =>
    rcases mem_cons.mp hx with rfl | hmem
    · exact ⟨l, rfl⟩
    · exact absurd ((pairwise_cons.mp h).1 x hmem) (hmin a mem_cons_self).not_gt

theorem exists_eq_concat {α : Type*} [PartialOrder α] {l : List α} (h : l.Pairwise (· < ·)) {x : α}
    (hx : x ∈ l) (hmax : ∀ y ∈ l, y ≤ x) : ∃ r, l = r ++ [x] := by
  obtain ⟨r, y, rfl⟩ := (eq_nil_or_concat l).resolve_left (ne_nil_of_mem hx)
  rw [concat_eq_append] at *
  rcases mem_append.mp hx with hmem | hmem
  · have hlt := (pairwise_append.mp h).2.2 x hmem y mem_cons_self
    exact absurd hlt (hmax y (by simp)).not_gt
  · exact ⟨r, by rw [mem_singleton.mp hmem]⟩

/-- The elements of a strictly increasing list that are followed by another. -/
theorem mem_dropLast_iff {α : Type*} [LinearOrder α] {l : List α} (h : l.Pairwise (· < ·)) {x : α} :
    x ∈ l.dropLast ↔ x ∈ l ∧ ∃ y ∈ l, x < y := by
  induction l with
  | nil => simp
  | cons a l ih =>
    rw [pairwise_cons] at h
    cases l with
    | nil => simpa using fun hx : x = a => hx.ge
    | cons b l =>
      have hab : a < b := h.1 b mem_cons_self
      rw [dropLast_cons_cons, mem_cons, ih h.2]
      constructor
      · rintro (rfl | ⟨hx, y, hy, hxy⟩)
        · exact ⟨mem_cons_self, b, by simp, hab⟩
        · exact ⟨mem_cons_of_mem a hx, y, mem_cons_of_mem a hy, hxy⟩
      · rintro ⟨hx, y, hy, hxy⟩
        rcases mem_cons.mp hx with rfl | hxl
        · exact .inl rfl
        · rcases mem_cons.mp hy with rfl | hyl
          · exact absurd (h.1 x hxl) hxy.not_gt
          · exact .inr ⟨hxl, y, hyl, hxy⟩

/-! ### Before, inside and after -/

/-- A strictly increasing list in three parts: before `x`, from `x` to `w`, and after `w`. -/
structure Split [LinearOrder α] (l : List α) (x w : α) (pre mid post : List α) : Prop where
  eq : l = pre ++ (mid ++ post)
  sorted : l.Pairwise (· < ·)
  pre_lt : ∀ p ∈ pre, p < x
  first : ∃ r, mid = x :: r
  last : ∃ r, mid = r ++ [w]
  mid_mem : ∀ y ∈ mid, x ≤ y ∧ y ≤ w
  post_gt : ∀ z ∈ post, w < z

/-- Every strictly increasing list can be split at two of its elements. -/
theorem exists_split [LinearOrder α] {l : List α} (h : l.Pairwise (· < ·)) {x w : α} (hx : x ∈ l)
    (hw : w ∈ l) (hxw : x ≤ w) : ∃ pre mid post, Split l x w pre mid post := by
  have hcut := eq_filter_append_filter (p := fun y => decide (y < x)) (l := l)
    (h.imp fun {a b} hab hb => by
      rw [decide_eq_true_eq] at hb ⊢
      exact hab.trans hb)
  have hcut' := eq_filter_append_filter (p := fun y => decide (y ≤ w))
    (l := l.filter fun y => !decide (y < x)) ((h.filter _).imp fun {a b} hab hb => by
      rw [decide_eq_true_eq] at hb ⊢
      exact hab.le.trans hb)
  have hmem : ∀ {y}, y ∈ (l.filter fun y => !decide (y < x)).filter (fun y => decide (y ≤ w)) ↔
      y ∈ l ∧ x ≤ y ∧ y ≤ w := by
    intro y
    simp [and_comm]
  have hmid := (h.filter fun y => !decide (y < x)).filter fun y => decide (y ≤ w)
  refine ⟨_, _, _, hcut' ▸ hcut, h, ?_, exists_eq_cons hmid (hmem.mpr ⟨hx, le_rfl, hxw⟩)
    fun y hy => (hmem.mp hy).2.1, exists_eq_concat hmid (hmem.mpr ⟨hw, hxw, le_rfl⟩)
    fun y hy => (hmem.mp hy).2.2, fun y hy => (hmem.mp hy).2, ?_⟩
  · intro p hp
    simpa using (mem_filter.mp hp).2
  · intro z hz
    simpa using (mem_filter.mp hz).2

section

variable [LinearOrder α] {l pre mid post : List α} {x w y : α}

variable (h : Split l x w pre mid post)
include h

theorem Split.mem_iff : y ∈ l ↔ y ∈ pre ∨ y ∈ mid ∨ y ∈ post := by
  rw [h.eq, mem_append, mem_append]

theorem Split.mem_mid_iff : y ∈ mid ↔ y ∈ l ∧ x ≤ y ∧ y ≤ w := by
  refine ⟨fun hy => ⟨h.mem_iff.mpr (.inr (.inl hy)), h.mid_mem y hy⟩, ?_⟩
  rintro ⟨hy, hxy, hyw⟩
  rcases h.mem_iff.mp hy with hy | hy | hy
  · exact absurd (h.pre_lt y hy) hxy.not_gt
  · exact hy
  · exact absurd (h.post_gt y hy) hyw.not_gt

theorem Split.mem_pre_iff : y ∈ pre ↔ y ∈ l ∧ y < x := by
  refine ⟨fun hy => ⟨h.mem_iff.mpr (.inl hy), h.pre_lt y hy⟩, ?_⟩
  rintro ⟨hy, hyx⟩
  obtain ⟨r, hr⟩ := h.first
  have hxw : x ≤ w := (h.mid_mem x (by simp [hr])).2
  rcases h.mem_iff.mp hy with hy | hy | hy
  · exact hy
  · exact absurd hyx (h.mid_mem y hy).1.not_gt
  · exact absurd (hyx.trans_le hxw) (h.post_gt y hy).not_gt

theorem Split.mid_sorted : mid.Pairwise (· < ·) := by
  have hsorted := h.sorted
  rw [h.eq] at hsorted
  exact (pairwise_append.mp (pairwise_append.mp hsorted).2.1).1

theorem Split.mem_post_iff : y ∈ w :: post ↔ y ∈ l ∧ w ≤ y := by
  obtain ⟨r, hr⟩ := h.last
  have hw : w ∈ mid := by simp [hr]
  constructor
  · intro hy
    rcases mem_cons.mp hy with rfl | hy
    · exact ⟨h.mem_iff.mpr (.inr (.inl hw)), le_rfl⟩
    · exact ⟨h.mem_iff.mpr (.inr (.inr hy)), (h.post_gt y hy).le⟩
  · rintro ⟨hy, hwy⟩
    rcases h.mem_iff.mp hy with hy | hy | hy
    · exact absurd ((h.pre_lt y hy).trans_le (h.mid_mem w hw).1) hwy.not_gt
    · exact mem_cons.mpr (.inl (le_antisymm (h.mid_mem y hy).2 hwy))
    · exact mem_cons_of_mem w hy

theorem Split.post_sorted : (w :: post).Pairwise (· < ·) := by
  have hsorted := h.sorted
  rw [h.eq] at hsorted
  exact pairwise_cons.mpr ⟨h.post_gt, (pairwise_append.mp (pairwise_append.mp hsorted).2.1).2.1⟩

theorem Split.pre_sorted : (pre ++ [x]).Pairwise (· < ·) := by
  have hsorted := h.sorted
  rw [h.eq] at hsorted
  refine pairwise_append.mpr ⟨(pairwise_append.mp hsorted).1,
    pairwise_singleton _ _, fun p hp y hy => ?_⟩
  rw [mem_singleton.mp hy]
  exact h.pre_lt p hp

end

/-- **A sweep in three parts.** -/
theorem total_split {update : K → σ → σ} {rate : K → σ → K} {l pre mid post : List K} {x w : K}
    (h : Split l x w pre mid post) (s : σ) :
    total update rate s l = total update rate s (pre ++ [x]) +
      total update rate (final update s (pre ++ [x])) mid +
      total update rate (final update (final update s (pre ++ [x])) mid) (w :: post) := by
  obtain ⟨r, hr⟩ := h.first
  obtain ⟨r', hr'⟩ := h.last
  rw [add_assoc, h.eq, hr, cons_append, total_append]
  congr 1
  rw [← cons_append, ← hr, hr', append_assoc, singleton_append, total_append]

end ServiceToolkit.Sweep
