import Mathlib.Data.List.Basic
import Mathlib.Data.List.Infix

/-!
# Paths of Segments

A path such as `a.b.c` is a list of segments joined by a separator. Programs compare and cut
such paths as flat sequences (`startswith`, `removeprefix`), and what they mean is the list of
segments. For segments that are not empty and hold no separator the two agree:

* `join_inj` — two paths are the same text exactly when they have the same segments;
* `prefix_join_iff` — a path followed by the separator starts another path exactly when its
  segments start the other's and more follow;
* `drop_join_append` — cutting that leading part off leaves the path of the other segments;
* `sep_suffix_join_iff` — what follows a separator is the path of the last segments.

For any text the parts between its separators do the same, empty ones included
(`sep_prefix_iff`, `drop_of_splitOn`).
-/

namespace ServiceToolkit.Paths

open List

variable {α : Type*} [DecidableEq α]

/-- The text of a path. -/
def join (sep : α) (segments : List (List α)) : List α := [sep].intercalate segments

/-- Segments that can be told apart in the text: none is empty and none holds the
separator. -/
def Valid (sep : α) (segments : List (List α)) : Prop := ∀ s ∈ segments, s ≠ [] ∧ sep ∉ s

omit [DecidableEq α] in
@[simp] theorem join_nil (sep : α) : join sep [] = [] := rfl

omit [DecidableEq α] in
@[simp] theorem join_singleton (sep : α) (s : List α) : join sep [s] = s := by
  simp [join]

omit [DecidableEq α] in
theorem join_cons (sep : α) (s : List α) {a : List (List α)} (ha : a ≠ []) :
    join sep (s :: a) = s ++ sep :: join sep a := by
  rw [join, intercalate_cons_of_ne_nil ha, append_assoc, singleton_append]
  rfl

omit [DecidableEq α] in
theorem join_append (sep : α) {a b : List (List α)} (ha : a ≠ []) (hb : b ≠ []) :
    join sep (a ++ b) = join sep a ++ sep :: join sep b := by
  induction a with
  | nil => exact absurd rfl ha
  | cons s rest ih =>
    by_cases hrest : rest = []
    · subst hrest
      rw [singleton_append, join_cons sep s hb, join_singleton]
    · have hne : rest ++ b ≠ [] := by simp [hrest]
      rw [cons_append, join_cons sep s hne, ih hrest, join_cons sep s hrest,
        append_assoc, cons_append]

omit [DecidableEq α] in
theorem mem_join {sep x : α} {segments : List (List α)} (h : x ∈ join sep segments) :
    x = sep ∨ ∃ s ∈ segments, x ∈ s := by
  induction segments with
  | nil => exact absurd h not_mem_nil
  | cons s rest ih =>
    by_cases hrest : rest = []
    · subst hrest
      rw [join_singleton] at h
      exact .inr ⟨s, mem_singleton_self s, h⟩
    · rw [join_cons sep s hrest, mem_append, mem_cons] at h
      rcases h with h | h | h
      · exact .inr ⟨s, mem_cons_self, h⟩
      · exact .inl h
      · rcases ih h with h | ⟨t, ht, hx⟩
        · exact .inl h
        · exact .inr ⟨t, mem_cons_of_mem s ht, hx⟩

omit [DecidableEq α] in
theorem sublist_join (sep : α) {segments : List (List α)} {s : List α} (hs : s ∈ segments) :
    s.Sublist (join sep segments) := by
  induction segments with
  | nil => cases hs
  | cons t rest ih =>
    by_cases hrest : rest = []
    · subst hrest
      rw [join_singleton, mem_singleton.mp hs]
    · rw [join_cons sep t hrest]
      rcases mem_cons.mp hs with rfl | hs
      · exact sublist_append_left s _
      · exact ((ih hs).cons sep).trans (sublist_append_right t _)

/-- What a text splits into holds no separator, and nothing the text does not hold. -/
theorem mem_splitOn {sep : α} {text s : List α} (hs : s ∈ text.splitOn sep) :
    sep ∉ s ∧ ∀ x ∈ s, x ∈ text := by
  induction text generalizing s with
  | nil =>
    rw [splitOn_nil, mem_singleton] at hs
    subst hs
    simp
  | cons y text ih =>
    rw [splitOn_cons_eq_if_modifyHead] at hs
    by_cases hy : y = sep
    · rw [if_pos (beq_iff_eq.mpr hy), mem_cons] at hs
      rcases hs with rfl | hs
      · simp
      · exact ⟨(ih hs).1, fun x hx => mem_cons_of_mem y ((ih hs).2 x hx)⟩
    · rw [if_neg (by simpa using hy)] at hs
      obtain ⟨first, rest, hsplit⟩ := exists_cons_of_ne_nil (splitOn_ne_nil sep text)
      rw [hsplit] at hs ih
      rw [modifyHead_cons, mem_cons] at hs
      rcases hs with rfl | hs
      · have hfirst := @ih first mem_cons_self
        refine ⟨?_, fun x hx => ?_⟩
        · rw [mem_cons, not_or]
          exact ⟨Ne.symm hy, hfirst.1⟩
        · rcases mem_cons.mp hx with rfl | hx
          · exact mem_cons_self
          · exact mem_cons_of_mem y (hfirst.2 x hx)
      · have hrest := @ih s (mem_cons_of_mem first hs)
        exact ⟨hrest.1, fun x hx => mem_cons_of_mem y (hrest.2 x hx)⟩

theorem splitOn_join {sep : α} {a : List (List α)} (ha : Valid sep a) (hne : a ≠ []) :
    (join sep a).splitOn sep = a :=
  splitOn_intercalate sep (fun s hs => (ha s hs).2) hne

theorem splitOn_join_flatMap {sep : α} {a : List (List α)} (hne : a ≠ []) :
    (join sep a).splitOn sep = a.flatMap (List.splitOn sep) := by
  induction a with
  | nil => exact absurd rfl hne
  | cons s a ih =>
    by_cases ha : a = []
    · subst ha
      rw [join_singleton, flatMap_singleton]
    · rw [join_cons sep s ha, splitOn_append_cons_self, ih ha, flatMap_cons]

omit [DecidableEq α] in
theorem join_eq_nil_iff {sep : α} {a : List (List α)} (ha : Valid sep a) :
    join sep a = [] ↔ a = [] := by
  constructor
  · intro h
    cases a with
    | nil => rfl
    | cons s rest =>
      have hs : s ≠ [] := (ha s mem_cons_self).1
      by_cases hrest : rest = []
      · subst hrest
        exact absurd h (by simpa using hs)
      · rw [join_cons sep s hrest] at h
        exact absurd h (by simp)
  · rintro rfl
    rfl

/-- **A path is its segments.** -/
theorem join_inj {sep : α} {a b : List (List α)} (ha : Valid sep a) (hb : Valid sep b) :
    join sep a = join sep b ↔ a = b := by
  constructor
  · intro h
    by_cases hane : a = []
    · subst hane
      exact ((join_eq_nil_iff hb).mp h.symm).symm
    · have hbne : b ≠ [] := by
        rintro rfl
        exact hane ((join_eq_nil_iff ha).mp h)
      rw [← splitOn_join ha hane, h, splitOn_join hb hbne]
  · rintro rfl
    rfl

/-- **A leading part of the text** that ends with the separator is a proper leading part of
the segments. -/
theorem prefix_join_iff {sep : α} {a b : List (List α)} (ha : Valid sep a) (hb : Valid sep b)
    (hne : a ≠ []) : join sep a ++ [sep] <+: join sep b ↔ ∃ c, c ≠ [] ∧ b = a ++ c := by
  constructor
  · rintro ⟨rest, hrest⟩
    have hbne : b ≠ [] := by
      rintro rfl
      simp at hrest
    refine ⟨rest.splitOn sep, splitOn_ne_nil sep rest, ?_⟩
    calc b = (join sep b).splitOn sep := (splitOn_join hb hbne).symm
      _ = (join sep a ++ sep :: rest).splitOn sep := by
          rw [← hrest, append_assoc, singleton_append]
      _ = (join sep a).splitOn sep ++ rest.splitOn sep := splitOn_append_cons_self _ _
      _ = a ++ rest.splitOn sep := by rw [splitOn_join ha hne]
  · rintro ⟨c, hc, rfl⟩
    refine ⟨join sep c, ?_⟩
    rw [join_append sep hne hc, append_assoc, singleton_append]

omit [DecidableEq α] in
theorem drop_join_append {sep : α} {a c : List (List α)} (ha : a ≠ []) (hc : c ≠ []) :
    (join sep (a ++ c)).drop (join sep a ++ [sep]).length = join sep c := by
  have htext : join sep (a ++ c) = (join sep a ++ [sep]) ++ join sep c := by
    rw [join_append sep ha hc, append_assoc, singleton_append]
  rw [htext, drop_left]

/-! ### Any text -/

theorem join_splitOn (sep : α) (text : List α) : join sep (text.splitOn sep) = text :=
  intercalate_splitOn sep

theorem sublist_of_mem_splitOn {sep : α} {text s : List α} (hs : s ∈ text.splitOn sep) :
    s.Sublist text := by
  have hjoin := sublist_join sep hs
  rwa [join_splitOn] at hjoin

theorem splitOn_inj {sep : α} {a b : List α} : a.splitOn sep = b.splitOn sep ↔ a = b := by
  constructor
  · intro h
    rw [← join_splitOn sep a, h, join_splitOn]
  · rintro rfl
    rfl

/-- A text with the separator starts another exactly when its parts start the other's and more
follow. -/
theorem sep_prefix_iff {sep : α} {a b : List α} :
    a ++ [sep] <+: b ↔ ∃ rest, rest ≠ [] ∧ b.splitOn sep = a.splitOn sep ++ rest := by
  constructor
  · rintro ⟨rest, rfl⟩
    refine ⟨rest.splitOn sep, splitOn_ne_nil sep rest, ?_⟩
    rw [append_assoc, singleton_append, splitOn_append_cons_self]
  · rintro ⟨rest, hrest, h⟩
    refine ⟨join sep rest, ?_⟩
    have htext : b = join sep (a.splitOn sep ++ rest) := by rw [← h, join_splitOn]
    rw [htext, join_append sep (splitOn_ne_nil sep a) hrest, join_splitOn,
      append_assoc, singleton_append]

theorem drop_of_splitOn {sep : α} {a b : List α} {rest : List (List α)} (hrest : rest ≠ [])
    (h : b.splitOn sep = a.splitOn sep ++ rest) :
    b.drop (a ++ [sep]).length = join sep rest := by
  have hdrop : (join sep (a.splitOn sep ++ rest)).drop (join sep (a.splitOn sep) ++ [sep]).length =
      join sep rest := drop_join_append (splitOn_ne_nil sep a) hrest
  rwa [← h, join_splitOn, join_splitOn] at hdrop

/-! ### Above and below a point -/

omit [DecidableEq α] in
theorem prefix_append_iff {s p q : List α} :
    s <+: p ++ q ↔ s <+: p ∨ ∃ rest, rest ≠ [] ∧ s = p ++ rest ∧ rest <+: q := by
  constructor
  · intro h
    rcases prefix_or_prefix_of_prefix h (prefix_append p q) with hs | ⟨rest, rfl⟩
    · exact .inl hs
    · have hrest : rest <+: q := (prefix_append_right_inj p).mp h
      by_cases hne : rest = []
      · exact .inl (by rw [hne, append_nil])
      · exact .inr ⟨rest, hne, rfl, hrest⟩
  · rintro (h | ⟨rest, -, rfl, h⟩)
    · exact h.trans (prefix_append p q)
    · exact (prefix_append_right_inj p).mpr h

omit [DecidableEq α] in
theorem append_prefix_iff {s p q : List α} (hq : q ≠ []) :
    p ++ q <+: s ↔ ∃ rest, rest ≠ [] ∧ s = p ++ rest ∧ q <+: rest := by
  constructor
  · rintro ⟨tail, rfl⟩
    exact ⟨q ++ tail, by simp [hq], append_assoc p q tail, prefix_append q tail⟩
  · rintro ⟨rest, -, rfl, h⟩
    exact (prefix_append_right_inj p).mpr h

/-! ### Ends of a path -/

omit [DecidableEq α] in
/-- Past a segment, what follows a separator is what follows this one or a later one. -/
theorem sep_suffix_iff {sep : α} {s t x : List α} (hs : sep ∉ s) :
    sep :: t <:+ s ++ sep :: x ↔ t = x ∨ sep :: t <:+ x := by
  induction s with
  | nil => rw [nil_append, suffix_cons_iff, cons_inj_right]
  | cons a s ih =>
    have ha : sep ≠ a := fun h => hs (h ▸ mem_cons_self)
    rw [cons_append, suffix_cons_iff, ih fun h => hs (mem_cons_of_mem _ h)]
    constructor
    · rintro (h | h)
      · exact absurd (cons.inj h).1 ha
      · exact h
    · exact .inr

omit [DecidableEq α] in
/-- What follows a separator of the joined segments and the rest, when the rest has none. -/
theorem sep_suffix_join_iff {sep : α} {rest t : List α}
    (hrest : sep ∉ rest) {segments : List (List α)} (hvalid : ∀ s ∈ segments, sep ∉ s) :
    sep :: t <:+ join sep segments ++ rest ↔
      ∃ k, 0 < k ∧ k < segments.length ∧ t = join sep (segments.drop k) ++ rest := by
  induction segments with
  | nil =>
    refine ⟨fun h => absurd (h.subset mem_cons_self) hrest, ?_⟩
    rintro ⟨k, -, hk, -⟩
    exact absurd hk (by simp)
  | cons s segments ih =>
    have hs : sep ∉ s := hvalid s mem_cons_self
    have ih := ih fun s' hs' => hvalid s' (mem_cons_of_mem _ hs')
    cases hnil : segments with
    | nil =>
      constructor
      · intro h
        have hmem := h.subset mem_cons_self
        rw [join_singleton] at hmem
        exact absurd hmem (by simp [hs, hrest])
      · rintro ⟨k, h0, hk, -⟩
        rw [length_singleton] at hk
        omega
    | cons s' segments' =>
      have hne : segments ≠ [] := by simp [hnil]
      rw [← hnil, join_cons sep s hne, append_assoc, cons_append,
        sep_suffix_iff hs, ih]
      constructor
      · rintro (rfl | ⟨k, h0, hk, rfl⟩)
        · exact ⟨1, Nat.one_pos, by simpa using length_pos_iff.mpr hne, rfl⟩
        · exact ⟨k + 1, Nat.succ_pos k, by simpa using hk, rfl⟩
      · rintro ⟨k, h0, hk, rfl⟩
        obtain ⟨k, rfl⟩ := Nat.exists_eq_succ_of_ne_zero (Nat.pos_iff_ne_zero.mp h0)
        rcases Nat.eq_zero_or_pos k with rfl | hpos
        · exact .inl rfl
        · exact .inr ⟨k, hpos, by simpa using hk, rfl⟩

end ServiceToolkit.Paths
