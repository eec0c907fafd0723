import ServiceToolkit.SegmentedPaths
import Mathlib.Data.List.Chain
import Mathlib.Data.List.DropRight

/-!
# Words and Separators

A text is cut into **words** at the characters of a class, the breaks (`words`). Programs that make
keys out of texts do this by rewriting: every run of breaks becomes one separator (`subRuns`, which
is `re.sub` of a class with a plus), and separators at the ends go.

* `subRuns_subRuns` — replacing runs of breaks and then runs of separators is replacing runs of
  both.
* `trim_subRuns` — what is left after trimming is the words with a separator between them.

So two texts are rewritten to the same key exactly if they have the same words
(`Paths.join_inj`).
-/

namespace ServiceToolkit.Words

open Paths List

variable {α : Type*}

/-- The **words** of a text: what stands between the breaks. -/
def words (isBreak : α → Bool) (s : List α) : List (List α) :=
  (s.splitOnP isBreak).filter fun w => !w.isEmpty

/-- Every run of breaks is replaced by one separator. `inRun` says that the last character was a
break. -/
def subRuns (isBreak : α → Bool) (sep : α) : (inRun : Bool) → List α → List α
  | _, [] => []
  | inRun, c :: cs =>
    if isBreak c then
      if inRun then subRuns isBreak sep true cs else sep :: subRuns isBreak sep true cs
    else c :: subRuns isBreak sep false cs

/-! ### Words -/

section

variable {isBreak : α → Bool}

@[simp] theorem words_nil : words isBreak [] = [] := by
  simp [words, splitOnP_nil]

theorem words_append_cons {c : α} (hc : isBreak c = true) (s t : List α) :
    words isBreak (s ++ c :: t) = words isBreak s ++ words isBreak t := by
  rw [words, splitOnP_append_cons s t hc, filter_append]
  rfl

theorem words_of_forall {w : List α} (hne : w ≠ []) (h : ∀ c ∈ w, isBreak c = false) :
    words isBreak w = [w] := by
  have hsplit : w.splitOnP isBreak = [w] := splitOnP_eq_singleton (by simpa using h)
  rw [words, hsplit]
  simp [hne]

theorem words_join {sep : α} (hsep : isBreak sep = true) (parts : List (List α)) :
    words isBreak (join sep parts) = parts.flatMap (words isBreak) := by
  induction parts with
  | nil => simp
  | cons s parts ih =>
    by_cases hparts : parts = []
    · subst hparts
      rw [join_singleton, flatMap_singleton]
    · rw [join_cons sep s hparts, words_append_cons hsep, ih, flatMap_cons]

theorem words_join_of_forall {sep : α} (hsep : isBreak sep = true) {parts : List (List α)}
    (h : ∀ s ∈ parts, ∀ c ∈ s, isBreak c = false) :
    words isBreak (join sep parts) = parts.filter fun s => !s.isEmpty := by
  rw [words_join hsep]
  induction parts with
  | nil => rfl
  | cons s parts ih =>
    rw [forall_mem_cons] at h
    rw [flatMap_cons, ih h.2]
    by_cases hne : s = []
    · subst hne
      rw [words_nil, nil_append, filter_cons_of_neg (by simp)]
    · rw [words_of_forall hne h.1, singleton_append, filter_cons_of_pos (by simpa using hne)]

end

/-! ### Reading a text word by word -/

section

variable {isBreak : α → Bool}

/-- **Scanning**: what holds of a word at the end of the text, and is carried over a break and over
a letter that makes the word longer, holds of every text and the word before it. -/
theorem scan_induction (isBreak : α → Bool) {P : List α → List α → Prop}
    (hend : ∀ w, (∀ c ∈ w, isBreak c = false) → P w [])
    (hbreak : ∀ w c s, (∀ c ∈ w, isBreak c = false) → isBreak c = true → P [] s → P w (c :: s))
    (hletter : ∀ w c s, isBreak c = false → P (w ++ [c]) s → P w (c :: s))
    (s : List α) : ∀ w, (∀ c ∈ w, isBreak c = false) → P w s := by
  induction s with
  | nil => exact hend
  | cons c s ih =>
    intro w hw
    cases hc : isBreak c with
    | true => exact hbreak w c s hw hc (ih [] (by simp))
    | false =>
      refine hletter w c s hc (ih (w ++ [c]) ?_)
      rw [forall_mem_append]
      exact ⟨hw, by simpa using hc⟩

theorem words_append_singleton {c : α} (w s : List α) :
    words isBreak (w ++ [c] ++ s) = words isBreak (w ++ c :: s) := by
  rw [append_assoc, singleton_append]

theorem eq_of_mem_words {w v : List α} (hw : ∀ c ∈ w, isBreak c = false)
    (hv : v ∈ words isBreak w) : v ≠ [] ∧ v = w := by
  by_cases hne : w = []
  · subst hne
    simp at hv
  · rw [words_of_forall hne hw, mem_singleton] at hv
    exact ⟨hv ▸ hne, hv⟩

theorem mem_words {s v : List α} (h : v ∈ words isBreak s) :
    v ≠ [] ∧ ∀ c ∈ v, isBreak c = false := by
  have hword : ∀ {w v : List α}, (∀ c ∈ w, isBreak c = false) → v ∈ words isBreak w →
      v ≠ [] ∧ ∀ c ∈ v, isBreak c = false := by
    intro w v hw hv
    obtain ⟨hne, rfl⟩ := eq_of_mem_words hw hv
    exact ⟨hne, hw⟩
  refine scan_induction isBreak
    (P := fun w s => ∀ v ∈ words isBreak (w ++ s), v ≠ [] ∧ ∀ c ∈ v, isBreak c = false)
    ?_ ?_ ?_ s [] (by simp) v h
  · intro w hw v hv
    rw [append_nil] at hv
    exact hword hw hv
  · intro w c s hw hc ih v hv
    rw [words_append_cons hc, mem_append] at hv
    exact hv.elim (hword hw) (ih v)
  · intro w c s _ ih v hv
    rw [← words_append_singleton] at hv
    exact ih v hv

theorem valid_words {sep : α} (hsep : isBreak sep = true) (s : List α) :
    Valid sep (words isBreak s) := by
  intro v hv
  obtain ⟨hne, hletters⟩ := mem_words hv
  refine ⟨hne, fun h => ?_⟩
  rw [hletters sep h] at hsep
  cases hsep

end

/-! ### Rewriting -/

theorem rdropWhile_cons (p : α → Bool) (c : α) (s : List α) :
    (c :: s).rdropWhile p = if s.rdropWhile p = [] ∧ p c then [] else c :: s.rdropWhile p := by
  induction s using reverseRecOn with
  | nil =>
    rw [rdropWhile_singleton, rdropWhile_nil]
    simp
  | append_singleton s x ih =>
    rw [← cons_append, rdropWhile_concat, rdropWhile_concat, ih]
    by_cases hx : p x = true
    · rw [if_pos hx, if_pos hx]
    · simp [hx]

theorem rdropWhile_append_cons {p : α → Bool} {c : α} (hc : p c = false) (s t : List α) :
    (s ++ c :: t).rdropWhile p = s ++ c :: t.rdropWhile p := by
  induction s with
  | nil => rw [nil_append, nil_append, rdropWhile_cons, if_neg (by simp [hc])]
  | cons a s ih => rw [cons_append, rdropWhile_cons, ih, if_neg (by simp), cons_append]

section

variable {isBreak : α → Bool} {sep : α}

@[simp] theorem subRuns_nil (inRun : Bool) : subRuns isBreak sep inRun [] = [] := rfl

theorem subRuns_letter {c : α} (hc : isBreak c = false) (inRun : Bool) (s : List α) :
    subRuns isBreak sep inRun (c :: s) = c :: subRuns isBreak sep false s := by
  rw [subRuns, hc]
  rfl

theorem subRuns_break {c : α} (hc : isBreak c = true) (inRun : Bool) (s : List α) :
    subRuns isBreak sep inRun (c :: s) =
      if inRun then subRuns isBreak sep true s else sep :: subRuns isBreak sep true s := by
  rw [subRuns, if_pos hc]

/-- **Two rewritings in one**: a run of breaks and separators ends as one separator. The second pass
is inside a run whenever the first one is. -/
theorem subRuns_subRuns {isSep isBoth : α → Bool} (hsep : isSep sep = true)
    (hboth : ∀ c, isBoth c = (isBreak c || isSep c)) (s : List α) :
    ∀ inRun inSepRun : Bool, (inRun = true → inSepRun = true) →
      subRuns isSep sep inSepRun (subRuns isBreak sep inRun s) = subRuns isBoth sep inSepRun s := by
  induction s with
  | nil => intro _ _ _; rfl
  | cons c s ih =>
    intro inRun inSepRun hrun
    have hc := hboth c
    cases hbreak : isBreak c with
    | true =>
      rw [hbreak, Bool.true_or] at hc
      rw [subRuns_break hbreak, subRuns_break hc]
      cases inRun with
      | true => rw [if_pos rfl, hrun rfl, if_pos rfl, ih true true fun _ => rfl]
      | false =>
        rw [if_neg Bool.false_ne_true, subRuns_break hsep, ih true true fun _ => rfl]
    | false =>
      rw [hbreak, Bool.false_or] at hc
      rw [subRuns_letter hbreak]
      cases hcsep : isSep c with
      | true =>
        rw [subRuns_break hcsep, subRuns_break (hc.trans hcsep), ih false true fun _ => rfl]
      | false => rw [subRuns_letter hcsep, subRuns_letter (hc.trans hcsep), ih false false id]

variable [DecidableEq α]

section

variable (hsep : isBreak sep = true)

include hsep

omit [DecidableEq α] in
theorem ne_sep_of_letter {c : α} (hc : isBreak c = false) : c ≠ sep := by
  rintro rfl
  rw [hsep] at hc
  cases hc

theorem dropWhile_subRuns_true (s : List α) :
    (subRuns isBreak sep true s).dropWhile (· ∈ [sep]) = subRuns isBreak sep true s := by
  induction s with
  | nil => rfl
  | cons c s ih =>
    cases hc : isBreak c with
    | true => rw [subRuns_break hc, if_pos rfl, ih]
    | false =>
      have hne := ne_sep_of_letter hsep hc
      rw [subRuns_letter hc, dropWhile_cons]
      simp [hne]

theorem dropWhile_subRuns (s : List α) :
    (subRuns isBreak sep false s).dropWhile (· ∈ [sep]) = subRuns isBreak sep true s := by
  cases s with
  | nil => rfl
  | cons c s =>
    cases hc : isBreak c with
    | true =>
      rw [subRuns_break hc, subRuns_break hc, if_neg Bool.false_ne_true, if_pos rfl,
        dropWhile_cons, if_pos (by simp), dropWhile_subRuns_true hsep]
    | false =>
      have hrun := dropWhile_subRuns_true hsep (c :: s)
      rw [subRuns_letter hc] at hrun
      rw [subRuns_letter hc, subRuns_letter hc, hrun]

/-- The rewritten text behind a word or a break, trimmed at its end. -/
theorem rdropWhile_subRuns (s : List α) :
    (subRuns isBreak sep true s).rdropWhile (· ∈ [sep]) = join sep (words isBreak s) := by
  refine (scan_induction isBreak (P := fun w s =>
    w ++ (subRuns isBreak sep w.isEmpty s).rdropWhile (· ∈ [sep]) =
      join sep (words isBreak (w ++ s))) ?_ ?_ ?_ s [] (by simp)).trans ?_
  · intro w hw
    rw [subRuns_nil, rdropWhile_nil, append_nil]
    by_cases hne : w = []
    · subst hne
      rw [words_nil, join_nil]
    · rw [words_of_forall hne hw, join_singleton]
  · intro w c s hw hc ih
    rw [isEmpty_nil, nil_append, nil_append] at ih
    rw [words_append_cons hc, subRuns_break hc]
    by_cases hne : w = []
    · subst hne
      rw [words_nil, isEmpty_nil, if_pos rfl, ih]
      rfl
    · have hempty : w.isEmpty = false := isEmpty_eq_false_iff.mpr hne
      rw [words_of_forall hne hw, hempty, if_neg Bool.false_ne_true, rdropWhile_cons, ih]
      by_cases hwords : words isBreak s = []
      · simp [hwords]
      · have hjoin : join sep (words isBreak s) ≠ [] :=
          mt (join_eq_nil_iff (valid_words hsep s)).mp hwords
        rw [if_neg fun h => hjoin h.1, singleton_append, join_cons sep w hwords]
  · intro w c s hc ih
    have hne := ne_sep_of_letter hsep hc
    have hempty : (w ++ [c]).isEmpty = false := by simp
    rw [words_append_singleton, hempty, append_assoc, singleton_append] at ih
    rw [← ih, subRuns_letter hc, rdropWhile_cons, if_neg (by simp [hne])]
  · rfl

/-- **The normal form of a text**: its words, with one separator between two of them. -/
theorem trim_subRuns (s : List α) :
    ((subRuns isBreak sep false s).dropWhile (· ∈ [sep])).rdropWhile (· ∈ [sep]) =
      join sep (words isBreak s) := by
  rw [dropWhile_subRuns hsep, rdropWhile_subRuns hsep]

end

end

section

variable {isBreak : α → Bool} {sep : α}

theorem mem_subRuns {inRun : Bool} {s : List α} {c : α} (h : c ∈ subRuns isBreak sep inRun s) :
    c = sep ∨ isBreak c = false := by
  induction s generalizing inRun with
  | nil => cases h
  | cons d s ih =>
    cases hd : isBreak d with
    | false =>
      rw [subRuns_letter hd, mem_cons] at h
      rcases h with rfl | h
      · exact .inr hd
      · exact ih h
    | true =>
      rw [subRuns_break hd] at h
      cases inRun with
      | true => exact ih h
      | false =>
        rcases mem_cons.mp h with rfl | h
        · exact .inl rfl
        · exact ih h

theorem infix_of_mem_words {s w : List α} (h : w ∈ words isBreak s) : w <:+: s := by
  suffices hall : ∀ before, (∀ c ∈ before, isBreak c = false) → w ∈ words isBreak (before ++ s) →
      w <:+: before ++ s from hall [] (by simp) h
  refine scan_induction isBreak (P := fun before s => w ∈ words isBreak (before ++ s) →
    w <:+: before ++ s) ?_ ?_ ?_ s
  · intro before hbefore hw
    rw [append_nil] at hw ⊢
    rw [(eq_of_mem_words hbefore hw).2]
  · intro before c s hbefore hc ih hw
    rw [words_append_cons hc, mem_append] at hw
    rcases hw with hw | hw
    · rw [(eq_of_mem_words hbefore hw).2]
      exact (prefix_append before _).isInfix
    · exact (ih hw).trans ((suffix_cons c s).trans (suffix_append before _)).isInfix
  · intro before c s hc ih hw
    rw [← singleton_append, ← append_assoc] at hw ⊢
    exact ih hw

theorem flatten_words (s : List α) : (words isBreak s).flatten = s.filter fun c => !isBreak c := by
  refine (scan_induction isBreak (P := fun before s => (words isBreak (before ++ s)).flatten =
    before ++ s.filter fun c => !isBreak c) ?_ ?_ ?_ s [] (by simp)).trans (nil_append _)
  · intro before hbefore
    rw [append_nil, filter_nil, append_nil]
    by_cases hne : before = []
    · subst hne
      simp
    · rw [words_of_forall hne hbefore, flatten_singleton]
  · intro before c s hbefore hc ih
    have hword : (words isBreak before).flatten = before := by
      by_cases hne : before = []
      · subst hne
        simp
      · rw [words_of_forall hne hbefore, flatten_singleton]
    rw [nil_append, nil_append] at ih
    rw [words_append_cons hc, flatten_append, hword, ih, filter_cons_of_neg (by simp [hc])]
  · intro before c s hc ih
    rw [words_append_singleton, append_assoc, singleton_append] at ih
    rw [ih, filter_cons_of_pos (by simp [hc])]

theorem filter_join {parts : List (List α)} (hsep : isBreak sep = true)
    (h : ∀ w ∈ parts, ∀ c ∈ w, isBreak c = false) :
    (join sep parts).filter (fun c => !isBreak c) = parts.flatten := by
  induction parts with
  | nil => rfl
  | cons w parts ih =>
    rw [forall_mem_cons] at h
    have hw : w.filter (fun c => !isBreak c) = w :=
      filter_eq_self.mpr fun c hc => by rw [h.1 c hc]; rfl
    by_cases hparts : parts = []
    · subst hparts
      rw [join_singleton, hw, flatten_singleton]
    · rw [join_cons sep w hparts, filter_append, hw, filter_cons_of_neg (by simp [hsep]),
        ih h.2, flatten_cons]

/-- **Neighbours in a joined text** are neighbours in a part, or one of them is the separator. -/
theorem isChain_join {R : α → α → Prop} {parts : List (List α)}
    (h : ∀ w ∈ parts, w ≠ [] ∧ w.IsChain R ∧ ∀ c ∈ w, R c sep ∧ R sep c) :
    (join sep parts).IsChain R := by
  induction parts with
  | nil => simp
  | cons w parts ih =>
    rw [forall_mem_cons] at h
    obtain ⟨⟨-, hchain, hsep⟩, hrest⟩ := h
    by_cases hparts : parts = []
    · subst hparts
      rwa [join_singleton]
    · rw [join_cons sep w hparts, isChain_append]
      refine ⟨hchain, isChain_cons.mpr ⟨?_, ih hrest⟩, ?_⟩
      · intro c hc
        obtain ⟨v, parts, rfl⟩ := exists_cons_of_ne_nil hparts
        obtain ⟨hv, -, hvsep⟩ := hrest v mem_cons_self
        obtain ⟨d, v, rfl⟩ := exists_cons_of_ne_nil hv
        by_cases hlast : parts = []
        · subst hlast
          cases hc
          exact (hvsep c mem_cons_self).2
        · rw [join_cons sep _ hlast] at hc
          cases hc
          exact (hvsep c mem_cons_self).2
      · intro c hc d hd
        cases hd
        exact (hsep c (mem_of_getLast? hc)).1

end

/-! ### Pieces of a list with blanks around them -/

/-- A text without the blanks at its ends. -/
def trim (isBlank : α → Bool) (s : List α) : List α := (s.dropWhile isBlank).rdropWhile isBlank

section

variable {isBlank : α → Bool} {b : List α}

theorem rdropWhile_append_of_forall (hb : ∀ c ∈ b, isBlank c = true) (s : List α) :
    (s ++ b).rdropWhile isBlank = s.rdropWhile isBlank := by
  rw [rdropWhile, rdropWhile, reverse_append, dropWhile_append_of_pos (by simpa using hb)]

theorem trim_append_left (hb : ∀ c ∈ b, isBlank c = true) (s : List α) :
    trim isBlank (b ++ s) = trim isBlank s := by
  rw [trim, trim, dropWhile_append_of_pos hb]

theorem trim_append_right (hb : ∀ c ∈ b, isBlank c = true) (s : List α) :
    trim isBlank (s ++ b) = trim isBlank s := by
  rw [trim, trim, dropWhile_append]
  split
  · rename_i hs
    rw [isEmpty_iff.mp hs, dropWhile_eq_nil_iff.mpr hb]
  · exact rdropWhile_append_of_forall hb _

variable {c : α}

theorem trim_of_ends {d : α} (hc : isBlank c = false) (hd : isBlank d = false) (s : List α) :
    trim isBlank (c :: (s ++ [d])) = c :: (s ++ [d]) := by
  rw [trim, dropWhile_cons_of_neg (by simp [hc]), ← cons_append,
    rdropWhile_concat_neg _ _ _ (by simp [hd])]

variable {s : List α}

theorem dropWhile_congr {p q : α → Bool} (h : ∀ c ∈ s, p c = q c) :
    s.dropWhile p = s.dropWhile q := by
  induction s with
  | nil => rfl
  | cons c s ih =>
    rw [forall_mem_cons] at h
    rw [dropWhile_cons, dropWhile_cons, h.1, ih h.2]

theorem trim_congr {p q : α → Bool} (h : ∀ c ∈ s, p c = q c) : trim p s = trim q s := by
  rw [trim, trim, dropWhile_congr h, rdropWhile, rdropWhile, dropWhile_congr]
  intro c hc
  exact h c ((dropWhile_sublist q).subset (mem_reverse.mp hc))

theorem mem_trim (hc : isBlank c = false) (h : c ∈ s) : c ∈ trim isBlank s := by
  have hdrop : c ∈ s.dropWhile isBlank := by
    rw [← takeWhile_append_dropWhile (p := isBlank) (l := s)] at h
    refine (mem_append.mp h).resolve_left fun hmem => ?_
    rw [mem_takeWhile_imp hmem] at hc
    cases hc
  rw [← rdropWhile_append_rtakeWhile (p := isBlank) (l := s.dropWhile isBlank)] at hdrop
  refine (mem_append.mp hdrop).resolve_right fun hmem => ?_
  rw [mem_rtakeWhile_imp hmem] at hc
  cases hc

theorem trim_sublist : (trim isBlank s).Sublist s := by
  have hback : trim isBlank s <+: s.dropWhile isBlank := rdropWhile_prefix isBlank _
  exact hback.sublist.trans (dropWhile_sublist _)

theorem not_blank_of_head_trim (h : (trim isBlank s).head? = some c) : isBlank c = false := by
  have hpre : trim isBlank s <+: s.dropWhile isBlank := rdropWhile_prefix isBlank _
  obtain ⟨rest, hrest⟩ := hpre
  have hhead : (s.dropWhile isBlank).head? = some c := by
    rw [← hrest, head?_append, h, Option.some_or]
  have hnot := head?_dropWhile_not isBlank s
  rw [hhead] at hnot
  simpa using hnot

theorem not_blank_of_getLast_trim (h : (trim isBlank s).getLast? = some c) : isBlank c = false := by
  obtain ⟨hne, rfl⟩ := mem_getLast?_eq_getLast h
  exact Bool.eq_false_iff.mpr (rdropWhile_last_not isBlank (s.dropWhile isBlank) hne)

theorem trim_eq_self (hfirst : ∀ c, s.head? = some c → isBlank c = false)
    (hlast : ∀ c, s.getLast? = some c → isBlank c = false) : trim isBlank s = s := by
  cases s with
  | nil => rfl
  | cons c s =>
    rw [trim, dropWhile_cons_of_neg (by simp [hfirst c rfl]), rdropWhile_eq_self_iff]
    intro hne
    rw [hlast _ (getLast?_eq_getLast_of_ne_nil hne)]
    exact Bool.false_ne_true

theorem trim_of_forall (h : ∀ c ∈ s, isBlank c = false) : trim isBlank s = s :=
  trim_eq_self (fun c hc => h c (mem_of_head? hc)) fun c hc => h c (mem_of_getLast? hc)

theorem trim_rdropWhile (s : List α) : trim isBlank (s.rdropWhile isBlank) = trim isBlank s := by
  have hsplit : s.rdropWhile isBlank ++ s.rtakeWhile isBlank = s :=
    rdropWhile_append_rtakeWhile
  conv_rhs => rw [← hsplit]
  exact (trim_append_right (fun c hc => mem_rtakeWhile_imp hc) _).symm

variable [DecidableEq α] {sep : α}

theorem map_trim_splitOn_append_left (hsep : isBlank sep = false)
    (hb : ∀ c ∈ b, isBlank c = true) (s : List α) :
    ((b ++ s).splitOn sep).map (trim isBlank) = (s.splitOn sep).map (trim isBlank) := by
  induction b with
  | nil => rfl
  | cons c b ih =>
    rw [forall_mem_cons] at hb
    have hne : c ≠ sep := by
      rintro rfl
      rw [hsep] at hb
      exact Bool.false_ne_true hb.1
    obtain ⟨first, rest, hsplit⟩ :=
      exists_cons_of_ne_nil (splitOn_ne_nil sep (b ++ s))
    have hfirst : trim isBlank (c :: first) = trim isBlank first := by
      rw [trim, trim, dropWhile_cons_of_pos hb.1]
    rw [← ih hb.2, cons_append, splitOn_cons_eq_if_modifyHead,
      if_neg (by simpa using hne), hsplit, modifyHead_cons, map_cons, map_cons, hfirst]

/-- Blanks behind a list belong to its last piece. -/
theorem map_rdropWhile_splitOn_append (hsep : isBlank sep = false)
    (hb : ∀ c ∈ b, isBlank c = true) (s : List α) :
    ((s ++ b).splitOn sep).map (List.rdropWhile isBlank) =
      (s.splitOn sep).map (List.rdropWhile isBlank) := by
  induction s with
  | nil =>
    have hnot : sep ∉ b := fun h => by
      rw [hb sep h] at hsep
      cases hsep
    rw [nil_append, splitOn_eq_singleton hnot, splitOn_nil, map_singleton,
      map_singleton, rdropWhile_eq_nil_iff.mpr hb, rdropWhile_nil]
  | cons c s ih =>
    rw [cons_append, splitOn_cons_eq_if_modifyHead,
      splitOn_cons_eq_if_modifyHead]
    split
    · rw [map_cons, map_cons, ih]
    · obtain ⟨first, rest, hsplit⟩ :=
        exists_cons_of_ne_nil (splitOn_ne_nil sep (s ++ b))
      obtain ⟨first', rest', hsplit'⟩ :=
        exists_cons_of_ne_nil (splitOn_ne_nil sep s)
      rw [hsplit, hsplit', map_cons, map_cons, cons.injEq] at ih
      rw [hsplit, hsplit', modifyHead_cons, modifyHead_cons, map_cons,
        map_cons, rdropWhile_cons, rdropWhile_cons, ih.1, ih.2]

/-- **Trimming a list first changes no trimmed piece.** -/
theorem map_trim_splitOn_trim (hsep : isBlank sep = false) (s : List α) :
    ((trim isBlank s).splitOn sep).map (trim isBlank) = (s.splitOn sep).map (trim isBlank) := by
  have hright : ∀ t : List α, ((t.rdropWhile isBlank).splitOn sep).map (trim isBlank) =
      (t.splitOn sep).map (trim isBlank) := by
    intro t
    have hparts : ∀ parts : List (List α), parts.map (trim isBlank) =
        (parts.map (rdropWhile isBlank)).map (trim isBlank) := by
      intro parts
      rw [map_map]
      exact map_congr_left fun w _ => (trim_rdropWhile w).symm
    have hsplit : t.rdropWhile isBlank ++ t.rtakeWhile isBlank = t :=
      rdropWhile_append_rtakeWhile
    conv_rhs => rw [← hsplit]
    rw [hparts, hparts (splitOn sep (_ ++ _)), map_rdropWhile_splitOn_append hsep
      (fun c hc => mem_rtakeWhile_imp hc)]
  rw [trim, hright]
  have hsplit : s.takeWhile isBlank ++ s.dropWhile isBlank = s := takeWhile_append_dropWhile
  conv_rhs => rw [← hsplit]
  exact (map_trim_splitOn_append_left hsep (fun c hc => mem_takeWhile_imp hc) _).symm

end

end ServiceToolkit.Words
