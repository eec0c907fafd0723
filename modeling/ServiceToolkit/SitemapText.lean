import ServiceToolkit.Words
import Mathlib.Data.List.Chain

/-!
# Texts for the Sitemap

`normalize_sitemap_text` rewrites a text in five passes: formatting codes (a section sign and the
character behind it) go, tags become blanks, the two characters of an escaped newline and newlines
become blanks, runs of blanks become one, and blanks at the ends go. The last two passes leave the
**words** of what the others made (`normalize_eq`), so the result is in normal form as far as they
go, and no pass makes again what an earlier one took out — with one exception. The point of the
expression for formatting codes is no newline, so a section sign before a newline stays, and the
newline is a blank in the end.
-/

namespace ServiceToolkit.SitemapText

open Words Paths List

/-! ### The passes -/

/-- `char::is_whitespace`, and `\s` of the regular expressions. -/
def isWhite (c : Char) : Bool :=
  let n := c.toNat
  (9 ≤ n && n ≤ 13) || n == 0x20 || n == 0x85 || n == 0xA0 || n == 0x1680 ||
    (0x2000 ≤ n && n ≤ 0x200A) || n == 0x2028 || n == 0x2029 || n == 0x202F || n == 0x205F ||
    n == 0x3000

/-- The section sign. -/
def sectionSign : Char := Char.ofNat 0xA7

/-- The newline. -/
def newline : Char := Char.ofNat 10

/-- The backslash. -/
def backslash : Char := Char.ofNat 92

/-- `MOTD_FORMATTING_RE.replace_all(text, "")`. The point matches no newline. -/
def stripFormatting : List Char → List Char
  | [] => []
  | [c] => [c]
  | c :: d :: rest =>
    if c = sectionSign ∧ d ≠ newline then stripFormatting rest
    else c :: stripFormatting (d :: rest)

/-- `HTML_TAG_RE.replace_all(text, " ")`. A tag begins where one can be closed, and `inTag` says
that it is not closed yet. -/
def stripTags : (inTag : Bool) → List Char → List Char
  | _, [] => []
  | true, c :: rest => if c = '>' then stripTags false rest else stripTags true rest
  | false, c :: rest =>
    if c = '<' ∧ '>' ∈ rest then ' ' :: stripTags true rest else c :: stripTags false rest

/-- `text.replace("\\n", " ")`, of a backslash and a letter. -/
def replaceEscapes : List Char → List Char
  | [] => []
  | [c] => [c]
  | c :: d :: rest =>
    if c = backslash ∧ d = 'n' then ' ' :: replaceEscapes rest
    else c :: replaceEscapes (d :: rest)

/-- `text.replace('\n', " ")`. -/
def replaceNewlines (text : List Char) : List Char :=
  text.map fun c => if c = newline then ' ' else c

/-- `WS_RE.replace_all(text, " ")`. -/
def collapse (text : List Char) : List Char := subRuns isWhite ' ' false text

/-- `normalize_sitemap_text`. -/
def normalizeSitemapText (value : List Char) : List Char :=
  if value = [] then []
  else
    let text := trim isWhite value
    if text = [] then []
    else
      let noFormatting := stripFormatting text
      let noHtml := stripTags false noFormatting
      let noNewlines := replaceNewlines (replaceEscapes noHtml)
      trim isWhite (collapse noNewlines)

/-! ### The normal form -/

/-- **A text in normal form.** -/
structure NormalForm (s : List Char) : Prop where
  signs : ∀ before c behind, s ≠ before ++ sectionSign :: c :: behind
  tags : ∀ before inner behind, s ≠ before ++ '<' :: (inner ++ '>' :: behind)
  escapes : ∀ before behind, s ≠ before ++ backslash :: 'n' :: behind
  newlines : newline ∉ s
  blanks : ∀ before c d behind, s = before ++ c :: d :: behind → ¬ (isWhite c ∧ isWhite d)
  first : ∀ c, s.head? = some c → isWhite c = false
  last : ∀ c, s.getLast? = some c → isWhite c = false

/-- The text without formatting codes and tags. -/
def bare (value : List Char) : List Char := stripTags false (stripFormatting (trim isWhite value))

/-- **No section sign is left before a newline with something visible behind it**: nothing but
blanks, newlines and escaped newlines. -/
def SignsClosed (value : List Char) : Prop :=
  ∀ before behind, bare value = before ++ sectionSign :: newline :: behind →
    ∀ c ∈ replaceEscapes behind, isWhite c = true

/-! ### The last passes -/

theorem isWhite_space : isWhite ' ' = true := rfl

theorem isWhite_newline : isWhite newline = true := rfl

theorem trim_collapse (s : List Char) : trim isWhite (collapse s) = join ' ' (words isWhite s) := by
  refine Eq.trans ?_ (trim_subRuns isWhite_space s)
  refine trim_congr fun c hc => ?_
  rcases mem_subRuns hc with rfl | hletter
  · rfl
  · have hne : c ≠ ' ' := by
      rintro rfl
      cases hletter
    simp [hletter, hne]

/-- The text before the last two passes. -/
def spaced (value : List Char) : List Char := replaceNewlines (replaceEscapes (bare value))

theorem normalize_eq (value : List Char) :
    normalizeSitemapText value = join ' ' (words isWhite (spaced value)) := by
  rw [normalizeSitemapText]
  by_cases hvalue : value = []
  · subst hvalue
    rfl
  · by_cases htext : trim isWhite value = []
    · rw [if_neg hvalue, if_pos htext, spaced, bare, htext]
      rfl
    · rw [if_neg hvalue, if_neg htext, trim_collapse]
      rfl

/-- The visible characters of a text. -/
def visible (s : List Char) : List Char := s.filter fun c => !isWhite c

theorem visible_normalize (value : List Char) :
    visible (normalizeSitemapText value) = visible (spaced value) := by
  rw [normalize_eq, visible, filter_join isWhite_space fun w hw => (mem_words hw).2, flatten_words]
  rfl

/-! ### Tags -/

/-- No tag can be closed: no `<` stands before a `>`. -/
def Untagged (s : List Char) : Prop := s.Pairwise fun c d => ¬ (c = '<' ∧ d = '>')

variable {s : List Char} {c : Char}

theorem mem_stripTags {inTag : Bool} (h : c ∈ stripTags inTag s) : c = ' ' ∨ c ∈ s := by
  induction s generalizing inTag with
  | nil =>
    cases inTag <;> cases h
  | cons d s ih =>
    have hlater : ∀ {inTag : Bool}, c ∈ stripTags inTag s → c = ' ' ∨ c ∈ d :: s :=
      fun h => (ih h).imp_right (mem_cons_of_mem d)
    cases inTag with
    | true =>
      rw [stripTags] at h
      split at h <;> exact hlater h
    | false =>
      rw [stripTags] at h
      split at h
      · rcases mem_cons.mp h with h | h
        · exact .inl h
        · exact hlater h
      · rcases mem_cons.mp h with rfl | h
        · exact .inr mem_cons_self
        · exact hlater h

theorem untagged_stripTags (inTag : Bool) (s : List Char) : Untagged (stripTags inTag s) := by
  induction s generalizing inTag with
  | nil => cases inTag <;> exact .nil
  | cons c s ih =>
    cases inTag with
    | true =>
      rw [stripTags]
      split <;> exact ih _
    | false =>
      rw [stripTags]
      split
      · exact .cons (fun d _ h => absurd h.1 (by decide)) (ih true)
      · rename_i hopen
        refine .cons (fun d hd h => ?_) (ih false)
        rcases mem_stripTags hd with hd | hd
        · rw [hd] at h
          exact absurd h.2 (by decide)
        · exact hopen ⟨h.1, h.2 ▸ hd⟩

theorem untagged_replaceNewlines (h : Untagged s) : Untagged (replaceNewlines s) := by
  refine pairwise_map.mpr (h.imp fun {c d} hcd hmap => hcd ?_)
  split at hmap <;> split at hmap <;> simp_all

theorem mem_replaceEscapes (h : c ∈ replaceEscapes s) : c = ' ' ∨ c ∈ s := by
  fun_induction replaceEscapes s with
  | case1 => cases h
  | case2 d => exact .inr h
  | case3 d e rest hd ih =>
    rcases mem_cons.mp h with h | h
    · exact .inl h
    · exact (ih h).imp_right fun h => mem_cons_of_mem d (mem_cons_of_mem e h)
  | case4 d e rest hd ih =>
    rcases mem_cons.mp h with rfl | h
    · exact .inr mem_cons_self
    · exact (ih h).imp_right (mem_cons_of_mem d)

theorem untagged_replaceEscapes (h : Untagged s) : Untagged (replaceEscapes s) := by
  fun_induction replaceEscapes s with
  | case1 => exact .nil
  | case2 d => exact h
  | case3 d e rest hd ih =>
    exact .cons (fun c _ hc => absurd hc.1 (by decide)) (ih h.of_cons.of_cons)
  | case4 d e rest hd ih =>
    refine .cons (fun c hc htag => ?_) (ih h.of_cons)
    rcases mem_replaceEscapes hc with rfl | hmem
    · exact absurd htag.2 (by decide)
    · exact rel_of_pairwise_cons h hmem htag

theorem untagged_visible_iff (s : List Char) : Untagged (visible s) ↔ Untagged s := by
  rw [Untagged, visible, pairwise_filter]
  refine List.Pairwise.iff fun c d => ⟨fun h htag => ?_, fun h _ _ => h⟩
  obtain ⟨rfl, rfl⟩ := htag
  exact h rfl rfl ⟨rfl, rfl⟩

theorem untagged_normalize (value : List Char) : Untagged (normalizeSitemapText value) := by
  rw [← untagged_visible_iff, visible_normalize, untagged_visible_iff]
  exact untagged_replaceNewlines (untagged_replaceEscapes (untagged_stripTags false _))

theorem stripTags_of_untagged (h : Untagged s) : stripTags false s = s := by
  induction s with
  | nil => rfl
  | cons c s ih =>
    rw [stripTags, if_neg, ih h.of_cons]
    exact fun hopen => rel_of_pairwise_cons h hopen.2 ⟨hopen.1, rfl⟩

theorem untagged_iff :
    Untagged s ↔ ∀ before inner behind, s ≠ before ++ '<' :: (inner ++ '>' :: behind) := by
  constructor
  · rintro h before inner behind rfl
    have hcons := (pairwise_append.mp h).2.1
    exact rel_of_pairwise_cons hcons (by simp) ⟨rfl, rfl⟩
  · intro h
    induction s with
    | nil => exact .nil
    | cons c s ih =>
      refine .cons (fun d hd htag => ?_) (ih fun before inner behind hs => ?_)
      · obtain ⟨inner, behind, rfl⟩ := append_of_mem hd
        exact h [] inner behind (by rw [htag.1, htag.2]; rfl)
      · exact h (c :: before) inner behind (by rw [hs, cons_append])

/-! ### Escaped newlines -/

/-- No backslash stands before an `n`. -/
def Unescaped (s : List Char) : Prop := s.IsChain fun c d => ¬ (c = backslash ∧ d = 'n')

theorem head_replaceEscapes (d : Char) (rest : List Char)
    (h : c ∈ (replaceEscapes (d :: rest)).head?) : c = ' ' ∨ c = d := by
  cases rest with
  | nil =>
    cases h
    exact .inr rfl
  | cons e rest =>
    rw [replaceEscapes] at h
    split at h <;> cases h
    · exact .inl rfl
    · exact .inr rfl

theorem unescaped_replaceEscapes (s : List Char) : Unescaped (replaceEscapes s) := by
  fun_induction replaceEscapes s with
  | case1 => exact .nil
  | case2 d => exact .singleton d
  | case3 d e rest hd ih =>
    exact isChain_cons.mpr ⟨fun c _ h => absurd h.1 (by decide), ih⟩
  | case4 d e rest hd ih =>
    refine isChain_cons.mpr ⟨fun c hc h => ?_, ih⟩
    rcases head_replaceEscapes e rest hc with rfl | rfl
    · exact absurd h.2 (by decide)
    · exact hd h

theorem unescaped_replaceNewlines (h : Unescaped s) : Unescaped (replaceNewlines s) := by
  refine (isChain_map _).mpr (h.imp fun {c d} hcd hmap => hcd ?_)
  split at hmap <;> split at hmap <;> simp_all [backslash]

theorem replaceEscapes_of_unescaped (h : Unescaped s) : replaceEscapes s = s := by
  fun_induction replaceEscapes s with
  | case1 | case2 d => rfl
  | case3 d e rest hd ih => exact absurd hd (isChain_cons_cons.mp h).1
  | case4 d e rest hd ih => rw [ih (isChain_cons_cons.mp h).2]

/-! ### Neighbours in the result -/

variable {value : List Char}

theorem isChain_normalize {R : Char → Char → Prop}
    (hwords : ∀ w ∈ words isWhite (spaced value), w.IsChain R)
    (hblank : ∀ c, isWhite c = false → R c ' ' ∧ R ' ' c) :
    (normalizeSitemapText value).IsChain R := by
  rw [normalize_eq]
  refine isChain_join fun w hw => ⟨(mem_words hw).1, hwords w hw, fun c hc => ?_⟩
  exact hblank c ((mem_words hw).2 c hc)

theorem unescaped_normalize (value : List Char) : Unescaped (normalizeSitemapText value) := by
  refine isChain_normalize (fun w hw => ?_) fun c _ => ⟨?_, ?_⟩
  · exact IsChain.infix (unescaped_replaceNewlines (unescaped_replaceEscapes _))
      (infix_of_mem_words hw)
  · exact fun h => absurd h.2 (by decide)
  · exact fun h => absurd h.1 (by decide)

theorem blanks_normalize (value : List Char) :
    (normalizeSitemapText value).IsChain fun c d => ¬ (isWhite c ∧ isWhite d) := by
  refine isChain_normalize (fun w hw => ?_) fun c hc => ?_
  · have hletters := (mem_words hw).2
    refine (pairwise_of_forall_mem_list fun c hc d _ h => ?_).isChain
    rw [hletters c hc] at h
    cases h.1
  · simp [hc]

theorem mem_normalize (h : c ∈ normalizeSitemapText value) : c = ' ' ∨ isWhite c = false := by
  rw [normalize_eq] at h
  rcases mem_join h with rfl | ⟨w, hw, hc⟩
  · exact .inl rfl
  · exact .inr ((mem_words hw).2 c hc)

/-! ### Section signs -/

/-- Every section sign stands before a newline or at the end. -/
def Dangling (s : List Char) : Prop := s.IsChain fun c d => c = sectionSign → d = newline

theorem dangling_stripFormatting (s : List Char) : Dangling (stripFormatting s) := by
  fun_induction stripFormatting s with
  | case1 => exact .nil
  | case2 c => exact .singleton c
  | case3 c d rest hc ih => exact ih
  | case4 c d rest hc ih =>
    refine isChain_cons.mpr ⟨fun e he hsign => ?_, ih⟩
    obtain rfl : d = newline := by
      by_contra hd
      exact hc ⟨hsign, hd⟩
    -- a newline is no section sign, so it stays first
    cases rest with
    | nil =>
      cases he
      rfl
    | cons f rest =>
      cases he
      rfl

theorem dangling_stripTags (h : Dangling s) (inTag : Bool) : Dangling (stripTags inTag s) := by
  induction s generalizing inTag with
  | nil => cases inTag <;> exact .nil
  | cons c s ih =>
    have hs : Dangling s := h.of_cons
    cases inTag with
    | true =>
      rw [stripTags]
      split <;> exact ih hs _
    | false =>
      rw [stripTags]
      split
      · exact isChain_cons.mpr ⟨fun d _ hsign => absurd hsign (by decide), ih hs true⟩
      · refine isChain_cons.mpr ⟨fun d hd hsign => ?_, ih hs false⟩
        cases s with
        | nil => cases hd
        | cons e s =>
          obtain rfl : e = newline := (isChain_cons_cons.mp h).1 hsign
          cases hd
          rfl

theorem dangling_bare (value : List Char) : Dangling (bare value) :=
  dangling_stripTags (dangling_stripFormatting _) false

theorem replaceEscapes_append_cons (hslash : c ≠ backslash) (hn : c ≠ 'n')
    (before behind : List Char) : replaceEscapes (before ++ c :: behind) =
      replaceEscapes before ++ c :: replaceEscapes behind := by
  fun_induction replaceEscapes before with
  | case1 =>
    cases behind with
    | nil => rfl
    | cons d behind => rw [nil_append, replaceEscapes, if_neg fun h => hslash h.1]; rfl
  | case2 d =>
    rw [singleton_append, replaceEscapes, if_neg fun h => hn h.2]
    cases behind with
    | nil => rfl
    | cons e behind => rw [replaceEscapes, if_neg fun h => hslash h.1]; rfl
  | case3 d e rest hd ih =>
    rw [cons_append, cons_append, replaceEscapes, if_pos hd, ih, cons_append]
  | case4 d e rest hd ih =>
    rw [cons_append, cons_append, replaceEscapes, if_neg hd, ← cons_append, ih, cons_append]

variable {before behind : List Char}

theorem exists_of_replaceEscapes (hc : c ≠ ' ') (h : replaceEscapes s = before ++ c :: behind) :
    ∃ before' behind', s = before' ++ c :: behind' ∧ behind = replaceEscapes behind' := by
  fun_induction replaceEscapes s generalizing before with
  | case1 => simp at h
  | case2 d =>
    have hd : before = [] ∧ d = c ∧ behind = [] := by
      cases before with
      | nil => simpa using h
      | cons e before => simp at h
    exact ⟨[], [], by rw [hd.2.1]; rfl, hd.2.2⟩
  | case3 d e rest hd ih =>
    cases before with
    | nil => exact absurd (cons.inj h).1.symm hc
    | cons f before =>
      obtain ⟨before', behind', rfl, hbehind⟩ := ih (cons.inj h).2
      exact ⟨d :: e :: before', behind', rfl, hbehind⟩
  | case4 d e rest hd ih =>
    cases before with
    | nil =>
      obtain ⟨rfl, hrest⟩ := cons.inj h
      exact ⟨[], e :: rest, rfl, hrest.symm⟩
    | cons f before =>
      obtain ⟨before', behind', hsplit, hbehind⟩ := ih (cons.inj h).2
      exact ⟨d :: before', behind', by rw [hsplit, cons_append], hbehind⟩

/-! ### What is visible -/

theorem visible_append (s t : List Char) : visible (s ++ t) = visible s ++ visible t :=
  filter_append ..

theorem visible_cons_white (hc : isWhite c = true) (s : List Char) : visible (c :: s) = visible s :=
  filter_cons_of_neg (by simp [hc])

theorem visible_sign (s : List Char) : visible (sectionSign :: s) = sectionSign :: visible s :=
  filter_cons_of_pos rfl

theorem visible_eq_nil_iff (s : List Char) : visible s = [] ↔ ∀ c ∈ s, isWhite c = true := by
  rw [visible, filter_eq_nil_iff]
  simp

theorem visible_replaceNewlines (s : List Char) : visible (replaceNewlines s) = visible s := by
  induction s with
  | nil => rfl
  | cons c s ih =>
    rw [replaceNewlines, map_cons]
    by_cases hc : c = newline
    · rw [if_pos hc, visible_cons_white isWhite_space, hc, visible_cons_white isWhite_newline]
      exact ih
    · rw [if_neg hc]
      cases hwhite : isWhite c with
      | true =>
        rw [visible_cons_white hwhite, visible_cons_white hwhite]
        exact ih
      | false =>
        rw [visible, visible, filter_cons_of_pos (by simp [hwhite]),
          filter_cons_of_pos (by simp [hwhite])]
        exact congrArg _ ih

theorem exists_sign_of_visible (h : visible s = before ++ sectionSign :: behind) :
    ∃ before' behind', s = before' ++ sectionSign :: behind' ∧ visible behind' = behind := by
  obtain ⟨s₁, s₂, rfl, -, h₂⟩ := filter_eq_append_iff.mp h
  obtain ⟨s₃, s₄, rfl, -, -, h₄⟩ := filter_eq_cons_iff.mp h₂
  exact ⟨s₁ ++ s₃, s₄, by rw [append_assoc], h₄⟩

/-! ### The result -/

theorem normalize_eq_trim (value : List Char) :
    normalizeSitemapText value = trim isWhite (collapse (spaced value)) := by
  rw [normalize_eq, trim_collapse]

theorem visible_behind_ne_nil
    (h : normalizeSitemapText value = before ++ c :: behind) : visible (c :: behind) ≠ [] := by
  intro hnil
  obtain ⟨d, hd⟩ : ∃ d, (c :: behind).getLast? = some d :=
    ⟨(c :: behind).getLast (by simp), getLast?_eq_getLast_of_ne_nil _⟩
  have hlast : (normalizeSitemapText value).getLast? = some d := by
    rw [h, getLast?_append, hd, Option.some_or]
  have hwhite := (visible_eq_nil_iff _).mp hnil d (mem_of_getLast? hd)
  rw [normalize_eq_trim] at hlast
  rw [not_blank_of_getLast_trim hlast] at hwhite
  cases hwhite

theorem signs_iff (value : List Char) :
    (∀ before c behind, normalizeSitemapText value ≠ before ++ sectionSign :: c :: behind) ↔
      SignsClosed value := by
  have hvisible : visible (normalizeSitemapText value) = visible (replaceEscapes (bare value)) := by
    rw [visible_normalize, spaced, visible_replaceNewlines]
  have hcut : ∀ before behind, replaceEscapes (before ++ sectionSign :: newline :: behind) =
      replaceEscapes before ++ sectionSign :: newline :: replaceEscapes behind := by
    intro before behind
    rw [replaceEscapes_append_cons (by decide) (by decide), ← nil_append (newline :: behind),
      replaceEscapes_append_cons (by decide) (by decide)]
    rfl
  constructor
  · intro hsigns before behind hbare
    rw [← visible_eq_nil_iff]
    by_contra hne
    rw [hbare, hcut, visible_append, visible_sign, visible_cons_white isWhite_newline] at hvisible
    obtain ⟨before', behind', hresult, hbehind⟩ := exists_sign_of_visible hvisible
    cases behind' with
    | nil => exact hne hbehind.symm
    | cons c behind' => exact hsigns before' c behind' hresult
  · intro hclosed before c behind hresult
    have hsplit : normalizeSitemapText value = (before ++ [sectionSign]) ++ c :: behind := by
      rw [hresult, append_assoc, singleton_append]
    have hne : visible (c :: behind) ≠ [] := visible_behind_ne_nil hsplit
    rw [hresult, visible_append, visible_sign] at hvisible
    obtain ⟨before₁, behind₁, hescapes, hbehind₁⟩ := exists_sign_of_visible hvisible.symm
    obtain ⟨before₂, behind₂, hbare, rfl⟩ := exists_of_replaceEscapes (by decide) hescapes
    have hdangling := dangling_bare value
    rw [hbare] at hdangling
    cases behind₂ with
    | nil => exact hne hbehind₁.symm
    | cons d behind₂ =>
      -- behind a section sign of the bare text stands a newline
      obtain rfl : d = newline := isChain_iff_forall_rel_of_append_cons_cons.mp hdangling rfl
        rfl
      refine hne ?_
      rw [← hbehind₁, ← nil_append (newline :: behind₂),
        replaceEscapes_append_cons (by decide) (by decide)]
      have hwhite := hclosed before₂ behind₂ hbare
      rw [← visible_eq_nil_iff] at hwhite
      exact (visible_cons_white isWhite_newline _).trans hwhite

/-- **The result is in normal form** if no section sign has something visible behind it. -/
theorem normalForm_normalize_iff (value : List Char) :
    NormalForm (normalizeSitemapText value) ↔ SignsClosed value := by
  rw [← signs_iff]
  refine ⟨NormalForm.signs, fun hsigns => ⟨hsigns, ?_, ?_, ?_, ?_, ?_, ?_⟩⟩
  · exact untagged_iff.mp (untagged_normalize value)
  · intro before behind h
    exact isChain_iff_forall_rel_of_append_cons_cons.mp (unescaped_normalize value) h ⟨rfl, rfl⟩
  · intro h
    rcases mem_normalize h with h | h <;> cases h
  · intro before c d behind h
    exact isChain_iff_forall_rel_of_append_cons_cons.mp (blanks_normalize value) h
  · intro c hc
    rw [normalize_eq_trim] at hc
    exact not_blank_of_head_trim hc
  · intro c hc
    rw [normalize_eq_trim] at hc
    exact not_blank_of_getLast_trim hc

theorem stripFormatting_of_signs
    (h : ∀ before c behind, s ≠ before ++ sectionSign :: c :: behind) : stripFormatting s = s := by
  fun_induction stripFormatting s with
  | case1 | case2 c => rfl
  | case3 c d rest hc ih => exact absurd (by rw [hc.1]; rfl) (h [] d rest)
  | case4 c d rest hc ih =>
    rw [ih fun before e behind hs => h (c :: before) e behind (by rw [hs, cons_append])]

theorem spaced_of_normalForm (h : NormalForm s) : spaced s = s := by
  have hescapes : Unescaped s :=
    isChain_iff_forall_rel_of_append_cons_cons.mpr fun c d before behind hs hcd =>
      h.escapes before behind (by rw [hs, hcd.1, hcd.2])
  have hnewlines : replaceNewlines s = s := by
    calc replaceNewlines s = s.map id :=
          map_congr_left fun c hc => if_neg fun (hc' : c = newline) => h.newlines (hc' ▸ hc)
      _ = s := map_id s
  rw [spaced, bare, trim_eq_self h.first h.last, stripFormatting_of_signs h.signs,
    stripTags_of_untagged (untagged_iff.mpr h.tags), replaceEscapes_of_unescaped hescapes,
    hnewlines]

/-- **Normalising again changes nothing** if the result is in normal form. -/
theorem normalize_normalize (h : NormalForm (normalizeSitemapText value)) :
    normalizeSitemapText (normalizeSitemapText value) = normalizeSitemapText value := by
  rw [normalize_eq (normalizeSitemapText value), spaced_of_normalForm h]
  conv_lhs => rw [normalize_eq value]
  have hletters : ∀ w ∈ words isWhite (spaced value), ∀ c ∈ w, isWhite c = false :=
    fun w hw => (mem_words hw).2
  rw [words_join_of_forall isWhite_space hletters, filter_eq_self.mpr, normalize_eq value]
  intro w hw
  simp [(mem_words hw).1]

/-- **The normal form, exactly**: the result is in normal form and normalising it changes nothing
if and only if no section sign of the bare text has something visible behind its newline. -/
theorem normalize_normalForm_iff (value : List Char) :
    (NormalForm (normalizeSitemapText value) ∧
      normalizeSitemapText (normalizeSitemapText value) = normalizeSitemapText value) ↔
      SignsClosed value := by
  rw [← normalForm_normalize_iff]
  exact ⟨And.left, fun h => ⟨h, normalize_normalize h⟩⟩

/-- A section sign at the end of a line. -/
def signedLine : List Char := ['a', sectionSign, newline, 'b']

/-- The section sign is still there, before the blank, and the next pass takes both. -/
theorem signedLine_not_normal :
    normalizeSitemapText signedLine = ['a', sectionSign, ' ', 'b'] ∧
    normalizeSitemapText (normalizeSitemapText signedLine) = ['a', 'b'] := by
  decide +kernel

end ServiceToolkit.SitemapText
