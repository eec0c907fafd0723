import ServiceToolkit.Etag

/-!
# Entity Tags

What RFC 9110 lets a client write into `If-None-Match`: an asterisk, or a list of **entity tags**
with blanks around them and empty elements between them. A tag is quoted text, and a comma may stand
in it.

The middleware cuts the value at every comma and takes the characters `W` and `/` off each piece.
What it finds is still the weak comparison (`etagMatches_written_iff`): a piece that is no whole tag
has at most one quotation mark (`count_quoteMark_piece`), and the tag the middleware computes has
two.
-/

namespace ServiceToolkit.Etag

open Words Paths List

/-! ### The grammar -/

/-- A character of an opaque tag. -/
def isEtagc (c : UInt8) : Bool := c == 33 || (35 ≤ c && c ≤ 126) || 128 ≤ c

/-- **An entity tag**. -/
structure EntityTag where
  weak : Bool
  chars : Bytes
  isEtagc_of_mem : ∀ c ∈ chars, isEtagc c = true

/-- The quoted part of a tag. -/
def quoted (chars : Bytes) : Bytes := quoteMark :: (chars ++ [quoteMark])

def EntityTag.written (t : EntityTag) : Bytes :=
  (if t.weak then ascii "W/" else []) ++ quoted t.chars

/-- Optional whitespace: blanks and tabs. -/
structure Ows where
  chars : Bytes
  blank : ∀ c ∈ chars, c = 32 ∨ c = 9

/-- An element of the list, which may be empty. -/
structure Element where
  before : Ows
  tag : Option EntityTag
  behind : Ows

def Element.written (e : Element) : Bytes :=
  e.before.chars ++ e.tag.elim [] EntityTag.written ++ e.behind.chars

/-- **The value of an `If-None-Match`**. -/
inductive FieldValue
  | any (before behind : Ows)
  | list (elements : List Element)

def FieldValue.written : FieldValue → Bytes
  | any before behind => before.chars ++ ascii "*" ++ behind.chars
  | list elements => join comma (elements.map Element.written)

/-- The weak comparison: any tag, or one with these characters is listed. -/
def FieldValue.Covers (v : FieldValue) (chars : Bytes) : Prop :=
  match v with
  | any .. => True
  | list elements => ∃ e ∈ elements, ∃ t, e.tag = some t ∧ t.chars = chars

/-! ### Characters -/

theorem isBlank_of_ows {ows : Ows} : ∀ c ∈ ows.chars, isBlank c = true := by
  intro c hc
  rcases ows.blank c hc with rfl | rfl <;> rfl

theorem ne_quoteMark_of_isEtagc {c : UInt8} (h : isEtagc c = true) : c ≠ quoteMark := by
  rintro rfl
  cases h

theorem count_quoteMark_chars (t : EntityTag) : t.chars.count quoteMark = 0 :=
  count_eq_zero.mpr fun h => ne_quoteMark_of_isEtagc (t.isEtagc_of_mem _ h) rfl

theorem count_quoteMark_ows (ows : Ows) : ows.chars.count quoteMark = 0 := by
  refine count_eq_zero.mpr fun h => ?_
  rcases ows.blank _ h with h | h <;> cases h

theorem count_quoteMark_quoted (chars : Bytes) :
    (quoted chars).count quoteMark = chars.count quoteMark + 2 := by
  simp [quoted]

theorem hexDigit_mem (n : ℕ) (h : n < 16) : hexDigit n ∈ ascii "0123456789abcdef" := by
  have hall : ∀ n < 16, hexDigit n ∈ ascii "0123456789abcdef" := by decide
  exact hall n h

theorem mem_hexdigest {blake2b : Digest} {body : Bytes} {c : UInt8}
    (h : c ∈ hexdigest blake2b body) : c ∈ ascii "0123456789abcdef" := by
  obtain ⟨b, -, hc⟩ := mem_flatMap.mp h
  have hb := b.toNat_lt
  rcases mem_cons.mp hc with rfl | hc
  · exact hexDigit_mem _ (by omega)
  · rw [mem_singleton.mp hc]
    exact hexDigit_mem _ (by omega)

theorem comma_notMem_hexdigest (blake2b : Digest) (body : Bytes) :
    comma ∉ hexdigest blake2b body := by
  intro h
  exact absurd (mem_hexdigest h) (by decide)

/-! ### Pieces -/

theorem strip_quoted (chars : Bytes) : strip (quoted chars) = quoted chars :=
  trim_of_ends rfl rfl chars

theorem strip_computeEtag (blake2b : Digest) (body : Bytes) :
    strip (lstripWeak (computeEtag blake2b body)) = quoted (hexdigest blake2b body) :=
  strip_quoted (hexdigest blake2b body)

theorem candidateTag_tag (before behind : Ows) (t : EntityTag) :
    candidateTag (before.chars ++ t.written ++ behind.chars) = quoted t.chars := by
  have hstrip : strip (before.chars ++ t.written ++ behind.chars) = t.written := by
    rw [strip, trim_append_right isBlank_of_ows, trim_append_left isBlank_of_ows, EntityTag.written]
    cases t.weak with
    | false => exact strip_quoted t.chars
    | true => exact trim_of_ends (s := 47 :: quoteMark :: t.chars) rfl rfl
  have hweak : lstripWeak t.written = quoted t.chars := by
    rw [EntityTag.written]
    cases t.weak <;> rfl
  rw [candidateTag, hstrip, hweak, strip_quoted]

theorem candidateTag_sublist (piece : Bytes) : (candidateTag piece).Sublist piece := by
  exact trim_sublist.trans ((dropWhile_sublist _).trans trim_sublist)

theorem candidateTag_ne_quoted {piece : Bytes} (h : piece.count quoteMark ≤ 1) (chars : Bytes) :
    candidateTag piece ≠ quoted chars := by
  intro heq
  have hle := (candidateTag_sublist piece).count_le quoteMark
  rw [heq, count_quoteMark_quoted] at hle
  omega

theorem count_quoteMark_piece {before behind : Ows} {t : EntityTag} (hcomma : comma ∈ t.chars)
    {piece : Bytes} (h : piece ∈ (before.chars ++ t.written ++ behind.chars).splitOn comma) :
    piece.count quoteMark ≤ 1 := by
  obtain ⟨left, right, hchars⟩ := append_of_mem hcomma
  have hcount := count_quoteMark_chars t
  rw [hchars, count_append, count_cons] at hcount
  have hweak : (if t.weak then ascii "W/" else []).count quoteMark = 0 := by
    cases t.weak <;> rfl
  have hsplit : before.chars ++ t.written ++ behind.chars =
      (before.chars ++ (if t.weak then ascii "W/" else []) ++ quoteMark :: left) ++
        comma :: (right ++ quoteMark :: behind.chars) := by
    simp [EntityTag.written, quoted, hchars]
  rw [hsplit, splitOn_append_cons_self, mem_append] at h
  rcases h with h | h
  · refine ((sublist_of_mem_splitOn h).count_le quoteMark).trans ?_
    rw [count_append, count_append, count_cons_self, count_quoteMark_ows, hweak]
    omega
  · refine ((sublist_of_mem_splitOn h).count_le quoteMark).trans ?_
    rw [count_append, count_cons_self, count_quoteMark_ows]
    omega

theorem comma_notMem_written {t : EntityTag} (hcomma : comma ∉ t.chars) (before behind : Ows) :
    comma ∉ before.chars ++ t.written ++ behind.chars := by
  have hows : ∀ ows : Ows, comma ∉ ows.chars := by
    intro ows h
    rcases ows.blank _ h with h | h <;> cases h
  have hwritten : comma ∉ t.written := by
    have hweak : comma ∉ if t.weak then ascii "W/" else [] := by
      cases t.weak <;> decide
    have hne : comma ≠ quoteMark := by decide
    simp [EntityTag.written, hweak, quoted, hcomma, hne]
  simp [hows, hwritten]

theorem exists_piece_iff (e : Element) {chars : Bytes} (hcomma : comma ∉ chars) :
    (∃ piece ∈ e.written.splitOn comma, candidateTag piece = quoted chars) ↔
      ∃ t, e.tag = some t ∧ t.chars = chars := by
  cases htag : e.tag with
  | none =>
    refine iff_of_false ?_ (by simp)
    rintro ⟨piece, hpiece, heq⟩
    have hcount : piece.count quoteMark ≤ 1 := by
      refine ((sublist_of_mem_splitOn hpiece).count_le quoteMark).trans ?_
      simp [Element.written, htag, count_quoteMark_ows]
    exact candidateTag_ne_quoted hcount chars heq
  | some t =>
    have hwritten : e.written = e.before.chars ++ t.written ++ e.behind.chars := by
      rw [Element.written, htag]
      rfl
    by_cases ht : comma ∈ t.chars
    · refine iff_of_false ?_ ?_
      · rintro ⟨piece, hpiece, heq⟩
        rw [hwritten] at hpiece
        exact candidateTag_ne_quoted (count_quoteMark_piece ht hpiece) chars heq
      · rintro ⟨t', ht', rfl⟩
        rw [← Option.some.inj ht'] at hcomma
        exact hcomma ht
    · rw [hwritten, splitOn_eq_singleton (comma_notMem_written ht _ _)]
      simp only [mem_singleton, exists_eq_left, candidateTag_tag, Option.some.injEq,
        exists_eq_left']
      simp [quoted]

/-! ### The comparison -/

theorem quoteMark_mem_list {elements : List Element}
    (h : (42 : UInt8) ∈ (FieldValue.list elements).written) :
    quoteMark ∈ (FieldValue.list elements).written := by
  rcases mem_join h with h | ⟨text, htext, hmem⟩
  · cases h
  · refine (sublist_join comma htext).subset ?_
    obtain ⟨e, -, rfl⟩ := mem_map.mp htext
    have hows : ∀ ows : Ows, (42 : UInt8) ∉ ows.chars := by
      intro ows h
      rcases ows.blank _ h with h | h <;> cases h
    cases htag : e.tag with
    | none => simp [Element.written, htag, hows] at hmem
    | some t => simp [Element.written, htag, EntityTag.written, quoted]

theorem strip_list_ne_asterisk (elements : List Element) :
    strip (FieldValue.list elements).written ≠ ascii "*" := by
  intro h
  have hstar : (42 : UInt8) ∈ (FieldValue.list elements).written := by
    have hmem : (42 : UInt8) ∈ strip (FieldValue.list elements).written := by
      rw [h]
      decide
    exact trim_sublist.subset hmem
  have hblank : isBlank quoteMark = false := rfl
  have hmark := mem_trim hblank (quoteMark_mem_list hstar)
  rw [← strip, h] at hmark
  exact absurd hmark (by decide)

theorem strip_any (before behind : Ows) :
    strip (FieldValue.any before behind).written = ascii "*" := by
  rw [FieldValue.written, strip, trim_append_right isBlank_of_ows, trim_append_left isBlank_of_ows]
  rfl

theorem exists_piece_strip_iff {value target : Bytes} :
    (∃ piece ∈ (strip value).splitOn comma, candidateTag piece = target) ↔
      ∃ piece ∈ value.splitOn comma, candidateTag piece = target := by
  have hread : ∀ pieces : List Bytes, (∃ piece ∈ pieces, candidateTag piece = target) ↔
      ∃ piece ∈ pieces.map strip, strip (lstripWeak piece) = target := by
    intro pieces
    simp [candidateTag]
  have hmap : ((strip value).splitOn comma).map strip = (value.splitOn comma).map strip :=
    map_trim_splitOn_trim (show isBlank comma = false from rfl) value
  rw [hread, hread, hmap]

/-- **`_etag_matches` is the weak comparison** with the tag the middleware computes. -/
theorem etagMatches_written_iff (v : FieldValue) (blake2b : Digest) (body : Bytes) :
    etagMatches v.written (computeEtag blake2b body) = true ↔
      v.Covers (hexdigest blake2b body) := by
  have hcomma := comma_notMem_hexdigest blake2b body
  rw [etagMatches, strip_computeEtag, Bool.or_eq_true, beq_iff_eq, any_eq_true]
  simp only [beq_iff_eq]
  cases v with
  | any before behind => exact iff_of_true (.inl (strip_any before behind)) trivial
  | list elements =>
    rw [or_iff_right (strip_list_ne_asterisk elements), exists_piece_strip_iff]
    by_cases hne : elements = []
    · subst hne
      refine iff_of_false ?_ ?_
      · rintro ⟨piece, hpiece, heq⟩
        rw [mem_singleton.mp hpiece] at heq
        cases heq
      · rintro ⟨e, he, -⟩
        cases he
    · rw [FieldValue.written, splitOn_join_flatMap (by simpa using hne)]
      simp only [FieldValue.Covers, ← exists_piece_iff _ hcomma, mem_flatMap, mem_map]
      constructor
      · rintro ⟨piece, ⟨_, ⟨e, he, rfl⟩, hpiece⟩, heq⟩
        exact ⟨e, he, piece, hpiece, heq⟩
      · rintro ⟨e, he, piece, hpiece, heq⟩
        exact ⟨piece, ⟨_, ⟨e, he, rfl⟩, hpiece⟩, heq⟩

end ServiceToolkit.Etag
