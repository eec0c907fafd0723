import Mathlib
import ServiceToolkit.Words

/-!
# Text as Python Reads It

Text is a list of characters here, so that the checks a program makes on it (a separator,
a leading part, a trailing part) are the ones lists already have. Two things are Python's
own:

* `isSpace` and `strip`: the characters `str.strip()` removes, which are more than the
  ASCII blanks;
* the Unicode tables behind `str.lower()`, behind the regular-expression class `\w` and
  behind the decimal digits `int()` reads. They are a parameter, `Unicode`, with the few
  facts about lower-casing that programs rely on; `Unicode.ascii` is the instance for ASCII
  text.
-/

namespace ServiceToolkit.Text

open Words List

/-- The characters for which `str.isspace()` is true: the ones `str.strip()` removes. -/
def isSpace (c : Char) : Bool :=
  let n := c.toNat
  (9 ≤ n && n ≤ 13) || (28 ≤ n && n ≤ 32) || n == 0x85 || n == 0xA0 || n == 0x1680 ||
    (0x2000 ≤ n && n ≤ 0x200A) || n == 0x2028 || n == 0x2029 || n == 0x202F ||
    n == 0x205F || n == 0x3000

/-- `str.strip()`: no blank at either end. -/
def strip (s : List Char) : List Char := trim isSpace s

/-- A text that neither starts nor ends with a blank. -/
def Stripped (s : List Char) : Prop :=
  (∀ c ∈ s.head?, isSpace c = false) ∧ ∀ c ∈ s.getLast?, isSpace c = false

theorem strip_of_stripped {s : List Char} (h : Stripped s) : strip s = s := trim_eq_self h.1 h.2

theorem stripped_strip (s : List Char) : Stripped (strip s) :=
  ⟨fun _ => not_blank_of_head_trim, fun _ => not_blank_of_getLast_trim⟩

variable {c : Char}

theorem mem_of_mem_strip {s : List Char} (h : c ∈ strip s) : c ∈ s :=
  trim_sublist.subset h

/-- The Unicode tables Python's text operations consult, with what programs rely on:
lower-casing is idempotent, makes no text out of nothing nor nothing out of text, and
turns no letter into a full stop, a comma or a blank. -/
structure Unicode where
  /-- `str.lower()`. -/
  lower : List Char → List Char
  /-- The class `\w` of a regular expression over `str`. -/
  isWord : Char → Bool
  /-- The value of a decimal digit, of any script. -/
  digit : Char → Option ℕ
  lower_lower : ∀ s, lower (lower s) = lower s
  lower_eq_nil : ∀ s, lower s = [] ↔ s = []
  dot_of_lower : ∀ s, '.' ∈ lower s → '.' ∈ s
  comma_of_lower : ∀ s, ',' ∈ lower s → ',' ∈ s
  stripped_lower : ∀ s, Stripped s → Stripped (lower s)

/-- Lower-casing a stripped text leaves nothing to strip. -/
theorem Unicode.strip_lower_strip (U : Unicode) (s : List Char) :
    strip (U.lower (strip s)) = U.lower (strip s) :=
  strip_of_stripped (U.stripped_lower _ (stripped_strip s))

/-! ### Integers -/

/-- The value of a digit sequence, after some digits worth `acc`: one underscore may stand
between two digits. -/
def digitsValue (U : Unicode) : ℕ → List Char → Option ℕ
  | acc, [] => some acc
  | acc, '_' :: c :: cs => (U.digit c).bind fun d => digitsValue U (acc * 10 + d) cs
  | acc, c :: cs => (U.digit c).bind fun d => digitsValue U (acc * 10 + d) cs

/-- The longest digit sequence `int()` accepts. -/
def intMaxStrDigits : ℕ := 4300

/-- An unsigned decimal literal. -/
def parseDigits (U : Unicode) : List Char → Option ℕ
  | [] => none
  | c :: cs =>
    if intMaxStrDigits < ((c :: cs).filter fun c => (U.digit c).isSome).length then none
    else (U.digit c).bind fun d => digitsValue U d cs

/-- `int(text)` on a text without outer blanks, with `none` for its `ValueError`. -/
def parseInt (U : Unicode) : List Char → Option ℤ
  | '+' :: rest => (parseDigits U rest).map Int.ofNat
  | '-' :: rest => (parseDigits U rest).map fun n => -Int.ofNat n
  | rest => (parseDigits U rest).map Int.ofNat

/-- The blanks `int` skips at the ends of a text: not the separators U+001C to U+001F, which
`strip` removes. -/
def isIntSpace (c : Char) : Bool := isSpace c && !(28 ≤ c.toNat && c.toNat ≤ 31)

/-- `int(text)`, with `none` for its `ValueError`. -/
def pythonInt (U : Unicode) (s : List Char) : Option ℤ := parseInt U (trim isIntSpace s)

/-! ### The ASCII tables -/

/-- What holds of every ASCII character can be checked one by one. -/
theorem forall_ascii {P : Char → Prop} (h : ∀ n < 128, P (Char.ofNat n)) (c : Char)
    (hc : c.toNat < 128) : P c := by
  have hn := h c.toNat hc
  rwa [Char.ofNat_toNat] at hn

theorem toNat_lt_of_isAlphanum (h : c.isAlphanum = true) : c.toNat < 128 := by
  simp only [Char.isAlphanum, Char.isAlpha, Char.isUpper, Char.isLower, Char.isDigit,
    Bool.or_eq_true, Bool.and_eq_true, decide_eq_true_eq, UInt32.le_iff_toNat_le,
    ge_iff_le] at h
  change ((65 ≤ c.toNat ∧ c.toNat ≤ 90) ∨ (97 ≤ c.toNat ∧ c.toNat ≤ 122)) ∨
    (48 ≤ c.toNat ∧ c.toNat ≤ 57) at h
  omega

theorem isSpace_of_isAlpha (h : c.isAlpha = true) : isSpace c = false := by
  have hn : 65 ≤ c.toNat ∧ c.toNat ≤ 122 := by
    simp only [Char.isAlpha, Char.isUpper, Char.isLower, Bool.or_eq_true, Bool.and_eq_true,
      decide_eq_true_eq, UInt32.le_iff_toNat_le, ge_iff_le] at h
    change (65 ≤ c.toNat ∧ c.toNat ≤ 90) ∨ (97 ≤ c.toNat ∧ c.toNat ≤ 122) at h
    omega
  obtain ⟨hlo, hhi⟩ := hn
  simp only [isSpace, Bool.or_eq_false_iff, Bool.and_eq_false_iff, decide_eq_false_iff_not,
    beq_eq_false_iff_ne]
  omega

theorem isSpace_of_isDigit (h : c.isDigit = true) : isSpace c = false := by
  have hn : 48 ≤ c.toNat ∧ c.toNat ≤ 57 := by
    simp only [Char.isDigit, Bool.and_eq_true, decide_eq_true_eq, UInt32.le_iff_toNat_le,
      ge_iff_le] at h
    exact h
  simp only [isSpace, Bool.or_eq_false_iff, Bool.and_eq_false_iff, decide_eq_false_iff_not,
    beq_eq_false_iff_ne]
  omega

theorem toLower_eq_or_isAlpha (c : Char) :
    c.toLower = c ∨ c.isAlpha = true ∧ c.toLower.isAlpha = true := by
  by_cases h : c.isUpper = true
  · have ha : c.isAlpha = true := by simp [Char.isAlpha, h]
    exact .inr ⟨ha, by rw [Char.isAlpha_toLower_eq_isAlpha, ha]⟩
  · exact .inl (Char.toLower_eq_of_not_isUpper h)

theorem mem_of_mem_map_toLower {s : List Char} (hc : c.isAlpha = false)
    (h : c ∈ s.map Char.toLower) : c ∈ s := by
  obtain ⟨d, hd, rfl⟩ := mem_map.mp h
  rcases toLower_eq_or_isAlpha d with he | ⟨-, ha⟩
  · rwa [he]
  · rw [ha] at hc
    cases hc

theorem isSpace_toLower (h : isSpace c = false) : isSpace c.toLower = false := by
  rcases toLower_eq_or_isAlpha c with he | ⟨-, ha⟩
  · rwa [he]
  · exact isSpace_of_isAlpha ha

/-- The tables restricted to ASCII: capitals are lower-cased one by one, and a word
character is a letter, a digit or the underscore. -/
def Unicode.ascii : Unicode where
  lower := List.map Char.toLower
  isWord c := c.isAlphanum || c == '_'
  digit c := if c.isDigit then some (c.toNat - '0'.toNat) else none
  lower_lower s := by simp [Function.comp_def]
  lower_eq_nil s := List.map_eq_nil_iff
  dot_of_lower s := mem_of_mem_map_toLower (by decide)
  comma_of_lower s := mem_of_mem_map_toLower (by decide)
  stripped_lower s h := by
    constructor
    · intro c hc
      rw [List.head?_map] at hc
      obtain ⟨d, hd, rfl⟩ := Option.map_eq_some_iff.mp hc
      exact isSpace_toLower (h.1 d hd)
    · intro c hc
      rw [List.getLast?_map] at hc
      obtain ⟨d, hd, rfl⟩ := Option.map_eq_some_iff.mp hc
      exact isSpace_toLower (h.2 d hd)

example : parseInt .ascii "-1_0".toList = some (-10) := by decide

example : parseInt .ascii "1__0".toList = none := by decide

end ServiceToolkit.Text
