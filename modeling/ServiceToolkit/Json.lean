import Mathlib.Data.Rat.Floor
import ServiceToolkit.Text

/-!
# JSON Documents as Python Reads Them

A JSON document is a tree (`Value`), with the members of an object in the order of the text.
`json.loads` turns it into Python objects and may raise on the way: an integer literal of too many
digits is a `ValueError`, and a document that nests too deeply a `RecursionError`. `loadError` is
the first of these in the order of the text.

`toInt` is Python's `int(x)` on what `json.loads` returns. Which exception it raises depends on the
kind of the value: text and `nan` give a `ValueError`, an infinite number an `OverflowError`,
`None`, a list and a dictionary a `TypeError`.
-/

namespace ServiceToolkit.Json

open Text List

/-- The exceptions that reading a document raises. -/
inductive Raised
  | valueError
  | typeError
  | overflowError
  | recursionError
  deriving DecidableEq

/-- A number with a fraction or an exponent, after `float()`. -/
inductive PyFloat
  | finite (value : ℚ)
  | infinite (negative : Bool)
  | nan
  deriving DecidableEq

/-- A document. -/
inductive Value
  | null
  | bool (b : Bool)
  | int (n : ℤ)
  | float (x : PyFloat)
  | str (text : String)
  | list (elements : List Value)
  | dict (members : List (String × Value))

/-- The exception `json.loads` raises, if any, on a value at which `depth` levels of nesting are
left: the first in the order of the text. -/
def Value.loadError : ℕ → Value → Option Raised
  | _, .int n => if 10 ^ intMaxStrDigits ≤ n.natAbs then some .valueError else none
  | 0, .list _ | 0, .dict _ => some .recursionError
  | depth + 1, .list elements => elements.findSome? (loadError depth)
  | depth + 1, .dict members => members.findSome? fun m => loadError depth m.2
  | _, .null | _, .bool _ | _, .float _ | _, .str _ => none

/-- A member of a dictionary: of several with one name the last counts. -/
def Value.get? (name : String) : Value → Option Value
  | .dict members => members.reverse.lookup name
  | _ => none

/-- `bool(x)`. -/
def Value.truthy : Value → Bool
  | .null => false
  | .bool b => b
  | .int n => n ≠ 0
  | .float x => x ≠ .finite 0
  | .str text => text ≠ ""
  | .list elements => !elements.isEmpty
  | .dict members => !members.isEmpty

/-! ### Integers -/

/-- The Unicode tables, with the value of the ASCII digits. -/
structure Decimals extends Unicode where
  digit_ascii : ∀ c : Char, c.isDigit = true → digit c = some (c.toNat - '0'.toNat)

/-- The tables restricted to ASCII. -/
def Decimals.ascii : Decimals where
  toUnicode := .ascii
  digit_ascii c hc := by simp [Unicode.ascii, hc]

/-- `int(x)`. -/
def Value.toInt (D : Decimals) : Value → Except Raised ℤ
  | .int n => .ok n
  | .bool b => .ok b.toNat
  | .float (.finite value) => .ok (value.num.tdiv value.den)
  | .float (.infinite _) => .error .overflowError
  | .float .nan => .error .valueError
  | .str text =>
    match pythonInt D.toUnicode text.toList with
    | some n => .ok n
    | none => .error .valueError
  | .null | .list _ | .dict _ => .error .typeError

/-- `int(x)` returns. -/
def Value.converts (D : Decimals) (v : Value) : Bool := (v.toInt D).isOk

/-- The value of a text of ASCII digits. -/
def decimalDigits (digits : List Char) : Option ℕ :=
  if digits ≠ [] ∧ digits.all Char.isDigit then
    some (digits.foldl (fun n c => n * 10 + (c.toNat - '0'.toNat)) 0)
  else none

/-- The value of a **decimal text**: ASCII digits, any number of them, and perhaps a sign. -/
def decimal : List Char → Option ℤ
  | '+' :: digits => (decimalDigits digits).map Int.ofNat
  | '-' :: digits => (decimalDigits digits).map fun n => -Int.ofNat n
  | digits => (decimalDigits digits).map Int.ofNat

/-- The number that an integer or a decimal text stands for. -/
def Value.whole : Value → Option ℤ
  | .int n => some n
  | .str text => decimal text.toList
  | _ => none

/-- A text of digits is a decimal text. -/
theorem decimal_of_digits {digits : List Char} {n : ℕ} (h : decimalDigits digits = some n) :
    decimal digits = some (n : ℤ) := by
  unfold decimal
  split
  · simp [decimalDigits] at h
  · simp [decimalDigits] at h
  · rw [h]
    rfl

section

variable (D : Decimals)

theorem digitsValue_of_isDigit (acc : ℕ) (digits : List Char) (h : ∀ c ∈ digits, c.isDigit = true) :
    digitsValue D.toUnicode acc digits =
      some (digits.foldl (fun n c => n * 10 + (c.toNat - '0'.toNat)) acc) := by
  induction digits generalizing acc with
  | nil => rfl
  | cons c digits ih =>
    have hc := h c mem_cons_self
    have hne : c ≠ '_' := by
      rintro rfl
      exact absurd hc (by decide)
    rw [digitsValue, D.digit_ascii c hc, Option.bind_some, foldl_cons]
    · exact ih _ fun d hd => h d (mem_cons_of_mem _ hd)
    · rintro d ds rfl
      exact absurd rfl hne

theorem parseDigits_of_decimalDigits {digits : List Char} {n : ℕ}
    (h : decimalDigits digits = some n) :
    (intMaxStrDigits < digits.length ∧ parseDigits D.toUnicode digits = none) ∨
      parseDigits D.toUnicode digits = some n := by
  unfold decimalDigits at h
  split at h
  · rename_i hdigits
    cases digits with
    | nil => exact absurd rfl hdigits.1
    | cons c digits =>
      have hall := all_eq_true.mp hdigits.2
      rw [parseDigits]
      split
      · next hmany => exact .inl ⟨hmany.trans_le (length_filter_le _ _), rfl⟩
      · have hc := D.digit_ascii c (hall c mem_cons_self)
        rw [hc, Option.bind_some, digitsValue_of_isDigit D _ _
          fun d hd => hall d (mem_cons_of_mem _ hd), ← h, foldl_cons, Nat.zero_mul, Nat.zero_add]
        exact .inr rfl
  · cases h

theorem isSpace_of_decimal {text : List Char} {n : ℤ} (h : decimal text = some n) :
    ∀ c ∈ text, isSpace c = false := by
  have hdigits : ∀ {digits : List Char} {f : ℕ → ℤ}, (decimalDigits digits).map f = some n →
      ∀ c ∈ digits, isSpace c = false := by
    intro digits f h c hc
    unfold decimalDigits at h
    split at h
    · next hall => exact isSpace_of_isDigit (all_eq_true.mp hall.2 c hc)
    · cases h
  unfold decimal at h
  split at h
  · exact forall_mem_cons.mpr ⟨by decide, hdigits h⟩
  · exact forall_mem_cons.mpr ⟨by decide, hdigits h⟩
  · exact hdigits h

theorem pythonInt_of_decimal {text : List Char} {n : ℤ} (h : decimal text = some n) :
    (intMaxStrDigits < text.length ∧ pythonInt D.toUnicode text = none) ∨
      pythonInt D.toUnicode text = some n := by
  have hspace : ∀ c ∈ text, isIntSpace c = false := fun c hc => by
    rw [isIntSpace, isSpace_of_decimal h c hc, Bool.false_and]
  have hmap : ∀ {digits : List Char} {f : ℕ → ℤ}, (decimalDigits digits).map f = some n →
      (intMaxStrDigits < digits.length ∧ (parseDigits D.toUnicode digits).map f = none) ∨
        (parseDigits D.toUnicode digits).map f = some n := by
    intro digits f h
    obtain ⟨m, hm, rfl⟩ := Option.map_eq_some_iff.mp h
    rcases parseDigits_of_decimalDigits D hm with ⟨hmany, hnone⟩ | hsome
    · exact .inl ⟨hmany, by rw [hnone]; rfl⟩
    · exact .inr (by rw [hsome]; rfl)
  rw [pythonInt, Words.trim_of_forall hspace]
  unfold decimal at h
  split at h
  · exact (hmap h).imp_left fun h => ⟨h.1.trans (Nat.lt_succ_self _), h.2⟩
  · exact (hmap h).imp_left fun h => ⟨h.1.trans (Nat.lt_succ_self _), h.2⟩
  · rename_i hplus hminus
    unfold parseInt
    split
    · next rest => exact absurd rfl (hplus rest)
    · next rest => exact absurd rfl (hminus rest)
    · exact hmap h

/-- **`int(x)` of an integer or a decimal text** is its value, unless the text has too many
digits. -/
theorem toInt_decimal {v : Value} {n : ℤ} (h : v.whole = some n) :
    v.toInt D = .ok n ∨ v.toInt D = .error .valueError := by
  cases v with
  | int m =>
    cases h
    exact .inl rfl
  | str text =>
    rcases pythonInt_of_decimal D h with ⟨-, hparse⟩ | hparse
    · exact .inr (by rw [Value.toInt, hparse])
    · exact .inl (by rw [Value.toInt, hparse])
  | null | bool | float | list | dict => cases h

theorem converts_eq_true_iff {v : Value} : v.converts D = true ↔ ∃ n, v.toInt D = .ok n := by
  rw [Value.converts]
  cases v.toInt D with
  | ok n => exact iff_of_true rfl ⟨n, rfl⟩
  | error e => simp [Except.isOk, Except.toBool]

/-- **A list comprehension of `int`** that takes every value returns all of them. -/
theorem mapM_toInt_ok {l : List Value} (h : ∀ v ∈ l, v.converts D = true) :
    ∃ ns, l.mapM (Value.toInt D) = .ok ns ∧ ∀ v ∈ l, ∀ n, v.toInt D = .ok n → n ∈ ns := by
  induction l with
  | nil => exact ⟨[], rfl, by simp⟩
  | cons v l ih =>
    obtain ⟨hv, hl⟩ := forall_mem_cons.mp h
    obtain ⟨n, hn⟩ := (converts_eq_true_iff D).mp hv
    obtain ⟨ns, hns, hmem⟩ := ih hl
    refine ⟨n :: ns, ?_, ?_⟩
    · rw [mapM_cons, hn, hns]
      rfl
    · rw [forall_mem_cons]
      refine ⟨fun m hm => ?_, fun w hw m hm => mem_cons_of_mem _ (hmem w hw m hm)⟩
      obtain rfl : n = m := Except.ok.inj (hn.symm.trans hm)
      exact mem_cons_self

/-- **A list comprehension of `int`** raises what the first value raises that it does not take. -/
theorem mapM_toInt_error {l : List Value} {v : Value}
    (h : l.find? (fun v => !v.converts D) = some v) :
    ∃ e, v.toInt D = .error e ∧ l.mapM (Value.toInt D) = .error e := by
  induction l with
  | nil => cases h
  | cons w l ih =>
    rw [find?_cons] at h
    cases hw : w.toInt D with
    | error e =>
      have hconverts : w.converts D = false := by
        simp [Value.converts, hw, Except.isOk, Except.toBool]
      rw [hconverts] at h
      cases h
      refine ⟨e, hw, ?_⟩
      rw [mapM_cons, hw]
      rfl
    | ok n =>
      have hconverts : w.converts D = true := (converts_eq_true_iff D).mpr ⟨n, hw⟩
      rw [hconverts] at h
      obtain ⟨e, hv, he⟩ := ih h
      refine ⟨e, hv, ?_⟩
      rw [mapM_cons, hw, he]
      rfl

end

end ServiceToolkit.Json
