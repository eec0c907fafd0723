import Mathlib.Data.Int.Bitwise
import Mathlib.Tactic.Ring
import Mathlib.Tactic.Linarith

/-!
# Bit Fields of Integers

A field of `s` bits below an integer `a` of either sign, in two's complement of unbounded width:
shifting `a` up and or-ing the field in is the sum `a * 2 ^ s + b` (`shiftLeft_lor`). The sum
orders by `a` first and by the field then (`field_lt_field`), and gives both back
(`field_inj`).

As a set of positions an integer is determined by its bits (`eq_of_testBit_eq`), and or-ing single
bits in adds their positions (`testBit_foldl_lor`).
-/

namespace ServiceToolkit.BitFields

/-! ### Shift and or -/

theorem ldiff_ones {s n : ℕ} (hn : n < 2 ^ s) (m : ℕ) :
    (2 ^ s * m + (2 ^ s - 1)).ldiff n = 2 ^ s * m + (2 ^ s - (n + 1)) := by
  have hones : 2 ^ s - 1 < 2 ^ s := Nat.sub_lt (Nat.two_pow_pos s) Nat.one_pos
  have hrest : 2 ^ s - (n + 1) < 2 ^ s := Nat.sub_lt (Nat.two_pow_pos s) n.succ_pos
  refine Nat.eq_of_testBit_eq fun i => ?_
  rw [Nat.testBit_ldiff, Nat.testBit_two_pow_mul_add m hones, Nat.testBit_two_pow_mul_add m hrest]
  by_cases hi : i < s
  · simp only [hi, if_true, Nat.testBit_two_pow_sub_one, Nat.testBit_two_pow_sub_succ hn]
  · have hclear : n.testBit i = false :=
      Nat.testBit_lt_two_pow (hn.trans_le (Nat.pow_le_pow_right Nat.two_pos (not_lt.mp hi)))
    simp only [hi, if_false, hclear, Bool.not_false, Bool.and_true]

/-- **Or-ing a field in**: below a number shifted up by `s`, a field of `s` bits is added. -/
theorem shiftLeft_lor (a : ℤ) {s : ℕ} {b : ℤ} (hb : 0 ≤ b) (hb' : b < 2 ^ s) :
    Int.lor (a <<< s) b = a * 2 ^ s + b := by
  obtain ⟨n, rfl⟩ := Int.eq_ofNat_of_zero_le hb
  have hn : n < 2 ^ s := by exact_mod_cast hb'
  cases a with
  | ofNat m =>
    have hor := Nat.shiftLeft_add_eq_or_of_lt hn m
    calc Int.lor ((m : ℤ) <<< s) n = ((m <<< s ||| n : ℕ) : ℤ) := rfl
      _ = (m : ℤ) * 2 ^ s + n := by
          rw [← hor, Nat.shiftLeft_eq]
          push_cast
          rfl
  | negSucc m =>
    have hshift : Int.negSucc m <<< s = Int.negSucc (2 ^ s * m + (2 ^ s - 1)) := by
      rw [Int.shiftLeft_eq, Int.negSucc_eq, Int.negSucc_eq]
      push_cast [Nat.one_le_two_pow]
      ring
    rw [hshift]
    calc Int.lor (Int.negSucc (2 ^ s * m + (2 ^ s - 1))) n
        = Int.negSucc ((2 ^ s * m + (2 ^ s - 1)).ldiff n) := rfl
      _ = Int.negSucc m * 2 ^ s + n := by
          rw [ldiff_ones hn, Int.negSucc_eq, Int.negSucc_eq]
          push_cast [Nat.succ_le_of_lt hn]
          ring

/-- Fields or-ed in from the top down stay shifted up by what is still to come. -/
theorem shiftLeft_lor_shiftLeft (a : ℤ) (s : ℕ) {n : ℕ} {b : ℤ} (hb : 0 ≤ b) (hb' : b < 2 ^ n) :
    Int.lor (a <<< (s + n)) (b <<< s) = (a * 2 ^ n + b) <<< s := by
  have hlt : b <<< s < 2 ^ (s + n) := by
    rw [Int.shiftLeft_eq, add_comm s n, pow_add]
    exact mul_lt_mul_of_pos_right hb' (by positivity)
  have hnonneg : 0 ≤ b <<< s := by
    rw [Int.shiftLeft_eq]
    positivity
  rw [shiftLeft_lor a hnonneg hlt, Int.shiftLeft_eq, Int.shiftLeft_eq, pow_add]
  ring

/-! ### The order of fields -/

section

variable {s : ℕ} {a a' b b' : ℤ}

/-- The upper part decides first. -/
theorem field_lt_field (ha : a < a') (hb : b < 2 ^ s) (hb' : 0 ≤ b') :
    a * 2 ^ s + b < a' * 2 ^ s + b' := by
  have hpos : (0 : ℤ) < 2 ^ s := by positivity
  nlinarith

theorem field_inj (hb : 0 ≤ b) (hlt : b < 2 ^ s) (hb' : 0 ≤ b') (hlt' : b' < 2 ^ s)
    (heq : a * 2 ^ s + b = a' * 2 ^ s + b') : a = a' ∧ b = b' := by
  rcases lt_trichotomy a a' with ha | rfl | ha
  · exact absurd heq (field_lt_field ha hlt hb').ne
  · exact ⟨rfl, add_left_cancel heq⟩
  · exact absurd heq (field_lt_field ha hlt' hb).ne'

theorem field_lt_two_pow {n : ℕ} (ha : a < 2 ^ n) (hb : b < 2 ^ s) :
    a * 2 ^ s + b < 2 ^ (n + s) := by
  have hlt := field_lt_field (s := s) ha hb le_rfl
  rwa [add_zero, ← pow_add] at hlt

theorem field_nonneg (ha : 0 ≤ a) (hb : 0 ≤ b) : 0 ≤ a * 2 ^ s + b := by positivity

end

/-! ### Single bits -/

theorem eq_of_testBit_eq {a b : ℤ} (h : ∀ i, a.testBit i = b.testBit i) : a = b := by
  -- a negative number has its high bits set, the other has not
  have hmixed : ∀ m n : ℕ, ¬∀ i, m.testBit i = !n.testBit i := by
    intro m n h
    have hm : m < 2 ^ (m + n) := (m.le_add_right n).trans_lt Nat.lt_two_pow_self
    have hn : n < 2 ^ (m + n) := (n.le_add_left m).trans_lt Nat.lt_two_pow_self
    have hi := h (m + n)
    rw [Nat.testBit_lt_two_pow hm, Nat.testBit_lt_two_pow hn] at hi
    cases hi
  cases a with
  | ofNat m =>
    cases b with
    | ofNat n => exact congrArg Int.ofNat (Nat.eq_of_testBit_eq h)
    | negSucc n => exact absurd h (hmixed m n)
  | negSucc m =>
    cases b with
    | ofNat n => exact absurd (fun i => (h i).symm) (hmixed n m)
    | negSucc n =>
      exact congrArg Int.negSucc (Nat.eq_of_testBit_eq fun i => Bool.not_inj (h i))

/-- The integer whose only bit is at position `n`: `1 << n`. -/
def oneBit (n : ℕ) : ℤ := (1 : ℤ) <<< n

theorem testBit_oneBit (n i : ℕ) : (oneBit n).testBit i = decide (n = i) := by
  have hshift : oneBit n = ((2 ^ n : ℕ) : ℤ) := by
    rw [oneBit, Int.shiftLeft_eq, one_mul]
    push_cast
    rfl
  rw [hshift]
  exact Nat.testBit_two_pow

theorem land_oneBit_ne_zero (b : ℤ) (n : ℕ) : Int.land b (oneBit n) ≠ 0 ↔ b.testBit n = true := by
  have hland : ∀ i, (Int.land b (oneBit n)).testBit i = (b.testBit i && decide (n = i)) := by
    intro i
    rw [Int.testBit_land, testBit_oneBit]
  constructor
  · intro hne
    by_contra hbit
    refine hne (eq_of_testBit_eq fun i => ?_)
    rw [hland, show Int.testBit 0 i = false from Nat.zero_testBit i, Bool.and_eq_false_iff]
    by_cases hi : n = i
    · exact .inl (hi ▸ Bool.not_eq_true _ ▸ hbit)
    · exact .inr (decide_eq_false hi)
  · intro hbit hzero
    have hn := hland n
    rw [hzero, hbit, decide_eq_true rfl] at hn
    exact Bool.false_ne_true ((Nat.zero_testBit n).symm.trans hn)

/-- Or-ing single bits in, one after the other, **adds their positions**. -/
theorem testBit_foldl_lor (l : List ℕ) (b : ℤ) (i : ℕ) :
    (l.foldl (fun b n => Int.lor b (oneBit n)) b).testBit i = true ↔
      b.testBit i = true ∨ i ∈ l := by
  induction l generalizing b with
  | nil => simp
  | cons n l ih =>
    rw [List.foldl_cons, ih, Int.testBit_lor, testBit_oneBit, Bool.or_eq_true,
      decide_eq_true_eq, List.mem_cons, or_assoc, @eq_comm _ n]

end ServiceToolkit.BitFields
