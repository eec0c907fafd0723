import ServiceToolkit.BitFields
import ServiceToolkit.Dict
import ServiceToolkit.StableSort

/-!
# Permission Bitsets

A set of permission codes travels as one integer: a mapping gives every code a bit position
(`security/rbac.py`), and a bot that acts for a human holds the permissions of both
(`web/actor.py`). Integers are of any size and either sign, in two's complement of unbounded width;
two codes may share a position, a code may be unknown, and a bit may belong to no code.

Every function is said by the bits it reads or sets (`testBit_bitsFromCodes`,
`mem_codesFromBits`), and the round trips follow from that.
-/

namespace ServiceToolkit.Rbac

open List BitFields StableSort

/-- The bit positions of the codes. -/
abbrev Mapping := Dict String ℕ

/-- The bitset of the codes; unknown codes are ignored. -/
def bitsFromCodes (codes : List String) (mapping : Mapping) : ℤ :=
  codes.foldl (fun bits code =>
    match mapping.get? code with
    | none => bits
    | some bit => Int.lor bits (oneBit bit)) 0

/-- The codes present in the bitset, sorted by their bit. -/
def codesFromBits (bits : ℤ) (mapping : Mapping) : List String :=
  let selected := mapping.entries.filter fun e => Int.land bits (oneBit e.2) ≠ 0
  (sortOn Prod.snd false selected).map Prod.fst

/-- The bitset contains the code. -/
def hasCode (bits : ℤ) (mapping : Mapping) (code : String) : Bool :=
  match mapping.get? code with
  | none => false
  | some bit => Int.land bits (oneBit bit) ≠ 0

/-- All bits used by the mapping. -/
def allBits (mapping : Mapping) : ℤ :=
  (mapping.entries.map Prod.snd).foldl (fun bits bit => Int.lor bits (oneBit bit)) 0

/-- The scopes of the bot that the human has too, in the bot's order. -/
def intersectScopes (botScopes humanScopes : List String) : List String :=
  botScopes.filter fun scope => humanScopes.contains scope

/-- The permissions of the bot that the human has too. -/
def intersectPermsBits (botBits humanBits : ℤ) : ℤ := Int.land botBits humanBits

/-- No two codes share a position. -/
def Mapping.Injective (mapping : Mapping) : Prop :=
  ∀ code code' bit, mapping.get? code = some bit → mapping.get? code' = some bit → code = code'

/-- The bits of the codes strictly increase along the list. -/
def Mapping.InBitOrder (mapping : Mapping) (codes : List String) : Prop :=
  codes.Pairwise fun code code' => ∀ bit bit', mapping.get? code = some bit →
    mapping.get? code' = some bit' → bit < bit'

/-! ### What each function reads and sets -/

variable {mapping : Mapping} {bits : ℤ} {code : String} {bit : ℕ}

theorem testBit_bitsFromCodes {codes : List String} :
    (bitsFromCodes codes mapping).testBit bit = true ↔
      ∃ code ∈ codes, mapping.get? code = some bit := by
  have hfold : bitsFromCodes codes mapping =
      (codes.filterMap mapping.get?).foldl (fun bits bit => Int.lor bits (oneBit bit)) 0 := by
    rw [foldl_filterMap]
    unfold bitsFromCodes
    congr 1
    funext bits code
    cases mapping.get? code <;> rfl
  rw [hfold, testBit_foldl_lor, mem_filterMap]
  simp [Int.testBit]

theorem testBit_allBits :
    (allBits mapping).testBit bit = true ↔ ∃ code, mapping.get? code = some bit := by
  rw [allBits, testBit_foldl_lor, mem_map]
  simp [Int.testBit, Dict.mem_entries_iff]

theorem hasCode_iff :
    hasCode bits mapping code = true ↔
      ∃ bit, mapping.get? code = some bit ∧ bits.testBit bit = true := by
  unfold hasCode
  cases mapping.get? code with
  | none => simp
  | some bit => simp [land_oneBit_ne_zero]

theorem mem_codesFromBits :
    code ∈ codesFromBits bits mapping ↔ hasCode bits mapping code = true := by
  rw [hasCode_iff, codesFromBits, mem_map]
  simp [(sortOn_perm _ _ _).mem_iff, land_oneBit_ne_zero, Dict.mem_entries_iff]

theorem nodup_codesFromBits (bits : ℤ) (mapping : Mapping) :
    (codesFromBits bits mapping).Nodup := by
  refine ((sortOn_perm _ _ _).map Prod.fst).nodup_iff.mpr ?_
  exact mapping.nodup.sublist (filter_sublist.map Prod.fst)

theorem inBitOrder_codesFromBits (hinj : mapping.Injective) (bits : ℤ) :
    mapping.InBitOrder (codesFromBits bits mapping) := by
  have hdistinct := pairwise_map.mp (nodup_codesFromBits bits mapping)
  refine pairwise_map.mpr (((pairwise_sortOn _ _ _).and hdistinct).imp_of_mem ?_)
  intro e e' he he' hee' bit bit' hbit hbit'
  have hentry : ∀ e ∈ sortOn Prod.snd false (mapping.entries.filter fun e =>
      Int.land bits (oneBit e.2) ≠ 0), mapping.get? e.1 = some e.2 := by
    intro e he
    exact Dict.mem_entries_iff.mp (mem_of_mem_filter ((sortOn_perm _ _ _).mem_iff.mp he))
  obtain rfl : e.2 = bit := Option.some.inj ((hentry e he).symm.trans hbit)
  obtain rfl : e'.2 = bit' := Option.some.inj ((hentry e' he').symm.trans hbit')
  refine lt_of_le_of_ne hee'.1 fun heq => hee'.2 (hinj _ _ _ hbit ?_)
  rw [heq]
  exact hbit'

/-- The bot gains no scope and keeps its order; the human only narrows. -/
theorem intersectScopes_narrows (botScopes humanScopes : List String) :
    (intersectScopes botScopes humanScopes).Sublist botScopes ∧
      ∀ scope, scope ∈ intersectScopes botScopes humanScopes ↔
        scope ∈ botScopes ∧ scope ∈ humanScopes := by
  refine ⟨filter_sublist, fun scope => ?_⟩
  simp [intersectScopes]

/-! ### Round trips -/

/-- **Permission bitsets are a faithful encoding**: decoding and encoding again keeps the bits of
the mapping; without shared positions, encoding and decoding lists the known codes once each in bit
order, and `hasCode` says which; and an intersection has the codes of both sides. -/
theorem permission_bitsets_faithful (mapping : Mapping) :
    (∀ b, bitsFromCodes (codesFromBits b mapping) mapping = Int.land b (allBits mapping)) ∧
    (mapping.Injective → ∀ cs,
      (∀ code, code ∈ codesFromBits (bitsFromCodes cs mapping) mapping ↔
        code ∈ cs ∧ code ∈ mapping.keys) ∧
      (codesFromBits (bitsFromCodes cs mapping) mapping).Nodup ∧
      mapping.InBitOrder (codesFromBits (bitsFromCodes cs mapping) mapping) ∧
      ∀ code, hasCode (bitsFromCodes cs mapping) mapping code = true ↔
        code ∈ cs ∧ code ∈ mapping.keys) ∧
    ∀ b₁ b₂ code, code ∈ codesFromBits (intersectPermsBits b₁ b₂) mapping ↔
      code ∈ codesFromBits b₁ mapping ∧ code ∈ codesFromBits b₂ mapping := by
  refine ⟨fun b => ?_, fun hinj cs => ?_, fun b₁ b₂ code => ?_⟩
  · refine eq_of_testBit_eq fun bit => Bool.eq_iff_iff.mpr ?_
    simp only [testBit_bitsFromCodes, mem_codesFromBits, hasCode_iff, Int.testBit_land,
      Bool.and_eq_true, testBit_allBits]
    constructor
    · rintro ⟨code, ⟨bit', hbit', hset⟩, hbit⟩
      obtain rfl : bit' = bit := Option.some.inj (hbit'.symm.trans hbit)
      exact ⟨hset, code, hbit⟩
    · rintro ⟨hset, code, hbit⟩
      exact ⟨code, ⟨bit, hbit, hset⟩, hbit⟩
  · have hhas : ∀ code, hasCode (bitsFromCodes cs mapping) mapping code = true ↔
        code ∈ cs ∧ code ∈ mapping.keys := by
      intro code
      simp only [hasCode_iff, testBit_bitsFromCodes, Dict.mem_keys_iff, Option.isSome_iff_exists]
      constructor
      · rintro ⟨bit, hbit, code', hmem, hbit'⟩
        obtain rfl := hinj code code' bit hbit hbit'
        exact ⟨hmem, bit, hbit⟩
      · rintro ⟨hmem, bit, hbit⟩
        exact ⟨bit, hbit, code, hmem, hbit⟩
    exact ⟨fun code => mem_codesFromBits.trans (hhas code), nodup_codesFromBits _ _,
      inBitOrder_codesFromBits hinj _, hhas⟩
  · simp only [mem_codesFromBits, hasCode_iff, intersectPermsBits, Int.testBit_land,
      Bool.and_eq_true]
    constructor
    · rintro ⟨bit, hbit, h₁, h₂⟩
      exact ⟨⟨bit, hbit, h₁⟩, bit, hbit, h₂⟩
    · rintro ⟨⟨bit, hbit, h₁⟩, bit', hbit', h₂⟩
      obtain rfl : bit = bit' := Option.some.inj (hbit.symm.trans hbit')
      exact ⟨bit, hbit, h₁, h₂⟩

end ServiceToolkit.Rbac
