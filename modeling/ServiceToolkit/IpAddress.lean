import Mathlib.Data.Nat.Digits.Defs
import ServiceToolkit.Runs
import ServiceToolkit.SegmentedPaths

/-!
# Internet Addresses and their Texts

An IPv4 address is four octets, and an IPv6 address eight groups of 16 bits and perhaps a scope.
This module has the texts that Python's `ipaddress` writes and the parser it reads them with.

The canonical text of an IPv6 address leaves out its longest run of zero groups, the first of
several, if it is at least two long, and writes `::` in its place. The last 32 bits of an address
that maps an IPv4 one are written as that one. The parser takes many more texts: capitals, leading
zeros, any single `::` that stands for at least one group, and an IPv4 text at the end.

The canonical text of an IPv4 address is read as that address (`parseV4_text`); what characters the
other texts have is in `V6.mem_ipText` and `mem_of_parseV4`.
-/

namespace ServiceToolkit.IpAddress

open Paths List Option

/-! ### Addresses -/

/-- An IPv4 address. -/
structure V4 where
  octets : List ℕ
  length_octets : octets.length = 4
  lt_of_mem : ∀ o ∈ octets, o < 256
  deriving DecidableEq

/-- A scope identifier. -/
abbrev Scope := { s : List Char // s ≠ [] ∧ '%' ∉ s ∧ '/' ∉ s }

/-- An IPv6 address. -/
structure V6 where
  groups : List ℕ
  length_groups : groups.length = 8
  lt_of_mem : ∀ g ∈ groups, g < 65536
  scope : Option Scope
  deriving DecidableEq

/-- An address. -/
inductive Address
  | v4 (a : V4)
  | v6 (a : V6)
  deriving DecidableEq

/-! ### Texts -/

/-- `IPv4Address.__str__`. -/
def V4.text (a : V4) : List Char := join '.' (a.octets.map (Nat.toDigits 10))

/-- The variables of the loop in `_compress_hextets`. -/
structure ZeroRuns where
  bestStart : ℕ
  bestLen : ℕ
  start : Option ℕ
  len : ℕ

/-- The body of the loop in `_compress_hextets`. -/
def ZeroRuns.visit (r : ZeroRuns) (hextet : List Char × ℕ) : ZeroRuns :=
  if hextet.1 = ['0'] then
    let start := r.start.getD hextet.2
    let r := { r with start := some start, len := r.len + 1 }
    if r.bestLen < r.len then { r with bestStart := start, bestLen := r.len } else r
  else { r with start := none, len := 0 }

/-- The loop in `_compress_hextets`. -/
def longestZeros (hextets : List (List Char)) : ZeroRuns :=
  hextets.zipIdx.foldl ZeroRuns.visit ⟨0, 0, none, 0⟩

/-- `_compress_hextets`: an empty part for the run of zeros, and one more at an end it reaches. -/
def compressHextets (hextets : List (List Char)) : List (List Char) :=
  let r := longestZeros hextets
  if 1 < r.bestLen then
    (if r.bestStart = 0 then [[]] else []) ++ hextets.take r.bestStart ++ [] ::
      (hextets.drop (r.bestStart + r.bestLen) ++
        if r.bestStart + r.bestLen = hextets.length then [[]] else [])
  else hextets

/-- `_string_from_ip_int`. -/
def groupsText (groups : List ℕ) : List Char :=
  join ':' (compressHextets (groups.map (Nat.toDigits 16)))

theorem flatMap_bytes_lt {l : List ℕ} (h : ∀ g ∈ l, g < 65536) :
    ∀ o ∈ l.flatMap fun g => [g / 256, g % 256], o < 256 := by
  intro o ho
  obtain ⟨g, hg, ho⟩ := mem_flatMap.mp ho
  have hlt := h g hg
  rw [mem_pair] at ho
  omega

/-- `ipv4_mapped`. -/
def V6.ipv4Mapped (a : V6) : Option V4 :=
  if a.groups.take 6 = [0, 0, 0, 0, 0, 65535] then
    some {
      octets := (a.groups.drop 6).flatMap fun g => [g / 256, g % 256]
      length_octets := by simp [List.length_flatMap, a.length_groups]
      lt_of_mem := flatMap_bytes_lt fun g hg => a.lt_of_mem g (List.mem_of_mem_drop hg) }
  else none

/-- The text of the groups of an address. -/
def V6.ipText (a : V6) : List Char :=
  match a.ipv4Mapped with
  | none => groupsText a.groups
  | some v4 => groupsText [0, 0, 0, 0, 0, 0, 0, 65535] ++ ':' :: v4.text

/-- `IPv6Address.__str__`. -/
def V6.text (a : V6) : List Char := a.ipText ++ a.scope.elim [] fun s => '%' :: s.1

/-- `str(address)`. -/
def Address.text : Address → List Char
  | .v4 a => a.text
  | .v6 a => a.text

/-! ### The parser -/

/-- `_parse_octet`. -/
def parseOctet (s : List Char) : Option ℕ :=
  if s ≠ [] ∧ s.all Char.isDigit ∧ s.length ≤ 3 ∧ (s = ['0'] ∨ s.head? ≠ some '0') ∧
      Nat.ofDigitChars 10 s 0 ≤ 255 then
    some (Nat.ofDigitChars 10 s 0)
  else none

def V4.ofOctets (octets : List ℕ) : Option V4 :=
  if h : octets.length = 4 ∧ ∀ o ∈ octets, o < 256 then some ⟨octets, h.1, h.2⟩ else none

/-- `IPv4Address(text)`. -/
def parseV4 (text : List Char) : Option V4 :=
  if '/' ∈ text then none else ((text.splitOn '.').mapM parseOctet).bind V4.ofOctets

/-- The value of a hexadecimal digit. -/
def hexDigit (c : Char) : Option ℕ :=
  if c.isDigit then some (c.toNat - '0'.toNat)
  else if 'a' ≤ c ∧ c ≤ 'f' then some (c.toNat - 'a'.toNat + 10)
  else if 'A' ≤ c ∧ c ≤ 'F' then some (c.toNat - 'A'.toNat + 10)
  else none

/-- The value of a text of hexadecimal digits. -/
def hexValue (s : List Char) : Option ℕ :=
  s.foldlM (fun n c => (hexDigit c).map fun d => n * 16 + d) 0

/-- `_parse_hextet`. -/
def parseHextet (s : List Char) : Option ℕ :=
  if s ≠ [] ∧ s.length ≤ 4 then hexValue s else none

/-- The two hextets of an IPv4 address. -/
def V4.hextets (a : V4) : List (List Char) :=
  match a.octets with
  | [o₁, o₂, o₃, o₄] => [Nat.toDigits 16 (o₁ * 256 + o₂), Nat.toDigits 16 (o₃ * 256 + o₄)]
  | _ => []

/-- An IPv4 text in the last part becomes two hextets. -/
def expandV4 (parts : List (List Char)) : Option (List (List Char)) :=
  match parts.getLast? with
  | some last =>
    if '.' ∈ last then (parseV4 last).map fun a => parts.dropLast ++ a.hextets else some parts
  | none => some parts

/-- The hextets before and after a `::`, with the zeros it stands for. -/
def fillZeros (hi lo : List (List Char)) : Option (List ℕ) :=
  if 8 ≤ hi.length + lo.length then none
  else do
    let hi ← hi.mapM parseHextet
    let lo ← lo.mapM parseHextet
    some (hi ++ List.replicate (8 - (hi.length + lo.length)) 0 ++ lo)

/-- The parts on one side of a `::`. If the part at the end of the text is empty, there must be no
other. -/
def besideSkip (endEmpty alone : Bool) (parts : List (List Char)) : Option (List (List Char)) :=
  if endEmpty then (if alone then some [] else none) else some parts

/-- `_ip_int_from_string`, after the text was split: an empty part between others is a `::`. -/
def parseParts (parts : List (List Char)) : Option (List ℕ) :=
  let inner := parts.tail.dropLast
  if 9 < parts.length then none
  else
    match inner.findIdx? List.isEmpty with
    | none => if parts.length = 8 then parts.mapM parseHextet else none
    | some i =>
      if (inner.drop (i + 1)).any List.isEmpty then none
      else do
        let hi ← besideSkip (parts.head? = some []) (i = 0) (parts.take (i + 1))
        let lo ← besideSkip (parts.getLast? = some []) (i + 3 = parts.length) (parts.drop (i + 2))
        fillZeros hi lo

/-- `_ip_int_from_string`. -/
def ipIntFromString (text : List Char) : Option (List ℕ) :=
  let parts := text.splitOn ':'
  if parts.length < 3 then none else (expandV4 parts).bind parseParts

/-- `_split_scope_id`. -/
def splitScopeId (text : List Char) : Option (List Char × Option (List Char)) :=
  match text.dropWhile (· ≠ '%') with
  | [] => some (text, none)
  | _ :: scope =>
    if scope = [] ∨ '%' ∈ scope then none else some (text.takeWhile (· ≠ '%'), some scope)

def V6.ofGroups (groups : List ℕ) (scope : Option (List Char)) : Option V6 :=
  if h : groups.length = 8 ∧ ∀ g ∈ groups, g < 65536 then
    match scope with
    | none => some ⟨groups, h.1, h.2, none⟩
    | some s =>
      if hs : s ≠ [] ∧ '%' ∉ s ∧ '/' ∉ s then some ⟨groups, h.1, h.2, some ⟨s, hs⟩⟩ else none
  else none

/-- `IPv6Address(text)`. -/
def parseV6 (text : List Char) : Option V6 :=
  if '/' ∈ text then none
  else do
    let (address, scope) ← splitScopeId text
    let groups ← ipIntFromString address
    V6.ofGroups groups scope

/-- `ip_address(text)`. -/
def ipAddress (text : List Char) : Option Address :=
  ((parseV4 text).map .v4).or ((parseV6 text).map .v6)

example : (ipAddress "2001:DB8::0:1".toList).map Address.text = some "2001:db8::1".toList := by
  decide +kernel

example : (ipAddress "::ffff:c000:280".toList).map Address.text =
    some "::ffff:192.0.2.128".toList := by
  decide +kernel

/-! ### Digits -/

variable {c : Char}

theorem mem_toDigits {b : ℕ} (hb : 1 < b) (n : ℕ) (h : c ∈ Nat.toDigits b n) :
    ∃ d < b, c = d.digitChar := by
  induction n using Nat.strong_induction_on with
  | _ n ih =>
    rw [Nat.toDigits_eq_if hb] at h
    split at h
    · next hlt => exact ⟨n, hlt, mem_singleton.mp h⟩
    · rename_i hle
      rcases mem_append.mp h with h | h
      · exact ih (n / b) (Nat.div_lt_self (by omega) hb) h
      · exact ⟨n % b, Nat.mod_lt n (by omega), mem_singleton.mp h⟩

theorem ne_digitChar (hc : c.isAlphanum = false) {d : ℕ} (hd : d < 16) : c ≠ d.digitChar := by
  have hdigits : ∀ d < 16, d.digitChar.isAlphanum = true := by decide
  rintro rfl
  rw [hdigits d hd] at hc
  cases hc

theorem parseOctet_toDigits : ∀ o < 256, parseOctet (Nat.toDigits 10 o) = some o := by
  decide +kernel

theorem mapM_map_eq_some {α β : Type*} {f : β → Option α} {g : α → β} {l : List α}
    (h : ∀ x ∈ l, f (g x) = some x) : (l.map g).mapM f = some l := by
  induction l with
  | nil => rfl
  | cons x l ih =>
    obtain ⟨hx, hl⟩ := forall_mem_cons.mp h
    rw [map_cons, mapM_cons, hx, ih hl]
    rfl

theorem isSome_of_mapM {α β : Type*} {f : α → Option β} {l : List α} {r : List β}
    (h : l.mapM f = some r) : ∀ x ∈ l, ∃ y, f x = some y := by
  induction l generalizing r with
  | nil => simp
  | cons x l ih =>
    rw [mapM_cons] at h
    obtain ⟨y, hy, h⟩ := bind_eq_some_iff.mp h
    obtain ⟨ys, hys, -⟩ := bind_eq_some_iff.mp h
    exact forall_mem_cons.mpr ⟨⟨y, hy⟩, ih hys⟩

/-! ### IPv4 -/

theorem V4.mem_text {a : V4} (h : c ∈ a.text) : c = '.' ∨ ∃ d < 10, c = d.digitChar := by
  rcases mem_join h with h | ⟨s, hs, hc⟩
  · exact .inl h
  · obtain ⟨o, -, rfl⟩ := mem_map.mp hs
    exact .inr (mem_toDigits (by omega) o hc)

theorem V4.notMem_text (a : V4) (hc : c.isAlphanum = false) (hdot : c ≠ '.') : c ∉ a.text := by
  intro h
  rcases V4.mem_text h with h | ⟨d, hd, h⟩
  · exact hdot h
  · exact ne_digitChar hc (by omega) h

theorem parseV4_text (a : V4) : parseV4 a.text = some a := by
  have hslash : '/' ∉ a.text := a.notMem_text rfl (by decide)
  have hdot : ∀ s ∈ a.octets.map (Nat.toDigits 10), '.' ∉ s := by
    intro s hs h
    obtain ⟨o, -, rfl⟩ := mem_map.mp hs
    obtain ⟨d, hd, h⟩ := mem_toDigits (by omega) o h
    exact ne_digitChar rfl (by omega) h
  have hne : a.octets.map (Nat.toDigits 10) ≠ [] := by
    rw [← length_pos_iff, length_map, a.length_octets]
    omega
  have hsplit : a.text.splitOn '.' = a.octets.map (Nat.toDigits 10) :=
    splitOn_intercalate '.' hdot hne
  rw [parseV4, if_neg hslash, hsplit,
    mapM_map_eq_some fun o ho => parseOctet_toDigits o (a.lt_of_mem o ho), bind_some,
    V4.ofOctets, dif_pos ⟨a.length_octets, a.lt_of_mem⟩]

variable {text : List Char}

theorem mem_of_parseV4 {a : V4} (h : parseV4 text = some a)
    (hc : c ∈ text) : c = '.' ∨ c.isDigit = true := by
  rw [parseV4] at h
  split at h
  · cases h
  · obtain ⟨octets, hoctets, -⟩ := bind_eq_some_iff.mp h
    rw [← join_splitOn '.' text] at hc
    rcases mem_join hc with hc | ⟨s, hs, hc⟩
    · exact .inl hc
    · obtain ⟨o, ho⟩ := isSome_of_mapM hoctets s hs
      rw [parseOctet] at ho
      split at ho
      · next hs => exact .inr (all_eq_true.mp hs.2.1 c hc)
      · cases ho

/-! ### Runs of zeros -/

/-- What the loop knows after `n` hextets: its best run is over by then, and the run it is in
ends there. -/
structure ZeroRuns.Within (n : ℕ) (r : ZeroRuns) : Prop where
  best : r.bestStart + r.bestLen ≤ n
  current : r.start.getD n + r.len = n

theorem ZeroRuns.Within.visit {n : ℕ} {r : ZeroRuns} {hextet : List Char} (h : r.Within n) :
    (r.visit (hextet, n)).Within (n + 1) := by
  obtain ⟨hbest, hcurrent⟩ := h
  rw [ZeroRuns.visit]
  split
  · dsimp only
    split
    · exact ⟨by dsimp only; omega, by simp only [getD_some]; omega⟩
    · exact ⟨by dsimp only; omega, by simp only [getD_some]; omega⟩
  · exact ⟨by dsimp only; omega, rfl⟩

variable {hextets : List (List Char)}

/-- The longest run of zeros lies in the list. -/
theorem longestZeros_le (hextets : List (List Char)) :
    (longestZeros hextets).bestStart + (longestZeros hextets).bestLen ≤ hextets.length := by
  have hwithin : (longestZeros hextets).Within hextets.zipIdx.length := by
    refine foldl_invariant (fun done r => ZeroRuns.Within done.length r) ?_ ?_
    · exact ⟨le_refl _, rfl⟩
    · rintro done ⟨hextet, i⟩ rest r hl h
      have hget : hextets.zipIdx[done.length]? = some (hextet, i) := by
        rw [hl, getElem?_append_right (le_refl _), Nat.sub_self]
        rfl
      rw [getElem?_zipIdx] at hget
      obtain ⟨x, hx, heq⟩ := map_eq_some_iff.mp hget
      obtain ⟨rfl, rfl⟩ := Prod.mk.inj heq
      rw [length_append, length_singleton, Nat.zero_add]
      exact h.visit
  rw [length_zipIdx] at hwithin
  exact hwithin.best

/-! ### IPv6 -/

variable {groups : List ℕ}

theorem mem_compressHextets {s : List Char}
    (h : s ∈ compressHextets hextets) : s = [] ∨ s ∈ hextets := by
  rw [compressHextets] at h
  split at h
  · rcases mem_append.mp h with h | h
    · rcases mem_append.mp h with h | h
      · split at h
        · exact .inl (mem_singleton.mp h)
        · cases h
      · exact .inr (mem_of_mem_take h)
    · rcases mem_cons.mp h with h | h
      · exact .inl h
      · rcases mem_append.mp h with h | h
        · exact .inr (mem_of_mem_drop h)
        · split at h
          · exact .inl (mem_singleton.mp h)
          · cases h
  · exact .inr h

theorem three_le_length_compress (h : hextets.length = 8) :
    3 ≤ (compressHextets hextets).length := by
  have hle := longestZeros_le hextets
  rw [compressHextets]
  split
  · split <;> split <;> simp <;> omega
  · omega

theorem sep_mem_join {α : Type*} {sep : α} {parts : List (List α)} (h : 2 ≤ parts.length) :
    sep ∈ join sep parts := by
  match parts, h with
  | s :: t :: rest, _ =>
    rw [join_cons sep s (cons_ne_nil t rest)]
    simp

theorem mem_hextets {s : List Char} (hs : s ∈ compressHextets (groups.map (Nat.toDigits 16)))
    {c : Char} (hc : c ∈ s) : ∃ d < 16, c = d.digitChar := by
  rcases mem_compressHextets hs with rfl | hs
  · cases hc
  · obtain ⟨g, -, rfl⟩ := mem_map.mp hs
    exact mem_toDigits (by omega) g hc

variable {a : V6}

theorem V6.mem_ipText (h : c ∈ a.ipText) : c = ':' ∨ c = '.' ∨ ∃ d < 16, c = d.digitChar := by
  have hgroups : ∀ {groups : List ℕ}, c ∈ groupsText groups →
      c = ':' ∨ ∃ d < 16, c = d.digitChar := by
    intro groups h
    rcases mem_join h with h | ⟨s, hs, hc⟩
    · exact .inl h
    · exact .inr (mem_hextets hs hc)
  rw [V6.ipText] at h
  split at h
  · exact (hgroups h).imp_right .inr
  · rcases mem_append.mp h with h | h
    · exact (hgroups h).imp_right .inr
    · rcases mem_cons.mp h with h | h
      · exact .inl h
      · refine .inr ((V4.mem_text h).imp_right ?_)
        rintro ⟨d, hd, hc⟩
        exact ⟨d, by omega, hc⟩

theorem V6.colon_mem_ipText (a : V6) : ':' ∈ a.ipText := by
  rw [V6.ipText]
  split
  · have hlength : (a.groups.map (Nat.toDigits 16)).length = 8 := by
      rw [length_map, a.length_groups]
    have hthree := three_le_length_compress hlength
    exact sep_mem_join (by omega)
  · simp

theorem splitScopeId_of_notMem (h : '%' ∉ text) : splitScopeId text = some (text, none) := by
  have hpercent : ∀ c ∈ text, decide (c ≠ '%') = true := by
    intro c hc
    exact decide_eq_true fun hne => h (hne ▸ hc)
  have hdrop : text.dropWhile (· ≠ '%') = [] := by
    rw [← append_nil text, dropWhile_append_of_pos hpercent]
    rfl
  rw [splitScopeId, hdrop]

/-! ### Texts that are no addresses -/

theorem parseV4_eq_none (hc : c ∈ text) (hdot : c ≠ '.')
    (hdigit : c.isDigit = false) : parseV4 text = none := by
  refine eq_none_iff_forall_ne_some.mpr fun a h => ?_
  rcases mem_of_parseV4 h hc with h | h
  · exact hdot h
  · rw [hdigit] at h
    cases h

theorem parseV6_eq_none (hscope : '%' ∉ text)
    (hparts : (text.splitOn ':').length < 3) : parseV6 text = none := by
  rw [parseV6]
  split
  · rfl
  · simp only [splitScopeId_of_notMem hscope, bind_eq_bind, bind_some,
      ipIntFromString, if_pos hparts, bind_none]

end ServiceToolkit.IpAddress
