import ServiceToolkit.Words

/-!
# The Text of a URI

How a URI with an authority is taken apart, and percent-encoding. The **authority** ends at the
first slash, question mark or hash after the two slashes, its **userinfo** at the last at sign,
the user at the first colon of the userinfo, and the host at the last colon of the rest. A
component is read by percent-decoding, which gives octets: those of an escape, and the UTF-8 of
every other character.

Decoding never gives more octets than the text has, and fewer as soon as there is an escape
(`length_percentDecode`); so a component that was cut short, or whose text has an escape that was
not meant as one, cannot be read back.
-/

namespace ServiceToolkit.Uri

open List Words

/-! ### Percent-encoding -/

/-- The octets of a text, in UTF-8. -/
def utf8 (s : List Char) : List UInt8 := s.flatMap String.utf8EncodeChar

@[simp] theorem utf8_append (s t : List Char) : utf8 (s ++ t) = utf8 s ++ utf8 t :=
  flatMap_append

@[simp] theorem utf8_cons (c : Char) (s : List Char) :
    utf8 (c :: s) = String.utf8EncodeChar c ++ utf8 s := rfl

theorem one_le_length_utf8EncodeChar (c : Char) : 1 ≤ (String.utf8EncodeChar c).length := by
  rw [String.length_utf8EncodeChar]
  exact c.utf8Size_pos

theorem utf8_eq_nil {s : List Char} (h : (utf8 s).length = 0) : s = [] := by
  cases s with
  | nil => rfl
  | cons c s =>
    have := one_le_length_utf8EncodeChar c
    rw [utf8_cons, length_append] at h
    omega

/-- The value of a hexadecimal digit. -/
def hexDigit? (c : Char) : Option ℕ :=
  if '0' ≤ c ∧ c ≤ '9' then some (c.toNat - 48)
  else if 'a' ≤ c ∧ c ≤ 'f' then some (c.toNat - 87)
  else if 'A' ≤ c ∧ c ≤ 'F' then some (c.toNat - 55)
  else none

/-- The octet of an escape. -/
def escaped (a b : Char) : Option UInt8 :=
  match hexDigit? a, hexDigit? b with
  | some x, some y => some (.ofNat (16 * x + y))
  | _, _ => none

/-- **Percent-decoding**. A percent sign without two hexadecimal digits stands for itself. -/
def percentDecode : List Char → List UInt8
  | [] => []
  | '%' :: a :: b :: rest =>
    match escaped a b with
    | some octet => octet :: percentDecode rest
    | none => String.utf8EncodeChar '%' ++ percentDecode (a :: b :: rest)
  | c :: rest => String.utf8EncodeChar c ++ percentDecode rest

/-- A percent sign with two hexadecimal digits is somewhere in the text. -/
def hasEscape : List Char → Bool
  | [] => false
  | '%' :: a :: b :: rest => (escaped a b).isSome || hasEscape (a :: b :: rest)
  | _ :: rest => hasEscape rest

theorem percentDecode_of_not_hasEscape (s : List Char) (h : hasEscape s = false) :
    percentDecode s = utf8 s := by
  fun_induction percentDecode s with
  | case1 => rfl
  | case2 a b rest octet hoctet ih => simp [hasEscape, hoctet] at h
  | case3 a b rest hnone ih =>
    rw [hasEscape, hnone] at h
    exact congrArg _ (ih (by simpa using h))
  | case4 c rest hc ih =>
    rw [ih (by simpa [hasEscape] using h), utf8_cons]

theorem length_percentDecode (s : List Char) :
    (percentDecode s).length + (if hasEscape s then 1 else 0) ≤ (utf8 s).length := by
  fun_induction percentDecode s with
  | case1 => simp [hasEscape, utf8]
  | case2 a b rest octet hoctet ih =>
    have ha := one_le_length_utf8EncodeChar a
    have hb := one_le_length_utf8EncodeChar b
    have hp := one_le_length_utf8EncodeChar '%'
    simp only [hasEscape, hoctet, Option.isSome_some, Bool.true_or, if_true, length_cons,
      utf8_cons, length_append]
    omega
  | case3 a b rest hnone ih =>
    simp only [hasEscape, hnone, Option.isSome_none, Bool.false_or, length_append]
    rw [utf8_cons, length_append]
    omega
  | case4 c rest hc ih =>
    simp only [hasEscape, utf8_cons, length_append]
    omega

theorem percentDecode_eq_utf8_iff (s : List Char) :
    percentDecode s = utf8 s ↔ hasEscape s = false := by
  refine ⟨fun h => ?_, percentDecode_of_not_hasEscape s⟩
  have hlength := length_percentDecode s
  rw [h] at hlength
  split at hlength
  · omega
  · rename_i hno
    exact Bool.eq_false_iff.mpr hno

theorem hasEscape_of_notMem {s : List Char} (h : '%' ∉ s) : hasEscape s = false := by
  fun_induction hasEscape s with
  | case1 => rfl
  | case2 a b rest ih => exact absurd mem_cons_self h
  | case3 c rest hc ih => exact ih fun hmem => h (mem_cons_of_mem c hmem)

/-- A digit of an escape, as it is written. -/
def hexUpper (n : ℕ) : Char := Char.ofNat (if n < 10 then 48 + n else 55 + n)

/-- The octets `urllib.parse.quote` leaves as they are: letters, digits, four marks, and the
slash. -/
def isSafe (octet : UInt8) : Bool :=
  let c := Char.ofNat octet.toNat
  octet < 128 && (c.isAlphanum || c ∈ ['_', '.', '-', '~', '/'])

/-- An octet, as it is written. -/
def quoteOctet (octet : UInt8) : List Char :=
  if isSafe octet then [Char.ofNat octet.toNat]
  else ['%', hexUpper (octet.toNat / 16), hexUpper (octet.toNat % 16)]

/-- `urllib.parse.quote`. -/
def quote (s : List Char) : List Char := (utf8 s).flatMap quoteOctet

/-- What holds of every octet can be checked one by one. -/
theorem forall_octet {P : UInt8 → Prop} (h : ∀ n < 256, P (.ofNat n)) (octet : UInt8) :
    P octet := by
  have := h octet.toNat octet.toNat_lt
  rwa [UInt8.ofNat_toNat] at this

theorem quoteOctet_spec (octet : UInt8) :
    (if isSafe octet then Char.ofNat octet.toNat ≠ '%' ∧
        String.utf8EncodeChar (Char.ofNat octet.toNat) = [octet]
      else escaped (hexUpper (octet.toNat / 16)) (hexUpper (octet.toNat % 16)) = some octet) ∧
    (quoteOctet octet).all fun c => c ∉ [':', '@', '?', '#'] ∧ (c = '/' → octet = 47) := by
  revert octet
  exact forall_octet (by decide +kernel)

theorem of_mem_quoteOctet {octet : UInt8} {c : Char} (h : c ∈ quoteOctet octet) :
    c ∉ [':', '@', '?', '#'] ∧ (c = '/' → octet = 47) :=
  of_decide_eq_true (all_eq_true.mp (quoteOctet_spec octet).2 c h)

theorem percentDecode_quoteOctet (octet : UInt8) (rest : List Char) :
    percentDecode (quoteOctet octet ++ rest) = octet :: percentDecode rest := by
  have hspec := (quoteOctet_spec octet).1
  rw [quoteOctet]
  split
  · rename_i hsafe
    rw [if_pos hsafe] at hspec
    rw [singleton_append, percentDecode, hspec.2]
    · rfl
    · exact fun _ _ _ h => absurd h hspec.1
  · rename_i hsafe
    rw [if_neg hsafe] at hspec
    simp only [cons_append, nil_append, percentDecode, hspec]

/-- **What was quoted is decoded**. -/
theorem percentDecode_quote (s : List Char) : percentDecode (quote s) = utf8 s := by
  rw [quote]
  induction utf8 s with
  | nil => rfl
  | cons octet octets ih => rw [flatMap_cons, percentDecode_quoteOctet, ih]

theorem eq_slash_of_mem {c : Char} (h : (47 : UInt8) ∈ String.utf8EncodeChar c) : c = '/' := by
  have hnat : 47 ∈ (String.utf8EncodeChar c).map UInt8.toNat := mem_map_of_mem h
  rw [String.utf8EncodeChar] at hnat
  have hval : c.val.toNat = 47 := by
    have hv : c.val.toNat = c.toNat := rfl
    split_ifs at hnat <;> simp at hnat <;> omega
  exact Char.ext (UInt32.toNat_inj.mp hval)

theorem slash_mem_quote_iff (s : List Char) : '/' ∈ quote s ↔ '/' ∈ s := by
  rw [quote, mem_flatMap]
  constructor
  · rintro ⟨octet, hoctet, hslash⟩
    obtain ⟨c, hc, hmem⟩ := mem_flatMap.mp hoctet
    rw [(of_mem_quoteOctet hslash).2 rfl] at hmem
    exact eq_slash_of_mem hmem ▸ hc
  · intro h
    exact ⟨47, mem_flatMap.mpr ⟨'/', h, by decide⟩, by decide⟩

theorem notMem_quote {s : List Char} {c : Char} (h : c ∈ quote s) : c ∉ [':', '@', '?', '#'] := by
  obtain ⟨octet, -, hc⟩ := mem_flatMap.mp h
  exact (of_mem_quoteOctet hc).1

/-! ### Taking a URI apart -/

/-- The text before the first `a` and the text after it. -/
def atFirst (a : Char) (s : List Char) : List Char × List Char :=
  (s.takeWhile (· != a), (s.dropWhile (· != a)).drop 1)

/-- The text before the last `a` and the text after it. -/
def atLast (a : Char) (s : List Char) : List Char × List Char :=
  ((s.rdropWhile (· != a)).dropLast, s.rtakeWhile (· != a))

variable {a : Char} {s t : List Char}

theorem bne_of_notMem (h : a ∉ s) : ∀ c ∈ s, (c != a) = true :=
  fun _ hc => bne_iff_ne.mpr (ne_of_mem_of_not_mem hc h)

theorem atFirst_append (h : a ∉ s) (t : List Char) : atFirst a (s ++ a :: t) = (s, t) := by
  rw [atFirst, takeWhile_append_of_pos (bne_of_notMem h), dropWhile_append_of_pos (bne_of_notMem h)]
  simp

theorem atLast_append (s : List Char) (h : a ∉ t) : atLast a (s ++ a :: t) = (s, t) := by
  have ht := bne_of_notMem (mt mem_reverse.mp h)
  rw [atLast, rdropWhile, rtakeWhile, reverse_append, reverse_cons, append_assoc,
    takeWhile_append_of_pos ht, dropWhile_append_of_pos ht]
  simp

theorem atLast_of_notMem (h : a ∉ s) : atLast a s = ([], s) := by
  have hs := bne_of_notMem (mt mem_reverse.mp h)
  rw [atLast, rdropWhile, rtakeWhile, dropWhile_eq_nil_iff.mpr hs, takeWhile_eq_self_iff.mpr hs,
    reverse_reverse]
  rfl

theorem length_atFirst (a : Char) (s : List Char) :
    (utf8 (atFirst a s).1).length + (utf8 (atFirst a s).2).length ≤ (utf8 s).length := by
  by_cases h : a ∈ s
  · obtain ⟨x, y, rfl, hx⟩ := eq_append_cons_of_mem h
    simp [atFirst_append hx]
  · rw [atFirst, dropWhile_eq_nil_iff.mpr (bne_of_notMem h),
      takeWhile_eq_self_iff.mpr (bne_of_notMem h)]
    exact Nat.le_refl _

theorem length_atLast (a : Char) (s : List Char) :
    (atLast a s).1 = [] ∨ (utf8 (atLast a s).1).length < (utf8 s).length := by
  by_cases h : a ∈ s
  · obtain ⟨x, y, heq, hx⟩ := eq_append_cons_of_mem (mem_reverse.mpr h)
    obtain rfl : s = y.reverse ++ a :: x.reverse := by
      rw [← reverse_reverse s, heq]
      simp
    have hpos := one_le_length_utf8EncodeChar a
    rw [atLast_append _ (by simpa using hx)]
    simp only [utf8_append, utf8_cons, length_append]
    omega
  · exact .inl (congrArg Prod.fst (atLast_of_notMem h))

theorem length_takeWhile {p : Char → Bool} (h : ∃ c ∈ s, p c = false) :
    (utf8 (s.takeWhile p)).length < (utf8 s).length := by
  have happend : s.takeWhile p ++ s.dropWhile p = s := takeWhile_append_dropWhile
  cases hrest : s.dropWhile p with
  | nil =>
    obtain ⟨c, hc, hp⟩ := h
    rw [dropWhile_eq_nil_iff.mp hrest c hc] at hp
    cases hp
  | cons c rest =>
    have hpos := one_le_length_utf8EncodeChar c
    have hlength := congrArg (fun u => (utf8 u).length) happend
    simp only [hrest, utf8_append, utf8_cons, length_append] at hlength
    omega

theorem takeWhile_append_of_exists {p : Char → Bool} (h : ∃ c ∈ s, p c = false) (t : List Char) :
    (s ++ t).takeWhile p = s.takeWhile p := by
  obtain ⟨c, hc, hp⟩ := h
  induction s with
  | nil => cases hc
  | cons b s ih =>
    rw [cons_append, takeWhile_cons, takeWhile_cons]
    split
    · rename_i hb
      rcases mem_cons.mp hc with rfl | hc
      · rw [hb] at hp
        cases hp
      · rw [ih hc]
    · rfl

/-- An authority, taken apart. -/
structure Authority where
  user : List Char
  password : List Char
  host : List Char
  port : List Char
  deriving DecidableEq

/-- The userinfo ends at the last at sign; what follows is a host, with a port behind its last
colon. -/
def splitAuthority (authority : List Char) : Authority :=
  let userinfo := (atLast '@' authority).1
  let hostport := (atLast '@' authority).2
  { user := (atFirst ':' userinfo).1
    password := (atFirst ':' userinfo).2
    host := if ':' ∈ hostport then (atLast ':' hostport).1 else hostport
    port := if ':' ∈ hostport then (atLast ':' hostport).2 else [] }

/-- What goes on in an authority. -/
def isPlain (c : Char) : Bool := c ≠ '/' && c ≠ '?' && c ≠ '#'

/-- A URI with an authority and a path. -/
def build (scheme authority path : List Char) : List Char :=
  scheme ++ ':' :: '/' :: '/' :: (authority ++ '/' :: path)

/-- A URI's authority, and its path without the leading slash. -/
def split (url : List Char) : Authority × List Char :=
  let rest := (url.dropWhile (· != '/')).drop 2
  (splitAuthority (rest.takeWhile isPlain),
    ((rest.dropWhile isPlain).takeWhile fun c => c ≠ '?' && c ≠ '#').drop 1)

variable {scheme host port authority : List Char}

theorem splitAuthority_host (hhost : '@' ∉ host) (hport : '@' ∉ port ∧ ':' ∉ port) :
    splitAuthority (host ++ ':' :: port) = ⟨[], [], host, port⟩ := by
  have hat : '@' ∉ host ++ ':' :: port := by simp [hhost, hport.1]
  simp [splitAuthority, atLast_of_notMem hat, atLast_append host hport.2, atFirst]

theorem splitAuthority_userinfo (userinfo : List Char) (hhost : '@' ∉ host)
    (hport : '@' ∉ port ∧ ':' ∉ port) :
    splitAuthority (userinfo ++ '@' :: (host ++ ':' :: port)) =
      ⟨(atFirst ':' userinfo).1, (atFirst ':' userinfo).2, host, port⟩ := by
  have hat : '@' ∉ host ++ ':' :: port := by simp [hhost, hport.1]
  simp [splitAuthority, atLast_append userinfo hat, atLast_append host hport.2]

theorem drop_build (hscheme : '/' ∉ scheme) (authority path : List Char) :
    ((build scheme authority path).dropWhile (· != '/')).drop 2 = authority ++ '/' :: path := by
  rw [build, dropWhile_append_of_pos (bne_of_notMem hscheme)]
  rfl

theorem split_of_plain (hscheme : '/' ∉ scheme) (h : ∀ c ∈ authority, isPlain c = true)
    (path : List Char) : split (build scheme authority path) =
      (splitAuthority authority, path.takeWhile fun c => c ≠ '?' && c ≠ '#') := by
  rw [split, drop_build hscheme]
  simp [takeWhile_append_of_pos h, dropWhile_append_of_pos h, isPlain]

theorem split_of_cut (hscheme : '/' ∉ scheme) (h : ∃ c ∈ s, isPlain c = false)
    (rest path : List Char) : (split (build scheme (s ++ rest) path)).1 =
      splitAuthority (s.takeWhile isPlain) := by
  rw [split, drop_build hscheme, append_assoc, takeWhile_append_of_exists h]

end ServiceToolkit.Uri
