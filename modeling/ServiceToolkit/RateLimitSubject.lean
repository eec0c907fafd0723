import ServiceToolkit.RequestIp
import ServiceToolkit.Words

/-!
# Keys of the Rate Limit

A request is counted under a key that is made of the address of its client. The address is
**normalised** as any other subject: lower case, one colon for every run of characters outside
`a-z0-9:_-`, one colon for every run of colons, none at the ends, and `unknown` if nothing is left.

In the text of an address a colon says more than that: a double colon stands for zeros, and a dot is
another separator than a colon. What is left of an address is the list of its words
(`addressWords`), and two clients are counted apart exactly if they show different words
(`keys_apart_iff`). IPv4 addresses do; `::1` and `1::` do not, and `::` is counted with the requests
that have no address.

The digest of a subject, `blake2b`, is a parameter. That a digest does not collide on the two
subjects that are compared is a hypothesis.
-/

namespace ServiceToolkit.RateLimitSubject

open Text IpAddress RequestIp Paths Words List Option

open CacheKeys (stripChars)

/-! ### Normal forms -/

/-- The Unicode tables, with what the lower case of addresses needs: ASCII texts without capitals
stay, and a percent sign keeps what is before it from what is behind. -/
structure CaseTables extends Unicode where
  lower_ascii : ∀ s, (∀ c ∈ s, c.toNat < 128 ∧ c.isUpper = false) → lower s = s
  lower_percent : ∀ s t, lower (s ++ '%' :: t) = lower s ++ '%' :: lower t

/-- `_FALLBACK_SUBJECT`. -/
def fallbackSubject : List Char := ['u', 'n', 'k', 'n', 'o', 'w', 'n']

/-- A character of the class `[^a-z0-9:_-]`. -/
def isOutside (c : Char) : Bool :=
  !(c.isLower || c.isDigit || c == ':' || c == '_' || c == '-')

/-- The normal form of a bucket or a subject. A run of two colons or more becomes one, and one stays
one. -/
def normalizePart (U : Unicode) (part : List Char) : List Char :=
  let normalized := subRuns isOutside ':' false (U.lower (strip part))
  let normalized := stripChars [':'] (subRuns (· == ':') ':' false normalized)
  if normalized = [] then fallbackSubject else normalized

/-- `_normalize_bucket`. -/
def normalizeBucket (U : Unicode) (bucket : List Char) : List Char := normalizePart U bucket

/-- `_normalize_subject`. -/
def normalizeSubject (U : Unicode) (subject : List Char) : List Char := normalizePart U subject

/-! ### Keys -/

/-- The secret of a digest. -/
inductive Secret
  | text (s : List Char)
  | bytes (b : ByteArray)
  | absent

/-- `str.encode("utf-8")`. -/
def encode (s : List Char) : ByteArray := (String.ofList s).toByteArray

def Secret.toBytes : Secret → ByteArray
  | text s => encode s
  | bytes b => b
  | absent => .empty

/-- The hexadecimal text of `blake2b` with a key, of at most 64 bytes, and a digest of 16. -/
abbrev Digest := (key data : ByteArray) → List Char

/-- `_hash_subject`; `none` for the `ValueError` of `blake2b` on a longer key. -/
def hashSubject (blake2b : Digest) (subject : List Char) (secret : Secret) : Option (List Char) :=
  if secret.toBytes.size ≤ 64 then some (blake2b secret.toBytes (encode subject)) else none

/-- `_default_subject_resolver`. -/
def defaultSubjectResolver (request : Request) : List Char :=
  (resolveClientIp request true).getD fallbackSubject

/-- The arguments of `enforce_request_rate_limit` that make the key. -/
structure KeyOptions where
  bucket : List Char
  subject : Option (List Char) := none
  subjectResolver : Option (Request → List Char) := none
  hashSubject : Bool := true
  hashSecret : Secret := .absent
  keyPrefix : List Char := ['r', 'l']

/-- The subject of a request. -/
def KeyOptions.resolvedSubject (o : KeyOptions) (request : Request) : List Char :=
  o.subject.getD ((o.subjectResolver.getD defaultSubjectResolver) request)

/-- The key of a request, if it comes to one. -/
def KeyOptions.key (o : KeyOptions) (U : Unicode) (blake2b : Digest) (request : Request) :
    Option (List Char) :=
  let subjectKey := normalizeSubject U (o.resolvedSubject request)
  let subjectKey :=
    if o.hashSubject then RateLimitSubject.hashSubject blake2b subjectKey o.hashSecret
    else some subjectKey
  subjectKey.map fun subjectKey =>
    o.keyPrefix ++ ':' :: (normalizeBucket U o.bucket ++ ':' :: subjectKey)

/-- Every call with the options is refused: the secret is too long for the digest. -/
def KeyOptions.Refused (o : KeyOptions) : Prop :=
  o.hashSubject = true ∧ 64 < o.hashSecret.toBytes.size

/-- The digest does not collide on two subjects, where the subject is hashed. -/
def KeyOptions.Separates (o : KeyOptions) (blake2b : Digest) (subject₁ subject₂ : List Char) :
    Prop :=
  o.hashSubject = true → subject₁ ≠ subject₂ →
    blake2b o.hashSecret.toBytes (encode subject₁) ≠ blake2b o.hashSecret.toBytes (encode subject₂)

/-- The same options, with the subject left to the client's address. -/
def KeyOptions.byAddress (o : KeyOptions) : KeyOptions :=
  { o with subject := none, subjectResolver := none }

/-! ### What is left of an address -/

/-- What separates words in a normal form. -/
def isBreak (c : Char) : Bool := isOutside c || c == ':'

/-- The groups an IPv6 text shows: all but the longest run of zeros. -/
def keptGroups (groups : List ℕ) : List ℕ :=
  let r := longestZeros (groups.map (Nat.toDigits 16))
  if 1 < r.bestLen then groups.take r.bestStart ++ groups.drop (r.bestStart + r.bestLen)
  else groups

/-- The words of an IPv4 address. -/
def v4Words (a : V4) : List (List Char) := a.octets.map (Nat.toDigits 10)

/-- The words of an IPv6 address, without its scope. -/
def v6Words (a : V6) : List (List Char) :=
  match a.ipv4Mapped with
  | none => (keptGroups a.groups).map (Nat.toDigits 16)
  | some v4 => ['f', 'f', 'f', 'f'] :: v4Words v4

/-- The words of a scope. -/
def scopeWords (U : Unicode) (scope : Option Scope) : List (List Char) :=
  scope.elim [] fun s => words isBreak (U.lower (s.1.rdropWhile isSpace))

/-- **The words of an address.** -/
def addressWords (U : Unicode) : Address → List (List Char)
  | .v4 a => v4Words a
  | .v6 a => v6Words a ++ scopeWords U a.scope

/-- **What a client shows**: the words of its address, or `unknown`. -/
def shown (U : Unicode) (client : Option Address) : List (List Char) :=
  let shownWords := client.elim [] (addressWords U)
  if shownWords = [] then [fallbackSubject] else shownWords

/-! ### Plain tables -/

/-- The tables restricted to ASCII. -/
def CaseTables.ascii : CaseTables where
  toUnicode := Unicode.ascii
  lower_ascii s h := by
    refine (List.map_congr_left fun c hc => ?_).trans (List.map_id s)
    exact Char.toLower_eq_of_not_isUpper (by simp [(h c hc).2])
  lower_percent s t := by
    change List.map Char.toLower (s ++ '%' :: t) =
      List.map Char.toLower s ++ '%' :: List.map Char.toLower t
    rw [List.map_append, List.map_cons]
    rfl

/-! ### Normal forms are words -/

theorem isBreak_colon : isBreak ':' = true := by decide

/-- **The normal form** of a part is its words with a colon between them, or `unknown` if there are
none. -/
theorem normalizePart_eq (U : Unicode) (part : List Char) :
    normalizePart U part =
      if words isBreak (U.lower (strip part)) = [] then fallbackSubject
      else join ':' (words isBreak (U.lower (strip part))) := by
  have hboth : subRuns (· == ':') ':' false (subRuns isOutside ':' false (U.lower (strip part))) =
      subRuns isBreak ':' false (U.lower (strip part)) :=
    subRuns_subRuns rfl (fun _ => rfl) _ false false id
  have hwords : stripChars [':'] (subRuns isBreak ':' false (U.lower (strip part))) =
      join ':' (words isBreak (U.lower (strip part))) :=
    trim_subRuns isBreak_colon _
  simp only [normalizePart, hboth, hwords, join_eq_nil_iff (valid_words isBreak_colon _)]

/-- A character of an address is ASCII, no capital and no blank. -/
def isAddressChar (c : Char) : Bool := c.toNat < 128 && !c.isUpper && !isSpace c

theorem isAddressChar_digitChar : ∀ d < 16, isAddressChar d.digitChar = true := by
  decide

theorem isAddressChar_v4 (a : V4) : ∀ c ∈ a.text, isAddressChar c = true := by
  intro c hc
  rcases V4.mem_text hc with rfl | ⟨d, hd, rfl⟩
  · decide
  · exact isAddressChar_digitChar d (by omega)

theorem isAddressChar_ipText (a : V6) : ∀ c ∈ a.ipText, isAddressChar c = true := by
  intro c hc
  rcases V6.mem_ipText hc with rfl | rfl | ⟨d, hd, rfl⟩
  · decide
  · decide
  · exact isAddressChar_digitChar d hd

section

variable {text : List Char} (h : ∀ c ∈ text, isAddressChar c = true)

include h

theorem lower_of_isAddressChar (U : CaseTables) : U.lower text = text := by
  refine U.lower_ascii text fun c hc => ?_
  have hchar := h c hc
  simp only [isAddressChar, Bool.and_eq_true, decide_eq_true_eq, Bool.not_eq_true'] at hchar
  exact hchar.1

theorem isSpace_of_isAddressChar : ∀ c ∈ text, isSpace c = false := by
  intro c hc
  have hchar := h c hc
  simp only [isAddressChar, Bool.and_eq_true, Bool.not_eq_true'] at hchar
  exact hchar.2

theorem strip_of_isAddressChar : strip text = text := trim_of_forall (isSpace_of_isAddressChar h)

end

/-! ### The words of addresses -/

theorem isBreak_of_mem_toDigits {b n : ℕ} (hb : 1 < b ∧ b ≤ 16) :
    ∀ c ∈ Nat.toDigits b n, isBreak c = false := by
  intro c hc
  have hdigit : ∀ d < 16, isBreak d.digitChar = false := by decide
  obtain ⟨d, hd, rfl⟩ := mem_toDigits hb.1 n hc
  exact hdigit d (by omega)

theorem filter_digits {b : ℕ} (l : List ℕ) :
    (l.map (Nat.toDigits b)).filter (fun s => !s.isEmpty) = l.map (Nat.toDigits b) := by
  rw [filter_eq_self]
  intro s hs
  obtain ⟨n, -, rfl⟩ := mem_map.mp hs
  simp [Nat.toDigits_ne_nil]

theorem words_v4 (a : V4) : words isBreak a.text = v4Words a := by
  have hdigits : ∀ s ∈ a.octets.map (Nat.toDigits 10), ∀ c ∈ s, isBreak c = false := by
    intro s hs
    obtain ⟨n, -, rfl⟩ := mem_map.mp hs
    exact isBreak_of_mem_toDigits (by omega)
  rw [V4.text, words_join_of_forall (by decide) hdigits, filter_digits, v4Words]

theorem filter_compressHextets (groups : List ℕ) :
    (compressHextets (groups.map (Nat.toDigits 16))).filter (fun s => !s.isEmpty) =
      (keptGroups groups).map (Nat.toDigits 16) := by
  simp only [compressHextets, keptGroups]
  split
  · have hends : ∀ p : Prop, [Decidable p] →
        (if p then [[]] else [] : List (List Char)).filter (fun s => !s.isEmpty) = [] := by
      intro p _
      split <;> rfl
    rw [filter_append, filter_append, filter_cons_of_neg (by simp),
      filter_append, hends, hends, ← map_take, ← map_drop, filter_digits,
      filter_digits, nil_append, append_nil, map_append]
  · exact filter_digits groups

theorem words_groupsText (groups : List ℕ) :
    words isBreak (groupsText groups) = (keptGroups groups).map (Nat.toDigits 16) := by
  have hdigits : ∀ s ∈ compressHextets (groups.map (Nat.toDigits 16)),
      ∀ c ∈ s, isBreak c = false := by
    intro s hs
    rcases mem_compressHextets hs with rfl | hs
    · simp
    · obtain ⟨n, -, rfl⟩ := mem_map.mp hs
      exact isBreak_of_mem_toDigits (by omega)
  rw [groupsText, words_join_of_forall isBreak_colon hdigits, filter_compressHextets]

theorem words_ipText (a : V6) : words isBreak a.ipText = v6Words a := by
  rw [V6.ipText, v6Words]
  cases a.ipv4Mapped with
  | none => exact words_groupsText a.groups
  | some v4 =>
    have hmapped : (keptGroups [0, 0, 0, 0, 0, 0, 0, 65535]).map (Nat.toDigits 16) =
        [['f', 'f', 'f', 'f']] := by
      decide +kernel
    change words isBreak (groupsText [0, 0, 0, 0, 0, 0, 0, 65535] ++ ':' :: v4.text) = _
    rw [words_append_cons isBreak_colon, words_groupsText, hmapped, words_v4]
    rfl

theorem strip_append_percent {text : List Char} (hne : text ≠ [])
    (h : ∀ c ∈ text, isAddressChar c = true) (scope : List Char) :
    strip (text ++ '%' :: scope) = text ++ '%' :: scope.rdropWhile isSpace := by
  have hhead : (text ++ '%' :: scope).dropWhile isSpace = text ++ '%' :: scope := by
    cases text with
    | nil => exact absurd rfl hne
    | cons c text =>
      have hc := isSpace_of_isAddressChar h c mem_cons_self
      rw [cons_append, dropWhile_cons, if_neg (by simp [hc])]
  rw [strip, trim, hhead, rdropWhile_append_cons (by decide)]

/-- **The words of the text of an address** are the words of the address. -/
theorem words_lower_strip_text (U : CaseTables) (a : Address) :
    words isBreak (U.lower (strip a.text)) = addressWords U.toUnicode a := by
  cases a with
  | v4 a =>
    have hchars := isAddressChar_v4 a
    rw [Address.text, strip_of_isAddressChar hchars, lower_of_isAddressChar hchars, words_v4]
    rfl
  | v6 a =>
    have hchars := isAddressChar_ipText a
    rw [Address.text, V6.text, addressWords, scopeWords, ← words_ipText]
    cases a.scope with
    | none =>
      rw [elim_none, elim_none, append_nil, append_nil,
        strip_of_isAddressChar hchars, lower_of_isAddressChar hchars]
    | some scope =>
      have hne : a.ipText ≠ [] := ne_nil_of_mem a.colon_mem_ipText
      rw [elim_some, elim_some, strip_append_percent hne hchars,
        U.lower_percent, lower_of_isAddressChar hchars, words_append_cons (by decide)]

/-! ### Clients apart -/

/-- **The default subject** in its normal form is what the client shows. -/
theorem normalizeSubject_default (U : CaseTables) (request : Request) :
    normalizeSubject U.toUnicode (defaultSubjectResolver request) =
      join ':' (shown U.toUnicode (clientAddress request true)) := by
  rw [normalizeSubject, normalizePart_eq, defaultSubjectResolver, resolveClientIp, shown]
  cases clientAddress request true with
  | some a =>
    rw [map_some, getD_some, words_lower_strip_text, elim_some]
    split
    · rw [join_singleton]
    · rfl
  | none =>
    have hchars : ∀ c ∈ fallbackSubject, isAddressChar c = true := all_eq_true.mp rfl
    have hletters : ∀ c ∈ fallbackSubject, isBreak c = false := by
      have hall : fallbackSubject.all (fun c => !isBreak c) = true := rfl
      intro c hc
      rw [← Bool.not_eq_true']
      exact all_eq_true.mp hall c hc
    have hne : fallbackSubject ≠ [] := cons_ne_nil _ _
    rw [map_none, getD_none, strip_of_isAddressChar hchars,
      lower_of_isAddressChar hchars, words_of_forall hne hletters]
    rfl

theorem valid_shown (U : CaseTables) (client : Option Address) :
    Valid ':' (shown U.toUnicode client) := by
  rw [shown]
  split
  · exact forall_mem_singleton.mpr ⟨cons_ne_nil _ _, by decide⟩
  · cases client with
    | none => simp [Valid]
    | some a =>
      rw [elim_some, ← words_lower_strip_text]
      exact valid_words isBreak_colon _

/-- **Two requests share a key** exactly if they share a subject and are not refused. -/
theorem KeyOptions.shares_key_iff {o : KeyOptions} {U : Unicode} {blake2b : Digest}
    {r₁ r₂ : Request} (hfree : o.Separates blake2b (normalizeSubject U (o.resolvedSubject r₁))
      (normalizeSubject U (o.resolvedSubject r₂))) :
    (∃ key, o.key U blake2b r₁ = some key ∧ o.key U blake2b r₂ = some key) ↔
      ¬ o.Refused ∧
        normalizeSubject U (o.resolvedSubject r₁) = normalizeSubject U (o.resolvedSubject r₂) := by
  simp only [KeyOptions.key, KeyOptions.Refused, RateLimitSubject.hashSubject, ← not_le]
  cases hhash : o.hashSubject with
  | false => simp [eq_comm]
  | true =>
    by_cases hsize : o.hashSecret.toBytes.size ≤ 64
    · simp only [hsize, if_true, map_some, some.injEq, exists_eq_left', append_cancel_left_eq,
        cons.injEq, true_and, not_true_eq_false, and_false, not_false_eq_true]
      exact ⟨fun h => not_ne_iff.mp fun hne => hfree hhash hne h.symm, fun h => by rw [h]⟩
    · simp [hsize]

theorem length_v4Words (a : V4) : (v4Words a).length = 4 := by
  rw [v4Words, length_map, a.length_octets]

theorem shown_v4 (U : Unicode) (a : V4) : shown U (some (.v4 a)) = v4Words a := by
  have hne : v4Words a ≠ [] := by
    rw [← length_pos_iff, length_v4Words]
    omega
  exact if_neg hne

theorem v4Words_injective : Function.Injective v4Words := by
  intro a b h
  have htext : a.text = b.text := congrArg (join '.') h
  exact some.inj ((parseV4_text a).symm.trans (htext ▸ parseV4_text b))

/-- **Clients are counted apart** exactly if they show different words, or no call comes to a key.
IPv4 addresses show different words than each other, and than a client without an address. -/
theorem keys_apart_iff (U : CaseTables) (blake2b : Digest) (o : KeyOptions) (r₁ r₂ : Request)
    (hfree : o.Separates blake2b (normalizeSubject U.toUnicode (defaultSubjectResolver r₁))
      (normalizeSubject U.toUnicode (defaultSubjectResolver r₂))) :
    (normalizeSubject U.toUnicode (defaultSubjectResolver r₁) ≠
        normalizeSubject U.toUnicode (defaultSubjectResolver r₂) ↔
      shown U.toUnicode (clientAddress r₁ true) ≠ shown U.toUnicode (clientAddress r₂ true)) ∧
    ((¬ ∃ key, o.byAddress.key U.toUnicode blake2b r₁ = some key ∧
        o.byAddress.key U.toUnicode blake2b r₂ = some key) ↔
      (o.Refused ∨
        shown U.toUnicode (clientAddress r₁ true) ≠ shown U.toUnicode (clientAddress r₂ true))) ∧
    ∀ a b : V4, shown U.toUnicode (some (.v4 a)) ≠ shown U.toUnicode none ∧
      (a ≠ b → shown U.toUnicode (some (.v4 a)) ≠ shown U.toUnicode (some (.v4 b))) := by
  have hsubject : normalizeSubject U.toUnicode (defaultSubjectResolver r₁) =
        normalizeSubject U.toUnicode (defaultSubjectResolver r₂) ↔
      shown U.toUnicode (clientAddress r₁ true) = shown U.toUnicode (clientAddress r₂ true) := by
    rw [normalizeSubject_default, normalizeSubject_default,
      join_inj (valid_shown U _) (valid_shown U _)]
  refine ⟨not_congr hsubject, ?_, fun a b => ⟨?_, ?_⟩⟩
  · have hshares := KeyOptions.shares_key_iff (o := o.byAddress) hfree
    rw [hshares, not_and_or, not_not]
    exact or_congr_right (not_congr hsubject)
  · intro h
    have hlength := congrArg length h
    rw [shown_v4, length_v4Words] at hlength
    cases hlength
  · rw [shown_v4, shown_v4]
    exact mt fun h => v4Words_injective h

/-- A request with no headers that matter. -/
def requestFrom (host : String) : Request := ⟨fun _ => none, some host.toList⟩

/-- The bucket of a login, with the defaults of the other options. -/
def loginOptions : KeyOptions := { bucket := "login".toList }

/-- The key of a login. -/
def loginKey (blake2b : Digest) (host : String) : Option (List Char) :=
  loginOptions.key CaseTables.ascii.toUnicode blake2b (requestFrom host)

/-- The normalised subject of a login. -/
def loginSubject (host : String) : List Char :=
  normalizeSubject CaseTables.ascii.toUnicode (defaultSubjectResolver (requestFrom host))

/-- `blake2b` without a key, on two subjects. -/
def probeDigest : Digest := fun _ data =>
  if data = encode "1:2:3:4".toList then "c7f3a88e778deba3c2217ab0e9557a66".toList
  else "b28955f38d6712e7a39817d44e306d0f".toList

/-- Two IPv4 clients have keys of their own. -/
theorem ipv4_keys_apart :
    ¬ ∃ key, loginKey probeDigest "1.2.3.4" = some key ∧
      loginKey probeDigest "5.6.7.8" = some key := by
  have hfree : loginOptions.Separates probeDigest (loginSubject "1.2.3.4")
      (loginSubject "5.6.7.8") := fun _ _ => by decide +kernel
  exact (keys_apart_iff .ascii probeDigest loginOptions _ _ hfree).2.1.mpr
    (.inr (by decide +kernel))

/-- `::1` and `1::` are two clients with one key, and `::` has the key of a client that has no
address, whatever the digest. -/
theorem zeros_share_keys :
    clientAddress (requestFrom "::1") true ≠ clientAddress (requestFrom "1::") true ∧
      clientAddress (requestFrom "::") true ≠ none ∧
      clientAddress (requestFrom "") true = none ∧
      ∀ blake2b, (loginKey blake2b "::1").isSome ∧ loginKey blake2b "::1" = loginKey blake2b "1::" ∧
        (loginKey blake2b "::").isSome ∧ loginKey blake2b "::" = loginKey blake2b "" := by
  have hkey : ∀ blake2b host, loginKey blake2b host =
      (hashSubject blake2b (loginSubject host) .absent).map fun subjectKey =>
        loginOptions.keyPrefix ++ ':' :: (normalizeBucket CaseTables.ascii.toUnicode
          loginOptions.bucket ++ ':' :: subjectKey) := by
    intro blake2b host
    have hresolved : ∀ r, loginOptions.resolvedSubject r = defaultSubjectResolver r := fun _ => rfl
    rw [loginKey, KeyOptions.key, hresolved, ← loginSubject]
    exact congrArg (Option.map _) (if_pos rfl)
  have hone : loginSubject "::1" = loginSubject "1::" := by decide +kernel
  have hzero : loginSubject "::" = loginSubject "" := by decide +kernel
  refine ⟨by decide +kernel, by decide +kernel, by decide +kernel, fun blake2b => ?_⟩
  rw [hkey, hkey, hkey, hkey, hone, hzero]
  exact ⟨isSome_map.trans rfl, rfl, isSome_map.trans rfl, rfl⟩

end ServiceToolkit.RateLimitSubject
