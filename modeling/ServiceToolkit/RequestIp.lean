import ServiceToolkit.CacheKeys
import ServiceToolkit.IpAddress

/-!
# The Client's Address

`resolve_client_ip` takes the first address it finds in a row of headers, and the address of the
socket if there is none. The `Forwarded` header is not parsed: a regular expression looks for
`for=`, an optional quote and bracket, and what follows up to a semicolon, a comma, a closing
bracket, a quote or white space (`forGroups`). What is no address is skipped.

`forGroups` is `finditer`: it looks at one position after the other, and goes on behind a match.
Where a character ends a match whatever stands before it, both sides can be searched by themselves
(`forGroups_append`); and a name followed by an equals sign is searched only at its end
(`forGroups_name`).
-/

namespace ServiceToolkit.RequestIp

open Text IpAddress List

open CacheKeys (stripChars)

/-- The quotation mark. -/
def quote : Char := Char.ofNat 34

/-- The apostrophe. -/
def apostrophe : Char := Char.ofNat 39

/-! ### Single values -/

/-- A value in brackets loses them. -/
def unbracket (candidate : List Char) : List Char :=
  if candidate.head? = some '[' ∧ candidate.getLast? = some ']' then candidate.tail.dropLast
  else candidate

/-- `_normalize_ip_candidate`, as the address whose text it returns. -/
def candidateAddress (value : List Char) : Option Address :=
  let candidate := stripChars [apostrophe] (stripChars [quote] (strip value))
  if candidate = [] then none else ipAddress (unbracket candidate)

/-- `_first_valid_csv_ip`. -/
def firstValidCsvAddress (value : List Char) : Option Address :=
  (value.splitOn ',').findSome? candidateAddress

/-! ### The `Forwarded` header -/

/-- `for=` in any case, and what follows. -/
def matchForEq : List Char → Option (List Char)
  | f :: o :: r :: e :: rest =>
    if f.toLower = 'f' ∧ o.toLower = 'o' ∧ r.toLower = 'r' ∧ e = '=' then some rest else none
  | _ => none

/-- A character of the group, `[^;\s,\]"]`. -/
def isGroupChar (c : Char) : Bool :=
  !(c == ';' || isSpace c || c == ',' || c == ']' || c == quote)

/-- An optional character. -/
def dropOptional (c : Char) (text : List Char) : List Char :=
  if text.head? = some c then text.tail else text

/-- The group at the beginning of a text, and what follows it. -/
def matchGroup (text : List Char) : Option (List Char × List Char) :=
  if text.takeWhile isGroupChar = [] then none
  else some (text.takeWhile isGroupChar, text.dropWhile isGroupChar)

/-- The expression behind `for=`: the quote and the bracket are taken if they are there, and given
back if no group follows. -/
def matchValue (text : List Char) : Option (List Char × List Char) :=
  [dropOptional '[' (dropOptional quote text), dropOptional quote text, text].findSome? matchGroup

/-- A match of `_FORWARDED_FOR_RE` at the beginning of a text: its group, and what follows. -/
def matchFor (text : List Char) : Option (List Char × List Char) :=
  (matchForEq text).bind matchValue

/-- The groups of the matches, searching at most `n` positions. -/
def findGroups : ℕ → List Char → List (List Char)
  | 0, _ => []
  | _ + 1, [] => []
  | n + 1, c :: cs =>
    match matchFor (c :: cs) with
    | some (group, rest) => group :: findGroups n rest
    | none => findGroups n cs

/-- `_FORWARDED_FOR_RE.finditer`, the groups. -/
def forGroups (text : List Char) : List (List Char) := findGroups text.length text

/-- `_forwarded_header_ip`. -/
def forwardedHeaderAddress (value : List Char) : Option Address :=
  (forGroups value).findSome? candidateAddress

/-! ### Requests -/

/-- What `resolve_client_ip` reads of a request: headers by their lower-case names, and the host of
the socket. -/
structure Request where
  headers : String → Option (List Char)
  host : Option (List Char)

/-- The address whose text `resolve_client_ip` returns. -/
def clientAddress (request : Request) (trustForwardedChain : Bool) : Option Address :=
  let header (name : String) (read : List Char → Option Address) : Option Address :=
    (request.headers name).bind read
  (["cf-connecting-ip", "true-client-ip", "x-real-ip"].findSome? (header · candidateAddress)).or <|
    (if trustForwardedChain then
      (header "x-forwarded-for" firstValidCsvAddress).or (header "forwarded" forwardedHeaderAddress)
    else none).or (request.host.bind candidateAddress)

/-- `resolve_client_ip`. -/
def resolveClientIp (request : Request) (trustForwardedChain : Bool) : Option (List Char) :=
  (clientAddress request trustForwardedChain).map Address.text

/-- `_forwarded_header_ip`, the text. -/
def forwardedHeaderIp (value : List Char) : Option (List Char) :=
  (forwardedHeaderAddress value).map Address.text

/-! ### Searching -/

variable {rest text : List Char}

theorem matchForEq_eq_some (h : matchForEq text = some rest) :
    ∃ f o r, text = [f, o, r, '='] ++ rest := by
  unfold matchForEq at h
  split at h
  · split at h
    · next f o r e rest' hmark =>
      cases h
      exact ⟨f, o, r, by rw [hmark.2.2.2]; rfl⟩
    · cases h
  · cases h

theorem dropOptional_suffix (c : Char) (text : List Char) : dropOptional c text <:+ text := by
  unfold dropOptional
  split
  · exact tail_suffix text
  · exact suffix_refl text

theorem dropOptional_of_notMem {c : Char} (h : c ∉ text) : dropOptional c text = text :=
  if_neg fun hhead => h (mem_of_mem_head? hhead)

variable {group : List Char}

theorem matchGroup_suffix (h : matchGroup text = some (group, rest)) : rest <:+ text := by
  unfold matchGroup at h
  split at h
  · cases h
  · obtain ⟨-, rfl⟩ := Prod.mk.inj (Option.some.inj h)
    exact dropWhile_suffix _

theorem matchValue_suffix (h : matchValue text = some (group, rest)) : rest <:+ text := by
  obtain ⟨tail, htail, hmatch⟩ := exists_of_findSome?_eq_some h
  have hquote := dropOptional_suffix quote text
  simp only [mem_cons, not_mem_nil, or_false] at htail
  rcases htail with rfl | rfl | rfl
  · exact (matchGroup_suffix hmatch).trans ((dropOptional_suffix '[' _).trans hquote)
  · exact (matchGroup_suffix hmatch).trans hquote
  · exact matchGroup_suffix hmatch

/-- What follows a match is a shorter end of the text. -/
theorem matchFor_suffix (h : matchFor text = some (group, rest)) :
    rest <:+ text ∧ rest.length < text.length := by
  obtain ⟨value, hvalue, hmatch⟩ := Option.bind_eq_some_iff.mp h
  obtain ⟨f, o, r, rfl⟩ := matchForEq_eq_some hvalue
  have hrest := matchValue_suffix hmatch
  refine ⟨hrest.trans (suffix_append _ _), ?_⟩
  have hlength := hrest.length_le
  rw [length_append]
  simp only [length_cons, length_nil]
  omega

/-- **Enough positions**: searching as many positions as the text has, or more, is the same. -/
theorem findGroups_of_le {m n : ℕ} (hm : text.length ≤ m) (hn : text.length ≤ n) :
    findGroups m text = findGroups n text := by
  induction m generalizing n text with
  | zero =>
    obtain rfl := length_eq_zero_iff.mp (Nat.le_zero.mp hm)
    cases n <;> rfl
  | succ m ih =>
    cases text with
    | nil => cases n <;> rfl
    | cons c cs =>
      cases n with
      | zero => cases hn
      | succ n =>
        rw [length_cons] at hm hn
        simp only [findGroups]
        split
        · rename_i group rest hmatch
          have hrest := (matchFor_suffix hmatch).2
          rw [length_cons] at hrest
          exact congrArg _ (ih (by omega) (by omega))
        · exact ih (by omega) (by omega)

@[simp] theorem forGroups_nil : forGroups [] = [] := rfl

theorem forGroups_of_match (h : matchFor text = some (group, rest)) :
    forGroups text = group :: forGroups rest := by
  have hlength := (matchFor_suffix h).2
  cases text with
  | nil => cases h
  | cons c cs =>
    rw [length_cons] at hlength
    rw [forGroups, length_cons, findGroups, h]
    exact congrArg _ (findGroups_of_le (by omega) (le_refl _))

variable {c : Char}

theorem forGroups_of_none {cs : List Char} (h : matchFor (c :: cs) = none) :
    forGroups (c :: cs) = forGroups cs := by
  rw [forGroups, length_cons, findGroups, h]
  rfl

/-! ### Parts of a text -/

theorem isGroupChar_of_isAlpha (h : c.isAlpha = true) : isGroupChar c = true := by
  have hspace := isSpace_of_isAlpha h
  have hne : ∀ d : Char, d.isAlpha = false → c ≠ d := by
    rintro d hd rfl
    rw [h] at hd
    cases hd
  simp [isGroupChar, hspace, hne ';' rfl, hne ',' rfl, hne ']' rfl, hne quote rfl]

theorem toLower_ne_of_not_isGroupChar (h : isGroupChar c = false) {d : Char}
    (hd : d.isAlpha = true) : c.toLower ≠ d := by
  rintro rfl
  rw [Char.isAlpha_toLower_eq_isAlpha] at hd
  rw [isGroupChar_of_isAlpha hd] at h
  cases h

section

variable {sep : Char} (hsep : isGroupChar sep = false) (t : List Char)

include hsep

theorem ne_of_isGroupChar {c : Char} (h : isGroupChar c = true) : sep ≠ c := by
  rintro rfl
  rw [h] at hsep
  cases hsep

theorem matchForEq_append {s : List Char} (hs : s ≠ []) :
    matchForEq (s ++ sep :: t) = (matchForEq s).map (· ++ sep :: t) := by
  have ho := toLower_ne_of_not_isGroupChar hsep (d := 'o') rfl
  have hr := toLower_ne_of_not_isGroupChar hsep (d := 'r') rfl
  have he : sep ≠ '=' := ne_of_isGroupChar hsep rfl
  match s, hs with
  | [a], _ =>
    match t with
    | [] | [_] => rfl
    | b :: c :: t => simp [matchForEq, ho]
  | [a, b], _ =>
    match t with
    | [] => rfl
    | c :: t => simp [matchForEq, hr]
  | [a, b, c], _ => simp [matchForEq, he]
  | a :: b :: c :: d :: s, _ =>
    simp only [cons_append, matchForEq]
    split <;> rfl

omit hsep in
theorem dropOptional_append {c : Char} {s : List Char} (hc : sep = c → s ≠ []) :
    dropOptional c (s ++ sep :: t) = dropOptional c s ++ sep :: t := by
  cases s with
  | nil => simpa [dropOptional] using hc
  | cons a s =>
    unfold dropOptional
    rw [cons_append, head?_cons, head?_cons]
    split <;> rfl

theorem matchGroup_append (s : List Char) :
    matchGroup (s ++ sep :: t) = (matchGroup s).map fun m => (m.1, m.2 ++ sep :: t) := by
  have htake : ∀ s : List Char,
      (s ++ sep :: t).takeWhile isGroupChar = s.takeWhile isGroupChar := by
    intro s
    induction s with
    | nil => simp [hsep]
    | cons c s ih =>
      rw [cons_append, takeWhile_cons, takeWhile_cons, ih]
  have hdrop : ∀ s : List Char,
      (s ++ sep :: t).dropWhile isGroupChar = s.dropWhile isGroupChar ++ sep :: t := by
    intro s
    induction s with
    | nil => simp [hsep]
    | cons c s ih =>
      rw [cons_append, dropWhile_cons, dropWhile_cons, ih]
      split <;> rfl
  unfold matchGroup
  rw [htake, hdrop]
  split <;> rfl

theorem matchValue_append {s : List Char} (hquote : sep = quote → t = [] ∨ s ≠ []) :
    matchValue (s ++ sep :: t) = (matchValue s).map fun m => (m.1, m.2 ++ sep :: t) := by
  by_cases hopen : sep = quote → s ≠ []
  · have hbracket : sep ≠ '[' := ne_of_isGroupChar hsep rfl
    simp only [matchValue, dropOptional_append t hopen,
      dropOptional_append t fun h => absurd h hbracket, findSome?_cons, findSome?_nil,
      matchGroup_append hsep t]
    cases matchGroup (dropOptional '[' (dropOptional quote s)) with
    | some m => rfl
    | none =>
      cases matchGroup (dropOptional quote s) with
      | some m => rfl
      | none => cases matchGroup s <;> rfl
  · simp only [Classical.not_imp, not_not] at hopen
    obtain ⟨rfl, rfl⟩ := hopen
    obtain rfl := (hquote rfl).resolve_right fun h => h rfl
    decide

/-- **Both sides of a separator** are searched by themselves. A quotation mark is none right behind
an equals sign, unless nothing follows it. -/
theorem forGroups_append (s : List Char) (hquote : sep = quote → t = [] ∨ s.getLast? ≠ some '=') :
    forGroups (s ++ sep :: t) = forGroups s ++ forGroups t := by
  induction hn : s.length using Nat.strong_induction_on generalizing s with
  | _ n ih =>
    have hend : ∀ rest : List Char, rest <:+ s → sep = quote →
        t = [] ∨ rest.getLast? ≠ some '=' := by
      rintro rest ⟨before, rfl⟩ hsep
      exact (hquote hsep).imp_right fun h hrest => h (by rw [getLast?_append, hrest]; rfl)
    cases s with
    | nil =>
      have hf := toLower_ne_of_not_isGroupChar hsep (d := 'f') rfl
      have hnone : matchForEq (sep :: t) = none := by
        unfold matchForEq
        split
        · rename_i heq
          obtain ⟨rfl, -⟩ := cons.inj heq
          simp [hf]
        · rfl
      rw [nil_append, forGroups_of_none (by rw [matchFor, hnone]; rfl)]
      rfl
    | cons c s =>
      have hcons : matchFor (c :: s ++ sep :: t) =
          (matchFor (c :: s)).map fun m => (m.1, m.2 ++ sep :: t) := by
        rw [matchFor, matchForEq_append hsep t (cons_ne_nil c s), matchFor]
        cases hvalue : matchForEq (c :: s) with
        | none => rfl
        | some value =>
          refine matchValue_append hsep t fun hsep => (hquote hsep).imp_right fun h hnil => h ?_
          obtain ⟨f, o, r, heq⟩ := matchForEq_eq_some hvalue
          rw [heq, hnil]
          rfl
      cases hm : matchFor (c :: s) with
      | some m =>
        obtain ⟨group, rest⟩ := m
        have hrest := matchFor_suffix hm
        rw [hm] at hcons
        rw [forGroups_of_match hcons, forGroups_of_match hm,
          ih rest.length (by omega) rest (hend rest hrest.1) rfl, cons_append]
      | none =>
        rw [hm] at hcons
        rw [length_cons] at hn
        rw [cons_append, forGroups_of_none (by rw [← cons_append]; exact hcons),
          forGroups_of_none hm, ih s.length (by omega) s (hend s (suffix_cons c s)) rfl]

end

/-- The name ends in `for`, in any case. -/
def endsFor (name : List Char) : Bool := ['f', 'o', 'r'].isSuffixOf (name.map Char.toLower)

/-- The groups in a value that follows `for=`. -/
def afterFor (value : List Char) : List (List Char) :=
  match matchValue value with
  | some (group, rest) => group :: forGroups rest
  | none => forGroups value

theorem matchForEq_name {name : List Char} (hname : '=' ∉ name) (value : List Char) :
    matchForEq (name ++ '=' :: value) =
      if name.map Char.toLower = ['f', 'o', 'r'] then some value else none := by
  match name with
  | [] =>
    match value with
    | [] | [_] | [_, _] => rfl
    | a :: b :: c :: value => simp [matchForEq]
  | [a] =>
    match value with
    | [] | [_] => simp [matchForEq]
    | b :: c :: value => simp [matchForEq]
  | [a, b] =>
    match value with
    | [] => simp [matchForEq]
    | c :: value => simp [matchForEq]
  | [a, b, c] => simp [matchForEq]
  | a :: b :: c :: d :: name =>
    have hd : d ≠ '=' := by
      rintro rfl
      simp at hname
    simp [matchForEq, hd]

theorem endsFor_cons (c : Char) (name : List Char) : endsFor (c :: name) =
      (decide ((c :: name).map Char.toLower = ['f', 'o', 'r']) || endsFor name) := by
  rw [Bool.eq_iff_iff, endsFor, endsFor, Bool.or_eq_true, decide_eq_true_eq,
    isSuffixOf_iff_suffix, isSuffixOf_iff_suffix, map_cons, suffix_cons_iff, eq_comm]

theorem forGroups_name {name : List Char} (hname : '=' ∉ name) (value : List Char) :
    forGroups (name ++ '=' :: value) =
      if endsFor name then afterFor value else forGroups value := by
  induction name with
  | nil =>
    have hnone : matchFor ('=' :: value) = none := by
      rw [matchFor, ← nil_append ('=' :: value), matchForEq_name hname]
      rfl
    exact forGroups_of_none hnone
  | cons c name ih =>
    have hmatch : matchFor (c :: (name ++ '=' :: value)) =
        (if (c :: name).map Char.toLower = ['f', 'o', 'r'] then some value else none).bind
          matchValue := by
      rw [matchFor, ← cons_append, matchForEq_name hname]
    have hrest := ih fun h => hname (mem_cons_of_mem c h)
    rw [endsFor_cons]
    by_cases hfor : (c :: name).map Char.toLower = ['f', 'o', 'r']
    · rw [if_pos hfor, Option.bind_some] at hmatch
      have hshort : endsFor name = false := by
        have hname : name.map Char.toLower = ['o', 'r'] := (cons.inj hfor).2
        rw [endsFor, hname]
        rfl
      rw [hshort] at hrest
      simp only [hfor, decide_true, Bool.true_or, if_true]
      cases hvalue : matchValue value with
      | some m =>
        rw [hvalue] at hmatch
        rw [afterFor, hvalue, cons_append, forGroups_of_match hmatch]
      | none =>
        rw [hvalue] at hmatch
        rw [afterFor, hvalue, cons_append, forGroups_of_none hmatch, hrest]
        rfl
    · rw [if_neg hfor, Option.bind_none] at hmatch
      rw [cons_append, forGroups_of_none hmatch, hrest, decide_eq_false hfor, Bool.false_or]

theorem matchForEq_of_notMem (h : '=' ∉ text) : matchForEq text = none := by
  unfold matchForEq
  split
  · rename_i f o r e rest
    have he : e ≠ '=' := by
      rintro rfl
      simp at h
    simp [he]
  · rfl

theorem forGroups_of_notMem (h : '=' ∉ text) : forGroups text = [] := by
  induction text with
  | nil => rfl
  | cons c cs ih =>
    rw [forGroups_of_none (by rw [matchFor, matchForEq_of_notMem h]; rfl)]
    exact ih fun hcs => h (mem_cons_of_mem c hcs)

theorem forGroups_join {sep : Char} (hsep : isGroupChar sep = false) (hquote : sep ≠ quote)
    (parts : List (List Char)) : forGroups (Paths.join sep parts) = parts.flatMap forGroups := by
  induction parts with
  | nil => rfl
  | cons s parts ih =>
    by_cases hparts : parts = []
    · subst hparts
      rw [Paths.join_singleton, flatMap_singleton]
    · rw [Paths.join_cons sep s hparts, forGroups_append hsep _ s fun h => absurd h hquote, ih,
        flatMap_cons]

theorem matchGroup_append_of_all (hne : group ≠ []) (hall : ∀ c ∈ group, isGroupChar c = true)
    (hrest : rest.head?.all (!isGroupChar ·) = true) :
    matchGroup (group ++ rest) = some (group, rest) := by
  have htake : (group ++ rest).takeWhile isGroupChar = group := by
    rw [takeWhile_append_of_pos hall]
    cases rest with
    | nil => simp
    | cons c rest => simp_all
  have hdrop : (group ++ rest).dropWhile isGroupChar = rest := by
    rw [dropWhile_append_of_pos hall]
    cases rest with
    | nil => rfl
    | cons c rest => simp_all
  rw [matchGroup, htake, hdrop, if_neg hne]

/-! ### Groups -/

theorem stripChars_of_notMem {s : List Char} (h : c ∉ s) : stripChars [c] s = s :=
  Words.trim_of_forall fun _ hd => decide_eq_false fun hdc => h (mem_singleton.mp hdc ▸ hd)

theorem quote_notMem (h : ∀ c ∈ text, isGroupChar c = true) : quote ∉ text :=
  fun hmem => absurd (h _ hmem) (by decide)

/-- Of a group only apostrophes are taken off. -/
theorem candidateAddress_of_group (h : ∀ c ∈ group, isGroupChar c = true) :
    candidateAddress group = ipAddress (stripChars [apostrophe] group) := by
  have hspace : strip group = group := by
    refine Words.trim_of_forall fun c hc => ?_
    have hgroup := h c hc
    simp only [isGroupChar, Bool.not_eq_true', Bool.or_eq_false_iff] at hgroup
    exact hgroup.1.1.1.2
  have hbracket : (stripChars [apostrophe] group).getLast? ≠ some ']' := by
    intro hlast
    have hmem : ']' ∈ group := Words.trim_sublist.subset (mem_of_getLast? hlast)
    exact absurd (h _ hmem) (by decide)
  rw [candidateAddress, hspace, stripChars_of_notMem (quote_notMem h)]
  by_cases hnil : stripChars [apostrophe] group = []
  · rw [if_pos hnil, hnil]
    rfl
  · rw [if_neg hnil, unbracket, if_neg fun hends => hbracket hends.2]

end ServiceToolkit.RequestIp
