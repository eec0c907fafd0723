import ServiceToolkit.RequestIp

/-!
# The `Forwarded` Header

What RFC 7239 lets a proxy write into the header, and what the service reads out of it. A header is
a list of elements, an element a list of parameters, and the value of a `for` parameter is a
**node**: an IPv4 address, an IPv6 address in brackets, `unknown` or an obfuscated name, and an
optional port. `Header.firstHop` is the address of the first element that has one.

The service searches the text instead (`RequestIp.forGroups`). Separators end a match, so the search
goes through the parameters one by one (`forwardedHeaderAddress_written`), and in each through the
words of its value (`findSome_forGroups`). What it finds there is what the parameter **shows**
(`Pair.shown`): an address at the beginning of the value if the name ends in `for`, and one behind a
`for=` in the value. A node written without quoted pairs shows its address, except that an IPv4
address with a port shows none (`Pair.shown_of_node`).

Hence the header is understood exactly if the first parameter that shows an address shows the first
hop.
-/

namespace ServiceToolkit.Forwarded

open Text IpAddress RequestIp Paths Words List

open CacheKeys (stripChars)

/-! ### Tokens and quoted strings -/

/-- The characters of tokens that are no letters or digits. The last is the grave accent. -/
def tokenSigns : List Char :=
  ['!', '#', '$', '%', '&', apostrophe, '*', '+', '-', '.', '^', '_', '|', '~', Char.ofNat 96]

/-- A character of a token. -/
def isTchar (c : Char) : Bool := c.isAlphanum || tokenSigns.contains c

/-- A token. -/
structure Token where
  chars : List Char
  ne_nil : chars ≠ []
  isTchar_of_mem : ∀ c ∈ chars, isTchar c = true

/-- The backslash. -/
def backslash : Char := Char.ofNat 92

/-- A character that may follow a backslash in a quoted string. -/
def isQuotable (c : Char) : Bool :=
  let n := c.toNat
  n == 9 || (32 ≤ n && n ≤ 126) || (128 ≤ n && n ≤ 255)

/-- A character that stands for itself in a quoted string. -/
def isQdtext (c : Char) : Bool := isQuotable c && c != quote && c != backslash

/-- A character of a quoted string: by itself, or as a **quoted pair**. -/
inductive QuotedChar
  | plain (c : Char) (h : isQdtext c = true)
  | pair (c : Char) (h : isQuotable c = true)

def QuotedChar.char : QuotedChar → Char
  | plain c _ | pair c _ => c

def QuotedChar.written : QuotedChar → List Char
  | plain c _ => [c]
  | pair c _ => [backslash, c]

def QuotedChar.isPlain : QuotedChar → Bool
  | plain .. => true
  | pair .. => false

/-- The value of a parameter. -/
inductive Value
  | token (t : Token)
  | quoted (content : List QuotedChar)

/-- What a value stands for. -/
def Value.text : Value → List Char
  | token t => t.chars
  | quoted content => content.map QuotedChar.char

def Value.written : Value → List Char
  | token t => t.chars
  | quoted content => quote :: (content.flatMap QuotedChar.written ++ [quote])

/-- No character is written as a quoted pair. -/
def Value.isPlain : Value → Bool
  | token _ => true
  | quoted content => content.all QuotedChar.isPlain

/-! ### Nodes -/

/-- A character of an obfuscated name or port. -/
def isObfChar (c : Char) : Bool := c.isAlphanum || c == '.' || c == '_' || c == '-'

/-- A character of an IPv6 address. -/
def isV6Char (c : Char) : Bool := c.isAlphanum || c == '.' || c == ':'

/-- The name of a node. An IPv6 address has many spellings; none of them has a scope. -/
inductive NodeName
  | ipv4 (a : V4)
  | ipv6 (spelling : List Char) (hchars : ∀ c ∈ spelling, isV6Char c = true) (a : V6)
      (h : parseV6 spelling = some a)
  | unknown
  | obfuscated (name : List Char) (hne : name ≠ []) (hchars : ∀ c ∈ name, isObfChar c = true)

def NodeName.text : NodeName → List Char
  | ipv4 a => a.text
  | ipv6 spelling _ _ _ => '[' :: (spelling ++ [']'])
  | unknown => ['u', 'n', 'k', 'n', 'o', 'w', 'n']
  | obfuscated name _ _ => '_' :: name

/-- The port of a node. -/
inductive NodePort
  | number (digits : List Char) (hlength : digits.length ∈ Finset.Icc 1 5)
      (hdigits : ∀ c ∈ digits, c.isDigit = true)
  | obfuscated (name : List Char) (hne : name ≠ []) (hchars : ∀ c ∈ name, isObfChar c = true)

def NodePort.text : NodePort → List Char
  | number digits _ _ => digits
  | obfuscated name _ _ => '_' :: name

/-- **A node**, the value of a `for` parameter. -/
structure Node where
  name : NodeName
  port : Option NodePort

def Node.text (n : Node) : List Char := n.name.text ++ n.port.elim [] fun p => ':' :: p.text

/-- The address of a node. -/
def Node.address (n : Node) : Option Address :=
  match n.name with
  | .ipv4 a => some (.v4 a)
  | .ipv6 _ _ a _ => some (.v6 a)
  | .unknown | .obfuscated .. => none

/-- An IPv4 address with a port. -/
def Node.isPortedV4 (n : Node) : Bool :=
  match n.name with
  | .ipv4 _ => n.port.isSome
  | _ => false

/-! ### Headers -/

/-- The name of the parameter is `for`, in any case. -/
abbrev Token.IsFor (name : Token) : Prop := name.chars.map Char.toLower = ['f', 'o', 'r']

/-- **A parameter**. What a `for` parameter has for its value is a node. -/
inductive Pair
  | node (name : Token) (hname : name.IsFor) (n : Node) (value : Value)
      (hvalue : value.text = n.text)
  | other (name : Token) (hname : ¬ name.IsFor) (value : Value)

def Pair.name : Pair → Token
  | node name .. | other name .. => name

def Pair.value : Pair → Value
  | node _ _ _ value _ | other _ _ value => value

def Pair.written (p : Pair) : List Char := p.name.chars ++ '=' :: p.value.written

def Pair.node? : Pair → Option Node
  | node _ _ n _ _ => some n
  | other .. => none

inductive Blank
  | space
  | tab

def Blank.char : Blank → Char
  | space => ' '
  | tab => Char.ofNat 9

/-- **An element**, between blanks. A parameter may be missing between two semicolons, and none may
occur twice. -/
structure Element where
  before : List Blank
  slots : List (Option Pair)
  after : List Blank
  oneNode : (slots.reduceOption.filterMap Pair.node?).length ≤ 1

def Element.pairs (e : Element) : List Pair := e.slots.reduceOption

def Element.written (e : Element) : List Char :=
  e.before.map Blank.char ++
    (join ';' (e.slots.map fun slot => slot.elim [] Pair.written) ++ e.after.map Blank.char)

/-- The address of an element. -/
def Element.hop (e : Element) : Option Address :=
  (e.pairs.filterMap Pair.node?).head?.bind Node.address

/-- A header. -/
abbrev Header := List Element

def Header.written (h : Header) : List Char := join ',' (h.map Element.written)

def Header.pairs (h : Header) : List Pair := h.flatMap Element.pairs

/-- **The first hop**: the address of the first element that has one. -/
def Header.firstHop (h : Header) : Option Address := h.findSome? Element.hop

/-! ### What is shown -/

/-- A character that ends an address. -/
abbrev isSeparator (c : Char) : Bool := !isGroupChar c

/-- The address that a text spells, an opening bracket and apostrophes left out. -/
def spelled (text : List Char) : Option Address :=
  ipAddress (stripChars [apostrophe] (dropOptional '[' text))

/-- The address that a word **shows**: what stands behind its first `for=` spells it. -/
def shownIn (word : List Char) : Option Address := (word.tails.findSome? matchForEq).bind spelled

/-- A value as it is written, without its quotation marks. -/
def Value.inner : Value → List Char
  | token t => t.chars
  | quoted content => content.flatMap QuotedChar.written

/-- The address that a parameter **shows**. If its name ends in `for`, the beginning of its value
spells it; otherwise, or if that is none, it is the first that a word of the value shows. -/
def Pair.shown (p : Pair) : Option Address :=
  let text := p.value.inner
  if endsFor p.name.chars then
    (spelled (text.takeWhile isGroupChar)).or
      ((words isSeparator (text.dropWhile isGroupChar)).findSome? shownIn)
  else (words isSeparator text).findSome? shownIn

/-- The first parameter that shows an address **shows the first hop**, an address with the same
text; if there is no hop, none shows any. -/
def Header.ShowsFirstHop (h : Header) : Prop :=
  match h.firstHop with
  | none => ∀ p ∈ h.pairs, p.shown = none
  | some a => ∃ before p after, h.pairs = before ++ p :: after ∧
      (∀ q ∈ before, q.shown = none) ∧ p.shown.map Address.text = some a.text

/-! ### Characters -/

variable {c : Char}

theorem isGroupChar_of_isTchar (h : isTchar c = true) : isGroupChar c = true := by
  have hlt : c.toNat < 128 := by
    rcases Bool.or_eq_true_iff.mp h with h | h
    · exact toNat_lt_of_isAlphanum h
    · have hall : ∀ c ∈ tokenSigns, c.toNat < 128 := by
        simp [tokenSigns, apostrophe]
      exact hall c (contains_iff_mem.mp h)
  revert h
  exact forall_ascii (P := fun c => isTchar c = true → isGroupChar c = true) (by decide +kernel) c
    hlt

/-- The characters of nodes outside of brackets. -/
def isNodeChar (c : Char) : Bool := isObfChar c || c == ':'

theorem isGroupChar_of_isNodeChar (h : isNodeChar c = true) :
    isGroupChar c = true ∧ c ∉ ['=', '[', '%', apostrophe] := by
  have hlt : c.toNat < 128 := by
    simp only [isNodeChar, isObfChar, Bool.or_eq_true, beq_iff_eq] at h
    rcases h with (((h | rfl) | rfl) | rfl) | rfl
    · exact toNat_lt_of_isAlphanum h
    all_goals decide
  revert h
  exact forall_ascii
    (P := fun c => isNodeChar c = true → isGroupChar c = true ∧ c ∉ ['=', '[', '%', apostrophe])
    (by decide +kernel) c hlt

/-! ### The search goes through the parameters -/

theorem Blank.isGroupChar_char (b : Blank) : isGroupChar b.char = false ∧ b.char ≠ quote := by
  cases b <;> decide

theorem forGroups_blanks (blanks : List Blank) (t : List Char) :
    forGroups (blanks.map Blank.char ++ t) = forGroups t := by
  induction blanks with
  | nil => rfl
  | cons b blanks ih =>
    have hb := b.isGroupChar_char
    rw [map_cons, cons_append, ← ih]
    exact forGroups_append hb.1 _ [] fun h => absurd h hb.2

theorem forGroups_append_blanks (t : List Char) (blanks : List Blank) :
    forGroups (t ++ blanks.map Blank.char) = forGroups t := by
  cases blanks with
  | nil => rw [map_nil, append_nil]
  | cons b blanks =>
    have hb := b.isGroupChar_char
    have hnone := forGroups_blanks blanks []
    rw [append_nil] at hnone
    rw [map_cons, forGroups_append hb.1 _ t fun h => absurd h hb.2, hnone, forGroups_nil,
      append_nil]

theorem Token.eq_notMem (t : Token) : '=' ∉ t.chars := by
  intro h
  exact absurd (t.isTchar_of_mem _ h) (by decide)

/-- What the search finds in a parameter. -/
def Pair.readings (p : Pair) : List (List Char) :=
  if endsFor p.name.chars then afterFor p.value.written else forGroups p.value.written

theorem Element.forGroups_written (e : Element) :
    forGroups e.written = e.pairs.flatMap Pair.readings := by
  have hslots : ∀ slots : List (Option Pair),
      (slots.map fun slot => slot.elim [] Pair.written).flatMap forGroups =
        slots.reduceOption.flatMap Pair.readings := by
    intro slots
    induction slots with
    | nil => rfl
    | cons slot slots ih =>
      rw [map_cons, flatMap_cons, ih]
      cases slot with
      | none => rw [reduceOption_cons_of_none, Option.elim_none, forGroups_nil, nil_append]
      | some p =>
        rw [reduceOption_cons_of_some, flatMap_cons, Option.elim_some, Pair.written,
          forGroups_name p.name.eq_notMem, Pair.readings]
  rw [Element.written, forGroups_blanks, forGroups_append_blanks,
    forGroups_join (by decide) (by decide), hslots, Element.pairs]

theorem Header.forGroups_written (h : Header) :
    forGroups h.written = h.pairs.flatMap Pair.readings := by
  rw [Header.written, forGroups_join (by decide) (by decide), Header.pairs, flatMap_assoc,
    flatMap_map]
  exact congrArg h.flatMap (funext Element.forGroups_written)

theorem findSome_flatMap {α β γ : Type*} (l : List α) (f : α → List β) (g : β → Option γ) :
    (l.flatMap f).findSome? g = l.findSome? fun a => (f a).findSome? g := by
  induction l with
  | nil => rfl
  | cons a l ih =>
    rw [flatMap_cons, findSome?_append, ih, findSome?_cons]
    cases (f a).findSome? g <;> rfl

/-- **What the service reads** is the first address it finds in a parameter. -/
theorem forwardedHeaderAddress_written (h : Header) : forwardedHeaderAddress h.written =
      h.pairs.findSome? fun p => p.readings.findSome? candidateAddress := by
  rw [forwardedHeaderAddress, h.forGroups_written, findSome_flatMap]

/-! ### The search goes through the words -/

variable {text : List Char}

theorem matchGroup_eq_none (h : text.head?.all isSeparator = true) : matchGroup text = none := by
  cases text with
  | nil => rfl
  | cons c text =>
    have hc : isGroupChar c = false := by simpa using h
    rw [matchGroup, takeWhile_cons_of_neg (by simp [hc]), if_pos rfl]

/-- A match takes all that is left of a word. -/
theorem matchValue_eq {value word rest : List Char}
    (hvalue : dropOptional quote value = word ++ rest) (hne : word ≠ [])
    (hword : ∀ c ∈ word, isGroupChar c = true) (hrest : rest.head?.all isSeparator = true) :
    ∃ group, matchValue value = some (group, rest) ∧ candidateAddress group = spelled word := by
  have hmatch := matchGroup_append_of_all hne hword hrest
  rw [matchValue, hvalue, spelled]
  obtain ⟨c, word, rfl⟩ := exists_cons_of_ne_nil hne
  by_cases hbracket : c = '['
  · subst hbracket
    have hdrop : ∀ text : List Char, dropOptional '[' ('[' :: text) = text := fun _ => rfl
    rw [cons_append, hdrop, hdrop]
    cases word with
    | nil =>
      -- nothing stands behind the bracket, which then is the group itself
      rw [findSome?_cons, nil_append, matchGroup_eq_none hrest, findSome?_cons]
      exact ⟨['['], by rw [← singleton_append, hmatch], by decide⟩
    | cons d word =>
      have hword : ∀ c ∈ d :: word, isGroupChar c = true := fun c hc =>
        hword c (mem_cons_of_mem _ hc)
      rw [findSome?_cons, matchGroup_append_of_all (cons_ne_nil d word) hword hrest]
      exact ⟨_, rfl, candidateAddress_of_group hword⟩
  · have hdrop : ∀ text : List Char, dropOptional '[' (c :: text) = c :: text := fun _ =>
      if_neg fun h => hbracket (Option.some.inj h)
    rw [cons_append, hdrop, hdrop, findSome?_cons, ← cons_append, hmatch]
    exact ⟨_, rfl, candidateAddress_of_group hword⟩

/-- In a word the search finds what the word shows. -/
theorem findSome_forGroups_word (h : ∀ c ∈ text, isGroupChar c = true) :
    (forGroups text).findSome? candidateAddress = shownIn text := by
  induction text with
  | nil => rfl
  | cons c cs ih =>
    have hcs : ∀ c ∈ cs, isGroupChar c = true := fun d hd => h d (mem_cons_of_mem c hd)
    rw [shownIn, tails_cons, findSome?_cons]
    cases hfor : matchForEq (c :: cs) with
    | none =>
      rw [forGroups_of_none (by rw [matchFor, hfor]; rfl), ih hcs]
      rfl
    | some word =>
      obtain ⟨f, o, r, heq⟩ := matchForEq_eq_some hfor
      obtain ⟨rfl, rfl⟩ := cons.inj heq
      have hword : ∀ c ∈ word, isGroupChar c = true := fun d hd => hcs d (by simp [hd])
      rcases eq_or_ne word [] with rfl | hne
      · rw [forGroups_of_none (by rw [matchFor, hfor]; rfl)]
        rfl
      · have hparts := (dropOptional_of_notMem (quote_notMem hword)).trans (append_nil word).symm
        obtain ⟨group, hmatch, haddress⟩ := matchValue_eq hparts hne hword rfl
        rw [forGroups_of_match (by rw [matchFor, hfor]; exact hmatch), forGroups_nil,
          findSome?_singleton, haddress]
        rfl

theorem findSome_words_word (h : ∀ c ∈ text, isGroupChar c = true) :
    (words isSeparator text).findSome? shownIn = shownIn text := by
  rcases eq_or_ne text [] with rfl | hne
  · rw [words_nil]
    rfl
  · rw [words_of_forall hne (by simpa using h), findSome?_singleton]

/-- **The search goes through the words** of a text in which no quotation mark follows an equals
sign. -/
theorem findSome_forGroups (h : ¬ ['=', quote] <:+: text) :
    (forGroups text).findSome? candidateAddress = (words isSeparator text).findSome? shownIn := by
  induction hn : text.length using Nat.strong_induction_on generalizing text with
  | _ n ih =>
    have hword : ∀ c ∈ text.takeWhile isGroupChar, isGroupChar c = true :=
      fun c hc => mem_takeWhile_imp hc
    have hparts : text = text.takeWhile isGroupChar ++ text.dropWhile isGroupChar :=
      takeWhile_append_dropWhile.symm
    generalize text.takeWhile isGroupChar = word at hword hparts
    cases hrest : text.dropWhile isGroupChar with
    | nil =>
      rw [hrest, append_nil] at hparts
      rw [hparts, findSome_forGroups_word hword, findSome_words_word hword]
    | cons sep rest =>
      have hsep : isGroupChar sep = false := by
        have hhead := head?_dropWhile_not isGroupChar text
        rw [hrest] at hhead
        exact hhead
      rw [hrest] at hparts
      have hquote : sep = quote → rest = [] ∨ word.getLast? ≠ some '=' := by
        rintro rfl
        refine .inr fun hlast => h ?_
        obtain ⟨before, rfl⟩ := getLast?_eq_some_iff.mp hlast
        exact ⟨before, rest, by rw [hparts]; simp⟩
      have hin : ¬ ['=', quote] <:+: rest := fun hrest =>
        h (hrest.trans ⟨word ++ [sep], [], by rw [hparts]; simp⟩)
      have hlt : rest.length < n := by
        rw [← hn, hparts, length_append, length_cons]
        omega
      have hbreak : isSeparator sep = true := by rw [isSeparator, hsep]; rfl
      rw [hparts, forGroups_append hsep _ _ hquote, words_append_cons hbreak, findSome?_append,
        findSome?_append, findSome_forGroups_word hword, findSome_words_word hword,
        ih _ hlt hin rfl]

/-- Behind a quotation mark in a quoted string stands no equals sign: it is written as a pair. -/
theorem Value.inner_quote (value : Value) : ¬ ['=', quote] <:+: value.inner := by
  cases value with
  | token t =>
    exact fun h => t.eq_notMem (h.subset mem_cons_self)
  | quoted content =>
    change ¬ ['=', quote] <:+: content.flatMap QuotedChar.written
    induction content with
    | nil => decide
    | cons q content ih =>
      have hhead : ∀ c, ¬ [c, quote] <+: c :: content.flatMap QuotedChar.written := by
        intro c hc
        cases content with
        | nil => simp at hc
        | cons q content =>
          have hquote : [quote] <+: (q :: content).flatMap QuotedChar.written :=
            (cons_prefix_cons.mp hc).2
          cases q with
          | plain d hd =>
            obtain rfl := (cons_prefix_cons.mp hquote).1
            exact absurd hd (by decide)
          | pair d hd => exact absurd (cons_prefix_cons.mp hquote).1 (by decide)
      cases q with
      | plain d hd =>
        change ¬ ['=', quote] <:+: d :: content.flatMap QuotedChar.written
        rw [infix_cons_iff, not_or]
        refine ⟨fun hpre => ?_, ih⟩
        obtain rfl := (cons_prefix_cons.mp hpre).1
        exact hhead _ hpre
      | pair d hd =>
        change ¬ ['=', quote] <:+: backslash :: d :: content.flatMap QuotedChar.written
        rw [infix_cons_iff, infix_cons_iff, not_or, not_or]
        refine ⟨fun hpre => absurd (cons_prefix_cons.mp hpre).1 (by decide), fun hpre => ?_, ih⟩
        obtain rfl := (cons_prefix_cons.mp hpre).1
        exact hhead _ hpre

theorem Token.isGroupChar_of_mem (t : Token) : ∀ c ∈ t.chars, isGroupChar c = true :=
  fun c hc => isGroupChar_of_isTchar (t.isTchar_of_mem c hc)

theorem findSome_cons_or {group : List Char} {groups : List (List Char)} :
    (group :: groups).findSome? candidateAddress =
      (candidateAddress group).or (groups.findSome? candidateAddress) := by
  rw [findSome?_cons]
  cases candidateAddress group <;> rfl

/-- Behind `for=` the search takes the beginning of the value, and goes on. -/
theorem Value.findSome_afterFor (value : Value) :
    (afterFor value.written).findSome? candidateAddress =
      (spelled (value.inner.takeWhile isGroupChar)).or
        ((words isSeparator (value.inner.dropWhile isGroupChar)).findSome? shownIn) := by
  rw [← findSome_forGroups fun h => value.inner_quote (h.trans (dropWhile_suffix _).isInfix)]
  cases value with
  | token t =>
    have hword := t.isGroupChar_of_mem
    have hparts := (dropOptional_of_notMem (quote_notMem hword)).trans (append_nil t.chars).symm
    obtain ⟨group, hmatch, haddress⟩ := matchValue_eq hparts t.ne_nil hword rfl
    rw [Value.inner, takeWhile_eq_self_iff.mpr hword, dropWhile_eq_nil_iff.mpr hword,
      Value.written, afterFor, hmatch, findSome_cons_or, haddress]
  | quoted content =>
    let inner := content.flatMap QuotedChar.written
    have hword : ∀ c ∈ inner.takeWhile isGroupChar, isGroupChar c = true :=
      fun c hc => mem_takeWhile_imp hc
    have hrest : ((inner.dropWhile isGroupChar) ++ [quote]).head?.all isSeparator = true := by
      have hhead := head?_dropWhile_not isGroupChar inner
      cases hdrop : inner.dropWhile isGroupChar with
      | nil => decide
      | cons sep rest =>
        rw [hdrop] at hhead
        simpa using hhead
    have hclose : ∀ text, forGroups (text ++ [quote]) = forGroups text := fun text => by
      rw [forGroups_append (by decide) [] text fun _ => .inl rfl, forGroups_nil, append_nil]
    have hparts : dropOptional quote (Value.quoted content).written =
        inner.takeWhile isGroupChar ++ (inner.dropWhile isGroupChar ++ [quote]) := by
      rw [← append_assoc, takeWhile_append_dropWhile]
      rfl
    change _ = (spelled (inner.takeWhile isGroupChar)).or
      ((forGroups (inner.dropWhile isGroupChar)).findSome? candidateAddress)
    rcases eq_or_ne (inner.takeWhile isGroupChar) [] with hnil | hne
    · have hnone : matchValue (Value.quoted content).written = none := by
        rw [hnil, nil_append] at hparts
        have hbracket : dropOptional '[' (inner.dropWhile isGroupChar ++ [quote]) =
            inner.dropWhile isGroupChar ++ [quote] := by
          refine if_neg fun hhead => ?_
          rw [hhead] at hrest
          exact absurd hrest (by decide)
        rw [matchValue, hparts, hbracket, findSome?_cons, matchGroup_eq_none hrest, findSome?_cons,
          matchGroup_eq_none hrest]
        rfl
      have hopen : forGroups (Value.quoted content).written = forGroups (inner ++ [quote]) :=
        forGroups_append (by decide) _ [] fun _ => .inr (by decide)
      have hinner : inner.dropWhile isGroupChar = inner := by
        have hsplit := takeWhile_append_dropWhile (p := isGroupChar) (l := inner)
        rwa [hnil, nil_append] at hsplit
      rw [afterFor, hnone, hnil, hinner]
      change (forGroups (Value.quoted content).written).findSome? candidateAddress = _
      rw [hopen, hclose]
      rfl
    · obtain ⟨group, hmatch, haddress⟩ := matchValue_eq hparts hne hword hrest
      rw [afterFor, hmatch]
      change (group :: forGroups _).findSome? candidateAddress = _
      rw [findSome_cons_or, haddress, hclose]

/-- **What the search finds** in a parameter is what it shows. -/
theorem Pair.findSome_readings (p : Pair) : p.readings.findSome? candidateAddress = p.shown := by
  have hinner : (forGroups p.value.written).findSome? candidateAddress =
      (words isSeparator p.value.inner).findSome? shownIn := by
    rw [← findSome_forGroups p.value.inner_quote]
    cases p.value with
    | token t => rfl
    | quoted content =>
      rw [Value.written, ← nil_append (quote :: _), forGroups_append (by decide) _ [] fun _ =>
        .inr (by decide), forGroups_append (by decide) [] _ fun _ => .inl rfl, forGroups_nil,
        append_nil]
      rfl
  rw [Pair.readings, Pair.shown]
  split
  · exact p.value.findSome_afterFor
  · exact hinner

/-! ### Nodes are shown -/

theorem Value.inner_of_isPlain {value : Value} (h : value.isPlain = true) :
    value.inner = value.text := by
  cases value with
  | token t => rfl
  | quoted content =>
    rw [Value.isPlain, all_eq_true] at h
    rw [Value.inner, Value.text, ← flatMap_singleton' (content.map QuotedChar.char), flatMap_map]
    refine flatMap_congr fun q hq => ?_
    cases q with
    | plain c hc => rfl
    | pair c hc => exact absurd (h _ hq) Bool.false_ne_true

theorem NodePort.isObfChar_of_mem (p : NodePort) : ∀ c ∈ p.text, isObfChar c = true := by
  intro c hc
  cases p with
  | number digits _ hdigits => simp [isObfChar, Char.isAlphanum, hdigits c hc]
  | obfuscated name _ hchars =>
    rcases mem_cons.mp hc with rfl | hc
    · decide
    · exact hchars c hc

theorem isObfChar_of_mem_v4 (a : V4) : ∀ c ∈ a.text, isObfChar c = true := by
  intro c hc
  rcases V4.mem_text hc with rfl | ⟨d, hd, rfl⟩
  · decide
  · have hdigits : ∀ d < 10, isObfChar d.digitChar = true := by decide
    exact hdigits d hd

theorem isNodeChar_of_isV6Char (h : isV6Char c = true) : isNodeChar c = true := by
  simp only [isV6Char, isNodeChar, isObfChar, Bool.or_eq_true] at h ⊢
  tauto

/-- A character that no node has outside of brackets. -/
theorem notMem_of_isNodeChar (h : ∀ c ∈ text, isNodeChar c = true) :
    ∀ c ∈ ['=', '[', '%', apostrophe], c ∉ text :=
  fun c hc hmem => (isGroupChar_of_isNodeChar (h c hmem)).2 hc

theorem spelled_of_isNodeChar (h : ∀ c ∈ text, isNodeChar c = true) :
    spelled text = ipAddress text := by
  rw [spelled, dropOptional_of_notMem (notMem_of_isNodeChar h '[' (by simp)),
    stripChars_of_notMem (notMem_of_isNodeChar h apostrophe (by simp))]

section

variable {n : Node} (hchars : ∀ c ∈ n.name.text, isObfChar c = true)

include hchars

theorem Node.isNodeChar_of_mem : ∀ c ∈ n.text, isNodeChar c = true := by
  intro c hc
  rw [isNodeChar, Bool.or_eq_true, beq_iff_eq]
  rcases mem_append.mp hc with hc | hc
  · exact .inl (hchars c hc)
  · cases hport : n.port with
    | none => simp [hport] at hc
    | some p =>
      rw [hport, Option.elim_some, mem_cons] at hc
      exact hc.symm.imp_left (p.isObfChar_of_mem c)

theorem Node.length_splitOn_text : (n.text.splitOn ':').length < 3 := by
  have hcolon : isObfChar ':' = false := by decide
  have hname : ':' ∉ n.name.text := fun h => by
    rw [hchars _ h] at hcolon
    cases hcolon
  have hsplit : n.text.splitOn ':' = n.name.text :: (n.port.map NodePort.text).toList := by
    cases hport : n.port with
    | none =>
      have htext : n.text = join ':' [n.name.text] := by
        rw [join_singleton, Node.text, hport, Option.elim_none, append_nil]
      rw [htext]
      exact splitOn_intercalate ':' (by simpa using hname) (by simp)
    | some p =>
      have hp : ':' ∉ p.text := fun h => by
        rw [p.isObfChar_of_mem _ h] at hcolon
        cases hcolon
      have htext : n.text = join ':' [n.name.text, p.text] := by
        rw [join_cons ':' _ (by simp), join_singleton, Node.text, hport, Option.elim_some]
      rw [htext]
      exact splitOn_intercalate ':' (by simpa using ⟨hname, hp⟩) (by simp)
  rw [hsplit, length_cons]
  cases n.port <;> simp

theorem Node.ipAddress_eq_none {c : Char} (hc : c ∈ n.text) (hdot : c ≠ '.')
    (hdigit : c.isDigit = false) : ipAddress n.text = none := by
  have hscope : '%' ∉ n.text :=
    notMem_of_isNodeChar (Node.isNodeChar_of_mem hchars) '%' (by simp)
  rw [ipAddress, parseV4_eq_none hc hdot hdigit,
    parseV6_eq_none hscope (Node.length_splitOn_text hchars)]
  rfl

/-- A node without brackets is a word, and spells what its text does. -/
theorem Node.spelled_takeWhile : spelled (n.text.takeWhile isGroupChar) = ipAddress n.text := by
  have hnode := Node.isNodeChar_of_mem hchars
  rw [takeWhile_eq_self_iff.mpr fun c hc => (isGroupChar_of_isNodeChar (hnode c hc)).1,
    spelled_of_isNodeChar hnode]

end

/-- **An IPv6 node**: what stands in the brackets spells its address. -/
theorem spelled_takeWhile_v6 {spelling : List Char} (hchars : ∀ c ∈ spelling, isV6Char c = true)
    {a : V6} (h : parseV6 spelling = some a) (port : List Char) :
    spelled (('[' :: (spelling ++ [']']) ++ port).takeWhile isGroupChar) = some (.v6 a) := by
  have hnode : ∀ c ∈ spelling, isNodeChar c = true :=
    fun c hc => isNodeChar_of_isV6Char (hchars c hc)
  have hscope : '%' ∉ spelling := notMem_of_isNodeChar hnode '%' (by simp)
  have hcolon : ':' ∈ spelling := by
    by_contra hcolon
    have hsplit : (join ':' [spelling]).splitOn ':' = [spelling] :=
      splitOn_intercalate ':' (by simpa using hcolon) (by simp)
    rw [join_singleton] at hsplit
    rw [parseV6_eq_none hscope (by rw [hsplit]; simp)] at h
    cases h
  have hword : ('[' :: (spelling ++ [']']) ++ port).takeWhile isGroupChar = '[' :: spelling := by
    have hgroup : ∀ c ∈ '[' :: spelling, isGroupChar c = true := forall_mem_cons.mpr
      ⟨by decide, fun c hc => (isGroupChar_of_isNodeChar (hnode c hc)).1⟩
    have hparts : '[' :: (spelling ++ [']']) ++ port = ('[' :: spelling) ++ ']' :: port := by simp
    rw [hparts, takeWhile_append_of_pos hgroup, takeWhile_cons_of_neg (by decide), append_nil]
  have hinside : spelled ('[' :: spelling) = ipAddress spelling :=
    congrArg ipAddress (stripChars_of_notMem (notMem_of_isNodeChar hnode apostrophe (by simp)))
  rw [hword, hinside, ipAddress, parseV4_eq_none hcolon (by decide) (by decide), h]
  rfl

/-- **A node spells its address**, unless it is an IPv4 address with a port: then it spells none. -/
theorem Node.spelled_text (n : Node) :
    spelled (n.text.takeWhile isGroupChar) = if n.isPortedV4 then none else n.address := by
  obtain ⟨name, port⟩ := n
  cases name with
  | ipv4 a =>
    have hchars := isObfChar_of_mem_v4 a
    rw [Node.spelled_takeWhile (n := ⟨.ipv4 a, port⟩) hchars]
    cases port with
    | none =>
      have htext : (Node.mk (.ipv4 a) none).text = a.text := append_nil _
      rw [htext, ipAddress, parseV4_text]
      rfl
    | some p =>
      refine Node.ipAddress_eq_none (c := ':') hchars ?_ (by decide) (by decide)
      exact mem_append_right _ mem_cons_self
  | ipv6 spelling hchars a h => exact spelled_takeWhile_v6 hchars h _
  | unknown =>
    have hchars : ∀ c ∈ NodeName.unknown.text, isObfChar c = true := all_eq_true.mp rfl
    rw [Node.spelled_takeWhile (n := ⟨.unknown, port⟩) hchars]
    refine Node.ipAddress_eq_none (c := 'u') hchars ?_ (by decide) (by decide)
    exact mem_append_left _ mem_cons_self
  | obfuscated name hne hchars =>
    have hchars : ∀ c ∈ '_' :: name, isObfChar c = true :=
      forall_mem_cons.mpr ⟨by decide, hchars⟩
    rw [Node.spelled_takeWhile (n := ⟨.obfuscated name hne _, port⟩) hchars]
    refine Node.ipAddress_eq_none (c := '_') hchars ?_ (by decide) (by decide)
    exact mem_append_left _ mem_cons_self

theorem Node.eq_notMem (n : Node) : '=' ∉ n.text := by
  have hobf : ∀ s : List Char, (∀ c ∈ s, isObfChar c = true) → '=' ∉ s :=
    fun s hs h => absurd (hs _ h) (by decide)
  rw [Node.text, mem_append, not_or]
  constructor
  · cases n.name with
    | ipv4 a => exact hobf _ (isObfChar_of_mem_v4 a)
    | ipv6 spelling hchars a h =>
      have hspelling : '=' ∉ spelling := fun hmem => absurd (hchars _ hmem) (by decide)
      simp [NodeName.text, hspelling]
    | unknown => decide
    | obfuscated name hne hchars =>
      exact hobf _ (forall_mem_cons.mpr ⟨by decide, hchars⟩)
  · cases n.port with
    | none => exact not_mem_nil
    | some p =>
      rw [Option.elim_some, mem_cons, not_or]
      exact ⟨by decide, hobf _ p.isObfChar_of_mem⟩

/-- A `for` parameter without quoted pairs shows the address of its node, unless that is an IPv4
address with a port: then it shows none. -/
theorem Pair.shown_of_node {p : Pair} {n : Node} (hn : p.node? = some n)
    (hplain : p.value.isPlain = true) :
    p.shown = if n.isPortedV4 then none else n.address := by
  cases p with
  | other name hname value => cases hn
  | node name hname n value hvalue =>
    obtain rfl := Option.some.inj hn
    have hends : endsFor name.chars = true := by
      rw [endsFor, hname]
      rfl
    have hinner : value.inner = n.text := (Value.inner_of_isPlain hplain).trans hvalue
    have hrest : '=' ∉ n.text.dropWhile isGroupChar :=
      fun h => n.eq_notMem ((dropWhile_suffix _).subset h)
    have hnone : (words isSeparator (n.text.dropWhile isGroupChar)).findSome? shownIn = none := by
      rw [← findSome_forGroups fun h => hrest (h.subset mem_cons_self), forGroups_of_notMem hrest]
      rfl
    simp only [Pair.shown, Pair.name, Pair.value, hends, if_true, hinner, hnone, Option.or_none,
      n.spelled_text]

/-- **The `Forwarded` header**: the service returns the address of the first hop exactly if the
first parameter that shows an address shows that one. A `for` parameter without quoted pairs shows
the address of its node, but for an IPv4 address with a port. -/
theorem forwardedHeaderIp_eq_firstHop_iff (h : Header) :
    (forwardedHeaderIp h.written = h.firstHop.map Address.text ↔ h.ShowsFirstHop) ∧
    ∀ p ∈ h.pairs, ∀ n, p.node? = some n → p.value.isPlain = true →
      p.shown = if n.isPortedV4 then none else n.address := by
  refine ⟨?_, fun p _ n hn hplain => Pair.shown_of_node hn hplain⟩
  have hread : forwardedHeaderAddress h.written = h.pairs.findSome? Pair.shown := by
    rw [forwardedHeaderAddress_written]
    exact congrArg h.pairs.findSome? (funext Pair.findSome_readings)
  rw [forwardedHeaderIp, hread, Header.ShowsFirstHop]
  cases h.firstHop with
  | none => exact Option.map_eq_none_iff.trans findSome?_eq_none_iff
  | some a =>
    rw [Option.map_some, Option.map_eq_some_iff]
    simp only [findSome?_eq_some_iff, Option.map_eq_some_iff]
    constructor
    · rintro ⟨b, ⟨before, p, after, hpairs, hp, hbefore⟩, htext⟩
      exact ⟨before, p, after, hpairs, hbefore, b, hp, htext⟩
    · rintro ⟨before, p, after, hpairs, hbefore, b, hp, htext⟩
      exact ⟨b, ⟨before, p, after, hpairs, hp, hbefore⟩, htext⟩

/-- `for="192.0.2.43:47011", for=198.51.100.7`. -/
def portedHeader : Header :=
  let name : Token := ⟨"for".toList, by decide, List.all_eq_true.mp (by decide +kernel)⟩
  let client : Node :=
    ⟨.ipv4 ⟨[192, 0, 2, 43], rfl, by decide⟩,
      some (.number "47011".toList (by decide) (List.all_eq_true.mp (by decide +kernel)))⟩
  let proxy : Node := ⟨.ipv4 ⟨[198, 51, 100, 7], rfl, by decide⟩, none⟩
  let quoted : Value :=
    .quoted (client.text.pmap .plain (List.all_eq_true.mp (by decide +kernel)))
  let token : Value := .token
    ⟨proxy.text, by decide +kernel, List.all_eq_true.mp (by decide +kernel)⟩
  [⟨[], [some (.node name (by decide +kernel) client quoted (by decide +kernel))], [], by decide⟩,
    ⟨[.space], [some (.node name (by decide +kernel) proxy token rfl)], [], by decide⟩]

/-- The client behind the first proxy is there with a port, and the service returns the second
proxy's client in its place. -/
theorem portedHeader_returns_second_hop :
    portedHeader.written = "for=\"192.0.2.43:47011\", for=198.51.100.7".toList ∧
      portedHeader.firstHop.map Address.text = some "192.0.2.43".toList ∧
      forwardedHeaderIp portedHeader.written = some "198.51.100.7".toList := by
  decide +kernel

end ServiceToolkit.Forwarded
