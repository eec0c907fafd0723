import ServiceToolkit.Text

/-!
# Suppressions and the Untracked-TODO Rule

The architecture linter (`dev/arch_linter.py`) searches a file's lines for the patterns of its
rules. Before a rule is applied, a line is cut at its first hash, also where that hash starts no
comment: what stands in a comment no rule sees, and neither does the rule that wants an issue
reference on every line with a `TODO`.

The model is `check_file` up to the end of its table-driven rules. Patterns of the other rules, the
expression for suppressions and the classes of characters are parameters, and so is the comment of
each line.
-/

namespace ServiceToolkit.ArchLinter

open List Text

/-- What the expressions ask of characters. -/
structure Classes extends Unicode where
  /-- The same letter, in either case. -/
  same : Char → Char → Bool
  hash_not_word : isWord '#' = false
  space_not_word : ∀ c, isSpace c = true → isWord c = false

/-- Where `str.splitlines` breaks a text. -/
def isLineBreak (c : Char) : Bool :=
  let n := c.toNat
  (10 ≤ n && n ≤ 13) || (28 ≤ n && n ≤ 30) || n == 0x85 || n == 0x2028 || n == 0x2029

/-- `content.splitlines()`; reading the file has left no carriage return before a newline. -/
def splitlines : List Char → List (List Char)
  | [] => []
  | c :: rest =>
    if isLineBreak c then [] :: splitlines rest
    else
      match splitlines rest with
      | [] => [[c]]
      | line :: lines => (c :: line) :: lines

/-- `strip_comments`. -/
def stripComments (line : List Char) : List Char := (line.takeWhile (· != '#')).rdropWhile isSpace

/-- What a suppression names: every rule, or those with a code. -/
inductive Suppression
  | all
  | listed (codes : List String)

/-- A rule of the tables. -/
structure Rule where
  code : String
  name : String
  reason : String
  compiled : List Char → Bool
  trigger : Option (List Char → Bool)
  negativeTrigger : Option (List Char → Bool)
  excludeFiles : Option (List Char → Bool)

/-- The parts of the text of one error. -/
structure Report where
  path : List Char
  line : ℕ
  name : String
  reason : String
  text : List Char

section

variable (suppression : List Char → Option Suppression)

/-- The suppressions of all lines, up to one that names every rule. -/
def fileSuppression : List (List Char) → List String → Suppression
  | [], codes => .listed codes
  | line :: lines, codes =>
    match suppression line with
    | none => fileSuppression lines codes
    | some .all => .all
    | some (.listed more) => fileSuppression lines (codes ++ more)

/-- `_is_suppressed`. -/
def isSuppressed (code : String) (line : List Char) (codes : List String) : Bool :=
  code ∈ codes ||
    match suppression line with
    | none => false
    | some .all => true
    | some (.listed more) => code ∈ more

/-- The errors of one rule. -/
def checkRule (path content : List Char) (codes : List String) (rule : Rule) : List Report :=
  if rule.code ∈ codes then []
  else if rule.compiled content = false then []
  else if rule.excludeFiles.any (· path) then []
  else if rule.trigger.any (! · content) then []
  else
    (splitlines content).zipIdx.filterMap fun (line, i) =>
      let cleanLine := stripComments line
      if isSuppressed suppression rule.code line codes then none
      else if rule.compiled cleanLine && !rule.negativeTrigger.any (· cleanLine) then
        some ⟨path, i + 1, rule.name, rule.reason, strip line⟩
      else none

/-- `check_file`, as far as the rules of the tables go. -/
def checkFile (rules : List Rule) (path content : List Char) : List Report :=
  match fileSuppression suppression (splitlines content) [] with
  | .all => []
  | .listed codes => rules.flatMap (checkRule suppression path content codes)

end

/-! ### Suppressions -/

theorem fileSuppression_spec (suppression : List Char → Option Suppression)
    (lines : List (List Char)) (codes : List String) :
    (fileSuppression suppression lines codes = .all ∧
      ∃ line ∈ lines, suppression line = some .all) ∨
    ∃ found, fileSuppression suppression lines codes = .listed found ∧
      ∀ code, code ∈ found ↔
        code ∈ codes ∨ ∃ line ∈ lines, isSuppressed suppression code line [] = true := by
  induction lines generalizing codes with
  | nil => exact .inr ⟨codes, rfl, by simp⟩
  | cons line lines ih =>
    rw [fileSuppression]
    cases hline : suppression line with
    | none => simpa [isSuppressed, hline] using ih codes
    | some named =>
      cases named with
      | all => exact .inl ⟨rfl, line, mem_cons_self, hline⟩
      | listed more => simpa [isSuppressed, hline, or_assoc] using ih (codes ++ more)

theorem checkRule_eq {suppression : List Char → Option Suppression} {path content : List Char}
    {codes : List String} {rule : Rule} (hcode : rule.code ∉ codes)
    (hlines : ∀ line ∈ splitlines content, isSuppressed suppression rule.code line [] = false) :
    checkRule suppression path content codes rule =
      checkRule (fun _ => none) path content [] rule := by
  have hnone : ∀ line ∈ splitlines content,
      isSuppressed suppression rule.code line codes =
        isSuppressed (fun _ => none) rule.code line [] := by
    intro line hmem
    have h := hlines line hmem
    simp only [isSuppressed, not_mem_nil, decide_false, Bool.false_or] at h ⊢
    rw [h, Bool.or_false, decide_eq_false hcode]
  rw [checkRule, checkRule, if_neg hcode, if_neg not_mem_nil]
  iterate 3 refine if_congr .rfl rfl ?_
  refine filterMap_congr fun p hp => ?_
  obtain ⟨line, i⟩ := p
  simp only [hnone line (fst_mem_of_mem_zipIdx hp)]

/-- **A suppression holds for the whole file**: whatever line it stands on, the rules it names
report nothing, and all others report what they do without any suppression. -/
theorem checkFile_suppressed (suppression : List Char → Option Suppression) (rules : List Rule)
    (path content : List Char) : checkFile suppression rules path content =
      (rules.filter fun rule => (splitlines content).all fun line =>
        !isSuppressed suppression rule.code line []).flatMap
          (checkRule (fun _ => none) path content []) := by
  rw [checkFile]
  rcases fileSuppression_spec suppression (splitlines content) [] with
    ⟨hall, line, hline, hs⟩ | ⟨found, hfound, hcodes⟩
  · have hnil : (rules.filter fun rule => (splitlines content).all fun line =>
        !isSuppressed suppression rule.code line []) = [] := by
      refine filter_eq_nil_iff.mpr fun rule _ h => ?_
      have hnot := all_eq_true.mp h line hline
      rw [isSuppressed, hs] at hnot
      cases hnot
    rw [hall, hnil]
    rfl
  · rw [hfound]
    dsimp only
    induction rules with
    | nil => rfl
    | cons rule rules ih =>
      have hcode := hcodes rule.code
      rw [flatMap_cons, ih, filter_cons]
      split
      · rename_i hlines
        simp only [all_eq_true, Bool.not_eq_true'] at hlines
        have hnot : rule.code ∉ found := by
          simpa [hcode] using hlines
        rw [flatMap_cons, checkRule_eq hnot hlines]
      · rename_i hlines
        have hmem : rule.code ∈ found := by
          simpa [hcode] using hlines
        rw [checkRule, if_pos hmem, nil_append]

/-! ### The rule -/

section

variable (C : Classes)

/-- A word may end next to this character, or at the end of the text. -/
def Classes.edge (c? : Option Char) : Bool := c?.all fun c => !C.isWord c

/-- `\bTODO\b|\bFIXME\b`. -/
def hasWord (s : List Char) : Bool :=
  (range s.length).any fun i => C.edge (s.take i).getLast? &&
    ["TODO".toList, "FIXME".toList].any fun w =>
      w.isPrefixOf (s.drop i) && C.edge (s.drop (i + w.length)).head?

/-- The text behind a literal, in either case. -/
def Classes.behind : List Char → List Char → Option (List Char)
  | [], s => some s
  | p :: ps, c :: s => if C.same p c then behind ps s else none
  | _ :: _, [] => none

/-- What an issue reference starts with, and whether a digit has to follow. -/
def references : List (List Char × Bool) :=
  [("LP-".toList, true), ("http://".toList, false), ("https://".toList, false), ("#".toList, true)]

/-- An issue reference starts here. -/
def startsReference (s : List Char) : Bool :=
  references.any fun (p, digit) =>
    (C.behind p s).any fun r => !digit || (r.head?.bind C.digit).isSome

/-- `LP-\d+|https?://|#\d+`. -/
def hasReference (s : List Char) : Bool := s.tails.any (startsReference C)

/-- The last rule of `FORBIDDEN_GLOBAL`. -/
def untrackedTodo : Rule where
  code := "untracked-todo"
  name := "Untracked TODO"
  reason := "TODO/FIXME must have a reference to an issue (LP-123) or URL."
  compiled := hasWord C
  trigger := none
  negativeTrigger := some (hasReference C)
  excludeFiles := none

/-- The tables, with the rules before and behind; none has its name. -/
structure RuleTable where
  front : List Rule
  back : List Rule
  named : ∀ rule ∈ front ++ back, rule.name ≠ (untrackedTodo C).name

/-- `FORBIDDEN_GLOBAL + CONDITIONALLY_FORBIDDEN`. -/
def RuleTable.rules (table : RuleTable C) : List Rule :=
  table.front ++ untrackedTodo C :: table.back

end

/-! ### Parts of a text -/

section

variable {C : Classes} {s : List Char}

theorem hasWord_iff : hasWord C s = true ↔ ∃ a w b, s = a ++ w ++ b ∧
    w ∈ ["TODO".toList, "FIXME".toList] ∧ C.edge a.getLast? = true ∧ C.edge b.head? = true := by
  simp only [hasWord, any_eq_true, mem_range, Bool.and_eq_true, isPrefixOf_iff_prefix]
  constructor
  · rintro ⟨i, -, hleft, w, hw, ⟨r, hr⟩, hright⟩
    rw [← drop_drop, ← hr, drop_left] at hright
    exact ⟨s.take i, w, r, by rw [append_assoc, hr, take_append_drop], hw, hleft, hright⟩
  · rintro ⟨a, w, b, rfl, hw, hleft, hright⟩
    refine ⟨a.length, ?_, ?_, w, hw, ?_, ?_⟩
    · have hpos : 0 < w.length := by
        revert w
        decide
      simp only [length_append]
      omega
    · rwa [append_assoc, take_left]
    · rw [append_assoc, drop_left]
      exact prefix_append w b
    · rwa [← length_append, drop_left]

/-- A word of a part is a word of the text, if the part ends where words may. -/
theorem hasWord_append {x y : List Char} (hx : C.edge x.getLast? = true)
    (hy : C.edge y.head? = true) (h : hasWord C s = true) : hasWord C (x ++ s ++ y) = true := by
  obtain ⟨a, w, b, rfl, hw, hleft, hright⟩ := hasWord_iff.mp h
  refine hasWord_iff.mpr ⟨x ++ a, w, b ++ y, by simp, hw, ?_, ?_⟩
  · rw [getLast?_append]
    cases ha : a.getLast? with
    | none => exact hx
    | some c => rwa [ha] at hleft
  · rw [head?_append]
    cases hb : b.head? with
    | none => exact hy
    | some c => rwa [hb] at hright

theorem Classes.behind_append {p s r : List Char} (y : List Char) (h : C.behind p s = some r) :
    C.behind p (s ++ y) = some (r ++ y) := by
  fun_induction Classes.behind C p s with
  | case1 s =>
    cases h
    rfl
  | case2 p ps c s hsame ih =>
    rw [cons_append, Classes.behind, if_pos hsame]
    exact ih h
  | case3 | case4 => cases h

theorem startsReference_append (y : List Char) (h : startsReference C s = true) :
    startsReference C (s ++ y) = true := by
  simp only [startsReference, any_eq_true, Option.any_eq_true] at h ⊢
  obtain ⟨⟨p, digit⟩, hmem, r, hr, hdigit⟩ := h
  refine ⟨(p, digit), hmem, r ++ y, C.behind_append y hr, ?_⟩
  cases r with
  | nil => simp_all
  | cons c r => exact hdigit

theorem hasReference_append (y : List Char) (h : hasReference C s = true) :
    hasReference C (s ++ y) = true := by
  simp only [hasReference, any_eq_true, mem_tails] at h ⊢
  obtain ⟨t, ⟨x, rfl⟩, ht⟩ := h
  exact ⟨t ++ y, ⟨x, (append_assoc ..).symm⟩, startsReference_append y ht⟩

theorem stripComments_append (C : Classes) (line : List Char) :
    ∃ y, line = stripComments line ++ y ∧ C.edge y.head? = true := by
  refine ⟨(line.takeWhile (· != '#')).rtakeWhile isSpace ++ line.dropWhile (· != '#'), ?_, ?_⟩
  · rw [stripComments, ← append_assoc, rdropWhile, rtakeWhile, ← reverse_append,
      takeWhile_append_dropWhile, reverse_reverse, takeWhile_append_dropWhile]
  · rw [head?_append]
    cases hspace : ((line.takeWhile (· != '#')).rtakeWhile isSpace).head? with
    | none =>
      have hhash := head?_dropWhile_not (· != '#') line
      cases hrest : (line.dropWhile (· != '#')).head? with
      | none => rfl
      | some c =>
        rw [hrest] at hhash
        obtain rfl : c = '#' := by simpa using hhash
        simp [Classes.edge, C.hash_not_word]
    | some c =>
      have hc : isSpace c = true := mem_rtakeWhile_imp (mem_of_mem_head? hspace)
      simp [Classes.edge, C.space_not_word c hc]

theorem isLineBreak_not_word {c : Char} (h : isLineBreak c = true) : C.isWord c = false := by
  refine C.space_not_word c ?_
  simp only [isLineBreak, isSpace, Bool.or_eq_true, Bool.and_eq_true, decide_eq_true_eq,
    beq_iff_eq] at h ⊢
  omega

theorem splitlines_eq_nil (h : splitlines s = []) : s = [] := by
  cases s with
  | nil => rfl
  | cons c rest =>
    rw [splitlines] at h
    split at h
    · cases h
    · split at h <;> cases h

/-- The first line ends with the text or at a line break, behind which the other lines are. -/
theorem splitlines_eq_cons {line : List Char} {lines : List (List Char)}
    (h : splitlines s = line :: lines) : ∃ y, s = line ++ y ∧
      ((y = [] ∧ lines = []) ∨
        ∃ c rest, y = c :: rest ∧ isLineBreak c = true ∧ splitlines rest = lines) := by
  induction s generalizing line with
  | nil => cases h
  | cons c rest ih =>
    rw [splitlines] at h
    split at h
    · rename_i hbreak
      cases h
      exact ⟨c :: rest, rfl, Or.inr ⟨c, rest, rfl, hbreak, rfl⟩⟩
    · split at h
      · rename_i hnil
        cases h
        exact ⟨[], by rw [splitlines_eq_nil hnil]; rfl, Or.inl ⟨rfl, rfl⟩⟩
      · rename_i hrest
        cases h
        obtain ⟨y, rfl, hy⟩ := ih hrest
        exact ⟨y, rfl, hy⟩

theorem hasWord_of_mem_splitlines {line : List Char} (h : line ∈ splitlines s)
    (hword : hasWord C line = true) : hasWord C s = true := by
  generalize hlines : splitlines s = lines at h
  induction lines generalizing s with
  | nil => cases h
  | cons first lines ih =>
    obtain ⟨y, rfl, hy⟩ := splitlines_eq_cons hlines
    rcases hy with ⟨rfl, rfl⟩ | ⟨c, rest, rfl, hbreak, hrest⟩
    · obtain rfl := mem_singleton.mp h
      rwa [append_nil]
    · have hc : C.edge (some c) = true := by simp [Classes.edge, isLineBreak_not_word hbreak]
      rcases mem_cons.mp h with rfl | h
      · exact hasWord_append (x := []) rfl hc hword
      · have := hasWord_append (x := first ++ [c]) (y := []) (by rwa [getLast?_concat]) rfl
          (ih hrest h)
        rwa [append_nil, append_assoc] at this

theorem hasWord_of_stripComments {line : List Char} (h : hasWord C (stripComments line) = true) :
    hasWord C line = true := by
  obtain ⟨y, hy, hedge⟩ := stripComments_append C line
  have hword := hasWord_append (x := []) rfl hedge h
  rwa [nil_append, ← hy] at hword

end

/-! ### Comments -/

section

variable {C : Classes} (suppression : List Char → Option Suppression) (table : RuleTable C)
  (path content : List Char)

/-- The rule reports the line with index `i`. -/
def Reported (i : ℕ) : Prop :=
  ∃ r ∈ checkFile suppression table.rules path content,
    r.name = (untrackedTodo C).name ∧ r.line = i + 1

/-- The rule **sees comments**, where `comment` is what each line has as its comment. -/
structure SeesComments (comment : ℕ → List Char) : Prop where
  found : ∀ i line, (splitlines content)[i]? = some line → hasWord C (comment i) = true →
    hasReference C line = false → Reported suppression table path content i
  tracked : ∀ i line, (splitlines content)[i]? = some line → hasWord C line = true →
    hasReference C line = true → ¬ Reported suppression table path content i

variable {suppression table path content}

theorem fileSuppression_of_none {lines : List (List Char)} {codes : List String}
    (h : ∀ line ∈ lines, suppression line = none) :
    fileSuppression suppression lines codes = .listed codes := by
  induction lines with
  | nil => rfl
  | cons line lines ih =>
    rw [fileSuppression, h line mem_cons_self]
    exact ih fun l hl => h l (mem_cons_of_mem _ hl)

theorem name_of_mem_checkRule {codes : List String} {rule : Rule} {r : Report}
    (h : r ∈ checkRule suppression path content codes rule) : r.name = rule.name := by
  unfold checkRule at h
  split_ifs at h
  iterate 4 cases h
  obtain ⟨⟨line, i⟩, -, hr⟩ := mem_filterMap.mp h
  dsimp only at hr
  split_ifs at hr
  cases hr
  rfl

theorem reported_iff (hnone : ∀ line ∈ splitlines content, suppression line = none) {i : ℕ} :
    Reported suppression table path content i ↔ ∃ line, (splitlines content)[i]? = some line ∧
      hasWord C (stripComments line) = true ∧ hasReference C (stripComments line) = false := by
  have hrules : ∀ rule ∈ table.rules, rule.name = (untrackedTodo C).name →
      rule = untrackedTodo C := by
    intro rule hmem hname
    simp only [RuleTable.rules, mem_append, mem_cons] at hmem
    rcases hmem with hmem | rfl | hmem
    · exact absurd hname (table.named rule (mem_append_left _ hmem))
    · rfl
    · exact absurd hname (table.named rule (mem_append_right _ hmem))
  simp only [Reported, checkFile, fileSuppression_of_none hnone, mem_flatMap]
  constructor
  · rintro ⟨r, ⟨rule, hmem, hr⟩, hname, hline⟩
    obtain rfl := hrules rule hmem (name_of_mem_checkRule hr ▸ hname)
    unfold checkRule at hr
    split_ifs at hr
    iterate 4 cases hr
    obtain ⟨⟨line, j⟩, hj, hr⟩ := mem_filterMap.mp hr
    dsimp only at hr
    split_ifs at hr with hsup hfound
    cases hr
    obtain rfl : j = i := Nat.succ_injective hline
    refine ⟨line, mem_zipIdx_iff_getElem?.mp hj, ?_⟩
    simpa [untrackedTodo] using hfound
  · rintro ⟨line, hline, hword, href⟩
    refine ⟨⟨path, i + 1, _, (untrackedTodo C).reason, strip line⟩,
      ⟨untrackedTodo C, by simp [RuleTable.rules], ?_⟩, rfl, rfl⟩
    have hsup : isSuppressed suppression (untrackedTodo C).code line [] = false := by
      simp [isSuppressed, hnone line (mem_of_getElem? hline)]
    have hfile : hasWord C content = true :=
      hasWord_of_mem_splitlines (mem_of_getElem? hline) (hasWord_of_stripComments hword)
    have hmem : (line, i) ∈ (splitlines content).zipIdx := mem_zipIdx_iff_getElem?.mpr hline
    simp only [checkRule, untrackedTodo, not_mem_nil, if_false, hfile, Option.any_none,
      Bool.false_eq_true, Bool.true_eq_false]
    exact mem_filterMap.mpr ⟨(line, i), hmem, by simp_all [untrackedTodo]⟩

/-- **Without suppressions** the rule sees comments exactly if, on every line, a word in the comment
has another one before the first hash, unless the line has a reference, and a word before the first
hash has a reference there as well, if the line has any. -/
theorem seesComments_iff (suppression : List Char → Option Suppression) (table : RuleTable C)
    (path content : List Char) (comment : ℕ → List Char)
    (hnone : ∀ line ∈ splitlines content, suppression line = none) :
    SeesComments suppression table path content comment ↔
      ∀ i line, (splitlines content)[i]? = some line →
        (hasWord C (comment i) = true → hasReference C line = false →
          hasWord C (stripComments line) = true) ∧
        (hasWord C (stripComments line) = true → hasReference C line = true →
          hasReference C (stripComments line) = true) := by
  constructor
  · intro h i line hline
    refine ⟨fun hword href => ?_, fun hword href => ?_⟩
    · obtain ⟨line', hline', hfound, -⟩ := (reported_iff hnone).mp (h.found i line hline hword href)
      obtain rfl : line = line' := Option.some.inj (hline.symm.trans hline')
      exact hfound
    · by_contra hclean
      exact h.tracked i line hline (hasWord_of_stripComments hword) href
        ((reported_iff hnone).mpr ⟨line, hline, hword, by simpa using hclean⟩)
  · intro h
    refine ⟨fun i line hline hword href => ?_, fun i line hline hword href hrep => ?_⟩
    · refine (reported_iff hnone).mpr ⟨line, hline, (h i line hline).1 hword href, ?_⟩
      by_contra hclean
      obtain ⟨z, hz, -⟩ := stripComments_append C line
      have hsome := hasReference_append z (by simpa using hclean)
      rw [← hz, href] at hsome
      cases hsome
    · obtain ⟨line', hline', hfound, hclean⟩ := (reported_iff hnone).mp hrep
      obtain rfl : line = line' := Option.some.inj (hline.symm.trans hline')
      rw [(h i line hline).2 hfound href] at hclean
      cases hclean

end

/-- The classes restricted to ASCII. -/
def Classes.ascii : Classes where
  toUnicode := .ascii
  same c d := c.toLower == d.toLower
  hash_not_word := rfl
  space_not_word c h := by
    simp only [Unicode.ascii, Char.isAlphanum, Bool.or_eq_false_iff, beq_eq_false_iff_ne]
    refine ⟨⟨?_, ?_⟩, ?_⟩
    · exact Bool.eq_false_iff.mpr fun hc => by simp [isSpace_of_isAlpha hc] at h
    · exact Bool.eq_false_iff.mpr fun hc => by simp [isSpace_of_isDigit hc] at h
    · rintro rfl
      cases h

/-- A table with this rule alone. -/
def onlyTodo : RuleTable .ascii := ⟨[], [], by simp⟩

theorem seesComments_found :
    SeesComments (fun _ => none) onlyTodo [] "x = 'TODO'  # TODO: later".toList
      (fun _ => "# TODO: later".toList) := by
  refine (seesComments_iff _ _ _ _ _ fun _ _ => rfl).mpr fun i line hline => ?_
  cases i with
  | zero =>
    cases hline
    decide +kernel
  | succ i => cases hline

/-- A word only in the comment is not found; a reference in the comment does not count for a word
before it. -/
theorem comment_not_seen :
    ¬ SeesComments (fun _ => none) onlyTodo [] "x = 1  # TODO: later".toList
        (fun _ => "# TODO: later".toList) ∧
      ¬ SeesComments (fun _ => none) onlyTodo [] "x = 'TODO'  # LP-12".toList
        (fun _ => "# LP-12".toList) := by
  refine ⟨fun h => ?_, fun h => ?_⟩
  · obtain ⟨line, hline, hword, -⟩ := (reported_iff fun _ _ => rfl).mp
      (h.found 0 _ rfl (by decide +kernel) (by decide +kernel))
    cases hline
    revert hword
    decide +kernel
  · refine h.tracked 0 _ rfl (by decide +kernel) (by decide +kernel) ?_
    exact (reported_iff fun _ _ => rfl).mpr ⟨_, rfl, by decide +kernel, by decide +kernel⟩

end ServiceToolkit.ArchLinter
