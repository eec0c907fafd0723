import ServiceToolkit.Projection

/-!
# Response Projections

`ProjectionSpec` is what a client asks of a response: the fields it wants, what it wants
included and what it wants left out. `has`, `includes`, `needs` and `excludes_path` answer for
a path, `child` narrows the projection to the fields below a prefix for a nested serializer,
and `restrict_to` to an allowed area.

Unlike a policy, a projection keeps the entries it is given. A path that is asked about is
normalised, an entry is compared as it stands, by the **parts** between its full stops; only
when an entry is itself tested for exclusion is it normalised first.
-/

namespace ServiceToolkit.Projection

open ServiceToolkit.Text ServiceToolkit.Paths List

/-! ### The model -/

/-- `ProjectionSpec`. Nothing normalises its entries. -/
structure ProjectionSpec where
  fields : Finset (List Char)
  included : Finset (List Char)
  exclude : Finset (List Char)
  fieldRestricted : Bool

namespace ProjectionSpec

variable (U : Unicode)

/-- `ProjectionSpec.excludes_path`. -/
def excludesPath (spec : ProjectionSpec) (path : List Char) : Bool :=
  let normalized := normalizePath U path
  if normalized = [] then false
  else decide (∃ excluded ∈ spec.exclude, isSameOrDescendant normalized excluded)

/-- `ProjectionSpec.has`. -/
def has (spec : ProjectionSpec) (path : List Char) : Bool :=
  let normalized := normalizePath U path
  if normalized = [] then false
  else if spec.excludesPath U normalized then false
  else if !spec.fieldRestricted then true
  else decide (normalized ∈ spec.fields) || decide (normalized ∈ spec.included)

/-- `ProjectionSpec.includes`. -/
def includes (spec : ProjectionSpec) (path : List Char) : Bool :=
  let normalized := normalizePath U path
  if normalized = [] then false
  else decide (∃ requested ∈ spec.included,
    pathsRelated requested normalized ∧ ¬ spec.excludesPath U requested)

/-- `ProjectionSpec.needs`. -/
def needs (spec : ProjectionSpec) (path : List Char) : Bool :=
  let normalized := normalizePath U path
  if normalized = [] then false
  else if spec.excludesPath U normalized then false
  else if !spec.fieldRestricted then true
  else decide (∃ entry ∈ spec.fields ∪ spec.included,
    pathsRelated entry normalized ∧ ¬ spec.excludesPath U entry)

/-- `ProjectionSpec.restrict_to`. -/
def restrictTo (spec : ProjectionSpec) (allowedPaths : Finset (List Char)) : ProjectionSpec :=
  let normalizedAllowed := normalizePaths U allowedPaths
  if normalizedAllowed = ∅ then ⟨∅, ∅, ∅, spec.fieldRestricted⟩
  else
    let keep := fun paths : Finset (List Char) => paths.filter fun path =>
      ∃ allowed ∈ normalizedAllowed, pathsRelated path allowed
    ⟨keep spec.fields, keep spec.included, keep spec.exclude, spec.fieldRestricted⟩

/-- `ProjectionSpec.child`. A field that is the prefix lifts the restriction; among the included
and excluded entries it is kept as it is, as a policy's `_trim` does. -/
def child (spec : ProjectionSpec) (parent : List Char) : ProjectionSpec :=
  let normalizedPrefix := normalizePath U parent
  if normalizedPrefix = [] then spec
  else if ¬ spec.fieldRestricted ∧ spec.included = ∅ ∧ spec.exclude = ∅ then spec
  else
    { fields := ResponsePolicy.trim normalizedPrefix (spec.fields.erase normalizedPrefix)
      included := ResponsePolicy.trim normalizedPrefix spec.included
      exclude := ResponsePolicy.trim normalizedPrefix spec.exclude
      fieldRestricted := spec.fieldRestricted && !decide (normalizedPrefix ∈ spec.fields) }

end ProjectionSpec

/-! ### Parts of a text -/

/-- The **parts** of a text between its full stops, as they stand. -/
def parts (path : List Char) : List (List Char) := path.splitOn '.'

/-- Parts as normalising leaves them. -/
def clean (U : Unicode) (ps : List (List Char)) : List (List Char) :=
  (ps.map fun part => U.lower (strip part)).filter (· ≠ [])

variable {U : Unicode}

theorem segments_eq_clean (path : List Char) : segments U path = clean U (parts path) := rfl

theorem parts_ne_nil (path : List Char) : parts path ≠ [] := splitOn_ne_nil '.' path

theorem clean_append (a b : List (List Char)) : clean U (a ++ b) = clean U a ++ clean U b := by
  rw [clean, map_append, filter_append]
  rfl

theorem clean_of_normal {ps : List (List Char)} (h : ∀ s ∈ ps, NormalSegment U s) :
    clean U ps = ps := by
  rw [clean, map_congr_left fun s hs => (h s hs).fixed, map_id', filter_eq_self]
  exact fun s hs => by simpa using (h s hs).ne_nil

theorem parts_normalizePath {path : List Char} (hne : segments U path ≠ []) :
    parts (normalizePath U path) = segments U path :=
  splitOn_join (valid_segments path) hne

theorem clean_of_starts {path : List Char} {ps : List (List Char)} (h : ps <+: segments U path) :
    clean U ps = ps :=
  clean_of_normal fun _ hs => normalSegment_of_mem_segments (h.subset hs)

/-- **A text comes at or below another** exactly when its parts start with the other's. -/
theorem isSameOrDescendant_iff {value parent : List Char} :
    isSameOrDescendant value parent = true ↔ parts parent <+: parts value := by
  rw [isSameOrDescendant, Bool.or_eq_true, decide_eq_true_eq, isPrefixOf_iff_prefix,
    sep_prefix_iff]
  constructor
  · rintro (rfl | ⟨rest, -, h⟩)
    · exact prefix_rfl
    · exact ⟨rest, h.symm⟩
  · rintro ⟨rest, h⟩
    by_cases hrest : rest = []
    · rw [hrest, append_nil] at h
      exact .inl (splitOn_inj.mp h.symm)
    · exact .inr ⟨rest, hrest, h.symm⟩

theorem pathsRelated_iff {left right : List Char} :
    pathsRelated left right = true ↔ Related (parts left) (parts right) := by
  rw [pathsRelated, Bool.or_eq_true, isSameOrDescendant_iff, isSameOrDescendant_iff, Related,
    or_comm]

/-! ### The queries -/

/-- An excluded entry starts the segments. -/
def Excluded (spec : ProjectionSpec) (N : List (List Char)) : Prop :=
  ∃ excluded ∈ spec.exclude, parts excluded <+: N

/-- A requested entry that is not itself excluded is related to the segments. -/
def Wanted (U : Unicode) (spec : ProjectionSpec) (requested : Finset (List Char))
    (N : List (List Char)) : Prop :=
  ∃ entry ∈ requested, Related (parts entry) N ∧ ¬ Excluded spec (segments U entry)

section

variable {spec : ProjectionSpec} {path : List Char}

theorem excludesPath_iff : spec.excludesPath U path = true ↔ Excluded spec (segments U path) := by
  by_cases hnil : segments U path = []
  · simp only [ProjectionSpec.excludesPath, normalizePath_eq_nil_iff, hnil, if_true,
      Bool.false_eq_true, false_iff]
    rintro ⟨excluded, -, h⟩
    exact parts_ne_nil excluded (prefix_nil.mp h)
  · simp only [ProjectionSpec.excludesPath, normalizePath_eq_nil_iff, hnil, if_false,
      decide_eq_true_eq, isSameOrDescendant_iff, parts_normalizePath hnil]
    rfl

theorem excludesPath_normalizePath :
    spec.excludesPath U (normalizePath U path) = spec.excludesPath U path := by
  rw [Bool.eq_iff_iff, excludesPath_iff, excludesPath_iff, segments_normalizePath]

theorem wanted_iff (requested : Finset (List Char)) (hne : segments U path ≠ []) :
    (∃ entry ∈ requested, pathsRelated entry (normalizePath U path) = true ∧
        ¬ spec.excludesPath U entry = true) ↔ Wanted U spec requested (segments U path) := by
  simp only [pathsRelated_iff, parts_normalizePath hne, excludesPath_iff]
  rfl

/-- **A path is needed** when it is not excluded and, if the fields are restricted, a requested
entry is related to it. -/
theorem needs_iff : spec.needs U path = true ↔ segments U path ≠ [] ∧
    ¬ Excluded spec (segments U path) ∧
    (spec.fieldRestricted = false ∨
      Wanted U spec (spec.fields ∪ spec.included) (segments U path)) := by
  by_cases hnil : segments U path = []
  · simp [ProjectionSpec.needs, normalizePath_eq_nil_iff, hnil]
  · rw [← wanted_iff _ hnil, ← excludesPath_iff]
    simp only [ProjectionSpec.needs, normalizePath_eq_nil_iff, hnil, if_false,
      excludesPath_normalizePath]
    cases spec.excludesPath U path <;> cases spec.fieldRestricted <;> simp [hnil]

/-- **A path is had** when it is not excluded and, if the fields are restricted, it is an
entry. -/
theorem has_iff : spec.has U path = true ↔ segments U path ≠ [] ∧
    ¬ Excluded spec (segments U path) ∧
    (spec.fieldRestricted = false ∨ normalizePath U path ∈ spec.fields ∪ spec.included) := by
  by_cases hnil : segments U path = []
  · simp [ProjectionSpec.has, normalizePath_eq_nil_iff, hnil]
  · rw [← excludesPath_iff, Finset.mem_union]
    simp only [ProjectionSpec.has, normalizePath_eq_nil_iff, hnil, if_false,
      excludesPath_normalizePath]
    cases spec.excludesPath U path <;> cases spec.fieldRestricted <;> simp [hnil]

theorem includes_iff : spec.includes U path = true ↔ segments U path ≠ [] ∧
    Wanted U spec spec.included (segments U path) := by
  by_cases hnil : segments U path = []
  · simp [ProjectionSpec.includes, normalizePath_eq_nil_iff, hnil]
  · rw [← wanted_iff _ hnil]
    simp [ProjectionSpec.includes, normalizePath_eq_nil_iff, hnil]

end

/-! ### An allowed area -/

section

variable {spec : ProjectionSpec} {allowedPaths : Finset (List Char)} {a : List Char}

theorem restrictTo_eq (spec : ProjectionSpec) (ha : a ∈ normalizePaths U allowedPaths) :
    ∃ keep : List Char → Prop, ∃ _ : DecidablePred keep,
      (∀ entry, Related (parts entry) (parts a) → keep entry) ∧
      spec.restrictTo U allowedPaths = ⟨spec.fields.filter keep, spec.included.filter keep,
        spec.exclude.filter keep, spec.fieldRestricted⟩ := by
  refine ⟨fun path => ∃ allowed ∈ normalizePaths U allowedPaths, pathsRelated path allowed,
    inferInstance, fun entry hentry => ⟨a, ha, pathsRelated_iff.mpr hentry⟩, ?_⟩
  rw [ProjectionSpec.restrictTo, if_neg (Finset.ne_empty_of_mem ha)]

theorem Related.of_starts {x y n : List (List Char)} (hx : x <+: n) (hy : y <+: n) : Related x y :=
  prefix_or_prefix_of_prefix hx hy

theorem excluded_restrictTo (ha : a ∈ normalizePaths U allowedPaths) {N : List (List Char)}
    (hN : Related (parts a) N) :
    Excluded (spec.restrictTo U allowedPaths) N ↔ Excluded spec N := by
  obtain ⟨keep, _, hkeep, heq⟩ := restrictTo_eq spec ha
  simp only [Excluded, heq, Finset.mem_filter, and_assoc]
  refine exists_congr fun entry => and_congr_right fun _ => and_iff_right_of_imp fun h => ?_
  refine hkeep entry ?_
  rcases hN with hN | hN
  · exact .of_starts h hN
  · exact .inl (h.trans hN)

/-- An entry related to a path below an allowed one is related to that one, and so is its
normalised form. -/
theorem related_of_inside {path entry : List Char} (hinside : parts a <+: segments U path)
    (hentry : Related (parts entry) (segments U path)) :
    Related (parts entry) (parts a) ∧ Related (parts a) (segments U entry) := by
  rcases hentry with habove | hbelow
  · rw [segments_eq_clean entry, clean_of_starts habove]
    exact ⟨.of_starts habove hinside, .of_starts hinside habove⟩
  · refine ⟨.inr (hinside.trans hbelow), .inl ?_⟩
    obtain ⟨rest, hrest⟩ := hbelow
    rw [segments_eq_clean entry, ← hrest, clean_append, clean_of_starts prefix_rfl]
    exact hinside.trans (prefix_append _ _)

theorem wanted_restrictTo (ha : a ∈ normalizePaths U allowedPaths) {path : List Char}
    (hinside : parts a <+: segments U path) {requested : Finset (List Char)}
    {keep : List Char → Prop} [DecidablePred keep]
    (hkeep : ∀ entry, Related (parts entry) (parts a) → keep entry) :
    Wanted U (spec.restrictTo U allowedPaths) (requested.filter keep) (segments U path) ↔
      Wanted U spec requested (segments U path) := by
  simp only [Wanted, Finset.mem_filter, and_assoc]
  refine exists_congr fun entry => and_congr_right fun _ => ?_
  constructor
  · rintro ⟨-, hrelated, hkept⟩
    refine ⟨hrelated, fun h => hkept ((excluded_restrictTo ha ?_).mpr h)⟩
    exact (related_of_inside hinside hrelated).2
  · rintro ⟨hrelated, hkept⟩
    obtain ⟨hentry, hsegments⟩ := related_of_inside hinside hrelated
    exact ⟨hkeep entry hentry, hrelated, fun h => hkept ((excluded_restrictTo ha hsegments).mp h)⟩

end

/-- **A restriction changes nothing inside the allowed area**: at a path equal to or below an
allowed one, the four queries answer as before. -/
theorem restrictTo_inside (spec : ProjectionSpec) (allowedPaths : Finset (List Char))
    (path : List Char)
    (hinside : ∃ allowed ∈ normalizePaths U allowedPaths,
      isSameOrDescendant (normalizePath U path) allowed = true) :
    (spec.restrictTo U allowedPaths).has U path = spec.has U path ∧
    (spec.restrictTo U allowedPaths).needs U path = spec.needs U path ∧
    (spec.restrictTo U allowedPaths).includes U path = spec.includes U path ∧
    (spec.restrictTo U allowedPaths).excludesPath U path = spec.excludesPath U path := by
  obtain ⟨a, ha, hbelow⟩ := hinside
  rw [isSameOrDescendant_iff] at hbelow
  have hne : segments U path ≠ [] := by
    intro hnil
    rw [(normalizePath_eq_nil_iff path).mpr hnil] at hbelow
    obtain ⟨rest, hrest⟩ := hbelow
    rcases append_eq_singleton_iff.mp hrest with ⟨hempty, -⟩ | ⟨hsame, -⟩
    · exact parts_ne_nil a hempty
    · exact (normalPath_of_mem ha).ne_nil (splitOn_inj.mp hsame)
  have hinside : parts a <+: segments U path := by rwa [parts_normalizePath hne] at hbelow
  obtain ⟨keep, _, hkeep, heq⟩ := restrictTo_eq spec ha
  have hexcluded : Excluded (spec.restrictTo U allowedPaths) (segments U path) ↔
      Excluded spec (segments U path) := excluded_restrictTo ha (.inl hinside)
  have hrestricted : (spec.restrictTo U allowedPaths).fieldRestricted = spec.fieldRestricted := by
    rw [heq]
  have hincluded : (spec.restrictTo U allowedPaths).included = spec.included.filter keep := by
    rw [heq]
  have hrequested : (spec.restrictTo U allowedPaths).fields ∪
      (spec.restrictTo U allowedPaths).included = (spec.fields ∪ spec.included).filter keep := by
    rw [heq, Finset.filter_union]
  have hself : keep (normalizePath U path) := by
    refine hkeep _ (.inr ?_)
    rwa [parts_normalizePath hne]
  refine ⟨?_, ?_, ?_, ?_⟩
  · rw [Bool.eq_iff_iff, has_iff, has_iff, hexcluded, hrestricted, hrequested, Finset.mem_filter,
      and_iff_left hself]
  · rw [Bool.eq_iff_iff, needs_iff, needs_iff, hexcluded, hrestricted, hrequested,
      wanted_restrictTo ha hinside hkeep]
  · rw [Bool.eq_iff_iff, includes_iff, includes_iff, hincluded,
      wanted_restrictTo ha hinside hkeep]
  · rw [Bool.eq_iff_iff, excludesPath_iff, excludesPath_iff, hexcluded]

/-- `a.b.c` lies below the allowed `a.b`: what excludes it is kept. -/
theorem restrictTo_inside_excluded :
    (ProjectionSpec.needs .ascii (ProjectionSpec.restrictTo .ascii
        ⟨{"a".toList, "d".toList}, ∅, {"a.b.c".toList}, true⟩ {"a.b".toList})
      "a.b.c.e".toList) = false := by
  rw [(restrictTo_inside _ _ _ ⟨"a.b".toList, by decide, by decide⟩).2.1]
  decide

/-! ### Child projections -/

/-- An entry has exactly these parts. -/
def Named (paths : Finset (List Char)) (P : List (List Char)) : Prop :=
  ∃ path ∈ paths, parts path = P

/-- The parts of an entry go on from `P`, and what follows meets the condition. -/
def PartsBelow (paths : Finset (List Char)) (P : List (List Char))
    (R : List (List Char) → Prop) : Prop :=
  ∃ path ∈ paths, ∃ rest, rest ≠ [] ∧ parts path = P ++ rest ∧ R rest

/-- A child projection excludes: the prefix counts as an entry of its own there, and an entry
below it by what follows. -/
def ChildExcluded (spec : ProjectionSpec) (P S : List (List Char)) : Prop :=
  (Named spec.exclude P ∧ P <+: S) ∨ PartsBelow spec.exclude P (· <+: S)

/-- A child projection wants a path: an included prefix counts as an entry of its own, and a
requested entry below it by what follows. -/
def ChildWanted (U : Unicode) (spec : ProjectionSpec) (P Q : List (List Char)) : Prop :=
  (Named spec.included P ∧ Related P Q ∧ ¬ ChildExcluded spec P P) ∨
    PartsBelow (spec.fields ∪ spec.included) P fun rest =>
      Related rest Q ∧ ¬ ChildExcluded spec P (clean U rest)

section

variable {spec : ProjectionSpec} {parent : List Char} {paths : Finset (List Char)}
  {R : List (List Char) → Prop}

theorem not_empty_starts {ps : List (List Char)} : ¬ [[]] <+: clean U ps := by
  rintro ⟨rest, hrest⟩
  have hmem : [] ∈ clean U ps := hrest ▸ mem_cons_self
  exact absurd (mem_filter.mp hmem).2 (by simp)

theorem partsBelow_union {paths' : Finset (List Char)} {P : List (List Char)} :
    PartsBelow (paths ∪ paths') P R ↔ PartsBelow paths P R ∨ PartsBelow paths' P R := by
  simp only [PartsBelow, Finset.mem_union, or_and_right, exists_or]

variable (hne : segments U parent ≠ [])
include hne

theorem eq_normalizePath_iff_parts {path : List Char} :
    path = normalizePath U parent ↔ parts path = segments U parent := by
  rw [← parts_normalizePath hne]
  exact splitOn_inj.symm

theorem removeLeading_parts {path : List Char}
    {rest : List (List Char)} (hrest : rest ≠ []) (hpath : parts path = segments U parent ++ rest) :
    parts (ResponsePolicy.removeLeading (normalizePath U parent ++ ['.']) path) = rest := by
  rw [← parts_normalizePath hne] at hpath
  have hleading : (normalizePath U parent ++ ['.']).isPrefixOf path = true :=
    isPrefixOf_iff_prefix.mpr (sep_prefix_iff.mpr ⟨rest, hrest, hpath⟩)
  rw [ResponsePolicy.removeLeading, if_pos hleading, drop_of_splitOn hrest hpath]
  refine splitOn_intercalate '.' (fun s hs => ?_) hrest
  have hmem : s ∈ parts path := hpath ▸ mem_append_right _ hs
  exact (mem_splitOn hmem).1

theorem exists_mem_trim_parts (hR : ¬ R [[]]) :
    (∃ c ∈ ResponsePolicy.trim (normalizePath U parent) paths, R (parts c)) ↔
      (Named paths (segments U parent) ∧ R (segments U parent)) ∨
        PartsBelow paths (segments U parent) R := by
  simp only [ResponsePolicy.trim, Finset.mem_erase, Finset.mem_image, Finset.mem_filter]
  constructor
  · rintro ⟨_, ⟨-, path, ⟨hmem, hkeep⟩, rfl⟩, hc⟩
    by_cases heq : path = normalizePath U parent
    · rw [if_pos heq, (eq_normalizePath_iff_parts hne).mp heq] at hc
      exact .inl ⟨⟨path, hmem, (eq_normalizePath_iff_parts hne).mp heq⟩, hc⟩
    · have hbelow := isSameOrDescendant_iff.mp (hkeep.resolve_left heq)
      rw [parts_normalizePath hne] at hbelow
      obtain ⟨rest, hrest⟩ := hbelow
      have hrestne : rest ≠ [] := by
        rintro rfl
        rw [append_nil] at hrest
        exact heq ((eq_normalizePath_iff_parts hne).mpr hrest.symm)
      rw [if_neg heq, removeLeading_parts hne hrestne hrest.symm] at hc
      exact .inr ⟨path, hmem, rest, hrestne, hrest.symm, hc⟩
  · rintro (⟨⟨path, hmem, hsame⟩, hP⟩ | ⟨path, hmem, rest, hrest, hpath, hrestR⟩)
    · have heq := (eq_normalizePath_iff_parts hne).mpr hsame
      refine ⟨path, ⟨?_, path, ⟨hmem, .inl heq⟩, if_pos heq⟩, by rwa [hsame]⟩
      rw [heq]
      exact fun h => hne ((normalizePath_eq_nil_iff parent).mp h)
    · have hparts := removeLeading_parts hne hrest hpath
      have heq : path ≠ normalizePath U parent := by
        rw [Ne, eq_normalizePath_iff_parts hne, hpath]
        simpa using hrest
      refine ⟨_, ⟨fun hnil => ?_, path, ⟨hmem, .inr ?_⟩, if_neg heq⟩, by rwa [hparts]⟩
      · -- an entry that ends with the full stop behind the prefix is dropped
        have hempty : rest = [[]] := by
          rw [← hparts, hnil]
          exact splitOn_nil '.'
        exact hR (hempty ▸ hrestR)
      · rw [isSameOrDescendant_iff, parts_normalizePath hne, hpath]
        exact prefix_append _ _

theorem excluded_child_iff (ps : List (List Char)) :
    Excluded (spec.child U parent) (clean U ps) ↔
      ChildExcluded spec (segments U parent) (clean U ps) := by
  simp only [ProjectionSpec.child, normalizePath_eq_nil_iff, hne, if_false]
  split
  · rename_i hdefault
    simp [Excluded, ChildExcluded, Named, PartsBelow, hdefault.2.2]
  · exact exists_mem_trim_parts (R := (· <+: clean U ps)) hne not_empty_starts

theorem fieldRestricted_child_iff :
    (spec.child U parent).fieldRestricted = false ↔
      spec.fieldRestricted = false ∨ Named spec.fields (segments U parent) := by
  have hnamed : normalizePath U parent ∈ spec.fields ↔ Named spec.fields (segments U parent) := by
    constructor
    · exact fun h => ⟨_, h, parts_normalizePath hne⟩
    · rintro ⟨path, hmem, hpath⟩
      rwa [← (eq_normalizePath_iff_parts hne).mpr hpath]
  simp only [ProjectionSpec.child, normalizePath_eq_nil_iff, hne, if_false]
  split
  · rename_i hdefault
    simp [Bool.eq_false_iff.mpr hdefault.1]
  · rw [← hnamed]
    cases spec.fieldRestricted <;> simp

theorem exists_mem_trim_erase (hR : ¬ R [[]]) :
    (∃ c ∈ ResponsePolicy.trim (normalizePath U parent) (paths.erase (normalizePath U parent)),
        R (parts c)) ↔ PartsBelow paths (segments U parent) R := by
  rw [exists_mem_trim_parts hne hR]
  constructor
  · rintro (⟨⟨path, hmem, hpath⟩, -⟩ | ⟨path, hmem, hrest⟩)
    · exact absurd ((eq_normalizePath_iff_parts hne).mpr hpath) (Finset.ne_of_mem_erase hmem)
    · exact ⟨path, Finset.mem_of_mem_erase hmem, hrest⟩
  · rintro ⟨path, hmem, rest, hrest, hpath, hrestR⟩
    refine .inr ⟨path, Finset.mem_erase.mpr ⟨?_, hmem⟩, rest, hrest, hpath, hrestR⟩
    rw [Ne, eq_normalizePath_iff_parts hne, hpath]
    simpa using hrest

theorem wanted_child_iff {ps : List (List Char)}
    (hps : clean U ps ≠ []) (hrestricted : spec.fieldRestricted = true) :
    Wanted U (spec.child U parent)
        ((spec.child U parent).fields ∪ (spec.child U parent).included) (clean U ps) ↔
      ChildWanted U spec (segments U parent) (clean U ps) := by
  have hfields : (spec.child U parent).fields = ResponsePolicy.trim (normalizePath U parent)
      (spec.fields.erase (normalizePath U parent)) := by
    simp [ProjectionSpec.child, normalizePath_eq_nil_iff, hne, hrestricted]
  have hincluded : (spec.child U parent).included =
      ResponsePolicy.trim (normalizePath U parent) spec.included := by
    simp [ProjectionSpec.child, normalizePath_eq_nil_iff, hne, hrestricted]
  have hempty : ¬ (Related [[]] (clean U ps) ∧ ¬ ChildExcluded spec (segments U parent)
      (clean U [[]])) := by
    rintro ⟨hstarts | hstarts, -⟩
    · exact not_empty_starts hstarts
    · obtain ⟨rest, hrest⟩ := hstarts
      rcases append_eq_singleton_iff.mp hrest with ⟨hnil, -⟩ | ⟨hsame, -⟩
      · exact hps hnil
      · have hself : [[]] <+: clean U ps := ⟨[], by rw [hsame, append_nil]⟩
        exact not_empty_starts hself
  have hsplit : Wanted U (spec.child U parent)
      ((spec.child U parent).fields ∪ (spec.child U parent).included) (clean U ps) ↔
      (∃ c ∈ (spec.child U parent).fields, Related (parts c) (clean U ps) ∧
        ¬ ChildExcluded spec (segments U parent) (clean U (parts c))) ∨
      ∃ c ∈ (spec.child U parent).included, Related (parts c) (clean U ps) ∧
        ¬ ChildExcluded spec (segments U parent) (clean U (parts c)) := by
    simp only [Wanted, Finset.mem_union, or_and_right, exists_or, segments_eq_clean,
      excluded_child_iff hne]
  rw [hsplit, hfields, hincluded,
    exists_mem_trim_erase (R := fun rest => Related rest (clean U ps) ∧
      ¬ ChildExcluded spec (segments U parent) (clean U rest)) hne hempty,
    exists_mem_trim_parts (R := fun rest => Related rest (clean U ps) ∧
      ¬ ChildExcluded spec (segments U parent) (clean U rest)) hne hempty,
    ChildWanted, partsBelow_union, clean_of_starts prefix_rfl]
  exact or_left_comm

theorem needs_child_iff (path : List Char) :
    (spec.child U parent).needs U path = true ↔ segments U path ≠ [] ∧
      ¬ ChildExcluded spec (segments U parent) (segments U path) ∧
      (spec.fieldRestricted = false ∨ Named spec.fields (segments U parent) ∨
        ChildWanted U spec (segments U parent) (segments U path)) := by
  rw [needs_iff, segments_eq_clean path, excluded_child_iff hne, fieldRestricted_child_iff hne]
  refine and_congr_right fun hpath => and_congr_right fun _ => ?_
  cases hrestricted : spec.fieldRestricted with
  | false => simp
  | true => rw [wanted_child_iff hne hpath hrestricted, or_assoc]

end

/-! ### When a child projection agrees with its parent -/

section

variable {spec : ProjectionSpec} {P : List (List Char)}

theorem excluded_append_iff (Q : List (List Char)) :
    Excluded spec (P ++ Q) ↔ Excluded spec P ∨ PartsBelow spec.exclude P (· <+: Q) := by
  simp only [Excluded, PartsBelow, prefix_append_iff, and_or_left, exists_or]

theorem Named.excluded (h : Named spec.exclude P) : Excluded spec P := by
  obtain ⟨path, hmem, hpath⟩ := h
  exact ⟨path, hmem, hpath ▸ prefix_rfl⟩

theorem excluded_append_of_not (hP : ¬ Excluded spec P) (S : List (List Char)) :
    Excluded spec (P ++ S) ↔ ChildExcluded spec P S := by
  rw [excluded_append_iff, ChildExcluded]
  constructor
  · exact fun h => .inr (h.resolve_left hP)
  · rintro (⟨hnamed, -⟩ | hbelow)
    · exact absurd hnamed.excluded hP
    · exact .inr hbelow

/-- **What is wanted below a prefix** that is not excluded: something at or above the prefix is
requested, or something below it that is related to the rest. -/
theorem wanted_append_iff {parent : List Char} (hP : ¬ Excluded spec (segments U parent))
    {Q : List (List Char)} (hQ : Q ≠ []) (requested : Finset (List Char)) :
    Wanted U spec requested (segments U parent ++ Q) ↔
      (∃ entry ∈ requested, parts entry <+: segments U parent) ∨
        PartsBelow requested (segments U parent) fun rest =>
          Related rest Q ∧ ¬ ChildExcluded spec (segments U parent) (clean U rest) := by
  have hrest : ∀ {entry rest}, parts entry = segments U parent ++ rest →
      (Excluded spec (segments U entry) ↔
        ChildExcluded spec (segments U parent) (clean U rest)) := by
    intro entry rest hentry
    rw [segments_eq_clean entry, hentry, clean_append, clean_of_starts prefix_rfl,
      excluded_append_of_not hP]
  constructor
  · rintro ⟨entry, hmem, hstarts | hstarts, hkept⟩
    · rcases prefix_append_iff.mp hstarts with habove | ⟨rest, hne, hentry, hstarts⟩
      · exact .inl ⟨entry, hmem, habove⟩
      · exact .inr ⟨entry, hmem, rest, hne, hentry, .inl hstarts,
          fun h => hkept ((hrest hentry).mpr h)⟩
    · obtain ⟨rest, hne, hentry, hstarts⟩ := (append_prefix_iff hQ).mp hstarts
      exact .inr ⟨entry, hmem, rest, hne, hentry, .inr hstarts,
        fun h => hkept ((hrest hentry).mpr h)⟩
  · rintro (⟨entry, hmem, habove⟩ | ⟨entry, hmem, rest, hne, hentry, hrelated, hkept⟩)
    · refine ⟨entry, hmem, .inl (prefix_append_iff.mpr (.inl habove)), ?_⟩
      rw [segments_eq_clean entry, clean_of_starts habove]
      rintro ⟨excluded, hexcluded, hstarts⟩
      exact hP ⟨excluded, hexcluded, hstarts.trans habove⟩
    · refine ⟨entry, hmem, ?_, fun h => hkept ((hrest hentry).mp h)⟩
      rcases hrelated with hstarts | hstarts
      · exact .inl (prefix_append_iff.mpr (.inr ⟨rest, hne, hentry, hstarts⟩))
      · exact .inr ((append_prefix_iff hQ).mpr ⟨rest, hne, hentry, hstarts⟩)

theorem ChildWanted.above_or_below {Q : List (List Char)} (h : ChildWanted U spec P Q) :
    (∃ entry ∈ spec.fields ∪ spec.included, parts entry <+: P) ∨
      PartsBelow (spec.fields ∪ spec.included) P fun rest =>
        Related rest Q ∧ ¬ ChildExcluded spec P (clean U rest) := by
  rcases h with ⟨⟨entry, hmem, hentry⟩, -⟩ | hbelow
  · exact .inl ⟨entry, Finset.mem_union_right _ hmem, hentry ▸ prefix_rfl⟩
  · exact .inr hbelow

end

/-- The condition under which a child projection and its parent **agree** on what they need, on a
path `Q` below the prefix `P`:

* the prefix is empty; or
* the path is empty, and the parent does not need the prefix; or
* the child excludes the path: an excluded entry lies between the prefix and the whole path, or the
  prefix itself is excluded and starts the path; or
* an excluded entry is at or above the prefix and the child needs nothing there: the fields are
  restricted, the prefix is no field, and the child wants nothing related to the path; or
* no excluded entry is at or above the prefix, and a requested entry above the prefix is not missed:
  the fields are not restricted, or the prefix is a field, or the child wants something related to
  the path, or no requested entry is at or above the prefix. -/
def ChildNeedsAgrees (U : Unicode) (spec : ProjectionSpec) (P Q : List (List Char)) : Prop :=
  P = [] ∨
  (Q = [] ∧ (Excluded spec P ∨ (spec.fieldRestricted = true ∧
    ¬ Wanted U spec (spec.fields ∪ spec.included) P))) ∨
  (Q ≠ [] ∧
    (ChildExcluded spec P Q ∨
      (Excluded spec P ∧ spec.fieldRestricted = true ∧ ¬ Named spec.fields P ∧
        ¬ ChildWanted U spec P Q) ∨
      (¬ Excluded spec P ∧ (spec.fieldRestricted = false ∨ Named spec.fields P ∨
        ChildWanted U spec P Q ∨
        ¬ ∃ entry ∈ spec.fields ∪ spec.included, parts entry <+: P))))

/-- When the two needs agree below a prefix that is not excluded: `field` says that the prefix is a
field, `wants` that the child wants the path, `up` and `below` that something is requested at or
above the prefix or below it. -/
theorem wants_agree_iff {excluded free field wants up below : Prop} (hfield : field → up)
    (hwants : wants → up ∨ below) (hbelow : below → wants) :
    ((¬ excluded ∧ (free ∨ field ∨ wants)) ↔ (¬ excluded ∧ (free ∨ up ∨ below))) ↔
      (excluded ∨ free ∨ field ∨ wants ∨ ¬ up) := by
  by_cases hexcluded : excluded
  · simp [hexcluded]
  by_cases hfree : free
  · simp [hfree]
  simp only [hexcluded, hfree, not_false_eq_true, true_and, false_or]
  -- only what is requested above the prefix alone makes the difference
  constructor
  · intro hagree
    by_cases hup : up
    · exact (hagree.mpr (.inl hup)).imp_right .inl
    · exact .inr (.inr hup)
  · intro h
    refine ⟨fun hneeds => hneeds.elim (fun hf => .inl (hfield hf)) hwants, fun hneeds => ?_⟩
    rcases h with hf | hw | hup
    · exact .inl hf
    · exact .inr hw
    · exact .inr (hbelow (hneeds.resolve_left hup))

/-- **When a nested serializer agrees with the whole response**: the child projection of a prefix
needs a path exactly when the projection needs `prefix.path`, if and only if `ChildNeedsAgrees`. -/
theorem child_needs_eq_iff (spec : ProjectionSpec) (parent path : List Char) :
    (spec.child U parent).needs U path = spec.needs U (parent ++ '.' :: path) ↔
      ChildNeedsAgrees U spec (segments U parent) (segments U path) := by
  have hwhole : spec.needs U (parent ++ '.' :: path) = true ↔ _ := needs_iff
  rw [segments_append] at hwhole
  by_cases hP : segments U parent = []
  · have hchild : spec.child U parent = spec := by
      rw [ProjectionSpec.child, if_pos ((normalizePath_eq_nil_iff parent).mpr hP)]
    rw [hP, nil_append] at hwhole
    rw [hchild, Bool.eq_iff_iff, needs_iff, hwhole]
    exact iff_of_true Iff.rfl (.inl hP)
  · have hwholene : segments U parent ++ segments U path ≠ [] := by simp [hP]
    rw [Bool.eq_iff_iff, needs_child_iff hP, hwhole, ChildNeedsAgrees]
    by_cases hQ : segments U path = []
    · rw [hQ, append_nil]
      simp only [ne_eq, not_true, false_and, false_iff, hP, not_false_eq_true, true_and, false_or,
        or_false, not_and_or, not_not, not_or, Bool.not_eq_false]
    · simp only [ne_eq, hP, hQ, hwholene, not_false_eq_true, true_and, false_and, false_or]
      by_cases hup : Excluded spec (segments U parent)
      · have hexcluded : Excluded spec (segments U parent ++ segments U path) :=
          (excluded_append_iff _).mpr (.inl hup)
        simp only [hexcluded, hup, not_true, false_and, iff_false, not_and_or, not_not, not_or,
          true_and, or_false, Bool.not_eq_false]
      · rw [excluded_append_of_not hup, wanted_append_iff hup hQ]
        simp only [hup, false_and, false_or, not_false_eq_true, true_and]
        refine wants_agree_iff ?_ ChildWanted.above_or_below fun hbelow => .inr hbelow
        rintro ⟨entry, hmem, hentry⟩
        exact ⟨entry, Finset.mem_union_left _ hmem, hentry ▸ prefix_rfl⟩

/-- **A requested branch lost**: with `a` requested, the projection needs `a.b.c`, and its child
for `a.b` does not need `c`. -/
theorem child_loses_requested_branch :
    let spec : ProjectionSpec := ⟨{"a".toList}, ∅, ∅, true⟩
    spec.needs .ascii "a.b.c".toList = true ∧
      (spec.child .ascii "a.b".toList).needs .ascii "c".toList = false := by
  decide

end ServiceToolkit.Projection
