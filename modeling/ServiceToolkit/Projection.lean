import ServiceToolkit.SegmentedPaths
import ServiceToolkit.Text

/-!
# Response Visibility

`ResponsePolicy` says which paths of a response a caller may see: a path at or below a denied
one is hidden, and any other is shown when everything is allowed or an allowed path is related
to it. `child` narrows a policy to the fields below a prefix, for a nested response.

A path is normalised before anything is compared: split at full stops, each segment stripped
and lower-cased, empty segments dropped. `segments` is that list, and `normalizePath` its
text. The paths of a policy are normalised at construction, which is a field of the structure.
-/

namespace ServiceToolkit.Projection

open ServiceToolkit.Text ServiceToolkit.Paths List

/-! ### Normalising -/

/-- The segments of a path: stripped, lower-cased, none empty. -/
def segments (U : Unicode) (path : List Char) : List (List Char) :=
  ((path.splitOn '.').map fun segment => U.lower (strip segment)).filter (· ≠ [])

/-- `_normalize_path`. -/
def normalizePath (U : Unicode) (path : List Char) : List Char := join '.' (segments U path)

/-- `_normalize_paths`: each value is split at commas, and what is left empty is dropped. A
single string is one value, and `None` is no value. -/
def normalizePaths (U : Unicode) (raw : Finset (List Char)) : Finset (List Char) :=
  (raw.biUnion fun value => ((value.splitOn ',').map (normalizePath U)).toFinset).erase []

/-- `_is_same_or_descendant`. -/
def isSameOrDescendant (value parent : List Char) : Bool :=
  value = parent || (parent ++ ['.']).isPrefixOf value

/-- `_paths_related`. -/
def pathsRelated (left right : List Char) : Bool :=
  isSameOrDescendant left right || isSameOrDescendant right left

/-- A segment as normalising leaves it. -/
structure NormalSegment (U : Unicode) (s : List Char) : Prop where
  ne_nil : s ≠ []
  no_dot : '.' ∉ s
  fixed : U.lower (strip s) = s

variable {U : Unicode} {path : List Char}

theorem normalSegment_of_mem_segments {s : List Char} (h : s ∈ segments U path) :
    NormalSegment U s := by
  obtain ⟨hmem, hne⟩ := mem_filter.mp h
  obtain ⟨raw, hraw, rfl⟩ := mem_map.mp hmem
  refine ⟨by simpa using hne, fun hdot => ?_, ?_⟩
  · exact (mem_splitOn hraw).1 (mem_of_mem_strip (U.dot_of_lower _ hdot))
  · rw [U.strip_lower_strip, U.lower_lower]

theorem valid_of_normal {segs : List (List Char)} (h : ∀ s ∈ segs, NormalSegment U s) :
    Valid '.' segs := fun s hs => ⟨(h s hs).ne_nil, (h s hs).no_dot⟩

theorem valid_segments (path : List Char) : Valid '.' (segments U path) :=
  valid_of_normal fun _ => normalSegment_of_mem_segments

theorem segments_join {segs : List (List Char)} (h : ∀ s ∈ segs, NormalSegment U s) :
    segments U (join '.' segs) = segs := by
  by_cases hne : segs = []
  · subst hne
    have hempty : U.lower (strip []) = [] := (U.lower_eq_nil _).mpr rfl
    simp [segments, hempty]
  · have hmap : (segs.map fun s => U.lower (strip s)) = segs := by
      rw [map_congr_left fun s hs => (h s hs).fixed, map_id']
    rw [segments, splitOn_join (valid_of_normal h) hne, hmap, filter_eq_self]
    exact fun s hs => by simpa using (h s hs).ne_nil

theorem segments_normalizePath (path : List Char) :
    segments U (normalizePath U path) = segments U path :=
  segments_join fun _ => normalSegment_of_mem_segments

theorem normalizePath_normalizePath (path : List Char) :
    normalizePath U (normalizePath U path) = normalizePath U path := by
  rw [normalizePath, segments_normalizePath]
  rfl

theorem segments_append (p q : List Char) :
    segments U (p ++ '.' :: q) = segments U p ++ segments U q := by
  rw [segments, splitOn_append_cons_self, map_append, filter_append]
  rfl

theorem normalizePath_eq_nil_iff (path : List Char) :
    normalizePath U path = [] ↔ segments U path = [] :=
  join_eq_nil_iff (valid_segments path)

theorem isSameOrDescendant_join {v p : List (List Char)} (hv : Valid '.' v) (hp : Valid '.' p)
    (hne : p ≠ []) : isSameOrDescendant (join '.' v) (join '.' p) = true ↔ p <+: v := by
  rw [isSameOrDescendant, Bool.or_eq_true, decide_eq_true_eq, isPrefixOf_iff_prefix,
    join_inj hv hp, prefix_join_iff hp hv hne]
  constructor
  · rintro (rfl | ⟨c, -, rfl⟩)
    · exact prefix_rfl
    · exact prefix_append p c
  · rintro ⟨c, rfl⟩
    by_cases hc : c = []
    · exact .inl (by rw [hc, append_nil])
    · exact .inr ⟨c, hc, rfl⟩

/-! ### Policies -/

/-- A path as a policy holds it: normalised, not empty, without commas. -/
structure NormalPath (U : Unicode) (path : List Char) : Prop where
  fixed : normalizePath U path = path
  ne_nil : path ≠ []
  no_comma : ',' ∉ path

theorem normalPath_of_mem {raw : Finset (List Char)}
    (h : path ∈ normalizePaths U raw) : NormalPath U path := by
  rw [normalizePaths, Finset.mem_erase, Finset.mem_biUnion] at h
  obtain ⟨hne, value, -, hpath⟩ := h
  rw [mem_toFinset, mem_map] at hpath
  obtain ⟨candidate, hcandidate, rfl⟩ := hpath
  refine ⟨normalizePath_normalizePath candidate, hne, fun hcomma => ?_⟩
  rcases mem_join hcomma with hdot | ⟨s, hs, hcomma⟩
  · exact absurd hdot (by decide)
  · obtain ⟨raw, hraw, rfl⟩ := mem_map.mp (mem_of_mem_filter hs)
    have hmem : ',' ∈ raw := mem_of_mem_strip (U.comma_of_lower _ hcomma)
    exact (mem_splitOn hcandidate).1 ((mem_splitOn hraw).2 _ hmem)

theorem normalizePaths_of_normal {paths : Finset (List Char)}
    (h : ∀ path ∈ paths, NormalPath U path) : normalizePaths U paths = paths := by
  have hvalue : ∀ path ∈ paths, ((path.splitOn ',').map (normalizePath U)).toFinset = {path} := by
    intro path hpath
    rw [splitOn_eq_singleton (h path hpath).no_comma, map_singleton, (h path hpath).fixed]
    rfl
  rw [normalizePaths, Finset.biUnion_congr rfl hvalue, Finset.biUnion_singleton_eq_self]
  exact Finset.erase_eq_of_notMem fun hnil => (h [] hnil).ne_nil rfl

/-- What a caller may see of a response. -/
structure ResponsePolicy (U : Unicode) where
  allowedFields : Finset (List Char)
  deniedFields : Finset (List Char)
  allowAll : Bool
  normal_allowed : ∀ path ∈ allowedFields, NormalPath U path
  normal_denied : ∀ path ∈ deniedFields, NormalPath U path

namespace ResponsePolicy

/-- `ResponsePolicy(allowed_fields, denied_fields, allow_all)`. -/
def make (U : Unicode) (allowed denied : Finset (List Char)) (allowAll : Bool) :
    ResponsePolicy U where
  allowedFields := normalizePaths U allowed
  deniedFields := normalizePaths U denied
  allowAll := allowAll
  normal_allowed _ := normalPath_of_mem
  normal_denied _ := normalPath_of_mem

/-- Whether the caller may see a path. -/
def canView (policy : ResponsePolicy U) (path : List Char) : Bool :=
  let normalized := normalizePath U path
  if normalized = [] then false
  else if ∃ denied ∈ policy.deniedFields, isSameOrDescendant normalized denied then false
  else
    policy.allowAll || decide (∃ allowed ∈ policy.allowedFields, pathsRelated allowed normalized)

/-- `str.removeprefix`. -/
def removeLeading (leading text : List Char) : List Char :=
  if leading.isPrefixOf text then text.drop leading.length else text

/-- `_trim`: the prefix itself is kept as it is, a path below it loses the prefix, and every
other path is dropped. -/
def trim (parent : List Char) (paths : Finset (List Char)) : Finset (List Char) :=
  ((paths.filter fun path => path = parent ∨ isSameOrDescendant path parent).image fun path =>
    if path = parent then path else removeLeading (parent ++ ['.']) path).erase []

/-- The policy for the fields below a prefix. -/
def child (policy : ResponsePolicy U) (parent : List Char) : ResponsePolicy U :=
  let normalized := normalizePath U parent
  if normalized = [] then policy
  else
    make U (trim normalized policy.allowedFields) (trim normalized policy.deniedFields)
      (policy.allowAll && policy.canView normalized)

end ResponsePolicy

/-! ### Visibility on segments -/

/-- One path is at or above the other. -/
def Related (a b : List (List Char)) : Prop := a <+: b ∨ b <+: a

/-- A path of the set is at or above `P`. -/
def Above (U : Unicode) (paths : Finset (List Char)) (P : List (List Char)) : Prop :=
  ∃ path ∈ paths, segments U path <+: P

/-- `P` itself is in the set. -/
def Itself (U : Unicode) (paths : Finset (List Char)) (P : List (List Char)) : Prop :=
  ∃ path ∈ paths, segments U path = P

/-- A path of the set lies strictly below `P`, and what follows `P` in it meets the
condition. -/
def Below (U : Unicode) (paths : Finset (List Char)) (P : List (List Char))
    (R : List (List Char) → Prop) : Prop :=
  ∃ path ∈ paths, ∃ rest, rest ≠ [] ∧ segments U path = P ++ rest ∧ R rest

/-- Some path of the set is related to `P`. -/
def AnyRelated (U : Unicode) (paths : Finset (List Char)) (P : List (List Char)) : Prop :=
  ∃ path ∈ paths, Related (segments U path) P

theorem NormalPath.join_segments (h : NormalPath U path) :
    join '.' (segments U path) = path := h.fixed

theorem NormalPath.segments_ne_nil (h : NormalPath U path) : segments U path ≠ [] := by
  intro hnil
  have hpath : normalizePath U path = [] := (normalizePath_eq_nil_iff path).mpr hnil
  exact h.ne_nil (h.fixed.symm.trans hpath)

theorem isSameOrDescendant_normal {entry : List Char} (h : NormalPath U entry) :
    isSameOrDescendant (normalizePath U path) entry = true ↔
      segments U entry <+: segments U path := by
  have hjoin := isSameOrDescendant_join (valid_segments (U := U) path) (valid_segments entry)
    h.segments_ne_nil
  rwa [h.join_segments] at hjoin

theorem pathsRelated_normal {entry : List Char} (h : NormalPath U entry)
    (hne : segments U path ≠ []) : pathsRelated entry (normalizePath U path) = true ↔
      Related (segments U entry) (segments U path) := by
  have hbelow := isSameOrDescendant_join (valid_segments (U := U) entry) (valid_segments path) hne
  rw [h.join_segments] at hbelow
  rw [pathsRelated, Bool.or_eq_true, isSameOrDescendant_normal h, normalizePath, hbelow, Related,
    or_comm]

/-- **Visibility on segments**: the path is not empty, nothing denied is at or above it, and
everything is allowed or something allowed is related to it. -/
theorem canView_iff (policy : ResponsePolicy U) (path : List Char) : policy.canView path = true ↔
      segments U path ≠ [] ∧ ¬ Above U policy.deniedFields (segments U path) ∧
        (policy.allowAll = true ∨ AnyRelated U policy.allowedFields (segments U path)) := by
  by_cases hnil : segments U path = []
  · simp [ResponsePolicy.canView, (normalizePath_eq_nil_iff path).mpr hnil, hnil]
  · have hne : normalizePath U path ≠ [] := fun h => hnil ((normalizePath_eq_nil_iff path).mp h)
    have hdenied : (∃ denied ∈ policy.deniedFields,
        isSameOrDescendant (normalizePath U path) denied = true) ↔
          Above U policy.deniedFields (segments U path) :=
      exists_congr fun entry => and_congr_right fun hentry =>
        isSameOrDescendant_normal (policy.normal_denied entry hentry)
    have hallowed : (∃ allowed ∈ policy.allowedFields,
        pathsRelated allowed (normalizePath U path) = true) ↔
          AnyRelated U policy.allowedFields (segments U path) :=
      exists_congr fun entry => and_congr_right fun hentry =>
        pathsRelated_normal (policy.normal_allowed entry hentry) hnil
    simp only [ResponsePolicy.canView, hne, if_false]
    by_cases habove : Above U policy.deniedFields (segments U path)
    · rw [if_pos (hdenied.mpr habove)]
      simp [habove]
    · rw [if_neg fun h => habove (hdenied.mp h), Bool.or_eq_true, decide_eq_true_eq, hallowed]
      simp [hnil, habove]

/-! ### Child policies -/

section

variable {paths : Finset (List Char)} {parent path : List Char}

theorem isSameOrDescendant_parent (h : NormalPath U path) (hne : segments U parent ≠ []) :
    isSameOrDescendant path (normalizePath U parent) = true ↔
      segments U parent <+: segments U path := by
  have hjoin := isSameOrDescendant_join (valid_segments (U := U) path) (valid_segments parent) hne
  rwa [h.join_segments] at hjoin

theorem eq_normalizePath_iff (h : NormalPath U path) :
    path = normalizePath U parent ↔ segments U path = segments U parent := by
  have hinj := join_inj (valid_segments (U := U) path) (valid_segments (U := U) parent)
  rwa [h.join_segments] at hinj

theorem removeLeading_below {rest : List (List Char)} (h : NormalPath U path)
    (hne : segments U parent ≠ []) (hrest : rest ≠ [])
    (hsegments : segments U path = segments U parent ++ rest) :
    ResponsePolicy.removeLeading (normalizePath U parent ++ ['.']) path = join '.' rest := by
  have hpath : path = join '.' (segments U parent ++ rest) := by
    rw [← hsegments, h.join_segments]
  have hleading : (normalizePath U parent ++ ['.']).isPrefixOf path = true := by
    rw [ isPrefixOf_iff_prefix, hpath, join_append '.' hne hrest]
    exact ⟨join '.' rest, by simp [normalizePath]⟩
  rw [ResponsePolicy.removeLeading, if_pos hleading, hpath]
  exact drop_join_append hne hrest

theorem normal_rest {rest : List (List Char)}
    (hsegments : segments U path = segments U parent ++ rest) : ∀ s ∈ rest, NormalSegment U s := by
  intro s hs
  have hmem : s ∈ segments U path := hsegments ▸ mem_append_right _ hs
  exact normalSegment_of_mem_segments hmem

theorem mem_trim_iff (hpaths : ∀ path ∈ paths, NormalPath U path)
    (hne : segments U parent ≠ []) (c : List Char) :
    c ∈ ResponsePolicy.trim (normalizePath U parent) paths ↔
      (c = normalizePath U parent ∧ Itself U paths (segments U parent)) ∨
        Below U paths (segments U parent) fun rest => c = join '.' rest := by
  rw [ResponsePolicy.trim, Finset.mem_erase, Finset.mem_image]
  constructor
  · rintro ⟨-, path, hpath, rfl⟩
    obtain ⟨hmem, hkeep⟩ := Finset.mem_filter.mp hpath
    have hnormal := hpaths path hmem
    by_cases heq : path = normalizePath U parent
    · rw [if_pos heq]
      exact .inl ⟨heq, path, hmem, (eq_normalizePath_iff hnormal).mp heq⟩
    · have hdesc := hkeep.resolve_left heq
      obtain ⟨rest, hrest⟩ := (isSameOrDescendant_parent hnormal hne).mp hdesc
      have hrestne : rest ≠ [] := by
        rintro rfl
        rw [append_nil] at hrest
        exact heq ((eq_normalizePath_iff hnormal).mpr hrest.symm)
      rw [if_neg heq]
      exact .inr ⟨path, hmem, rest, hrestne, hrest.symm,
        removeLeading_below hnormal hne hrestne hrest.symm⟩
  · rintro (⟨rfl, path, hmem, hsame⟩ | ⟨path, hmem, rest, hrest, hsegments, rfl⟩)
    · have heq : path = normalizePath U parent :=
        (eq_normalizePath_iff (hpaths path hmem)).mpr hsame
      refine ⟨fun h => hne ((normalizePath_eq_nil_iff parent).mp h), path, ?_,
        by rw [if_pos heq, heq]⟩
      exact Finset.mem_filter.mpr ⟨hmem, .inl heq⟩
    · have hnormal := hpaths path hmem
      have hnot : path ≠ normalizePath U parent := by
        intro heq
        rw [eq_normalizePath_iff hnormal, hsegments] at heq
        exact hrest (by simpa using heq)
      refine ⟨fun h => hrest ?_, path, ?_, ?_⟩
      · exact (join_eq_nil_iff (valid_of_normal (normal_rest hsegments))).mp h
      · refine Finset.mem_filter.mpr ⟨hmem, .inr ?_⟩
        exact (isSameOrDescendant_parent hnormal hne).mpr (hsegments ▸ prefix_append _ _)
      · rw [if_neg hnot, removeLeading_below hnormal hne hrest hsegments]

theorem normal_of_mem_trim (hpaths : ∀ path ∈ paths, NormalPath U path)
    (hne : segments U parent ≠ []) {c : List Char}
    (hc : c ∈ ResponsePolicy.trim (normalizePath U parent) paths) : NormalPath U c := by
  rcases (mem_trim_iff hpaths hne c).mp hc with
    ⟨rfl, path, hmem, hsame⟩ | ⟨path, hmem, rest, hrest, hsegments, rfl⟩
  · rw [← (eq_normalizePath_iff (hpaths path hmem)).mpr hsame]
    exact hpaths path hmem
  · have hnormal := normal_rest hsegments
    refine ⟨by rw [normalizePath, segments_join hnormal], fun h => hrest ?_, fun hcomma => ?_⟩
    · exact (join_eq_nil_iff (valid_of_normal hnormal)).mp h
    · have hpath : path = join '.' (segments U parent) ++ '.' :: join '.' rest := by
        rw [← join_append '.' hne hrest, ← hsegments, (hpaths path hmem).join_segments]
      exact (hpaths path hmem).no_comma (hpath ▸ by simp [hcomma])

theorem exists_mem_trim_iff (hpaths : ∀ path ∈ paths, NormalPath U path)
    (hne : segments U parent ≠ []) (R : List (List Char) → Prop) :
    (∃ c ∈ ResponsePolicy.trim (normalizePath U parent) paths, R (segments U c)) ↔
      (Itself U paths (segments U parent) ∧ R (segments U parent)) ∨
        Below U paths (segments U parent) R := by
  constructor
  · rintro ⟨c, hc, hR⟩
    rcases (mem_trim_iff hpaths hne c).mp hc with
      ⟨rfl, hself⟩ | ⟨path, hmem, rest, hrest, hsegments, rfl⟩
    · rw [segments_normalizePath] at hR
      exact .inl ⟨hself, hR⟩
    · rw [segments_join (normal_rest hsegments)] at hR
      exact .inr ⟨path, hmem, rest, hrest, hsegments, hR⟩
  · rintro (⟨hself, hR⟩ | ⟨path, hmem, rest, hrest, hsegments, hR⟩)
    · refine ⟨normalizePath U parent, (mem_trim_iff hpaths hne _).mpr (.inl ⟨rfl, hself⟩), ?_⟩
      rwa [segments_normalizePath]
    · refine ⟨join '.' rest,
        (mem_trim_iff hpaths hne _).mpr (.inr ⟨path, hmem, rest, hrest, hsegments, rfl⟩), ?_⟩
      rwa [segments_join (normal_rest hsegments)]

end

/-- **Visibility in a child policy**, in terms of its parent: the prefix counts as a path of
its own there, paths below it count by what follows it, and paths above it do not count. -/
theorem canView_child_iff (policy : ResponsePolicy U) {parent : List Char}
    (hne : segments U parent ≠ []) (path : List Char) :
    let P := segments U parent
    let Q := segments U path
    (policy.child parent).canView path = true ↔
      Q ≠ [] ∧
        ¬ ((Itself U policy.deniedFields P ∧ P <+: Q) ∨ Below U policy.deniedFields P (· <+: Q)) ∧
        ((policy.allowAll = true ∧ ¬ Above U policy.deniedFields P) ∨
          (Itself U policy.allowedFields P ∧ Related P Q) ∨
          Below U policy.allowedFields P (Related · Q)) := by
  intro P Q
  have hnormalized : normalizePath U parent ≠ [] :=
    fun h => hne ((normalizePath_eq_nil_iff parent).mp h)
  have hallowed : (policy.child parent).allowedFields =
      ResponsePolicy.trim (normalizePath U parent) policy.allowedFields := by
    simp only [ResponsePolicy.child, hnormalized, if_false, ResponsePolicy.make]
    exact normalizePaths_of_normal fun c => normal_of_mem_trim policy.normal_allowed hne
  have hdenied : (policy.child parent).deniedFields =
      ResponsePolicy.trim (normalizePath U parent) policy.deniedFields := by
    simp only [ResponsePolicy.child, hnormalized, if_false, ResponsePolicy.make]
    exact normalizePaths_of_normal fun c => normal_of_mem_trim policy.normal_denied hne
  have hall : (policy.child parent).allowAll = true ↔
      policy.allowAll = true ∧ ¬ Above U policy.deniedFields P := by
    simp only [ResponsePolicy.child, hnormalized, if_false, ResponsePolicy.make, Bool.and_eq_true,
      canView_iff, segments_normalizePath]
    exact and_congr_right fun h => ⟨fun hv => hv.2.1, fun hv => ⟨hne, hv, .inl h⟩⟩
  rw [canView_iff, Above, AnyRelated, hallowed, hdenied, hall,
    exists_mem_trim_iff policy.normal_denied hne (· <+: Q),
    exists_mem_trim_iff policy.normal_allowed hne (Related · Q)]

/-! ### When a child policy agrees with its parent -/

theorem above_append_iff (paths : Finset (List Char)) (P Q : List (List Char)) :
    Above U paths (P ++ Q) ↔ Above U paths P ∨ Below U paths P (· <+: Q) := by
  simp only [Above, Below, prefix_append_iff, and_or_left, exists_or]

theorem anyRelated_append_iff (paths : Finset (List Char)) {P Q : List (List Char)} (hQ : Q ≠ []) :
    AnyRelated U paths (P ++ Q) ↔ Above U paths P ∨ Below U paths P (Related · Q) := by
  constructor
  · rintro ⟨path, hmem, h | h⟩
    · rcases prefix_append_iff.mp h with h | ⟨rest, hrest, hsegments, h⟩
      · exact .inl ⟨path, hmem, h⟩
      · exact .inr ⟨path, hmem, rest, hrest, hsegments, .inl h⟩
    · obtain ⟨rest, hrest, hsegments, h⟩ := (append_prefix_iff hQ).mp h
      exact .inr ⟨path, hmem, rest, hrest, hsegments, .inr h⟩
  · rintro (⟨path, hmem, h⟩ | ⟨path, hmem, rest, hrest, hsegments, h | h⟩)
    · exact ⟨path, hmem, .inl (prefix_append_iff.mpr (.inl h))⟩
    · exact ⟨path, hmem, .inl (prefix_append_iff.mpr (.inr ⟨rest, hrest, hsegments, h⟩))⟩
    · exact ⟨path, hmem, .inr ((append_prefix_iff hQ).mpr ⟨rest, hrest, hsegments, h⟩)⟩

theorem Itself.above {paths : Finset (List Char)} {P : List (List Char)} (h : Itself U paths P) :
    Above U paths P := by
  obtain ⟨path, hmem, hsegments⟩ := h
  exact ⟨path, hmem, hsegments ▸ prefix_rfl⟩

/-- When the two visibilities agree: `dUp`, `dMid` and `dEq` say that a denied entry is at or above
the prefix, between it and the path, or the prefix and at the start of the path; `aUp`, `aMid` and
`aEq` the same of an allowed one. -/
theorem agreement_iff {dUp dEq aUp aEq : Prop} (dMid aMid all : Prop) (hd : dEq → dUp)
    (ha : aEq → aUp) :
    ((¬ (dEq ∨ dMid) ∧ ((all ∧ ¬ dUp) ∨ aEq ∨ aMid)) ↔ (¬ (dUp ∨ dMid) ∧ (all ∨ aUp ∨ aMid))) ↔
      (dMid ∨ (dUp ∧ (dEq ∨ ¬ (aEq ∨ aMid))) ∨ (¬ dUp ∧ (all ∨ (aEq ∨ aMid) ∨ ¬ aUp))) := by
  by_cases hmid : dMid
  · simp [hmid]
  by_cases hup : dUp
  · by_cases hkept : aEq ∨ aMid
    · simp [hmid, hup, hkept]
    · simp [hmid, hup, hkept]
  · have hnot : ¬ dEq := fun h => hup (hd h)
    by_cases hall : all
    · simp [hmid, hup, hnot, hall]
    by_cases hkept : aEq ∨ aMid
    · have hshown : aUp ∨ aMid := hkept.imp ha id
      simp [hmid, hup, hnot, hall, hkept, hshown]
    · rw [not_or] at hkept
      simp [hmid, hup, hnot, hall, hkept]

/-- The condition under which a child policy and its parent **agree**, on a path `Q` below the
prefix `P`:

* the prefix is empty; or
* the path is empty, and the parent hides the prefix; or
* a denied entry lies between the prefix and the whole path; or
* a denied entry is at or above the prefix and the child shows nothing there: the prefix itself is
  denied and starts the path, or no allowed entry that the child keeps is related to the path; or
* no denied entry is at or above the prefix, and an allowed entry above the prefix is not needed:
  everything is allowed, or an allowed entry that the child keeps is related to the path, or no
  allowed entry is at or above the prefix. -/
def ChildAgrees (policy : ResponsePolicy U) (P Q : List (List Char)) : Prop :=
  let kept := (Itself U policy.allowedFields P ∧ Related P Q) ∨
    Below U policy.allowedFields P (Related · Q)
  P = [] ∨
  (Q = [] ∧ (Above U policy.deniedFields P ∨
    (policy.allowAll = false ∧ ¬ AnyRelated U policy.allowedFields P))) ∨
  (Q ≠ [] ∧
    (Below U policy.deniedFields P (· <+: Q) ∨
      (Above U policy.deniedFields P ∧
        ((Itself U policy.deniedFields P ∧ P <+: Q) ∨ ¬ kept)) ∨
      (¬ Above U policy.deniedFields P ∧
        (policy.allowAll = true ∨ kept ∨ ¬ Above U policy.allowedFields P))))

/-- **When a nested view agrees with the whole**: the child policy of a prefix shows a path exactly
when the policy shows `prefix.path`, if and only if `ChildAgrees`. -/
theorem child_canView_eq_iff (policy : ResponsePolicy U) (parent path : List Char) :
    (policy.child parent).canView path = policy.canView (parent ++ '.' :: path) ↔
      ChildAgrees policy (segments U parent) (segments U path) := by
  have hwhole := canView_iff policy (parent ++ '.' :: path)
  rw [segments_append] at hwhole
  by_cases hP : segments U parent = []
  · have hchild : policy.child parent = policy := by
      rw [ResponsePolicy.child, if_pos ((normalizePath_eq_nil_iff parent).mpr hP)]
    have hpath := canView_iff policy path
    rw [hP, nil_append] at hwhole
    rw [hchild, Bool.eq_iff_iff, hpath, hwhole]
    exact iff_of_true Iff.rfl (.inl hP)
  · have hchild := canView_child_iff policy hP path
    simp only at hchild
    rw [Bool.eq_iff_iff, hchild, hwhole, ChildAgrees]
    by_cases hQ : segments U path = []
    · rw [hQ, append_nil]
      simp only [ne_eq, not_true, false_and, false_iff, hP, not_false_eq_true, true_and, false_or,
        or_false, not_and_or, not_not, not_or, Bool.not_eq_true]
    · rw [above_append_iff, anyRelated_append_iff _ hQ]
      have hcore := agreement_iff
        (Below U policy.deniedFields (segments U parent) (· <+: segments U path))
        (Below U policy.allowedFields (segments U parent) (Related · (segments U path)))
        (policy.allowAll = true)
        (fun h : Itself U policy.deniedFields (segments U parent) ∧
          segments U parent <+: segments U path => h.1.above)
        (fun h : Itself U policy.allowedFields (segments U parent) ∧
          Related (segments U parent) (segments U path) => h.1.above)
      have hwholene : segments U parent ++ segments U path ≠ [] := by simp [hP]
      simp only [ne_eq, hP, hQ, hwholene, not_false_eq_true, true_and, false_and, false_or]
      exact hcore

/-- **A denied field shown**: with `a` denied and `a.b` allowed, the policy hides `a.b`, and
its child for `a` shows `b`. -/
theorem child_shows_denied_field :
    let policy := ResponsePolicy.make .ascii {"a.b".toList} {"a".toList} false
    policy.canView "a.b".toList = false ∧
      (policy.child "a".toList).canView "b".toList = true := by
  decide

end ServiceToolkit.Projection
