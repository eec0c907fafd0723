import ServiceToolkit.ImportLaw

/-!
# The Answers of an Import

The answers of the candidates are resolved on a path of their own: grouped by key, the values
of a key are searched for the forced source in the order of the list, or sorted and the first
is taken. Whether this gives what the law of the fields gives is decided key by key.
-/

namespace ServiceToolkit.ImportResolve

open StableSort List Option

section

variable {V : Type*} (py : Python V)

/-- The answer of a candidate. -/
def answer (key : String) (c : Candidate V) : Option V :=
  ((c.items.get? (.text "answers")).bind py.dict).bind fun d => d.get? (.text key)

/-- The entry of a candidate's answer. -/
def answerEntry (key : String) (c : Candidate V) : Option (AnswerEntry V) :=
  (answer py key c).map fun v => ⟨c.toOrigin, v⟩

/-! ### Grouping by key -/

/-- What a group holds: nothing is stored for a key without entries. -/
def group (l : List (AnswerEntry V)) : Option (List (AnswerEntry V)) :=
  if l = [] then none else some l

theorem group_getD (l : List (AnswerEntry V)) : (group l).getD [] = l := by
  rw [group]
  split
  · rename_i h
    exact h.symm
  · rfl

theorem get?_pushItems {c : Candidate V} {byKey byKey' : Dict String (List (AnswerEntry V))}
    {items : List (Key × V)} (h : run (pushAnswer c) byKey items = some byKey') (key : String)
    {old : List (AnswerEntry V)} (hold : byKey.get? key = group old) :
    byKey'.get? key = group (old ++ items.filterMap fun item =>
      if item.1 = .text key then some ⟨c.toOrigin, item.2⟩ else none) := by
  refine run_history (P := fun done (st : Dict String (List (AnswerEntry V))) =>
    st.get? key = group (old ++ done.filterMap fun item =>
      if item.1 = .text key then some ⟨c.toOrigin, item.2⟩ else none))
    (fun {done st item st'} hdone hstep => ?_) (by simpa using hold) h
  obtain ⟨itemKey, v⟩ := item
  cases itemKey with
  | other n => cases hstep
  | text k =>
    cases hstep
    rw [Dict.get?_set, filterMap_append]
    by_cases heq : key = k
    · subst heq
      rw [if_pos rfl, Dict.getD, hdone, group_getD]
      simp [group]
    · have hne : (Key.text k = Key.text key) ↔ False := by simp [Ne.symm heq]
      rw [if_neg heq, hdone]
      simp [hne]

/-- The values of a key are those of the candidates, in their order. -/
theorem get?_answersByKey {candidates : List (Candidate V)}
    {byKey : Dict String (List (AnswerEntry V))}
    (h : answersByKey py candidates = some byKey) (key : String) :
    byKey.get? key = group (candidates.filterMap (answerEntry py key)) := by
  refine run_history (P := fun done (st : Dict String (List (AnswerEntry V))) =>
    st.get? key = group (done.filterMap (answerEntry py key)))
    (fun {done st c st'} hdone hstep => ?_) rfl h
  rw [get?_pushItems hstep key hdone, filterMap_append]
  congr 2
  -- a dictionary holds a key at most once
  have hitems : ∀ d : Dict Key V, (d.entries.filterMap fun item =>
      if item.1 = .text key then some (⟨c.toOrigin, item.2⟩ : AnswerEntry V) else none) =
        ((d.get? (.text key)).map fun v => ⟨c.toOrigin, v⟩).toList := by
    intro d
    rw [toList_map, ← Dict.filterMap_key, map_filterMap]
    congr 1
    funext item
    split <;> rfl
  have hentry : [c].filterMap (answerEntry py key) = (answerEntry py key c).toList := by
    cases h : answerEntry py key c <;> simp [h]
  rw [hentry, answerEntry, answer, answersOf]
  cases (c.items.get? (.text "answers")).bind py.dict with
  | none => rfl
  | some d => exact hitems d

/-! ### The answers of the result -/

variable (sourcePriority : List String) (overrides : Dict String String)

theorem get?_of_answers {entries : List (String × List (AnswerEntry V))}
    (hnodup : (entries.map Prod.fst).Nodup) (start : Dict String V × List String) (key : String) :
    (entries.foldl (answerStep py sourcePriority overrides) start).1.get? key =
      ((entries.lookup key).bind (resolveAnswer py sourcePriority overrides key)).or
        (start.1.get? key) := by
  induction entries generalizing start with
  | nil => rfl
  | cons e entries ih =>
    obtain ⟨k, values⟩ := e
    rw [map_cons, nodup_cons] at hnodup
    rw [foldl_cons, ih hnodup.2, Dict.lookup_cons_eq]
    have hstep : (answerStep py sourcePriority overrides start (k, values)).1.get? key =
        ((if key = k then some values else none).bind
          (resolveAnswer py sourcePriority overrides key)).or (start.1.get? key) := by
      rw [answerStep]
      cases hresolve : resolveAnswer py sourcePriority overrides k values with
      | none =>
        by_cases heq : key = k
        · simp [heq, hresolve]
        · simp [heq]
      | some v =>
        by_cases heq : key = k
        · simp [heq, hresolve]
        · simp [heq]
    rw [hstep]
    by_cases heq : key = k
    · have hnone : entries.lookup key = none := by
        rw [lookup_eq_none_iff]
        intro e' he'
        rw [bne_iff_ne]
        intro hkey
        exact hnodup.1 (mem_map.mpr ⟨e', he', hkey.symm.trans heq⟩)
      simp [heq ▸ hnone, heq]
    · simp [heq]

/-- The answer of the result under a key; `None` where it has none. -/
def resolvedAnswer (result : Dict String (Slot V) × List String) (key : String) : V :=
  match result.1.get? "answers" with
  | some (.answers d) => (d.get? key).getD py.none
  | _ => py.none

theorem resolvedAnswer_eq {identity : String} {items : List V}
    {fieldPriority : Dict String (List String)}
    {manualOverrides : Dict String (Dict String String)} {resolvableFields : List String}
    {result : Dict String (Slot V) × List String}
    (h : resolveCandidates py identity items sourcePriority fieldPriority manualOverrides
      resolvableFields = some result) (key : String) :
    resolvedAnswer py result key = (resolveAnswer py sourcePriority
      (overridesFor identity manualOverrides) key
      ((py.candidates items).filterMap (answerEntry py key))).getD py.none := by
  simp only [resolveCandidates, bind_eq_bind, bind_eq_some_iff] at h
  obtain ⟨st, -, byKey, hbyKey, heq⟩ := h
  cases heq
  have hlookup : byKey.entries.lookup key = _ := get?_answersByKey py hbyKey key
  simp only [resolvedAnswer, Dict.get?_set, if_true]
  rw [get?_of_answers py sourcePriority _ byKey.nodup, hlookup, Dict.get?_empty, or_none, group]
  split
  · rename_i hnil
    simp only [hnil, resolveAnswer, sortBy]
    split <;> simp
  · rfl

end

/-! ### Against the law of the fields -/

section

variable {V : Type*} (py : Python V) (value : Candidate V → Option V)
  (candidates : List (Candidate V)) (priorities : Dict String ℕ) (override : Option String)

/-- **Where the answers keep to the law of the fields.** -/
structure AnswerAgrees : Prop where
  /-- The first listed value of a forced source is its newest. -/
  newest : ∀ source first newest, override = some source →
    candidates.find? (fun c => c.source == source && Has py value c) = some first →
    NewestOf py value candidates source newest → value first = value newest
  /-- If a forced source has no value, the first listed answer, whatever it is, is the least
  value. -/
  least : ∀ source first least, override = some source →
    ¬ ForcedHas py value candidates override →
    candidates.find? (fun c => (value c).isSome) = some first →
    LeastOf py value candidates priorities .empty least → value first = value least
  /-- Without a forced source, the least of all answers is a value if any is. -/
  given : ∀ least, override = none →
    FirstLeast (comparing (compareGlobal priorities) Candidate.toOrigin)
      (fun c => (value c).isSome) candidates least →
    (∃ c ∈ candidates, Has py value c = true) → Has py value least = true

end

section

variable {V : Type*} {py : Python V} {sourcePriority : List String}
  {overrides : Dict String String} {key : String} {candidates : List (Candidate V)}

variable (py key candidates) in
theorem find?_answers (p : AnswerEntry V → Bool) :
    ((candidates.filterMap (answerEntry py key)).find? p).map AnswerEntry.value =
      (candidates.find? fun c => (answerEntry py key c).any p).bind (answer py key) := by
  have hvalue : ∀ c, (answerEntry py key c).map AnswerEntry.value = answer py key c := by
    intro c
    rw [answerEntry, Option.map_map]
    cases answer py key c <;> rfl
  rw [find?_filterMap, Option.map_bind]
  exact congrArg _ (funext hvalue)

theorem head?_eq_find? {α : Type*} (l : List α) : l.head? = l.find? fun _ => true := by
  cases l <;> rfl

theorem answerEntry_any_true (c : Candidate V) :
    ((answerEntry py key c).any fun _ => true) = (answer py key c).isSome := by
  rw [answerEntry]
  cases answer py key c <;> rfl

theorem answerEntry_any_forced (source : String) (c : Candidate V) :
    ((answerEntry py key c).any fun e => e.source == source && !py.isNone e.value) =
      (c.source == source && Has py (answer py key) c) := by
  rw [answerEntry, Has, Python.given]
  cases answer py key c with
  | none => simp
  | some v => cases h : py.isNone v <;> simp [h]

variable {source : String}

/-- **With a forced source** the order of the list decides: the first value of the source, or
else the first answer. -/
theorem resolveAnswer_of_override (hoverride : answerOverride overrides key = some source) :
    resolveAnswer py sourcePriority overrides key (candidates.filterMap (answerEntry py key)) =
      ((candidates.find? fun c => c.source == source && Has py (answer py key) c).bind
        (answer py key)).or
        ((candidates.find? fun c => (answer py key c).isSome).bind (answer py key)) := by
  have hforced := find?_answers py key candidates fun e => e.source == source && !py.isNone e.value
  have hfirst := find?_answers py key candidates fun _ => true
  simp only [answerEntry_any_forced] at hforced
  simp only [answerEntry_any_true] at hfirst
  rw [← hforced, ← hfirst, ← head?_eq_find?]
  simp only [resolveAnswer, hoverride]
  cases (candidates.filterMap (answerEntry py key)).find?
    fun e => e.source == source && !py.isNone e.value <;> rfl

theorem resolveAnswer_of_no_override (hoverride : answerOverride overrides key = none) :
    ((∀ c ∈ candidates, answer py key c = none) ∧ resolveAnswer py sourcePriority overrides key
      (candidates.filterMap (answerEntry py key)) = none) ∨
    ∃ least, FirstLeast (comparing (compareGlobal (ranks sourcePriority)) Candidate.toOrigin)
        (fun c => (answer py key c).isSome) candidates least ∧
      resolveAnswer py sourcePriority overrides key
        (candidates.filterMap (answerEntry py key)) = answer py key least := by
  rw [resolveAnswer, hoverride]
  simp only [head?_eq_find?]
  cases hfind : (sortBy (comparing (compareGlobal (ranks sourcePriority)) AnswerEntry.toOrigin)
      (candidates.filterMap (answerEntry py key))).find? fun _ => true with
  | none =>
    refine .inl ⟨fun c hc => ?_, rfl⟩
    cases hanswer : answer py key c with
    | none => rfl
    | some v =>
      have hmem : (⟨c.toOrigin, v⟩ : AnswerEntry V) ∈ candidates.filterMap (answerEntry py key) :=
        mem_filterMap.mpr ⟨c, hc, by rw [answerEntry, hanswer, map_some]⟩
      exact absurd rfl (find?_eq_none.mp hfind _ (mem_sortBy.mpr hmem))
  | some e =>
    have hcmp : ∀ {x y : Candidate V} {x' y' : AnswerEntry V}, answerEntry py key x = some x' →
        answerEntry py key y = some y' →
        comparing (compareGlobal (ranks sourcePriority)) AnswerEntry.toOrigin x' y' =
          comparing (compareGlobal (ranks sourcePriority)) Candidate.toOrigin x y := by
      intro x y x' y' hx hy
      obtain ⟨_, -, rfl⟩ := map_eq_some_iff.mp hx
      obtain ⟨_, -, rfl⟩ := map_eq_some_iff.mp hy
      rfl
    obtain ⟨least, hleast, hfirst⟩ := (firstLeast_of_find? hfind).of_filterMap hcmp
    simp only [answerEntry_any_true] at hfirst
    obtain ⟨v, hv, rfl⟩ := map_eq_some_iff.mp hleast
    exact .inr ⟨least, hfirst, hv.symm⟩

theorem answer_of_has {c : Candidate V} (h : Has py (answer py key) c = true) :
    ∃ v, answer py key c = some v ∧ v ≠ py.none := by
  obtain ⟨v, hv⟩ := isSome_iff_exists.mp h
  exact ⟨v, given_eq_some hv⟩

theorem answer_of_not_has {c : Candidate V} (h : Has py (answer py key) c = false) :
    (answer py key c).getD py.none = py.none := by
  rw [Has, Python.given, isSome_eq_false_iff, isNone_iff_eq_none, filter_eq_none_iff] at h
  cases hanswer : answer py key c with
  | none => rfl
  | some v =>
    have hnone := h v hanswer
    rw [Bool.not_eq_true', Bool.not_eq_false, py.isNone_iff] at hnone
    exact hnone

variable {priorities : Dict String ℕ}

theorem agrees_iff_of_found {first : Candidate V}
    (hfirst : candidates.find? (fun c => c.source == source && Has py (answer py key) c) =
      some first) :
    (answer py key first).getD py.none =
        pickValue py (answer py key) candidates priorities .empty (some source) ↔
      AnswerAgrees py (answer py key) candidates priorities (some source) := by
  have hmem := mem_of_find?_eq_some hfirst
  have hmeets := find?_some hfirst
  rw [Bool.and_eq_true, beq_iff_eq] at hmeets
  have hforced : ∃ c ∈ candidates, c.source = source ∧ Has py (answer py key) c = true :=
    ⟨first, hmem, hmeets⟩
  obtain ⟨newest, hnewest, hgiven⟩ := pickValue_of_forced priorities .empty rfl hforced
  have hpicked := (given_eq_some hgiven).1
  obtain ⟨v, hv, -⟩ := answer_of_has hmeets.2
  constructor
  · intro heq
    refine ⟨?_, ?_, ?_⟩
    · rintro _ first' newest' ⟨⟩ hfirst' hnewest'
      obtain rfl := some.inj (hfirst.symm.trans hfirst')
      rw [hnewest'.unique hnewest, hpicked, ← heq, hv, getD_some]
    · exact fun _ _ _ _ hnot => absurd ⟨source, rfl, hforced⟩ hnot
    · rintro _ ⟨⟩
  · intro h
    rw [h.newest source first newest rfl hfirst hnewest, hpicked, getD_some]

theorem answered_of_has (h : ∃ c ∈ candidates, Has py (answer py key) c = true) :
    ∃ first, candidates.find? (fun c => (answer py key c).isSome) = some first := by
  obtain ⟨c, hc, hhas⟩ := h
  obtain ⟨v, hv, -⟩ := answer_of_has hhas
  rw [← isSome_iff_exists, find?_isSome]
  exact ⟨c, hc, by rw [hv, isSome_some]⟩

theorem agrees_iff_of_missing
    (hmissing : candidates.find? (fun c => c.source == source && Has py (answer py key) c) =
      none) :
    ((candidates.find? fun c => (answer py key c).isSome).bind (answer py key)).getD py.none =
        pickValue py (answer py key) candidates priorities .empty (some source) ↔
      AnswerAgrees py (answer py key) candidates priorities (some source) := by
  have hnot : ¬ ForcedHas py (answer py key) candidates (some source) := by
    rintro ⟨_, ⟨⟩, c, hc, hsource, hhas⟩
    exact find?_eq_none.mp hmissing c hc (by rw [hhas, hsource, beq_self_eq_true]; rfl)
  have hagrees : AnswerAgrees py (answer py key) candidates priorities (some source) ↔
      ∀ first least, candidates.find? (fun c => (answer py key c).isSome) = some first →
        LeastOf py (answer py key) candidates priorities .empty least →
        answer py key first = answer py key least := by
    refine ⟨fun h first least => h.least source first least rfl hnot, fun h => ⟨?_, ?_, ?_⟩⟩
    · rintro _ first _ ⟨⟩ hfirst
      rw [hmissing] at hfirst
      cases hfirst
    · exact fun _ first least _ _ => h first least
    · rintro _ ⟨⟩
  rw [hagrees]
  by_cases hany : ∃ c ∈ candidates, Has py (answer py key) c = true
  · obtain ⟨least, hleast, hgiven⟩ := pickValue_of_least priorities .empty hnot hany
    have hpicked := (given_eq_some hgiven).1
    obtain ⟨first, hfirst⟩ := answered_of_has hany
    have hanswered : (answer py key first).isSome = true :=
      find?_some (p := fun c => (answer py key c).isSome) hfirst
    obtain ⟨v, hv⟩ := isSome_iff_exists.mp hanswered
    rw [hfirst, bind_some]
    constructor
    · intro heq first' least' hfirst' hleast'
      cases hfirst'
      rw [hleast'.unique hleast, hpicked, ← heq, hv, getD_some]
    · intro h
      rw [h first least rfl hleast, hpicked, getD_some]
  · rw [pickValue_eq_none hany]
    refine ⟨fun _ first least _ hleast => absurd ⟨least, hleast.mem, hleast.meets⟩ hany,
      fun _ => ?_⟩
    cases hfirst : candidates.find? fun c => (answer py key c).isSome with
    | none => rfl
    | some first =>
      exact answer_of_not_has (Bool.eq_false_iff.mpr fun hhas =>
        hany ⟨first, mem_of_find?_eq_some hfirst, hhas⟩)

theorem agrees_iff_of_least {least : Candidate V}
    (hleast : FirstLeast (comparing (compareGlobal priorities) Candidate.toOrigin)
      (fun c => (answer py key c).isSome) candidates least) :
    (answer py key least).getD py.none =
        pickValue py (answer py key) candidates priorities .empty none ↔
      AnswerAgrees py (answer py key) candidates priorities none := by
  have hagrees : AnswerAgrees py (answer py key) candidates priorities none ↔
      ((∃ c ∈ candidates, Has py (answer py key) c = true) →
        Has py (answer py key) least = true) := by
    refine ⟨fun h => h.given least rfl hleast, fun h => ⟨?_, ?_, ?_⟩⟩
    · rintro _ _ _ ⟨⟩
    · rintro _ _ _ ⟨⟩
    · intro least' _ hleast' hany
      exact hleast.unique hleast' ▸ h hany
  rw [hagrees]
  by_cases hany : ∃ c ∈ candidates, Has py (answer py key) c = true
  · have hnot : ¬ ForcedHas py (answer py key) candidates none := by
      rintro ⟨_, ⟨⟩, -⟩
    constructor
    · -- what is picked is not `None`
      intro heq _
      by_contra hhas
      rw [Bool.not_eq_true] at hhas
      rw [answer_of_not_has hhas] at heq
      exact pickValue_ne_none_iff.mpr hany heq.symm
    · intro h
      obtain ⟨picked, hpicked, hgiven⟩ := pickValue_of_least priorities .empty hnot hany
      have hsame : FirstLeast (comparing (compareField priorities .empty) Candidate.toOrigin)
          (Has py (answer py key)) candidates least := by
        rw [compareField_of_empty rfl]
        refine hleast.mono (h hany) fun c hc => ?_
        obtain ⟨v, hv, -⟩ := answer_of_has hc
        rw [hv, isSome_some]
      rw [hsame.unique hpicked, (given_eq_some hgiven).1, getD_some]
  · rw [pickValue_eq_none hany]
    refine ⟨fun _ h => absurd h hany, fun _ => ?_⟩
    exact answer_of_not_has (Bool.eq_false_iff.mpr fun hhas => hany ⟨least, hleast.mem, hhas⟩)

/-- **An answer is resolved by the law of the fields** exactly where the list agrees with it. -/
theorem resolveAnswer_eq_iff : (resolveAnswer py sourcePriority overrides key
        (candidates.filterMap (answerEntry py key))).getD py.none =
      pickValue py (answer py key) candidates (ranks sourcePriority) .empty
        (answerOverride overrides key) ↔
      AnswerAgrees py (answer py key) candidates (ranks sourcePriority)
        (answerOverride overrides key) := by
  cases hoverride : answerOverride overrides key with
  | some source =>
    rw [resolveAnswer_of_override hoverride]
    cases hfirst : candidates.find? fun c => c.source == source && Has py (answer py key) c with
    | some first =>
      have hmeets := find?_some hfirst
      rw [Bool.and_eq_true] at hmeets
      obtain ⟨v, hv, -⟩ := answer_of_has hmeets.2
      rw [bind_some, hv, some_or, ← hv]
      exact agrees_iff_of_found hfirst
    | none => exact agrees_iff_of_missing hfirst
  | none =>
    rcases resolveAnswer_of_no_override hoverride with ⟨hnone, heq⟩ | ⟨least, hleast, heq⟩
    · have hany : ¬ ∃ c ∈ candidates, Has py (answer py key) c = true := by
        rintro ⟨c, hc, hhas⟩
        obtain ⟨v, hv, -⟩ := answer_of_has hhas
        rw [hnone c hc] at hv
        cases hv
      rw [heq, pickValue_eq_none hany, getD_none]
      refine ⟨fun _ => ⟨?_, ?_, fun _ _ _ h => absurd h hany⟩, fun _ => rfl⟩
      · rintro _ _ _ ⟨⟩
      · rintro _ _ _ ⟨⟩
    · rw [heq]
      exact agrees_iff_of_least hleast

end

/-! ### The whole call -/

section

variable {V : Type*} (py : Python V)

/-- **Nothing raises**: the values compared have a `repr`, and the answers' keys are texts. -/
structure Readable (candidates : List (Candidate V)) (resolvableFields : List String) : Prop where
  repr : ∀ field ∈ resolvableFields, field ∉ ["_status_alias", "review_reason"] →
    ∀ c ∈ candidates, ∀ v, py.given (c.items.get? (.text field)) = some v → (py.repr v).isSome
  keys : ∀ c ∈ candidates, ∀ item ∈ answersOf py c, ∃ key, item.1 = .text key

theorem mapM_isSome_iff {α β : Type*} (f : α → Option β) (l : List α) :
    (l.mapM f).isSome = true ↔ ∀ x ∈ l, (f x).isSome = true := by
  induction l with
  | nil => simp
  | cons x l ih =>
    rw [mapM_cons, forall_mem_cons, ← ih]
    cases f x <;> cases l.mapM f <;> simp

theorem fieldConflict_isSome_iff (candidates : List (Candidate V)) (field : String) :
    (fieldConflict py candidates field).isSome = true ↔
      (field ∉ ["_status_alias", "review_reason"] →
        ∀ c ∈ candidates, ∀ v, py.given (c.items.get? (.text field)) = some v →
          (py.repr v).isSome) := by
  rw [fieldConflict]
  split
  · rename_i hskip
    exact iff_of_true rfl fun h => absurd hskip h
  · rename_i hskip
    simp only [isSome_map, mapM_isSome_iff, mem_filterMap, forall_exists_index,
      and_imp, hskip, not_false_eq_true, forall_const]
    exact ⟨fun h c hc v hv => h v c hc hv, fun h v c hc hv => h c hc v hv⟩

theorem answersByKey_isSome_iff (candidates : List (Candidate V)) :
    (answersByKey py candidates).isSome = true ↔
      ∀ c ∈ candidates, ∀ item ∈ answersOf py c, ∃ key, item.1 = .text key := by
  have hitem : ∀ c (byKey : Dict String (List (AnswerEntry V))) (item : Key × V),
      (pushAnswer c byKey item).isSome = true ↔ ∃ key, item.1 = .text key := by
    intro c byKey item
    obtain ⟨k, v⟩ := item
    cases k <;> simp [pushAnswer]
  have hcandidate : ∀ byKey c, (pushAnswers py byKey c).isSome = true ↔
      ∀ item ∈ answersOf py c, ∃ key, item.1 = .text key :=
    fun byKey c => run_isSome_iff (hitem c) byKey _
  exact run_isSome_iff hcandidate _ candidates

variable (identity : String) (items : List V) (sourcePriority : List String)
  (fieldPriority : Dict String (List String)) (manualOverrides : Dict String (Dict String String))
  (resolvableFields : List String)

theorem resolveCandidates_isSome_iff :
    (resolveCandidates py identity items sourcePriority fieldPriority manualOverrides
      resolvableFields).isSome = true ↔ Readable py (py.candidates items) resolvableFields := by
  have hfield : ∀ st field, (fieldStep py sourcePriority fieldPriority
      (overridesFor identity manualOverrides) (py.candidates items) st field).isSome = true ↔
      (field ∉ ["_status_alias", "review_reason"] →
        ∀ c ∈ py.candidates items, ∀ v, py.given (c.items.get? (.text field)) = some v →
          (py.repr v).isSome) := by
    intro st field
    rw [fieldStep, isSome_map, fieldConflict_isSome_iff]
  have hfields := run_isSome_iff hfield (Dict.empty.set "answers" (.answers .empty), [])
    resolvableFields
  have hanswers := answersByKey_isSome_iff py (py.candidates items)
  simp only [resolveCandidates, bind_eq_bind]
  constructor
  · intro h
    obtain ⟨result, hresult⟩ := isSome_iff_exists.mp h
    obtain ⟨st, hst, hrest⟩ := bind_eq_some_iff.mp hresult
    obtain ⟨byKey, hbyKey, -⟩ := bind_eq_some_iff.mp hrest
    refine ⟨hfields.mp (isSome_of_eq_some hst), hanswers.mp ?_⟩
    exact isSome_of_eq_some hbyKey
  · intro h
    obtain ⟨st, hst⟩ := isSome_iff_exists.mp (hfields.mpr h.repr)
    obtain ⟨byKey, hbyKey⟩ := isSome_iff_exists.mp (hanswers.mpr h.keys)
    rw [hst, bind_some, hbyKey, bind_some, isSome_some]

/-- The order of the candidates does not decide whether anything raises. -/
theorem Readable.perm {candidates candidates' : List (Candidate V)}
    (h : Readable py candidates resolvableFields)
    (hperm : candidates'.Perm candidates) : Readable py candidates' resolvableFields :=
  ⟨fun field hfield hskip c hc => h.repr field hfield hskip c (hperm.mem_iff.mp hc),
    fun c hc => h.keys c (hperm.mem_iff.mp hc)⟩

variable (key : String)

/-- For one list: the call returns and its answer is the one the law of the fields gives, exactly
when nothing raises and the list agrees. -/
theorem answer_lawful_iff :
    (∃ result, resolveCandidates py identity items sourcePriority fieldPriority manualOverrides
        resolvableFields = some result ∧
      resolvedAnswer py result key = pickValue py (answer py key) (py.candidates items)
        (ranks sourcePriority) .empty
        (answerOverride (overridesFor identity manualOverrides) key)) ↔
      Readable py (py.candidates items) resolvableFields ∧
        AnswerAgrees py (answer py key) (py.candidates items) (ranks sourcePriority)
          (answerOverride (overridesFor identity manualOverrides) key) := by
  rw [← resolveCandidates_isSome_iff py identity items sourcePriority fieldPriority
    manualOverrides resolvableFields, isSome_iff_exists]
  constructor
  · rintro ⟨result, hresult, heq⟩
    rw [resolvedAnswer_eq py sourcePriority hresult] at heq
    exact ⟨⟨result, hresult⟩, resolveAnswer_eq_iff.mp heq⟩
  · rintro ⟨⟨result, hresult⟩, hagrees⟩
    refine ⟨result, hresult, ?_⟩
    rw [resolvedAnswer_eq py sourcePriority hresult]
    exact resolveAnswer_eq_iff.mpr hagrees

/-- **The law of the answers.** The answer under a key is the one the law of the fields gives, and,
if no two candidates share source and time, is the same for every order of them, exactly when
nothing raises and the list agrees, and in that case every order of it: the first listed value of a
forced source is its newest; if it has none, the first listed answer is the least value; and without
a forced source the least answer is a value. -/
theorem answers_law_iff :
    (∃ result, resolveCandidates py identity items sourcePriority fieldPriority manualOverrides
        resolvableFields = some result ∧
      resolvedAnswer py result key = pickValue py (answer py key) (py.candidates items)
        (ranks sourcePriority) .empty
        (answerOverride (overridesFor identity manualOverrides) key) ∧
      (((py.candidates items).map Candidate.toOrigin).Nodup → ∀ items', items'.Perm items →
        ∃ result', resolveCandidates py identity items' sourcePriority fieldPriority
          manualOverrides resolvableFields = some result' ∧
        resolvedAnswer py result' key = resolvedAnswer py result key)) ↔
      Readable py (py.candidates items) resolvableFields ∧
        AnswerAgrees py (answer py key) (py.candidates items) (ranks sourcePriority)
          (answerOverride (overridesFor identity manualOverrides) key) ∧
        (((py.candidates items).map Candidate.toOrigin).Nodup → ∀ items', items'.Perm items →
          AnswerAgrees py (answer py key) (py.candidates items') (ranks sourcePriority)
            (answerOverride (overridesFor identity manualOverrides) key)) := by
  have hlaw := fun items => answer_lawful_iff py identity items sourcePriority fieldPriority
    manualOverrides resolvableFields key
  constructor
  · rintro ⟨result, hresult, heq, horder⟩
    obtain ⟨hreadable, hagrees⟩ := (hlaw items).mp ⟨result, hresult, heq⟩
    refine ⟨hreadable, hagrees, fun hdistinct items' hperm => ?_⟩
    obtain ⟨result', hresult', heq'⟩ := horder hdistinct items' hperm
    refine ((hlaw items').mp ⟨result', hresult', ?_⟩).2
    rw [heq', heq, pickValue_perm (candidates_perm py hperm) hdistinct]
  · rintro ⟨hreadable, hagrees, horder⟩
    obtain ⟨result, hresult, heq⟩ := (hlaw items).mpr ⟨hreadable, hagrees⟩
    refine ⟨result, hresult, heq, fun hdistinct items' hperm => ?_⟩
    have hperm' := candidates_perm py hperm
    obtain ⟨result', hresult', heq'⟩ :=
      (hlaw items').mpr ⟨hreadable.perm py _ hperm', horder hdistinct items' hperm⟩
    refine ⟨result', hresult', ?_⟩
    rw [heq', heq, pickValue_perm hperm' hdistinct]

end

/-! ### An answer that is lost -/

/-- A few Python values. -/
inductive Plain where
  | none
  | text (s : String)
  | number (n : ℕ)
  | dict (items : List (String × Plain))

/-- What the code asks of them; no text is a time. -/
def plain : Python Plain where
  none := .none
  isNone v := match v with
    | .none => true
    | _ => false
  isNone_iff v := by cases v <;> simp
  text v := match v with
    | .text s => some s
    | _ => none
  dict v := match v with
    | .dict items => some (.ofList (items.map fun item => (.text item.1, item.2)))
    | _ => none
  repr v := match v with
    | .none => some "None"
    | .text s => some s
    | .number n => some n.repr
    | .dict _ => some "\x7b...\x7d"
  timestamp _ := none

/-- A candidate with one answer. -/
def oneAnswer (source : String) (value : Plain) : Plain :=
  .dict [("_source", .text source), ("answers", .dict [("age", value)])]

/-- The preferred source answers `None` and another one 7: the answer is `None`, although the law
of the fields gives a value. -/
theorem answer_lost :
    let items := [oneAnswer "form" .none, oneAnswer "sheet" (.number 7)]
    ∃ result, resolveCandidates plain "user" items ["form"] .empty .empty [] = some result ∧
      resolvedAnswer plain result "age" = plain.none ∧
      pickValue plain (answer plain "age") (plain.candidates items) (ranks ["form"]) .empty
        (answerOverride (overridesFor "user" .empty) "age") ≠ plain.none := by
  intro items
  have hreturns : (resolveCandidates plain "user" items ["form"] .empty .empty []).isSome = true :=
    by decide +kernel
  obtain ⟨result, hresult⟩ := isSome_iff_exists.mp hreturns
  refine ⟨result, hresult, ?_, pickValue_ne_none_iff.mpr ?_⟩
  · rw [resolvedAnswer_eq plain ["form"] hresult]
    have hsorted : sortBy (comparing (compareGlobal (ranks ["form"])) AnswerEntry.toOrigin)
        ((plain.candidates items).filterMap (answerEntry plain "age")) =
          (plain.candidates items).filterMap (answerEntry plain "age") :=
      mergeSort_of_pairwise (by decide +kernel)
    have hoverride : answerOverride (overridesFor "user" .empty) "age" = none := by decide +kernel
    simp only [resolveAnswer, hoverride, hsorted]
    rfl
  · have hany : (plain.candidates items).any (Has plain (answer plain "age")) = true := by
      decide +kernel
    exact any_eq_true.mp hany

end ServiceToolkit.ImportResolve
