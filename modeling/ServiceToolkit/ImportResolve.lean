import Mathlib.Algebra.Order.Ring.Rat
import Mathlib.Data.String.Basic
import Mathlib.Order.WithBot
import ServiceToolkit.Dict
import ServiceToolkit.Runs
import ServiceToolkit.StableSort

/-!
# Resolving Imports

Several sources propose values for the fields of one identity, and `resolve_candidates` picks
one for each field: that of a source forced by a manual override, or that of the candidate that
comes first by the field's own priorities, the priorities of the sources, the newest time and
the source's name. The answers of a form, a dictionary inside a candidate, are resolved key by
key on a path of their own.

Python values are seen through what the code asks of them (`Python`): whether a value is
`None`, its text, its items, its `repr`. Timestamps, `f64` in the source, are rational numbers
or minus infinity. Hash maps are dictionaries: nothing the code returns depends on the order in
which it walks through one, except the order of the keys of the resolved answers.

An index of the source stands for its candidate, so a vector of indices is a list of candidates
here.
-/

namespace ServiceToolkit.ImportResolve

open StableSort

/-! ### Python values -/

/-- A key of a Python dictionary: a text, or one of the other keys. -/
inductive Key where
  | text (s : String)
  | other (n : ℕ)
  deriving DecidableEq

/-- What the code asks of **Python values**. `repr` may raise, and so may
`datetime.fromisoformat(text).timestamp()`. -/
structure Python (V : Type*) where
  none : V
  isNone : V → Bool
  isNone_iff : ∀ v, isNone v = true ↔ v = none
  text : V → Option String
  dict : V → Option (Dict Key V)
  repr : V → Option String
  timestamp : String → Option ℚ

variable {V : Type*}

/-- Where a value comes from. -/
@[ext] structure Origin where
  source : String
  timestamp : WithBot ℚ
  deriving DecidableEq

/-- A candidate that is a dictionary, with its source and its time. -/
structure Candidate (V : Type*) extends Origin where
  items : Dict Key V

/-- `AnswerEntry`. -/
structure AnswerEntry (V : Type*) extends Origin where
  value : V

namespace Python

variable (py : Python V)

/-- `entry_timestamp_order`. -/
def entryTimestampOrder (candidate : Dict Key V) : WithBot ℚ :=
  match (candidate.get? (.text "message_created_at")).bind py.text with
  | some s => if s = "" then ⊥ else (py.timestamp (s.replace "Z" "+00:00")).elim ⊥ fun t => ↑t
  | .none => ⊥

/-- The candidates: items of the list that are no dictionaries are dropped. -/
def candidates (items : List V) : List (Candidate V) :=
  (items.filterMap py.dict).map fun d =>
    { source := ((d.get? (.text "_source")).bind py.text).getD "unknown"
      timestamp := py.entryTimestampOrder d
      items := d }

/-- The value, if it is not `None`. -/
def given (value : Option V) : Option V := value.filter fun v => !py.isNone v

end Python

/-! ### Picking a value -/

/-- The ranks of a list of sources, by their last position. -/
def ranks (sources : List String) : Dict String ℕ := .ofList sources.zipIdx

/-- The rank of a source. -/
def rank (priorities : Dict String ℕ) (source : String) : ℕ :=
  (priorities.get? source).getD 10000

/-- The newer comes first. -/
def compareNewest : Origin → Origin → Ordering :=
  comparing (fun a b => compare b a) Origin.timestamp

/-- The global order. -/
def compareGlobal (priorities : Dict String ℕ) : Origin → Origin → Ordering :=
  compareLex (compareOn fun o => rank priorities o.source) <|
  compareLex compareNewest (compareOn Origin.source)

/-- The order for a field with priorities of its own. -/
def compareField (priorities fieldPriorities : Dict String ℕ) : Origin → Origin → Ordering :=
  compareLex (compareOn fun o => rank fieldPriorities o.source) (compareGlobal priorities)

section

variable (py : Python V) (value : Candidate V → Option V)

/-- The first value that is not `None`. -/
def firstGiven (l : List (Candidate V)) : Option V := l.findSome? fun c => py.given (value c)

/-- The candidates of the forced source, the newest first. -/
def forcedCandidates (candidates : List (Candidate V)) (forced : String) : List (Candidate V) :=
  let newest := comparing compareNewest Candidate.toOrigin
  (sortBy (compareLex (comparing newest Prod.fst) (compareOn Prod.snd))
    (candidates.zipIdx.filter fun c => c.1.source == forced)).map Prod.fst

/-- The body of `pick_field_value`, with the value a candidate has as a parameter. -/
def pickValue (candidates : List (Candidate V)) (priorities fieldPriorities : Dict String ℕ)
    (forcedSource : Option String) : V :=
  match forcedSource.bind fun forced =>
    firstGiven py value (forcedCandidates candidates forced) with
  | some v => v
  | none =>
    let indices :=
      if fieldPriorities.entries = [] then candidates
      else sortBy (comparing (compareField priorities fieldPriorities) Candidate.toOrigin)
        candidates
    match if fieldPriorities.entries = [] then none else firstGiven py value indices with
    | some v => v
    | none =>
      (firstGiven py value
        (sortBy (comparing (compareGlobal priorities) Candidate.toOrigin) indices)).getD py.none

/-- `pick_field_value`. -/
def pickFieldValue (field : String) (candidates : List (Candidate V))
    (priorities fieldPriorities : Dict String ℕ) (forcedSource : Option String) : V :=
  pickValue py (fun c => c.items.get? (.text field)) candidates priorities fieldPriorities
    forcedSource

end

/-! ### Resolving the fields -/

/-- What `resolve_candidates` stores under a key of its result. -/
inductive Slot (V : Type*) where
  | value (v : V)
  | answers (d : Dict String V)

/-- The overrides for an identity. -/
def overridesFor (identity : String) (manualOverrides : Dict String (Dict String String)) :
    Dict String String :=
  ((manualOverrides.get? identity).or (manualOverrides.get? "*")).getD .empty

section

variable (py : Python V) (sourcePriority : List String)
  (fieldPriority : Dict String (List String)) (overrides : Dict String String)

/-- The value of a field. -/
def fieldValue (candidates : List (Candidate V)) (field : String) : V :=
  pickFieldValue py field candidates (ranks sourcePriority)
    ((fieldPriority.get? field).elim .empty ranks) (overrides.get? field)

/-- The candidates differ on a field; `none` when a `repr` raises. -/
def fieldConflict (candidates : List (Candidate V)) (field : String) : Option Bool :=
  if field ∈ ["_status_alias", "review_reason"] then some false
  else
    ((candidates.filterMap fun c => py.given (c.items.get? (.text field))).mapM py.repr).map
      fun reprs => decide (reprs.dedup.length > 1)

/-- One iteration over the resolvable fields. -/
def fieldStep (candidates : List (Candidate V)) (st : Dict String (Slot V) × List String)
    (field : String) : Option (Dict String (Slot V) × List String) :=
  (fieldConflict py candidates field).map fun conflict =>
    (st.1.set field
        (.value (fieldValue py sourcePriority fieldPriority overrides candidates field)),
      if conflict then st.2 ++ [field] else st.2)

/-! ### Resolving the answers -/

/-- The items of a candidate's answers. -/
def answersOf (c : Candidate V) : List (Key × V) :=
  ((c.items.get? (.text "answers")).bind py.dict).elim [] Dict.entries

/-- One answer is pushed; a key that is no text raises. -/
def pushAnswer (c : Candidate V) (byKey : Dict String (List (AnswerEntry V))) (item : Key × V) :
    Option (Dict String (List (AnswerEntry V))) :=
  match item.1 with
  | .text key => some (byKey.set key (byKey.getD key [] ++ [⟨c.toOrigin, item.2⟩]))
  | .other _ => none

/-- The answers of one candidate are pushed. -/
def pushAnswers (byKey : Dict String (List (AnswerEntry V))) (c : Candidate V) :
    Option (Dict String (List (AnswerEntry V))) :=
  run (pushAnswer c) byKey (answersOf py c)

/-- `answers_by_key`. -/
def answersByKey (candidates : List (Candidate V)) :
    Option (Dict String (List (AnswerEntry V))) :=
  run (pushAnswers py) .empty candidates

/-- The source that is forced for an answer. -/
def answerOverride (key : String) : Option String :=
  (overrides.get? ("answers." ++ key)).or (overrides.get? "answers")

/-- The value of an answer, from the values pushed for its key. -/
def resolveAnswer (key : String) (values : List (AnswerEntry V)) : Option V :=
  match answerOverride overrides key with
  | some overrideSource =>
    match values.find? fun e => e.source == overrideSource && !py.isNone e.value with
    | some e => some e.value
    | none => values.head?.map AnswerEntry.value
  | none =>
    (sortBy (comparing (compareGlobal (ranks sourcePriority)) AnswerEntry.toOrigin)
      values).head?.map AnswerEntry.value

/-- The values of an answer differ. A `repr` that raises counts as the empty text. -/
def answerConflict (values : List (AnswerEntry V)) : Bool :=
  decide ((values.map fun e => (py.repr e.value).getD "").dedup.length > 1)

/-- One iteration over the answers' keys. -/
def answerStep (st : Dict String V × List String) (entry : String × List (AnswerEntry V)) :
    Dict String V × List String :=
  match resolveAnswer py sourcePriority overrides entry.1 entry.2 with
  | none => st
  | some v =>
    (st.1.set entry.1 v,
      if answerConflict py entry.2 then st.2 ++ ["answers." ++ entry.1] else st.2)

end

/-- `resolve_candidates`. It raises where it returns `none` here. -/
def resolveCandidates (py : Python V) (identity : String) (candidates : List V)
    (sourcePriority : List String) (fieldPriority : Dict String (List String))
    (manualOverrides : Dict String (Dict String String)) (resolvableFields : List String) :
    Option (Dict String (Slot V) × List String) := do
  let candidateDicts := py.candidates candidates
  let overrides := overridesFor identity manualOverrides
  let (resolved, fieldConflicts) ←
    run (fieldStep py sourcePriority fieldPriority overrides candidateDicts)
      (Dict.empty.set "answers" (.answers .empty), []) resolvableFields
  let byKey ← answersByKey py candidateDicts
  let (answersResolved, conflictFields) :=
    byKey.entries.foldl (answerStep py sourcePriority overrides) (.empty, fieldConflicts)
  some (resolved.set "answers" (.answers answersResolved),
    (conflictFields.mergeSort fun a b => decide (a ≤ b)).dedup)

end ServiceToolkit.ImportResolve
