import Mathlib.Algebra.BigOperators.Group.List.Basic
import ServiceToolkit.Dict
import ServiceToolkit.Json

/-!
# The Secret-Scan Gate

The last word on a secret scan is a count: `evaluate_secret_report` reads the report the scanner
wrote, takes off the findings whose hashes the baseline lists, and `run_step` reports the step as
passed if none is left. Both files are whatever is on the disk when the step's command has ended.
`FileText` is the outcome of reading one: reading fails, `serde_json` refuses what was read, or it
gives a document of any shape.

A gate **fails closed** if a passed step means that the report was understood (`Accepted`). What is
not understood counts as no finding here, so it does not (`passed_accepted_iff`).
-/

namespace ServiceToolkit.SecretGate

open Json List

/-! ### Reading JSON -/

/-- What reading a file as JSON gives: an error of the file system, an error of `from_str`, or the
document. -/
inductive FileText
  | unreadable
  | notJson
  | json (data : Value)

/-- `as_object`: the members by name, the last of several with one name, in the order of a
`BTreeMap`. -/
def asObject : Value → Option (List (String × Value))
  | .dict members => some ((Dict.ofList members).entries.mergeSort fun a b => decide (a.1 ≤ b.1))
  | _ => none

/-- `as_array`. -/
def asArray : Value → Option (List Value)
  | .list elements => some elements
  | _ => none

/-- `as_str`. -/
def asStr : Value → Option String
  | .str text => some text
  | _ => none

/-- The results of a report or a baseline. -/
def results (data : Value) : Option (List (String × Value)) :=
  (data.get? "results").bind asObject

/-- The hash of a finding. -/
def hashedSecret (item : Value) : Option String := (item.get? "hashed_secret").bind asStr

/-- `load_baseline_hashes`. -/
def loadBaselineHashes : FileText → List String
  | .json data =>
    ((results data).getD []).flatMap fun field =>
      ((asArray field.2).getD []).filterMap hashedSecret
  | .unreadable | .notJson => []

/-- A finding the baseline lists. -/
def isBaselined (baseline : List String) (item : Value) : Bool :=
  (hashedSecret item).any baseline.contains

/-! ### The report -/

/-- The counters of `evaluate_secret_report`. -/
structure Tally where
  total : ℕ := 0
  unbaselined : ℕ := 0
  perFile : List String := []

/-- The findings of an array that the baseline does not list. -/
def flagged (baseline : List String) (items : List Value) : ℕ :=
  items.countP fun item => !isBaselined baseline item

/-- One round of the loop over the results. -/
def Tally.visit (baseline : List String) (t : Tally) (field : String × Value) : Tally :=
  match asArray field.2 with
  | none => t
  | some items =>
    if items.isEmpty then t
    else
      let new := flagged baseline items
      let total := t.total + items.length
      if 0 < new then
        { total, unbaselined := t.unbaselined + new
          perFile := t.perFile ++ [field.1 ++ ": " ++ toString new] }
      else { t with total }

/-- The line about a report with findings. -/
def Tally.summary (t : Tally) : String :=
  let baselined := t.total - t.unbaselined
  toString t.unbaselined ++ " new finding(s)" ++
    (if 0 < baselined then " (" ++ toString baselined ++ " baselined)" else "") ++
    (if t.perFile.isEmpty then "" else " — " ++ "; ".intercalate t.perFile)

/-- `evaluate_secret_report`, of the texts of the report and the baseline. -/
def evaluateSecretReport (report baseline : FileText) : ℕ × String :=
  match report with
  | .unreadable => (0, "no report")
  | .notJson => (0, "0 findings")
  | .json data =>
    match results data with
    | none => (0, "0 findings")
    | some fields =>
      let t := fields.foldl (Tally.visit (loadBaselineHashes baseline)) {}
      if t.total = 0 then (0, "0 findings") else (t.unbaselined, t.summary)

/-! ### The engine -/

inductive Status
  | ok
  | fail
  | skip
  deriving DecidableEq

structure Step where
  name : String
  command : List String
  stdoutPath : Option String
  isSecretScan : Bool

structure StepResult where
  name : String
  status : Status
  detail : String

/-- What the system did with the command of a step: the error of creating the report file, and the
exit code, if the command was launched and ended by itself. -/
structure Execution where
  createError : Option String
  exitCode : Option ℤ

/-- `run_step`. -/
def runStep (step : Step) (dryRun : Bool) (execution : Execution)
    (secretEvaluator : Option (String → ℕ × String)) : StepResult :=
  let result (status : Status) (detail : String) : StepResult := ⟨step.name, status, detail⟩
  if dryRun then result .skip "dry-run"
  else
    match step.stdoutPath, execution.createError with
    | some _, some err => result .fail ("cannot write report: " ++ err)
    | _, _ =>
      match execution.exitCode with
      | none => result .fail "failed to launch"
      | some code =>
        if code ≠ 0 then result .fail ("exit " ++ toString code)
        else
          match step.isSecretScan, secretEvaluator, step.stdoutPath with
          | true, some eval, some path =>
            let (findings, summary) := eval path
            result (if 0 < findings then .fail else .ok) summary
          | _, _, _ => result .ok ""

/-- A step in its turn: what the system does with its command, and the files when that is over. -/
structure Turn where
  step : Step
  execution : Execution
  files : String → FileText

/-- `run`: the results of all steps, and the exit code of the gate. An evaluator reads the files as
they are in its step's turn. -/
def run (turns : List Turn) (dryRun : Bool)
    (secretEvaluator : Option ((String → FileText) → String → ℕ × String)) :
    List StepResult × ℤ :=
  let results := turns.map fun turn =>
    runStep turn.step dryRun turn.execution (secretEvaluator.map (· turn.files))
  (results, if results.any (·.status = .fail) then 1 else 0)

/-- `SECRET_BASELINE`. -/
def secretBaseline : String := ".secrets.baseline"

/-- The evaluator of `run_python_gate`, on the files it finds. -/
def evaluator (files : String → FileText) (path : String) : ℕ × String :=
  evaluateSecretReport (files path) (files secretBaseline)

/-! ### What the gate promises -/

/-- A finding in an array of the results. -/
def Finding (file : FileText) (item : Value) : Prop :=
  ∃ data res name items, file = .json data ∧ data.get? "results" = some res ∧
    res.get? name = some (.list items) ∧ item ∈ items

/-- The finding has a hash that the baseline lists. -/
def Listed (baseline : FileText) (item : Value) : Prop :=
  ∃ hash known, item.get? "hashed_secret" = some (.str hash) ∧ Finding baseline known ∧
    known.get? "hashed_secret" = some (.str hash)

/-- The report is an object whose results are an object of arrays. -/
def WellShaped (report : FileText) : Prop :=
  ∃ data members, report = .json data ∧ data.get? "results" = some (.dict members) ∧
    ∀ name value, (Value.dict members).get? name = some value → ∃ items, value = .list items

/-- **An accepted report**: it is understood, and the baseline lists every finding. -/
def Accepted (report baseline : FileText) : Prop :=
  WellShaped report ∧ ∀ item, Finding report item → Listed baseline item

/-! ### Reading a file -/

theorem asObject_eq_some {v : Value} {fields : List (String × Value)}
    (h : asObject v = some fields) : (∃ members, v = .dict members) ∧
      ∀ name value, (name, value) ∈ fields ↔ v.get? name = some value := by
  cases v with
  | dict members =>
    cases h
    refine ⟨⟨members, rfl⟩, fun name value => ?_⟩
    rw [mem_mergeSort, Dict.mem_entries_iff, Dict.get?_ofList]
    rfl
  | null | bool | int | float | str | list => cases h

theorem mem_results_iff {data : Value} {fields : List (String × Value)}
    (h : results data = some fields) {name : String} {value : Value} :
    (name, value) ∈ fields ↔
      ∃ res, data.get? "results" = some res ∧ res.get? name = some value := by
  obtain ⟨res, hres, hfields⟩ := Option.bind_eq_some_iff.mp h
  rw [(asObject_eq_some hfields).2]
  constructor
  · exact fun hvalue => ⟨res, hres, hvalue⟩
  · rintro ⟨res', hres', hvalue⟩
    obtain rfl := Option.some.inj (hres.symm.trans hres')
    exact hvalue

theorem asObject_of_get? {v value : Value} {name : String} (h : v.get? name = some value) :
    ∃ fields, asObject v = some fields := by
  cases v with
  | dict members => exact ⟨_, rfl⟩
  | null | bool | int | float | str | list => cases h

theorem asArray_eq_some_iff {v : Value} {items : List Value} :
    asArray v = some items ↔ v = .list items := by
  cases v <;> simp [asArray]

theorem finding_json_iff {data item : Value} :
    Finding (.json data) item ↔ ∃ fields, results data = some fields ∧
      ∃ field ∈ fields, item ∈ (asArray field.2).getD [] := by
  constructor
  · rintro ⟨_, res, name, items, ⟨⟩, hres, hvalue, hitem⟩
    obtain ⟨fields, hfields⟩ := asObject_of_get? hvalue
    have hresults : results data = some fields := by
      rw [results, hres, Option.bind_some, hfields]
    exact ⟨fields, hresults, (name, .list items),
      (mem_results_iff hresults).mpr ⟨res, hres, hvalue⟩, hitem⟩
  · rintro ⟨fields, hresults, ⟨name, value⟩, hfield, hitem⟩
    obtain ⟨res, hres, hvalue⟩ := (mem_results_iff hresults).mp hfield
    cases hitems : asArray value with
    | none => simp [hitems] at hitem
    | some items =>
      rw [asArray_eq_some_iff.mp hitems] at hvalue
      rw [hitems] at hitem
      exact ⟨data, res, name, items, rfl, hres, hvalue, hitem⟩

theorem hashedSecret_eq_some_iff {item : Value} {hash : String} :
    hashedSecret item = some hash ↔ item.get? "hashed_secret" = some (.str hash) := by
  have hstr : ∀ {v : Value}, asStr v = some hash ↔ v = .str hash := by
    intro v
    cases v <;> simp [asStr]
  simp [hashedSecret, Option.bind_eq_some_iff, hstr]

theorem mem_loadBaselineHashes_iff {baseline : FileText} {hash : String} :
    hash ∈ loadBaselineHashes baseline ↔
      ∃ known, Finding baseline known ∧ known.get? "hashed_secret" = some (.str hash) := by
  cases baseline with
  | unreadable | notJson =>
    refine iff_of_false not_mem_nil ?_
    rintro ⟨known, ⟨_, _, _, _, ⟨⟩, -⟩, -⟩
  | json data =>
    simp only [loadBaselineHashes, mem_flatMap, mem_filterMap,
      hashedSecret_eq_some_iff, finding_json_iff]
    constructor
    · rintro ⟨field, hfield, item, hitem, hhash⟩
      cases hresults : results data with
      | none => simp [hresults] at hfield
      | some fields =>
        rw [hresults] at hfield
        exact ⟨item, ⟨fields, rfl, field, hfield, hitem⟩, hhash⟩
    · rintro ⟨item, ⟨fields, hresults, field, hfield, hitem⟩, hhash⟩
      rw [hresults]
      exact ⟨field, hfield, item, hitem, hhash⟩

theorem isBaselined_iff {baseline : FileText} {item : Value} :
    isBaselined (loadBaselineHashes baseline) item = true ↔ Listed baseline item := by
  simp only [isBaselined, Option.any_eq_true, contains_iff_mem, mem_loadBaselineHashes_iff,
    hashedSecret_eq_some_iff, Listed]
  constructor
  · rintro ⟨hash, hhash, known, hknown⟩
    exact ⟨hash, known, hhash, hknown⟩
  · rintro ⟨hash, known, hhash, hknown⟩
    exact ⟨hash, hhash, known, hknown⟩

/-! ### The count -/

/-- The findings of a member of the results. -/
def items (field : String × Value) : List Value := (asArray field.2).getD []

theorem visit_counts (baseline : List String) (t : Tally) (field : String × Value) :
    (t.visit baseline field).total = t.total + (items field).length ∧
    (t.visit baseline field).unbaselined = t.unbaselined + flagged baseline (items field) := by
  rw [Tally.visit, items]
  cases asArray field.2 with
  | none => exact ⟨rfl, rfl⟩
  | some items =>
    cases items with
    | nil => exact ⟨rfl, rfl⟩
    | cons item items =>
      rw [Option.getD_some]
      by_cases hnew : 0 < flagged baseline (item :: items)
      · simp [hnew]
      · have hzero : flagged baseline (item :: items) = 0 := by omega
        simp [hzero]

theorem foldl_counts (baseline : List String) (fields : List (String × Value)) (t : Tally) :
    (fields.foldl (Tally.visit baseline) t).total =
        t.total + (fields.map fun field => (items field).length).sum ∧
    (fields.foldl (Tally.visit baseline) t).unbaselined =
        t.unbaselined + (fields.map fun field => flagged baseline (items field)).sum := by
  induction fields generalizing t with
  | nil => exact ⟨rfl, rfl⟩
  | cons field fields ih =>
    obtain ⟨htotal, hnew⟩ := visit_counts baseline t field
    obtain ⟨ihtotal, ihnew⟩ := ih (t.visit baseline field)
    rw [foldl_cons, ihtotal, ihnew, htotal, hnew]
    simp [Nat.add_assoc]

theorem evaluate_fst (data : Value) (baseline : FileText) :
    (evaluateSecretReport (.json data) baseline).1 =
      (((results data).getD []).map fun field =>
        flagged (loadBaselineHashes baseline) (items field)).sum := by
  rw [evaluateSecretReport]
  cases results data with
  | none => rfl
  | some fields =>
    obtain ⟨htotal, hnew⟩ := foldl_counts (loadBaselineHashes baseline) fields {}
    dsimp only
    split
    · rename_i hzero
      -- without findings there are none to flag
      have hle : (fields.map fun field => flagged (loadBaselineHashes baseline) (items field)).sum
          ≤ (fields.map fun field => (items field).length).sum :=
        sum_le_sum fun field _ => countP_le_length
      rw [Option.getD_some]
      omega
    · rw [hnew, Nat.zero_add, Option.getD_some]

/-- **No finding is left** exactly if the baseline lists all that were found in arrays. -/
theorem count_eq_zero_iff (report baseline : FileText) :
    (evaluateSecretReport report baseline).1 = 0 ↔
      ∀ item, Finding report item → Listed baseline item := by
  cases report with
  | unreadable | notJson =>
    refine iff_of_true rfl ?_
    rintro item ⟨_, _, _, _, ⟨⟩, -⟩
  | json data =>
    rw [evaluate_fst, sum_eq_zero_iff]
    simp only [mem_map, forall_exists_index, and_imp, forall_apply_eq_imp_iff₂, flagged,
      countP_eq_zero, Bool.not_eq_true', Bool.not_eq_false, isBaselined_iff,
      finding_json_iff, items]
    cases results data with
    | none => simp
    | some fields =>
      constructor
      · rintro h item _ ⟨⟩ field hfield hitem
        exact h field hfield item hitem
      · intro h field hfield item hitem
        exact h item fields rfl field hfield hitem

/-! ### The verdict -/

theorem secretScan_ok_iff (name : String) (command : List String) (path : String)
    (eval : String → ℕ × String) :
    (runStep ⟨name, command, some path, true⟩ false ⟨none, some 0⟩ (some eval)).status = .ok ↔
      (eval path).1 = 0 := by
  simp only [runStep, Bool.false_eq_true, if_false, ne_eq, not_true_eq_false]
  split
  · rename_i hpos
    simp [Nat.pos_iff_ne_zero.mp hpos]
  · rename_i hzero
    simp only [true_iff]
    omega

theorem run_eq_zero_iff (turns : List Turn) (dryRun : Bool)
    (secretEvaluator : Option ((String → FileText) → String → ℕ × String)) :
    (run turns dryRun secretEvaluator).2 = 0 ↔ ∀ turn ∈ turns, (runStep turn.step dryRun
      turn.execution (secretEvaluator.map (· turn.files))).status ≠ .fail := by
  simp [run]

/-- **A clean turn**: the step could write its report and exited with zero, and the baseline lists
every finding in the report of a scan, both as they are then. -/
def Turn.Clean (turn : Turn) : Prop :=
  turn.execution.exitCode = some 0 ∧
    (turn.step.stdoutPath ≠ none → turn.execution.createError = none) ∧
    (turn.step.isSecretScan = true → ∀ path, turn.step.stdoutPath = some path →
      ∀ item, Finding (turn.files path) item → Listed (turn.files secretBaseline) item)

/-- A step does not fail exactly in a clean turn. -/
theorem Turn.clean_iff (turn : Turn) :
    (runStep turn.step false turn.execution (some (evaluator turn.files))).status ≠ .fail ↔
      turn.Clean := by
  obtain ⟨⟨name, command, stdoutPath, isSecretScan⟩, ⟨createError, exitCode⟩, files⟩ := turn
  simp only [Turn.Clean, ← count_eq_zero_iff, runStep, Bool.false_eq_true, if_false]
  cases stdoutPath with
  | none =>
    cases exitCode with
    | none => simp
    | some code => by_cases hcode : code = 0 <;> simp [hcode]
  | some path =>
    cases createError with
    | some err => simp
    | none =>
      cases exitCode with
      | none => simp
      | some code =>
        by_cases hcode : code = 0
        · cases isSecretScan <;> simp [hcode, evaluator, Nat.pos_iff_ne_zero]
        · simp [hcode]

/-- **The Python gate passes** exactly in a dry run, or if every turn is clean. -/
theorem gate_passes_iff (turns : List Turn) (dryRun : Bool) :
    (run turns dryRun (some evaluator)).2 = 0 ↔
      dryRun = true ∨ ∀ turn ∈ turns, turn.Clean := by
  rw [run_eq_zero_iff]
  cases dryRun with
  | true => simp [runStep]
  | false =>
    simp only [Bool.false_eq_true, false_or]
    exact forall₂_congr fun turn _ => turn.clean_iff

/-- **The gate fails closed exactly here**: a scan that exited with zero and is reported as passed
has an accepted report exactly if the report has the right shape, or a finding that the baseline
does not list. -/
theorem passed_accepted_iff (name : String) (command : List String) (path : String)
    (files : String → FileText) :
    ((runStep ⟨name, command, some path, true⟩ false ⟨none, some 0⟩
        (some (evaluator files))).status = .ok →
      Accepted (files path) (files secretBaseline)) ↔
    (WellShaped (files path) ∨
      ∃ item, Finding (files path) item ∧ ¬ Listed (files secretBaseline) item) := by
  rw [secretScan_ok_iff, evaluator, count_eq_zero_iff]
  constructor
  · intro h
    by_cases hall : ∀ item, Finding (files path) item → Listed (files secretBaseline) item
    · exact .inl (h hall).1
    · simp only [not_forall] at hall
      obtain ⟨item, hfinding, hunlisted⟩ := hall
      exact .inr ⟨item, hfinding, hunlisted⟩
  · rintro (hshape | ⟨item, hfinding, hunlisted⟩) hall
    · exact ⟨hshape, hall⟩
    · exact absurd (hall item hfinding) hunlisted

/-- The scan of the gate, with a report and no baseline. -/
def scanned (report : FileText) : StepResult :=
  runStep ⟨"Detect secrets", ["uv", "run", "detect-secrets", "scan"],
    some ".secrets.scan.local.json", true⟩ false ⟨none, some 0⟩
    (some (evaluator fun path => if path = secretBaseline then .unreadable else report))

/-- A report in which the findings of a file are an object. -/
def reshapedReport : FileText :=
  .json (.dict [("results", .dict [("a.py", .dict [("hashed_secret", .str "0")])])])

theorem reshapedReport_not_wellShaped : ¬ WellShaped reshapedReport := by
  rintro ⟨data, members, hdata, hmembers, hall⟩
  cases hdata
  have hresults : (Value.dict [("a.py", .dict [("hashed_secret", .str "0")])]) = .dict members :=
    Option.some.inj hmembers
  cases hresults
  obtain ⟨items, hitems⟩ := hall "a.py" (.dict [("hashed_secret", .str "0")]) rfl
  cases hitems

/-- A report that is missing, cut off or reshaped passes the gate. -/
theorem unread_reports_pass :
    ((scanned .unreadable).status = .ok ∧ (scanned .unreadable).detail = "no report") ∧
    ((scanned .notJson).status = .ok ∧ (scanned .notJson).detail = "0 findings" ∧
      ¬ Accepted .notJson .unreadable) ∧
    (scanned reshapedReport).status = .ok ∧ ¬ Accepted reshapedReport .unreadable := by
  refine ⟨by decide +kernel, ⟨by decide +kernel, by decide +kernel, ?_⟩, by decide +kernel, ?_⟩
  · rintro ⟨⟨_, _, ⟨⟩, -⟩, -⟩
  · exact fun h => reshapedReport_not_wellShaped h.1

end ServiceToolkit.SecretGate
