import ServiceToolkit.Dict
import ServiceToolkit.Runs
import ServiceToolkit.Text

/-!
# Row Scoping

A model is registered once with the shape of its ownership, `scoped` narrows a SELECT to the
rows of one model that a subject owns, and the guard refuses a SELECT that touches a
registered model and never went through `scoped` (or `unscoped`, the explicit waiver).

Narrowing is per model; what the guard trusts is a **stamp**, an execution option of the whole
statement. `scoped_rows_confined_iff` says exactly when that is enough.

## Statements

A statement reads from **sources**: a mapped class, or an alias of one. A joint row gives each
source a row, or none where an outer join found no partner. Of the joint rows on which every
condition is true the statement returns the rows of the sources on its **select list**; a source
that is only joined or named in a condition is touched and not returned. Conditions of the
caller, in `where` and `join`, are arbitrary functions of the joint row, with the sources they
read. Successive conditions are conjoined and execution options are merged, the last one winning.

`scoped` takes a mapped class: it looks the class up in the registry and reads its columns
with `getattr`, which may fail. An alias is not in the registry.
-/

namespace ServiceToolkit.Tenancy

open List

/-- A column value. -/
inductive Value
  | null
  | int (n : ℤ)
  | text (s : String)
  deriving DecidableEq

/-- A row: its value in each column. -/
abbrev Row := String → Value

/-- How a model is owned: through a (kind, id) pair, or through a tenant column. -/
inductive Scope
  | owner (kindColumn idColumn ownerKind : String)
  | tenant (idColumn : String)
  deriving DecidableEq

/-- The column that holds the owner's or the tenant's id. -/
def Scope.idColumn : Scope → String
  | .owner _ idColumn _ => idColumn
  | .tenant idColumn => idColumn

/-- Who is asking: the accounts of the subject, and whether it is a platform operator. -/
structure ScopeSubject where
  accountIds : Finset ℤ
  isPlatformOperator : Bool

/-- A mapped class, or an alias of one. -/
structure Source (M : Type*) where
  model : M
  aliasName : Option String
  deriving DecidableEq

/-- One row of each source, or none. -/
abbrev JointRow (M : Type*) := Source M → Option Row

/-- A condition: whether it is true of a joint row. A condition that is `NULL` is not. -/
abbrev Clause (M : Type*) := JointRow M → Bool

/-- A SELECT statement. -/
structure Statement (M : Type*) where
  selected : List (Source M)
  touched : List (Source M)
  clauses : List (Clause M)
  stamp : Option String

/-- Why building a statement raises. -/
inductive ScopeError (M : Type*)
  | unscopedModel (model : M)
  | attributeError (model : M) (column : String)
  | emptyReason
  deriving DecidableEq

variable {M : Type*}

/-- A joint row matches the statement: every condition is true of it. -/
def Statement.Matches (stmt : Statement M) (row : JointRow M) : Prop :=
  ∀ clause ∈ stmt.clauses, clause row = true

/-- The statement **returns** a row of a source: the source is on its select list, and the row
is part of a joint row that matches. -/
def Statement.Returns (stmt : Statement M) (source : Source M) (values : Row) : Prop :=
  source ∈ stmt.selected ∧ ∃ row, stmt.Matches row ∧ row source = some values

/-- `stmt.where(clause)`. -/
def Statement.filter (stmt : Statement M) (touches : List (Source M)) (clause : Clause M) :
    Statement M :=
  { stmt with touched := stmt.touched ++ touches, clauses := stmt.clauses ++ [clause] }

/-- `_stamp`: set the execution option the guard reads. -/
def stamp (stmt : Statement M) (marker : String) : Statement M := { stmt with stamp := some marker }

/-- `stmt.join(source, on)`, or an outer join: with a partner the condition is true, and only
an outer join keeps a row without one. -/
def joinClause (source : Source M) (isOuter : Bool) (on : Clause M) : Clause M := fun row =>
  if (row source).isSome then on row else isOuter

/-- `id_column.in_(account_ids)`. -/
def idClause (model : M) (column : String) (accountIds : Finset ℤ) : Clause M := fun row =>
  match (row ⟨model, none⟩).map fun values => values column with
  | some (Value.int n) => n ∈ accountIds
  | _ => false

/-- `kind_column == owner_kind`. -/
def kindClause (model : M) (column ownerKind : String) : Clause M := fun row =>
  ((row ⟨model, none⟩).map fun values => values column) = some (Value.text ownerKind)

variable [DecidableEq M]

/-- `register_owner_scope`, with its default column names. -/
def registerOwnerScope (registry : Dict M Scope) (model : M) (kindColumn : String := "owner_kind")
    (idColumn : String := "owner_id") (ownerKind : String := "account") : Dict M Scope :=
  registry.set model (.owner kindColumn idColumn ownerKind)

/-- `register_tenant_scope`, with its default column name. -/
def registerTenantScope (registry : Dict M Scope) (model : M) (idColumn : String := "tenant_id") :
    Dict M Scope :=
  registry.set model (.tenant idColumn)

/-- `scoped`: narrow a statement to the rows of a model that a subject may see. -/
def scopedStmt (registry : Dict M Scope) (columns : M → Finset String) (stmt : Statement M)
    (model : M) (subject : ScopeSubject) : Except (ScopeError M) (Statement M) :=
  match registry.get? model with
  | none => .error (.unscopedModel model)
  | some registration =>
    if subject.isPlatformOperator then .ok (stamp stmt "operator")
    else if subject.accountIds = ∅ then .ok (stamp (stmt.filter [] fun _ => false) "denied")
    else if registration.idColumn ∉ columns model then
      .error (.attributeError model registration.idColumn)
    else
      let narrowed := stmt.filter [⟨model, none⟩]
        (idClause model registration.idColumn subject.accountIds)
      match registration with
      | .tenant _ => .ok (stamp narrowed "subject")
      | .owner kindColumn _ ownerKind =>
        if kindColumn ∉ columns model then .error (.attributeError model kindColumn)
        else .ok (stamp (narrowed.filter [⟨model, none⟩]
          (kindClause model kindColumn ownerKind)) "subject")

/-- `unscoped`: mark a statement as intentionally spanning every subject. -/
def unscopedStmt (stmt : Statement M) (reason : String) : Except (ScopeError M) (Statement M) :=
  if Text.strip reason.toList = [] then .error .emptyReason
  else .ok (stamp stmt ("unscoped:" ++ reason))

/-- What a call site does to a statement. -/
inductive Op (M : Type*)
  | filter (touches : List (Source M)) (clause : Clause M)
  | join (source : Source M) (isOuter : Bool) (on : Clause M)
  | scope (model : M) (subject : ScopeSubject)
  | waive (reason : String)

/-- One step of building a statement. -/
def apply (registry : Dict M Scope) (columns : M → Finset String) (stmt : Statement M) :
    Op M → Except (ScopeError M) (Statement M)
  | .filter touches clause => .ok (stmt.filter touches clause)
  | .join source isOuter on => .ok (stmt.filter [source] (joinClause source isOuter on))
  | .scope model subject => scopedStmt registry columns stmt model subject
  | .waive reason => unscopedStmt stmt reason

/-- `select(sources)` and the operations of the call site, in order. -/
def build (registry : Dict M Scope) (columns : M → Finset String) (sources : List (Source M))
    (ops : List (Op M)) : Except (ScopeError M) (Statement M) :=
  ops.foldlM (apply registry columns) ⟨sources, sources, [], none⟩

/-- The guard on a SELECT: the model it refuses the statement for, if any. A stamp that is
not empty passes; otherwise the first touched model that is registered is refused. -/
def guard (registry : Dict M Scope) (stmt : Statement M) : Option M :=
  if (stmt.stamp.filter (· ≠ "")).isSome then none
  else (stmt.touched.map Source.model).find? fun model => (registry.get? model).isSome

/-! ### What a scoping leaves behind -/

/-- The row of a model **belongs** to a subject: its id column holds one of the subject's
accounts and, on the owner axis, its kind column the registered kind. -/
def Belongs (registry : Dict M Scope) (model : M) (subject : ScopeSubject) (row : Row) : Prop :=
  match registry.get? model with
  | none => False
  | some (.tenant idColumn) => ∃ n ∈ subject.accountIds, row idColumn = .int n
  | some (.owner kindColumn idColumn ownerKind) =>
    (∃ n ∈ subject.accountIds, row idColumn = .int n) ∧ row kindColumn = .text ownerKind

section

omit [DecidableEq M]

variable {stmt : Statement M} {row : JointRow M}

theorem matches_filter {touches : List (Source M)} {clause : Clause M} :
    (stmt.filter touches clause).Matches row ↔ stmt.Matches row ∧ clause row = true := by
  simp only [Statement.Matches, Statement.filter, mem_append, mem_singleton]
  constructor
  · exact fun h => ⟨fun c hc => h c (.inl hc), h clause (.inr rfl)⟩
  · rintro ⟨h, hclause⟩ c (hc | rfl)
    · exact h c hc
    · exact hclause

@[simp] theorem matches_stamp {marker : String} :
    (stamp stmt marker).Matches row ↔ stmt.Matches row := Iff.rfl

theorem idClause_eq_true {model : M} {column : String} {accountIds : Finset ℤ} {values : Row}
    (hrow : row ⟨model, none⟩ = some values) (h : idClause model column accountIds row = true) :
    ∃ n ∈ accountIds, values column = .int n := by
  simp only [idClause, hrow, Option.map_some] at h
  split at h
  · next n hn => exact ⟨n, by simpa using h, Option.some.inj hn⟩
  · cases h

theorem kindClause_eq_true {model : M} {column ownerKind : String} {values : Row}
    (hrow : row ⟨model, none⟩ = some values) (h : kindClause model column ownerKind row = true) :
    values column = .text ownerKind := by
  simpa [kindClause, hrow] using h

end

variable {registry : Dict M Scope} {columns : M → Finset String} {stmt stmt' : Statement M}

/-- What a scoping does to a statement: it stamps it, lets no more joint rows through and, for a
subject that is no operator, no foreign row of the model. -/
theorem scopedStmt_spec {model : M} {subject : ScopeSubject}
    (h : scopedStmt registry columns stmt model subject = .ok stmt') :
    (∃ marker, marker ≠ "" ∧ stmt'.stamp = some marker) ∧
      (∀ row, stmt'.Matches row → stmt.Matches row) ∧
      (subject.isPlatformOperator = false → ∀ row values, stmt'.Matches row →
        row ⟨model, none⟩ = some values → Belongs registry model subject values) := by
  unfold scopedStmt at h
  split at h
  · cases h
  · rename_i registration hreg
    split at h
    · rename_i hop
      obtain rfl := Except.ok.inj h
      exact ⟨⟨"operator", by decide, rfl⟩, fun _ => id, fun hnot => by simp [hop] at hnot⟩
    · split at h
      · obtain rfl := Except.ok.inj h
        have hnothing : ∀ row, ¬ (stamp (stmt.filter [] fun _ => false) "denied").Matches row :=
          fun row hrow => by simp [matches_filter] at hrow
        exact ⟨⟨"denied", by decide, rfl⟩, fun row hrow => absurd hrow (hnothing row),
          fun _ row _ hrow => absurd hrow (hnothing row)⟩
      · split at h
        · cases h
        · cases registration with
          | tenant idColumn =>
            obtain rfl := Except.ok.inj h
            refine ⟨⟨"subject", by decide, rfl⟩, fun row hrow => ?_, fun _ row values hrow hv => ?_⟩
            · rw [matches_stamp, matches_filter] at hrow
              exact hrow.1
            · rw [matches_stamp, matches_filter] at hrow
              simp only [Belongs, hreg]
              exact idClause_eq_true hv hrow.2
          | owner kindColumn idColumn ownerKind =>
            simp only at h
            split at h
            · cases h
            · obtain rfl := Except.ok.inj h
              refine ⟨⟨"subject", by decide, rfl⟩, fun row hrow => ?_,
                fun _ row values hrow hv => ?_⟩
              · rw [matches_stamp, matches_filter, matches_filter] at hrow
                exact hrow.1.1
              · rw [matches_stamp, matches_filter, matches_filter] at hrow
                simp only [Belongs, hreg]
                exact ⟨idClause_eq_true hv hrow.1.2, kindClause_eq_true hv hrow.2⟩

/-! ### Whole statements -/

/-- The scopings among the operations of a call site. -/
def scopings (ops : List (Op M)) : List (M × ScopeSubject) :=
  ops.filterMap fun
    | .scope model subject => some (model, subject)
    | _ => none

/-- The operation neither waives scoping nor scopes for an operator. -/
def Op.Plain : Op M → Prop
  | .filter _ _ | .join _ _ _ => True
  | .scope _ subject => subject.isPlatformOperator = false
  | .waive _ => False

/-- A source was scoped with a subject: it is the mapped class itself, and `scoped` was called
on it. -/
def ScopedWith (ops : List (Op M)) (source : Source M) (subject : ScopeSubject) : Prop :=
  source.aliasName = none ∧ (source.model, subject) ∈ scopings ops

/-- What building leaves behind: without a scoping or a waiver there is no stamp, with a
scoping there is one, and no foreign row of a scoped source gets through. -/
structure Built (registry : Dict M Scope) (ops : List (Op M)) (stmt : Statement M) : Prop where
  unstamped : scopings ops = [] → stmt.stamp = none
  stamped : scopings ops ≠ [] → ∃ marker, marker ≠ "" ∧ stmt.stamp = some marker
  confined : ∀ source subject, ScopedWith ops source subject → ∀ row values, stmt.Matches row →
    row source = some values → Belongs registry source.model subject values

omit [DecidableEq M] in
theorem scopings_concat (ops : List (Op M)) (op : Op M) :
    scopings (ops ++ [op]) = scopings ops ++ scopings [op] := filterMap_append

omit [DecidableEq M] in
theorem ScopedWith.concat {ops : List (Op M)} {op : Op M} {source : Source M}
    {subject : ScopeSubject} (h : ScopedWith (ops ++ [op]) source subject) :
    ScopedWith ops source subject ∨
      (op = .scope source.model subject ∧ source = ⟨source.model, none⟩) := by
  obtain ⟨halias, hmem⟩ := h
  rw [scopings_concat, mem_append] at hmem
  rcases hmem with hmem | hmem
  · exact .inl ⟨halias, hmem⟩
  · cases op with
    | scope model subject' =>
      obtain ⟨hmodel, hsubject⟩ := Prod.mk.inj (mem_singleton.mp hmem)
      refine .inr ⟨by rw [hmodel, hsubject], ?_⟩
      rw [← halias]
    | _ => cases hmem

variable {ops : List (Op M)}

theorem Built.filter (h : Built registry ops stmt) {op : Op M}
    (hop : scopings [op] = []) (touches : List (Source M)) (clause : Clause M) :
    Built registry (ops ++ [op]) (stmt.filter touches clause) := by
  have hsame : scopings (ops ++ [op]) = scopings ops := by
    rw [scopings_concat, hop, append_nil]
  refine ⟨?_, ?_, fun source subject hs row values hrow hv => ?_⟩
  · rw [hsame]
    exact h.unstamped
  · rw [hsame]
    exact h.stamped
  · have hs' : ScopedWith ops source subject := by
      rw [ScopedWith, hsame] at hs
      exact hs
    exact h.confined source subject hs' row values (matches_filter.mp hrow).1 hv

theorem Built.step (h : Built registry ops stmt) {op : Op M} (hop : op.Plain)
    (happly : apply registry columns stmt op = .ok stmt') : Built registry (ops ++ [op]) stmt' := by
  cases op with
  | filter touches clause =>
    obtain rfl := Except.ok.inj happly
    exact h.filter rfl touches clause
  | join source isOuter on =>
    obtain rfl := Except.ok.inj happly
    exact h.filter rfl _ _
  | waive reason => exact hop.elim
  | scope model subject =>
    obtain ⟨hstamp, hmatches, hbelongs⟩ := scopedStmt_spec happly
    refine ⟨fun hnone => ?_, fun _ => hstamp, fun source subject' hs row values hrow hv => ?_⟩
    · rw [scopings_concat] at hnone
      cases (append_eq_nil_iff.mp hnone).2
    · rcases hs.concat with hs | ⟨heq, hsource⟩
      · exact h.confined source subject' hs row values (hmatches row hrow) hv
      · obtain ⟨rfl, rfl⟩ : model = source.model ∧ subject = subject' := by
          simpa using heq
        rw [hsource] at hv
        exact hbelongs hop row values hrow hv

theorem built_of_build {sources : List (Source M)}
    (hbuild : build registry columns sources ops = .ok stmt) (hplain : ∀ op ∈ ops, op.Plain) :
    Built registry ops stmt := by
  have hloop : (∀ op ∈ ops, op.Plain) → Built registry ops stmt := by
    refine foldlM_invariant (fun done s => (∀ op ∈ done, op.Plain) → Built registry done s)
      ?_ ?_ hbuild
    · intro _
      exact ⟨fun _ => rfl, fun h => absurd rfl h, fun _ _ hs => by cases hs.2⟩
    · intro done op s s' hdone happly hall
      exact (hdone fun o ho => hall o (mem_append_left _ ho)).step (hall op (by simp)) happly
  exact hloop hplain

/-- **When scoping confines a SELECT** that is built by `where`, `join` and `scoped` calls, none of
them a waiver or a scoping for an operator: that the guard lets through only statements whose every
returned row of a registered model belongs to the subjects its source was scoped with, and that
there is such a subject, holds exactly when nothing was scoped at all or every source of a
registered model that a row is returned of is the mapped class itself and was passed to `scoped`. -/
theorem scoped_rows_confined_iff (registry : Dict M Scope) (columns : M → Finset String)
    (sources : List (Source M)) (ops : List (Op M)) (stmt : Statement M)
    (hbuild : build registry columns sources ops = .ok stmt) (hplain : ∀ op ∈ ops, op.Plain) :
    (guard registry stmt = none →
        ∀ source ∈ stmt.touched, (registry.get? source.model).isSome →
          ∀ values, stmt.Returns source values →
            (∃ subject, ScopedWith ops source subject) ∧
            ∀ subject, ScopedWith ops source subject →
              Belongs registry source.model subject values) ↔
      (scopings ops = [] ∨
        ∀ source ∈ stmt.touched, (registry.get? source.model).isSome →
          (∃ values, stmt.Returns source values) → ∃ subject, ScopedWith ops source subject) := by
  have hbuilt := built_of_build hbuild hplain
  constructor
  · intro hsafe
    by_cases hnone : scopings ops = []
    · exact .inl hnone
    · obtain ⟨marker, hmarker, hstamp⟩ := hbuilt.stamped hnone
      have hpasses : guard registry stmt = none := by simp [guard, hstamp, hmarker]
      refine .inr fun source hsource hreg hreturned => ?_
      obtain ⟨values, hvalues⟩ := hreturned
      exact (hsafe hpasses source hsource hreg values hvalues).1
  · rintro hcond hpasses source hsource hreg values hvalues
    refine ⟨?_, fun subject hs => ?_⟩
    · rcases hcond with hnone | hall
      · -- without a stamp the guard has looked at every touched model
        have hguard := hpasses
        rw [guard, hbuilt.unstamped hnone] at hguard
        exact absurd hreg (find?_eq_none.mp hguard source.model (mem_map_of_mem hsource))
      · exact hall source hsource hreg ⟨values, hvalues⟩
    · obtain ⟨-, row, hrow, hsome⟩ := hvalues
      exact hbuilt.confined source subject hs row values hrow hsome

/-! ### Two models -/

/-- A model owned through a (kind, id) pair, and a model with a tenant. -/
inductive ProbeModel
  | device
  | allocation
  deriving DecidableEq

/-- Both registered under the default column names. -/
def probeRegistry : Dict ProbeModel Scope :=
  registerTenantScope (registerOwnerScope .empty .device) .allocation

/-- The columns the two models have. -/
def probeColumns : ProbeModel → Finset String
  | .device => {"id", "owner_kind", "owner_id"}
  | .allocation => {"id", "tenant_id"}

/-- A subject with one account. -/
def probeSubject : ScopeSubject := ⟨{7}, false⟩

/-- Devices joined, allocations scoped. -/
def probeJoin : List (Op ProbeModel) :=
  [.join ⟨.device, none⟩ false fun _ => true, .scope .allocation probeSubject]

/-- Allocations selected and scoped, devices only joined: every allocation that comes out is the
subject's. -/
theorem scoped_join_confined :
    ∃ stmt, build probeRegistry probeColumns [⟨.allocation, none⟩] probeJoin = .ok stmt ∧
      guard probeRegistry stmt = none ∧
      ∀ values, stmt.Returns ⟨.allocation, none⟩ values →
        Belongs probeRegistry .allocation probeSubject values := by
  refine ⟨_, rfl, rfl, fun values hvalues => ?_⟩
  have hscoped : ScopedWith probeJoin ⟨.allocation, none⟩ probeSubject :=
    ⟨rfl, by simp [scopings, probeJoin]⟩
  refine ((scoped_rows_confined_iff probeRegistry probeColumns [⟨.allocation, none⟩] probeJoin _
    rfl (by simp [Op.Plain, probeJoin, probeSubject])).mpr (.inr ?_) rfl ⟨.allocation, none⟩
      mem_cons_self rfl values hvalues).2 probeSubject hscoped
  rintro source - - ⟨_, hselected, -⟩
  obtain rfl := mem_singleton.mp hselected
  exact ⟨probeSubject, hscoped⟩

/-- A device of account 99 and an allocation of account 7. -/
def probeRow : ProbeModel → Row
  | .device => fun column => if column = "owner_kind" then .text "account" else .int 99
  | .allocation => fun _ => .int 7

/-- **The leak**: allocations and devices are selected, allocations scoped and devices not. The
statement carries the stamp, passes the guard, and returns another account's device. -/
theorem scoped_of_two_leaks :
    ∃ stmt, build probeRegistry probeColumns [⟨.allocation, none⟩, ⟨.device, none⟩]
        [.scope .allocation probeSubject] = .ok stmt ∧
      guard probeRegistry stmt = none ∧
      ⟨.device, none⟩ ∈ stmt.touched ∧ (probeRegistry.get? .device).isSome ∧
      ∃ values, stmt.Returns ⟨.device, none⟩ values ∧ values "owner_id" = .int 99 ∧
        ¬ Belongs probeRegistry .device probeSubject values := by
  refine ⟨_, rfl, rfl, by simp [Statement.filter, stamp], rfl, probeRow .device,
    ⟨by simp [Statement.filter, stamp], fun source => some (probeRow source.model), ?_, rfl⟩,
    rfl, ?_⟩
  · rw [matches_stamp, matches_filter]
    exact ⟨fun _ h => absurd h not_mem_nil, rfl⟩
  · rintro ⟨⟨n, hn, hid⟩, -⟩
    obtain rfl : (99 : ℤ) = n := Value.int.inj hid
    exact absurd hn (by decide)

end ServiceToolkit.Tenancy
