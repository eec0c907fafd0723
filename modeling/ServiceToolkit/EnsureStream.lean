import Mathlib.Algebra.Order.Ring.Rat
import Mathlib.Data.List.Dedup
import Mathlib.Data.List.Sort
import Mathlib.Logic.Function.Basic
import ServiceToolkit.Runs

/-!
# Ensuring a Stream

`NATSClient.ensure_stream` reads a stream's configuration, adds the subjects that are missing
from it and writes the whole configuration back; if there is no stream, it creates one. Every
service of a domain runs it on the domain's stream when it starts.

Any number of calls run on one stream. A call is a sequence of requests, which the server executes
one at a time: `stream_info` answers with the stored configuration, `update_stream` replaces it
by the one given, and `add_stream` stores one where there is none, and otherwise succeeds only
on the same configuration. What a call computes between two requests is part of the event that
executes the first. A request may also fail.

The read, the union and the write are not one request, so an update that takes effect in between is
undone (`lost_subjects`). **Where every update finds the subjects its call read, no subject is ever
lost** (`ensure_stream_keeps_subjects`).
-/

namespace ServiceToolkit.Nats

/-- What `ensure_stream` reads and writes of a stream's configuration. -/
structure StreamConfig where
  subjects : List String
  maxAge : Option ℚ
  maxBytes : Option ℤ
  deriving DecidableEq

/-- The arguments of a call. -/
structure EnsureStream where
  subjects : List String
  config : Option StreamConfig
  defaultMaxAge : Option ℚ
  defaultMaxBytes : Option ℤ
  deriving DecidableEq

/-- `ensure_stream(name, subjects)`. -/
def EnsureStream.ofSubjects (subjects : List String) : EnsureStream :=
  ⟨subjects, none, some 86400, some 2147483648⟩

/-- The configuration of a new stream. -/
def EnsureStream.newConfig (call : EnsureStream) : StreamConfig :=
  match call.config with
  | none => ⟨call.subjects, call.defaultMaxAge, call.defaultMaxBytes⟩
  | some config =>
    { config with subjects := if config.subjects = [] then call.subjects else config.subjects }

/-- `sorted(current_subjects | desired_subjects)`. -/
def sortedUnion (current desired : List String) : List String :=
  (current ++ desired).dedup.insertionSort (· ≤ ·)

/-- The configuration a call writes back, from the one it read. -/
def EnsureStream.merged (call : EnsureStream) (info : StreamConfig) : StreamConfig :=
  { info with subjects := sortedUnion info.subjects call.subjects }

/-- The request a call awaits, or how it ended. -/
inductive Phase
  | reading
  | updating (info : StreamConfig)
  | rereading
  | adding
  | returned
  | failed
  deriving DecidableEq

/-- The call after `stream_info` answered. -/
def EnsureStream.afterInfo (call : EnsureStream) (info : StreamConfig) : Phase :=
  if call.subjects ≠ [] ∧ ¬ call.subjects ⊆ info.subjects then .updating info else .returned

/-- The stored stream, and where the calls are. -/
structure State (I : Type*) where
  stream : Option StreamConfig
  phase : I → Phase

variable {I : Type*} [DecidableEq I]

/-- The calls before their first request. -/
def State.initial (stream : Option StreamConfig) : State I := ⟨stream, fun _ => .reading⟩

/-- The subjects of a stream, none if it does not exist. -/
def subjectsOf (stream : Option StreamConfig) : List String :=
  (stream.map StreamConfig.subjects).getD []

/-- What can happen next: the server executes the request of a call, or the request fails. -/
inductive Event (I : Type*)
  | execute (call : I)
  | fail (call : I)
  deriving DecidableEq

/-- The server executes the request of a call: the stream after it, and the call with the reply. A
`NotFoundError`, wherever it comes from, leads to `add_stream`. -/
def executeRequest (call : EnsureStream) (stream : Option StreamConfig) :
    Phase → Option (Option StreamConfig × Phase)
  | .reading =>
    match stream with
    | some info => some (stream, call.afterInfo info)
    | none => some (stream, .adding)
  | .updating info =>
    match stream with
    | some _ => some (some (call.merged info), .rereading)
    | none => some (stream, .adding)
  | .rereading =>
    match stream with
    | some _ => some (stream, .returned)
    | none => some (stream, .adding)
  | .adding =>
    match stream with
    | some info => some (stream, if info = call.newConfig then .returned else .failed)
    | none => some (some call.newConfig, .returned)
  | .returned | .failed => none

/-- One event. -/
def step (calls : I → EnsureStream) (s : State I) : Event I → Option (State I)
  | .execute i =>
    (executeRequest (calls i) s.stream (s.phase i)).map fun r =>
      ⟨r.1, Function.update s.phase i r.2⟩
  | .fail i =>
    match s.phase i with
    | .returned | .failed => none
    | _ => some { s with phase := Function.update s.phase i .failed }

/-- **The condition on a step**: an update takes effect on a stream with the subjects its call
read. -/
def undisturbed (s : State I) : Event I → Bool
  | .execute i =>
    match s.phase i with
    | .updating info => s.stream.all fun stored => stored.subjects == info.subjects
    | _ => true
  | .fail _ => true

/-! ### Requests -/

section

variable {call : EnsureStream} {stream stream' : Option StreamConfig} {phase phase' : Phase}

theorem mem_sortedUnion {current desired : List String} {subject : String} :
    subject ∈ sortedUnion current desired ↔ subject ∈ current ∨ subject ∈ desired := by
  rw [sortedUnion, List.mem_insertionSort, List.mem_dedup, List.mem_append]

/-- The call's configuration, if it has one of its own, covers its subjects. -/
def EnsureStream.Covers (call : EnsureStream) : Prop :=
  ∀ config, call.config = some config → config.subjects = [] ∨ call.subjects ⊆ config.subjects

theorem subset_newConfig (h : call.Covers) : call.subjects ⊆ call.newConfig.subjects := by
  cases hconfig : call.config with
  | none =>
    simp only [EnsureStream.newConfig, hconfig]
    exact List.Subset.refl _
  | some config =>
    simp only [EnsureStream.newConfig, hconfig]
    split
    · exact List.Subset.refl _
    · next hnonempty => exact (h config hconfig).resolve_left hnonempty

/-- The call has found its subjects in the stream, or put them there. -/
def Phase.settled : Phase → Bool
  | .rereading | .returned => true
  | _ => false

theorem subset_of_afterInfo {info : StreamConfig} (h : (call.afterInfo info).settled = true) :
    call.subjects ⊆ info.subjects := by
  rw [EnsureStream.afterInfo] at h
  split at h
  · cases h
  · rename_i hnot
    by_cases hempty : call.subjects = []
    · rw [hempty]
      exact List.nil_subset _
    · exact Classical.not_not.mp fun hmissing => hnot ⟨hempty, hmissing⟩

theorem subset_merged (call : EnsureStream) (info : StreamConfig) :
    info.subjects ⊆ (call.merged info).subjects ∧ call.subjects ⊆ (call.merged info).subjects :=
  ⟨fun _ hmem => mem_sortedUnion.mpr (.inl hmem), fun _ hmem => mem_sortedUnion.mpr (.inr hmem)⟩

/-- **A request** that is not disturbed takes no subject away, and settles its call only on a
stream with the call's subjects. -/
theorem executeRequest_spec (hcovers : call.Covers)
    (hok : ∀ info stored, phase = .updating info → stream = some stored →
      stored.subjects = info.subjects)
    (h : executeRequest call stream phase = some (stream', phase')) :
    subjectsOf stream ⊆ subjectsOf stream' ∧
      (phase'.settled = true → phase.settled = true ∨ call.subjects ⊆ subjectsOf stream') := by
  cases stream with
  | none =>
    cases phase with
    | reading | updating | rereading =>
      cases h
      exact ⟨List.Subset.refl _, nofun⟩
    | adding =>
      cases h
      exact ⟨List.nil_subset _, fun _ => .inr (subset_newConfig hcovers)⟩
    | returned | failed => cases h
  | some stored =>
    cases phase with
    | reading =>
      cases h
      exact ⟨List.Subset.refl _, fun hsettled => .inr (subset_of_afterInfo hsettled)⟩
    | updating info =>
      cases h
      obtain ⟨hinfo, hcall⟩ := subset_merged call info
      have hread : stored.subjects = info.subjects := hok info stored rfl rfl
      rw [← hread] at hinfo
      exact ⟨hinfo, fun _ => .inr hcall⟩
    | rereading =>
      cases h
      exact ⟨List.Subset.refl _, fun _ => .inl rfl⟩
    | adding =>
      cases h
      refine ⟨List.Subset.refl _, fun hsettled => .inr ?_⟩
      split at hsettled
      · next hsame => exact hsame ▸ subset_newConfig hcovers
      · cases hsettled
    | returned | failed => cases h

end

/-! ### Whole runs -/

section

variable {calls : I → EnsureStream} {before : List String} {s s' : State I} {e : Event I}

/-- **The invariant**: the stream has the subjects it had before, and those of every settled
call. -/
structure Kept (calls : I → EnsureStream) (before : List String) (s : State I) : Prop where
  before : before ⊆ subjectsOf s.stream
  settled : ∀ i, (s.phase i).settled = true → (calls i).subjects ⊆ subjectsOf s.stream

omit [DecidableEq I] in
theorem Kept.initial (stream : Option StreamConfig) :
    Kept calls (subjectsOf stream) (.initial stream) :=
  ⟨List.Subset.refl _, nofun⟩

theorem Kept.step (hcovers : ∀ i, (calls i).Covers) (h : Kept calls before s)
    (hok : undisturbed s e = true) (hstep : step calls s e = some s') : Kept calls before s' := by
  cases e with
  | execute i =>
    obtain ⟨⟨stream', phase'⟩, hexecute, rfl⟩ := Option.map_eq_some_iff.mp hstep
    have hread : ∀ info stored, s.phase i = .updating info → s.stream = some stored →
        stored.subjects = info.subjects := by
      intro info stored hphase hstream
      rw [undisturbed, hphase, hstream] at hok
      exact eq_of_beq hok
    obtain ⟨hgrows, hsettles⟩ := executeRequest_spec (hcovers i) hread hexecute
    refine ⟨List.Subset.trans h.before hgrows, fun j hj => ?_⟩
    simp only [Function.update_apply] at hj
    split at hj
    · rename_i hij
      subst hij
      rcases hsettles hj with hold | hnew
      · exact List.Subset.trans (h.settled j hold) hgrows
      · exact hnew
    · exact List.Subset.trans (h.settled j hj) hgrows
  | fail i =>
    simp only [Nats.step] at hstep
    have hfailed : Kept calls before { s with phase := Function.update s.phase i .failed } := by
      refine ⟨h.before, fun j hj => ?_⟩
      simp only [Function.update_apply] at hj
      split at hj
      · cases hj
      · exact h.settled j hj
    split at hstep
    · cases hstep
    · cases hstep
    · cases hstep
      exact hfailed

/-- **No subject is lost**: in every run in which each update finds the subjects its call read, the
stream keeps the subjects it had before and has those of every call that returned. -/
theorem ensure_stream_keeps_subjects (calls : I → EnsureStream) (hcovers : ∀ i, (calls i).Covers)
    (stream : Option StreamConfig) (es : List (Event I)) (s : State I)
    (hrun : run (step calls) (.initial stream) es = some s)
    (hok : StepsMeet (step calls) (fun s e => undisturbed s e = true) (.initial stream) es) :
    subjectsOf stream ⊆ subjectsOf s.stream ∧
      ∀ i, s.phase i = .returned → (calls i).subjects ⊆ subjectsOf s.stream := by
  have hkept : Kept calls (subjectsOf stream) s :=
    run_invariant_where (fun h => h.step hcovers) (Kept.initial stream) hok hrun
  exact ⟨hkept.before, fun i hi => hkept.settled i (by rw [hi]; rfl)⟩

end

/-- Two services add a subject each to one stream. -/
def twoServices (i : Bool) : EnsureStream := .ofSubjects (if i then ["orders"] else ["users"])

/-- A stream that both services find. -/
def sharedStream : StreamConfig := ⟨["audit"], some 86400, none⟩

theorem twoServices_covers (i : Bool) : (twoServices i).Covers := by
  intro config hconfig
  cases hconfig

/-- One service after the other. -/
theorem ensure_stream_keeps_subjects_in_turn :
    ∃ s, run (step twoServices) (.initial (some sharedStream))
        [.execute true, .execute true, .execute true, .execute false, .execute false,
          .execute false] = some s ∧
      ["audit"] ⊆ subjectsOf s.stream ∧ ["orders"] ⊆ subjectsOf s.stream ∧
      ["users"] ⊆ subjectsOf s.stream := by
  have hphase : (run (step twoServices) (.initial (some sharedStream))
      [.execute true, .execute true, .execute true, .execute false, .execute false,
        .execute false]).map (fun s => (s.phase true, s.phase false)) =
          some (.returned, .returned) := by decide +kernel
  obtain ⟨s, hs, hphase⟩ := Option.map_eq_some_iff.mp hphase
  obtain ⟨htrue, hfalse⟩ := Prod.mk.inj hphase
  obtain ⟨hbefore, hreturned⟩ := ensure_stream_keeps_subjects twoServices twoServices_covers
    (some sharedStream) _ s hs (by decide +kernel)
  exact ⟨s, hs, hbefore, hreturned true htrue, hreturned false hfalse⟩

/-- **A lost update**: both services read the stream before either writes it, both calls return, and
the subject of the first is gone. -/
theorem lost_subjects :
    ∃ s, run (step twoServices) (.initial (some sharedStream))
        [.execute true, .execute false, .execute true, .execute false, .execute true,
          .execute false] = some s ∧
      s.phase true = .returned ∧ s.phase false = .returned ∧
      subjectsOf s.stream = ["audit", "users"] := by
  have hstate : (run (step twoServices) (.initial (some sharedStream))
      [.execute true, .execute false, .execute true, .execute false, .execute true,
        .execute false]).map (fun s => (s.phase true, s.phase false, subjectsOf s.stream)) =
          some (.returned, .returned, ["audit", "users"]) := by decide +kernel
  obtain ⟨s, hs, hstate⟩ := Option.map_eq_some_iff.mp hstate
  obtain ⟨htrue, hrest⟩ := Prod.mk.inj hstate
  obtain ⟨hfalse, hsubjects⟩ := Prod.mk.inj hrest
  exact ⟨s, hs, htrue, hfalse, hsubjects⟩

end ServiceToolkit.Nats
