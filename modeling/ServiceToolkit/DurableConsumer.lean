import Mathlib.Data.Rat.Defs
import ServiceToolkit.Runs

/-!
# The Durable Consumer

`DurableConsumer.run` binds to its consumer, fetches batch after batch and hands each message to
the handler, which decides how the message is settled: acknowledged, given back with a delay, or
terminated as poison. Whatever else is raised, by a lost connection in particular, costs a pause
and the rest of the batch, which JetStream delivers again.

The loop runs from one await to the next: the three of the set-up, a fetch, the handler, the
settling of its message, the pause. `stop` may be called at any time.
`log` lists the messages that are done with, with how they were settled, if they were.
-/

namespace ServiceToolkit.Consumer

open List

inductive Settlement
  | ack
  | nak (delay : ℚ)
  | term
  deriving DecidableEq

/-- How the handler ends: it returns, raises `PoisonMessage` or another `Exception`. -/
inductive Handled
  | returned
  | poison
  | failed

/-- `delay_for`. -/
def delayFor (backoff : List ℚ) (attempt : ℕ) : ℚ :=
  backoff.getD (min (max attempt 1) backoff.length - 1) 0

/-- `handle`: what it settles a message with that was delivered for the given time, if its
metadata says so. -/
def settlement (backoff : List ℚ) (numDelivered : Option ℕ) : Handled → Settlement
  | .returned => .ack
  | .poison => .term
  | .failed => .nak (delayFor backoff (numDelivered.getD 1))

variable {M : Type*}

/-- Where `run` is: in `ensure_consumer`, `jetstream` or `pull_subscribe_bind`, then in a fetch, the
handler, a settling or the pause, or at its end. -/
inductive At (M : Type*)
  | ensuring
  | connecting
  | binding
  | fetching
  | handling (msg : M) (rest : List M)
  | settling (msg : M) (how : Settlement) (rest : List M)
  | sleeping
  | returned
  | cancelled

/-- The messages of the batch that are not done with. -/
@[simp] def At.batch : At M → List M
  | .handling msg rest | .settling msg _ rest => msg :: rest
  | _ => []

structure DurableConsumer (M : Type*) where
  position : At M
  stopping : Bool
  fetched : List M
  log : List (M × Option Settlement)

def DurableConsumer.initial : DurableConsumer M := ⟨.ensuring, false, [], []⟩

/-- `stop` is called; an await of the set-up, a settling or the pause is done; a fetch returns or
times out; the handler ends; an await raises, or after the handler `msg.metadata`; the task is
cancelled. -/
inductive Event (M : Type*)
  | stop
  | done
  | fetched (batch : List M)
  | timedOut
  | handled (how : Handled)
  | raised
  | cancelled

/-- The two conditions `not self._stopping.is_set()` of the loops, and the one of the pause. -/
@[simp] def DurableConsumer.unlessStopping (s : DurableConsumer M) (position : At M) : At M :=
  if s.stopping then .returned else position

/-- The loop over the batch. -/
@[simp] def DurableConsumer.goOn (s : DurableConsumer M) : List M → DurableConsumer M
  | [] => { s with position := s.unlessStopping .fetching }
  | msg :: rest => { s with position := .handling msg rest }

/-- An exception leaves the batch as it is. -/
@[simp] def DurableConsumer.abandon (s : DurableConsumer M) (position : At M) : DurableConsumer M :=
  { s with position := position, log := s.log ++ s.position.batch.map (·, none) }

def step (backoff : List ℚ) (numDelivered : M → Option ℕ) (s : DurableConsumer M) :
    Event M → Option (DurableConsumer M)
  | .stop => some { s with stopping := true }
  | .done => match s.position with
    | .ensuring => some { s with position := .connecting }
    | .connecting => some { s with position := .binding }
    | .binding => some (s.goOn [])
    | .settling msg how rest => some ({ s with log := s.log ++ [(msg, some how)] }.goOn rest)
    | .sleeping => some { s with position := s.unlessStopping .ensuring }
    | _ => none
  | .fetched batch => match s.position with
    | .fetching => some ({ s with fetched := s.fetched ++ batch }.goOn batch)
    | _ => none
  | .timedOut => match s.position with
    | .fetching => some (s.goOn [])
    | _ => none
  | .handled how => match s.position with
    | .handling msg rest => some { s with
        position := .settling msg (settlement backoff (numDelivered msg) how) rest }
    | _ => none
  | .raised => match s.position with
    | .sleeping | .returned | .cancelled => none
    | _ => some (s.abandon (s.unlessStopping .sleeping))
  | .cancelled => match s.position with
    | .returned | .cancelled => none
    | _ => some (s.abandon .cancelled)

/-! ### What a step does -/

/-- How many awaits there can be from here on, once the loop was told to stop. -/
@[simp] def At.rank : At M → ℕ
  | .ensuring => 3
  | .connecting => 2
  | .binding | .sleeping => 1
  | .handling _ rest => 2 * rest.length + 2
  | .settling _ _ rest => 2 * rest.length + 1
  | _ => 0

def Event.isAwait : Event M → Bool
  | .stop => false
  | _ => true

/-- An await is over: `done` is done with, and `new` was fetched. -/
structure Move (s s' : DurableConsumer M) (done : List (M × Option Settlement)) (new : List M) :
    Prop where
  log : s'.log = s.log ++ done
  fetched : s'.fetched = s.fetched ++ new
  batch : done.map Prod.fst ++ s'.position.batch = s.position.batch ++ new
  stopping : s'.stopping = s.stopping
  returned : s'.position = .returned → s.stopping = true
  ends : s.stopping = true → s.position ≠ .fetching →
    new = [] ∧ s'.position ≠ .fetching ∧ s'.position.rank < s.position.rank

variable {backoff : List ℚ} {numDelivered : M → Option ℕ} {s s' : DurableConsumer M} {e : Event M}

/-- **What an await can do**, one case for each place and each way it ends. -/
theorem move_of_step (hs : step backoff numDelivered s e = some s') (he : e ≠ .stop) :
    ∃ done new, Move s s' done new := by
  obtain ⟨position, stopping, fetched, log⟩ := s
  cases e with
  | stop => exact absurd rfl he
  | done =>
    cases position <;> cases hs
    case done.settling.refl msg how rest =>
      refine ⟨[(msg, some how)], [], ?_⟩
      cases rest <;> constructor <;> cases stopping <;> simp
      omega
    all_goals exact ⟨[], [], by constructor <;> cases stopping <;> simp⟩
  | fetched batch =>
    cases position <;> cases hs
    refine ⟨[], batch, ?_⟩
    cases batch <;> constructor <;> cases stopping <;> simp
  | timedOut | handled how =>
    cases position <;> cases hs
    exact ⟨[], [], by constructor <;> cases stopping <;> simp⟩
  | raised | cancelled =>
    cases position <;> cases hs
    all_goals
      refine ⟨_, [], rfl, (append_nil _).symm, ?_, rfl, ?_, ?_⟩ <;> cases stopping <;>
        simp [Function.comp_def]

/-! ### Whole runs -/

/-- Every fetched message is done with, once and in order, or in the batch; and the loop returned
only if it was told to. -/
structure Accounted (s : DurableConsumer M) : Prop where
  messages : s.log.map Prod.fst ++ s.position.batch = s.fetched
  returned : s.position = .returned → s.stopping = true

/-- **Every fetched message is accounted for**, in every state of the loop. -/
theorem messages_accounted (backoff : List ℚ) (numDelivered : M → Option ℕ) (es : List (Event M))
    (s : DurableConsumer M) (hrun : run (step backoff numDelivered) .initial es = some s) :
    Accounted s := by
  refine run_invariant (fun {s e s'} h hs => ?_) ⟨rfl, fun h => by cases h⟩ hrun
  by_cases he : e = .stop
  · subst he
    cases hs
    exact ⟨h.messages, fun _ => rfl⟩
  · obtain ⟨done, new, hmove⟩ := move_of_step hs he
    refine ⟨?_, fun hpos => hmove.stopping.trans (hmove.returned hpos)⟩
    rw [hmove.log, hmove.fetched, map_append, append_assoc, hmove.batch, ← append_assoc, h.messages]

/-- A connection lost while the second of three messages is given back. -/
def lostConnection : List (Event ℕ) :=
  [.done, .done, .done, .fetched [0, 1, 2], .handled .returned, .done, .handled .failed, .raised]

theorem messages_accounted_lost :
    ∃ s, run (step [1, 5] fun _ => none) .initial lostConnection = some s ∧
      s.log = [(0, some .ack), (1, none), (2, none)] ∧ Accounted s :=
  ⟨_, rfl, rfl, messages_accounted [1, 5] (fun _ => none) lostConnection _ rfl⟩

/-- **Stopping ends the loop**: once it was told to stop, and does not wait for a fetch, it fetches
nothing more and is over after at most two awaits for each message of the batch, the awaits left of
the set-up, or the pause. -/
theorem stop_ends {es : List (Event M)} (hstop : s.stopping = true) (hpos : s.position ≠ .fetching)
    (hrun : run (step backoff numDelivered) s es = some s') :
    s'.fetched = s.fetched ∧ es.countP Event.isAwait + s'.position.rank ≤ s.position.rank ∧
      (s'.position.rank = 0 → s'.position = .returned ∨ s'.position = .cancelled) := by
  have h := run_history (P := fun es t => t.stopping = true ∧ t.position ≠ .fetching ∧
    t.fetched = s.fetched ∧ es.countP Event.isAwait + t.position.rank ≤ s.position.rank)
    (fun {es t e t'} h hs => ?_) ⟨hstop, hpos, rfl, by simp⟩ hrun
  · refine ⟨h.2.2.1, h.2.2.2, fun hzero => ?_⟩
    have hnot := h.2.1
    cases hs' : s'.position <;> simp_all
  · obtain ⟨hstop, hpos, hfetched, hrank⟩ := h
    rw [countP_append]
    by_cases he : e = .stop
    · subst he
      cases hs
      exact ⟨rfl, hpos, hfetched, hrank⟩
    · obtain ⟨done, new, hmove⟩ := move_of_step hs he
      obtain ⟨rfl, hpos', hlt⟩ := hmove.ends hstop hpos
      refine ⟨hmove.stopping.trans hstop, hpos', ?_, ?_⟩
      · rw [hmove.fetched, append_nil, hfetched]
      · have hone : countP Event.isAwait [e] ≤ 1 := countP_le_length
        omega

/-- Told to stop with two messages left, the first of them poison. -/
theorem stop_ends_batch :
    ∃ s, run (step [] fun _ => none) ⟨.handling 0 [1], true, [0, 1], []⟩
        [.handled .poison, .done, .handled .returned, .done] = some s ∧
      s.position = .returned ∧ s.fetched = [0, 1] := by
  refine ⟨_, rfl, rfl, ?_⟩
  exact (@stop_ends ℕ [] (fun _ => none) ⟨.handling 0 [1], true, [0, 1], []⟩ _
    [.handled .poison, .done, .handled .returned, .done] rfl nofun rfl).1

end ServiceToolkit.Consumer
