import ServiceToolkit.LeaderListener

/-!
# The Tasks of the Leader-Elected Listener

`start`, the retry task, the callback of a lost lease and `stop` run the code of
`LeaderListener` on one listener, and each may be waiting while another moves. This module
interleaves them at their awaits.

## The scheduler

An `Event` is what one of them does between two awaits, or what happens outside:

* `start` and `stop` are called; a call goes on with the outcome of what it awaited
  (`resume`); the retry task wakes up; the callback of a lost lease gets its turn (`begin`);
* `stop` finds the retry task over (`joined`), and Redis closed;
* a cancellation reaches the retry task, which then ends where it waits. Waiting for a
  renew task to end is the exception: `LeaderLease.release` swallows a cancellation there;
* the renewal of a lease is refused and its callback scheduled (`renewalLost`), raises
  (`renewalFails`), or its task ends after a cancellation (`renewalEnds`).

Only the retry task is ever cancelled.

## Main results

* `inv_step`, `inv_run` — along every orderly run, the fields name every claimed lease and every
  open client, an attempt on its way up is the only active call, and a retry task that is not over
  is the listener's or awaited by a `stop`.
-/

namespace ServiceToolkit.Listener

open List

/-- The callers of the listener's code. -/
inductive Role
  | start
  | retry
  | lost
  | stop
  deriving DecidableEq, Repr

/-- Where a call is. -/
inductive Phase
  | waiting (here : At)
  | sleeping
  | scheduled
  | awaitingRetry (task : ℕ)
  | closingRedis (redis : ℕ)
  | returned
  | raised
  | cancelled
  deriving DecidableEq, Repr

/-- A call of `start` or `stop`, a retry task or a lost-lease callback. -/
structure Call where
  role : Role
  phase : Phase
  cancelRequested : Bool
  deriving DecidableEq, Repr

/-- The call is over. -/
def Phase.isOver : Phase → Bool
  | .returned | .raised | .cancelled => true
  | _ => false

/-- The call is in the middle of the listener's code. -/
def Phase.isActive : Phase → Bool
  | .waiting _ | .awaitingRetry _ | .closingRedis _ => true
  | _ => false

/-- A call that is over is not active. -/
theorem Phase.isActive_eq_false {phase : Phase} (hover : phase.isOver = true) :
    phase.isActive = false := by
  cases phase with
  | waiting here | awaitingRetry task | closingRedis redis => cases hover
  | _ => rfl

/-- The listener with its calls. -/
structure State extends Fields where
  stopping : Bool
  retryTask : Option ℕ
  calls : List Call
  deriving DecidableEq

/-- A new listener. -/
def State.initial : State := ⟨.initial, false, none, []⟩

/-- The call is now there; a cancellation it has lived through is forgotten. -/
def State.setCall (s : State) (i : ℕ) (role : Role) (phase : Phase) : State :=
  { s with calls := s.calls.set i ⟨role, phase, false⟩ }

/-- `_ensure_retry_task`. -/
def ensureRetryTask (s : State) : State :=
  if s.stopping then s
  else if (s.retryTask.bind (s.calls[·]?)).any fun task => !task.phase.isOver then s
  else
    { s with
      retryTask := some s.calls.length
      calls := s.calls ++ [⟨.retry, .sleeping, false⟩] }

/-- The caller of an attempt that is over. -/
def attemptEnded (s : State) (i : ℕ) (role : Role) (started : Bool) : State :=
  match role with
  | .retry => s.setCall i role (if started || s.stopping then .returned else .sleeping)
  | _ => (if started then s else ensureRetryTask s).setCall i role .returned

/-- `_close_redis`, and `stop` returns. -/
def closeRedis (s : State) (i : ℕ) : State :=
  match s.redis with
  | none => s.setCall i .stop .returned
  | some r =>
    if s.redisClients.getD r false then
      { s with redisClients := s.redisClients.set r false }.setCall i .stop (.closingRedis r)
    else { s with redis := none }.setCall i .stop .returned

/-- A call has run to its next await, or to the end of the routine it called. -/
def settle (s : State) (i : ℕ) (role : Role) (code : Code) : State :=
  let s' := { s with toFields := code.1 }
  match code.2 with
  | .attempted started => attemptEnded s' i role started
  | .closed =>
    match role with
    | .start | .retry => attemptEnded s' i role false
    | .lost => (ensureRetryTask s').setCall i role .returned
    | .stop => closeRedis s' i
  | .raised => s'.setCall i role .raised
  | here => s'.setCall i role (.waiting here)

/-- What can happen next. -/
inductive Event
  | start
  | resume (call : ℕ) (outcome : Outcome)
  | wake (call : ℕ)
  | begin (call : ℕ)
  | stop
  | joined (call : ℕ)
  | redisClosed (call : ℕ) (ok : Bool)
  | deliverCancel (call : ℕ)
  | renewalLost (lease : ℕ)
  | renewalFails (lease : ℕ)
  | renewalEnds (lease : ℕ)
  deriving DecidableEq, Repr

/-- The fields after a cancellation reached a routine: `NATSClient.close` still gives up its
connection. -/
def cancelledAt (f : Fields) : At → Fields
  | .closing c => f.setOpen c false
  | _ => f

/-- Waiting for a renew task to end swallows a cancellation. -/
def At.swallows : At → Bool
  | .cancelling _ => true
  | _ => false

/-- The awaits that swallow a cancellation are on the way down. -/
theorem At.swallows.not_up {here : At} (hswallows : here.swallows = true) : here.isUp = false := by
  cases here with
  | cancelling l => rfl
  | _ => cases hswallows

/-- A new call is added. -/
def State.addCall (s : State) (role : Role) : State :=
  { s with calls := s.calls ++ [⟨role, .returned, false⟩] }

/-- One step. -/
def step (redisEnabled : Bool) (s : State) : Event → Option State
  | .start =>
    let s' := { s with stopping := false }.addCall .start
    some (settle s' s.calls.length .start (beginAttempt redisEnabled s.toFields))
  | .resume i outcome =>
    match s.calls[i]? with
    | some ⟨role, .waiting here, cancelRequested⟩ =>
      if cancelRequested && !here.swallows then none
      else (resumed s.toFields here outcome).map (settle s i role)
    | _ => none
  | .wake i =>
    match s.calls[i]? with
    | some ⟨.retry, .sleeping, false⟩ =>
      if s.stopping || s.subscriptions ≠ 0 then some (s.setCall i .retry .returned)
      else some (settle s i .retry (beginAttempt redisEnabled s.toFields))
    | _ => none
  | .begin i =>
    match s.calls[i]? with
    | some ⟨.lost, .scheduled, _⟩ => some (settle s i .lost (closeRuntime s.toFields))
    | _ => none
  | .stop =>
    let i := s.calls.length
    let s' := { s with stopping := true, retryTask := none }.addCall .stop
    match s.retryTask with
    | none => some (settle s' i .stop (closeRuntime s.toFields))
    | some t =>
      match s.calls[t]? with
      | none => none
      | some task =>
        match task.phase with
        | .raised => some (s'.setCall i .stop .raised)
        | .returned | .cancelled => some (settle s' i .stop (closeRuntime s.toFields))
        | phase =>
          some ({ s' with
            calls := s'.calls.set t ⟨task.role, phase, true⟩ }.setCall i .stop
              (.awaitingRetry t))
  | .joined i =>
    match s.calls[i]? with
    | some ⟨.stop, .awaitingRetry t, _⟩ =>
      match (s.calls[t]?).map Call.phase with
      | some .raised => some (s.setCall i .stop .raised)
      | some .returned | some .cancelled =>
        some (settle s i .stop (closeRuntime s.toFields))
      | _ => none
    | _ => none
  | .redisClosed i ok =>
    match s.calls[i]? with
    | some ⟨.stop, .closingRedis _, _⟩ =>
      if ok then some ({ s with redis := none }.setCall i .stop .returned)
      else some (s.setCall i .stop .raised)
    | _ => none
  | .deliverCancel i =>
    match s.calls[i]? with
    | some ⟨.retry, .sleeping, true⟩ => some (s.setCall i .retry .cancelled)
    | some ⟨.retry, .waiting here, true⟩ =>
      if here.swallows then none
      else
        some ({ s with toFields := cancelledAt s.toFields here }.setCall i .retry .cancelled)
    | _ => none
  | .renewalLost l =>
    match s.leases[l]? with
    | some ⟨_, _, attached, .running⟩ =>
      some { s with
        toFields := s.toFields.setLease l ⟨false, true, attached, .ended⟩
        calls := s.calls ++ [⟨.lost, .scheduled, false⟩] }
    | _ => none
  | .renewalFails l =>
    match s.leases[l]? with
    | some ⟨held, lost, attached, .running⟩ =>
      some { s with toFields := s.toFields.setLease l ⟨held, lost, attached, .failed⟩ }
    | _ => none
  | .renewalEnds l =>
    match s.leases[l]? with
    | some ⟨held, lost, attached, .cancelling⟩ =>
      some { s with toFields := s.toFields.setLease l ⟨held, lost, attached, .ended⟩ }
    | _ => none

/-! ### What a step does -/

/-- There is no retry task that is not over. -/
def NoRetry (s : State) : Prop :=
  ∀ t task, s.retryTask = some t → s.calls[t]? = some task → task.phase.isOver = true

/-- A `stop` that has just been called. -/
def State.stopAdded (s : State) : State :=
  { s with stopping := true, retryTask := none }.addCall .stop

/-- The calls once `stop` waits for the retry task. -/
def awaitingCalls (calls : List Call) (t : ℕ) (task : Call) : List Call :=
  calls.set t ⟨task.role, task.phase, true⟩ ++ [⟨.stop, .awaitingRetry t, false⟩]

/-- A step, rule by rule. -/
inductive Move (redisEnabled : Bool) (s : State) : Event → State → Prop
  | start :
      Move redisEnabled s .start (settle ({ s with stopping := false }.addCall .start)
        s.calls.length .start (beginAttempt redisEnabled s.toFields))
  | resume {i : ℕ} {role here cancelRequested outcome code}
      (call : s.calls[i]? = some ⟨role, .waiting here, cancelRequested⟩)
      (goesOn : cancelRequested = true → here.swallows = true)
      (resumed : resumed s.toFields here outcome = some code) :
      Move redisEnabled s (.resume i outcome) (settle s i role code)
  | rest {i : ℕ} (call : s.calls[i]? = some ⟨.retry, .sleeping, false⟩) :
      Move redisEnabled s (.wake i) (s.setCall i .retry .returned)
  | wake {i : ℕ} (call : s.calls[i]? = some ⟨.retry, .sleeping, false⟩)
      (stopping : s.stopping = false) (subscriptions : s.subscriptions = 0) :
      Move redisEnabled s (.wake i) (settle s i .retry (beginAttempt redisEnabled s.toFields))
  | begin {i : ℕ} {cancelRequested}
      (call : s.calls[i]? = some ⟨.lost, .scheduled, cancelRequested⟩) :
      Move redisEnabled s (.begin i) (settle s i .lost (closeRuntime s.toFields))
  | stop (noRetry : NoRetry s) :
      Move redisEnabled s .stop
        (settle s.stopAdded s.calls.length .stop (closeRuntime s.toFields))
  | stopRaises (noRetry : NoRetry s) :
      Move redisEnabled s .stop (s.stopAdded.setCall s.calls.length .stop .raised)
  | stopWaits {t : ℕ} {task} (retryTask : s.retryTask = some t)
      (there : s.calls[t]? = some task) :
      Move redisEnabled s .stop
        { s with stopping := true, retryTask := none, calls := awaitingCalls s.calls t task }
  | joined {i t : ℕ} {task cancelRequested}
      (call : s.calls[i]? = some ⟨.stop, .awaitingRetry t, cancelRequested⟩)
      (there : s.calls[t]? = some task) (isOver : task.phase.isOver = true) :
      Move redisEnabled s (.joined i) (settle s i .stop (closeRuntime s.toFields))
  | joinedRaises {i t : ℕ} {task cancelRequested}
      (call : s.calls[i]? = some ⟨.stop, .awaitingRetry t, cancelRequested⟩)
      (there : s.calls[t]? = some task) (isOver : task.phase.isOver = true) :
      Move redisEnabled s (.joined i) (s.setCall i .stop .raised)
  | redisClosed {i r : ℕ} {cancelRequested}
      (call : s.calls[i]? = some ⟨.stop, .closingRedis r, cancelRequested⟩) :
      Move redisEnabled s (.redisClosed i true) ({ s with redis := none }.setCall i .stop .returned)
  | redisRaises {i r : ℕ} {cancelRequested}
      (call : s.calls[i]? = some ⟨.stop, .closingRedis r, cancelRequested⟩) :
      Move redisEnabled s (.redisClosed i false) (s.setCall i .stop .raised)
  | cancelSleep {i : ℕ} (call : s.calls[i]? = some ⟨.retry, .sleeping, true⟩) :
      Move redisEnabled s (.deliverCancel i) (s.setCall i .retry .cancelled)
  | cancel {i : ℕ} {here} (call : s.calls[i]? = some ⟨.retry, .waiting here, true⟩)
      (swallows : here.swallows = false) :
      Move redisEnabled s (.deliverCancel i)
        ({ s with toFields := cancelledAt s.toFields here }.setCall i .retry .cancelled)
  | renewalLost {l : ℕ} {held lost attached}
      (lease : s.leases[l]? = some ⟨held, lost, attached, .running⟩) :
      Move redisEnabled s (.renewalLost l)
        { s with
          toFields := s.toFields.setLease l ⟨false, true, attached, .ended⟩
          calls := s.calls ++ [⟨.lost, .scheduled, false⟩] }
  | renewalFails {l : ℕ} {held lost attached}
      (lease : s.leases[l]? = some ⟨held, lost, attached, .running⟩) :
      Move redisEnabled s (.renewalFails l)
        { s with toFields := s.toFields.setLease l ⟨held, lost, attached, .failed⟩ }
  | renewalEnds {l : ℕ} {held lost attached}
      (lease : s.leases[l]? = some ⟨held, lost, attached, .cancelling⟩) :
      Move redisEnabled s (.renewalEnds l)
        { s with toFields := s.toFields.setLease l ⟨held, lost, attached, .ended⟩ }

section Moves

variable {redisEnabled : Bool} {s s' : State}

/-- What `stop` does. -/
theorem move_stop (hstep : step redisEnabled s .stop = some s') : Move redisEnabled s .stop s' := by
  -- the retry task is over
  have hover : ∀ {t : ℕ} {task : Call}, s.retryTask = some t → s.calls[t]? = some task →
      task.phase.isOver = true → NoRetry s := by
    intro t task htask ht hphase t' task' htask' ht'
    rw [htask] at htask'
    cases htask'
    rw [ht] at ht'
    cases ht'
    exact hphase
  -- it is not, and the two writes to the calls are apart
  have hcalls : ∀ {t : ℕ} {task : Call}, s.calls[t]? = some task →
      ((s.calls ++ [(⟨.stop, .returned, false⟩ : Call)]).set t ⟨task.role, task.phase, true⟩).set
        s.calls.length ⟨.stop, .awaitingRetry t, false⟩ = awaitingCalls s.calls t task := by
    intro t task ht
    rw [List.set_append_left _ _ (lt_of_getElem? ht),
      set_append_right _ _ (Nat.le_of_eq length_set), length_set, Nat.sub_self]
    rfl
  cases htask : s.retryTask with
  | none =>
    simp only [step, htask] at hstep
    cases hstep
    refine .stop fun t task ht => ?_
    rw [htask] at ht
    cases ht
  | some t =>
    cases ht : s.calls[t]? with
    | none =>
      simp only [step, htask, ht] at hstep
      cases hstep
    | some task =>
      have hwaits : s' = { s.stopAdded with
          calls := (s.calls ++ [(⟨.stop, .returned, false⟩ : Call)]).set t
            ⟨task.role, task.phase, true⟩ }.setCall s.calls.length .stop (.awaitingRetry t) →
          Move redisEnabled s .stop s' := by
        intro heq
        rw [heq, State.setCall, hcalls ht]
        exact .stopWaits htask ht
      cases hphase : task.phase with
      | raised =>
        simp only [step, htask, ht, hphase] at hstep
        cases hstep
        exact .stopRaises (hover htask ht (by rw [hphase]; rfl))
      | returned | cancelled =>
        simp only [step, htask, ht, hphase] at hstep
        cases hstep
        exact .stop (hover htask ht (by rw [hphase]; rfl))
      | _ =>
        simp only [step, htask, ht, hphase] at hstep
        refine hwaits ?_
        rw [hphase]
        exact (Option.some.inj hstep).symm

/-- **The step relation** has every step. -/
theorem move_of_step {e : Event} (hstep : step redisEnabled s e = some s') :
    Move redisEnabled s e s' := by
  cases e with
  | start =>
    cases hstep
    exact .start
  | stop => exact move_stop hstep
  | resume i outcome =>
    simp only [step] at hstep
    split at hstep
    · rename_i hcall
      split at hstep
      · cases hstep
      · rename_i hcancel
        obtain ⟨code, hresumed, rfl⟩ := Option.map_eq_some_iff.mp hstep
        refine .resume hcall (fun hrequested => ?_) hresumed
        rw [hrequested, Bool.true_and, Bool.not_eq_true, Bool.not_eq_false'] at hcancel
        exact hcancel
    · cases hstep
  | wake i =>
    simp only [step] at hstep
    split at hstep
    · rename_i hcall
      split at hstep
      · cases hstep
        exact .rest hcall
      · rename_i hgo
        cases hstep
        rw [Bool.or_eq_true, not_or, decide_eq_true_eq, not_not] at hgo
        exact .wake hcall (Bool.eq_false_iff.mpr hgo.1) hgo.2
    · cases hstep
  | joined i =>
    simp only [step] at hstep
    split at hstep
    · rename_i t cancelRequested hcall
      cases ht : s.calls[t]? with
      | none =>
        rw [ht] at hstep
        cases hstep
      | some task =>
        rw [ht, Option.map_some] at hstep
        split at hstep
        · rename_i hphase
          cases hstep
          exact .joinedRaises hcall ht (by rw [Option.some.inj hphase]; rfl)
        · rename_i hphase
          cases hstep
          exact .joined hcall ht (by rw [Option.some.inj hphase]; rfl)
        · rename_i hphase
          cases hstep
          exact .joined hcall ht (by rw [Option.some.inj hphase]; rfl)
        · cases hstep
    · cases hstep
  | redisClosed i ok =>
    simp only [step] at hstep
    split at hstep
    · rename_i hcall
      cases ok with
      | true =>
        cases hstep
        exact .redisClosed hcall
      | false =>
        cases hstep
        exact .redisRaises hcall
    · cases hstep
  | deliverCancel i =>
    simp only [step] at hstep
    split at hstep
    · cases hstep
      exact .cancelSleep ‹_›
    · rename_i hcall
      split at hstep
      · cases hstep
      · rename_i hswallows
        cases hstep
        exact .cancel hcall (Bool.eq_false_iff.mpr hswallows)
    · cases hstep
  | begin | renewalLost | renewalFails | renewalEnds =>
    simp only [step] at hstep
    split at hstep
    · cases hstep
      constructor
      assumption
    · cases hstep

end Moves

/-! ### What settling a call does -/

/-- The Redis client apart, the fields are the same. -/
def SameRuntime (f g : Fields) : Prop :=
  g = { f with redis := g.redis, redisClients := g.redisClients }

/-- Where a call is after its routine got there: it waits there, it raised, or the routine is
over and the call ends, closes Redis or sleeps. -/
def Lands (role : Role) (here : At) (phase : Phase) : Prop :=
  (phase = .waiting here ∧ (here.isUp = true ∨ here.isDown = true)) ∨
  (phase = .raised ∧ here = .raised) ∨
  ((here = .closed ∨ ∃ started, here = .attempted started) ∧
    (phase = .returned ∨ (∃ r, phase = .closingRedis r) ∨ phase = .sleeping ∧ role = .retry))

/-- A call has settled in a phase, and a retry task may have been created. -/
structure Settled (s : State) (i : ℕ) (role : Role) (code : Code) (s' : State) (phase : Phase)
    (created : List Call) : Prop where
  calls : s'.calls = s.calls.set i ⟨role, phase, false⟩ ++ created
  runtime : SameRuntime code.1 s'.toFields
  stopping : s'.stopping = s.stopping
  created : (created = [] ∧ s'.retryTask = s.retryTask) ∨
    (created = [⟨.retry, .sleeping, false⟩] ∧ s'.retryTask = some s.calls.length ∧
      s.stopping = false ∧ NoRetry s ∧ role ≠ .retry)
  lands : Lands role code.2 phase

section Settle

variable {s : State} {i : ℕ} {role : Role} {code : Code}

/-- Fields are the same as themselves. -/
theorem SameRuntime.refl (f : Fields) : SameRuntime f f := rfl

/-- A call that ends by ensuring a retry task settles. -/
theorem ensured_settled (hi : i < s.calls.length) (hrole : role ≠ .retry)
    (hover : code.2 = .closed ∨ ∃ started, code.2 = .attempted started) :
    ∃ created, Settled s i role code
      ((ensureRetryTask { s with toFields := code.1 }).setCall i role .returned) .returned
      created := by
  have hlands : Lands role code.2 .returned := .inr (.inr ⟨hover, .inl rfl⟩)
  rw [ensureRetryTask]
  split
  · exact ⟨[], (append_nil _).symm, .refl _, rfl, .inl ⟨rfl, rfl⟩, hlands⟩
  · rename_i hstopping
    split
    · exact ⟨[], (append_nil _).symm, .refl _, rfl, .inl ⟨rfl, rfl⟩, hlands⟩
    · rename_i hnone
      refine ⟨[⟨.retry, .sleeping, false⟩], set_append_left _ _ hi, .refl _, rfl,
        .inr ⟨rfl, rfl, Bool.eq_false_iff.mpr hstopping, fun t task ht htask => ?_, hrole⟩, hlands⟩
      have ht : s.retryTask = some t := ht
      have htask : s.calls[t]? = some task := htask
      simpa [ht, htask] using hnone

/-- A call whose attempt has ended settles, whatever its role. -/
theorem attemptEnded_settled (hi : i < s.calls.length) {started : Bool}
    (hover : code.2 = .closed ∨ code.2 = .attempted started) :
    ∃ phase created, Settled s i role code
      (attemptEnded { s with toFields := code.1 } i role started) phase created := by
  have hover' : code.2 = .closed ∨ ∃ started, code.2 = .attempted started :=
    hover.imp_right fun h => ⟨started, h⟩
  have hlands : Lands role code.2 .returned := .inr (.inr ⟨hover', .inl rfl⟩)
  have hcaller : role ≠ .retry → ∃ phase created, Settled s i role code
      ((if started then ({ s with toFields := code.1 } : State)
        else ensureRetryTask { s with toFields := code.1 }).setCall i role .returned)
      phase created := by
    intro hrole
    split
    · exact ⟨.returned, [], (append_nil _).symm, .refl _, rfl, .inl ⟨rfl, rfl⟩, hlands⟩
    · obtain ⟨created, hsettled⟩ := ensured_settled hi hrole hover'
      exact ⟨.returned, created, hsettled⟩
  cases role with
  | retry =>
    rw [attemptEnded]
    split
    · exact ⟨.returned, [], (append_nil _).symm, .refl _, rfl, .inl ⟨rfl, rfl⟩, hlands⟩
    · exact ⟨.sleeping, [], (append_nil _).symm, .refl _, rfl, .inl ⟨rfl, rfl⟩,
        .inr (.inr ⟨hover', .inr (.inr ⟨rfl, rfl⟩)⟩)⟩
  | start | lost | stop => exact hcaller Role.noConfusion

/-- A `stop` that goes on to close Redis settles. -/
theorem closeRedis_settled (hclosed : code.2 = .closed) :
    ∃ phase, Settled s i .stop code (closeRedis { s with toFields := code.1 } i) phase [] := by
  have hlands : ∀ {phase}, (phase = .returned ∨ (∃ r, phase = .closingRedis r) ∨
      phase = .sleeping ∧ Role.stop = .retry) → Lands .stop code.2 phase :=
    fun hphase => .inr (.inr ⟨.inl hclosed, hphase⟩)
  rw [closeRedis]
  split
  · exact ⟨.returned, (append_nil _).symm, rfl, rfl, .inl ⟨rfl, rfl⟩, hlands (.inl rfl)⟩
  · rename_i r _
    split
    · exact ⟨.closingRedis r, (append_nil _).symm, rfl, rfl, .inl ⟨rfl, rfl⟩,
        hlands (.inr (.inl ⟨r, rfl⟩))⟩
    · exact ⟨.returned, (append_nil _).symm, rfl, rfl, .inl ⟨rfl, rfl⟩, hlands (.inl rfl)⟩

variable (role code) in
/-- **Settling** puts one call in one phase, takes over the fields and may create a retry
task. -/
theorem settle_spec (hi : i < s.calls.length) :
    ∃ phase created, Settled s i role code (settle s i role code) phase created := by
  obtain ⟨f, here⟩ := code
  have hclosed : ((f, .closed) : Code).2 = .closed := rfl
  have hwaits : here.isUp = true ∨ here.isDown = true → ∃ phase created,
      Settled s i role (f, here) (({ s with toFields := f } : State).setCall i role (.waiting here))
        phase created :=
    fun hway => ⟨.waiting here, [], (append_nil _).symm, rfl, rfl, .inl ⟨rfl, rfl⟩,
      .inl ⟨rfl, hway⟩⟩
  cases here with
  | attempted started => exact attemptEnded_settled hi (.inr rfl)
  | closed =>
    cases role with
    | start | retry => exact attemptEnded_settled hi (.inl rfl)
    | lost =>
      have hlost : Role.lost ≠ .retry := by decide
      obtain ⟨created, hsettled⟩ := ensured_settled hi hlost (.inl hclosed)
      exact ⟨.returned, created, hsettled⟩
    | stop =>
      obtain ⟨phase, hsettled⟩ := closeRedis_settled hclosed
      exact ⟨phase, [], hsettled⟩
  | raised =>
    exact ⟨.raised, [], (append_nil _).symm, rfl, rfl, .inl ⟨rfl, rfl⟩, .inr (.inl ⟨rfl, rfl⟩)⟩
  | connecting r | acquiring l | dialing c | subscribing | starting => exact hwaits (.inl rfl)
  | onStop | unsubscribing | closing c | cancelling l | deleting l => exact hwaits (.inr rfl)

variable {s' : State} {phase : Phase} {created : List Call}

/-- Each call afterwards is the one that moved, an old one, or the new retry task. -/
theorem Settled.get (h : Settled s i role code s' phase created) {j : ℕ} {call : Call}
    (hj : s'.calls[j]? = some call) :
    (j = i ∧ call = ⟨role, phase, false⟩) ∨ (j ≠ i ∧ s.calls[j]? = some call) ∨
      (call = ⟨.retry, .sleeping, false⟩ ∧ s'.retryTask = some j) := by
  rw [h.calls, getElem?_append] at hj
  split at hj
  · rw [getElem?_set] at hj
    split at hj
    · rename_i heq
      split at hj
      · exact .inl ⟨heq.symm, (Option.some.inj hj).symm⟩
      · cases hj
    · rename_i hne
      exact .inr (.inl ⟨fun heq => hne heq.symm, hj⟩)
  · rename_i hge
    rw [length_set] at hge hj
    rcases h.created with ⟨hnil, -⟩ | ⟨hone, htask, -⟩
    · rw [hnil, getElem?_nil] at hj
      cases hj
    · rw [hone, getElem?_singleton] at hj
      split at hj
      · rename_i hzero
        refine .inr (.inr ⟨(Option.some.inj hj).symm, ?_⟩)
        rw [htask]
        exact congrArg some (by omega)
      · cases hj

/-- The other calls stay. -/
theorem Settled.other (h : Settled s i role code s' phase created) {j : ℕ} {call : Call}
    (hne : j ≠ i) (hj : s.calls[j]? = some call) : s'.calls[j]? = some call := by
  rw [h.calls]
  exact getElem?_append_some ((getElem?_set_ne (Ne.symm hne)).trans hj)

/-- The call itself is where its code ended. -/
theorem Settled.self (h : Settled s i role code s' phase created) (hi : i < s.calls.length) :
    s'.calls[i]? = some ⟨role, phase, false⟩ := by
  rw [h.calls, getElem?_append_left (by rw [length_set]; exact hi), getElem?_set_self hi]

end Settle

/-! ### The invariant -/

/-- The call waits there, perhaps to be cancelled. -/
abbrev State.Waits (s : State) (i : ℕ) (role : Role) (here : At) (cancelled : Bool) : Prop :=
  s.calls[i]? = some ⟨role, .waiting here, cancelled⟩

/-- A `stop` waits for the retry task. -/
abbrev State.Awaited (s : State) (task : ℕ) : Prop :=
  ∃ (i : ℕ) (cancelled : Bool), s.calls[i]? = some ⟨.stop, .awaitingRetry task, cancelled⟩

/-- No other call is active. -/
def State.Alone (s : State) (i : ℕ) : Prop :=
  ∀ {j : ℕ} {call : Call}, s.calls[j]? = some call → call.phase.isActive = true → j = i

/-- What holds in every state of an orderly run. -/
structure Inv (s : State) : Prop where
  /-- The fields name what there is. -/
  owned : Owned s.toFields
  /-- What is known where a call waits holds, unless it is up and to be cancelled. -/
  here : ∀ {i role here cancelled}, s.Waits i role here cancelled →
    (here.isUp = true → cancelled = false) → Local s.toFields here
  /-- An attempt on its way up is the only active call. -/
  alone : ∀ {i role here}, s.Waits i role here false → here.isUp = true → s.Alone i
  /-- A call waits on its way up or on its way down. -/
  way : ∀ {i role here cancelled}, s.Waits i role here cancelled → here.isUp = false →
    here.isDown = true
  /-- Only `start` and the retry task attempt anything. -/
  up : ∀ {i role here cancelled}, s.Waits i role here cancelled → here.isUp = true →
    role = .start ∨ role = .retry
  /-- Someone waits for a renew task that was cancelled. -/
  pending : ∀ {l}, s.renewalIs .cancelling l = true →
    ∃ i role cancelled, s.Waits i role (.cancelling l) cancelled
  /-- A retry task that is not over is the listener's, or a `stop` waits for it. -/
  retry : ∀ {i : ℕ} {phase cancelled}, s.calls[i]? = some ⟨.retry, phase, cancelled⟩ →
    phase.isOver = false → s.retryTask = some i ∨ s.Awaited i

variable {f g : Fields}

/-- Ownership does not depend on the Redis client. -/
theorem SameRuntime.owned (h : SameRuntime f g) (howned : Owned f) : Owned g := by
  rw [SameRuntime] at h
  rw [h]
  exact ⟨howned.lease, howned.client, howned.attached⟩

/-- What is known where a routine is does not depend on the Redis client. -/
theorem SameRuntime.here (h : SameRuntime f g) {here : At} (hhere : Local f here) :
    Local g here := by
  rw [SameRuntime] at h
  rw [h]
  cases here with
  | connecting r => exact ⟨hhere.1, ⟨hhere.2.lease, hhere.2.client⟩⟩
  | acquiring l => exact ⟨hhere.1, ⟨hhere.2.1.lease, hhere.2.1.client⟩, hhere.2.2⟩
  | attempted result =>
    cases result with
    | false => exact ⟨hhere.1, ⟨hhere.2.lease, hhere.2.client⟩⟩
    | true => trivial
  | _ => exact hhere

/-- The state of a renewal does not depend on the Redis client. -/
theorem SameRuntime.renewalIs (h : SameRuntime f g) (r : Renewal) (l : ℕ) :
    g.renewalIs r l = f.renewalIs r l := by
  rw [SameRuntime] at h
  rw [h]
  rfl

variable {role : Role}

/-- A call that still waits waits where its code stopped. -/
theorem Lands.waiting {here here' : At} (h : Lands role here (.waiting here')) : here' = here := by
  rcases h with ⟨h, -⟩ | ⟨h, -⟩ | ⟨-, h | ⟨r, h⟩ | ⟨h, -⟩⟩
  · exact Phase.waiting.inj h
  all_goals cases h

/-- It waits on the way up or on the way down. -/
theorem Lands.way {here here' : At} (h : Lands role here (.waiting here')) :
    here'.isUp = true ∨ here'.isDown = true := by
  rw [h.waiting]
  rcases h with ⟨-, h⟩ | ⟨h, -⟩ | ⟨-, h | ⟨r, h⟩ | ⟨h, -⟩⟩
  · exact h
  all_goals cases h

/-- The call is on its way up only to be cancelled. -/
def Call.UpCancelled (call : Call) : Prop :=
  ∀ here : At, call.phase = .waiting here → here.isUp = true → call.cancelRequested = true

/-- Nobody else gets further up. -/
def NoneUp (s : State) (i : ℕ) : Prop :=
  ∀ {j : ℕ} {call : Call}, j ≠ i → s.calls[j]? = some call → call.UpCancelled

/-- A call in that phase can go on: the renew task or the retry task it may have waited for is
over, and it is no retry task that is over itself. -/
structure Free (s : State) (role : Role) (phase : Phase) : Prop where
  renewal : ∀ {l}, s.renewalIs .cancelling l = true → phase ≠ .waiting (.cancelling l)
  joined : ∀ {t : ℕ} {task : Call}, phase = .awaitingRetry t → s.calls[t]? = some task →
    task.phase.isOver = true
  retry : role = .retry → phase.isOver = false

variable {s : State} {i : ℕ} {code : Code} {phase : Phase} {cancelled : Bool}

/-- A call that is free runs its code. What the others know has to survive that, and on its way up
it has to be alone. -/
theorem Inv.settled (h : Inv s) (hcall : s.calls[i]? = some ⟨role, phase, cancelled⟩)
    (hfree : Free s role phase) (hsafe : Safe code)
    (hrenewal : ∀ {l}, code.1.renewalIs .cancelling l = true →
      s.renewalIs .cancelling l = true ∨ code.2 = .cancelling l) (hnone : NoneUp s i)
    (hothers : ∀ {j role here cancelled}, j ≠ i → s.Waits j role here cancelled →
      here.isDown = true → Local code.1 here)
    (hup : code.2.isUp = true → (role = .start ∨ role = .retry) ∧ s.Alone i) :
    Inv (settle s i role code) := by
  have hi := lt_of_getElem? hcall
  obtain ⟨phase', created, hsettled⟩ := settle_spec role code hi
  have hlands := hsettled.lands
  refine ⟨hsettled.runtime.owned hsafe.owned, fun {j role here cancelled} hw hcancel => ?_,
    fun hw hisUp _ _ hother hactive => ?_, fun hw hnot => ?_, fun hw hisUp => ?_, fun hl => ?_,
    fun hk hover => ?_⟩
  · -- what is known where a call waits
    refine hsettled.runtime.here ?_
    rcases hsettled.get hw with ⟨-, hnew⟩ | ⟨hne, hold⟩ | ⟨hnew, -⟩
    · cases hnew
      rw [hlands.waiting]
      exact hsafe.here
    · cases hisUp : here.isUp with
      | true =>
        have hcancelled : cancelled = true := hnone hne hold _ rfl hisUp
        rw [hcancel hisUp] at hcancelled
        cases hcancelled
      | false => exact hothers hne hold (h.way hold hisUp)
    · cases hnew
  · -- an attempt on its way up is alone
    rcases hsettled.get hw with ⟨rfl, hnew⟩ | ⟨hne, hold⟩ | ⟨hnew, -⟩
    · cases hnew
      rw [hlands.waiting] at hisUp
      rcases hsettled.get hother with ⟨rfl, -⟩ | ⟨-, hold⟩ | ⟨rfl, -⟩
      · rfl
      · exact (hup hisUp).2 hold hactive
      · cases hactive
    · cases hnone hne hold _ rfl hisUp
    · cases hnew
  · rcases hsettled.get hw with ⟨-, hnew⟩ | ⟨-, hold⟩ | ⟨hnew, -⟩
    · cases hnew
      have hway := hlands.way
      rw [hnot, Bool.false_eq_true, false_or] at hway
      exact hway
    · exact h.way hold hnot
    · cases hnew
  · rcases hsettled.get hw with ⟨-, hnew⟩ | ⟨-, hold⟩ | ⟨hnew, -⟩
    · cases hnew
      rw [hlands.waiting] at hisUp
      exact (hup hisUp).1
    · exact h.up hold hisUp
    · cases hnew
  · -- a cancelled renew task
    rw [hsettled.runtime.renewalIs] at hl
    rcases hrenewal hl with hold | hhere
    · obtain ⟨j, role', cancelled', hj⟩ := h.pending hold
      refine ⟨j, role', cancelled', hsettled.other (fun heq => ?_) hj⟩
      subst heq
      cases hcall.symm.trans hj
      exact hfree.renewal hold rfl
    · have hself := hsettled.self hi
      rw [hhere] at hlands
      rcases hlands with ⟨rfl, -⟩ | ⟨-, hover⟩ | ⟨hover | ⟨started, hover⟩, -⟩
      · exact ⟨i, role, false, hself⟩
      all_goals cases hover
  · rcases hsettled.get hk with ⟨rfl, hnew⟩ | ⟨-, hold⟩ | ⟨-, htask⟩
    · cases hnew
      rcases h.retry hcall (hfree.retry rfl) with htask | ⟨j, cancelled', hj⟩
      · rcases hsettled.created with ⟨-, hsame⟩ | ⟨-, -, -, -, hne⟩
        · exact .inl (hsame.trans htask)
        · exact absurd rfl hne
      · refine .inr ⟨j, cancelled', hsettled.other (fun heq => ?_) hj⟩
        subst heq
        cases hcall.symm.trans hj
    · rcases h.retry hold hover with htask | ⟨j, cancelled', hj⟩
      · rcases hsettled.created with ⟨-, hsame⟩ | ⟨-, -, -, hnone, -⟩
        · exact .inl (hsame.trans htask)
        · cases hover.symm.trans (hnone _ _ htask hold)
      · refine .inr ⟨j, cancelled', hsettled.other (fun heq => ?_) hj⟩
        subst heq
        cases hcall.symm.trans hj
        cases hover.symm.trans (hfree.joined rfl hold)
    · exact .inl htask

/-! ### Orderly runs -/

/-- A lease is still claimed or a NATS client open. -/
def Fields.leftOver (f : Fields) : Bool := f.leases.any Lease.claimed || f.clients.any id

/-- The call is an attempt under way. -/
def Call.attempting (call : Call) : Bool :=
  (call.role = .start || call.role = .retry) && call.phase.isActive

/-- The condition on a step: an attempt begins only when no other call is active and nothing is left
over from an earlier one; a lost-lease callback begins only when no attempt is under way; and `stop`
is called only when no `start` is. -/
def Orderly (s : State) : Event → Prop
  | .start =>
    (∀ call ∈ s.calls, call.phase.isActive = false) ∧
      (s.subscriptions = 0 → s.leftOver = false)
  | .wake _ =>
    s.stopping = false → s.subscriptions = 0 →
      (∀ call ∈ s.calls, call.phase.isActive = false) ∧ s.leftOver = false
  | .begin _ => ∀ call ∈ s.calls, call.attempting = false
  | .stop => ∀ call ∈ s.calls, call.role = .start → call.phase.isActive = false
  | _ => True

instance (s : State) : (e : Event) → Decidable (Orderly s e)
  | .start =>
    inferInstanceAs (Decidable ((∀ call ∈ s.calls, call.phase.isActive = false) ∧
      (s.subscriptions = 0 → s.leftOver = false)))
  | .wake _ =>
    inferInstanceAs (Decidable (s.stopping = false → s.subscriptions = 0 →
      (∀ call ∈ s.calls, call.phase.isActive = false) ∧ s.leftOver = false))
  | .begin _ => inferInstanceAs (Decidable (∀ call ∈ s.calls, call.attempting = false))
  | .stop =>
    inferInstanceAs
      (Decidable (∀ call ∈ s.calls, call.role = .start → call.phase.isActive = false))
  | .resume _ _ | .joined _ | .redisClosed _ _ | .deliverCancel _ | .renewalLost _
  | .renewalFails _ | .renewalEnds _ => inferInstanceAs (Decidable True)

/-- With nothing left over the fields are vacant. -/
theorem vacant_of_leftOver (h : f.leftOver = false) : Vacant f := by
  rw [Fields.leftOver, Bool.or_eq_false_iff, any_eq_false, any_eq_false] at h
  refine ⟨fun l => ?_, fun c => ?_⟩
  · rw [Fields.isClaimed]
    cases hl : f.leases[l]? with
    | none => rfl
    | some x => exact Bool.eq_false_iff.mpr (h.1 x (mem_of_getElem? hl))
  · rw [Fields.isOpen, getD_eq_getElem?_getD]
    cases hc : f.clients[c]? with
    | none => rfl
    | some isOpen => exact Bool.eq_false_iff.mpr (h.2 isOpen (mem_of_getElem? hc))

/-- What is known on the way down stays known while the fields shrink. -/
theorem Local.shrinks {here : At} (h : Local f here)
    (hshrinks : Shrinks f code) (hdown : here.isDown = true) : Local code.1 here := by
  have hsubs : f.subscriptions = 0 → code.1.subscriptions = 0 := fun h0 =>
    hshrinks.subscriptions.elim (fun e => e.trans h0) id
  have hclient : f.client = none → code.1.client = none := fun h0 =>
    hshrinks.client.elim (fun e => e.trans h0) id
  have hlease : f.lease = none → code.1.lease = none := fun h0 =>
    hshrinks.lease.elim (fun e => e.trans h0) id
  cases here with
  | onStop | unsubscribing => trivial
  | closing c =>
    refine ⟨hsubs h.1, ?_⟩
    rcases hshrinks.client with heq | hnone
    · rw [heq]
      exact h.2
    · exact .inl hnone
  | cancelling l | deleting l => exact ⟨hsubs h.1, hclient h.2.1, hlease h.2.2⟩
  | _ => cases hdown

/-! ### Keeping the invariant -/

theorem Inv.initial : Inv .initial where
  owned := ⟨fun l hl => by simp [State.initial, Fields.initial, Fields.isClaimed] at hl,
    fun c hc => by simp [State.initial, Fields.initial, Fields.isOpen] at hc,
    fun l x hx => by simp [State.initial, Fields.initial] at hx⟩
  here hcall := by simp [State.initial, State.Waits] at hcall
  alone hcall := by simp [State.initial, State.Waits] at hcall
  way hcall := by simp [State.initial, State.Waits] at hcall
  up hcall := by simp [State.initial, State.Waits] at hcall
  pending hl := by simp [State.initial, Fields.initial, Fields.renewalIs] at hl
  retry hcall := by simp [State.initial] at hcall

/-- Code of the way down keeps the invariant: it touches nothing the others know. -/
theorem Inv.closes (h : Inv s) (hcall : s.calls[i]? = some ⟨role, phase, cancelled⟩)
    (hfree : Free s role phase) (hsafe : Safe code) (hshrinks : Shrinks s.toFields code)
    (hnone : NoneUp s i) : Inv (settle s i role code) := by
  refine h.settled hcall hfree hsafe (fun {l} hl => ?_) hnone (fun _ hj hdown => ?_)
    (fun hup => ?_)
  · exact (hshrinks.renewal l .cancelling hl).imp_right And.right
  · refine (h.here hj fun hup => ?_).shrinks hshrinks hdown
    rw [At.isUp_eq_false hdown] at hup
    cases hup
  · rw [hshrinks.low.not_up] at hup
    cases hup

/-- So does code of an attempt that is the only active call. -/
theorem Inv.climbs (h : Inv s) (hcall : s.calls[i]? = some ⟨role, phase, cancelled⟩)
    (hfree : Free s role phase) (hsafe : Safe code)
    (hrenewal : ∀ {l}, code.1.renewalIs .cancelling l = true →
      s.renewalIs .cancelling l = true ∨ code.2 = .cancelling l)
    (hrole : role = .start ∨ role = .retry) (halone : s.Alone i) :
    Inv (settle s i role code) := by
  refine h.settled hcall hfree hsafe hrenewal (fun hne hj here hw => ?_)
    (fun hne hj => absurd (halone hj rfl) hne) fun _ => ⟨hrole, halone⟩
  exact absurd (halone hj (by rw [hw]; rfl)) hne

/-- The fields change, with no more to name and no less known. -/
structure Fewer (f g : Fields) : Prop where
  owned : Owned f → Owned g
  here : ∀ {here : At}, Local f here → Local g here
  pending : ∀ {l : ℕ}, g.renewalIs .cancelling l = true → f.renewalIs .cancelling l = true

/-- Fields that stay as they are. -/
theorem Fewer.refl (f : Fields) : Fewer f f := ⟨id, id, id⟩

/-- The invariant survives a change that brings no active call. -/
theorem Inv.keeps {s' : State} (h : Inv s) (hfewer : Fewer s.toFields s'.toFields)
    (hactive : ∀ {i : ℕ} {call : Call}, s'.calls[i]? = some call → call.phase.isActive = true →
      s.calls[i]? = some call) (hpending : ∀ {l}, s'.renewalIs .cancelling l = true →
      ∃ i role cancelled, s'.Waits i role (.cancelling l) cancelled)
    (hretry : ∀ {i : ℕ} {phase cancelled}, s'.calls[i]? = some ⟨.retry, phase, cancelled⟩ →
      phase.isOver = false → s'.retryTask = some i ∨ s'.Awaited i) : Inv s' where
  owned := hfewer.owned h.owned
  here hw hcancel := hfewer.here (h.here (hactive hw rfl) hcancel)
  alone hw hup _ _ hj hact := h.alone (hactive hw rfl) hup (hactive hj hact) hact
  way hw := h.way (hactive hw rfl)
  up hw := h.up (hactive hw rfl)
  pending := hpending
  retry := hretry

/-- **Losing things** keeps the invariant. -/
theorem Inv.fewer (h : Inv s) (hfewer : Fewer s.toFields g) : Inv { s with toFields := g } :=
  h.keeps hfewer (fun hi _ => hi) (fun hl => h.pending (hfewer.pending hl)) h.retry

/-- A new call that is not active yet. -/
theorem Inv.addInactive {s' : State} {added : Call} (h : Inv s)
    (hfields : s'.toFields = s.toFields) (hcalls : s'.calls = s.calls ++ [added])
    (hretryTask : s'.retryTask = s.retryTask) (hinactive : added.phase.isActive = false)
    (hrole : added.role ≠ .retry) : Inv s' := by
  have hget : ∀ {i : ℕ} {call : Call}, s'.calls[i]? = some call →
      s.calls[i]? = some call ∨ call = added := by
    intro i call hcall
    rw [hcalls] at hcall
    exact forall_getElem?_concat (P := fun i call => s.calls[i]? = some call ∨ call = added)
      (fun hi => .inl hi) (.inr rfl) hcall
  have hold : ∀ {i : ℕ} {call : Call}, s.calls[i]? = some call → s'.calls[i]? = some call := by
    intro i call hcall
    rw [hcalls]
    exact getElem?_append_some hcall
  refine h.keeps (hfields ▸ .refl _) (fun hi hact => ?_) (fun hl => ?_) (fun hi hover => ?_)
  · rcases hget hi with hi | rfl
    · exact hi
    · rw [hinactive] at hact
      cases hact
  · rw [hfields] at hl
    obtain ⟨i, role, cancelled, hw⟩ := h.pending hl
    exact ⟨i, role, cancelled, hold hw⟩
  · rcases hget hi with hi | rfl
    · rcases h.retry hi hover with htask | ⟨j, cancelled, hj⟩
      · exact .inl (hretryTask.trans htask)
      · exact .inr ⟨j, cancelled, hold hj⟩
    · exact absurd rfl hrole

/-- A call that is free ends. -/
theorem Inv.leaves {done : Phase} (h : Inv s)
    (hcall : s.calls[i]? = some ⟨role, phase, cancelled⟩) (hover : done.isOver = true)
    (hfree : Free s role phase) : Inv (s.setCall i role done) := by
  have hget : ∀ {j : ℕ} {call : Call}, (s.setCall i role done).calls[j]? = some call →
      s.calls[j]? = some call ∨ call = ⟨role, done, false⟩ := by
    intro j call hj
    exact forall_getElem?_set (P := fun j call => s.calls[j]? = some call ∨ call = _)
      (fun hj _ => .inl hj) (.inr rfl) hj
  have hold : ∀ {j : ℕ} {call : Call}, j ≠ i → s.calls[j]? = some call →
      (s.setCall i role done).calls[j]? = some call := by
    intro j call hne hj
    rw [State.setCall, getElem?_set_ne (Ne.symm hne)]
    exact hj
  refine h.keeps (.refl _) (fun hj hact => ?_) (fun hl => ?_) (fun hk hnot => ?_)
  · rcases hget hj with hj | rfl
    · exact hj
    · cases hact.symm.trans (Phase.isActive_eq_false hover)
  · obtain ⟨j, role', cancelled', hj⟩ := h.pending hl
    refine ⟨j, role', cancelled', hold (fun heq => ?_) hj⟩
    subst heq
    cases hcall.symm.trans hj
    exact hfree.renewal hl rfl
  · rcases hget hk with hk' | hnew
    · rcases h.retry hk' hnot with htask | ⟨j, cancelled', hj⟩
      · exact .inl htask
      · refine .inr ⟨j, cancelled', hold (fun heq => ?_) hj⟩
        subst heq
        cases hcall.symm.trans hj
        cases hnot.symm.trans (hfree.joined rfl hk')
    · cases hnew
      cases hnot.symm.trans hover

/-- It is enough that no field gains anything. -/
theorem fewer_of
    (hnames : g.lease = f.lease ∧ g.client = f.client ∧ g.subscriptions = f.subscriptions)
    (hlengths : g.leases.length = f.leases.length ∧ g.clients.length = f.clients.length)
    (hclaimed : ∀ l, g.isClaimed l = true → f.isClaimed l = true)
    (hopen : ∀ c, g.isOpen c = true → f.isOpen c = true)
    (hattached : Owned f → ∀ (l : ℕ) (x : Lease), g.leases[l]? = some x → x.renewal = .running →
      x.attached = true)
    (hpending : ∀ l, g.renewalIs .cancelling l = true → f.renewalIs .cancelling l = true) :
    Fewer f g := by
  obtain ⟨hlease, hclient, hsubs⟩ := hnames
  have hclosed : ∀ {c}, f.isOpen c = false → g.isOpen c = false := by
    intro c hc
    rw [← Bool.not_eq_true]
    intro hg
    rw [hopen c hg] at hc
    cases hc
  have hvacant : Vacant f → Vacant g := by
    intro hv
    refine ⟨fun l => ?_, fun c => hclosed (hv.client c)⟩
    rw [← Bool.not_eq_true]
    intro hg
    have hf := hclaimed l hg
    rw [hv.lease l] at hf
    cases hf
  refine ⟨fun h => ⟨fun l hl => hlease.trans (h.lease l (hclaimed l hl)),
    fun c hc => hclient.trans (h.client c (hopen c hc)), hattached h⟩, fun {here} h => ?_,
    fun {l} => hpending l⟩
  cases here with
  | connecting r => exact ⟨hsubs.trans h.1, hvacant h.2⟩
  | acquiring l =>
    exact ⟨hsubs.trans h.1, hvacant h.2.1, hlease.trans h.2.2.1, by
      rw [hlengths.1]
      exact h.2.2.2⟩
  | dialing c =>
    exact ⟨hsubs.trans h.1, fun c' => hclosed (h.2.1 c'), hclient.trans h.2.2.1, by
      rw [hlengths.2]
      exact h.2.2.2⟩
  | subscribing => exact hsubs.trans h
  | closing c =>
    rw [Local, hsubs, hclient]
    exact h
  | cancelling l | deleting l | closed =>
    rw [Local, hsubs, hclient, hlease]
    exact h
  | attempted result =>
    cases result with
    | false => exact ⟨hsubs.trans h.1, hvacant h.2⟩
    | true => trivial
  | starting | onStop | unsubscribing | raised => trivial

/-- A lease whose renewal is over, and that claims no more. -/
theorem fewer_setLease {l : ℕ} {x x' : Lease} (hl : f.leases[l]? = some x)
    (hclaimed : x'.claimed = true → x.claimed = true) (hrunning : x'.renewal ≠ .running)
    (hcancelling : x'.renewal ≠ .cancelling) : Fewer f (f.setLease l x') := by
  refine fewer_of ⟨rfl, rfl, rfl⟩ ⟨length_set, rfl⟩ (fun l' hl' => ?_) (fun _ hc => hc)
    (fun h l' y hy => ?_) (fun l' hl' => ?_)
  · rw [isClaimed_setLease] at hl'
    split at hl'
    · rename_i heq
      rw [Bool.and_eq_true] at hl'
      rw [← heq, Fields.isClaimed, hl]
      exact hclaimed hl'.2
    · exact hl'
  · exact forall_getElem?_set (P := fun _ (y : Lease) => y.renewal = .running → y.attached = true)
      (fun hi _ => h.attached _ _ hi) (fun hr => absurd hr hrunning) hy
  · rw [renewalIs_setLease] at hl'
    split at hl'
    · simp [hcancelling] at hl'
    · exact hl'

/-- A cancellation at an await. -/
theorem fewer_cancelledAt (f : Fields) (here : At) : Fewer f (cancelledAt f here) := by
  cases here with
  | closing c =>
    refine fewer_of ⟨rfl, rfl, rfl⟩ ⟨rfl, length_set⟩ (fun _ hl => hl) (fun c' hc' => ?_)
      (fun h => h.attached) (fun _ hl => hl)
    rw [cancelledAt, isOpen_setOpen] at hc'
    split at hc'
    · simp at hc'
    · exact hc'
  | _ => exact .refl f

/-- A routine goes on once the renewal it cancelled is over. -/
theorem renewal_over {l : ℕ} {outcome : Outcome}
    (hresumed : resumed f (.cancelling l) outcome = some code) :
    f.renewalIs .cancelling l = false := by
  cases outcome with
  | ok =>
    rw [resumed] at hresumed
    split at hresumed
    · rename_i hover
      rw [Fields.renewalOver] at hover
      rw [Fields.renewalIs]
      cases hl : f.leases[l]? with
      | none => rfl
      | some x =>
        rw [hl, Option.all_some, Bool.and_eq_true] at hover
        simpa using hover.2
    · cases hresumed
  | _ => cases hresumed

/-! #### Event by event -/

section Steps

variable {redisEnabled : Bool} {s : State} {i j : ℕ} {call : Call}

/-- Among inactive calls none is active. -/
theorem no_active {s : State} (hinactive : ∀ call ∈ s.calls, call.phase.isActive = false)
    (hj : s.calls[j]? = some call) : ¬ call.phase.isActive = true :=
  Bool.eq_false_iff.mp (hinactive call (mem_of_getElem? hj))

variable {role : Role} {phase : Phase} {here : At} {cancelled : Bool}

/-- A call that is not active can go on. -/
theorem free_of_inactive (h : phase.isActive = false)
    (hretry : role = .retry → phase.isOver = false) : Free s role phase where
  renewal _ hw := by rw [hw] at h; cases h
  joined hw := by rw [hw] at h; cases h
  retry := hretry

/-- A `stop` whose retry task is over can go on. -/
theorem free_of_joined {t : ℕ} {task : Call} (ht : s.calls[t]? = some task)
    (hover : task.phase.isOver = true) : Free s .stop (.awaitingRetry t) where
  renewal _ := Phase.noConfusion
  joined hphase ht' := by
    cases hphase
    cases ht.symm.trans ht'
    exact hover
  retry := Role.noConfusion

/-- A call that awaits no cancelled renewal can go on. -/
theorem free_of_waiting (h : ∀ {l}, s.renewalIs .cancelling l = true → here ≠ .cancelling l) :
    Free s role (.waiting here) where
  renewal hl hw := h hl (Phase.waiting.inj hw)
  joined := Phase.noConfusion
  retry _ := rfl

/-- A `stop` that closes Redis can go on. -/
theorem free_of_closing {r : ℕ} : Free s .stop (.closingRedis r) :=
  ⟨fun _ => Phase.noConfusion, Phase.noConfusion, Role.noConfusion⟩

/-- The call was there with its role and phase, and is not task `t` if it is not to be
cancelled. -/
def WasThere (calls : List Call) (t j : ℕ) (call : Call) : Prop :=
  ∃ cancelled, calls[j]? = some ⟨call.role, call.phase, cancelled⟩ ∧
    (call.cancelRequested = false → cancelled = false ∧ j ≠ t)

/-- When `stop` awaits the retry task, the calls are the old ones and it. -/
theorem awaitingCalls_get {calls : List Call} {t : ℕ} {task : Call}
    (ht : calls[t]? = some task) (hj : (awaitingCalls calls t task)[j]? = some call) :
    call = ⟨.stop, .awaitingRetry t, false⟩ ∨ WasThere calls t j call := by
  refine forall_getElem?_concat
    (P := fun j call => call = ⟨.stop, .awaitingRetry t, false⟩ ∨ WasThere calls t j call)
    (fun hi => .inr ?_) (.inl rfl) hj
  refine forall_getElem?_set (P := WasThere calls t)
    (fun hi hne => ⟨_, hi, fun hc => ⟨hc, hne⟩⟩) ?_ hi
  exact ⟨_, ht, Bool.noConfusion⟩

/-- The old calls stay where they were. -/
theorem awaitingCalls_kept {calls : List Call} {t : ℕ} {task : Call}
    (ht : calls[t]? = some task) (hj : calls[j]? = some ⟨role, phase, cancelled⟩) :
    ∃ cancelled, (awaitingCalls calls t task)[j]? = some ⟨role, phase, cancelled⟩ := by
  have hlt := lt_of_getElem? hj
  rw [awaitingCalls, getElem?_append_left (by rw [length_set]; exact hlt), getElem?_set]
  by_cases heq : t = j
  · subst heq
    rw [ht] at hj
    cases hj
    rw [if_pos rfl, if_pos hlt]
    exact ⟨true, rfl⟩
  · rw [if_neg heq]
    exact ⟨cancelled, hj⟩

/-- The `stop` comes last. -/
theorem awaitingCalls_last (calls : List Call) (t : ℕ) (task : Call) :
    (awaitingCalls calls t task)[calls.length]? = some ⟨.stop, .awaitingRetry t, false⟩ := by
  rw [awaitingCalls, getElem?_append_right (Nat.le_of_eq length_set), length_set, Nat.sub_self]
  rfl

variable (h : Inv s)
include h

/-- An attempt begins. -/
theorem Inv.attempts (hcall : s.calls[i]? = some ⟨role, phase, cancelled⟩)
    (hinactive : ∀ call ∈ s.calls, call.phase.isActive = false)
    (hvacant : s.subscriptions = 0 → Vacant s.toFields) (hrole : role = .start ∨ role = .retry)
    (hretry : role = .retry → phase.isOver = false) :
    Inv (settle s i role (beginAttempt redisEnabled s.toFields)) :=
  h.climbs hcall (free_of_inactive (hinactive _ (mem_of_getElem? hcall)) hretry)
    (beginAttempt_safe redisEnabled h.owned hvacant)
    (fun hl => .inl (beginAttempt_renewal (by decide) hl)) hrole
    fun hj hactive => absurd hactive (no_active hinactive hj)

/-- A call resumed on the way up keeps the invariant. -/
theorem Inv.resume_up {outcome : Outcome} {code : Code}
    (hcall : s.Waits i role here false) (hup : here.isUp = true)
    (hresumed : resumed s.toFields here outcome = some code) : Inv (settle s i role code) := by
  refine h.climbs hcall (free_of_waiting fun hl hhere => ?_)
    (resumed_owned h.owned (h.here hcall fun _ => rfl) hresumed) (fun {l} hl => ?_)
    (h.up hcall hup) (h.alone hcall hup)
  · rw [hhere] at hup
    cases hup
  · exact (resumed_renewal hresumed l (by decide) (by decide) hl).imp_right And.right

/-- While a call is active nobody else gets further up. -/
theorem Inv.noneUp (hcall : s.calls[i]? = some call)
    (hactive : call.phase.isActive = true) : NoneUp s i := by
  rintro j ⟨role, phase, cancelled⟩ hne hj here ⟨⟩ hup
  cases cancelled with
  | true => rfl
  | false => exact absurd (h.alone hj hup hcall hactive).symm hne

/-- A call resumed on the way down keeps the invariant. -/
theorem Inv.resume_down {outcome : Outcome} {code : Code}
    (hcall : s.Waits i role here cancelled) (hdown : here.isDown = true)
    (hresumed : resumed s.toFields here outcome = some code) : Inv (settle s i role code) := by
  have hlocal : Local s.toFields here := h.here hcall fun hup => by
    rw [At.isUp_eq_false hdown] at hup
    cases hup
  refine h.closes hcall (free_of_waiting fun hl hhere => ?_)
    (resumed_owned h.owned hlocal hresumed) (resumed_shrinks hdown hresumed) (h.noneUp hcall rfl)
  -- a release goes on only when its renew task is over
  rw [hhere] at hresumed
  rw [renewal_over hresumed] at hl
  cases hl

/-- Beginning to close the runtime keeps the invariant. -/
theorem Inv.begin_close (hcall : s.calls[i]? = some ⟨role, phase, cancelled⟩)
    (hfree : Free s role phase) (hnone : NoneUp s i) :
    Inv (settle s i role (closeRuntime s.toFields)) :=
  h.closes hcall hfree (closeRuntime_safe h.owned) (closeRuntime_shrinks s.toFields) hnone

/-- When `stop` is called, only the retry task can be on its way up. -/
theorem Inv.only_retry (hstart : Orderly s .stop) (hw : s.Waits j role here false)
    (hup : here.isUp = true) : s.retryTask = some j := by
  rcases h.up hw hup with rfl | rfl
  · cases hstart _ (mem_of_getElem? hw) rfl
  · rcases h.retry hw rfl with htask | ⟨k, cancelled, hk⟩
    · exact htask
    · rw [h.alone hw hup hk rfl, hw] at hk
      cases hk

/-- A new `stop` keeps the invariant. -/
theorem Inv.stop_added (hnone : NoRetry s) : Inv s.stopAdded := by
  have hdropped : Inv { s with stopping := true, retryTask := none } := by
    refine h.keeps (.refl _) (fun hi _ => hi) h.pending fun hi hover => .inr ?_
    rcases h.retry hi hover with htask | hawaited
    · cases hover.symm.trans (hnone _ _ htask hi)
    · exact hawaited
  exact hdropped.addInactive rfl rfl rfl rfl (by decide)

/-- Where `stop` may begin, the calls on the way up were cancelled. -/
theorem Inv.cancelled_up (hstart : Orderly s .stop) (hnone : NoRetry s)
    (hj : s.calls[j]? = some call) : call.UpCancelled := by
  obtain ⟨role, phase, cancelled⟩ := call
  rintro here ⟨⟩ hup
  cases cancelled with
  | true => rfl
  | false =>
    -- it would be the retry task
    cases hnone _ _ (h.only_retry hstart hj hup) hj

/-- A `stop` without a retry task closes the runtime at once. -/
theorem Inv.stop_closes (hstart : Orderly s .stop) (hnone : NoRetry s) :
    Inv (settle s.stopAdded s.calls.length .stop (closeRuntime s.toFields)) := by
  have hcall : s.stopAdded.calls[s.calls.length]? = some ⟨.stop, .returned, false⟩ :=
    getElem?_concat_length
  refine (h.stop_added hnone).begin_close hcall (free_of_inactive rfl Role.noConfusion)
    fun hne hj => ?_
  rw [State.stopAdded, State.addCall, getElem?_concat_of_ne hne] at hj
  exact h.cancelled_up hstart hnone hj

/-- Once `stop` waits for the retry task, nobody is on its way up but to be cancelled. -/
theorem Inv.awaiting_up {t : ℕ} {task : Call} (hstart : Orderly s .stop)
    (htask : s.retryTask = some t) (ht : s.calls[t]? = some task)
    (hj : (awaitingCalls s.calls t task)[j]? = some call) : call.UpCancelled := by
  obtain ⟨role, phase, cancelled⟩ := call
  rintro here ⟨⟩ hup
  cases cancelled with
  | true => rfl
  | false =>
    rcases awaitingCalls_get ht hj with hnew | ⟨old, hold, hc⟩
    · cases hnew
    · obtain ⟨rfl, hne⟩ := hc rfl
      -- it would be the task that `stop` has cancelled
      have hretry := h.only_retry hstart hold hup
      rw [htask] at hretry
      exact absurd (Option.some.inj hretry).symm hne

/-- A `stop` that awaits the retry task keeps the invariant. -/
theorem Inv.stop_waits {t : ℕ} {task : Call} (hstart : Orderly s .stop)
    (htask : s.retryTask = some t) (ht : s.calls[t]? = some task) :
    Inv { s with
      stopping := true
      retryTask := none
      calls := awaitingCalls s.calls t task } := by
  refine ⟨h.owned, fun hw hcancel => ?_, fun hw hup => ?_, fun hw hup => ?_, fun hw hup => ?_,
    fun hl => ?_, fun hi hover => .inr ?_⟩
  · rcases awaitingCalls_get ht hw with hnew | ⟨old, hold, hc⟩
    · cases hnew
    · exact h.here hold fun hup => (hc (hcancel hup)).1
  · cases h.awaiting_up hstart htask ht hw _ rfl hup
  · rcases awaitingCalls_get ht hw with hnew | ⟨old, hold, -⟩
    · cases hnew
    · exact h.way hold hup
  · rcases awaitingCalls_get ht hw with hnew | ⟨old, hold, -⟩
    · cases hnew
    · exact h.up hold hup
  · obtain ⟨j, role, cancelled, hj⟩ := h.pending hl
    obtain ⟨cancelled', hj'⟩ := awaitingCalls_kept ht hj
    exact ⟨j, role, cancelled', hj'⟩
  · rcases awaitingCalls_get ht hi with hnew | ⟨old, hold, -⟩
    · cases hnew
    · rcases h.retry hold hover with hi | ⟨j, cancelled, hj⟩
      · rw [htask] at hi
        cases hi
        exact ⟨s.calls.length, false, awaitingCalls_last s.calls t task⟩
      · obtain ⟨cancelled', hj'⟩ := awaitingCalls_kept ht hj
        exact ⟨j, cancelled', hj'⟩

/-- A `start` keeps the invariant. -/
theorem Inv.start (horderly : Orderly s .start) :
    Inv (settle ({ s with stopping := false }.addCall .start) s.calls.length .start
      (beginAttempt redisEnabled s.toFields)) := by
  have hadded : Inv ({ s with stopping := false }.addCall .start) :=
    h.addInactive rfl rfl rfl rfl (by decide)
  refine hadded.attempts getElem?_concat_length (fun call hmem => ?_)
    (fun hsubs => vacant_of_leftOver (horderly.2 hsubs)) (.inl rfl) Role.noConfusion
  rcases mem_append.mp hmem with hold | hnew
  · exact horderly.1 call hold
  · rw [mem_singleton.mp hnew]
    rfl

/-- A callback of a lost lease that begins keeps the invariant. -/
theorem Inv.begin {cancelRequested : Bool} (horderly : Orderly s (.begin i))
    (hcall : s.calls[i]? = some ⟨.lost, .scheduled, cancelRequested⟩) :
    Inv (settle s i .lost (closeRuntime s.toFields)) := by
  refine h.begin_close hcall (free_of_inactive rfl Role.noConfusion) ?_
  rintro j ⟨role, phase, cancelled⟩ - hj here ⟨⟩ hup
  have hnot := horderly _ (mem_of_getElem? hj)
  rcases h.up hj hup with rfl | rfl
  · cases hnot
  · cases hnot

/-- A retry task that wakes up keeps the invariant. -/
theorem Inv.wake (hcall : s.calls[i]? = some ⟨.retry, .sleeping, false⟩)
    (hinactive : ∀ call ∈ s.calls, call.phase.isActive = false) (hleft : s.leftOver = false) :
    Inv (settle s i .retry (beginAttempt redisEnabled s.toFields)) :=
  h.attempts hcall hinactive (fun _ => vacant_of_leftOver hleft) (.inr rfl) fun _ => rfl

/-- **The step lemma** of the invariant. -/
theorem inv_step {s' : State} {e : Event} (horderly : Orderly s e)
    (hstep : step redisEnabled s e = some s') : Inv s' := by
  cases move_of_step hstep with
  | start => exact h.start horderly
  | resume hcall hgoesOn hresumed =>
    rename_i here cancelRequested _ _
    cases hup : here.isUp with
    | true =>
      cases cancelRequested with
      | true =>
        -- only waiting for a renew task swallows a cancellation
        rw [At.swallows.not_up (hgoesOn rfl)] at hup
        cases hup
      | false => exact h.resume_up hcall hup hresumed
    | false => exact h.resume_down hcall (h.way hcall hup) hresumed
  | rest hcall | cancelSleep hcall => exact h.leaves hcall rfl (free_of_inactive rfl fun _ => rfl)
  | redisRaises hcall => exact h.leaves hcall rfl free_of_closing
  | wake hcall hstopping hsubs =>
    obtain ⟨hinactive, hleft⟩ := horderly hstopping hsubs
    exact h.wake hcall hinactive hleft
  | begin hcall => exact h.begin horderly hcall
  | stop hnone => exact h.stop_closes horderly hnone
  | stopRaises hnone =>
    exact (h.stop_added hnone).leaves getElem?_concat_length rfl
      (free_of_inactive rfl Role.noConfusion)
  | stopWaits htask ht => exact h.stop_waits horderly htask ht
  | joined hcall ht hover =>
    exact h.begin_close hcall (free_of_joined ht hover) (h.noneUp hcall rfl)
  | joinedRaises hcall ht hover => exact h.leaves hcall rfl (free_of_joined ht hover)
  | redisClosed hcall =>
    have hfewer : Fewer s.toFields { s.toFields with redis := none } :=
      fewer_of ⟨rfl, rfl, rfl⟩ ⟨rfl, rfl⟩ (fun _ => id) (fun _ => id) Owned.attached
        (fun _ => id)
    exact (h.fewer hfewer).leaves hcall rfl free_of_closing
  | cancel hcall hswallows =>
    refine (h.fewer (fewer_cancelledAt s.toFields _)).leaves hcall rfl
      (free_of_waiting fun _ hhere => ?_)
    rw [hhere] at hswallows
    cases hswallows
  | renewalLost hl =>
    refine (h.fewer (fewer_setLease hl ?_ Renewal.noConfusion Renewal.noConfusion)).addInactive
      rfl rfl rfl rfl (by decide)
    simp [Lease.claimed]
  | renewalFails hl | renewalEnds hl =>
    refine h.fewer (fewer_setLease hl ?_ Renewal.noConfusion Renewal.noConfusion)
    simp [Lease.claimed]

end Steps

/-- **The run lemma**: it holds after every orderly run. -/
theorem inv_run {redisEnabled : Bool} {es : List Event}
    (horderly : StepsMeet (step redisEnabled) Orderly State.initial es)
    (hrun : run (step redisEnabled) State.initial es = some s) : Inv s :=
  run_invariant_where (fun h hmeets hstep => inv_step h hmeets hstep) Inv.initial horderly hrun

end ServiceToolkit.Listener
