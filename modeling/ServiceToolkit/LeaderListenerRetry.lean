import Mathlib.Logic.Function.Iterate
import ServiceToolkit.LeaderListener

/-!
# Attempts of the Leader-Elected Listener

`startOnce` is an attempt with nothing else going on: `Steps` says how each awaited step
ends, should it be reached, and the attempt goes from await to await until it is over.
`retryStart` is the retry task, a loop of such attempts.

What one failed attempt leaves is what the next one starts from. Most failures leave the
listener **at rest** (`Rest`): either subscribed, or with nothing left at all. Four do not:

* a Redis connect that raises leaves a client that is there and not connected, and the
  listener never connects it again (`failed_connect_for_good`);
* an `acquire` that raises, and a close on the failure path that raises, end the attempt
  with an exception; the second leaves the lease held;
* a set-up that succeeds with no subscriptions does not count as started at the next
  attempt, which then loses sight of the lease and the client.

`Steps.Meets` excludes these four and nothing else.
-/

namespace ServiceToolkit.Listener

open Option

/-! ### One attempt after another -/

/-- How each awaited step of an attempt ends, should it be reached: `true` or a value if it
succeeds. `acquire` may also be refused (`some false`). -/
structure Steps where
  redisConnect : Bool
  acquire : Option Bool
  natsConnect : Bool
  setup : Option ℕ
  hook : Bool
  onStop : Bool
  natsClose : Bool
  release : Bool
  deriving DecidableEq

/-- Whether a step succeeds. -/
def Outcome.of (succeeds : Bool) : Outcome := if succeeds then .ok else .raises

/-- The outcome of the step a routine waits for. -/
def Steps.outcome (steps : Steps) : At → Outcome
  | .connecting _ => .of steps.redisConnect
  | .acquiring _ =>
    match steps.acquire with
    | some true => .ok
    | some false => .refused
    | none => .raises
  | .dialing _ => .of steps.natsConnect
  | .subscribing =>
    match steps.setup with
    | some n => .subscribed n
    | none => .raises
  | .starting => .of steps.hook
  | .onStop => .of steps.onStop
  | .closing _ => .of steps.natsClose
  | .deleting _ => .of steps.release
  | _ => .ok

/-- A cancelled renew task gets to its end while its release waits for it. -/
def endRenewal (f : Fields) : At → Fields
  | .cancelling l =>
    f.setLease l { (f.leases[l]?).getD .fresh with renewal := .ended }
  | _ => f

/-- An attempt goes on to its next await, or stays where it is over. -/
def attemptStep (steps : Steps) (code : Code) : Code :=
  (resumed (endRenewal code.1 code.2) code.2 (steps.outcome code.2)).getD code

/-- `_start_once` with nothing else going on. It has at most ten awaits on its way. -/
def startOnce (redisEnabled : Bool) (f : Fields) (steps : Steps) : Code :=
  (attemptStep steps)^[10] (beginAttempt redisEnabled f)

/-- What a routine that is over returned; `none` when it raised or is not over. -/
def At.result : At → Option Bool
  | .attempted result => some result
  | .closed => some false
  | _ => none

/-- How many awaits there can be from here on, this one included. -/
def At.rank : At → ℕ
  | .connecting _ => 10
  | .acquiring _ => 9
  | .dialing _ => 8
  | .subscribing => 7
  | .starting => 6
  | .onStop => 5
  | .unsubscribing => 4
  | .closing _ => 3
  | .cancelling _ => 2
  | .deleting _ => 1
  | _ => 0

/-- The retry task: each round has `_stopping` after its sleep, and the steps of its
attempt. -/
inductive Retry
  | sleeping
  | stopped
  | succeeded
  | raised
  deriving DecidableEq, Repr

/-- The retry task after an attempt: `started` ends it, `not started` goes on to the `next`
round, and an exception ends it as well. -/
def retryAfter (code : Code) (next : Fields × Retry) : Fields × Retry :=
  match code.2.result with
  | some true => (code.1, .succeeded)
  | some false => next
  | none => (code.1, .raised)

/-- `_retry_start` over rounds. -/
def retryStart (redisEnabled : Bool) : Fields → List (Bool × Steps) → Fields × Retry
  | f, [] => (f, .sleeping)
  | f, (stopping, steps) :: rounds =>
    if stopping then (f, .stopped)
    else if f.subscriptions ≠ 0 then (f, .succeeded)
    else
      retryAfter (startOnce redisEnabled f steps)
        (retryStart redisEnabled (startOnce redisEnabled f steps).1 rounds)

/-- Nothing is left: no subscriptions, no lease that is held or whose renew task runs, no
open NATS connection. -/
structure Clean (f : Fields) : Prop where
  subscriptions : f.subscriptions = 0
  vacant : Vacant f
  pending : ∀ l, f.renewalIs .cancelling l = false

/-- The condition on an attempt: its Redis connect, should it come to that, and its acquire
do not raise, the closes on its failure path do not raise, and a set-up that succeeds brings
a subscription. -/
structure Steps.Meets (redisEnabled : Bool) (f : Fields) (steps : Steps) : Prop where
  redisConnect : redisEnabled = true → f.redis = none → steps.redisConnect = true
  acquire : redisEnabled = true → steps.acquire ≠ none
  setup : steps.setup ≠ some 0
  natsClose : steps.natsClose = true
  release : steps.release = true

instance (redisEnabled : Bool) (f : Fields) (steps : Steps) :
    Decidable (steps.Meets redisEnabled f) :=
  decidable_of_iff
    ((redisEnabled = true → f.redis = none → steps.redisConnect = true) ∧
      (redisEnabled = true → steps.acquire ≠ none) ∧ steps.setup ≠ some 0 ∧
      steps.natsClose = true ∧ steps.release = true)
    ⟨fun h => ⟨h.1, h.2.1, h.2.2.1, h.2.2.2.1, h.2.2.2.2⟩,
      fun h => ⟨h.redisConnect, h.acquire, h.setup, h.natsClose, h.release⟩⟩

/-- The Redis client is connected, or there is none. -/
def Fields.redisUsable (f : Fields) : Prop := f.redis = none ∨ f.redisReady = true

/-- What is known where an attempt is that has met the condition so far. -/
def Steps.Known (redisEnabled : Bool) (steps : Steps) (f : Fields) : At → Prop
  | .connecting r =>
    f.started = false ∧ (f.redis = some r ∧ r < f.redisClients.length) ∧
      steps.redisConnect = true ∧ redisEnabled = true
  | .acquiring _ => f.started = false ∧ f.redisUsable ∧ redisEnabled = true
  | .starting => f.started = false ∧ f.redisUsable ∧ f.subscriptions ≠ 0
  | .attempted true => f.redisUsable ∧ f.subscriptions ≠ 0
  | .raised | .onStop => False
  | _ => f.started = false ∧ f.redisUsable

/-- How an attempt stands that has met the condition so far. -/
structure Going (redisEnabled : Bool) (steps : Steps) (code : Code) : Prop where
  safe : Safe code
  pending : ∀ l, code.1.renewalIs .cancelling l = true → code.2 = .cancelling l
  healthy : ∀ l, code.1.renewalIs .failed l = false
  known : steps.Known redisEnabled code.1 code.2

/-- A routine on its way down, short of raising, or at the end of it. -/
def At.isEasy (here : At) : Prop := here = .closed ∨ here.isDown = true ∧ here ≠ .onStop

section Descends

variable {f : Fields}

theorem deleteKey_easy (f : Fields) (l : ℕ) : (deleteKey f l).2.isEasy := by
  rw [deleteKey]
  split
  · exact .inr ⟨rfl, At.noConfusion⟩
  · exact .inl rfl

theorem releaseLease_easy (hhealthy : ∀ l, f.renewalIs .failed l = false) :
    (releaseLease f).2.isEasy := by
  rw [releaseLease]
  split
  · exact .inl rfl
  · rename_i l _
    rw [release]
    cases hl : f.leases[l]? with
    | none => exact .inl rfl
    | some x =>
      dsimp only
      split
      · split
        · exact .inr ⟨rfl, At.noConfusion⟩
        · rename_i hfailed
          have hl' := hhealthy l
          rw [Fields.renewalIs, hl, any_some, decide_eq_false_iff_not] at hl'
          exact absurd hfailed hl'
        · exact deleteKey_easy ..
      · exact deleteKey_easy ..

theorem closeClient_easy (hhealthy : ∀ l, f.renewalIs .failed l = false) :
    (closeClient f).2.isEasy := by
  rw [closeClient]
  split
  · exact releaseLease_easy hhealthy
  · split
    · exact .inr ⟨rfl, At.noConfusion⟩
    · exact releaseLease_easy hhealthy

theorem closeRuntime_easy (hhealthy : ∀ l, f.renewalIs .failed l = false)
    (hstarted : f.started = false) : (closeRuntime f).2.isEasy := by
  rw [closeRuntime, hstarted, if_neg Bool.false_ne_true, unsubscribe]
  split
  · exact .inr ⟨rfl, At.noConfusion⟩
  · exact closeClient_easy hhealthy

theorem going_down {redisEnabled : Bool} {steps : Steps} {code : Code} (hsafe : Safe code)
    (hshrinks : Shrinks f code) (heasy : code.2.isEasy)
    (hpending : ∀ l, f.renewalIs .cancelling l = false)
    (hhealthy : ∀ l, f.renewalIs .failed l = false) (hstarted : f.started = false)
    (husable : f.redisUsable) : Going redisEnabled steps code where
  safe := hsafe
  pending l hl := by
    rcases hshrinks.renewal l .cancelling hl with h | ⟨-, h⟩
    · rw [hpending l] at h
      cases h
    · exact h
  healthy l := by
    rw [← Bool.not_eq_true]
    intro hl
    rcases hshrinks.renewal l .failed hl with h | ⟨h, -⟩
    · rw [hhealthy l] at h
      cases h
    · cases h
  known := by
    have hstarted' : code.1.started = false := by
      rw [← Bool.not_eq_true]
      intro h
      rw [hshrinks.started h] at hstarted
      cases hstarted
    have husable' : code.1.redisUsable := by
      rw [Fields.redisUsable, Fields.redisReady, hshrinks.ready.1, hshrinks.ready.2]
      exact husable
    obtain ⟨g, here⟩ := code
    cases here with
    | unsubscribing | closing c | cancelling l | deleting l | closed => exact ⟨hstarted', husable'⟩
    | onStop =>
      rcases heasy with h | ⟨-, hne⟩
      · cases h
      · exact hne rfl
    | _ => rcases heasy with h | ⟨h, -⟩ <;> cases h

end Descends

section Attempt

variable {redisEnabled : Bool} {steps : Steps} {code : Code} {f : Fields} {here : At} {code' : Code}

theorem attemptStep_eq (hresumed : resumed f here (steps.outcome here) = some code')
    (hhere : ∀ l, here ≠ .cancelling l) : attemptStep steps (f, here) = code' := by
  have hend : endRenewal f here = f := by
    cases here with
    | cancelling l => exact absurd rfl (hhere l)
    | _ => rfl
  rw [attemptStep, hend, hresumed, getD_some]

theorem Going.not_pending (h : Going redisEnabled steps (f, here))
    (hhere : ∀ l, here ≠ .cancelling l) (l : ℕ) : f.renewalIs .cancelling l = false := by
  rw [← Bool.not_eq_true]
  exact fun hl => hhere l (h.pending l hl)

/-- What an attempt awaits on its way up fails, and it closes the runtime. -/
theorem Going.fails (h : Going redisEnabled steps (f, here)) (hhere : ∀ l, here ≠ .cancelling l)
    (hstarted : f.started = false) (husable : f.redisUsable)
    (hresumed : resumed f here (steps.outcome here) = some (closeRuntime f)) :
    Going redisEnabled steps (attemptStep steps (f, here)) := by
  rw [attemptStep_eq hresumed hhere]
  exact going_down (closeRuntime_safe h.safe.owned) (closeRuntime_shrinks f)
    (closeRuntime_easy h.healthy hstarted) (h.not_pending hhere) h.healthy hstarted husable

/-- What it awaits succeeds, and it goes on. -/
theorem Going.climbs (h : Going redisEnabled steps (f, here)) (hhere : ∀ l, here ≠ .cancelling l)
    (hresumed : resumed f here (steps.outcome here) = some code')
    (hcancelling : ∀ l, code'.2 ≠ .cancelling l)
    (hknown : steps.Known redisEnabled code'.1 code'.2) :
    Going redisEnabled steps (attemptStep steps (f, here)) := by
  rw [attemptStep_eq hresumed hhere]
  refine ⟨resumed_owned h.safe.owned h.safe.here hresumed, fun l hl => ?_, fun l => ?_, hknown⟩
  · rcases resumed_renewal hresumed l (by decide) (by decide) hl with hf | ⟨-, hcode⟩
    · rw [h.not_pending hhere l] at hf
      cases hf
    · exact absurd hcode (hcancelling l)
  · rw [← Bool.not_eq_true]
    intro hl
    rcases resumed_renewal hresumed l (by decide) (by decide) hl with hf | ⟨hne, -⟩
    · rw [h.healthy l] at hf
      cases hf
    · cases hne

theorem acquireLease_ready (hready : f.redisReady = true) : acquireLease f =
    ({ f with leases := f.leases ++ [.fresh], lease := some f.leases.length },
      .acquiring f.leases.length) :=
  if_pos hready

theorem redisReady_set {r : ℕ} (hredis : f.redis = some r) (hr : r < f.redisClients.length) :
    ({ f with redisClients := f.redisClients.set r true } : Fields).redisReady = true := by
  simp [Fields.redisReady, hredis, hr]

/-! What a step that succeeds leads to. -/

section

variable (f)

theorem resumed_connected (h : steps.redisConnect = true) (r : ℕ) :
    resumed f (.connecting r) (steps.outcome (.connecting r)) =
      some (acquireLease { f with redisClients := f.redisClients.set r true }) := by
  rw [Steps.outcome, h]
  rfl

theorem resumed_acquired (h : steps.acquire = some true) (l : ℕ) :
    resumed f (.acquiring l) (steps.outcome (.acquiring l)) =
      some (dial (f.setLease l .acquired)) := by
  rw [Steps.outcome, h]
  rfl

theorem resumed_dialed (h : steps.natsConnect = true) (c : ℕ) :
    resumed f (.dialing c) (steps.outcome (.dialing c)) =
      some (f.setOpen c true, .subscribing) := by
  rw [Steps.outcome, h]
  rfl

theorem resumed_subscribed {n : ℕ} (h : steps.setup = some n) :
    resumed f .subscribing (steps.outcome .subscribing) =
      some ({ f with subscriptions := n }, .starting) := by
  rw [Steps.outcome, h]
  rfl

theorem resumed_started (h : steps.hook = true) : resumed f .starting (steps.outcome .starting) =
      some ({ f with started := true }, .attempted true) := by
  rw [Steps.outcome, h]
  rfl

end

theorem Going.step_up (h : Going redisEnabled steps code) (hup : code.2.isUp = true)
    (hacquire : redisEnabled = true → steps.acquire ≠ none) (hsetup : steps.setup ≠ some 0) :
    Going redisEnabled steps (attemptStep steps code) := by
  obtain ⟨f, here⟩ := code
  cases here with
  | connecting r =>
    obtain ⟨hstarted, ⟨hredis, hr⟩, hconnect, henabled⟩ := h.known
    have hready := redisReady_set hredis hr
    refine h.climbs nofun (resumed_connected f hconnect r) ?_ ?_
    · rw [acquireLease_ready hready]
      exact nofun
    · rw [acquireLease_ready hready]
      exact ⟨hstarted, .inr hready, henabled⟩
  | acquiring l =>
    obtain ⟨hstarted, husable, henabled⟩ := h.known
    cases hsteps : steps.acquire with
    | none => exact absurd hsteps (hacquire henabled)
    | some leader =>
      cases leader with
      | true => exact h.climbs nofun (resumed_acquired f hsteps l) nofun ⟨hstarted, husable⟩
      | false =>
        have hresumed : resumed f (.acquiring l) (steps.outcome (.acquiring l)) =
            some ({ f with lease := none }, .attempted false) := by
          rw [Steps.outcome, hsteps]
          rfl
        exact h.climbs nofun hresumed nofun ⟨hstarted, husable⟩
  | dialing c =>
    obtain ⟨hstarted, husable⟩ := h.known
    cases hsteps : steps.natsConnect with
    | true => exact h.climbs nofun (resumed_dialed f hsteps c) nofun ⟨hstarted, husable⟩
    | false =>
      refine h.fails nofun hstarted husable ?_
      rw [Steps.outcome, hsteps]
      rfl
  | subscribing =>
    obtain ⟨hstarted, husable⟩ := h.known
    cases hsteps : steps.setup with
    | some n =>
      have hn : n ≠ 0 := fun heq => hsetup (by rw [hsteps, heq])
      exact h.climbs nofun (resumed_subscribed f hsteps) nofun ⟨hstarted, husable, hn⟩
    | none =>
      refine h.fails nofun hstarted husable ?_
      rw [Steps.outcome, hsteps]
      rfl
  | starting =>
    obtain ⟨hstarted, husable, hsubs⟩ := h.known
    cases hsteps : steps.hook with
    | true => exact h.climbs nofun (resumed_started f hsteps) nofun ⟨husable, hsubs⟩
    | false =>
      refine h.fails nofun hstarted husable ?_
      rw [Steps.outcome, hsteps]
      rfl
  | _ => cases hup

theorem Going.descends (h : Going redisEnabled steps (f, here)) (hdown : here.isDown = true)
    (hpending : ∀ l, (endRenewal f here).renewalIs .cancelling l = false)
    (hhealthy : ∀ l, (endRenewal f here).renewalIs .failed l = false)
    (howned : Owned (endRenewal f here)) (hlocal : Local (endRenewal f here) here)
    (hresumed : resumed (endRenewal f here) here (steps.outcome here) = some code')
    (heasy : code'.2.isEasy) : Going redisEnabled steps (attemptStep steps (f, here)) := by
  obtain ⟨hstarted, husable⟩ : f.started = false ∧ f.redisUsable := by
    cases here with
    | onStop => exact h.known.elim
    | unsubscribing | closing c | cancelling l | deleting l => exact h.known
    | _ => cases hdown
  rw [attemptStep, hresumed, getD_some]
  refine going_down (resumed_owned howned hlocal hresumed) (resumed_shrinks hdown hresumed) heasy
    hpending hhealthy ?_ ?_
  · cases here <;> exact hstarted
  · cases here <;> exact husable

theorem renewalIs_endRenewal {l : ℕ} {r : Renewal} (hr : r ≠ .ended)
    (hothers : ∀ l', l ≠ l' → f.renewalIs r l' = false) (l' : ℕ) :
    (endRenewal f (.cancelling l)).renewalIs r l' = false := by
  rw [endRenewal, renewalIs_setLease]
  split
  · simp [hr.symm]
  · rename_i hne
    exact hothers l' hne

theorem resumed_cancelling {l : ℕ} : resumed (endRenewal f (.cancelling l)) (.cancelling l) .ok =
      some (deleteKey (endRenewal f (.cancelling l)) l) := by
  rw [resumed, if_pos]
  rw [Fields.renewalOver, endRenewal, Fields.setLease]
  by_cases hl : l < f.leases.length
  · simp [hl]
  · simp [hl]

theorem Going.step_down (h : Going redisEnabled steps code) (hdown : code.2.isDown = true)
    (hclose : steps.natsClose = true) (hrelease : steps.release = true) :
    Going redisEnabled steps (attemptStep steps code) := by
  obtain ⟨f, here⟩ := code
  cases here with
  | onStop => exact h.known.elim
  | unsubscribing =>
    have hresumed : resumed f .unsubscribing (steps.outcome .unsubscribing) =
        some (closeClient { f with subscriptions := 0 }) := rfl
    exact h.descends rfl (h.not_pending fun _ => At.noConfusion) h.healthy h.safe.owned h.safe.here
      hresumed (closeClient_easy h.healthy)
  | closing c =>
    have hresumed : resumed f (.closing c) (steps.outcome (.closing c)) =
        some (releaseLease { f.setOpen c false with client := none }) := by
      rw [Steps.outcome, hclose]
      rfl
    exact h.descends rfl (h.not_pending fun _ => At.noConfusion) h.healthy h.safe.owned h.safe.here
      hresumed (releaseLease_easy h.healthy)
  | cancelling l =>
    obtain ⟨hsubs, hclient, hlease⟩ := h.safe.here
    have hvacant := h.safe.owned.vacant hlease hclient
    have howned : Owned (endRenewal f (.cancelling l)) := by
      refine h.safe.owned.setLease ?_
      have hl := hvacant.lease l
      rw [Fields.isClaimed] at hl
      cases hx : f.leases[l]? with
      | none => rfl
      | some x =>
        have hx' : f.leases[l]? = some x := hx
        rw [hx', any_some, Lease.claimed, Bool.or_eq_false_iff] at hl
        simpa [Lease.claimed] using hl.1
    refine h.descends rfl ?_ ?_ howned ⟨hsubs, hclient, hlease⟩ resumed_cancelling
      (deleteKey_easy _ l)
    · refine renewalIs_endRenewal (by decide) fun l' hne => ?_
      rw [← Bool.not_eq_true]
      intro hl'
      exact hne (At.cancelling.inj (h.pending l' hl'))
    · exact renewalIs_endRenewal (by decide) fun l' _ => h.healthy l'
  | deleting l =>
    have hresumed : resumed f (.deleting l) (steps.outcome (.deleting l)) =
        some (f.setLease l { (f.leases[l]?).getD .fresh with held := false }, .closed) := by
      rw [Steps.outcome, hrelease]
      rfl
    exact h.descends rfl (h.not_pending fun _ => At.noConfusion) h.healthy h.safe.owned h.safe.here
      hresumed (.inl rfl)
  | _ => cases hdown

theorem attemptStep_over (hup : code.2.isUp = false) (hdown : code.2.isDown = false) :
    attemptStep steps code = code := by
  obtain ⟨f, here⟩ := code
  cases here with
  | attempted result | closed | raised => rfl
  | connecting r | acquiring l | dialing c | subscribing | starting => cases hup
  | _ => cases hdown

theorem Going.iterate (h : Going redisEnabled steps code)
    (hacquire : redisEnabled = true → steps.acquire ≠ none) (hsetup : steps.setup ≠ some 0)
    (hclose : steps.natsClose = true) (hrelease : steps.release = true) (n : ℕ) :
    Going redisEnabled steps ((attemptStep steps)^[n] code) := by
  induction n generalizing code with
  | zero => exact h
  | succ n ih =>
    rw [Function.iterate_succ_apply]
    refine ih ?_
    cases hup : code.2.isUp with
    | true => exact h.step_up hup hacquire hsetup
    | false =>
      cases hdown : code.2.isDown with
      | true => exact h.step_down hdown hclose hrelease
      | false =>
        rw [attemptStep_over hup hdown]
        exact h

/-! #### An attempt ends -/

theorem rank_deleteKey (f : Fields) (l : ℕ) : (deleteKey f l).2.rank ≤ 1 := by
  rw [deleteKey]
  split
  · exact Nat.le_refl 1
  · exact Nat.zero_le 1

theorem rank_releaseLease (f : Fields) : (releaseLease f).2.rank ≤ 2 := by
  rw [releaseLease]
  split
  · exact Nat.zero_le 2
  · rw [release]
    split
    · exact Nat.zero_le 2
    · split
      · split
        · exact Nat.le_refl 2
        · exact Nat.zero_le 2
        · exact Nat.le_succ_of_le (rank_deleteKey ..)
      · exact Nat.le_succ_of_le (rank_deleteKey ..)

theorem rank_closeClient (f : Fields) : (closeClient f).2.rank ≤ 3 := by
  rw [closeClient]
  split
  · exact Nat.le_succ_of_le (rank_releaseLease f)
  · split
    · exact Nat.le_refl 3
    · exact Nat.le_succ_of_le (rank_releaseLease _)

theorem rank_unsubscribe (f : Fields) : (unsubscribe f).2.rank ≤ 4 := by
  rw [unsubscribe]
  split
  · exact Nat.le_refl 4
  · exact Nat.le_succ_of_le (rank_closeClient f)

theorem rank_closeRuntime (f : Fields) : (closeRuntime f).2.rank ≤ 5 := by
  rw [closeRuntime]
  split
  · exact Nat.le_refl 5
  · exact Nat.le_succ_of_le (rank_unsubscribe f)

theorem rank_acquireLease (f : Fields) : (acquireLease f).2.rank ≤ 9 := by
  rw [acquireLease]
  split
  · exact Nat.le_refl 9
  · exact Nat.zero_le 9

theorem rank_beginAttempt (redisEnabled : Bool) (f : Fields) :
    (beginAttempt redisEnabled f).2.rank ≤ 10 := by
  rw [beginAttempt]
  split
  · exact Nat.zero_le 10
  · split
    · split
      · exact Nat.le_refl 10
      · exact Nat.le_succ_of_le (rank_acquireLease f)
    · exact Nat.le_of_ble_eq_true rfl

/-- Every await of an attempt lowers its rank, so it is over after at most ten. -/
theorem rank_resumed
    (hresumed : resumed f here outcome = some code') : code'.2.rank < here.rank := by
  cases resumes_of_resumed hresumed with
  | redisConnects r => exact Nat.lt_succ_of_le (rank_acquireLease _)
  | dialRaises | setupRaises | startRaises =>
    exact Nat.lt_of_le_of_lt (rank_closeRuntime f) (Nat.le_of_ble_eq_true rfl)
  | stops => exact Nat.lt_succ_of_le (rank_unsubscribe f)
  | unsubscribes => exact Nat.lt_succ_of_le (rank_closeClient _)
  | closes c => exact Nat.lt_succ_of_le (rank_releaseLease _)
  | cancels l hover => exact Nat.lt_succ_of_le (rank_deleteKey f l)
  | redisRaises | leads | follows | acquireRaises | dials | subscribes | starts | stopRaises
  | closeRaises | deletes | deleteRaises => exact Nat.le_of_ble_eq_true rfl

theorem resumed_outcome (steps : Steps) (f : Fields) (hrank : here.rank ≠ 0) :
    (resumed (endRenewal f here) here (steps.outcome here)).isSome = true := by
  cases here with
  | connecting r =>
    rw [Steps.outcome]
    cases steps.redisConnect <;> rfl
  | acquiring l =>
    rw [Steps.outcome]
    cases steps.acquire with
    | none => rfl
    | some leader => cases leader <;> rfl
  | dialing c =>
    rw [Steps.outcome]
    cases steps.natsConnect <;> rfl
  | subscribing =>
    rw [Steps.outcome]
    cases steps.setup <;> rfl
  | starting =>
    rw [Steps.outcome]
    cases steps.hook <;> rfl
  | onStop =>
    rw [Steps.outcome]
    cases steps.onStop <;> rfl
  | unsubscribing => rfl
  | closing c =>
    rw [Steps.outcome]
    cases steps.natsClose <;> rfl
  | cancelling l => exact isSome_of_eq_some resumed_cancelling
  | deleting l =>
    rw [Steps.outcome]
    cases steps.release <;> rfl
  | attempted result | closed | raised => exact absurd rfl hrank

theorem rank_attemptStep (steps : Steps) (code : Code) :
    (attemptStep steps code).2.rank ≤ code.2.rank - 1 := by
  by_cases hrank : code.2.rank = 0
  · rw [attemptStep]
    cases hresumed : resumed (endRenewal code.1 code.2) code.2 (steps.outcome code.2) with
    | none =>
      rw [getD_none]
      omega
    | some code' =>
      have hlt := rank_resumed hresumed
      omega
  · obtain ⟨code', hresumed⟩ := isSome_iff_exists.mp (resumed_outcome steps code.1 hrank)
    have hlt := rank_resumed hresumed
    rw [attemptStep, hresumed, getD_some]
    omega

theorem rank_iterate (steps : Steps) (n : ℕ) (code : Code) (hn : code.2.rank ≤ n) :
    ((attemptStep steps)^[n] code).2.rank = 0 := by
  induction n generalizing code with
  | zero => exact Nat.le_zero.mp hn
  | succ n ih =>
    rw [Function.iterate_succ_apply]
    have hstep := rank_attemptStep steps code
    exact ih _ (by omega)

end Attempt

/-! #### Sequences of attempts -/

/-- The listener between two attempts: where it has no subscriptions nothing else is left
either, and its Redis client is connected if there is one. -/
structure Rest (f : Fields) : Prop where
  owned : Owned f
  clean : f.subscriptions = 0 → Clean f ∧ f.started = false
  pending : ∀ l, f.renewalIs .cancelling l = false
  healthy : ∀ l, f.renewalIs .failed l = false
  usable : f.redisUsable

theorem Rest.initial : Rest .initial where
  owned := ⟨fun l hl => by simp [Fields.isClaimed, Fields.initial] at hl,
    fun c hc => by simp [Fields.isOpen, Fields.initial] at hc,
    fun l x hx => by simp [Fields.initial] at hx⟩
  clean _ := ⟨⟨rfl, ⟨fun l => rfl, fun c => rfl⟩, fun l => rfl⟩, rfl⟩
  pending l := rfl
  healthy l := rfl
  usable := .inl rfl

section Sequence

variable {redisEnabled : Bool} {f : Fields} {steps : Steps}

theorem beginAttempt_cases (redisEnabled : Bool) (f : Fields) :
    (f.subscriptions ≠ 0 ∧ beginAttempt redisEnabled f = (f, .attempted true)) ∨
    (redisEnabled = true ∧ f.redis = none ∧ beginAttempt redisEnabled f =
      ({ f with
          redisClients := f.redisClients ++ [false]
          redis := some f.redisClients.length },
        .connecting f.redisClients.length)) ∨
    (redisEnabled = true ∧ f.redis ≠ none ∧ f.subscriptions = 0 ∧
      beginAttempt redisEnabled f = acquireLease f) ∨
    (redisEnabled = false ∧ beginAttempt redisEnabled f = dial f) := by
  rw [beginAttempt]
  by_cases hsubs : f.subscriptions ≠ 0
  · exact .inl ⟨hsubs, if_pos hsubs⟩
  · rw [if_neg hsubs]
    cases redisEnabled with
    | false => exact .inr (.inr (.inr ⟨rfl, rfl⟩))
    | true =>
      cases hredis : f.redis with
      | none => exact .inr (.inl ⟨rfl, rfl, rfl⟩)
      | some r => exact .inr (.inr (.inl ⟨rfl, some_ne_none r, not_not.mp hsubs, rfl⟩))

theorem Rest.begin (h : Rest f) (hmeets : steps.Meets redisEnabled f) :
    Going redisEnabled steps (beginAttempt redisEnabled f) := by
  have hsafe : Safe (beginAttempt redisEnabled f) :=
    beginAttempt_safe redisEnabled h.owned fun hsubs => (h.clean hsubs).1.vacant
  have hquiet : ∀ {r : Renewal}, r ≠ .absent → (∀ l, f.renewalIs r l = false) →
      ∀ l, (beginAttempt redisEnabled f).1.renewalIs r l = false := by
    intro r hr hf l
    rw [← Bool.not_eq_true]
    intro hl
    have hl := beginAttempt_renewal hr hl
    rw [hf l] at hl
    cases hl
  have hpending := hquiet (by decide) h.pending
  have hhealthy := hquiet (by decide) h.healthy
  have hcancelling : ∀ l, (beginAttempt redisEnabled f).1.renewalIs .cancelling l = true →
      (beginAttempt redisEnabled f).2 = .cancelling l := by
    intro l hl
    rw [hpending l] at hl
    cases hl
  have hstarted : f.subscriptions = 0 → f.started = false := fun hsubs => (h.clean hsubs).2
  refine ⟨hsafe, hcancelling, hhealthy, ?_⟩
  rcases beginAttempt_cases redisEnabled f with
    ⟨hsubs, heq⟩ | ⟨henabled, hredis, heq⟩ | ⟨henabled, hredis, hsubs, heq⟩ | ⟨-, heq⟩
  · rw [heq]
    exact ⟨h.usable, hsubs⟩
  · rw [heq] at hsafe ⊢
    exact ⟨hstarted hsafe.here.1, ⟨rfl, by simp⟩, hmeets.redisConnect henabled hredis, henabled⟩
  · have hready := h.usable.resolve_left hredis
    rw [heq, acquireLease_ready hready]
    exact ⟨hstarted hsubs, .inr hready, henabled⟩
  · rw [heq] at hsafe ⊢
    exact ⟨hstarted hsafe.here.1, h.usable⟩

theorem Going.finished {code : Code} (h : Going redisEnabled steps code) (hrank : code.2.rank = 0) :
    ∃ started, code.2.result = some started ∧ Rest code.1 ∧
      (started = true → code.1.subscriptions ≠ 0) ∧ (started = false → Clean code.1) := by
  obtain ⟨f, here⟩ := code
  have hrest : (∀ l, here ≠ .cancelling l) → f.redisUsable →
      (f.subscriptions = 0 → Clean f ∧ f.started = false) → Rest f :=
    fun hcancelling husable hclean =>
      ⟨h.safe.owned, hclean, h.not_pending hcancelling, h.healthy, husable⟩
  cases here with
  | attempted started =>
    cases started with
    | true =>
      obtain ⟨husable, hsubs⟩ := h.known
      exact ⟨true, rfl, hrest nofun husable fun h0 => absurd h0 hsubs, fun _ => hsubs,
        Bool.noConfusion⟩
    | false =>
      obtain ⟨hstarted, husable⟩ := h.known
      obtain ⟨hsubs, hvacant⟩ := h.safe.here
      have hclean : Clean f := ⟨hsubs, hvacant, h.not_pending nofun⟩
      exact ⟨false, rfl, hrest nofun husable fun _ => ⟨hclean, hstarted⟩, Bool.noConfusion,
        fun _ => hclean⟩
  | closed =>
    obtain ⟨hstarted, husable⟩ := h.known
    obtain ⟨hsubs, hclient, hlease⟩ := h.safe.here
    have hclean : Clean f := ⟨hsubs, h.safe.owned.vacant hlease hclient, h.not_pending nofun⟩
    exact ⟨false, rfl, hrest nofun husable fun _ => ⟨hclean, hstarted⟩, Bool.noConfusion,
      fun _ => hclean⟩
  | raised => exact h.known.elim
  | _ => cases hrank

/-- **An attempt from rest** returns a boolean and leads to rest again: `True` with
subscriptions, `False` with nothing left. -/
theorem Rest.attempt (h : Rest f) (hmeets : steps.Meets redisEnabled f) :
    ∃ started, (startOnce redisEnabled f steps).2.result = some started ∧
      Rest (startOnce redisEnabled f steps).1 ∧
      (started = true → (startOnce redisEnabled f steps).1.subscriptions ≠ 0) ∧
      (started = false → Clean (startOnce redisEnabled f steps).1) :=
  ((h.begin hmeets).iterate hmeets.acquire hmeets.setup hmeets.natsClose hmeets.release 10).finished
    (rank_iterate steps 10 _ (rank_beginAttempt redisEnabled f))

/-- Every step of the attempt succeeds, and it becomes leader. -/
structure Steps.Succeeds (steps : Steps) : Prop where
  redisConnect : steps.redisConnect = true
  acquire : steps.acquire = some true
  natsConnect : steps.natsConnect = true
  setup : steps.setup.isSome = true
  hook : steps.hook = true

/-- An attempt is still on its way up, with a Redis client to connect, or has succeeded. -/
def Climbing (code : Code) : Prop :=
  match code.2 with
  | .connecting r => code.1.redis = some r ∧ r < code.1.redisClients.length
  | .acquiring _ | .dialing _ | .subscribing | .starting | .attempted true => True
  | _ => False

theorem Climbing.step {code : Code} (h : Climbing code) (hsteps : steps.Succeeds) :
    Climbing (attemptStep steps code) := by
  obtain ⟨f, here⟩ := code
  cases here with
  | connecting r =>
    rw [attemptStep_eq (resumed_connected f hsteps.redisConnect r) nofun,
      acquireLease_ready (redisReady_set h.1 h.2)]
    trivial
  | acquiring l =>
    rw [attemptStep_eq (resumed_acquired f hsteps.acquire l) nofun]
    trivial
  | dialing c =>
    rw [attemptStep_eq (resumed_dialed f hsteps.natsConnect c) nofun]
    trivial
  | subscribing =>
    obtain ⟨n, hn⟩ := isSome_iff_exists.mp hsteps.setup
    rw [attemptStep_eq (resumed_subscribed f hn) nofun]
    trivial
  | starting =>
    rw [attemptStep_eq (resumed_started f hsteps.hook) nofun]
    trivial
  | attempted result => exact h
  | _ => exact h.elim

theorem Climbing.result {code : Code} (h : Climbing code) (hrank : code.2.rank = 0) :
    code.2.result = some true := by
  obtain ⟨f, here⟩ := code
  cases here with
  | attempted started =>
    cases started with
    | true => rfl
    | false => exact h.elim
  | closed | raised => exact h.elim
  | _ => cases hrank

/-- **An attempt whose steps all succeed** returns `True`, from any state of rest. -/
theorem Rest.succeeds (h : Rest f) (hsteps : steps.Succeeds) :
    (startOnce redisEnabled f steps).2.result = some true := by
  have hbegin : Climbing (beginAttempt redisEnabled f) := by
    rcases beginAttempt_cases redisEnabled f with
      ⟨-, heq⟩ | ⟨-, -, heq⟩ | ⟨-, hredis, -, heq⟩ | ⟨-, heq⟩
    · rw [heq]
      trivial
    · rw [heq]
      exact ⟨rfl, by simp⟩
    · rw [heq, acquireLease_ready (h.usable.resolve_left hredis)]
      trivial
    · rw [heq]
      trivial
  have hclimb : ∀ n, Climbing ((attemptStep steps)^[n] (beginAttempt redisEnabled f)) := by
    intro n
    induction n with
    | zero => exact hbegin
    | succ n ih =>
      rw [Function.iterate_succ_apply']
      exact ih.step hsteps
  exact (hclimb 10).result (rank_iterate steps 10 _ (rank_beginAttempt redisEnabled f))

end Sequence

/-- One attempt of a sequence. -/
def attemptNext (redisEnabled : Bool) (f : Fields) (steps : Steps) : Option Fields :=
  some (startOnce redisEnabled f steps).1

variable {f : Fields}

theorem rest_run {redisEnabled : Bool} {f' : Fields} {attempts : List Steps} (h : Rest f)
    (hmeets : StepsMeet (attemptNext redisEnabled) (fun f steps => steps.Meets redisEnabled f) f
      attempts) (hrun : run (attemptNext redisEnabled) f attempts = some f') : Rest f' := by
  refine run_invariant_where (fun hrest hok hstep => ?_) h hmeets hrun
  cases hstep
  obtain ⟨-, -, hrest', -⟩ := hrest.attempt hok
  exact hrest'

theorem Rest.retryStart {redisEnabled : Bool} (h : Rest f) (rounds : List (Bool × Steps))
    (hmeets : StepsMeet (attemptNext redisEnabled) (fun f steps => steps.Meets redisEnabled f) f
      (rounds.map Prod.snd)) :
    (retryStart redisEnabled f rounds).2 = .sleeping ∨
    ((retryStart redisEnabled f rounds).2 = .succeeded ∧
      (retryStart redisEnabled f rounds).1.subscriptions ≠ 0) ∨
    ((retryStart redisEnabled f rounds).2 = .stopped ∧ ∃ round ∈ rounds, round.1 = true) := by
  induction rounds generalizing f with
  | nil => exact .inl rfl
  | cons round rounds ih =>
    obtain ⟨stopping, steps⟩ := round
    cases stopping with
    | true =>
      rw [Listener.retryStart, if_pos rfl]
      exact .inr (.inr ⟨rfl, ⟨(true, steps), List.mem_cons_self, rfl⟩⟩)
    | false =>
      by_cases hsubs : f.subscriptions ≠ 0
      · rw [Listener.retryStart, if_neg Bool.false_ne_true, if_pos hsubs]
        exact .inr (.inl ⟨rfl, hsubs⟩)
      · have hnext : attemptNext redisEnabled f steps =
            some (startOnce redisEnabled f steps).1 := by
          rw [attemptNext]
        obtain ⟨hok, hrest⟩ := stepsMeet_cons hmeets hnext
        obtain ⟨started, hresult, hafter, htrue, -⟩ := h.attempt hok
        rw [Listener.retryStart, if_neg Bool.false_ne_true, if_neg hsubs, retryAfter, hresult]
        cases started with
        | true => exact .inr (.inl ⟨rfl, htrue rfl⟩)
        | false =>
          rcases ih hafter hrest with hcase | hcase | ⟨hcase, other, hmem, hother⟩
          · exact .inl hcase
          · exact .inr (.inl hcase)
          · exact .inr (.inr ⟨hcase, other, List.mem_cons_of_mem _ hmem, hother⟩)

/-- **The listener recovers**: after attempts that meet the condition, a further one returns a
boolean, and `False` leaves nothing; one whose steps all succeed returns `True`; and the retry task
ends by success or stop only. -/
theorem attempts_recover (redisEnabled : Bool) (attempts : List Steps) (f : Fields)
    (hmeets : StepsMeet (attemptNext redisEnabled) (fun f steps => steps.Meets redisEnabled f)
      .initial attempts)
    (hrun : run (attemptNext redisEnabled) .initial attempts = some f) :
    (∀ steps : Steps, steps.Meets redisEnabled f →
      ∃ started, (startOnce redisEnabled f steps).2.result = some started ∧
        (started = false → Clean (startOnce redisEnabled f steps).1)) ∧
    (∀ steps : Steps, steps.Succeeds →
      (startOnce redisEnabled f steps).2.result = some true) ∧
    (∀ rounds : List (Bool × Steps),
      StepsMeet (attemptNext redisEnabled) (fun f steps => steps.Meets redisEnabled f) f
        (rounds.map Prod.snd) →
      (retryStart redisEnabled f rounds).2 = .sleeping ∨
      ((retryStart redisEnabled f rounds).2 = .succeeded ∧
        (retryStart redisEnabled f rounds).1.subscriptions ≠ 0) ∨
      ((retryStart redisEnabled f rounds).2 = .stopped ∧ ∃ round ∈ rounds, round.1 = true)) := by
  have hrest := rest_run Rest.initial hmeets hrun
  refine ⟨fun steps hsteps => ?_, fun steps => hrest.succeeds, hrest.retryStart⟩
  obtain ⟨started, hresult, -, -, hclean⟩ := hrest.attempt hsteps
  exact ⟨started, hresult, hclean⟩

/-- Steps that all succeed, with two subscriptions. -/
def smoothSteps : Steps := ⟨true, some true, true, some 2, true, true, true, true⟩

/-- After an attempt that was not leader and one whose set-up raised, a smooth one starts. -/
theorem attempts_recover_third :
    (startOnce true (startOnce true (startOnce true .initial
        { smoothSteps with acquire := some false }).1 { smoothSteps with setup := none }).1
      smoothSteps).2.result = some true :=
  (attempts_recover true
    [{ smoothSteps with acquire := some false }, { smoothSteps with setup := none }] _
    (by decide +kernel) rfl).2.1 smoothSteps ⟨rfl, rfl, rfl, rfl, rfl⟩

/-! #### What the condition excludes -/

theorem failed_connect_is_final (hredis : f.redis ≠ none)
    (hready : f.redisReady = false) (hsubs : f.subscriptions = 0) (steps : Steps) :
    startOnce true f steps = (f, .raised) := by
  have hbegin : beginAttempt true f = (f, .raised) := by
    rcases beginAttempt_cases true f with ⟨h, -⟩ | ⟨-, h, -⟩ | ⟨-, -, -, heq⟩ | ⟨h, -⟩
    · exact absurd hsubs h
    · exact absurd h hredis
    · rw [heq, acquireLease, hready, if_neg Bool.false_ne_true]
    · cases h
  rw [startOnce, hbegin]
  rfl

/-- **A failed connect is final**: once the Redis connect of an attempt has raised, every later
attempt raises and changes nothing, and no retry task succeeds. -/
theorem failed_connect_for_good (hredis : f.redis = none) (hsubs : f.subscriptions = 0)
    {steps : Steps} (hconnect : steps.redisConnect = false) :
    ∃ dead, startOnce true f steps = (dead, .raised) ∧
      (∀ later : List Steps, later.foldl (fun f steps => (startOnce true f steps).1) dead = dead) ∧
      (∀ later, (startOnce true dead later).2 = .raised) ∧
      ∀ rounds, (retryStart true dead rounds).2 ≠ .succeeded := by
  obtain ⟨dead, hfirst, hset, hready, hnone⟩ : ∃ dead, startOnce true f steps = (dead, .raised) ∧
      dead.redis ≠ none ∧ dead.redisReady = false ∧ dead.subscriptions = 0 := by
    have hraises : steps.outcome (.connecting f.redisClients.length) = .raises := by
      rw [Steps.outcome, hconnect]
      rfl
    refine ⟨{ f with
      redisClients := f.redisClients ++ [false]
      redis := some f.redisClients.length }, ?_, by simp, by simp [Fields.redisReady], hsubs⟩
    rw [startOnce, beginAttempt, if_neg (not_not.mpr hsubs), if_pos rfl, hredis]
    rw [Function.iterate_succ_apply, attemptStep, hraises]
    rfl
  have hdead := failed_connect_is_final hset hready hnone
  refine ⟨dead, hfirst, fun later => ?_, fun later => ?_, fun rounds => ?_⟩
  · induction later with
    | nil => rfl
    | cons steps later ih => rw [List.foldl_cons, hdead, ih]
  · rw [hdead]
  · cases rounds with
    | nil =>
      intro h
      cases h
    | cons round rounds =>
      obtain ⟨stopping, later⟩ := round
      rw [retryStart, hdead, if_neg (not_not.mpr hnone)]
      cases stopping <;> intro h <;> cases h

theorem failed_connect_not_retried :
    (retryStart true (startOnce true .initial { smoothSteps with redisConnect := false }).1
      [(false, smoothSteps), (false, smoothSteps)]).2 ≠ .succeeded := by
  obtain ⟨dead, hfirst, -, -, hretry⟩ := failed_connect_for_good (f := .initial) rfl rfl
    (rfl : ({ smoothSteps with redisConnect := false } : Steps).redisConnect = false)
  rw [hfirst]
  exact hretry _

/-- A Redis connect that raises: the attempt raises, and so does a smooth one after it. A close of
the NATS client that raises on the failure path: the lease stays held. -/
theorem failed_connect_then_raises :
    (startOnce true .initial { smoothSteps with redisConnect := false }).2 = .raised ∧
    (startOnce true (startOnce true .initial { smoothSteps with redisConnect := false }).1
      smoothSteps).2 = .raised ∧
    (startOnce true .initial { smoothSteps with hook := false, natsClose := false }).2 = .raised ∧
    (startOnce true .initial
      { smoothSteps with hook := false, natsClose := false }).1.isClaimed 0 = true := by
  decide +kernel

end ServiceToolkit.Listener
