import Mathlib.Data.List.Basic
import Mathlib.Tactic.Common
import ServiceToolkit.Runs

/-!
# The Leader-Elected Listener

`LeaderElectedListener` subscribes to NATS while it holds a lease in Redis. One attempt to
start (`_start_once`) connects to Redis, acquires a lease, connects to NATS, subscribes and
runs the start hook; when one of the last three fails, `_close_runtime` undoes what is
there. This module has the listener's **fields** and the code between two awaits. What
attempts make of them one after another is in `LeaderListenerRetry`; `LeaderListenerTasks`
has them at once with `stop` and lost leases, and `LeaderListenerStop` what `stop` promises.

## The code between two awaits

`At` is where a routine waits. `beginAttempt` and `closeRuntime` run from a call to the
first await, and `resumed` from one await to the next, with the `Outcome` of what was
awaited. A routine that is over is at `attempted`, `closed` or `raised`.

Every Redis client, lease and NATS client ever made keeps its number, so that one the
listener has lost sight of is still there to be counted. A lease is **claimed** while it
reports itself held or its renew task goes on, and its renew task is `cancelling` from its
cancellation to its end; a NATS client is open while it has a connection.
`NATSClient.close` gives up its connection also when draining raises.
-/

namespace ServiceToolkit.Listener

open Option

/-! ### Fields -/

/-- The renew task of a lease: not there yet, running, cancelled but not yet over, over, or
over with an exception. -/
inductive Renewal
  | absent
  | running
  | cancelling
  | ended
  | failed
  deriving DecidableEq, Repr

/-- A `LeaderLease`: its lock's flag, the lost event, whether it still has its task, and the
task. -/
structure Lease where
  held : Bool
  lost : Bool
  attached : Bool
  renewal : Renewal
  deriving DecidableEq, Repr

/-- `LeaderLease(...)`. -/
def Lease.fresh : Lease := ⟨false, false, false, .absent⟩

/-- The lease after `acquire`: held, not lost, with a renew task. -/
def Lease.acquired : Lease := ⟨true, false, true, .running⟩

/-- The lease reports itself held, or its renew task goes on renewing. -/
def Lease.claimed (lease : Lease) : Bool :=
  (lease.held && !lease.lost) || lease.renewal = .running

/-- The listener's fields, with every object they have named: whether each Redis client is
connected, each lease, and whether each NATS client has a connection. -/
structure Fields where
  redisClients : List Bool
  redis : Option ℕ
  leases : List Lease
  lease : Option ℕ
  clients : List Bool
  client : Option ℕ
  subscriptions : ℕ
  started : Bool
  deriving DecidableEq

/-- `__init__`. -/
def Fields.initial : Fields := ⟨[], none, [], none, [], none, 0, false⟩

/-- `self._redis` is there and connected. -/
def Fields.redisReady (f : Fields) : Bool := f.redis.any (f.redisClients.getD · false)

/-- The client has a connection. -/
def Fields.isOpen (f : Fields) (c : ℕ) : Bool := f.clients.getD c false

/-- The lease is claimed. -/
def Fields.isClaimed (f : Fields) (l : ℕ) : Bool := (f.leases[l]?).any Lease.claimed

/-- The renew task of the lease is like this. -/
def Fields.renewalIs (f : Fields) (renewal : Renewal) (l : ℕ) : Bool :=
  (f.leases[l]?).any fun lease => lease.renewal = renewal

/-- One lease changes. -/
def Fields.setLease (f : Fields) (l : ℕ) (lease : Lease) : Fields :=
  { f with leases := f.leases.set l lease }

/-- One client gets or loses its connection. -/
def Fields.setOpen (f : Fields) (c : ℕ) (isOpen : Bool) : Fields :=
  { f with clients := f.clients.set c isOpen }

/-! ### From one await to the next -/

/-- Where a routine is: at an await of `_start_once`, of `_close_runtime` or of the release
in it, or over. -/
inductive At
  | connecting (redis : ℕ)
  | acquiring (lease : ℕ)
  | dialing (client : ℕ)
  | subscribing
  | starting
  | onStop
  | unsubscribing
  | closing (client : ℕ)
  | cancelling (lease : ℕ)
  | deleting (lease : ℕ)
  | attempted (result : Bool)
  | closed
  | raised
  deriving DecidableEq, Repr

/-- The awaits of `_start_once` itself. -/
def At.isUp : At → Bool
  | .connecting _ | .acquiring _ | .dialing _ | .subscribing | .starting => true
  | _ => false

/-- The awaits of `_close_runtime`. -/
def At.isDown : At → Bool
  | .onStop | .unsubscribing | .closing _ | .cancelling _ | .deleting _ => true
  | _ => false

/-- On its way down a routine waits there, has closed the runtime or has raised. -/
def At.isLow (here : At) : Prop := here.isDown = true ∨ here = .closed ∨ here = .raised

variable {here : At}

theorem At.isUp_eq_false (hdown : here.isDown = true) : here.isUp = false := by
  cases here with
  | connecting r | acquiring l | dialing c | subscribing | starting => cases hdown
  | _ => rfl

theorem At.isLow.not_up (hlow : here.isLow) : here.isUp = false := by
  rcases hlow with hdown | rfl | rfl
  · exact At.isUp_eq_false hdown
  · rfl
  · rfl

/-- How an await ends: `refused` is the `False` of `acquire`, `subscribed` brings the number
of subscriptions set up. -/
inductive Outcome
  | ok
  | refused
  | subscribed (subscriptions : ℕ)
  | raises
  deriving DecidableEq, Repr

/-- The fields, and where the routine that changed them is now. -/
abbrev Code := Fields × At

/-- A lease over the connected client, and its `acquire` up to the reply to `SET`. -/
def acquireLease (f : Fields) : Code :=
  if f.redisReady then
    ({ f with leases := f.leases ++ [.fresh], lease := some f.leases.length },
      .acquiring f.leases.length)
  else (f, .raised)

/-- `self._client = NATSClient(nats_settings)`, and its `connect`. -/
def dial (f : Fields) : Code :=
  ({ f with clients := f.clients ++ [false], client := some f.clients.length },
    .dialing f.clients.length)

/-- `_start_once` up to its first await. -/
def beginAttempt (redisEnabled : Bool) (f : Fields) : Code :=
  if f.subscriptions ≠ 0 then (f, .attempted true)
  else if redisEnabled then
    match f.redis with
    | none =>
      ({ f with
          redisClients := f.redisClients ++ [false]
          redis := some f.redisClients.length },
        .connecting f.redisClients.length)
    | some _ => acquireLease f
  else dial f

/-- `RedisLock.release` up to its reply: nothing is sent when the lock is not held. -/
def deleteKey (f : Fields) (l : ℕ) : Code :=
  if (f.leases[l]?).any Lease.held then (f, .deleting l) else (f, .closed)

/-- `LeaderLease.release`: the task is taken, the lease counts as lost from here on, and the
task is cancelled and awaited; one that ended with an exception raises it here. -/
def release (f : Fields) (l : ℕ) : Code :=
  match f.leases[l]? with
  | none => (f, .closed)
  | some lease =>
    let f' := fun renewal =>
      f.setLease l { lease with lost := true, attached := false, renewal := renewal }
    if lease.attached then
      match lease.renewal with
      | .running => (f' .cancelling, .cancelling l)
      | .failed => (f' .failed, .raised)
      | renewal => deleteKey (f' renewal) l
    else deleteKey (f' lease.renewal) l

/-- `_release_lease`. -/
def releaseLease (f : Fields) : Code :=
  match f.lease with
  | none => (f, .closed)
  | some l => release { f with lease := none } l

/-- The part of `_close_runtime` after the subscriptions: closing a client that has no
connection does not wait. -/
def closeClient (f : Fields) : Code :=
  match f.client with
  | none => releaseLease f
  | some c => if f.isOpen c then (f, .closing c) else releaseLease { f with client := none }

/-- The part of `_close_runtime` after the stop hook. -/
def unsubscribe (f : Fields) : Code :=
  if f.subscriptions ≠ 0 then (f, .unsubscribing) else closeClient f

/-- `_close_runtime` up to its first await. -/
def closeRuntime (f : Fields) : Code :=
  if f.started then ({ f with started := false }, .onStop) else unsubscribe f

/-- The renew task of a lease is over. -/
def Fields.renewalOver (f : Fields) (l : ℕ) : Bool :=
  (f.leases[l]?).all fun lease => lease.renewal ≠ .running && lease.renewal ≠ .cancelling

/-- From an await to the next one. The errors of `unsubscribe` are logged, so its loop ends
one way only; waiting for a cancelled renew task ends when the task does. -/
def resumed (f : Fields) : At → Outcome → Option Code
  | .connecting r, .ok => some (acquireLease { f with redisClients := f.redisClients.set r true })
  | .connecting _, .raises => some (f, .raised)
  | .acquiring l, .ok => some (dial (f.setLease l .acquired))
  | .acquiring _, .refused => some ({ f with lease := none }, .attempted false)
  | .acquiring _, .raises => some (f, .raised)
  | .dialing c, .ok => some (f.setOpen c true, .subscribing)
  | .dialing _, .raises => some (closeRuntime f)
  | .subscribing, .subscribed n => some ({ f with subscriptions := n }, .starting)
  | .subscribing, .raises => some (closeRuntime f)
  | .starting, .ok => some ({ f with started := true }, .attempted true)
  | .starting, .raises => some (closeRuntime f)
  | .onStop, .ok => some (unsubscribe f)
  | .onStop, .raises => some (f, .raised)
  | .unsubscribing, .ok => some (closeClient { f with subscriptions := 0 })
  | .closing c, .ok => some (releaseLease { f.setOpen c false with client := none })
  | .closing c, .raises => some (f.setOpen c false, .raised)
  | .cancelling l, .ok => if f.renewalOver l then some (deleteKey f l) else none
  | .deleting l, .ok =>
    some (f.setLease l { (f.leases[l]?).getD .fresh with held := false }, .closed)
  | .deleting _, .raises => some (f, .raised)
  | _, _ => none

/-! ### What the fields name -/

section Objects

variable (f : Fields) (l c : ℕ)

theorem isClaimed_setLease (lease : Lease) (l' : ℕ) :
    (f.setLease l lease).isClaimed l' =
      if l = l' then decide (l < f.leases.length) && lease.claimed else f.isClaimed l' := by
  rw [Fields.isClaimed, Fields.setLease, List.getElem?_set]
  by_cases hl : l = l'
  · subst hl
    by_cases hlt : l < f.leases.length <;> simp [hlt]
  · simp [hl, Fields.isClaimed]

theorem renewalIs_setLease (lease : Lease) (renewal : Renewal) (l' : ℕ) :
    (f.setLease l lease).renewalIs renewal l' =
      if l = l' then decide (l < f.leases.length) && decide (lease.renewal = renewal)
      else f.renewalIs renewal l' := by
  rw [Fields.renewalIs, Fields.setLease, List.getElem?_set]
  by_cases hl : l = l'
  · subst hl
    by_cases hlt : l < f.leases.length <;> simp [hlt]
  · simp [hl, Fields.renewalIs]

theorem isOpen_setOpen (isOpen : Bool) (c' : ℕ) :
    (f.setOpen c isOpen).isOpen c' =
      if c = c' then decide (c < f.clients.length) && isOpen else f.isOpen c' := by
  rw [Fields.isOpen, Fields.setOpen, List.getD_eq_getElem?_getD, List.getElem?_set]
  by_cases hc : c = c'
  · subst hc
    by_cases hlt : c < f.clients.length <;> simp [hlt]
  · simp [hc, Fields.isOpen]

end Objects

/-- The fields **name** what there is: a claimed lease is the listener's lease and an open
client its client, and a lease whose task goes on still has the task. -/
structure Owned (f : Fields) : Prop where
  lease : ∀ l, f.isClaimed l = true → f.lease = some l
  client : ∀ c, f.isOpen c = true → f.client = some c
  attached : ∀ (l : ℕ) (x : Lease), f.leases[l]? = some x → x.renewal = .running → x.attached = true

/-- Nothing is claimed and nothing is open. -/
structure Vacant (f : Fields) : Prop where
  lease : ∀ l, f.isClaimed l = false
  client : ∀ c, f.isOpen c = false

/-- What is known of the fields where a routine is. On the way up nothing of an earlier
attempt is left; on the way down, what `_close_runtime` is done with is gone. -/
def Local (f : Fields) : At → Prop
  | .connecting _ => f.subscriptions = 0 ∧ Vacant f
  | .acquiring l =>
    f.subscriptions = 0 ∧ Vacant f ∧ f.lease = some l ∧ l < f.leases.length
  | .dialing c =>
    f.subscriptions = 0 ∧ (∀ c', f.isOpen c' = false) ∧ f.client = some c ∧
      c < f.clients.length
  | .subscribing => f.subscriptions = 0
  | .closing c => f.subscriptions = 0 ∧ (f.client = none ∨ f.client = some c)
  | .cancelling _ | .deleting _ | .closed =>
    f.subscriptions = 0 ∧ f.client = none ∧ f.lease = none
  | .attempted false => f.subscriptions = 0 ∧ Vacant f
  | .attempted true | .starting | .onStop | .unsubscribing | .raised => True

/-- The fields name what there is, and what is known holds. -/
structure Safe (code : Code) : Prop where
  owned : Owned code.1
  here : Local code.1 code.2

section Owned

variable {f : Fields} {x : Lease}

theorem Vacant.owned (h : Vacant f)
    (hattached : ∀ (l : ℕ) (x : Lease), f.leases[l]? = some x → x.renewal = .running →
      x.attached = true) : Owned f where
  lease l hl := absurd hl (Bool.eq_false_iff.mp (h.lease l))
  client c hc := absurd hc (Bool.eq_false_iff.mp (h.client c))
  attached := hattached

theorem Lease.not_running (hx : x.claimed = false) : x.renewal ≠ .running := by
  intro h
  simp [Lease.claimed, h] at hx

variable (h : Owned f)
include h

theorem Owned.vacant (hlease : f.lease = none) (hclient : f.client = none) :
    Vacant f where
  lease l := by
    rw [← Bool.not_eq_true]
    intro hclaimed
    have hl := h.lease l hclaimed
    rw [hlease] at hl
    cases hl
  client c := by
    rw [← Bool.not_eq_true]
    intro hopen
    have hc := h.client c hopen
    rw [hclient] at hc
    cases hc

theorem Owned.setLease {l : ℕ} (hx : x.claimed = false) : Owned (f.setLease l x) where
  lease l' hl' := by
    rw [isClaimed_setLease] at hl'
    split at hl'
    · simp [hx] at hl'
    · exact h.lease l' hl'
  client := h.client
  attached l' y hy hrunning :=
    forall_getElem?_set (P := fun _ (y : Lease) => y.renewal = .running → y.attached = true)
      (fun hi _ => h.attached _ _ hi) (fun hr => absurd hr (Lease.not_running hx)) hy hrunning

theorem Owned.release_one {l : ℕ} (hl : f.lease = some l)
    (hx : x.claimed = false) : Owned { f.setLease l x with lease := none } where
  lease l' hl' := by
    have hset : (f.setLease l x).isClaimed l' = true := hl'
    rw [isClaimed_setLease] at hset
    by_cases hne : l = l'
    · simp [hne, hx] at hset
    · rw [if_neg hne] at hset
      exact absurd (some.inj (hl.symm.trans (h.lease l' hset))) hne
  client := h.client
  attached := (h.setLease hx).attached

theorem Owned.drop_client (hclosed : ∀ c, f.client = some c → f.isOpen c = false) :
    Owned { f with client := none } where
  lease := h.lease
  client c hc := by
    have hopen : f.isOpen c = true := hc
    rw [hclosed c (h.client c hopen)] at hopen
    cases hopen
  attached := h.attached

theorem Owned.setOpen_false (c : ℕ) : Owned (f.setOpen c false) where
  lease := h.lease
  client c' hc' := by
    rw [isOpen_setOpen] at hc'
    split at hc'
    · simp at hc'
    · exact h.client c' hc'
  attached := h.attached

end Owned

/-! ### The way down -/

section Down

variable {f : Fields} (h : Owned f)
include h

theorem deleteKey_safe (hsubs : f.subscriptions = 0) (hclient : f.client = none)
    (hlease : f.lease = none) (l : ℕ) : Safe (deleteKey f l) := by
  rw [deleteKey]
  split
  · exact ⟨h, hsubs, hclient, hlease⟩
  · exact ⟨h, hsubs, hclient, hlease⟩

theorem releaseLease_safe (hsubs : f.subscriptions = 0)
    (hclient : f.client = none) : Safe (releaseLease f) := by
  rw [releaseLease]
  cases hlease : f.lease with
  | none => exact ⟨h, hsubs, hclient, hlease⟩
  | some l =>
    dsimp only
    rw [release]
    cases hl : f.leases[l]? with
    | none =>
      -- a lease that was never made is not claimed
      refine ⟨⟨fun l' hl' => ?_, h.client, h.attached⟩, hsubs, hclient, rfl⟩
      have hname := some.inj (hlease.symm.trans (h.lease l' hl'))
      have hclaimed : f.isClaimed l' = true := hl'
      rw [← hname, Fields.isClaimed, hl] at hclaimed
      cases hclaimed
    | some x =>
      have hdown : ∀ renewal, renewal ≠ Renewal.running →
          Owned { f.setLease l { x with lost := true, attached := false, renewal := renewal }
            with lease := none } := by
        intro renewal hrenewal
        exact h.release_one hlease (by simp [Lease.claimed, hrenewal])
      dsimp only
      split
      · rename_i hattached
        split
        · exact ⟨hdown .cancelling (by decide), hsubs, hclient, rfl⟩
        · exact ⟨hdown .failed (by decide), trivial⟩
        · rename_i hrunning _
          exact deleteKey_safe (hdown _ hrunning) hsubs hclient rfl l
      · rename_i hattached
        have hrunning : x.renewal ≠ .running := fun hr => hattached (h.attached l x hl hr)
        exact deleteKey_safe (hdown _ hrunning) hsubs hclient rfl l

theorem closeClient_safe (hsubs : f.subscriptions = 0) : Safe (closeClient f) := by
  rw [closeClient]
  cases hclient : f.client with
  | none => exact releaseLease_safe h hsubs hclient
  | some c =>
    dsimp only
    split
    · exact ⟨h, hsubs, .inr hclient⟩
    · rename_i hclosed
      refine releaseLease_safe (h.drop_client fun c' hc' => ?_) hsubs rfl
      rw [hclient] at hc'
      rw [← some.inj hc']
      exact Bool.eq_false_iff.mpr hclosed

theorem unsubscribe_safe : Safe (unsubscribe f) := by
  rw [unsubscribe]
  split
  · exact ⟨h, trivial⟩
  · rename_i hsubs
    exact closeClient_safe h (not_not.mp hsubs)

theorem closeRuntime_safe : Safe (closeRuntime f) := by
  rw [closeRuntime]
  split
  · exact ⟨⟨h.lease, h.client, h.attached⟩, trivial⟩
  · exact unsubscribe_safe h

end Down

/-! ### The way up -/

section Up

variable {f : Fields}

theorem isClaimed_concat_fresh (leases : List Lease) (l : ℕ) :
    ((leases ++ [Lease.fresh])[l]?).any Lease.claimed = (leases[l]?).any Lease.claimed := by
  by_cases hl : l = leases.length
  · subst hl
    simp [Lease.claimed, Lease.fresh]
  · rw [getElem?_concat_of_ne hl]

theorem getD_concat_false (clients : List Bool) (c : ℕ) :
    (clients ++ [false]).getD c false = clients.getD c false := by
  rw [List.getD_eq_getElem?_getD, List.getD_eq_getElem?_getD]
  by_cases hc : c = clients.length
  · subst hc
    simp
  · rw [getElem?_concat_of_ne hc]

theorem acquireLease_safe (h : Owned f) (hvacant : Vacant f) (hsubs : f.subscriptions = 0) :
    Safe (acquireLease f) := by
  rw [acquireLease]
  split
  · have hvacant' : Vacant
        { f with leases := f.leases ++ [.fresh], lease := some f.leases.length } :=
      ⟨fun l => (isClaimed_concat_fresh f.leases l).trans (hvacant.lease l), hvacant.client⟩
    refine ⟨hvacant'.owned ?_, hsubs, hvacant', rfl, by simp⟩
    intro l x hx
    exact forall_getElem?_concat
      (P := fun _ (y : Lease) => y.renewal = .running → y.attached = true)
      (fun hi => h.attached _ _ hi) (fun hr => by cases hr) hx
  · exact ⟨h, trivial⟩

theorem dial_safe (h : Owned f) (hclosed : ∀ c, f.isOpen c = false) (hsubs : f.subscriptions = 0) :
    Safe (dial f) := by
  have hclosed' : ∀ c, (dial f).1.isOpen c = false :=
    fun c => (getD_concat_false f.clients c).trans (hclosed c)
  refine ⟨⟨h.lease, fun c hc => ?_, h.attached⟩, hsubs, hclosed', rfl, by simp [dial]⟩
  rw [hclosed' c] at hc
  cases hc

theorem beginAttempt_safe (redisEnabled : Bool) (h : Owned f)
    (hvacant : f.subscriptions = 0 → Vacant f) : Safe (beginAttempt redisEnabled f) := by
  rw [beginAttempt]
  split
  · exact ⟨h, trivial⟩
  · rename_i hsubs
    have hsubs := not_not.mp hsubs
    have hvacant := hvacant hsubs
    split
    · split
      · exact ⟨⟨h.lease, h.client, h.attached⟩, hsubs, ⟨hvacant.lease, hvacant.client⟩⟩
      · exact acquireLease_safe h hvacant hsubs
    · exact dial_safe h hvacant.client hsubs

theorem Owned.acquired (h : Owned f) {l : ℕ} (hl : f.lease = some l) :
    Owned (f.setLease l .acquired) where
  lease l' hl' := by
    rw [isClaimed_setLease] at hl'
    split at hl'
    · rename_i heq
      rw [← heq]
      exact hl
    · exact h.lease l' hl'
  client := h.client
  attached l' y hy :=
    forall_getElem?_set (P := fun _ (y : Lease) => y.renewal = .running → y.attached = true)
      (fun hi _ => h.attached _ _ hi) (fun _ => rfl) hy

theorem Owned.connected (h : Owned f) {c : ℕ} (hc : f.client = some c) :
    Owned (f.setOpen c true) where
  lease := h.lease
  client c' hc' := by
    rw [isOpen_setOpen] at hc'
    split at hc'
    · rename_i heq
      rw [← heq]
      exact hc
    · exact h.client c' hc'
  attached := h.attached

end Up

/-! ### From one await to the next -/

/-- **The ways on**, one constructor for each await and outcome. -/
inductive Resumes (f : Fields) : At → Outcome → Code → Prop
  | redisConnects (r : ℕ) :
      Resumes f (.connecting r) .ok
        (acquireLease { f with redisClients := f.redisClients.set r true })
  | redisRaises (r : ℕ) : Resumes f (.connecting r) .raises (f, .raised)
  | leads (l : ℕ) : Resumes f (.acquiring l) .ok (dial (f.setLease l .acquired))
  | follows (l : ℕ) : Resumes f (.acquiring l) .refused ({ f with lease := none }, .attempted false)
  | acquireRaises (l : ℕ) : Resumes f (.acquiring l) .raises (f, .raised)
  | dials (c : ℕ) : Resumes f (.dialing c) .ok (f.setOpen c true, .subscribing)
  | dialRaises (c : ℕ) : Resumes f (.dialing c) .raises (closeRuntime f)
  | subscribes (n : ℕ) :
      Resumes f .subscribing (.subscribed n) ({ f with subscriptions := n }, .starting)
  | setupRaises : Resumes f .subscribing .raises (closeRuntime f)
  | starts : Resumes f .starting .ok ({ f with started := true }, .attempted true)
  | startRaises : Resumes f .starting .raises (closeRuntime f)
  | stops : Resumes f .onStop .ok (unsubscribe f)
  | stopRaises : Resumes f .onStop .raises (f, .raised)
  | unsubscribes : Resumes f .unsubscribing .ok (closeClient { f with subscriptions := 0 })
  | closes (c : ℕ) :
      Resumes f (.closing c) .ok (releaseLease { f.setOpen c false with client := none })
  | closeRaises (c : ℕ) : Resumes f (.closing c) .raises (f.setOpen c false, .raised)
  | cancels (l : ℕ) (hover : f.renewalOver l = true) : Resumes f (.cancelling l) .ok (deleteKey f l)
  | deletes (l : ℕ) :
      Resumes f (.deleting l) .ok
        (f.setLease l { (f.leases[l]?).getD .fresh with held := false }, .closed)
  | deleteRaises (l : ℕ) : Resumes f (.deleting l) .raises (f, .raised)

variable {f : Fields} {outcome : Outcome} {code : Code}

theorem resumes_of_resumed
    (hresumed : resumed f here outcome = some code) : Resumes f here outcome code := by
  unfold resumed at hresumed
  split at hresumed
  case h_17 =>
    split at hresumed
    · rename_i hover
      cases hresumed
      exact .cancels _ hover
    · cases hresumed
  -- every other await and outcome is a rule of its own, or leads nowhere
  all_goals cases hresumed <;> constructor

/-- **From one await to the next** the fields keep naming every claimed lease and every open
client, and what is known where the routine is holds. -/
theorem resumed_owned (h : Owned f)
    (hhere : Local f here) (hresumed : resumed f here outcome = some code) : Safe code := by
  cases resumes_of_resumed hresumed with
  | redisConnects r =>
    obtain ⟨hsubs, hvacant⟩ := hhere
    exact acquireLease_safe ⟨h.lease, h.client, h.attached⟩ ⟨hvacant.lease, hvacant.client⟩ hsubs
  | leads l =>
    obtain ⟨hsubs, hvacant, hl, -⟩ := hhere
    exact dial_safe (h.acquired hl) hvacant.client hsubs
  | follows l =>
    obtain ⟨hsubs, hvacant, -, -⟩ := hhere
    have hvacant' : Vacant { f with lease := none } := ⟨hvacant.lease, hvacant.client⟩
    exact ⟨hvacant'.owned h.attached, hsubs, hvacant'⟩
  | dials c =>
    obtain ⟨hsubs, -, hc, -⟩ := hhere
    exact ⟨h.connected hc, hsubs⟩
  | subscribes | starts => exact ⟨⟨h.lease, h.client, h.attached⟩, trivial⟩
  | dialRaises | setupRaises | startRaises => exact closeRuntime_safe h
  | stops => exact unsubscribe_safe h
  | unsubscribes => exact closeClient_safe ⟨h.lease, h.client, h.attached⟩ rfl
  | closes c =>
    obtain ⟨hsubs, hclient⟩ := hhere
    refine releaseLease_safe ((h.setOpen_false c).drop_client fun c' hc' => ?_) hsubs rfl
    rcases hclient with hnone | hsome
    · exact absurd (hnone.symm.trans hc') nofun
    · rw [isOpen_setOpen, if_pos (some.inj (hsome.symm.trans hc')), Bool.and_false]
  | closeRaises c => exact ⟨h.setOpen_false c, trivial⟩
  | cancels l hover =>
    obtain ⟨hsubs, hclient, hlease⟩ := hhere
    exact deleteKey_safe h hsubs hclient hlease l
  | deletes l =>
    obtain ⟨hsubs, hclient, hlease⟩ := hhere
    refine ⟨h.setLease ?_, hsubs, hclient, hlease⟩
    have hl := (h.vacant hlease hclient).lease l
    rw [Fields.isClaimed] at hl
    cases hx : f.leases[l]? with
    | none => rfl
    | some x =>
      rw [hx, any_some] at hl
      simpa [Lease.claimed] using Lease.not_running hl
  | redisRaises | acquireRaises | stopRaises | deleteRaises => exact ⟨h, trivial⟩

/-! ### What the way down leaves alone -/

/-- `_close_runtime` only clears fields, a renew task changes only by the cancellation its
release then waits for, and there is no way up from here. -/
structure Shrinks (f : Fields) (code : Code) : Prop where
  subscriptions : code.1.subscriptions = f.subscriptions ∨ code.1.subscriptions = 0
  client : code.1.client = f.client ∨ code.1.client = none
  lease : code.1.lease = f.lease ∨ code.1.lease = none
  renewal : ∀ l r, code.1.renewalIs r l = true →
    f.renewalIs r l = true ∨ r = .cancelling ∧ code.2 = .cancelling l
  ready : code.1.redis = f.redis ∧ code.1.redisClients = f.redisClients
  started : code.1.started = true → f.started = true
  low : code.2.isLow

section Shrinks

variable {f g : Fields} {code : Code}

theorem Shrinks.refl (f : Fields) {here : At} (hlow : here.isLow) : Shrinks f (f, here) :=
  ⟨.inl rfl, .inl rfl, .inl rfl, fun _ _ h => .inl h, ⟨rfl, rfl⟩, id, hlow⟩

theorem Shrinks.trans {here : At} (h : Shrinks f (g, here)) (h' : Shrinks g code)
    (hhere : ∀ l, here ≠ .cancelling l) : Shrinks f code where
  subscriptions := h'.subscriptions.elim (fun e => e ▸ h.subscriptions) .inr
  client := h'.client.elim (fun e => e ▸ h.client) .inr
  lease := h'.lease.elim (fun e => e ▸ h.lease) .inr
  renewal l r hr := by
    rcases h'.renewal l r hr with hg | hcode
    · exact .inl ((h.renewal l r hg).resolve_right fun hc => hhere l hc.2)
    · exact .inr hcode
  ready := ⟨h'.ready.1.trans h.ready.1, h'.ready.2.trans h.ready.2⟩
  started hs := h.started (h'.started hs)
  low := h'.low

theorem deleteKey_shrinks (f : Fields) (l : ℕ) : Shrinks f (deleteKey f l) := by
  rw [deleteKey]
  split
  · exact .refl f (.inl rfl)
  · exact .refl f (.inr (.inl rfl))

theorem release_shrinks (f : Fields) (l : ℕ) : Shrinks f (release f l) := by
  rw [release]
  cases hl : f.leases[l]? with
  | none => exact .refl f (.inr (.inl rfl))
  | some x =>
    have hset : ∀ {renewal : Renewal} {here : At}, here.isLow →
        (x.renewal = renewal ∨ renewal = .cancelling ∧ here = .cancelling l) →
        Shrinks f (f.setLease l { x with lost := true, attached := false, renewal := renewal },
          here) := by
      intro renewal here hlow hrenewal
      refine ⟨.inl rfl, .inl rfl, .inl rfl, fun l' r hr => ?_, ⟨rfl, rfl⟩, id, hlow⟩
      rw [renewalIs_setLease] at hr
      split at hr
      · rename_i heq
        simp only [Bool.and_eq_true, decide_eq_true_eq] at hr
        rcases hrenewal with hx | ⟨hcancel, hhere⟩
        · left
          rw [← heq, Fields.renewalIs, hl, any_some]
          exact decide_eq_true (hx.trans hr.2)
        · exact .inr ⟨hr.2.symm.trans hcancel, hhere.trans (by rw [heq])⟩
      · exact .inl hr
    have hlost : Shrinks f
        (f.setLease l { x with lost := true, attached := false, renewal := x.renewal }, .closed) :=
      hset (.inr (.inl rfl)) (.inl rfl)
    have hdelete := hlost.trans (deleteKey_shrinks _ l) nofun
    dsimp only
    split
    · split
      · exact hset (.inl rfl) (.inr ⟨rfl, rfl⟩)
      · exact hset (.inr (.inr rfl)) (.inl (by assumption))
      · exact hdelete
    · exact hdelete

theorem releaseLease_shrinks (f : Fields) : Shrinks f (releaseLease f) := by
  rw [releaseLease]
  split
  · exact .refl f (.inr (.inl rfl))
  · have hclear : Shrinks f ({ f with lease := none }, .closed) :=
      ⟨.inl rfl, .inl rfl, .inr rfl, fun _ _ h => .inl h, ⟨rfl, rfl⟩, id, .inr (.inl rfl)⟩
    exact hclear.trans (release_shrinks _ _) nofun

theorem closeClient_shrinks (f : Fields) : Shrinks f (closeClient f) := by
  rw [closeClient]
  split
  · exact releaseLease_shrinks f
  · split
    · exact .refl f (.inl rfl)
    · have hclear : Shrinks f ({ f with client := none }, .closed) :=
        ⟨.inl rfl, .inr rfl, .inl rfl, fun _ _ h => .inl h, ⟨rfl, rfl⟩, id, .inr (.inl rfl)⟩
      exact hclear.trans (releaseLease_shrinks _) nofun

theorem unsubscribe_shrinks (f : Fields) : Shrinks f (unsubscribe f) := by
  rw [unsubscribe]
  split
  · exact .refl f (.inl rfl)
  · exact closeClient_shrinks f

theorem closeRuntime_shrinks (f : Fields) : Shrinks f (closeRuntime f) := by
  rw [closeRuntime]
  split
  · exact ⟨.inl rfl, .inl rfl, .inl rfl, fun _ _ h => .inl h, ⟨rfl, rfl⟩, nofun, .inl rfl⟩
  · exact unsubscribe_shrinks f

end Shrinks

/-- `_close_runtime` only clears fields. -/
theorem resumed_shrinks
    (hdown : here.isDown = true) (hresumed : resumed f here outcome = some code) :
    Shrinks f code := by
  cases resumes_of_resumed hresumed with
  | stops => exact unsubscribe_shrinks f
  | unsubscribes =>
    have hclear : Shrinks f ({ f with subscriptions := 0 }, .closed) :=
      ⟨.inr rfl, .inl rfl, .inl rfl, fun _ _ h => .inl h, ⟨rfl, rfl⟩, id, .inr (.inl rfl)⟩
    exact hclear.trans (closeClient_shrinks _) nofun
  | closes c =>
    have hclear : Shrinks f ({ f.setOpen c false with client := none }, .closed) :=
      ⟨.inl rfl, .inr rfl, .inl rfl, fun _ _ h => .inl h, ⟨rfl, rfl⟩, id, .inr (.inl rfl)⟩
    exact hclear.trans (releaseLease_shrinks _) nofun
  | closeRaises c =>
    exact ⟨.inl rfl, .inl rfl, .inl rfl, fun _ _ h => .inl h, ⟨rfl, rfl⟩, id, .inr (.inr rfl)⟩
  | cancels l hover => exact deleteKey_shrinks f l
  | deletes l =>
    refine ⟨.inl rfl, .inl rfl, .inl rfl, fun l' r hr => .inl ?_, ⟨rfl, rfl⟩, id, .inr (.inl rfl)⟩
    rw [renewalIs_setLease] at hr
    split at hr
    · rename_i heq
      subst heq
      rw [Bool.and_eq_true, decide_eq_true_eq] at hr
      have hx := List.getElem?_eq_getElem hr.1
      rw [Fields.renewalIs, hx, any_some]
      simpa only [hx, getD_some] using hr.2
    · exact hr
  | stopRaises | deleteRaises => exact .refl f (.inr (.inr rfl))
  | _ => cases hdown

variable {r : Renewal}

theorem renewalIs_concat_fresh (leases : List Lease) (hr : r ≠ .absent) (l : ℕ) :
    (((leases ++ [Lease.fresh])[l]?).any fun x => decide (x.renewal = r)) =
      (leases[l]?).any fun x => decide (x.renewal = r) := by
  by_cases hl : l = leases.length
  · subst hl
    simp [Lease.fresh, hr.symm]
  · rw [getElem?_concat_of_ne hl]

theorem acquireLease_renewal (hr : r ≠ .absent) {l : ℕ}
    (h : (acquireLease f).1.renewalIs r l = true) : f.renewalIs r l = true := by
  rw [acquireLease] at h
  split at h
  · rwa [Fields.renewalIs, renewalIs_concat_fresh _ hr] at h
  · exact h

theorem beginAttempt_renewal {redisEnabled : Bool} (hr : r ≠ .absent)
    {l : ℕ} (h : (beginAttempt redisEnabled f).1.renewalIs r l = true) :
    f.renewalIs r l = true := by
  rw [beginAttempt] at h
  split at h
  · exact h
  · split at h
    · split at h
      · exact h
      · exact acquireLease_renewal hr h
    · exact h

/-- **Renew tasks** that do not run are left alone, but for the one a release cancels and
then waits for. -/
theorem resumed_renewal
    (hresumed : resumed f here outcome = some code) (l : ℕ) (habsent : r ≠ .absent)
    (hrunning : r ≠ .running) (hr : code.1.renewalIs r l = true) :
    f.renewalIs r l = true ∨ r = .cancelling ∧ code.2 = .cancelling l := by
  cases hdown : here.isDown with
  | true => exact (resumed_shrinks hdown hresumed).renewal l r hr
  | false =>
    cases resumes_of_resumed hresumed with
    | redisConnects r =>
      have hrenewal := acquireLease_renewal habsent hr
      exact .inl hrenewal
    | leads l' =>
      have hset : (f.setLease l' .acquired).renewalIs r l = true := hr
      rw [renewalIs_setLease] at hset
      split at hset
      · simp [Lease.acquired, hrunning.symm] at hset
      · exact .inl hset
    | dialRaises | setupRaises | startRaises => exact (closeRuntime_shrinks f).renewal l r hr
    | redisRaises | follows | acquireRaises | dials | subscribes | starts => exact .inl hr
    | _ => cases hdown

end ServiceToolkit.Listener
