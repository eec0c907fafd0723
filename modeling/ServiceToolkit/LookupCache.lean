import Mathlib.Data.Rat.Floor
import ServiceToolkit.Runs

/-!
# The Lookup Cache

`LookupCache` answers lookups from a local layer, from Redis, or from a loader, and fills the
layers on the way. Concurrent `get` calls of a key share one load task (`inflight`); `set`
writes both layers, `invalidate` drops both. The model is about one key: keys share nothing
but the bound on the local layer, through which the store of another key may push this key
out (`dropLocal`).

## The scheduler

An `Event` is what happens between two suspensions of a coroutine, or outside of the cache.
The cache's own lock is never held across an await, so it is always free, and taking a free
lock does not suspend: storing, dropping and reading the local layer are each a part of a
larger step. What suspends is an exchange with Redis (sending, being executed at the server,
and the reply or an error are three moments), the loader, the wait for the semaphore in front of
it, the sleep between two looks at Redis, the wait of a `get` for its task, and a task that has
just been created. A write that its sender gave up, after an error or by a cancellation, stays on
the wire and may be executed at any later moment (`late`).

Events carry what the code reads from outside: answers, errors, and the random draws of the
TTL jitter. Expiry is an event of its own (`dropLocal`, `dropRedis`).

## Stamps

`now` counts events. A value carries the moment at which the loader call or the Redis read it
was obtained by began (`since`, the earlier if both), and none when it was given to `set`. No
branch reads it.
-/

namespace ServiceToolkit.Cache

open Option

/-- `CacheMode`. -/
inductive CacheMode
  | local
  | redis
  | hybrid
  deriving DecidableEq

/-- `RedisFailureMode`. -/
inductive RedisFailureMode
  | localFallback
  | bypass
  | raise
  deriving DecidableEq

/-! ### Configuration -/

/-- A draw of `random.uniform(0.0, 1.0)`; `uniform(0.0, limit)` is `limit` times a draw. -/
abbrev Draw := { u : ℚ // 0 ≤ u ∧ u ≤ 1 }

/-- The draw without jitter. -/
def noJitter : Draw := ⟨0, by norm_num⟩

/-- The settings the modelled functions read. The constructor refuses `LOCAL_FALLBACK` with
Redis and without a local layer. -/
structure Config (V : Type*) where
  mode : CacheMode
  localTtlSeconds : ℚ
  emptyTtlSeconds : ℚ
  localTtlJitterRatio : ℚ
  localTtlJitterMaxSeconds : Option ℚ
  redisTtlSeconds : ℤ
  redisEmptyTtlSeconds : ℤ
  redisTtlJitterRatio : ℚ
  redisTtlJitterMaxSeconds : Option ℤ
  redisWaitTimeoutSeconds : ℚ
  redisFailureMode : RedisFailureMode
  isEmpty : V → Bool
  fallback_local : redisFailureMode = .localFallback → mode ≠ .local →
    mode = .hybrid ∧ 0 < localTtlSeconds

/-- A cache of numbers in a mode, with the default TTLs and without jitter. -/
def defaultCache (mode : CacheMode) (hmode : mode ≠ .redis) : Config ℕ where
  mode := mode
  localTtlSeconds := 300
  emptyTtlSeconds := 300
  localTtlJitterRatio := 0
  localTtlJitterMaxSeconds := none
  redisTtlSeconds := 60
  redisEmptyTtlSeconds := 60
  redisTtlJitterRatio := 0
  redisTtlJitterMaxSeconds := none
  redisWaitTimeoutSeconds := 2
  redisFailureMode := .localFallback
  isEmpty := fun _ => false
  fallback_local := by
    intro _ hlocal
    cases mode with
    | «local» => exact absurd rfl hlocal
    | redis => exact absurd rfl hmode
    | hybrid => exact ⟨rfl, by norm_num⟩

variable {V : Type*}

/-- `local_enabled`. -/
def Config.localEnabled (c : Config V) : Bool :=
  (c.mode == .local || c.mode == .hybrid) && decide (0 < c.localTtlSeconds)

/-- `redis_enabled`. -/
def Config.redisEnabled (c : Config V) : Bool := c.mode == .redis || c.mode == .hybrid

/-- The jitter both TTL functions take off a TTL. -/
def jitter (ttlSeconds ratio : ℚ) (maxJitterSeconds : Option ℚ) (u : Draw) : ℚ :=
  let jitterLimit := max 0 (ttlSeconds * ratio)
  u.1 * maxJitterSeconds.elim jitterLimit (min jitterLimit)

/-- `_ttl_with_jitter_seconds`. -/
def ttlWithJitterSeconds (ttlSeconds ratio : ℚ) (maxJitterSeconds : Option ℚ) (u : Draw) : ℚ :=
  if ttlSeconds ≤ 0 ∨ ratio ≤ 0 then ttlSeconds
  else max 0 (ttlSeconds - jitter ttlSeconds ratio maxJitterSeconds u)

/-- `ttl_with_jitter`. -/
def ttlWithJitter (ttlSeconds : ℤ) (ratio : ℚ) (maxJitterSeconds : Option ℤ) (u : Draw) : ℤ :=
  if ttlSeconds ≤ 0 ∨ ratio ≤ 0 then ttlSeconds
  else max 1 ⌊ttlSeconds - jitter ttlSeconds ratio (maxJitterSeconds.map (↑)) u⌋

/-- `_effective_local_ttl`. -/
def Config.effectiveLocalTtl (c : Config V) (value : V) (u : Draw) : ℚ :=
  ttlWithJitterSeconds (if c.isEmpty value then c.emptyTtlSeconds else c.localTtlSeconds)
    c.localTtlJitterRatio c.localTtlJitterMaxSeconds u

/-- `_effective_redis_ttl`. -/
def Config.effectiveRedisTtl (c : Config V) (value : V) (u : Draw) : ℤ :=
  ttlWithJitter (if c.isEmpty value then c.redisEmptyTtlSeconds else c.redisTtlSeconds)
    c.redisTtlJitterRatio c.redisTtlJitterMaxSeconds u

/-! ### The two layers -/

/-- A value, and the moment at which the loader call or Redis read it was obtained by began. -/
structure Stamped (V : Type*) where
  value : V
  since : Option ℕ
  deriving DecidableEq

/-- A value that came out of a Redis read which began at a moment. -/
def Stamped.readSince (v : Stamped V) (readSince : ℕ) : Stamped V :=
  { v with since := some (v.since.elim readSince (min readSince)) }

/-- What the two layers hold for the key. -/
structure Layers (V : Type*) where
  entry : Option (Stamped V)
  redis : Option (Stamped V)
  deriving DecidableEq

/-- `_peek_local` and `_get_local_unlocked`; an expired entry has been dropped. -/
def Layers.peekLocal (c : Config V) (layers : Layers V) : Option (Stamped V) :=
  if c.localEnabled then layers.entry else none

/-- `_store_local`: nothing is stored, and nothing dropped, for a TTL that is not positive. -/
def Layers.storeLocal (c : Config V) (layers : Layers V) (v : Stamped V) (u : Draw) :
    Layers V :=
  if c.localEnabled ∧ 0 < c.effectiveLocalTtl v.value u then { layers with entry := some v }
  else layers

/-- What the server answers to a `GET`. -/
def Layers.readRedis (c : Config V) (layers : Layers V) : Option (Stamped V) :=
  if c.redisEnabled then layers.redis else none

/-- `_set_redis` sends a `SET` for the value. -/
def Config.writesRedis (c : Config V) (v : Stamped V) (u : Draw) : Bool :=
  c.redisEnabled && decide (0 < c.effectiveRedisTtl v.value u)

/-! ### The load task -/

/-- How a coroutine ended. -/
inductive Outcome (V : Type*)
  | value (v : Stamped V)
  | failed
  | cancelled
  deriving DecidableEq

/-- Where `_load_uncached` called `_get_redis`: at its start, under the Redis lock, in the loop
of `_wait_for_redis_fill`, or in the `RAISE` branch of `_load_without_redis`. -/
inductive ReadSite
  | first
  | locked
  | fill
  | withoutRedis
  deriving DecidableEq

/-- Where `_load_uncached` called the loader: in a cache without Redis, under the Redis lock,
after waiting for another holder of the lock, or in `_load_without_redis`. -/
inductive LoadSite
  | local
  | locked
  | unlocked
  | withoutRedis
  deriving DecidableEq

/-- Where a load task is suspended. A request to Redis carries what the server answered once
it was executed there. -/
inductive LoadPhase (V : Type*)
  | created
  | reading (site : ReadSite) (since : ℕ) (reply : Option (Option (Stamped V)))
  | locking
  | sleeping
  | queued (site : LoadSite)
  | loading (site : LoadSite) (since : ℕ)
  | writing (site : LoadSite) (v : Stamped V) (executed : Bool)
  | releasing (outcome : Outcome V)
  | finished (outcome : Outcome V)
  deriving DecidableEq

/-- What the suspended task is resumed with. -/
inductive LoadEvent (V : Type*)
  | start
  /-- The server executes the request. -/
  | execute
  /-- The reply to a `GET` arrives and is decoded, or not. -/
  | readReply (ok : Bool) (localDraw : Draw)
  | lockReply (acquired : Bool)
  | lockFails
  | wake
  | deadline
  /-- The semaphore is free: the loader is called. -/
  | callLoader
  | loaderReply (answer : Option V) (localDraw redisDraw : Draw)
  | writeReply (ok : Bool)
  | releaseReply (ok : Bool)
  | cancelled
  deriving DecidableEq

/-- Leaving the body of `_load_uncached`: under the Redis lock through the `finally` that
releases it. -/
def leave (locked : Bool) (outcome : Outcome V) : LoadPhase V :=
  if locked then .releasing outcome else .finished outcome

/-- `_load_uncached` after `_get_redis`. -/
def afterRead (c : Config V) (layers : Layers V) (u : Draw) :
    ReadSite → Option (Stamped V) → Layers V × LoadPhase V
  | .first, some v => (layers.storeLocal c v u, .finished (.value v))
  | .first, none => (layers, if c.redisEnabled then .locking else .queued .local)
  | .locked, some v => (layers.storeLocal c v u, .releasing (.value v))
  | .locked, none => (layers, .queued .locked)
  | .fill, some v => (layers.storeLocal c v u, .finished (.value v))
  | .fill, none => (layers, .sleeping)
  | .withoutRedis, some v => (layers, .finished (.value v))
  | .withoutRedis, none => (layers, .finished .failed)

/-- `_load_uncached` after the loader's value: the local layer is filled, and then Redis unless
the load goes on without it. -/
def afterLoad (c : Config V) (layers : Layers V) (v : Stamped V) (u w : Draw) :
    LoadSite → Layers V × LoadPhase V
  | .local | .withoutRedis => (layers.storeLocal c v u, .finished (.value v))
  | .locked =>
    (layers.storeLocal c v u,
      if c.writesRedis v w then .writing .locked v false else .releasing (.value v))
  | .unlocked =>
    (layers.storeLocal c v u,
      if c.writesRedis v w then .writing .unlocked v false else .finished (.value v))

/-- The task holds the Redis lock. -/
def LoadPhase.locked : LoadPhase V → Bool
  | .reading .locked _ _ | .queued .locked | .loading .locked _ | .writing .locked _ _ => true
  | _ => false

/-- `_load_uncached` from one suspension to the next, with the layers before and after. -/
def loadStep (c : Config V) (now : ℕ) (layers : Layers V) :
    LoadPhase V → LoadEvent V → Option (Layers V × LoadPhase V)
  | .created, .start =>
    if c.redisEnabled then some (layers, .reading .first now none)
    else some (layers, .queued .local)
  | .reading site since none, .execute =>
    some (layers, .reading site since
      (some ((layers.readRedis c).map (Stamped.readSince · since))))
  | .reading site _ (some reply), .readReply true u => some (afterRead c layers u site reply)
  | .reading site since reply, .readReply false u =>
    if c.redisFailureMode = .raise then
      some (layers, leave (LoadPhase.reading site since reply).locked .failed)
    else some (afterRead c layers u site none)
  | .locking, .lockReply true => some (layers, .reading .locked now none)
  | .locking, .lockReply false =>
    some (layers, if c.redisWaitTimeoutSeconds ≤ 0 then .queued .unlocked else .sleeping)
  | .locking, .lockFails =>
    some (layers, if c.redisFailureMode = .raise then .reading .withoutRedis now none
      else .queued .withoutRedis)
  | .sleeping, .wake => some (layers, .reading .fill now none)
  | .sleeping, .deadline => some (layers, .queued .unlocked)
  | .queued site, .callLoader => some (layers, .loading site now)
  | .loading site since, .loaderReply (some value) u w =>
    some (afterLoad c layers ⟨value, some since⟩ u w site)
  | .loading site since, .loaderReply none _ _ =>
    some (layers, leave (LoadPhase.loading (V := V) site since).locked .failed)
  | .writing site v false, .execute =>
    some ({ layers with redis := some v }, .writing site v true)
  | .writing site v true, .writeReply true =>
    some (layers, leave (LoadPhase.writing site v true).locked (.value v))
  | .writing site v executed, .writeReply false =>
    some (layers, leave (LoadPhase.writing site v executed).locked
      (if c.redisFailureMode = .raise then .failed else .value v))
  | .releasing outcome, .releaseReply ok =>
    some (layers, .finished
      (if !ok ∧ c.redisFailureMode = .raise then .failed else outcome))
  | .finished _, .cancelled => none
  | phase, .cancelled => some (layers, leave phase.locked .cancelled)
  | _, _ => none

/-- What a write leaves on the wire when it is given up. -/
def onWire (content : Option (Stamped V)) (executed : Bool) : List (Option (Stamped V)) :=
  if executed then [] else [content]

/-- What a load task gives up with a step. -/
def LoadPhase.givenUp : LoadPhase V → LoadEvent V → List (Option (Stamped V))
  | .writing _ v executed, .writeReply false | .writing _ v executed, .cancelled =>
    onWire (some v) executed
  | _, _ => []

/-- A load task. -/
structure Load (V : Type*) where
  createdAt : ℕ
  phase : LoadPhase V
  cancelRequested : Bool
  deriving DecidableEq

/-- How a load task ended, once it has. -/
def Load.outcome (load : Load V) : Option (Outcome V) :=
  match load.phase with
  | .finished outcome => some outcome
  | _ => none

theorem outcome_eq_some {load : Load V} {outcome : Outcome V} :
    load.outcome = some outcome ↔ load.phase = .finished outcome := by
  obtain ⟨createdAt, phase, cancelRequested⟩ := load
  cases phase <;> simp [Load.outcome]

theorem loadStep_finished {c : Config V} {now : ℕ} {layers : Layers V} (outcome : Outcome V)
    (e : LoadEvent V) : loadStep c now layers (.finished outcome) e = none := by
  cases e <;> rfl

theorem outcome_of_loadStep {c : Config V} {now : ℕ} {layers : Layers V} {load : Load V}
    {e : LoadEvent V} {r : Layers V × LoadPhase V}
    (hstep : loadStep c now layers load.phase e = some r) : load.outcome = none := by
  cases houtcome : load.outcome with
  | none => rfl
  | some outcome =>
    rw [outcome_eq_some.mp houtcome, loadStep_finished] at hstep
    cases hstep

/-- A task whose cancellation was requested is resumed with it; the loader may swallow it and
answer. The server is not concerned. -/
def LoadEvent.possible (e : LoadEvent V) (cancelRequested : Bool) : Bool :=
  match e with
  | .execute | .loaderReply _ _ _ => true
  | .cancelled => cancelRequested
  | _ => !cancelRequested

/-- The request to cancel is pending until the task is resumed. -/
def LoadEvent.pending (e : LoadEvent V) (cancelRequested : Bool) : Bool :=
  match e with
  | .execute => cancelRequested
  | _ => false

/-! ### Calls -/

/-- Where a `get` or `get_cached` call is: awaiting the load task it joined or created (with
its own cancellation pending once the task has finished), reading Redis, or ended. -/
inductive CallPhase (V : Type*)
  | awaiting (load : ℕ) (created cancelRequested : Bool)
  | reading (reply : Option (Option (Stamped V)))
  | returned (v : Option (Stamped V))
  | failed
  | cancelled
  deriving DecidableEq

/-- A `get` or `get_cached` call. -/
structure Call (V : Type*) where
  startedAt : ℕ
  phase : CallPhase V
  deriving DecidableEq

/-- What `await task` does in the caller. -/
def Outcome.toCall : Outcome V → CallPhase V
  | .value v => .returned (some v)
  | .failed => .failed
  | .cancelled => .cancelled

/-- Where a `set` or `invalidate` call is: its `SET` or `DEL` (the content it leaves in Redis)
is on its way, or it ended, at a moment. -/
inductive OpPhase (V : Type*)
  | sending (content : Option (Stamped V)) (executed : Bool)
  | done (at_ : ℕ)
  | failed
  deriving DecidableEq

/-- The call raised. -/
def OpPhase.isFailed : OpPhase V → Bool
  | .failed => true
  | _ => false

/-- A `set` or `invalidate` call. -/
structure Op (V : Type*) where
  startedAt : ℕ
  phase : OpPhase V
  deriving DecidableEq

/-- The cache on one key, every call made on it, the writes to Redis that were given up, by the
content they leave there, and the count of events. -/
structure State (V : Type*) where
  now : ℕ
  layers : Layers V
  inflight : Option ℕ
  loads : List (Load V)
  calls : List (Call V)
  ops : List (Op V)
  strays : List (Option (Stamped V))
  deriving DecidableEq

/-- A fresh cache; Redis may hold anything. -/
def State.initial (redis : Option (Stamped V)) : State V :=
  ⟨0, ⟨none, redis⟩, none, [], [], [], []⟩

/-- What can happen next. -/
inductive Event (V : Type*)
  | get
  | resume (call : ℕ)
  | cancel (call : ℕ)
  | getCached
  | executeRead (call : ℕ)
  | readReply (call : ℕ) (ok : Bool) (localDraw : Draw)
  | set (value : V) (localDraw redisDraw : Draw)
  | invalidate
  | executeOp (op : ℕ)
  | opReply (op : ℕ) (ok : Bool)
  | cancelOp (op : ℕ)
  | late (stray : ℕ)
  | clearLocal
  | load (task : ℕ) (e : LoadEvent V)
  | dropLocal
  | dropRedis
  | otherWrites (value : V)
  deriving DecidableEq

/-- A call starts. -/
def State.addCall (s : State V) (phase : CallPhase V) : State V :=
  { s with calls := s.calls ++ [⟨s.now, phase⟩] }

/-- A call moves on. -/
def State.setCall (s : State V) (i startedAt : ℕ) (phase : CallPhase V) : State V :=
  { s with calls := s.calls.set i ⟨startedAt, phase⟩ }

/-- A `set` or `invalidate` starts, with the layers as its first part leaves them. -/
def State.addOp (s : State V) (layers : Layers V) (phase : OpPhase V) : State V :=
  { s with layers := layers, ops := s.ops ++ [⟨s.now, phase⟩] }

/-- A write to Redis is given up. -/
def State.giveUp (s : State V) (contents : List (Option (Stamped V))) : State V :=
  { s with strays := s.strays ++ contents }

/-- A `set` or `invalidate` moves on. -/
def State.setOp (s : State V) (i startedAt : ℕ) (phase : OpPhase V) : State V :=
  { s with ops := s.ops.set i ⟨startedAt, phase⟩ }

/-- `get` as far as its first suspension. -/
def startGet (c : Config V) (s : State V) : State V :=
  match s.layers.peekLocal c with
  | some v => s.addCall (.returned (some v))
  | none =>
    match s.inflight with
    | some i => s.addCall (.awaiting i false false)
    | none =>
      let s₁ : State V :=
        { s with
          loads := s.loads ++ [⟨s.now, .created, false⟩]
          inflight := some s.loads.length }
      s₁.addCall (.awaiting s.loads.length true false)

/-- `get_cached` as far as its first suspension. -/
def startGetCached (c : Config V) (s : State V) : State V :=
  match s.layers.peekLocal c with
  | some v => s.addCall (.returned (some v))
  | none => s.addCall (if c.redisEnabled then .reading none else .returned none)

/-- `get_cached` after `_get_redis`. -/
def afterReadCached (c : Config V) (s : State V) (i startedAt : ℕ) (u : Draw) :
    Option (Stamped V) → State V
  | some v =>
    { s with layers := s.layers.storeLocal c v u }.setCall i startedAt (.returned (some v))
  | none => s.setCall i startedAt (.returned none)

/-- `set` as far as its first suspension. -/
def startSet (c : Config V) (s : State V) (v : Stamped V) (u w : Draw) : State V :=
  s.addOp (s.layers.storeLocal c v u)
    (if c.writesRedis v w then .sending (some v) false else .done s.now)

/-- `invalidate` as far as its first suspension. -/
def startInvalidate (c : Config V) (s : State V) : State V :=
  s.addOp { s.layers with entry := none }
    (if c.redisEnabled then .sending none false else .done s.now)

/-- A coroutine between two suspensions, the server, or another client of it. -/
def act (c : Config V) (s : State V) : Event V → Option (State V)
  | .get => some (startGet c s)
  | .resume i =>
    match s.calls[i]? with
    | some ⟨startedAt, .awaiting j created cancelRequested⟩ =>
      match s.loads[j]?.bind Load.outcome with
      | some outcome =>
        some ({ s with
          inflight := if created ∧ s.inflight = some j then none else s.inflight }.setCall
            i startedAt (if cancelRequested then .cancelled else outcome.toCall))
      | none => none
    | _ => none
  | .cancel i =>
    match s.calls[i]? with
    | some ⟨startedAt, .awaiting j created _⟩ =>
      match s.loads[j]? with
      | some load =>
        if load.outcome.isSome then
          some (s.setCall i startedAt (.awaiting j created true))
        else some { s with loads := s.loads.set j { load with cancelRequested := true } }
      | none => none
    | some ⟨startedAt, .reading _⟩ => some (s.setCall i startedAt .cancelled)
    | _ => none
  | .getCached => some (startGetCached c s)
  | .executeRead i =>
    match s.calls[i]? with
    | some ⟨startedAt, .reading none⟩ =>
      some (s.setCall i startedAt (.reading
        (some ((s.layers.readRedis c).map (Stamped.readSince · startedAt)))))
    | _ => none
  | .readReply i true u =>
    match s.calls[i]? with
    | some ⟨startedAt, .reading (some reply)⟩ => some (afterReadCached c s i startedAt u reply)
    | _ => none
  | .readReply i false u =>
    match s.calls[i]? with
    | some ⟨startedAt, .reading _⟩ =>
      if c.redisFailureMode = .raise then some (s.setCall i startedAt .failed)
      else some (afterReadCached c s i startedAt u none)
    | _ => none
  | .set value u w => some (startSet c s ⟨value, none⟩ u w)
  | .invalidate => some (startInvalidate c s)
  | .executeOp i =>
    match s.ops[i]? with
    | some ⟨startedAt, .sending content false⟩ =>
      some ({ s with layers := { s.layers with redis := content } }.setOp i startedAt
        (.sending content true))
    | _ => none
  | .opReply i true =>
    match s.ops[i]? with
    | some ⟨startedAt, .sending _ true⟩ => some (s.setOp i startedAt (.done s.now))
    | _ => none
  | .opReply i false =>
    match s.ops[i]? with
    | some ⟨startedAt, .sending content executed⟩ =>
      some ((s.giveUp (onWire content executed)).setOp i startedAt
        (if c.redisFailureMode = .raise then .failed else .done s.now))
    | _ => none
  | .cancelOp i =>
    match s.ops[i]? with
    | some ⟨startedAt, .sending content executed⟩ =>
      some ((s.giveUp (onWire content executed)).setOp i startedAt .failed)
    | _ => none
  | .late i =>
    match s.strays[i]? with
    | some content =>
      some { s with layers := { s.layers with redis := content }, strays := s.strays.eraseIdx i }
    | none => none
  | .clearLocal => some { s with layers := { s.layers with entry := none } }
  | .load i e =>
    match s.loads[i]? with
    | some load =>
      if e.possible load.cancelRequested then
        (loadStep c s.now s.layers load.phase e).map fun (layers, phase) =>
          { s with
            layers := layers
            loads := s.loads.set i
              { load with
                phase := phase
                cancelRequested := e.pending load.cancelRequested }
            strays := s.strays ++ load.phase.givenUp e }
      else none
    | none => none
  | .dropLocal => some { s with layers := { s.layers with entry := none } }
  | .dropRedis => some { s with layers := { s.layers with redis := none } }
  | .otherWrites value => some { s with layers := { s.layers with redis := some ⟨value, none⟩ } }

/-- **What an event does**: the event, what it finds in the state, and the state it leaves.
Invariants are proved by cases on this, and `act` is taken apart once (`act_effect`). -/
inductive Effect (c : Config V) (s : State V) : Event V → State V → Prop
  | get : Effect c s .get (startGet c s)
  | resume {i startedAt j : ℕ} {created cancelRequested outcome}
      (hi : s.calls[i]? = some ⟨startedAt, .awaiting j created cancelRequested⟩)
      (hj : s.loads[j]?.bind Load.outcome = some outcome) :
      Effect c s (.resume i) ({ s with
        inflight := if created ∧ s.inflight = some j then none else s.inflight }.setCall
          i startedAt (if cancelRequested then .cancelled else outcome.toCall))
  | cancelAwaiting {i startedAt j : ℕ} {created cancelRequested load}
      (hi : s.calls[i]? = some ⟨startedAt, .awaiting j created cancelRequested⟩)
      (hj : s.loads[j]? = some load) (hended : load.outcome.isSome = true) :
      Effect c s (.cancel i) (s.setCall i startedAt (.awaiting j created true))
  | cancelLoad {i startedAt j : ℕ} {created cancelRequested load}
      (hi : s.calls[i]? = some ⟨startedAt, .awaiting j created cancelRequested⟩)
      (hj : s.loads[j]? = some load) (hrunning : ¬ load.outcome.isSome = true) :
      Effect c s (.cancel i)
        { s with loads := s.loads.set j { load with cancelRequested := true } }
  | cancelReading {i startedAt : ℕ} {reply}
      (hi : s.calls[i]? = some ⟨startedAt, .reading reply⟩) :
      Effect c s (.cancel i) (s.setCall i startedAt .cancelled)
  | getCached : Effect c s .getCached (startGetCached c s)
  | executeRead {i startedAt : ℕ} (hi : s.calls[i]? = some ⟨startedAt, .reading none⟩) :
      Effect c s (.executeRead i) (s.setCall i startedAt (.reading
        (some ((s.layers.readRedis c).map (Stamped.readSince · startedAt)))))
  | readReply {i startedAt : ℕ} {reply} (u : Draw)
      (hi : s.calls[i]? = some ⟨startedAt, .reading (some reply)⟩) :
      Effect c s (.readReply i true u) (afterReadCached c s i startedAt u reply)
  | readRaises {i startedAt : ℕ} {reply} (u : Draw)
      (hi : s.calls[i]? = some ⟨startedAt, .reading reply⟩) :
      Effect c s (.readReply i false u) (s.setCall i startedAt .failed)
  | readFails {i startedAt : ℕ} {reply} (u : Draw)
      (hi : s.calls[i]? = some ⟨startedAt, .reading reply⟩) :
      Effect c s (.readReply i false u) (afterReadCached c s i startedAt u none)
  | set (value : V) (u w : Draw) :
      Effect c s (.set value u w) (startSet c s ⟨value, none⟩ u w)
  | invalidate : Effect c s .invalidate (startInvalidate c s)
  | executeOp {i startedAt : ℕ} {content}
      (hi : s.ops[i]? = some ⟨startedAt, .sending content false⟩) :
      Effect c s (.executeOp i) ({ s with layers := { s.layers with redis := content } }.setOp i
        startedAt (.sending content true))
  | opReply {i startedAt : ℕ} {content}
      (hi : s.ops[i]? = some ⟨startedAt, .sending content true⟩) :
      Effect c s (.opReply i true) (s.setOp i startedAt (.done s.now))
  | opFails {i startedAt : ℕ} {content executed}
      (hi : s.ops[i]? = some ⟨startedAt, .sending content executed⟩) :
      Effect c s (.opReply i false) ((s.giveUp (onWire content executed)).setOp i startedAt
        (if c.redisFailureMode = .raise then .failed else .done s.now))
  | cancelOp {i startedAt : ℕ} {content executed}
      (hi : s.ops[i]? = some ⟨startedAt, .sending content executed⟩) :
      Effect c s (.cancelOp i) ((s.giveUp (onWire content executed)).setOp i startedAt .failed)
  | late {i : ℕ} {content} (hi : s.strays[i]? = some content) :
      Effect c s (.late i) { s with
        layers := { s.layers with redis := content }, strays := s.strays.eraseIdx i }
  | clearLocal : Effect c s .clearLocal { s with layers := { s.layers with entry := none } }
  | load {i : ℕ} {e load r}
      (hi : s.loads[i]? = some load) (hpossible : e.possible load.cancelRequested = true)
      (hr : loadStep c s.now s.layers load.phase e = some r) :
      Effect c s (.load i e) { s with
        layers := r.1
        loads := s.loads.set i ⟨load.createdAt, r.2, e.pending load.cancelRequested⟩
        strays := s.strays ++ load.phase.givenUp e }
  | dropLocal : Effect c s .dropLocal { s with layers := { s.layers with entry := none } }
  | dropRedis : Effect c s .dropRedis { s with layers := { s.layers with redis := none } }
  | otherWrites (value : V) : Effect c s (.otherWrites value)
      { s with layers := { s.layers with redis := some ⟨value, none⟩ } }

theorem act_effect {c : Config V} {s s' : State V} {e : Event V} (hact : act c s e = some s') :
    Effect c s e s' := by
  cases e with
  | get | getCached | set | invalidate | clearLocal | dropLocal | dropRedis | otherWrites =>
    cases hact
    constructor
  | executeRead | executeOp | cancelOp | late =>
    simp only [act] at hact
    split at hact
    · cases hact
      constructor
      assumption
    · cases hact
  | resume i =>
    simp only [act] at hact
    split at hact
    · rename_i hi
      split at hact
      · rename_i hj
        cases hact
        exact .resume hi hj
      · cases hact
    · cases hact
  | cancel i =>
    simp only [act] at hact
    split at hact
    · rename_i hi
      split at hact
      · rename_i hj
        split at hact
        · rename_i hended
          cases hact
          exact .cancelAwaiting hi hj hended
        · rename_i hrunning
          cases hact
          exact .cancelLoad hi hj hrunning
      · cases hact
    · rename_i hi
      cases hact
      exact .cancelReading hi
    · cases hact
  | readReply i ok u =>
    cases ok <;> simp only [act] at hact <;> split at hact
    · rename_i hi
      split at hact
      · cases hact
        exact .readRaises u hi
      · cases hact
        exact .readFails u hi
    · cases hact
    · rename_i hi
      cases hact
      exact .readReply u hi
    · cases hact
  | opReply i ok =>
    cases ok <;> simp only [act] at hact <;> split at hact
    · rename_i hi
      cases hact
      exact .opFails hi
    · cases hact
    · rename_i hi
      cases hact
      exact .opReply hi
    · cases hact
  | load i e =>
    simp only [act] at hact
    split at hact
    · rename_i hi
      split at hact
      · rename_i hpossible
        obtain ⟨r, hr, rfl⟩ := map_eq_some_iff.mp hact
        exact .load hi hpossible hr
      · cases hact
    · cases hact

/-- One event. -/
def step (c : Config V) (s : State V) (e : Event V) : Option (State V) :=
  (act c s e).map fun s' => { s' with now := s'.now + 1 }

end ServiceToolkit.Cache
