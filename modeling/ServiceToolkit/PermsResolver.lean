import Mathlib.Data.List.Dedup
import Mathlib.Data.List.MinMax
import Mathlib.Data.Rat.Init
import Mathlib.Algebra.Order.Ring.Rat
import ServiceToolkit.Dict

/-!
# The Platform Permission Resolver

`PlatformPermsResolver` answers "which permission bits does this user hold, globally or
in this tenant" from an in-process cache, refreshes an entry through a provider stub, and
drops entries when an invalidation arrives. Concurrent reads of one subject share a fetch
(`inflight`); a per-user epoch fences a fetch that was already running when its user was
invalidated, and that epoch is itself dropped once no fetch of the user runs
(`running`).

## The scheduler

The resolver lives on one event loop. An `Event` is what happens between two awaits:

* a caller enters `get` and runs to its first await, takes the lock, wakes up from the
  fetch it awaits, or is cancelled;
* a fetch task runs its first step, or the provider answers it, fails it or ends it with
  a cancellation;
* `invalidate_many` or `clear` runs (neither awaits).

Taking the lock is an event of its own, though the code never holds it across an await: the
model allows other events in between.

Cancelling a caller follows the loop's rule: a caller that directly awaits a task which
has not finished cancels that task; one that waits for the lock, or whose task has
finished already, sees the cancellation itself when it wakes up.

Calls and fetches are numbered in the order they start, and every cache entry carries the
number of the fetch that produced it (`CacheEntry.fetch`), which no branch reads. The
metrics counters are left out: nothing reads them.
-/

namespace ServiceToolkit.Perms

/-- A resolved subject: the user, and the tenant the answer was resolved for. `none` is
the global resolution, a key of its own. -/
abbrev SubjectKey := ℤ × Option ℤ

/-- What the resolver reads of a provider response; an attribute may be missing. -/
structure PermsResponse where
  bits : Option ℤ
  version : Option ℤ
  roles : Option (List String)
  maxRoleWeight : Option ℤ

/-- A cached answer. `fetch` is the number of the fetch that produced it. -/
structure CacheEntry where
  bits : ℤ
  version : ℤ
  roles : List String
  maxRoleWeight : ℤ
  fetchedAt : ℚ
  fetch : ℕ
deriving DecidableEq

/-- The snapshot returned to callers. -/
structure PlatformPerms where
  userId : ℤ
  bits : ℤ
  version : ℤ
  roles : List String
  maxRoleWeight : ℤ
deriving DecidableEq

/-- The snapshot of an entry for a user. -/
def PlatformPerms.ofEntry (uid : ℤ) (e : CacheEntry) : PlatformPerms where
  userId := uid
  bits := e.bits
  version := e.version
  roles := e.roles
  maxRoleWeight := e.maxRoleWeight

/-- The entry built from a response: missing attributes read as zero or no roles. -/
def CacheEntry.ofResponse (r : PermsResponse) (now : ℚ) (fetch : ℕ) : CacheEntry where
  bits := r.bits.getD 0
  version := r.version.getD 0
  roles := r.roles.getD []
  maxRoleWeight := r.maxRoleWeight.getD 0
  fetchedAt := now
  fetch := fetch

/-- How a fetch task ended. -/
inductive Outcome
  | entry (e : CacheEntry)
  | failed
  | cancelled
deriving DecidableEq

/-- Where a fetch task stands: created, awaiting the provider, or finished. -/
inductive FetchPhase
  | scheduled
  | calling
  | finished (o : Outcome)
deriving DecidableEq

/-- A task running `_fetch` for one subject. -/
structure Fetch where
  key : SubjectKey
  phase : FetchPhase
  cancelRequested : Bool
deriving DecidableEq

/-- How a call of `get` ended: with a snapshot, from the entry of the fetch named; with
an exception; or cancelled. -/
inductive Result
  | perms (p : PlatformPerms) (fetch : ℕ)
  | raised
  | cancelled
deriving DecidableEq

/-- Where a call of `get` stands: at the lock; awaiting a fetch another call created;
awaiting the fetch it created itself, with the epoch it read then; or ended. -/
inductive Phase
  | locking
  | joined (fetch : ℕ)
  | owner (fetch : ℕ) (epoch : ℕ)
  | done (r : Result)
deriving DecidableEq

/-- A call of `get`. -/
structure Call where
  key : SubjectKey
  phase : Phase
  mustCancel : Bool
deriving DecidableEq

/-- The constructor arguments the logic reads. -/
structure Config where
  ttl : ℚ
  maxEntries : ℤ

/-- The resolver's attributes, and the fetches and calls ever started. -/
structure State where
  cache : Dict SubjectKey CacheEntry
  inflight : Dict SubjectKey ℕ
  epochs : Dict ℤ ℕ
  running : Dict ℤ ℕ
  fetches : List Fetch
  calls : List Call

/-- A resolver as the constructor leaves it. -/
def State.initial : State where
  cache := .empty
  inflight := .empty
  epochs := .empty
  running := .empty
  fetches := []
  calls := []

/-- What can happen next. Readings of the monotonic clock are part of the event. -/
inductive Event
  | get (key : SubjectKey) (now : ℚ)
  | acquire (call : ℕ)
  | resume (call : ℕ)
  | cancel (call : ℕ)
  | start (fetch : ℕ)
  | answer (fetch : ℕ) (response : PermsResponse) (now : ℚ)
  | fail (fetch : ℕ)
  | abandon (fetch : ℕ)
  | invalidateMany (userIds : List ℤ)
  | clear

/-! ### Invalidation -/

/-- Move the epoch of every doomed user with a running fetch on. -/
def bumpEpochs (running epochs : Dict ℤ ℕ) (doomed : List ℤ) : Dict ℤ ℕ :=
  doomed.foldl
    (fun epochs uid =>
      if uid ∈ running.keys then epochs.set uid (epochs.getD uid 0 + 1) else epochs)
    epochs

/-- `invalidate_many`: fence the users' running fetches, drop their cached answers and
take their fetches out of the coalescing map. -/
def invalidateMany (s : State) (userIds : List ℤ) : State :=
  let doomed := userIds.dedup
  { s with
    epochs := bumpEpochs s.running s.epochs doomed
    cache := s.cache.filterKeys fun k => k.1 ∉ doomed
    inflight := s.inflight.filterKeys fun k => k.1 ∉ doomed }

/-- `clear`: every user with a cached answer or a running fetch. -/
def clear (s : State) : State :=
  { invalidateMany s ((s.cache.keys.map Prod.fst).dedup ∪ s.running.keys) with
    cache := .empty }

/-! ### Reading -/

/-- The oldest cached subject, the first of them in iteration order. -/
def oldest (cache : Dict SubjectKey CacheEntry) : Option SubjectKey :=
  (cache.entries.argmin fun e => e.2.fetchedAt).map Prod.fst

/-- `_store`: a new subject drops the oldest one when the cache is full. `none` is the
exception `min` raises on an empty cache. -/
def store (cfg : Config) (cache : Dict SubjectKey CacheEntry) (key : SubjectKey)
    (entry : CacheEntry) : Option (Dict SubjectKey CacheEntry) :=
  if key ∉ cache.keys ∧ cfg.maxEntries ≤ cache.size then
    (oldest cache).map fun k => (cache.erase k).set key entry
  else
    some (cache.set key entry)

/-- The entry `get` finds in the cache, if it is still within its time to live. -/
def cached (cfg : Config) (s : State) (key : SubjectKey) (now : ℚ) : Option CacheEntry :=
  (s.cache.get? key).filter fun e => now - e.fetchedAt < cfg.ttl

/-- `get` up to its first await: a cached answer, a fetch to join, or the lock. -/
def get (cfg : Config) (s : State) (key : SubjectKey) (now : ℚ) : State :=
  let phase :=
    match cached cfg s key now with
    | some e => .done (.perms (.ofEntry key.1 e) e.fetch)
    | none =>
      match s.inflight.get? key with
      | some f => .joined f
      | none => .locking
  { s with calls := s.calls ++ [⟨key, phase, false⟩] }

/-- Replace a call's phase. -/
def State.setPhase (s : State) (i : ℕ) (c : Call) (phase : Phase) : State :=
  { s with calls := s.calls.set i { c with phase := phase } }

/-- The lock body of `_fetch_and_cache`: join the fetch in flight, or create one, reading
the user's epoch and counting the fetch as running. -/
def lockBody (s : State) (i : ℕ) (c : Call) : State :=
  match s.inflight.get? c.key with
  | some f => s.setPhase i c (.joined f)
  | none =>
    let f := s.fetches.length
    let epoch := s.epochs.getD c.key.1 0
    { s.setPhase i c (.owner f epoch) with
      fetches := s.fetches ++ [⟨c.key, .scheduled, false⟩]
      inflight := s.inflight.set c.key f
      running := s.running.set c.key.1 (s.running.getD c.key.1 0 + 1) }

/-- What awaiting fetch `f` gives the call when it wakes up; `none` while the fetch has
not finished. -/
def awaited (s : State) (c : Call) (f : ℕ) : Option Outcome :=
  match s.fetches[f]? with
  | some ⟨_, .finished o, _⟩ => some (if c.mustCancel then .cancelled else o)
  | _ => none

/-- The result of a call whose awaited fetch gave `o`. -/
def Result.ofOutcome (uid : ℤ) : Outcome → Result
  | .entry e => .perms (.ofEntry uid e) e.fetch
  | .failed => .raised
  | .cancelled => .cancelled

/-- The `try` of `_fetch_and_cache` once the fetch gave `o`: the cache after it and the
call's result. An answer is stored only in the epoch its fetch was created in. -/
def settle (cfg : Config) (s : State) (key : SubjectKey) (epoch : ℕ) (o : Outcome) :
    Dict SubjectKey CacheEntry × Result :=
  match o with
  | .entry e =>
    if s.epochs.getD key.1 0 = epoch then
      match store cfg s.cache key e with
      | some cache => (cache, .ofOutcome key.1 o)
      | none => (s.cache, .raised)
    else (s.cache, .ofOutcome key.1 o)
  | _ => (s.cache, .ofOutcome key.1 o)

/-- The `finally` of `_fetch_and_cache`: take this fetch out of the coalescing map, and count it as
ended, with the `KeyError` as result should the user not be counted as running. -/
def finish (s : State) (key : SubjectKey) (f : ℕ) (r : Result) : State × Result :=
  let s := { s with
    inflight := if s.inflight.get? key = some f then s.inflight.erase key else s.inflight }
  match s.running.get? key.1 with
  | none => (s, .raised)
  | some n =>
    let remaining : ℤ := n - 1
    if remaining ≠ 0 then
      ({ s with running := s.running.set key.1 remaining.toNat }, r)
    else
      ({ s with running := s.running.erase key.1, epochs := s.epochs.erase key.1 }, r)

/-- The owner of fetch `f` wakes up with outcome `o`. -/
def closeFetch (cfg : Config) (s : State) (i : ℕ) (c : Call) (f epoch : ℕ) (o : Outcome) :
    State :=
  let settled := settle cfg s c.key epoch o
  let finished := finish { s with cache := settled.1 } c.key f settled.2
  finished.1.setPhase i c (.done finished.2)

/-- A call wakes up from the fetch it awaits. -/
def resume (cfg : Config) (s : State) (i : ℕ) (c : Call) : Option State :=
  match c.phase with
  | .joined f => (awaited s c f).map fun o => s.setPhase i c (.done (.ofOutcome c.key.1 o))
  | .owner f epoch => (awaited s c f).map fun o => closeFetch cfg s i c f epoch o
  | _ => none

/-! ### Cancellation -/

/-- The fetch a call awaits. -/
def Phase.awaits : Phase → Option ℕ
  | .joined f => some f
  | .owner f _ => some f
  | _ => none

/-- Cancel a call: the task it awaits when that has not finished, the call itself
otherwise. -/
def cancel (s : State) (i : ℕ) (c : Call) : State :=
  match c.phase.awaits.bind fun f => (s.fetches[f]?).map (Prod.mk f) with
  | some (f, ⟨key, .scheduled, _⟩) =>
    { s with fetches := s.fetches.set f ⟨key, .scheduled, true⟩ }
  | some (f, ⟨key, .calling, _⟩) =>
    { s with fetches := s.fetches.set f ⟨key, .calling, true⟩ }
  | _ => { s with calls := s.calls.set i { c with mustCancel := true } }

/-! ### The step function -/

/-- Move fetch `f` from one of its unfinished phases to another phase. -/
def moveFetch (s : State) (f : ℕ) (next : Fetch → Option FetchPhase) : Option State := do
  let x ← s.fetches[f]?
  let phase ← next x
  pure { s with fetches := s.fetches.set f { x with phase := phase } }

/-- The first step of `_fetch`: a cancellation requested before it ends the task without
running the body. -/
def Fetch.started (x : Fetch) : Option FetchPhase :=
  match x.phase with
  | .scheduled => some (if x.cancelRequested then .finished .cancelled else .calling)
  | _ => none

/-- The end of `_fetch` while it awaits the provider. -/
def Fetch.ended (o : Outcome) (x : Fetch) : Option FetchPhase :=
  match x.phase with
  | .calling => some (.finished o)
  | _ => none

/-- One event of the loop. -/
def step (cfg : Config) (s : State) : Event → Option State
  | .get key now => some (get cfg s key now)
  | .acquire i => do
      let c ← s.calls[i]?
      match c.phase with
      | .locking =>
        if c.mustCancel then some (s.setPhase i c (.done .cancelled))
        else some (lockBody s i c)
      | _ => none
  | .resume i => do resume cfg s i (← s.calls[i]?)
  | .cancel i => do pure (cancel s i (← s.calls[i]?))
  | .start f => moveFetch s f Fetch.started
  | .answer f r now => moveFetch s f (Fetch.ended (.entry (.ofResponse r now f)))
  | .fail f => moveFetch s f (Fetch.ended .failed)
  | .abandon f => moveFetch s f (Fetch.ended .cancelled)
  | .invalidateMany uids => some (invalidateMany s uids)
  | .clear => some (clear s)

/-- The events that invalidate a user: an `invalidate_many` that names them, and
`clear`. -/
def Event.Invalidates (uid : ℤ) : Event → Prop
  | .invalidateMany uids => uid ∈ uids
  | .clear => True
  | _ => False

instance Event.decidableInvalidates (uid : ℤ) : ∀ e, Decidable (Event.Invalidates uid e)
  | .invalidateMany uids => inferInstanceAs (Decidable (uid ∈ uids))
  | .clear => isTrue trivial
  | .get _ _ | .acquire _ | .resume _ | .cancel _ | .start _ | .answer _ _ _ | .fail _
  | .abandon _ => isFalse id

end ServiceToolkit.Perms
