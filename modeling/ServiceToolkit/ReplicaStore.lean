import Mathlib.Data.Rat.Init
import Mathlib.Algebra.Order.Ring.Rat
import ServiceToolkit.Dict
import ServiceToolkit.Runs

/-!
# The Snapshot Store and Its Own Writes

`RedisReplicaStore` keeps snapshots in local memory, in the order they were written, each
with a time of expiry, and copies them to Redis. A read that finds a key locally answers at
once; the keys it misses are read from Redis, and what Redis answers is stored locally when
the answer arrives. A write made in the meantime is then overwritten by an older value.

## Events

An `Event` is what happens between two awaits:

* `setLocal`, `setMany`, `getMany`: a call enters and runs to its first await. `set` and `get`
  are calls with one key. Each clock reading of the code is part of the event;
* `connect`: a call that waits for the connection gets it, or the connect raises;
* `execute`: the server executes the next command of a call. The commands of a pipeline are
  executed one by one, those of other calls in between;
* `answer`, `fail`: the answer arrives, or an exception in its place;
* `stop`; and what happens at the server on its own account: a key expires, another process
  writes one.

A value is an `Option`, with `none` for Python's `None`: the store takes a local `None` for a
missing key. Redis keys and the encoding of values are parameters.
-/

namespace ServiceToolkit.Replica

open List Option

variable {K V R B : Type*}

/-- The constructor's arguments, as the constructor keeps them. -/
structure Config (K V R B : Type*) where
  redisEnabled : Bool
  localTtl : ℚ
  localMaxEntries : Option ℕ
  redisKey : K → R
  encode : Option V → B
  decode : B → Option (Option V)

/-- A local entry. -/
structure Entry (V : Type*) where
  value : Option V
  expiresAt : ℚ
  deriving DecidableEq

/-- Where a `set_many` stands: waiting for the connection; sending, with the commands the
server has yet to execute; returned; or ended by an exception. -/
inductive SetPhase (R B : Type*)
  | connecting
  | sending (pending : List (R × B))
  | returned
  | raised
  deriving DecidableEq

/-- Where a `get_many` stands. The answer on its way holds what the server read. -/
inductive GetPhase (B : Type*)
  | connecting
  | waiting
  | read (raws : List (Option B))
  | returned
  | raised
  deriving DecidableEq

/-- A call: a `set_many` with its values, or a `get_many` with what it has found so far and
the keys it missed. -/
inductive Call (K V R B : Type*)
  | set (values : Dict K (Option V)) (phase : SetPhase R B)
  | get (result : Dict K (Option V)) (missing : List K) (phase : GetPhase B)

/-- The store's attributes, the server, and the calls ever made. -/
structure State (K V R B : Type*) where
  entries : Dict K (Entry V)
  connected : Bool
  redis : Dict R B
  calls : List (Call K V R B)

/-- A store as the constructor leaves it, before a server with some content. -/
def State.initial (redis : Dict R B) : State K V R B where
  entries := .empty
  connected := false
  redis := redis
  calls := []

/-- What can happen next. -/
inductive Event (K V R B : Type*)
  | setLocal (values : Dict K (Option V)) (now : ℚ)
  | setMany (values : Dict K (Option V)) (now : ℚ)
  | getMany (requested : List (K × ℚ)) (now : ℚ)
  | connect (call : ℕ) (ok : Bool)
  | execute (call : ℕ)
  | answer (call : ℕ) (now : ℚ)
  | fail (call : ℕ)
  | stop
  | expire (key : R)
  | foreign (key : R) (raw : B)

variable [DecidableEq K]

/-! ### The local layer -/

/-- `_prune_local`: expired entries go from the front. -/
def pruneLocal (entries : Dict K (Entry V)) (now : ℚ) : Dict K (Entry V) :=
  entries.dropWhile fun e => e.expiresAt ≤ now

/-- `_prune_local_limit`. -/
def pruneLocalLimit (cfg : Config K V R B) (entries : Dict K (Entry V)) : Dict K (Entry V) :=
  match cfg.localMaxEntries with
  | none => entries
  | some limit => entries.dropFirst (entries.size - limit)

/-- The loop of `_set_local_many`. -/
def writeLocal (entries : Dict K (Entry V)) (values : List (K × Option V)) (expiresAt : ℚ) :
    Dict K (Entry V) :=
  values.foldl (fun d e => (d.set e.1 ⟨e.2, expiresAt⟩).moveToEnd e.1) entries

/-- `_set_local_many`. -/
def setLocalMany (cfg : Config K V R B) (entries : Dict K (Entry V))
    (values : Dict K (Option V)) (now : ℚ) : Dict K (Entry V) :=
  if values.entries = [] ∨ cfg.localTtl ≤ 0 then entries
  else
    pruneLocalLimit cfg
      (writeLocal (pruneLocal entries now) values.entries (now + cfg.localTtl))

/-- `_get_local`: the value found, and the entries left, for an expired one goes. -/
def getLocal (entries : Dict K (Entry V)) (key : K) (now : ℚ) :
    Option V × Dict K (Entry V) :=
  match entries.get? key with
  | none => (none, entries)
  | some e => if e.expiresAt ≤ now then (none, entries.erase key) else (e.value, entries)

/-- What the loop of `get_many` has found, missed and left. -/
structure Lookups (K V : Type*) where
  result : Dict K (Option V)
  missing : List K
  entries : Dict K (Entry V)

/-- One key of the loop of `get_many`, with the clock as it reads it. -/
def lookUp (l : Lookups K V) (key : K) (now : ℚ) : Lookups K V :=
  match getLocal l.entries key now with
  | (some v, entries) => ⟨l.result.set key (some v), l.missing, entries⟩
  | (none, entries) => ⟨l.result, l.missing ++ [key], entries⟩

/-- The loop of `get_many`. -/
def lookUpAll (entries : Dict K (Entry V)) (requested : List (K × ℚ)) : Lookups K V :=
  requested.foldl (fun l e => lookUp l e.1 e.2) ⟨.empty, [], entries⟩

/-! ### Entries through the local layer -/

section

variable {cfg : Config K V R B} {entries : Dict K (Entry V)} {key k : K} {v : V} {exp now : ℚ}

/-- Of several values written under one key the last stays. -/
theorem get?_writeLocal (entries : Dict K (Entry V)) (values : List (K × Option V)) (exp : ℚ)
    (k : K) : (writeLocal entries values exp).get? k =
      ((values.reverse.lookup k).map fun v => ⟨v, exp⟩).or (entries.get? k) := by
  unfold writeLocal
  induction values generalizing entries with
  | nil => rfl
  | cons e values ih =>
    rw [foldl_cons, ih, Dict.get?_moveToEnd, Dict.get?_set, reverse_cons,
      lookup_append, Dict.lookup_cons_eq]
    by_cases h : k = e.1
    · cases hl : values.reverse.lookup k <;> simp [h]
    · cases hl : values.reverse.lookup k <;> simp [h]

/-- Pruning drops entries and changes none. -/
theorem get?_pruneLocalLimit (cfg : Config K V R B) (entries : Dict K (Entry V)) (k : K) :
    (pruneLocalLimit cfg entries).get? k = none ∨
      (pruneLocalLimit cfg entries).get? k = entries.get? k := by
  unfold pruneLocalLimit
  split
  · exact .inr rfl
  · exact Dict.get?_dropFirst ..

/-- A batch leaves the other keys as they are, or prunes them. -/
theorem get?_setLocalMany_of_none {values : Dict K (Option V)} (hk : values.get? k = none) :
    (setLocalMany cfg entries values now).get? k = none ∨
      (setLocalMany cfg entries values now).get? k = entries.get? k := by
  unfold setLocalMany
  split
  · exact .inr rfl
  · rcases get?_pruneLocalLimit cfg
      (writeLocal (pruneLocal entries now) values.entries (now + cfg.localTtl)) k with h | h
    · exact .inl h
    · have hlookup : values.entries.reverse.lookup k = none := by
        rw [Dict.lookup_reverse values.nodup]
        exact hk
      rw [h, get?_writeLocal, hlookup, map_none, none_or]
      exact Dict.get?_dropWhile ..

/-- A key of the batch has its new value, or is pruned. -/
theorem get?_setLocalMany_of_some (httl : 0 < cfg.localTtl) {values : Dict K (Option V)}
    {v : Option V} (hk : values.get? k = some v) :
    (setLocalMany cfg entries values now).get? k = none ∨
      (setLocalMany cfg entries values now).get? k = some ⟨v, now + cfg.localTtl⟩ := by
  have hne : values.entries ≠ [] := by
    intro hnil
    rw [Dict.get?, hnil] at hk
    cases hk
  unfold setLocalMany
  rw [if_neg (by simp [hne, httl])]
  rcases get?_pruneLocalLimit cfg
    (writeLocal (pruneLocal entries now) values.entries (now + cfg.localTtl)) k with h | h
  · exact .inl h
  · have hlookup : values.entries.reverse.lookup k = some v := by
      rw [Dict.lookup_reverse values.nodup]
      exact hk
    rw [h, get?_writeLocal, hlookup]
    exact .inr rfl

/-- A lookup drops an entry or leaves it, and then does not miss its key. -/
theorem lookUp_entry {l : Lookups K V} (key : K) (now : ℚ)
    (h : l.entries.get? k = none ∨ l.entries.get? k = some ⟨some v, exp⟩ ∧ k ∉ l.missing) :
    (lookUp l key now).entries.get? k = none ∨
      (lookUp l key now).entries.get? k = some ⟨some v, exp⟩ ∧ k ∉ (lookUp l key now).missing := by
  unfold lookUp getLocal
  cases hkey : l.entries.get? key with
  | none =>
    rcases h with h | ⟨h, hmiss⟩
    · exact .inl h
    · have hne : k ≠ key := by
        rintro rfl
        rw [h] at hkey
        cases hkey
      exact .inr ⟨h, by simp [hmiss, hne]⟩
  | some e =>
    dsimp only
    split
    · rename_i value entries heq
      split at heq
      · cases heq
      · obtain ⟨-, rfl⟩ := Prod.mk.inj heq
        exact h
    · rename_i entries heq
      split at heq
      · obtain ⟨-, rfl⟩ := Prod.mk.inj heq
        by_cases hne : k = key
        · exact .inl (by simp [hne])
        · rw [Dict.get?_erase, if_neg hne]
          exact h.imp id fun h => ⟨h.1, by simp [h.2, hne]⟩
      · obtain ⟨hvalue, rfl⟩ := Prod.mk.inj heq
        rcases h with h | ⟨h, hmiss⟩
        · exact .inl h
        · have hne : k ≠ key := by
            rintro rfl
            obtain rfl := some.inj (hkey.symm.trans h)
            cases hvalue
          exact .inr ⟨h, by simp [hmiss, hne]⟩

/-- The lookups of a `get_many` drop an entry or leave it. -/
theorem lookUpAll_entry (requested : List (K × ℚ))
    (h : entries.get? k = none ∨ entries.get? k = some ⟨some v, exp⟩) :
    (lookUpAll entries requested).entries.get? k = none ∨
      (lookUpAll entries requested).entries.get? k = some ⟨some v, exp⟩ ∧
        k ∉ (lookUpAll entries requested).missing := by
  refine foldl_invariant (fun _ (l : Lookups K V) => l.entries.get? k = none ∨
    l.entries.get? k = some ⟨some v, exp⟩ ∧ k ∉ l.missing) ?_ ?_
  · exact h.imp id fun h => ⟨h, not_mem_nil⟩
  · intro _ e _ _ _ hl
    exact lookUp_entry e.1 e.2 hl

/-- A lookup before an entry expires finds it. -/
theorem lookUp_found {l : Lookups K V} {t : ℚ} (h : l.entries.get? k = some ⟨some v, exp⟩)
    (hmiss : k ∉ l.missing) (hfresh : key = k → t < exp) :
    (lookUp l key t).entries.get? k = some ⟨some v, exp⟩ ∧ k ∉ (lookUp l key t).missing ∧
      (lookUp l key t).result.get? k = if key = k then some (some v) else l.result.get? k := by
  unfold lookUp getLocal
  by_cases hk : key = k
  · subst hk
    have ht : ¬ exp ≤ t := not_le.mpr (hfresh rfl)
    rw [h]
    dsimp only
    rw [if_neg ht]
    exact ⟨h, hmiss, by simp⟩
  · have hk' : k ≠ key := Ne.symm hk
    cases hkey : l.entries.get? key with
    | none => exact ⟨h, by simp [hmiss, hk'], by simp [hk]⟩
    | some e =>
      obtain ⟨value, expiry⟩ := e
      by_cases hexp : expiry ≤ t
      · simp only [hexp, if_true]
        exact ⟨by simp [h, hk'], by simp [hmiss, hk'], by simp [hk]⟩
      · cases value with
        | none =>
          simp only [hexp, if_false]
          exact ⟨h, by simp [hmiss, hk'], by simp [hk]⟩
        | some w =>
          simp only [hexp, if_false]
          exact ⟨h, hmiss, by simp [hk, hk']⟩

/-- Every lookup of its key finds a fresh entry. -/
theorem lookUpAll_found {requested : List (K × ℚ)} (h : entries.get? k = some ⟨some v, exp⟩)
    (hfresh : ∀ t, (k, t) ∈ requested → t < exp) : k ∉ (lookUpAll entries requested).missing ∧
      (k ∈ requested.map Prod.fst →
        (lookUpAll entries requested).result.get? k = some (some v)) := by
  have hall := foldl_invariant (l := requested) (f := fun (l : Lookups K V) (e : K × ℚ) =>
      lookUp l e.1 e.2) (b := ⟨.empty, [], entries⟩)
    (fun done l => l.entries.get? k = some ⟨some v, exp⟩ ∧ k ∉ l.missing ∧
      (k ∈ done.map Prod.fst → l.result.get? k = some (some v))) ⟨h, not_mem_nil, by simp⟩ ?_
  · exact hall.2
  · rintro done ⟨key, t⟩ rest l hreq ⟨hentry, hmiss, hfound⟩
    obtain ⟨hentry', hmiss', hresult⟩ := lookUp_found (t := t) hentry hmiss
      fun hk : key = k => hfresh t (by simp [hreq, hk])
    refine ⟨hentry', hmiss', fun hmem => ?_⟩
    rw [hresult]
    split
    · rfl
    · next hk => exact hfound (by simpa [Ne.symm hk] using hmem)

/-- Only requested keys are missed. -/
theorem mem_requested_of_missing {requested : List (K × ℚ)}
    (h : key ∈ (lookUpAll entries requested).missing) : key ∈ requested.map Prod.fst := by
  revert h
  refine foldl_invariant (fun done (l : Lookups K V) =>
    key ∈ l.missing → key ∈ done.map Prod.fst) (fun h => absurd h not_mem_nil) ?_
  rintro done ⟨key', t⟩ rest l - hl
  rw [map_append, mem_append]
  unfold lookUp
  split
  · exact fun hmem => .inl (hl hmem)
  · intro hmem
    rcases mem_append.mp hmem with hmem | hmem
    · exact .inl (hl hmem)
    · exact .inr hmem

end

/-! ### Calls -/

/-- The values of an answer: missing and malformed ones are skipped. -/
def decoded (cfg : Config K V R B) (missing : List K) (raws : List (Option B)) :
    Dict K (Option V) :=
  .ofList ((missing.zip raws).filterMap fun e => (e.2.bind cfg.decode).map (Prod.mk e.1))

/-- Only missed keys are decoded. -/
theorem get?_decoded_of_notMem {cfg : Config K V R B} {k : K} {missing : List K}
    (hk : k ∉ missing) (raws : List (Option B)) : (decoded cfg missing raws).get? k = none := by
  rw [decoded, Dict.get?_ofList, lookup_eq_none_iff]
  intro e he
  obtain ⟨e', he', heq⟩ := mem_filterMap.mp (mem_reverse.mp he)
  obtain ⟨v, -, rfl⟩ := map_eq_some_iff.mp heq
  have hmem : e'.1 ∈ missing := (of_mem_zip he').1
  simp only [bne_iff_ne, ne_eq]
  rintro rfl
  exact hk hmem

variable [DecidableEq R]

/-- The commands a `set_many` sends. -/
def commands (cfg : Config K V R B) (values : Dict K (Option V)) : List (R × B) :=
  values.entries.map fun e => (cfg.redisKey e.1, cfg.encode e.2)

/-- `set_many` up to its first await. -/
def setMany (cfg : Config K V R B) (s : State K V R B) (values : Dict K (Option V)) (now : ℚ) :
    State K V R B :=
  let phase :=
    if values.entries = [] ∨ cfg.redisEnabled = false then .returned
    else if s.connected then .sending (commands cfg values)
    else .connecting
  { s with
    entries := setLocalMany cfg s.entries values now
    calls := s.calls ++ [.set values phase] }

/-- `get_many` up to its first await. -/
def getMany (cfg : Config K V R B) (s : State K V R B) (requested : List (K × ℚ)) (now : ℚ) :
    State K V R B :=
  if requested = [] then { s with calls := s.calls ++ [.get .empty [] .returned] }
  else
    let l := lookUpAll (pruneLocal s.entries now) requested
    let phase :=
      if l.missing = [] ∨ cfg.redisEnabled = false then .returned
      else if s.connected then .waiting
      else .connecting
    { s with
      entries := l.entries
      calls := s.calls ++ [.get l.result l.missing phase] }

/-- Replace a call. -/
def State.setCall (s : State K V R B) (i : ℕ) (c : Call K V R B) : State K V R B :=
  { s with calls := s.calls.set i c }

/-- `start` ends for a waiting call: another call may have connected meanwhile, and else the
connect succeeds or raises. -/
def connect (cfg : Config K V R B) (s : State K V R B) (i : ℕ) (ok : Bool) :
    Call K V R B → Option (State K V R B)
  | .set values .connecting =>
    if s.connected || ok then
      some ({ s with connected := true }.setCall i (.set values (.sending (commands cfg values))))
    else some (s.setCall i (.set values .raised))
  | .get result missing .connecting =>
    if s.connected || ok then
      some ({ s with connected := true }.setCall i (.get result missing .waiting))
    else some (s.setCall i (.get result missing .raised))
  | _ => none

/-- The server executes a call's next command. -/
def execute (cfg : Config K V R B) (s : State K V R B) (i : ℕ) :
    Call K V R B → Option (State K V R B)
  | .set values (.sending ((key, raw) :: pending)) =>
    some ({ s with redis := s.redis.set key raw }.setCall i (.set values (.sending pending)))
  | .get result missing .waiting =>
    some (s.setCall i
      (.get result missing (.read (missing.map fun key => s.redis.get? (cfg.redisKey key)))))
  | _ => none

/-- The answer arrives: a read stores what it decodes and returns it with what it found. -/
def answer (cfg : Config K V R B) (s : State K V R B) (i : ℕ) (now : ℚ) :
    Call K V R B → Option (State K V R B)
  | .set values (.sending []) => some (s.setCall i (.set values .returned))
  | .get result missing (.read raws) =>
    let new := decoded cfg missing raws
    some ({ s with entries := setLocalMany cfg s.entries new now }.setCall i
      (.get (result.update new) missing .returned))
  | _ => none

/-- An exception in place of the answer is logged, and the call returns without it. -/
def fail (s : State K V R B) (i : ℕ) : Call K V R B → Option (State K V R B)
  | .set values (.sending _) => some (s.setCall i (.set values .returned))
  | .get result missing .waiting => some (s.setCall i (.get result missing .returned))
  | .get result missing (.read _) => some (s.setCall i (.get result missing .returned))
  | _ => none

/-- One event of the loop. -/
def step (cfg : Config K V R B) (s : State K V R B) : Event K V R B → Option (State K V R B)
  | .setLocal values now => some { s with entries := setLocalMany cfg s.entries values now }
  | .setMany values now => some (setMany cfg s values now)
  | .getMany requested now => some (getMany cfg s requested now)
  | .connect i ok => s.calls[i]?.bind (connect cfg s i ok)
  | .execute i => s.calls[i]?.bind (execute cfg s i)
  | .answer i now => s.calls[i]?.bind (answer cfg s i now)
  | .fail i => s.calls[i]?.bind (fail s i)
  | .stop => some { s with entries := .empty, connected := false }
  | .expire key => some { s with redis := s.redis.erase key }
  | .foreign key raw => some { s with redis := s.redis.set key raw }

/-- What an event writes under a key. -/
def Event.writes (key : K) : Event K V R B → Option (Option V)
  | .setLocal values _ => values.get? key
  | .setMany values _ => values.get? key
  | _ => none

/-- A read that missed the key and has not ended. -/
def Call.Misses (key : K) : Call K V R B → Prop
  | .get _ missing .connecting => key ∈ missing
  | .get _ missing .waiting => key ∈ missing
  | .get _ missing (.read _) => key ∈ missing
  | _ => False

instance (key : K) : ∀ c : Call K V R B, Decidable (c.Misses key)
  | .get _ missing .connecting => inferInstanceAs (Decidable (key ∈ missing))
  | .get _ missing .waiting => inferInstanceAs (Decidable (key ∈ missing))
  | .get _ missing (.read _) => inferInstanceAs (Decidable (key ∈ missing))
  | .get _ _ .returned | .get _ _ .raised | .set _ _ => isFalse id

/-- A write of this value under the key, in this state, is made **alone**: the value is not
`None`, and no read is outstanding that missed the key. -/
def WrittenAlone (key : K) (v : Option V) (s : State K V R B) : Prop :=
  v ≠ none ∧ ∀ c ∈ s.calls, ¬ c.Misses key

/-! ### What an event does -/

section

variable {cfg : Config K V R B} {s s' : State K V R B} {e : Event K V R B}

/-- **The steps of the store**, one constructor for each event and place of the call it moves. -/
inductive Effect (cfg : Config K V R B) (s : State K V R B) :
    Event K V R B → State K V R B → Prop
  | setLocal (values : Dict K (Option V)) (now : ℚ) :
      Effect cfg s (.setLocal values now)
        { s with entries := setLocalMany cfg s.entries values now }
  | setMany (values : Dict K (Option V)) (now : ℚ) :
      Effect cfg s (.setMany values now) (setMany cfg s values now)
  | getMany (requested : List (K × ℚ)) (now : ℚ) :
      Effect cfg s (.getMany requested now) (getMany cfg s requested now)
  | setConnects {i : ℕ} {ok values}
      (hi : s.calls[i]? = some (.set values .connecting)) (hok : (s.connected || ok) = true) :
      Effect cfg s (.connect i ok)
        ({ s with connected := true }.setCall i (.set values (.sending (commands cfg values))))
  | setRaises {i : ℕ} {ok values}
      (hi : s.calls[i]? = some (.set values .connecting)) (hok : (s.connected || ok) = false) :
      Effect cfg s (.connect i ok) (s.setCall i (.set values .raised))
  | getConnects {i : ℕ} {ok result missing}
      (hi : s.calls[i]? = some (.get result missing .connecting))
      (hok : (s.connected || ok) = true) :
      Effect cfg s (.connect i ok)
        ({ s with connected := true }.setCall i (.get result missing .waiting))
  | getRaises {i : ℕ} {ok result missing}
      (hi : s.calls[i]? = some (.get result missing .connecting))
      (hok : (s.connected || ok) = false) :
      Effect cfg s (.connect i ok) (s.setCall i (.get result missing .raised))
  | setExecuted {i : ℕ} {values key raw pending}
      (hi : s.calls[i]? = some (.set values (.sending ((key, raw) :: pending)))) :
      Effect cfg s (.execute i)
        ({ s with redis := s.redis.set key raw }.setCall i (.set values (.sending pending)))
  | getExecuted {i : ℕ} {result missing}
      (hi : s.calls[i]? = some (.get result missing .waiting)) :
      Effect cfg s (.execute i) (s.setCall i
        (.get result missing (.read (missing.map fun key => s.redis.get? (cfg.redisKey key)))))
  | setAnswered {i : ℕ} {now values}
      (hi : s.calls[i]? = some (.set values (.sending []))) :
      Effect cfg s (.answer i now) (s.setCall i (.set values .returned))
  | getAnswered {i : ℕ} {now result missing raws}
      (hi : s.calls[i]? = some (.get result missing (.read raws))) :
      Effect cfg s (.answer i now)
        ({ s with entries := setLocalMany cfg s.entries (decoded cfg missing raws) now }.setCall i
          (.get (result.update (decoded cfg missing raws)) missing .returned))
  | setFails {i : ℕ} {values pending}
      (hi : s.calls[i]? = some (.set values (.sending pending))) :
      Effect cfg s (.fail i) (s.setCall i (.set values .returned))
  | getFails {i : ℕ} {result missing phase}
      (hi : s.calls[i]? = some (.get result missing phase))
      (hphase : phase = .waiting ∨ ∃ raws, phase = .read raws) :
      Effect cfg s (.fail i) (s.setCall i (.get result missing .returned))
  | stop : Effect cfg s .stop { s with entries := .empty, connected := false }
  | expire (key : R) : Effect cfg s (.expire key) { s with redis := s.redis.erase key }
  | foreign (key : R) (raw : B) :
      Effect cfg s (.foreign key raw) { s with redis := s.redis.set key raw }

/-- **The step relation** has every step. -/
theorem step_effect (hs : step cfg s e = some s') : Effect cfg s e s' := by
  cases e with
  | setLocal | setMany | getMany | stop | expire | foreign =>
    cases hs
    constructor
  | connect i ok =>
    obtain ⟨c, hi, hs⟩ := bind_eq_some_iff.mp hs
    unfold connect at hs
    split at hs
    · split at hs
      · rename_i hok
        cases hs
        exact .setConnects hi hok
      · rename_i hok
        cases hs
        exact .setRaises hi (Bool.eq_false_iff.mpr hok)
    · split at hs
      · rename_i hok
        cases hs
        exact .getConnects hi hok
      · rename_i hok
        cases hs
        exact .getRaises hi (Bool.eq_false_iff.mpr hok)
    · cases hs
  | execute i =>
    obtain ⟨c, hi, hs⟩ := bind_eq_some_iff.mp hs
    unfold execute at hs
    split at hs
    · cases hs
      exact .setExecuted hi
    · cases hs
      exact .getExecuted hi
    · cases hs
  | answer i now =>
    obtain ⟨c, hi, hs⟩ := bind_eq_some_iff.mp hs
    unfold answer at hs
    split at hs
    · cases hs
      exact .setAnswered hi
    · cases hs
      exact .getAnswered hi
    · cases hs
  | fail i =>
    obtain ⟨c, hi, hs⟩ := bind_eq_some_iff.mp hs
    unfold fail at hs
    split at hs
    · cases hs
      exact .setFails hi
    · cases hs
      exact .getFails hi (.inl rfl)
    · cases hs
      exact .getFails hi (.inr ⟨_, rfl⟩)
    · cases hs

end

/-! ### A written entry -/

section

variable {cfg : Config K V R B} {s s' : State K V R B} {e : Event K V R B} {k : K} {v : V} {exp : ℚ}

/-- The store **owns** an entry: it holds the value, and no read is outstanding that missed
the key. -/
structure Owned (k : K) (v : V) (exp : ℚ) (s : State K V R B) : Prop where
  entry : s.entries.get? k = some ⟨some v, exp⟩
  alone : ∀ c ∈ s.calls, ¬ c.Misses k

/-- What was not dropped is there. -/
theorem eq_of_mem_keys {d : Dict K (Entry V)} {x : Option (Entry V)} (hmem : k ∈ d.keys)
    (h : d.get? k = none ∨ d.get? k = x) : d.get? k = x := by
  rcases h with h | h
  · rw [Dict.mem_keys_iff, h] at hmem
    cases hmem
  · exact h

omit [DecidableEq K] [DecidableEq R] in
/-- No read misses the key after a call moved on without missing it. -/
theorem alone_setCall {i : ℕ} {c : Call K V R B} (h : ∀ c ∈ s.calls, ¬ c.Misses k)
    (hc : ¬ c.Misses k) : ∀ c' ∈ (s.setCall i c).calls, ¬ c'.Misses k := by
  intro c' hc'
  rcases mem_or_eq_of_mem_set hc' with hc' | rfl
  · exact h c' hc'
  · exact hc

omit [DecidableEq K] [DecidableEq R] in
/-- No read misses the key after a call was added that does not. -/
theorem alone_concat {c : Call K V R B} (h : ∀ c ∈ s.calls, ¬ c.Misses k)
    (hc : ¬ c.Misses k) : ∀ c' ∈ s.calls ++ [c], ¬ c'.Misses k := by
  intro c' hc'
  rcases mem_append.mp hc' with hc' | hc'
  · exact h c' hc'
  · rw [mem_singleton.mp hc']
    exact hc

omit [DecidableEq R] in
/-- A read that enters keeps an owned entry or drops it, and misses its key only in the
second case. -/
theorem owned_getMany {requested : List (K × ℚ)} {now : ℚ} (h : Owned k v exp s)
    (hkept : k ∈ (getMany cfg s requested now).entries.keys) :
    Owned k v exp (getMany cfg s requested now) := by
  unfold getMany at hkept ⊢
  split
  · exact ⟨h.entry, alone_concat h.alone (by simp [Call.Misses])⟩
  · rename_i hne
    rw [if_neg hne] at hkept
    have hprune : (pruneLocal s.entries now).get? k = none ∨
        (pruneLocal s.entries now).get? k = some ⟨some v, exp⟩ :=
      h.entry ▸ Dict.get?_dropWhile ..
    rcases lookUpAll_entry requested hprune with hgone | ⟨hentry, hmiss⟩
    · rw [Dict.mem_keys_iff] at hkept
      rw [hgone] at hkept
      cases hkept
    · refine ⟨hentry, alone_concat h.alone ?_⟩
      split
      · exact id
      · split
        · exact hmiss
        · exact hmiss

/-- **An owned entry** is kept by every event that is neither a write of its key nor `stop`,
for as long as the entry is there. -/
theorem owned_step (h : Owned k v exp s) (hwrite : e.writes k = none) (hstop : e ≠ .stop)
    (hs : step cfg s e = some s') (hkept : k ∈ s'.entries.keys) : Owned k v exp s' := by
  cases step_effect hs with
  | setLocal values now =>
    exact ⟨(eq_of_mem_keys hkept (get?_setLocalMany_of_none hwrite)).trans h.entry, h.alone⟩
  | setMany values now =>
    exact ⟨(eq_of_mem_keys hkept (get?_setLocalMany_of_none hwrite)).trans h.entry,
      alone_concat h.alone id⟩
  | getMany requested now => exact owned_getMany h hkept
  | getConnects hi hok | getExecuted hi =>
    have hmiss := h.alone _ (mem_of_getElem? hi)
    exact ⟨h.entry, alone_setCall h.alone hmiss⟩
  | @getAnswered i now result missing raws hi =>
    -- the read did not miss the key, so it stores nothing under it
    have hmiss := h.alone _ (mem_of_getElem? hi)
    exact ⟨(eq_of_mem_keys hkept
      (get?_setLocalMany_of_none (get?_decoded_of_notMem hmiss raws))).trans h.entry,
      alone_setCall h.alone id⟩
  | setConnects | setRaises | getRaises | setExecuted | setAnswered | setFails | getFails =>
    exact ⟨h.entry, alone_setCall h.alone id⟩
  | stop => exact absurd rfl hstop
  | expire | foreign => exact ⟨h.entry, h.alone⟩

/-- A write of the key that no read is in the way of owns its entry. -/
theorem owned_of_write (httl : 0 < cfg.localTtl) {written : Option V}
    (hwrite : e.writes k = some written) (halone : WrittenAlone k written s)
    (hs : step cfg s e = some s') (hkept : k ∈ s'.entries.keys) :
    ∃ v exp, written = some v ∧ Owned k v exp s' := by
  obtain ⟨hne, hcalls⟩ := halone
  obtain ⟨v, rfl⟩ := ne_none_iff_exists'.mp hne
  cases e with
  | setLocal values now =>
    cases hs
    exact ⟨v, _, rfl, eq_of_mem_keys hkept (get?_setLocalMany_of_some httl hwrite), hcalls⟩
  | setMany values now =>
    cases hs
    exact ⟨v, _, rfl, eq_of_mem_keys hkept (get?_setLocalMany_of_some httl hwrite),
      alone_concat hcalls id⟩
  | _ => cases hwrite

/-- An owned entry stays owned along a schedule that does not write its key, does not stop
the store, and never loses the entry. -/
theorem owned_run {s₂ : State K V R B} :
    ∀ {es : List (Event K V R B)} {s : State K V R B}, Owned k v exp s →
      (∀ e ∈ es, e.writes k = none ∧ e ≠ .stop) →
      (∀ mid, mid <+: es → ∀ s', run (step cfg) s mid = some s' → k ∈ s'.entries.keys) →
      run (step cfg) s es = some s₂ → Owned k v exp s₂ := by
  intro es
  induction es with
  | nil =>
    intro s h _ _ hrun
    cases hrun
    exact h
  | cons e es ih =>
    intro s h hquiet hkept hrun
    obtain ⟨s₁, h₁, hrun⟩ := run_cons_eq_some hrun
    obtain ⟨hwrite, hstop⟩ := hquiet e mem_cons_self
    have hone : run (step cfg) s [e] = some s₁ := by
      rw [run_cons, h₁]
      rfl
    refine ih (owned_step h hwrite hstop h₁ (hkept [e] (by simp) s₁ hone))
      (fun e' he' => hquiet e' (mem_cons_of_mem _ he')) (fun mid hmid s' hs' => ?_) hrun
    refine hkept (e :: mid) (by simpa using hmid) s' ?_
    rw [run_cons, h₁]
    exact hs'

/-! ### What a read returns -/

/-- How a call moves on. A read that has not returned adds to its result, and only under keys
it missed. -/
inductive Moves : Call K V R B → Call K V R B → Prop
  | set (values : Dict K (Option V)) (p p' : SetPhase R B) :
      Moves (.set values p) (.set values p')
  | get (result new : Dict K (Option V)) (missing : List K) (p p' : GetPhase B)
      (hp : p ≠ .returned) (hnew : ∀ k, k ∉ missing → new.get? k = none) :
      Moves (.get result missing p) (.get (result.update new) missing p')

omit [DecidableEq R] in
/-- Moving on within a `get_many` keeps its result and its missed keys. -/
theorem Moves.same (result : Dict K (Option V)) (missing : List K) {p : GetPhase B}
    (p' : GetPhase B) (hp : p ≠ .returned) :
    Moves (.get result missing p : Call K V R B) (.get result missing p') :=
  .get result .empty missing p p' hp fun _ _ => rfl

/-- A step adds a call, moves one on, or leaves all as they are. -/
theorem calls_step (hs : step cfg s e = some s') :
    s'.calls = s.calls ∨ (∃ c, s'.calls = s.calls ++ [c]) ∨
      ∃ j c c', s.calls[j]? = some c ∧ s'.calls = s.calls.set j c' ∧ Moves c c' := by
  cases step_effect hs with
  | setLocal | stop | expire | foreign => exact .inl rfl
  | setMany => exact .inr (.inl ⟨_, rfl⟩)
  | getMany requested now =>
    refine .inr (.inl ?_)
    unfold getMany
    split
    · exact ⟨_, rfl⟩
    · exact ⟨_, rfl⟩
  | setConnects hi | setRaises hi | setExecuted hi | setAnswered hi | setFails hi =>
    exact .inr (.inr ⟨_, _, _, hi, rfl, .set _ _ _⟩)
  | getConnects hi | getRaises hi | getExecuted hi =>
    exact .inr (.inr ⟨_, _, _, hi, rfl, .same _ _ _ (by simp)⟩)
  | @getAnswered i now result missing raws hi =>
    refine .inr (.inr ⟨_, _, _, hi, rfl, .get _ _ _ _ _ (by simp) fun k hk => ?_⟩)
    exact get?_decoded_of_notMem hk raws
  | getFails hi hphase =>
    refine .inr (.inr ⟨_, _, _, hi, rfl, .same _ _ _ ?_⟩)
    rcases hphase with rfl | ⟨raws, rfl⟩ <;> simp

/-- Call `i` is a read that found `x` under a key it did not miss, and has returned if
`ended`. -/
def Found (i : ℕ) (k : K) (x : Option V) (ended : Prop) (s : State K V R B) : Prop :=
  ∃ result missing phase, s.calls[i]? = some (.get result missing phase) ∧ k ∉ missing ∧
    result.get? k = some x ∧ (ended → phase = .returned)

/-- What a call has found it keeps. -/
theorem found_step {i : ℕ} {x : Option V} {ended : Prop} (h : Found i k x ended s)
    (hs : step cfg s e = some s') : Found i k x ended s' := by
  obtain ⟨result, missing, phase, hi, hmiss, hx, hended⟩ := h
  rcases calls_step hs with heq | ⟨c, heq⟩ | ⟨j, c, c', hj, heq, hmoves⟩
  · exact ⟨result, missing, phase, heq ▸ hi, hmiss, hx, hended⟩
  · exact ⟨result, missing, phase, heq ▸ getElem?_append_some hi, hmiss, hx, hended⟩
  · by_cases hij : j = i
    · subst hij
      obtain rfl := some.inj (hi.symm.trans hj)
      cases hmoves with
      | get _ new _ _ p' hp hnew =>
        refine ⟨result.update new, missing, p', heq ▸ getElem?_set_some hi, hmiss,
          ?_, fun h => absurd (hended h) hp⟩
        rw [Dict.get?_update, hnew k hmiss, none_or, hx]
    · exact ⟨result, missing, phase, by rw [heq, getElem?_set_ne hij, hi], hmiss, hx, hended⟩

omit [DecidableEq R] in
/-- A `get_many` finds a fresh entry when it starts. -/
theorem found_getMany {requested : List (K × ℚ)} {now : ℚ}
    (hentry : s.entries.get? k = some ⟨some v, exp⟩) (hreq : k ∈ requested.map Prod.fst)
    (hnow : now < exp) (hfresh : ∀ t, (k, t) ∈ requested → t < exp) :
    Found s.calls.length k (some v) (∀ e ∈ requested, e.1 = k) (getMany cfg s requested now) := by
  have hne : requested ≠ [] := by
    rintro rfl
    cases hreq
  have hprune : (pruneLocal s.entries now).get? k = some ⟨some v, exp⟩ :=
    Dict.get?_dropWhile_of_not hentry (by simpa using hnow)
  obtain ⟨hmiss, hfound⟩ := lookUpAll_found hprune hfresh
  unfold getMany
  rw [if_neg hne]
  refine ⟨_, _, _, getElem?_concat_length, hmiss, hfound hreq, fun hall => ?_⟩
  rw [if_pos]
  refine .inl (eq_nil_iff_forall_not_mem.mpr fun key hkey => ?_)
  obtain ⟨e, he, rfl⟩ := mem_map.mp (mem_requested_of_missing hkey)
  exact hmiss (hall e he ▸ hkey)

/-- **A read returns the store's own write.** Take a write of `v` under `k` that is made alone, and
a later `get_many` that asks for `k`. If in between `k` is not written again, the store is not
stopped, and `k`'s local entry stays there and has not expired when it is read, then that call has
found `v`; and when it asks for `k` alone it has returned, with `v`. -/
theorem get_returns_own_write (httl : 0 < cfg.localTtl) {redis : Dict R B}
    {es₁ es₂ es₃ : List (Event K V R B)} {w : Event K V R B} {requested : List (K × ℚ)}
    {now : ℚ} {s₁ s₂ s : State K V R B} {k : K} {v : Option V}
    (h₁ : run (step cfg) (.initial redis) es₁ = some s₁)
    (h₂ : run (step cfg) (.initial redis) (es₁ ++ w :: es₂) = some s₂)
    (h : run (step cfg) (.initial redis) (es₁ ++ w :: (es₂ ++ .getMany requested now :: es₃)) =
      some s)
    (hwrite : w.writes k = some v) (halone : WrittenAlone k v s₁)
    (hquiet : ∀ e ∈ es₂, e.writes k = none ∧ e ≠ .stop)
    (hkept : ∀ mid, mid <+: es₂ → ∀ s',
      run (step cfg) (.initial redis) (es₁ ++ w :: mid) = some s' → k ∈ s'.entries.keys)
    (hreq : k ∈ requested.map Prod.fst)
    (hfresh : ∀ entry, s₂.entries.get? k = some entry →
      now < entry.expiresAt ∧ ∀ t, (k, t) ∈ requested → t < entry.expiresAt) :
    ∃ result missing phase, s.calls[s₂.calls.length]? = some (.get result missing phase) ∧
      (result.get? k).join = v ∧ ((∀ e ∈ requested, e.1 = k) → phase = .returned) := by
  obtain ⟨s₁', h₁', h⟩ := run_append_eq_some h
  obtain rfl : s₁ = s₁' := some.inj (h₁.symm.trans h₁')
  obtain ⟨t, ht, h⟩ := run_cons_eq_some h
  -- every state since the write is one of a schedule from the state it left
  have hfrom : ∀ mid s', run (step cfg) t mid = some s' →
      run (step cfg) (.initial redis) (es₁ ++ w :: mid) = some s' := by
    intro mid s' hs'
    rw [run_append, h₁, bind_some, run_cons, ht, bind_some, hs']
  obtain ⟨s₂', h₂', h⟩ := run_append_eq_some h
  obtain rfl : s₂ = s₂' := some.inj (h₂.symm.trans (hfrom es₂ s₂' h₂'))
  obtain ⟨g, hg, h⟩ := run_cons_eq_some h
  obtain ⟨value, exp, rfl, howned⟩ := owned_of_write httl hwrite halone ht
    (hkept [] nil_prefix t (hfrom [] t rfl))
  have howned₂ := owned_run howned hquiet
    (fun mid hmid s' hs' => hkept mid hmid s' (hfrom mid s' hs')) h₂'
  obtain ⟨hnow, hreads⟩ := hfresh _ howned₂.entry
  cases hg
  obtain ⟨result, missing, phase, hcall, -, hresult, hended⟩ :=
    run_invariant (P := Found s₂.calls.length k (some value) (∀ e ∈ requested, e.1 = k))
      found_step (found_getMany howned₂.entry hreq hnow hreads) h
  exact ⟨result, missing, phase, hcall, by rw [hresult]; rfl, hended⟩

end

/-! ### Runs -/

/-- A store of numbers, with an encoding that keeps `None` apart. -/
def probeConfig : Config ℕ ℕ ℕ ℕ where
  redisEnabled := true
  localTtl := 10
  localMaxEntries := some 5
  redisKey := id
  encode := fun v => v.elim 0 (· + 1)
  decode := fun raw => some (if raw = 0 then none else some (raw - 1))

/-- One value under key 0. -/
def probeValues (v : ℕ) : Dict ℕ (Option ℕ) := ⟨[(0, some v)], by simp⟩

/-- What call `i` returned under key 0. -/
def probeReturned (s : State ℕ ℕ ℕ ℕ) (i : ℕ) : Option (Option ℕ) :=
  match s.calls[i]? with
  | some (.get result _ .returned) => result.get? 0
  | _ => none

/-- A write alone, then a read while the write is still on its way to Redis, where another
value stands. -/
theorem get_returns_own_write_alone :
    ∃ s result missing phase,
      run (step probeConfig) (.initial ⟨[(0, 2)], by decide⟩)
        [.setMany (probeValues 2) 0, .connect 0 true, .getMany [(0, 1)] 1] = some s ∧
      s.calls[1]? = some (.get result missing phase) ∧ (result.get? 0).join = some 2 ∧
      phase = .returned := by
  have hkeys : ∀ n ≤ 1, (run (step probeConfig) (.initial ⟨[(0, 2)], by decide⟩)
      ([] ++ .setMany (probeValues 2) 0 :: [Event.connect 0 true].take n)).map
        (fun s => ((s.entries.get? 0).map Entry.expiresAt, s.calls.length)) =
          some (some 10, 1) := by decide +kernel
  obtain ⟨s₂, h₂, hproj⟩ := map_eq_some_iff.mp (hkeys 1 le_rfl)
  obtain ⟨hentry, hlen⟩ := Prod.mk.inj hproj
  have hkept : ∀ mid, mid <+: [Event.connect 0 true] → ∀ s',
      run (step probeConfig) (.initial ⟨[(0, 2)], by decide⟩)
        ([] ++ .setMany (probeValues 2) 0 :: mid) = some s' → 0 ∈ s'.entries.keys := by
    intro mid hmid s' hs'
    have hkey := hkeys mid.length hmid.length_le
    rw [← prefix_iff_eq_take.mp hmid, hs'] at hkey
    rw [Dict.mem_keys_iff]
    cases hget : s'.entries.get? 0 with
    | none => simp [hget] at hkey
    | some entry => rfl
  have hfresh : ∀ entry, s₂.entries.get? 0 = some entry →
      1 < entry.expiresAt ∧ ∀ t, (0, t) ∈ [((0 : ℕ), (1 : ℚ))] → t < entry.expiresAt := by
    intro entry hget
    rw [hget] at hentry
    have hexp : entry.expiresAt = 10 := some.inj hentry
    refine ⟨by rw [hexp]; decide, fun t ht => ?_⟩
    obtain ⟨-, rfl⟩ := Prod.mk.inj (mem_singleton.mp ht)
    rw [hexp]
    decide
  obtain ⟨s, h⟩ : ∃ s, run (step probeConfig) (.initial ⟨[(0, 2)], by decide⟩)
      ([] ++ .setMany (probeValues 2) 0 :: ([.connect 0 true] ++ .getMany [(0, 1)] 1 :: [])) =
        some s := ⟨_, rfl⟩
  obtain ⟨result, missing, phase, hcall, hresult, hreturned⟩ :=
    get_returns_own_write (by decide) rfl h₂ h rfl ⟨by decide, by simp [State.initial]⟩
      (by simp [Event.writes]) hkept (by decide) hfresh
  exact ⟨s, result, missing, phase, h, hlen ▸ hcall, hresult, hreturned (by simp)⟩

/-- A read misses key 0, and the server reads an old 1 for it. Before that answer arrives, a `set`
of 2 has returned. The answer is then stored over it, and a later read returns 1. -/
theorem read_returns_older_value :
    (∀ n ≤ 3,
      (run (step probeConfig) (.initial ⟨[(0, 2)], by decide⟩)
        ([.getMany [(0, 0)] 0, .connect 0 true, .execute 0, .setMany (probeValues 2) 0] ++
          [.execute 1, .answer 1 0, .answer 0 0].take n)).map
        (fun s => (s.entries.get? 0).map Entry.expiresAt) = some (some 10)) ∧
    (run (step probeConfig) (.initial ⟨[(0, 2)], by decide⟩)
      [.getMany [(0, 0)] 0, .connect 0 true, .execute 0, .setMany (probeValues 2) 0,
        .execute 1, .answer 1 0, .answer 0 0, .getMany [(0, 1)] 1]).map (probeReturned · 2) =
      some (some (some 1)) := by
  decide +kernel

end ServiceToolkit.Replica
