import ServiceToolkit.Dict
import ServiceToolkit.LookupCache
import ServiceToolkit.Recency

/-!
# What the Lookup Cache Evicts

The local layer of a `LookupCache` is an ordered dictionary that drops its first entry when it
grows over `max_entries`. A store moves its entry to the end, and so does a read under the lock
(`_get_local_unlocked`). But `get` and `get_cached` read without the lock first, and that read
(`_peek_local`) leaves the entry where it is.

The model is about all keys at once, and about the local layer. Of Redis and the loader it has
what they answer: a load task obtains a value and stores it, or obtains none. Taking the lock is an
event of its own, and a clock reading or a draw of the jitter is part of an event. The state keeps
the log of local hits and stores (`uses`), which no branch reads.
-/

namespace ServiceToolkit.CacheOrder

open Cache (Draw noJitter)

/-- The settings of a cache and its `max_entries`. -/
structure Settings (V : Type*) where
  cache : Cache.Config V
  maxEntries : ℤ

/-- `max(1, int(max_entries))`. -/
def Settings.limit {V : Type*} (cfg : Settings V) : ℕ := (max 1 cfg.maxEntries).toNat

/-- A local entry. -/
structure Entry (V : Type*) where
  value : V
  expiresAt : ℚ
  deriving DecidableEq

/-- Where a load task is: before and after it stored its value, and ended with a value or an
exception. -/
inductive LoadPhase (V : Type*)
  | loading
  | stored
  | ended (outcome : Option V)
  deriving DecidableEq

/-- A load task. -/
structure Load (K V : Type*) where
  key : K
  phase : LoadPhase V
  deriving DecidableEq

/-- Where a call is: `get` at the lock, or awaiting a task it created or found; `get_cached` while
Redis is asked; `set` while Redis is written; or ended, `none` being an exception. -/
inductive Call (K V : Type*)
  | locking (key : K)
  | awaiting (key : K) (task : ℕ) (created : Bool)
  | reading (key : K)
  | writing
  | ended (result : Option (Option V))
  deriving DecidableEq

/-- The local layer, the load tasks and the calls, and the log of uses. -/
structure State (K V : Type*) where
  cache : Dict K (Entry V)
  inflight : Dict K ℕ
  loads : List (Load K V)
  calls : List (Call K V)
  uses : List K

/-- A cache as the constructor leaves it. -/
def State.initial {K V : Type*} : State K V where
  cache := .empty
  inflight := .empty
  loads := []
  calls := []
  uses := []

/-- What can happen next. -/
inductive Event (K V : Type*)
  | get (key : K) (now : ℚ)
  | lock (call : ℕ) (now : ℚ)
  | store (load : ℕ) (value : V) (u : Draw) (now : ℚ)
  | finish (load : ℕ) (outcome : Option V)
  | wake (call : ℕ)
  | getCached (key : K) (now : ℚ)
  | answer (call : ℕ) (value : Option V) (u : Draw) (now : ℚ)
  | fail (call : ℕ)
  | set (key : K) (value : V) (u : Draw) (now : ℚ)
  | written (call : ℕ) (ok : Bool)
  | invalidate (key : K)
  | clearLocal

variable {K V : Type*} [DecidableEq K]

/-! ### The local layer -/

/-- `_peek_local`. -/
def peekLocal (cfg : Settings V) (s : State K V) (key : K) (now : ℚ) : Option V :=
  if cfg.cache.localEnabled then
    (s.cache.get? key).bind fun e => if e.expiresAt ≤ now then none else some e.value
  else none

/-- `_get_local_unlocked`. -/
def getLocalUnlocked (cfg : Settings V) (s : State K V) (key : K) (now : ℚ) :
    Option V × State K V :=
  if cfg.cache.localEnabled then
    match s.cache.get? key with
    | none => (none, s)
    | some e =>
      if e.expiresAt ≤ now then (none, { s with cache := s.cache.erase key })
      else (some e.value, { s with cache := s.cache.moveToEnd key, uses := s.uses ++ [key] })
  else (none, s)

/-- The loop that drops the first entries. -/
def evict (cfg : Settings V) (cache : Dict K (Entry V)) : Dict K (Entry V) :=
  cache.dropFirst (cache.size - cfg.limit)

/-- `_store_local` stores the value. -/
def stores (cfg : Settings V) (value : V) (u : Draw) : Bool :=
  cfg.cache.localEnabled && decide (0 < cfg.cache.effectiveLocalTtl value u)

/-- `_store_local`. -/
def storeLocal (cfg : Settings V) (s : State K V) (key : K) (value : V) (u : Draw) (now : ℚ) :
    State K V :=
  if stores cfg value u then
    { s with
      cache := evict cfg
        ((s.cache.set key ⟨value, now + cfg.cache.effectiveLocalTtl value u⟩).moveToEnd key)
      uses := s.uses ++ [key] }
  else s

/-! ### Calls -/

/-- `get` or `get_cached` as far as its first await: a lock-free hit is a use. -/
def peek (cfg : Settings V) (s : State K V) (key : K) (now : ℚ) (missed : Call K V) : State K V :=
  match peekLocal cfg s key now with
  | some v => { s with calls := s.calls ++ [.ended (some (some v))], uses := s.uses ++ [key] }
  | none => { s with calls := s.calls ++ [missed] }

/-- Replace a call. -/
def State.setCall (s : State K V) (i : ℕ) (c : Call K V) : State K V :=
  { s with calls := s.calls.set i c }

/-- The body of the lock in `get`: a local hit after all, or the task to await. -/
def lockBody (cfg : Settings V) (s : State K V) (i : ℕ) (key : K) (now : ℚ) : State K V :=
  match getLocalUnlocked cfg s key now with
  | (some v, s) => s.setCall i (.ended (some (some v)))
  | (none, s) =>
    match s.inflight.get? key with
    | some task => s.setCall i (.awaiting key task false)
    | none =>
      { s.setCall i (.awaiting key s.loads.length true) with
        loads := s.loads ++ [⟨key, .loading⟩]
        inflight := s.inflight.set key s.loads.length }

/-- `get` after its task ended: the call that created the task takes it out of `inflight`, if it
is still there. -/
def wakeUp (s : State K V) (i : ℕ) (key : K) (task : ℕ) (created : Bool) (outcome : Option V) :
    State K V :=
  { s.setCall i (.ended (outcome.map some)) with
    inflight :=
      if created ∧ s.inflight.get? key = some task then s.inflight.erase key else s.inflight }

/-- One event. -/
def step (cfg : Settings V) (s : State K V) : Event K V → Option (State K V)
  | .get key now => some (peek cfg s key now (.locking key))
  | .lock i now =>
    match s.calls[i]? with
    | some (.locking key) => some (lockBody cfg s i key now)
    | _ => none
  | .store j value u now =>
    match s.loads[j]? with
    | some ⟨key, .loading⟩ =>
      some { storeLocal cfg s key value u now with loads := s.loads.set j ⟨key, .stored⟩ }
    | _ => none
  | .finish j outcome =>
    match s.loads[j]? with
    | some ⟨_, .ended _⟩ => none
    | some ⟨key, _⟩ => some { s with loads := s.loads.set j ⟨key, .ended outcome⟩ }
    | none => none
  | .wake i =>
    match s.calls[i]? with
    | some (.awaiting key task created) =>
      match s.loads[task]? with
      | some ⟨_, .ended outcome⟩ => some (wakeUp s i key task created outcome)
      | _ => none
    | _ => none
  | .getCached key now => some (peek cfg s key now (.reading key))
  | .answer i value u now =>
    match s.calls[i]?, value with
    | some (.reading _), none => some (s.setCall i (.ended (some none)))
    | some (.reading key), some v =>
      some ((storeLocal cfg s key v u now).setCall i (.ended (some (some v))))
    | _, _ => none
  | .fail i =>
    match s.calls[i]? with
    | some (.reading _) => some (s.setCall i (.ended none))
    | _ => none
  | .set key value u now =>
    let s' := storeLocal cfg s key value u now
    some { s' with calls := s'.calls ++ [.writing] }
  | .written i ok =>
    match s.calls[i]? with
    | some .writing => some (s.setCall i (.ended (if ok then some none else none)))
    | _ => none
  | .invalidate key => some { s with cache := s.cache.erase key }
  | .clearLocal => some { s with cache := .empty }

/-- **The condition on a step**: a lock-free hit is on the key used last. -/
def hitsLast (cfg : Settings V) (s : State K V) : Event K V → Bool
  | .get key now | .getCached key now =>
    (peekLocal cfg s key now).isNone || s.cache.keys.getLast? = some key
  | _ => true

/-- The event may store. -/
def Event.isStore : Event K V → Bool
  | .store .. | .answer .. | .set .. => true
  | _ => false

/-! ### What an event does to the local layer -/

/-- **What an event does to the local layer**: nothing; a lock-free hit; a hit under the lock, which
moves its entry; the drop of entries other than by a store; or a store. -/
inductive Layer (cfg : Settings V) (s : State K V) (e : Event K V) (s' : State K V) : Prop
  | same (hcache : s'.cache = s.cache) (huses : s'.uses = s.uses)
  | hit (key : K) (now : ℚ) (hpeek : peekLocal cfg s key now ≠ none)
      (he : e = .get key now ∨ e = .getCached key now) (hcache : s'.cache = s.cache)
      (huses : s'.uses = s.uses ++ [key])
  | touch (key : K) (hkey : key ∈ s.cache.keys) (hcache : s'.cache = s.cache.moveToEnd key)
      (huses : s'.uses = s.uses ++ [key]) (hstore : e.isStore = false)
  | drop (hcache : s'.cache.entries.Sublist s.cache.entries) (huses : s'.uses = s.uses)
      (hstore : e.isStore = false)
  | store (key : K) (entry : Entry V)
      (hcache : s'.cache = evict cfg ((s.cache.set key entry).moveToEnd key))
      (huses : s'.uses = s.uses ++ [key])

section

variable {cfg : Settings V} {s s' : State K V} {e : Event K V} {key : K} {now : ℚ}

theorem mem_keys_of_peekLocal (h : peekLocal cfg s key now ≠ none) : key ∈ s.cache.keys := by
  rw [Dict.mem_keys_iff, Option.isSome_iff_ne_none]
  intro hnone
  refine h ?_
  rw [peekLocal, hnone]
  exact ite_self _

theorem peek_layer (missed : Call K V) (he : e = .get key now ∨ e = .getCached key now) :
    Layer cfg s e (peek cfg s key now missed) := by
  unfold peek
  split
  · rename_i v hv
    refine .hit key now ?_ he rfl rfl
    rw [hv]
    rintro ⟨⟩
  · exact .same rfl rfl

theorem lockBody_layer {i : ℕ} (hstore : e.isStore = false) :
    Layer cfg s e (lockBody cfg s i key now) := by
  have hread : ∀ {v s₁}, getLocalUnlocked cfg s key now = (v, s₁) →
      ∀ s₂ : State K V, s₂.cache = s₁.cache → s₂.uses = s₁.uses → Layer cfg s e s₂ := by
    intro v s₁ hlocal s₂ hcache huses
    unfold getLocalUnlocked at hlocal
    split at hlocal
    · split at hlocal
      · obtain ⟨-, rfl⟩ := Prod.mk.inj hlocal
        exact .same hcache huses
      · rename_i entry hget
        split at hlocal
        · obtain ⟨-, rfl⟩ := Prod.mk.inj hlocal
          exact .drop (hcache ▸ List.filter_sublist) huses hstore
        · obtain ⟨-, rfl⟩ := Prod.mk.inj hlocal
          exact .touch key (Dict.mem_keys_iff.mpr (hget ▸ rfl)) hcache huses hstore
    · obtain ⟨-, rfl⟩ := Prod.mk.inj hlocal
      exact .same hcache huses
  unfold lockBody
  split
  · next hlocal => exact hread hlocal _ rfl rfl
  · rename_i hlocal
    split
    · exact hread hlocal _ rfl rfl
    · exact hread hlocal _ rfl rfl

theorem storeLocal_layer {value : V} {u : Draw}
    (hcache : s'.cache = (storeLocal cfg s key value u now).cache)
    (huses : s'.uses = (storeLocal cfg s key value u now).uses) : Layer cfg s e s' := by
  unfold storeLocal at hcache huses
  split at hcache
  · rename_i hstores
    rw [if_pos hstores] at huses
    exact .store key _ hcache huses
  · rename_i hstores
    rw [if_neg hstores] at huses
    exact .same hcache huses

theorem step_layer (hs : step cfg s e = some s') : Layer cfg s e s' := by
  cases e with
  | get key now =>
    cases hs
    exact peek_layer _ (.inl rfl)
  | lock i now =>
    simp only [step] at hs
    split at hs
    · cases hs
      exact lockBody_layer rfl
    · cases hs
  | store j value u now =>
    simp only [step] at hs
    split at hs
    · cases hs
      exact storeLocal_layer rfl rfl
    · cases hs
  | finish j outcome =>
    simp only [step] at hs
    split at hs
    · cases hs
    · cases hs
      exact .same rfl rfl
    · cases hs
  | wake i =>
    simp only [step] at hs
    split at hs
    · split at hs
      · cases hs
        exact .same rfl rfl
      · cases hs
    · cases hs
  | getCached key now =>
    cases hs
    exact peek_layer _ (.inr rfl)
  | answer i value u now =>
    simp only [step] at hs
    split at hs
    · cases hs
      exact .same rfl rfl
    · cases hs
      exact storeLocal_layer rfl rfl
    · cases hs
  | fail i | written i ok =>
    simp only [step] at hs
    split at hs
    · cases hs
      exact .same rfl rfl
    · cases hs
  | set key value u now =>
    cases hs
    exact storeLocal_layer rfl rfl
  | invalidate key =>
    cases hs
    exact .drop List.filter_sublist rfl rfl
  | clearLocal =>
    cases hs
    exact .drop (List.nil_sublist _) rfl rfl

/-! ### The order of last use -/

/-- The local layer stands by last use, within the limit. -/
structure Ordered (cfg : Settings V) (s : State K V) : Prop where
  byLastUse : ByLastUse s.uses s.cache.keys
  bounded : s.cache.size ≤ cfg.limit

omit [DecidableEq K] in
theorem evict_size (cache : Dict K (Entry V)) : (evict cfg cache).size ≤ cfg.limit := by
  have hsize : (evict cfg cache).size = cache.size - (cache.size - cfg.limit) := List.length_drop
  omega

/-- **The step lemma.** -/
theorem ordered_step (h : Ordered cfg s) (hok : hitsLast cfg s e = true)
    (hs : step cfg s e = some s') : Ordered cfg s' := by
  cases step_layer hs with
  | same hcache huses =>
    constructor
    · rw [hcache, huses]
      exact h.byLastUse
    · rw [hcache]
      exact h.bounded
  | hit key now hpeek he hcache huses =>
    have hlast : s.cache.keys.getLast? = some key := by
      rcases he with rfl | rfl <;> simpa [hitsLast, hpeek] using hok
    constructor
    · rw [hcache, huses]
      exact h.byLastUse.touch_last hlast
    · rw [hcache]
      exact h.bounded
  | touch key hkey hcache huses =>
    constructor
    · rw [hcache, huses, Dict.keys_moveToEnd hkey]
      exact h.byLastUse.touch key
    · rw [hcache, Dict.size_moveToEnd]
      exact h.bounded
  | drop hsub huses =>
    constructor
    · rw [huses]
      exact h.byLastUse.sublist (hsub.map Prod.fst)
    · exact hsub.length_le.trans h.bounded
  | store key entry hcache huses =>
    constructor
    · rw [hcache, huses]
      refine ByLastUse.sublist ?_ ((List.drop_sublist ..).map Prod.fst)
      have htouched := h.byLastUse.touch key
      rwa [← Dict.keys_moveToEnd_set s.cache key entry] at htouched
    · rw [hcache]
      exact evict_size _

theorem not_ordered_step (hnot : ¬ hitsLast cfg s e = true) (hs : step cfg s e = some s') :
    ¬ ByLastUse s'.uses s'.cache.keys := by
  have hpeek : ∀ {key now}, ¬ ((peekLocal cfg s key now).isNone ||
      decide (s.cache.keys.getLast? = some key)) = true → ∀ missed : Call K V,
      ¬ ByLastUse (peek cfg s key now missed).uses (peek cfg s key now missed).cache.keys := by
    intro key now hnot missed
    simp only [Bool.or_eq_true, Option.isNone_iff_eq_none, decide_eq_true_eq, not_or] at hnot
    obtain ⟨v, hv⟩ := Option.ne_none_iff_exists'.mp hnot.1
    rw [peek, hv]
    exact not_byLastUse_of_use (mem_keys_of_peekLocal hnot.1) hnot.2
  cases e with
  | get key now | getCached key now =>
    cases hs
    exact hpeek hnot _
  | lock | store | finish | wake | answer | fail | set | written | invalidate | clearLocal =>
    exact absurd rfl hnot

/-- A store evicts nothing, or it stores a new key in a full layer and evicts the first one. -/
theorem evicted_first (h : s.cache.size ≤ cfg.limit) {k : K} {entry : Entry V}
    (hk : k ∈ s.cache.keys) (hgone : k ∉ (evict cfg ((s.cache.set key entry).moveToEnd key)).keys) :
    k ∈ s.cache.keys.take 1 := by
  have hkeys : (evict cfg ((s.cache.set key entry).moveToEnd key)).keys =
      (s.cache.keys.filter (· ≠ key) ++ [key]).drop ((s.cache.set key entry).size - cfg.limit) := by
    rw [← Dict.keys_moveToEnd_set s.cache key entry, evict, Dict.size_moveToEnd]
    exact List.map_drop
  rw [hkeys, Dict.size_set] at hgone
  by_cases hnew : key ∈ s.cache.keys
  · rw [if_pos hnew, Nat.sub_eq_zero_of_le h, List.drop_zero] at hgone
    refine absurd ?_ hgone
    by_cases heq : k = key <;> simp [heq, hk]
  · have hfilter : s.cache.keys.filter (· ≠ key) = s.cache.keys :=
      List.filter_eq_self.mpr fun a ha => decide_eq_true fun heq => hnew (heq ▸ ha)
    rw [if_neg hnew, hfilter] at hgone
    have hle : s.cache.size + 1 - cfg.limit ≤ 1 := by omega
    have hmem : k ∈ s.cache.keys ++ [key] := List.mem_append_left _ hk
    rw [← List.take_append_drop (s.cache.size + 1 - cfg.limit) (s.cache.keys ++ [key]),
      List.mem_append] at hmem
    have htake := (List.take_subset_take_left _ hle) (hmem.resolve_right hgone)
    rwa [List.take_append_of_le_length (List.length_pos_of_mem hk)] at htake

theorem usedBefore_of_evicted (h : Ordered cfg s) (hs : step cfg s e = some s')
    (hstore : e.isStore = true) {k k' : K} (hk : k ∈ s.cache.keys) (hgone : k ∉ s'.cache.keys)
    (hk' : k' ∈ s.cache.keys) (hne : k' ≠ k) : UsedBefore s.uses k k' := by
  cases step_layer hs with
  | same hcache | hit _ _ _ _ hcache => exact absurd (hcache ▸ hk) hgone
  | touch _ _ _ _ hnot | drop _ _ hnot => exact absurd hstore (hnot ▸ Bool.false_ne_true)
  | store key entry hcache =>
    have hfirst := evicted_first h.bounded hk (hcache ▸ hgone)
    refine h.byLastUse.before 1 hfirst ?_
    rw [← List.take_append_drop 1 s.cache.keys, List.mem_append] at hk'
    refine hk'.resolve_left fun hk' => hne ?_
    cases hkeys : s.cache.keys with
    | nil => simp [hkeys] at hfirst
    | cons a keys => simp_all

/-- **The local layer evicts the least recently used key**: the keys stand by last use throughout a
run exactly if every lock-free hit was on the key used last, and then an evicted key was used before
all others. -/
theorem evicts_least_recently_used (cfg : Settings V) (es : List (Event K V)) (s : State K V)
    (hrun : run (step cfg) .initial es = some s) :
    ((∀ done s₁, done <+: es → run (step cfg) .initial done = some s₁ →
        ByLastUse s₁.uses s₁.cache.keys) ↔
      StepsMeet (step cfg) (fun s e => hitsLast cfg s e = true) .initial es) ∧
    (StepsMeet (step cfg) (fun s e => hitsLast cfg s e = true) .initial es →
      ∀ e s', step cfg s e = some s' → e.isStore = true →
        ∀ k ∈ s.cache.keys, k ∉ s'.cache.keys → ∀ k' ∈ s.cache.keys, k' ≠ k →
          UsedBefore s.uses k k') := by
  have hinitial : Ordered cfg (.initial : State K V) := ⟨.nil _, Nat.zero_le _⟩
  constructor
  · exact throughout_iff (I := Ordered cfg) Ordered.byLastUse
      (fun h _ hok hs => ordered_step h hok hs) (fun _ _ hnot hs => not_ordered_step hnot hs)
      hinitial (stepsMeet_true ..) hrun
  · intro hmeets e s' hs hstore k hk hgone k' hk' hne
    have h := run_invariant_where (fun h hok hs => ordered_step h hok hs) hinitial hmeets hrun
    exact usedBefore_of_evicted h hs hstore hk hgone hk' hne

end

/-- A local cache of at most two entries. -/
def twoEntries : Settings ℕ := ⟨Cache.defaultCache .local (by decide), 2⟩

/-- Two stores and a lock-free hit on `key`. -/
def filledSchedule (key : ℕ) : List (Event ℕ ℕ) :=
  [.set 1 10 noJitter 0, .set 2 20 noJitter 0, .get key 1]

theorem evicts_least_recently_used_filledSchedule :
    ∃ s s', run (step twoEntries) .initial (filledSchedule 2) = some s ∧
      step twoEntries s (.set 3 30 noJitter 2) = some s' ∧
      1 ∈ s.cache.keys ∧ 1 ∉ s'.cache.keys ∧ UsedBefore s.uses 1 2 := by
  refine ⟨_, _, rfl, rfl, by decide +kernel, by decide +kernel, ?_⟩
  exact (evicts_least_recently_used twoEntries (filledSchedule 2) _ rfl).2 (by decide +kernel)
    (.set 3 30 noJitter 2) _ rfl rfl 1 (by decide +kernel) (by decide +kernel) 2
    (by decide +kernel) (by decide)

/-- With two entries, the store of a third key evicts the key that was just read. -/
theorem peeked_key_evicted :
    ∃ s s', run (step twoEntries) .initial (filledSchedule 1) = some s ∧
      step twoEntries s (.set 3 30 noJitter 2) = some s' ∧
      s.cache.keys = [1, 2] ∧ s'.cache.keys = [2, 3] ∧
      ¬ UsedBefore s.uses 1 2 ∧ UsedBefore s.uses 2 1 := by
  have huses : (run (step twoEntries) .initial (filledSchedule 1)).map State.uses =
      some ([1, 2] ++ [1]) := by
    decide +kernel
  obtain ⟨s, hs, huses⟩ := Option.map_eq_some_iff.mp huses
  cases hs
  refine ⟨_, _, rfl, rfl, by decide +kernel, by decide +kernel, ?_⟩
  rw [huses]
  exact ⟨not_usedBefore_of_last, usedBefore_concat_self (by decide) (by decide)⟩

end ServiceToolkit.CacheOrder
