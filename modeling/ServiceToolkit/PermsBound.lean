import ServiceToolkit.PermsIsolation

/-!
# The Bound of the Permission Cache

`_store` keeps the cache within `max_entries` by dropping one subject for each one it adds. The
size is an invariant of the step (`bounded_step`), and what leaves the cache without an
invalidation of its user is a subject with the oldest `fetched_at` (`oldest_of_dropped`).

The constructor takes any integer for `max_entries`. For one below `1` an empty cache already
counts as full, and `min` has no subject to pick: `_store` raises, and the answer the provider
gave is lost with it. **So the cache is bounded and storing never fails exactly for
`max_entries` of at least `1`** (`perms_cache_bounded_iff`).
-/

namespace ServiceToolkit.Perms

open Option

/-- What a bounded cache promises: it holds at most `max(1, max_entries)` subjects, one dropped
without an invalidation has the oldest `fetched_at`, and a call whose fetch succeeded ends with the
answer. -/
structure BoundedStore (cfg : Config) (s : State) : Prop where
  bounded : (s.cache.size : ℤ) ≤ max 1 cfg.maxEntries
  oldest : ∀ e s' k entry, step cfg s e = some s' → s.cache.get? k = some entry →
    ¬ e.Invalidates k.1 → s'.cache.get? k = none →
    ∀ k' entry', s.cache.get? k' = some entry' → entry.fetchedAt ≤ entry'.fetchedAt
  answered : ∀ i c f x entry, s.calls[i]? = some c → c.mustCancel = false →
    c.phase.awaits = some f → s.fetches[f]? = some x → x.phase = .finished (.entry entry) →
    ∃ s', step cfg s (.resume i) = some s' ∧
      s'.calls[i]? =
        some { c with phase := .done (.perms (.ofEntry c.key.1 entry) entry.fetch) }

/-! ### Storing -/

section

variable {cfg : Config} {cache cache' : Dict SubjectKey CacheEntry} {key k : SubjectKey}
  {entry : CacheEntry}

theorem oldest_spec (h : oldest cache = some k) : ∃ e, cache.get? k = some e ∧
      ∀ k' e', cache.get? k' = some e' → e.fetchedAt ≤ e'.fetchedAt := by
  obtain ⟨⟨k₀, e⟩, hmin, rfl⟩ := map_eq_some_iff.mp h
  refine ⟨e, Dict.mem_entries_iff.mp (List.argmin_mem hmin), fun k' e' hget => ?_⟩
  exact List.le_of_mem_argmin (f := fun e => e.2.fetchedAt) (Dict.mem_entries_iff.mpr hget) hmin

/-- A store keeps the bound: where it adds a subject to a full cache, it drops one. -/
theorem size_store (h : store cfg cache key entry = some cache')
    (hsize : (cache.size : ℤ) ≤ max 1 cfg.maxEntries) :
    (cache'.size : ℤ) ≤ max 1 cfg.maxEntries := by
  unfold store at h
  split at h
  · rename_i hfull
    obtain ⟨old, hold, rfl⟩ := map_eq_some_iff.mp h
    obtain ⟨e, hget, -⟩ := oldest_spec hold
    have hmem : old ∈ cache.keys := by
      rw [Dict.mem_keys_iff, hget]
      rfl
    have hpos : 0 < cache.size := Dict.length_keys cache ▸ List.length_pos_of_mem hmem
    have hnew : key ∉ (cache.erase old).keys := by
      rw [Dict.keys_erase]
      exact fun hkey => hfull.1 (List.mem_of_mem_filter hkey)
    rw [Dict.size_set, if_neg hnew, Dict.size_erase_of_mem hmem]
    omega
  · rename_i hroom
    cases h
    rw [Dict.size_set]
    split
    · exact hsize
    · rename_i hnew
      have : ¬ cfg.maxEntries ≤ cache.size := fun hle => hroom ⟨hnew, hle⟩
      omega

/-- **What a store drops** is a subject with the oldest `fetched_at`. -/
theorem oldest_of_dropped (h : store cfg cache key entry = some cache') {e : CacheEntry}
    (hget : cache.get? k = some e) (hgone : cache'.get? k = none) {k' : SubjectKey}
    {e' : CacheEntry} (hget' : cache.get? k' = some e') : e.fetchedAt ≤ e'.fetchedAt := by
  unfold store at h
  split at h
  · obtain ⟨old, hold, rfl⟩ := map_eq_some_iff.mp h
    obtain ⟨e₀, hget₀, hleast⟩ := oldest_spec hold
    rw [Dict.get?_set, Dict.get?_erase] at hgone
    split at hgone
    · cases hgone
    · split at hgone
      · rename_i hk
        subst hk
        obtain rfl : e₀ = e := some.inj (hget₀.symm.trans hget)
        exact hleast k' e' hget'
      · rw [hget] at hgone
        cases hgone
  · cases h
    rw [Dict.get?_set, hget] at hgone
    split at hgone <;> cases hgone

end

/-! ### The steps -/

section

variable {cfg : Config} {s s' : State} {e : Event}

/-- What an event does to the cache without storing: it adds nothing, and drops answers of users
it invalidates only. -/
structure OnlyInvalidates (e : Event) (before after : Dict SubjectKey CacheEntry) : Prop where
  size : after.size ≤ before.size
  get? : ∀ k, ¬ e.Invalidates k.1 → after.get? k = before.get? k

theorem OnlyInvalidates.of_eq {before after : Dict SubjectKey CacheEntry}
    (h : after = before) : OnlyInvalidates e before after := by
  subst h
  exact ⟨le_rfl, fun _ _ => rfl⟩

theorem closeFetch_cache (i : ℕ) (c : Call) (f epoch : ℕ) (o : Outcome) :
    (closeFetch cfg s i c f epoch o).cache = (settle cfg s c.key epoch o).1 := by
  rw [closeFetch]
  dsimp only [State.setPhase, finish]
  split
  · rfl
  · split <;> rfl

theorem settle_cache_cases (key : SubjectKey) (epoch : ℕ) (o : Outcome) :
    (settle cfg s key epoch o).1 = s.cache ∨
      ∃ entry, store cfg s.cache key entry = some (settle cfg s key epoch o).1 := by
  cases o with
  | failed | cancelled => exact .inl rfl
  | entry entry =>
    simp only [settle]
    split
    · cases hstore : store cfg s.cache key entry with
      | none => exact .inl rfl
      | some cache => exact .inr ⟨entry, hstore⟩
    · exact .inl rfl

theorem invalidateMany_cache (uids : List ℤ) :
    OnlyInvalidates (.invalidateMany uids) s.cache (invalidateMany s uids).cache where
  size := List.length_filter_le ..
  get? k hk := by
    have hnot : k.1 ∉ uids := hk
    simp [invalidateMany, hnot]

/-- **What an event does to the cache**: a `_store`, or nothing but invalidations. -/
theorem step_cache (h : step cfg s e = some s') : OnlyInvalidates e s.cache s'.cache ∨
      ∃ key entry, store cfg s.cache key entry = some s'.cache := by
  cases e with
  | get key now =>
    cases h
    exact .inl (.of_eq rfl)
  | acquire i =>
    simp only [step, bind, bind_eq_some_iff] at h
    obtain ⟨c, -, h⟩ := h
    refine .inl (.of_eq ?_)
    split at h
    · split at h
      · cases h
        rfl
      · cases h
        unfold lockBody
        split <;> rfl
    · cases h
  | resume i =>
    simp only [step, bind, bind_eq_some_iff, resume] at h
    obtain ⟨c, -, h⟩ := h
    split at h
    · obtain ⟨o, -, rfl⟩ := map_eq_some_iff.mp h
      exact .inl (.of_eq rfl)
    · rename_i f epoch _
      obtain ⟨o, -, rfl⟩ := map_eq_some_iff.mp h
      rw [closeFetch_cache]
      rcases settle_cache_cases c.key epoch o with heq | ⟨entry, hstore⟩
      · exact .inl (.of_eq heq)
      · exact .inr ⟨c.key, entry, hstore⟩
    · cases h
  | cancel i =>
    simp only [step, bind, bind_eq_some_iff, pure_def, some.injEq] at h
    obtain ⟨c, -, rfl⟩ := h
    refine .inl (.of_eq ?_)
    rcases cancel_cases (s := s) (i := i) c with ⟨f, x, -, -, -, heq⟩ | heq <;> rw [heq]
  | start f | answer f r now | fail f | abandon f =>
    simp only [step, moveFetch, bind, bind_eq_some_iff, pure_def, some.injEq] at h
    obtain ⟨x, -, phase, -, rfl⟩ := h
    exact .inl (.of_eq rfl)
  | invalidateMany uids =>
    cases h
    exact .inl (invalidateMany_cache uids)
  | clear =>
    cases h
    exact .inl ⟨Nat.zero_le _, fun k hk => absurd trivial hk⟩

theorem bounded_step (hsize : (s.cache.size : ℤ) ≤ max 1 cfg.maxEntries)
    (h : step cfg s e = some s') : (s'.cache.size : ℤ) ≤ max 1 cfg.maxEntries := by
  rcases step_cache h with honly | ⟨key, entry, hstore⟩
  · exact le_trans (Int.ofNat_le.mpr honly.size) hsize
  · exact size_store hstore hsize

/-- **The run lemma**: in every run the cache is within the bound, whatever `max_entries` is. -/
theorem bounded_run {es : List Event} (hrun : run (step cfg) .initial es = some s) :
    (s.cache.size : ℤ) ≤ max 1 cfg.maxEntries := by
  refine run_invariant (fun hsize h => bounded_step hsize h) ?_ hrun
  exact le_trans Int.one_nonneg (le_max_left ..)

theorem oldest_of_step {k : SubjectKey} {entry : CacheEntry} (h : step cfg s e = some s')
    (hget : s.cache.get? k = some entry) (hnot : ¬ e.Invalidates k.1)
    (hgone : s'.cache.get? k = none) {k' : SubjectKey} {entry' : CacheEntry}
    (hget' : s.cache.get? k' = some entry') : entry.fetchedAt ≤ entry'.fetchedAt := by
  rcases step_cache h with honly | ⟨key, stored, hstore⟩
  · rw [honly.get? k hnot, hget] at hgone
    cases hgone
  · exact oldest_of_dropped hstore hget hgone hget'

end

/-! ### The first answer -/

/-- One call of `get`, up to the provider's answer. -/
def firstAnswer : List Event :=
  [.get (1, none) 0, .acquire 0, .start 0, .answer 0 ⟨some 5, some 1, none, none⟩ 1]

/-- The entry of that answer. -/
def firstEntry : CacheEntry := ⟨5, 1, [], 0, 1, 0⟩

/-- The resolver after it: nothing is cached yet, and the call has not woken up. -/
def answeredState : State where
  cache := .empty
  inflight := .ofList [((1, none), 0)]
  epochs := .empty
  running := .ofList [(1, 1)]
  fetches := [⟨(1, none), .finished (.entry firstEntry), false⟩]
  calls := [⟨(1, none), .owner 0 0, false⟩]

theorem run_firstAnswer (cfg : Config) :
    run (step cfg) .initial firstAnswer = some answeredState := rfl

/-- Where an empty cache counts as full, the call ends with the exception of `min`. -/
theorem raised_of_not_one_le {cfg : Config} (hmax : ¬ 1 ≤ cfg.maxEntries) :
    (step cfg answeredState (.resume 0)).bind (fun s => s.calls[0]?) =
      some ⟨(1, none), .done .raised, false⟩ := by
  have hfull : cfg.maxEntries ≤ ((Dict.empty : Dict SubjectKey CacheEntry).size : ℤ) := by
    change cfg.maxEntries ≤ 0
    omega
  have hstore : store cfg .empty (1, none) firstEntry = none := by
    rw [store, if_pos ⟨List.not_mem_nil, hfull⟩]
    rfl
  have hsettle : settle cfg answeredState (1, none) 0 (.entry firstEntry) = (.empty, .raised) := by
    have hepoch : answeredState.epochs.getD 1 0 = 0 := rfl
    simp only [settle, hepoch, if_true]
    rw [show answeredState.cache = .empty from rfl, hstore]
  have hresume : step cfg answeredState (.resume 0) =
      some (closeFetch cfg answeredState 0 ⟨(1, none), .owner 0 0, false⟩ 0 0
        (.entry firstEntry)) := rfl
  rw [hresume, bind_some, closeFetch, hsettle]
  rfl

/-- **The bound**: for every configuration, in every state of every run the cache is bounded and
storing never fails, exactly when `max_entries` is at least `1`. -/
theorem perms_cache_bounded_iff (cfg : Config) :
    (∀ es s, run (step cfg) .initial es = some s → BoundedStore cfg s) ↔ 1 ≤ cfg.maxEntries := by
  constructor
  · intro h
    by_contra hmax
    obtain ⟨s', hstep, hcall⟩ := (h firstAnswer answeredState (run_firstAnswer cfg)).answered 0
      ⟨(1, none), .owner 0 0, false⟩ 0 _ firstEntry rfl rfl rfl rfl rfl
    have hraised := raised_of_not_one_le hmax
    rw [hstep, bind_some, hcall] at hraised
    cases hraised
  · intro hmax es s hrun
    refine ⟨bounded_run hrun, ?_, ?_⟩
    · intro e s' k entry hstep hget hnot hgone k' entry' hget'
      exact oldest_of_step hstep hget hnot hgone hget'
    · intro i c f x entry hi hmarked hf hx hentry
      exact resume_of_not_marked (inv_run hrun) hmax hi hmarked hf hx hentry

/-- With `max_entries = 0` the provider answered the one fetch, and its call raises. -/
theorem answer_lost_without_room :
    ∃ s s', run (step ⟨30, 0⟩) .initial firstAnswer = some s ∧
      s.fetches = [⟨(1, none), .finished (.entry firstEntry), false⟩] ∧
      step ⟨30, 0⟩ s (.resume 0) = some s' ∧
      s'.calls = [⟨(1, none), .done .raised, false⟩] := by
  have hcalls : (step ⟨30, 0⟩ answeredState (.resume 0)).map State.calls =
      some [⟨(1, none), .done .raised, false⟩] := by decide +kernel
  obtain ⟨s', hs', hcalls⟩ := map_eq_some_iff.mp hcalls
  exact ⟨answeredState, s', run_firstAnswer _, rfl, hs', hcalls⟩

end ServiceToolkit.Perms
