import ServiceToolkit.PermsBookkeeping

/-!
# The Invalidation Fence of the Permission Resolver

A reader that starts after an invalidation must not see an answer from before it, neither
from the cache nor by joining a fetch that was already running. The fence is an epoch
number per user, and the number is forgotten whenever the user's last running fetch ends,
so the argument has to tie four dictionaries together over every schedule.

`Fenced u n m` is what an invalidation of `u` establishes, when `n` fetches and `m` calls
had started by then, and what no event undoes: `inflight` and the cache hold only fetches
of `u` numbered from `n` on, an older owner's epoch is behind for as long as it runs, and
every call of `u` numbered from `m` on awaits or returns a fetch numbered from `n` on.
-/

namespace ServiceToolkit.Perms

open List Option

/-- What the fence asks of one call of the user that started after the invalidation: the
fetch it awaits, or answers from, started after it too. -/
def LaterFetch (n : ℕ) : Phase → Prop
  | .joined f => n ≤ f
  | .owner f _ => n ≤ f
  | .done (.perms _ f) => n ≤ f
  | _ => True

/-- The fence an invalidation of `u` leaves behind, when `n` fetches and `m` calls had
started. -/
structure Fenced (u : ℤ) (n m : ℕ) (s : State) : Prop where
  fetches : n ≤ s.fetches.length
  calls : m ≤ s.calls.length
  inflight : ∀ {k : SubjectKey} {f : ℕ}, k.1 = u → s.inflight.get? k = some f → n ≤ f
  cache : ∀ {k : SubjectKey} {e : CacheEntry}, k.1 = u → s.cache.get? k = some e → n ≤ e.fetch
  owner : ∀ {c : Call} {f e : ℕ}, c ∈ s.calls → c.key.1 = u → c.phase = .owner f e → f < n →
    e < s.epochs.getD u 0
  later : ∀ {i : ℕ} {c : Call}, m ≤ i → s.calls[i]? = some c → c.key.1 = u →
    LaterFetch n c.phase

variable {s : State}

theorem invalidateMany_get?_none {uids : List ℤ} {k : SubjectKey} (hk : k.1 ∈ uids) :
    (invalidateMany s uids).cache.get? k = none ∧
      (invalidateMany s uids).inflight.get? k = none := by
  constructor
  · show (s.cache.filterKeys _).get? k = none
    simp [hk]
  · show (s.inflight.filterKeys _).get? k = none
    simp [hk]

variable {u : ℤ}

/-- **An invalidation puts up the fence**: every owner of the user is one epoch behind. -/
theorem Inv.fenced_invalidateMany (h : Inv s) {uids : List ℤ} (hu : u ∈ uids) :
    Fenced u s.fetches.length s.calls.length (invalidateMany s uids) where
  fetches := le_rfl
  calls := le_rfl
  inflight hk hf := by
    rw [(invalidateMany_get?_none (hk ▸ hu)).2] at hf
    exact absurd hf (by simp)
  cache hk he := by
    rw [(invalidateMany_get?_none (hk ▸ hu)).1] at he
    exact absurd he (by simp)
  owner {c f e} hc hk hp _ := by
    have hle := (h.calls c hc).epoch hp
    obtain ⟨i, hi⟩ := mem_iff_getElem?.mp hc
    have hrun : u ∈ s.running.keys := by
      rw [Dict.mem_keys_iff, ← hk, h.running_owner hi hp]
      rfl
    show e < (bumpEpochs s.running s.epochs uids.dedup).getD u 0
    rw [bumpEpochs_getD _ _ _ _ (nodup_dedup uids),
      if_pos ⟨mem_dedup.mpr hu, hrun⟩]
    rw [hk] at hle
    exact Nat.lt_succ_of_le hle
  later {i c} hi hc := by
    have hlt : i < s.calls.length := lt_of_getElem? hc
    exact absurd hi (by omega)

/-- `clear` puts up the fence of every user: one that is neither cached nor running has
nothing to fence. -/
theorem Inv.fenced_clear (h : Inv s) (u : ℤ) :
    Fenced u s.fetches.length s.calls.length (clear s) := by
  by_cases hu : u ∈ (s.cache.keys.map Prod.fst).dedup ∪ s.running.keys
  · have hf := h.fenced_invalidateMany hu
    exact ⟨hf.fetches, hf.calls, hf.inflight, fun _ hk => absurd hk (by simp [Perms.clear]),
      hf.owner, hf.later⟩
  · rw [mem_union_iff, not_or] at hu
    refine ⟨le_rfl, le_rfl, fun hk hf => ?_, fun _ hk => absurd hk (by simp [Perms.clear]),
      fun hc hk hp _ => ?_, fun {i c} hi hc => ?_⟩
    · exact absurd (hk ▸ h.cleared.inflight_running hf) hu.2
    · obtain ⟨i, hi⟩ := mem_iff_getElem?.mp hc
      have hrun := h.running_owner hi hp
      rw [hk] at hrun
      exact absurd (Dict.mem_keys_iff.mpr (by rw [hrun]; rfl)) hu.2
    · have hlt : i < s.calls.length := lt_of_getElem? hc
      exact absurd hi (by omega)

variable {cfg : Config} {s' : State} {ev : Event}

/-- An invalidation puts up the fence. -/
theorem fenced_of_invalidates (h : Inv s) (hev : ev.Invalidates u) (hs : step cfg s ev = some s') :
    Fenced u s.fetches.length s.calls.length s' := by
  cases ev with
  | invalidateMany uids =>
    cases hs
    exact h.fenced_invalidateMany hev
  | clear =>
    cases hs
    exact h.fenced_clear u
  | _ => exact absurd hev id

variable {i m n : ℕ} {c : Call}

section

variable (h : Fenced u n m s)
include h

theorem Fenced.congr (hfetches : s.fetches.length ≤ s'.fetches.length)
    (hcalls : s'.calls = s.calls) (hinflight : s'.inflight = s.inflight)
    (hcache : s'.cache = s.cache) (hepochs : s'.epochs = s.epochs) : Fenced u n m s' where
  fetches := le_trans h.fetches hfetches
  calls := hcalls ▸ h.calls
  inflight hk hf := h.inflight hk (hinflight ▸ hf)
  cache hk he := h.cache hk (hcache ▸ he)
  owner hc hk hp hf := hepochs ▸ h.owner (hcalls ▸ hc) hk hp hf
  later hi hc hk := h.later hi (hcalls ▸ hc) hk

theorem Fenced.laterFetch_moving (hi : Inv s) {phase : Phase} (hu : c.key.1 = u) (hm : m ≤ i)
    (hc : s.calls[i]? = some c) (hmv : Moving s c phase) : LaterFetch n phase := by
  cases hmv with
  | joined f hf hp => rw [hp]; exact h.inflight hu hf
  | answered f x e hj hx he hp =>
    have hlater := h.later hm hc hu
    rw [hj] at hlater
    rw [hp]
    exact (hi.entry hx he).symm ▸ hlater
  | raised hp | cancelled hp => rw [hp]; trivial

theorem Fenced.enter (hc : Entering s c) : Fenced u n m { s with calls := s.calls ++ [c] } where
  fetches := h.fetches
  calls := by
    rw [length_append]
    exact le_trans h.calls (Nat.le_add_right _ _)
  inflight := h.inflight
  cache := h.cache
  owner {c' f e} hmem hk hp hf := by
    rcases mem_append.mp hmem with hmem | hmem
    · exact h.owner hmem hk hp hf
    · rw [mem_singleton.mp hmem] at hp
      exact absurd hp (hc.ne_owner f e)
  later {i c'} hi hget hk := by
    rw [getElem?_append] at hget
    split at hget
    · exact h.later hi hget hk
    · obtain rfl := mem_singleton.mp (mem_of_getElem? hget)
      cases hc with
      | cached e hget hp => rw [hp]; exact h.cache hk hget
      | joined f hf hp => rw [hp]; exact h.inflight hk hf
      | locking hp => rw [hp]; trivial

theorem Fenced.set (i : ℕ) (c : Call) (epochs : Dict ℤ ℕ)
    (howner : ∀ {f e}, c.key.1 = u → c.phase = .owner f e → f < n → e < epochs.getD u 0)
    (hlater : c.key.1 = u → m ≤ i → LaterFetch n c.phase)
    (hep : ∀ {j c' f e}, i ≠ j → s.calls[j]? = some c' → c'.phase = .owner f e →
      epochs.getD c'.key.1 0 = s.epochs.getD c'.key.1 0) :
    Fenced u n m { s with calls := s.calls.set i c, epochs := epochs } where
  fetches := h.fetches
  calls := by
    rw [length_set]
    exact h.calls
  inflight := h.inflight
  cache := h.cache
  owner {c' f e} hmem hk hp hf := by
    obtain ⟨j, hj⟩ := mem_iff_getElem?.mp hmem
    refine forall_getElem?_set (P := fun _ (c' : Call) => c'.key.1 = u → c'.phase = .owner f e →
      e < epochs.getD u 0) (fun hj hne hk hp => ?_) (fun hk hp => howner hk hp hf) hj hk hp
    rw [← hk, hep hne.symm hj hp, hk]
    exact h.owner (mem_of_getElem? hj) hk hp hf
  later hm hj hk :=
    forall_getElem?_set (P := fun j (c' : Call) => m ≤ j → c'.key.1 = u → LaterFetch n c'.phase)
      (fun hj _ hm hk => h.later hm hj hk) (fun hm hk => hlater hk hm) hj hm hk

theorem Fenced.mark (hi : s.calls[i]? = some c) :
    Fenced u n m { s with calls := s.calls.set i { c with mustCancel := true } } :=
  h.set i { c with mustCancel := true } s.epochs (fun hk hp => h.owner (mem_of_getElem? hi) hk hp)
    (fun hk hm => h.later (c := c) hm hi hk) fun _ _ _ => rfl

theorem Fenced.create (hf : s.inflight.get? c.key = none) :
    Fenced u n m (lockBody s i c) := by
  have hset := h.set i { c with phase := .owner s.fetches.length (s.epochs.getD c.key.1 0) }
    s.epochs (fun _ hp hlt => ?_) (fun _ _ => h.fetches) fun _ _ _ => rfl
  · rw [lockBody_create hf]
    refine ⟨?_, hset.calls, fun {k f} hk hget => ?_, h.cache, hset.owner, hset.later⟩
    · rw [length_append]
      exact le_trans h.fetches (Nat.le_add_right _ _)
    · rw [Dict.get?_set] at hget
      split at hget
      · cases hget
        exact h.fetches
      · exact h.inflight hk hget
  · -- the new owner's fetch is the newest of all
    have hfn := h.fetches
    rw [← (Phase.owner.inj hp).1] at hlt
    omega

/-- The end of an owner: an answer from before the fence finds its epoch moved on and is
not stored. -/
theorem Fenced.close (hinv : Inv s) {f epoch : ℕ} {o : Outcome} (hi : s.calls[i]? = some c)
    (hc : c.phase = .owner f epoch)
    (ho : ∀ e, o = .entry e → ∃ x, s.fetches[f]? = some x ∧ x.phase = .finished (.entry e)) :
    Fenced u n m (closeFetch cfg s i c f epoch o) := by
  have hfetch : ∀ e, o = .entry e → e.fetch = f := by
    intro e he
    obtain ⟨x, hx, hxe⟩ := ho e he
    exact hinv.entry hx hxe
  have hset := h.set i { c with phase := .done (settle cfg s c.key epoch o).2 }
    (if owners s.calls c.key.1 = 1 then s.epochs.erase c.key.1 else s.epochs) (by simp)
    (fun hu hm => by
      have hlater := h.later hm hi hu
      rw [hc] at hlater
      cases hr : (settle cfg s c.key epoch o).2 with
      | perms p f' =>
        obtain ⟨e, he, -, rfl⟩ := settle_result hr
        exact (hfetch e he).symm ▸ hlater
      | raised => trivial
      | cancelled => trivial)
    fun hij hj hp => epochs_of_other_owner hi hc hj hij hp
  rw [hinv.closeFetch_eq hi hc]
  refine ⟨hset.fetches, hset.calls, fun {k f'} hk hget => ?_, fun {k e} hk hget => ?_,
    hset.owner, hset.later⟩
  · exact h.inflight hk (inflight_of_closed hget).1
  · rcases settle_cache hget with hget | ⟨rfl, he, hep⟩
    · exact h.cache hk hget
    · by_contra hlt
      rw [hfetch e he] at hlt
      have hbehind := h.owner (mem_of_getElem? hi) hk hc (by omega)
      rw [hk] at hep
      omega

theorem Fenced.invalidated (uids : List ℤ) : Fenced u n m (invalidateMany s uids) where
  fetches := h.fetches
  calls := h.calls
  inflight {k f} hk hf := by
    have hf : (s.inflight.filterKeys fun k => k.1 ∉ uids.dedup).get? k = some f := hf
    rw [Dict.get?_filterKeys] at hf
    split at hf
    · exact h.inflight hk hf
    · exact absurd hf (by simp)
  cache {k e} hk he := by
    have he : (s.cache.filterKeys fun k => k.1 ∉ uids.dedup).get? k = some e := he
    rw [Dict.get?_filterKeys] at he
    split at he
    · exact h.cache hk he
    · exact absurd he (by simp)
  owner {c f e} hc hk hp hf := by
    show e < (bumpEpochs s.running s.epochs uids.dedup).getD u 0
    rw [bumpEpochs_getD _ _ _ _ (nodup_dedup uids)]
    exact Nat.lt_add_right _ (h.owner hc hk hp hf)
  later := h.later

theorem Fenced.cleared : Fenced u n m (clear s) := by
  have hf := h.invalidated ((s.cache.keys.map Prod.fst).dedup ∪ s.running.keys)
  exact ⟨hf.fetches, hf.calls, hf.inflight, fun _ hk => absurd hk (by simp [clear]), hf.owner,
    hf.later⟩

end

/-- A step keeps the fence. -/
theorem fenced_step
    (hinv : Inv s) (h : Fenced u n m s) (hs : step cfg s ev = some s') : Fenced u n m s' := by
  cases step_effect hs with
  | enter c hc => exact h.enter hc
  | move i c phase hi hc hm =>
    exact h.set i { c with phase := phase } s.epochs (fun _ hp => absurd hp (hm.ne_owner _ _))
      (fun hu hmi => h.laterFetch_moving (c := c) hinv hu hmi hi hm) fun _ _ _ => rfl
  | mark i c hi => exact h.mark hi
  | create i c hi hc hf => exact h.create hf
  | close i c f epoch o hi hc ho => exact h.close hinv hi hc ho
  | fetch f x x' hx hu hk he => exact h.congr (by simp) rfl rfl rfl rfl
  | invalidate uids => exact h.invalidated uids
  | clear => exact h.cleared

/-- The fence stands for good. -/
theorem fenced_run {es : List Event}
    (hinv : Inv s) (h : Fenced u n m s) (hs : run (step cfg) s es = some s') : Fenced u n m s' :=
  (run_invariant (P := fun s => Inv s ∧ Fenced u n m s)
    (fun hh hs => ⟨inv_step hh.1 hs, fenced_step hh.1 hh.2 hs⟩) ⟨hinv, h⟩ hs).2

/-! ### No answer from before the invalidation -/

theorem call_key_step {key : SubjectKey}
    (h : (s.calls[i]?).map Call.key = some key) (hs : step cfg s ev = some s') :
    (s'.calls[i]?).map Call.key = some key := by
  have hset : ∀ {j : ℕ} {c c' : Call}, s.calls[j]? = some c → c'.key = c.key →
      ((s.calls.set j c')[i]?).map Call.key = some key := by
    intro j c c' hj hk
    by_cases hij : j = i
    · subst hij
      rw [hj, map_some] at h
      rw [getElem?_set_some hj, map_some, hk, h]
    · rw [getElem?_set_ne hij, h]
  cases step_effect hs with
  | enter c hc =>
    obtain ⟨c', hc', -⟩ := map_eq_some_iff.mp h
    show ((s.calls ++ [c])[i]?).map Call.key = some key
    rw [getElem?_append_left (lt_of_getElem? hc'), h]
  | move j c phase hj hc hm | mark j c hj => exact hset hj rfl
  | create j c hj hc hf =>
    rw [lockBody_create hf]
    exact hset hj rfl
  | close j c f epoch o hj hc ho =>
    have hcalls : (closeFetch cfg s j c f epoch o).calls =
        s.calls.set j { c with phase := .done (finish
          { s with cache := (settle cfg s c.key epoch o).1 } c.key f
          (settle cfg s c.key epoch o).2).2 } := by
      unfold closeFetch finish State.setPhase
      dsimp only
      split
      · rfl
      · split <;> rfl
    rw [hcalls]
    exact hset hj rfl
  | fetch f x x' hx hu hk he | invalidate uids | clear => exact h

/-- **No stale and no foreign answer**, along every schedule: every answer a call receives was
produced by a fetch for exactly its subject; and a call that starts after an invalidation of its
user never receives an answer of a fetch created before it, from the cache or by joining it. Fetches
are numbered as they are created, so those are the ones below `s₁.fetches.length`. -/
theorem get_after_invalidation_fresh {cfg : Config} {es : List Event} {s : State}
    (h : run (step cfg) State.initial es = some s) :
    (∀ (i : ℕ) (c : Call) (p : PlatformPerms) (f : ℕ), s.calls[i]? = some c →
      c.phase = .done (.perms p f) →
      ∃ (x : Fetch) (e : CacheEntry), s.fetches[f]? = some x ∧ x.key = c.key ∧
        x.phase = .finished (.entry e) ∧ p = .ofEntry c.key.1 e) ∧
    ∀ (es₁ es₂ es₃ : List Event) (ev : Event) (key : SubjectKey) (now : ℚ) (s₁ s₂ : State),
      es = es₁ ++ ev :: (es₂ ++ .get key now :: es₃) →
      ev.Invalidates key.1 → run (step cfg) State.initial es₁ = some s₁ →
      run (step cfg) State.initial (es₁ ++ ev :: es₂) = some s₂ →
      ∃ c : Call, s.calls[s₂.calls.length]? = some c ∧ c.key = key ∧
        ∀ p f, c.phase = .done (.perms p f) → s₁.fetches.length ≤ f := by
  constructor
  · intro i c p f hi hp
    obtain ⟨e, rfl, ⟨x, hx, hk, he⟩, rfl⟩ :=
      ((inv_run h).calls c (mem_of_getElem? hi)).answer hp
    exact ⟨x, e, hx, hk, he, rfl⟩
  · rintro es₁ es₂ es₃ ev key now s₁ s₂ rfl hev h₁ h₂
    have hinv₁ := inv_run h₁
    obtain ⟨s₁', h₁', h⟩ := run_append_eq_some h
    obtain rfl : s₁ = s₁' := some.inj (h₁.symm.trans h₁')
    obtain ⟨t, ht, h⟩ := run_cons_eq_some h
    obtain ⟨s₂', h₂', h⟩ := run_append_eq_some h
    obtain rfl : s₂ = s₂' := by
      rw [run_append, h₁, bind_some, run_cons, ht, bind_some, h₂'] at h₂
      exact (some.inj h₂).symm
    obtain ⟨g, hg, h⟩ := run_cons_eq_some h
    have hinv₂ := inv_run h₂
    have hfence₂ := fenced_run (inv_step hinv₁ ht) (fenced_of_invalidates hinv₁ hev ht) h₂'
    -- the call the `get` event adds keeps its number and its subject
    have hnew : (g.calls[s₂.calls.length]?).map Call.key = some key := by
      cases hg
      simp [Perms.get]
    have hkey := run_invariant (P := fun s => (s.calls[s₂.calls.length]?).map Call.key = some key)
      call_key_step hnew h
    obtain ⟨c, hc, hk⟩ := map_eq_some_iff.mp hkey
    refine ⟨c, hc, hk, fun p f hp => ?_⟩
    have hfence := fenced_run (inv_step hinv₂ hg) (fenced_step hinv₂ hfence₂ hg) h
    have hlater := hfence.later hfence₂.calls hc (by rw [hk])
    rw [hp] at hlater
    exact hlater

/-- A schedule with a read on each side of an invalidation: the first fetch is still in
flight when user 1 is invalidated and answers after it. -/
def overtakenSchedule : List Event :=
  [.get (1, none) 0, .acquire 0, .start 0, .invalidateMany [1], .get (1, none) 0,
    .acquire 1, .start 1, .answer 0 ⟨some 1, some 1, none, none⟩ 1, .resume 0,
    .answer 1 ⟨some 0, some 2, none, none⟩ 2, .resume 1]

/-- On that schedule the second read does answer, and it is fetch `1` that answers it. -/
theorem overtakenSchedule_fresh :
    ∃ s s₁ s₂ : State, run (step ⟨30, 10⟩) State.initial overtakenSchedule = some s ∧
      run (step ⟨30, 10⟩) State.initial [.get (1, none) 0, .acquire 0, .start 0] = some s₁ ∧
      run (step ⟨30, 10⟩) State.initial
        [.get (1, none) 0, .acquire 0, .start 0, .invalidateMany [1]] = some s₂ ∧
      s.calls[1]? = some ⟨(1, none), .done (.perms ⟨1, 0, 2, [], 0⟩ 1), false⟩ ∧
      ∃ c : Call, s.calls[s₂.calls.length]? = some c ∧ c.key = (1, none) ∧
        ∀ p f, c.phase = .done (.perms p f) → s₁.fetches.length ≤ f :=
  ⟨_, _, _, rfl, rfl, rfl, rfl,
    (@get_after_invalidation_fresh _ overtakenSchedule _ rfl).2
      [.get (1, none) 0, .acquire 0, .start 0] [] _ (.invalidateMany [1]) (1, none) 0 _ _
      rfl (by decide) rfl rfl⟩

end ServiceToolkit.Perms
