import Mathlib.Data.Set.Card
import ServiceToolkit.PermsFence

/-!
# The Ledger of Running Fetches

Three dictionaries of the permission resolver keep the books on its fetches: `running`
counts them per user, `epochs` fences them, and `inflight` says which one a new reader may
join. A fetch is entered when a call creates it under the lock and struck out in the
`finally` of that same call, which runs when the call wakes up. Between the two, a newer
fetch of the same subject may have taken its place in `inflight`.

`OwnerAt s i f e k` says that call `i` created fetch `f` for subject `k` in epoch `e` and
has not been through its `finally` yet; `FetchRuns s k f` says that some call does. A fetch
that runs may have its answer already (the call has yet to wake up): it is then
*finishing*. A task that is not finished always runs in this sense (`Ledger.unfinished`).
-/

namespace ServiceToolkit.Perms

open List

/-- Call `i` created fetch `f` for subject `k`, reading epoch `e`, and has not ended. -/
def OwnerAt (s : State) (i f e : ℕ) (k : SubjectKey) : Prop :=
  ∃ c, s.calls[i]? = some c ∧ c.key = k ∧ c.phase = .owner f e

/-- Fetch `f` of subject `k` **runs**: the call that created it has not been through its
`finally`. -/
def FetchRuns (s : State) (k : SubjectKey) (f : ℕ) : Prop :=
  ∃ i e, OwnerAt s i f e k

/-- The event that leads from `s` to `s'` starts a fetch of `k`. -/
def Starts (k : SubjectKey) (s s' : State) : Prop :=
  s'.fetches = s.fetches ++ [⟨k, .scheduled, false⟩]

/-! ### What an event does to the books -/

/-- An event that enters and strikes out nothing. -/
structure Quiet (s s' : State) : Prop where
  inflight : s'.inflight = s.inflight
  epochs : s'.epochs = s.epochs
  owner : ∀ i f e k, OwnerAt s' i f e k ↔ OwnerAt s i f e k
  length : s'.fetches.length = s.fetches.length
  unfinished : ∀ {f : ℕ} {x' : Fetch}, s'.fetches[f]? = some x' → x'.Unfinished →
    ∃ x, s.fetches[f]? = some x ∧ x.key = x'.key ∧ x.Unfinished

/-- What an event can do to the books, with the event where it matters. -/
inductive Booking (cfg : Config) (s : State) (ev : Event) : State → Prop
  | quiet (s' : State) (h : Quiet s s') : Booking cfg s ev s'
  | create (i : ℕ) (c : Call) (hi : s.calls[i]? = some c) (hc : c.phase = .locking)
      (hf : s.inflight.get? c.key = none) : Booking cfg s ev (lockBody s i c)
  | close (i : ℕ) (c : Call) (f e : ℕ) (o : Outcome) (hi : s.calls[i]? = some c)
      (hc : c.phase = .owner f e) (ho : awaited s c f = some o) :
      Booking cfg s ev (closeFetch cfg s i c f e o)
  | invalidate (uids : List ℤ) (cache : Dict SubjectKey CacheEntry)
      (hev : ∀ u ∈ uids, ev.Invalidates u) :
      Booking cfg s ev { invalidateMany s uids with cache := cache }

variable {s : State} {c : Call}

theorem quiet_concat (hc : ∀ f e, c.phase ≠ .owner f e) :
    Quiet s { s with calls := s.calls ++ [c] } := by
  refine ⟨rfl, rfl, fun i f e k => ?_, rfl, fun hx hu => ⟨_, hx, rfl, hu⟩⟩
  unfold OwnerAt
  by_cases hi : i = s.calls.length
  · subst hi
    simp [hc]
  · simp only [getElem?_concat_of_ne hi]

variable {i : ℕ}

theorem quiet_set {c' : Call} (hi : s.calls[i]? = some c)
    (hc : ∀ f e k, (c'.key = k ∧ c'.phase = .owner f e) ↔ (c.key = k ∧ c.phase = .owner f e)) :
    Quiet s { s with calls := s.calls.set i c' } := by
  refine ⟨rfl, rfl, fun j f e k => ?_, rfl, fun hx hu => ⟨_, hx, rfl, hu⟩⟩
  unfold OwnerAt
  by_cases hij : i = j
  · subst hij
    simp only [getElem?_set_some hi, hi, Option.some.injEq, exists_eq_left', hc]
  · simp only [getElem?_set_ne hij]

theorem quiet_setPhase {phase : Phase}
    (hi : s.calls[i]? = some c) (hc : ∀ f e, c.phase ≠ .owner f e)
    (hp : ∀ f e, phase ≠ .owner f e) : Quiet s (s.setPhase i c phase) :=
  quiet_set hi (by simp [hc, hp])

variable {f : ℕ}

theorem quiet_fetch {x x' : Fetch} (hx : s.fetches[f]? = some x)
    (hk : x'.key = x.key) (hu : x.Unfinished) :
    Quiet s { s with fetches := s.fetches.set f x' } := by
  refine ⟨rfl, rfl, fun _ _ _ _ => Iff.rfl, by simp, fun {g y} hy hyu => ?_⟩
  by_cases hfg : f = g
  · subst hfg
    rw [getElem?_set_some hx] at hy
    cases hy
    exact ⟨x, hx, hk.symm, hu⟩
  · rw [getElem?_set_ne hfg] at hy
    exact ⟨y, hy, rfl, hyu⟩

variable {s' : State}

theorem quiet_moveFetch {next : Fetch → Option FetchPhase}
    (hnext : ∀ {x ph}, next x = some ph → x.Unfinished)
    (h : moveFetch s f next = some s') : Quiet s s' := by
  simp only [moveFetch, bind, Option.bind_eq_some_iff, Option.pure_def, Option.some.injEq] at h
  obtain ⟨x, hx, ph, hph, rfl⟩ := h
  exact quiet_fetch hx rfl (hnext hph)

theorem quiet_cancel (hi : s.calls[i]? = some c) : Quiet s (cancel s i c) := by
  rcases cancel_cases s i c with ⟨f, x, -, hx, hunfinished, heq⟩ | heq
  · rw [heq]
    exact quiet_fetch hx rfl hunfinished
  · rw [heq]
    exact quiet_set hi fun _ _ _ => Iff.rfl

variable {cfg : Config} {ev : Event}

theorem resume_booking
    (hi : s.calls[i]? = some c) (h : resume cfg s i c = some s') : Booking cfg s ev s' := by
  unfold resume at h
  split at h
  · rename_i f hc
    obtain ⟨o, ho, rfl⟩ := Option.map_eq_some_iff.mp h
    exact .quiet _ (quiet_setPhase hi (by simp [hc]) (by simp))
  · rename_i f e hc
    obtain ⟨o, ho, rfl⟩ := Option.map_eq_some_iff.mp h
    exact .close i c f e o hi hc ho
  · exact absurd h (by simp)

theorem lockBody_booking (hi : s.calls[i]? = some c) (hc : c.phase = .locking) :
    Booking cfg s ev (lockBody s i c) := by
  cases hf : s.inflight.get? c.key with
  | none => exact .create i c hi hc hf
  | some f =>
    have hbody : lockBody s i c = s.setPhase i c (.joined f) := by
      simp only [lockBody, hf]
    rw [hbody]
    exact .quiet _ (quiet_setPhase hi (by simp [hc]) (by simp))

/-- A step books what it does. -/
theorem step_booking (h : step cfg s ev = some s') : Booking cfg s ev s' := by
  cases ev with
  | get key now =>
    cases h
    refine .quiet _ (quiet_concat ?_)
    dsimp only
    split
    · simp
    · split <;> simp
  | acquire i =>
    simp only [step, bind, Option.bind_eq_some_iff] at h
    obtain ⟨c, hi, h⟩ := h
    split at h
    · rename_i hc
      split at h
      · cases h
        exact .quiet _ (quiet_setPhase hi (by simp [hc]) (by simp))
      · cases h
        exact lockBody_booking hi hc
    · exact absurd h (by simp)
  | resume i =>
    simp only [step, bind, Option.bind_eq_some_iff] at h
    obtain ⟨c, hi, h⟩ := h
    exact resume_booking hi h
  | cancel i =>
    simp only [step, bind, Option.bind_eq_some_iff, Option.pure_def, Option.some.injEq] at h
    obtain ⟨c, hi, rfl⟩ := h
    exact .quiet _ (quiet_cancel hi)
  | start f => exact .quiet _ (quiet_moveFetch (fun hx => (Fetch.started_spec f hx).1) h)
  | answer f r now =>
    exact .quiet _ (quiet_moveFetch (fun hx => (Fetch.ended_spec (f := f) (by
      intro e he
      rw [← Outcome.entry.inj he]
      rfl) hx).1) h)
  | fail f | abandon f =>
    exact .quiet _ (quiet_moveFetch (fun hx => (Fetch.ended_spec (f := f) (by simp) hx).1) h)
  | invalidateMany uids =>
    cases h
    exact .invalidate uids _ fun u hu => hu
  | clear =>
    cases h
    exact .invalidate _ _ fun u _ => trivial

/-! ### Owners through an entry and its end -/

variable {e : ℕ} {k : SubjectKey}

theorem ownerAt_lockBody (hi : s.calls[i]? = some c)
    (hc : c.phase = .locking) (hf : s.inflight.get? c.key = none) {j : ℕ} :
    OwnerAt (lockBody s i c) j f e k ↔
      OwnerAt s j f e k ∨
        j = i ∧ f = s.fetches.length ∧ e = s.epochs.getD c.key.1 0 ∧ k = c.key := by
  rw [lockBody_create hf]
  unfold OwnerAt
  by_cases hij : i = j
  · subst hij
    simp only [getElem?_set_some hi, hi, Option.some.injEq, exists_eq_left', hc, Phase.owner.injEq]
    constructor
    · rintro ⟨rfl, rfl, rfl⟩
      exact .inr ⟨trivial, rfl, rfl, rfl⟩
    · rintro (⟨-, h⟩ | ⟨-, rfl, rfl, rfl⟩)
      · exact absurd h (by simp)
      · exact ⟨rfl, rfl, rfl⟩
  · simp only [getElem?_set_ne hij]
    constructor
    · exact .inl
    · rintro (h | ⟨rfl, -⟩)
      · exact h
      · exact absurd rfl hij

theorem Inv.ownerAt_closeFetch (h : Inv s) {o : Outcome} (hi : s.calls[i]? = some c)
    (hc : c.phase = .owner f e) {j g e' : ℕ} :
    OwnerAt (closeFetch cfg s i c f e o) j g e' k ↔ j ≠ i ∧ OwnerAt s j g e' k := by
  rw [h.closeFetch_eq hi hc]
  unfold OwnerAt
  by_cases hij : i = j
  · subst hij
    simp [getElem?_set_some hi]
  · simp only [getElem?_set_ne hij]
    exact ⟨fun h => ⟨Ne.symm hij, h⟩, fun h => h.2⟩

theorem Inv.ownerAt_lt (h : Inv s) (ho : OwnerAt s i f e k) : f < s.fetches.length := by
  obtain ⟨c, hi, rfl, hc⟩ := ho
  obtain ⟨x, hx, -⟩ := (h.calls c (mem_of_getElem? hi)).awaits (by rw [hc]; rfl)
  exact lt_of_getElem? hx

variable {u : ℤ}

theorem owners_pos_iff : 0 < owners s.calls u ↔ ∃ t f, FetchRuns s (u, t) f := by
  unfold owners
  rw [countP_pos_iff]
  constructor
  · rintro ⟨c, hc, ho⟩
    obtain ⟨i, hi⟩ := mem_iff_getElem?.mp hc
    unfold Call.owns at ho
    split at ho
    · next f e hp => exact ⟨c.key.2, f, i, e, c, hi, by rw [← of_decide_eq_true ho], hp⟩
    · exact absurd ho (by simp)
  · rintro ⟨t, f, i, e, c, hi, hk, hp⟩
    exact ⟨c, mem_of_getElem? hi, by simp [Call.owns, hp, hk]⟩

/-! ### The ledger -/

/-- What the books keep besides `Inv`: a fetch has one owner, an epoch belongs to a user
with a running fetch, and a task that has not finished runs. -/
structure Ledger (s : State) : Prop where
  one : ∀ {i j f e e' : ℕ} {k k' : SubjectKey}, OwnerAt s i f e k → OwnerAt s j f e' k' → i = j
  epochs : ∀ {u : ℤ}, u ∈ s.epochs.keys → 0 < owners s.calls u
  unfinished : ∀ {f : ℕ} {x : Fetch}, s.fetches[f]? = some x → x.Unfinished →
    FetchRuns s x.key f

theorem Ledger.initial : Ledger State.initial where
  one h := by
    obtain ⟨c, hc, -⟩ := h
    exact absurd hc (by simp [State.initial])
  epochs h := absurd h (by simp [State.initial, Dict.mem_keys_iff])
  unfinished h := absurd h (by simp [State.initial])

theorem mem_bumpEpochs_keys {running : Dict ℤ ℕ} :
    ∀ {doomed : List ℤ} {epochs : Dict ℤ ℕ}, u ∈ (bumpEpochs running epochs doomed).keys →
      u ∈ epochs.keys ∨ u ∈ running.keys := by
  intro doomed
  induction doomed with
  | nil => exact fun h => .inl h
  | cons v doomed ih =>
    intro epochs h
    rcases ih h with h | h
    · dsimp only at h
      split at h
      · rename_i hv
        rw [Dict.mem_keys_iff, Dict.get?_set] at h
        split at h
        · next huv => exact .inr (huv ▸ hv)
        · exact .inl (Dict.mem_keys_iff.mpr h)
      · exact .inl h
    · exact .inr h

theorem Ledger.quiet (h : Ledger s) (hq : Quiet s s') : Ledger s' where
  one h₁ h₂ := h.one ((hq.owner ..).mp h₁) ((hq.owner ..).mp h₂)
  epochs {u} hu := by
    obtain ⟨t, f, i, e, ho⟩ := owners_pos_iff.mp (h.epochs (hq.epochs ▸ hu))
    exact owners_pos_iff.mpr ⟨t, f, i, e, (hq.owner ..).mpr ho⟩
  unfinished hx hu := by
    obtain ⟨x, hx, hk, hu⟩ := hq.unfinished hx hu
    obtain ⟨i, e, ho⟩ := h.unfinished hx hu
    exact ⟨i, e, (hq.owner ..).mpr (hk ▸ ho)⟩

theorem Ledger.create (hinv : Inv s) (h : Ledger s)
    (hi : s.calls[i]? = some c) (hc : c.phase = .locking)
    (hf : s.inflight.get? c.key = none) : Ledger (lockBody s i c) where
  one h₁ h₂ := by
    rw [ownerAt_lockBody hi hc hf] at h₁ h₂
    -- an older owner's fetch has a smaller number than the one just created
    rcases h₁ with h₁ | ⟨rfl, hlen₁, -⟩ <;> rcases h₂ with h₂ | ⟨rfl, hlen₂, -⟩
    · exact h.one h₁ h₂
    · exact absurd (hinv.ownerAt_lt h₁) (by omega)
    · exact absurd (hinv.ownerAt_lt h₂) (by omega)
    · rfl
  epochs {u} hu := by
    have hu : u ∈ s.epochs.keys := by
      rw [lockBody_create hf] at hu
      exact hu
    obtain ⟨t, f, j, e, ho⟩ := owners_pos_iff.mp (h.epochs hu)
    exact owners_pos_iff.mpr ⟨t, f, j, e, (ownerAt_lockBody hi hc hf).mpr (.inl ho)⟩
  unfinished {f x} hx hu := by
    rw [lockBody_create hf] at hx
    dsimp only at hx
    by_cases hlen : f = s.fetches.length
    · subst hlen
      rw [getElem?_concat_length] at hx
      cases hx
      exact ⟨i, _, (ownerAt_lockBody hi hc hf).mpr (.inr ⟨rfl, rfl, rfl, rfl⟩)⟩
    · rw [getElem?_concat_of_ne hlen] at hx
      obtain ⟨j, e, ho⟩ := h.unfinished hx hu
      exact ⟨j, e, (ownerAt_lockBody hi hc hf).mpr (.inl ho)⟩

theorem Ledger.close (hinv : Inv s) (h : Ledger s) {o : Outcome} (hi : s.calls[i]? = some c)
    (hc : c.phase = .owner f e) (ho : awaited s c f = some o) :
    Ledger (closeFetch cfg s i c f e o) where
  one h₁ h₂ :=
    h.one ((hinv.ownerAt_closeFetch hi hc).mp h₁).2 ((hinv.ownerAt_closeFetch hi hc).mp h₂).2
  epochs {u} hu := by
    rw [hinv.closeFetch_eq hi hc] at hu ⊢
    dsimp only at hu ⊢
    have hcount := owners_close (r := (settle cfg s c.key e o).2) hi hc u
    -- the epoch goes with the user's last owner
    split at hu
    · rename_i hlast
      rw [Dict.mem_keys_iff, Dict.get?_erase] at hu
      split at hu
      · exact absurd hu (by simp)
      · rename_i hne
        have hpos := h.epochs (Dict.mem_keys_iff.mpr hu)
        rw [if_neg hne] at hcount
        omega
    · rename_i hlast
      have hpos := h.epochs hu
      have hown := owners_pos hi hc
      split at hcount
      · rename_i heq
        subst heq
        omega
      · omega
  unfinished {g x} hx hu := by
    rw [hinv.closeFetch_eq hi hc] at hx
    obtain ⟨j, e', hown⟩ := h.unfinished hx hu
    refine ⟨j, e', (hinv.ownerAt_closeFetch hi hc).mpr ⟨?_, hown⟩⟩
    -- the call that ends awaited a finished task
    rintro rfl
    obtain ⟨c', hi', -, hc'⟩ := hown
    obtain rfl : c = c' := Option.some.inj (hi.symm.trans hi')
    obtain ⟨rfl, -⟩ := Phase.owner.inj (hc.symm.trans hc')
    obtain ⟨y, o', hy, hyo, -⟩ := awaited_eq_some ho
    obtain rfl : x = y := Option.some.inj (hx.symm.trans hy)
    exact hu o' hyo

theorem Ledger.invalidated (hinv : Inv s) (h : Ledger s) (uids : List ℤ)
    (cache : Dict SubjectKey CacheEntry) :
    Ledger { invalidateMany s uids with cache := cache } where
  one := h.one
  epochs {u} hu := by
    rcases mem_bumpEpochs_keys hu with hu | hu
    · exact h.epochs hu
    · show 0 < owners s.calls u
      by_contra hzero
      rw [Dict.mem_keys_iff, hinv.running, if_pos (by simpa using hzero)] at hu
      exact absurd hu (by simp)
  unfinished := h.unfinished

/-- Each fetch has one owner, and an epoch belongs to a user with a running fetch. -/
theorem ledger_step (hinv : Inv s) (h : Ledger s) (hs : step cfg s ev = some s') : Ledger s' := by
  cases step_booking hs with
  | quiet _ hq => exact h.quiet hq
  | create i c hi hc hf => exact h.create hinv hi hc hf
  | close i c f e o hi hc ho => exact h.close hinv hi hc ho
  | invalidate uids cache hev => exact h.invalidated hinv uids cache

/-- The ledger is right after every run. -/
theorem ledger_run {es : List Event} (hs : run (step cfg) State.initial es = some s) : Ledger s :=
  (run_invariant (P := fun s => Inv s ∧ Ledger s)
    (fun hh hs => ⟨inv_step hh.1 hs, ledger_step hh.1 hh.2 hs⟩) ⟨Inv.initial, Ledger.initial⟩ hs).2

/-! ### Counting fetches by their owners -/

/-- The fetch of the user a call owns. -/
def Call.ownedFetch (u : ℤ) (c : Call) : Option ℕ :=
  match c.phase with
  | .owner f _ => if c.key.1 = u then some f else none
  | _ => none

theorem Call.ownedFetch_eq_some :
    c.ownedFetch u = some f ↔ c.key.1 = u ∧ ∃ e, c.phase = .owner f e := by
  unfold Call.ownedFetch
  split
  · rename_i f' e hp
    rw [hp]
    split
    · next hk => simp [hk]
    · next hk => simp [hk]
  · rename_i hp
    simp only [reduceCtorEq, false_iff, not_and, not_exists]
    exact fun _ e => hp f e

theorem owners_eq_length (calls : List Call) (u : ℤ) :
    owners calls u = (calls.filterMap (Call.ownedFetch u)).length := by
  rw [length_filterMap_eq_countP, owners]
  refine congrArg (countP · calls) (funext fun c => ?_)
  unfold Call.owns Call.ownedFetch
  cases c.phase with
  | owner f e => by_cases hk : c.key.1 = u <;> simp [hk]
  | _ => rfl

theorem mem_ownedFetches :
    f ∈ s.calls.filterMap (Call.ownedFetch u) ↔ ∃ t, FetchRuns s (u, t) f := by
  rw [mem_filterMap]
  constructor
  · rintro ⟨c, hc, ho⟩
    obtain ⟨hk, e, hp⟩ := Call.ownedFetch_eq_some.mp ho
    obtain ⟨i, hi⟩ := mem_iff_getElem?.mp hc
    exact ⟨c.key.2, i, e, c, hi, by rw [← hk], hp⟩
  · rintro ⟨t, i, e, c, hi, hk, hp⟩
    exact ⟨c, mem_of_getElem? hi, Call.ownedFetch_eq_some.mpr ⟨by rw [hk], e, hp⟩⟩

theorem Ledger.nodup_ownedFetches (h : Ledger s) (u : ℤ) :
    (s.calls.filterMap (Call.ownedFetch u)).Nodup := by
  rw [List.Nodup, pairwise_filterMap, pairwise_iff_getElem]
  rintro i j hi hj hlt f hf g hg rfl
  obtain ⟨-, e, hp⟩ := Call.ownedFetch_eq_some.mp hf
  obtain ⟨-, e', hp'⟩ := Call.ownedFetch_eq_some.mp hg
  have hij := h.one ⟨_, getElem?_eq_getElem hi, rfl, hp⟩ ⟨_, getElem?_eq_getElem hj, rfl, hp'⟩
  omega

theorem Ledger.ncard_fetchRuns (h : Ledger s) (u : ℤ) :
    {f | ∃ t, FetchRuns s (u, t) f}.ncard = owners s.calls u := by
  have hset : {f | ∃ t, FetchRuns s (u, t) f} =
      ((s.calls.filterMap (Call.ownedFetch u)).toFinset : Set ℕ) := by
    ext f
    rw [Set.mem_ofPred_eq, Finset.mem_coe, mem_toFinset, mem_ownedFetches]
  rw [hset, Set.ncard_coe_finset, toFinset_card_of_nodup (h.nodup_ownedFetches u), owners_eq_length]

/-! ### The fetch a reader may join -/

/-- Fetch `f` of `k`, if it still runs, is the one in `inflight`. -/
structure Current (k : SubjectKey) (f : ℕ) (s : State) : Prop where
  created : f < s.fetches.length
  joinable : FetchRuns s k f → s.inflight.get? k = some f

theorem Inv.create_of_starts (hinv : Inv s) (hs : step cfg s ev = some s') (hk : Starts k s s') :
    s.inflight.get? k = none ∧ ∃ i c, c.key = k ∧ s' = lockBody s i c := by
  have hlen : s'.fetches.length = s.fetches.length + 1 := by rw [hk, length_append]; rfl
  cases step_booking hs with
  | quiet _ hq =>
    have := hq.length
    omega
  | create i c hi hc hf =>
    rw [lockBody_create hf] at hk
    obtain ⟨rfl, -⟩ := Fetch.mk.inj (singleton_inj.mp (append_cancel_left hk))
    exact ⟨hf, i, c, rfl, rfl⟩
  | close i c f e o hi hc ho =>
    rw [hinv.closeFetch_eq hi hc] at hlen
    exact absurd hlen (by simp)
  | invalidate uids cache hev =>
    have hsame : (invalidateMany s uids).fetches.length = s.fetches.length := rfl
    exact absurd (hsame.symm.trans hlen) (by omega)

theorem Inv.current_of_starts (hinv : Inv s) (hs : step cfg s ev = some s') (hk : Starts k s s') :
    Current k s.fetches.length s' := by
  obtain ⟨hf, i, c, rfl, rfl⟩ := hinv.create_of_starts hs hk
  rw [lockBody_create hf]
  exact ⟨by simp, fun _ => by simp⟩

theorem Current.step (hinv : Inv s) (hl : Ledger s) (h : Current k f s) (hev : ¬ ev.Invalidates k.1)
    (hs : step cfg s ev = some s') : Current k f s' := by
  cases step_booking hs with
  | quiet _ hq =>
    refine ⟨hq.length ▸ h.created, ?_⟩
    rintro ⟨i, e, ho⟩
    rw [hq.inflight]
    exact h.joinable ⟨i, e, (hq.owner ..).mp ho⟩
  | create i c hi hc hf =>
    refine ⟨?_, ?_⟩
    · rw [lockBody_create hf]
      exact lt_of_lt_of_le h.created (by simp)
    · rintro ⟨j, e, ho⟩
      rcases (ownerAt_lockBody hi hc hf).mp ho with ho | ⟨-, rfl, -⟩
      · have hget := h.joinable ⟨j, e, ho⟩
        have hne : k ≠ c.key := by
          rintro rfl
          rw [hf] at hget
          exact absurd hget (by simp)
        rw [lockBody_create hf]
        dsimp only
        rw [Dict.get?_set, if_neg hne, hget]
      · exact absurd h.created (by omega)
  | close i c g e o hi hc ho =>
    refine ⟨?_, ?_⟩
    · rw [hinv.closeFetch_eq hi hc]
      exact h.created
    · rintro ⟨j, e', hown⟩
      obtain ⟨hji, hold⟩ := (hinv.ownerAt_closeFetch hi hc).mp hown
      have hget := h.joinable ⟨j, e', hold⟩
      -- the call that ends takes out its own fetch only, and that is another one
      have hfg : f ≠ g := by
        rintro rfl
        exact hji (hl.one hold ⟨c, hi, rfl, hc⟩)
      rw [hinv.closeFetch_eq hi hc]
      dsimp only
      split
      · rename_i hg
        have hne : k ≠ c.key := by
          rintro rfl
          exact hfg (Option.some.inj (hget.symm.trans hg))
        rw [Dict.get?_erase, if_neg hne, hget]
      · exact hget
  | invalidate uids cache hevs =>
    refine ⟨h.created, ?_⟩
    rintro ⟨i, e, ho⟩
    have hk : k.1 ∉ uids := fun hk => hev (hevs _ hk)
    show (s.inflight.filterKeys _).get? k = some f
    rw [Dict.get?_filterKeys, if_pos (by simpa using hk)]
    exact h.joinable ⟨i, e, ho⟩

/-- A fetch that runs, and whose user was not invalidated since it started, is the one
readers join. -/
theorem inflight_of_current (hinv : Inv s) (hl : Ledger s) (h : Current k f s) :
    ∀ {es : List Event}, (∀ ev ∈ es, ¬ ev.Invalidates k.1) →
      run (step cfg) s es = some s' → FetchRuns s' k f → s'.inflight.get? k = some f := by
  intro es
  induction es generalizing s with
  | nil =>
    intro _ hrun
    cases hrun
    exact h.joinable
  | cons ev es ih =>
    intro hes hrun
    obtain ⟨s₁, h₁, hrun⟩ := run_cons_eq_some hrun
    exact ih (inv_step hinv h₁) (ledger_step hinv hl h₁) (h.step hinv hl (hes ev mem_cons_self) h₁)
      (fun ev' hev' => hes ev' (mem_cons_of_mem _ hev')) hrun

/-! ### The books after every schedule -/

/-- **The books are exact** after every schedule:

* `running` maps a user to the number of their running fetches, if any, and every task that has not
  finished is among them;
* `epochs` holds only users with a running fetch;
* `inflight` maps a subject to a running fetch of it that was started after the last invalidation of
  its user (those before lie below `s₁.fetches.length`);
* a fetch of a subject starts only when the one started before it, with no invalidation of the user
  in between, no longer runs;
* the three are empty when no fetch runs. -/
theorem bookkeeping_exact {cfg : Config} {es : List Event} {s : State}
    (h : run (step cfg) State.initial es = some s) :
    (∀ u, s.running.get? u =
      if {f | ∃ t, FetchRuns s (u, t) f}.ncard = 0 then none
      else some {f | ∃ t, FetchRuns s (u, t) f}.ncard) ∧
    (∀ f x, s.fetches[f]? = some x → (∀ o, x.phase ≠ .finished o) → FetchRuns s x.key f) ∧
    (∀ u ∈ s.epochs.keys, ∃ t f, FetchRuns s (u, t) f) ∧
    (∀ k f, s.inflight.get? k = some f →
      FetchRuns s k f ∧ (∃ x, s.fetches[f]? = some x ∧ x.key = k) ∧
      ∀ es₁ ev es₂ s₁, es = es₁ ++ ev :: es₂ → ev.Invalidates k.1 →
        run (step cfg) State.initial es₁ = some s₁ → s₁.fetches.length ≤ f) ∧
    (∀ k es₁ ev₁ es₂ ev₂ es₃ s₁ s₁' s₂ s₂', es = es₁ ++ ev₁ :: (es₂ ++ ev₂ :: es₃) →
      run (step cfg) State.initial es₁ = some s₁ → step cfg s₁ ev₁ = some s₁' →
      run (step cfg) s₁' es₂ = some s₂ → step cfg s₂ ev₂ = some s₂' →
      Starts k s₁ s₁' → Starts k s₂ s₂' → (∀ ev ∈ es₂, ¬ ev.Invalidates k.1) →
      ¬ FetchRuns s₂ k s₁.fetches.length) ∧
    ((∀ k f, ¬ FetchRuns s k f) →
      s.running.entries = [] ∧ s.epochs.entries = [] ∧ s.inflight.entries = []) := by
  have hinv := inv_run h
  have hl := ledger_run h
  have hinflight : ∀ {k f}, s.inflight.get? k = some f → FetchRuns s k f := by
    intro k f hf
    obtain ⟨c, hc, hk, e, hp⟩ := hinv.inflight hf
    obtain ⟨i, hi⟩ := mem_iff_getElem?.mp hc
    exact ⟨i, e, c, hi, hk, hp⟩
  refine ⟨fun u => ?_, fun f x hx hu => hl.unfinished hx hu,
    fun u hu => owners_pos_iff.mp (hl.epochs hu),
    fun k f hf => ⟨hinflight hf, hinv.inflight_fetch hf, ?_⟩, ?_, fun hnone => ⟨?_, ?_, ?_⟩⟩
  · rw [hl.ncard_fetchRuns, hinv.running]
  · rintro es₁ ev es₂ s₁ rfl hev h₁
    obtain ⟨s₁', h₁', h⟩ := run_append_eq_some h
    obtain rfl : s₁ = s₁' := Option.some.inj (h₁.symm.trans h₁')
    obtain ⟨t, ht, h⟩ := run_cons_eq_some h
    have hinv₁ := inv_run h₁
    exact (fenced_run (inv_step hinv₁ ht) (fenced_of_invalidates hinv₁ hev ht) h).inflight
      rfl hf
  · rintro k es₁ ev₁ es₂ ev₂ es₃ s₁ s₁' s₂ s₂' - h₁ hs₁ h₂ hs₂ hk₁ hk₂ hquiet hruns
    have hinv₁ := inv_run h₁
    have hinv₁' := inv_step hinv₁ hs₁
    have hget := inflight_of_current hinv₁' (ledger_step hinv₁ (ledger_run h₁) hs₁)
      (hinv₁.current_of_starts hs₁ hk₁) hquiet h₂ hruns
    have hinv₂ := run_invariant inv_step hinv₁' h₂
    rw [(hinv₂.create_of_starts hs₂ hk₂).1] at hget
    exact absurd hget (by simp)
  · refine Dict.entries_eq_nil fun u => ?_
    have hzero : owners s.calls u = 0 := by
      by_contra hpos
      obtain ⟨t, f, hf⟩ := owners_pos_iff.mp (Nat.pos_of_ne_zero hpos)
      exact hnone _ _ hf
    rw [hinv.running, if_pos hzero]
  · refine Dict.entries_eq_nil fun u => ?_
    rw [Dict.get?_eq_none_iff]
    intro hu
    obtain ⟨t, f, hf⟩ := owners_pos_iff.mp (hl.epochs hu)
    exact hnone _ _ hf
  · refine Dict.entries_eq_nil fun k => ?_
    by_contra hsome
    obtain ⟨f, hf⟩ := Option.ne_none_iff_exists'.mp hsome
    exact hnone _ _ (hinflight hf)

/-- Two generations of one subject: the first fetch still runs when the user is invalidated
and the second one starts. Both are counted, and readers join the second. -/
theorem bookkeeping_exact_two_generations :
    ∃ s : State,
      run (step ⟨30, 10⟩) State.initial
        [.get (1, none) 0, .acquire 0, .start 0, .invalidateMany [1], .get (1, none) 0,
          .acquire 1] = some s ∧
      s.running.get? 1 = some 2 ∧ s.inflight.get? (1, none) = some 1 ∧
      FetchRuns s (1, none) 1 ∧ {f | ∃ t, FetchRuns s (1, t) f}.ncard = 2 := by
  have hmap : (run (step ⟨30, 10⟩) State.initial
      [.get (1, none) 0, .acquire 0, .start 0, .invalidateMany [1], .get (1, none) 0,
        .acquire 1]).map (fun s => (s.running.get? 1, s.inflight.get? (1, none))) =
      some (some 2, some 1) := by decide +kernel
  obtain ⟨s, hs, heq⟩ := Option.map_eq_some_iff.mp hmap
  obtain ⟨hrun, hget⟩ := Prod.mk.inj heq
  obtain ⟨hrunning, -, -, hinflight, -⟩ := bookkeeping_exact hs
  refine ⟨s, hs, hrun, hget, (hinflight (1, none) 1 hget).1, ?_⟩
  have h := hrunning 1
  rw [hrun] at h
  split at h
  · exact absurd h (by simp)
  · exact (Option.some.inj h).symm

end ServiceToolkit.Perms
