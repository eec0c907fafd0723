import ServiceToolkit.PermsResolver
import ServiceToolkit.Runs

/-!
# The Bookkeeping of the Permission Resolver

Each event of the resolver has one of a handful of effects on the state (`Effect`,
`step_effect`); every invariant of the resolver is proved effect by effect. This module
states the bookkeeping invariant `Inv` and proves it: `running` counts exactly the calls
that own an unfinished fetch, every fetch in `inflight` has its owner, an owner's epoch is
at most the current one, and everything cached or returned was produced by a finished
fetch of its own key.
-/

namespace ServiceToolkit.Perms

open List Option

/-- The entry was produced by a finished fetch of this subject. -/
def Produced (fetches : List Fetch) (key : SubjectKey) (e : CacheEntry) : Prop :=
  ∃ x, fetches[e.fetch]? = some x ∧ x.key = key ∧ x.phase = .finished (.entry e)

/-- A fetch has not ended. -/
def Fetch.Unfinished (x : Fetch) : Prop := ∀ o, x.phase ≠ .finished o

/-- Whether a call owns an unfinished fetch of the user. -/
def Call.owns (u : ℤ) (c : Call) : Bool :=
  match c.phase with
  | .owner _ _ => c.key.1 = u
  | _ => false

/-- The number of calls that own an unfinished fetch of the user. -/
def owners (calls : List Call) (u : ℤ) : ℕ := calls.countP (Call.owns u)

/-- What the model knows about one call: the fetch it awaits is one of its own subject,
the epoch it read is not ahead of the current one, and its answer was produced by a fetch
of its own subject. -/
structure CallOk (fetches : List Fetch) (epochs : Dict ℤ ℕ) (c : Call) : Prop where
  awaits : ∀ {f}, c.phase.awaits = some f → ∃ x, fetches[f]? = some x ∧ x.key = c.key
  epoch : ∀ {f e}, c.phase = .owner f e → e ≤ epochs.getD c.key.1 0
  answer : ∀ {p f}, c.phase = .done (.perms p f) →
    ∃ e, e.fetch = f ∧ Produced fetches c.key e ∧ p = .ofEntry c.key.1 e

/-- The bookkeeping invariant of the resolver. -/
structure Inv (s : State) : Prop where
  calls : ∀ c ∈ s.calls, CallOk s.fetches s.epochs c
  inflight : ∀ {k f}, s.inflight.get? k = some f →
    ∃ c ∈ s.calls, c.key = k ∧ ∃ e, c.phase = .owner f e
  cache : ∀ {k e}, s.cache.get? k = some e → Produced s.fetches k e
  entry : ∀ {f : ℕ} {x : Fetch} {e : CacheEntry}, s.fetches[f]? = some x →
    x.phase = .finished (.entry e) → e.fetch = f
  running : ∀ u, s.running.get? u =
    if owners s.calls u = 0 then none else some (owners s.calls u)

/-! ### The effects of an event -/

/-- How a call can stand when it enters `get`: answered from the cache, awaiting the fetch
in flight, or at the lock. -/
inductive Entering (s : State) (c : Call) : Prop
  | cached (e : CacheEntry) (hc : s.cache.get? c.key = some e)
      (hp : c.phase = .done (.perms (.ofEntry c.key.1 e) e.fetch))
  | joined (f : ℕ) (hf : s.inflight.get? c.key = some f) (hp : c.phase = .joined f)
  | locking (hp : c.phase = .locking)

/-- How a call that owns no fetch can move on: it joins the fetch in flight, or ends with
what the fetch it joined gave it. -/
inductive Moving (s : State) (c : Call) (phase : Phase) : Prop
  | joined (f : ℕ) (hf : s.inflight.get? c.key = some f) (hp : phase = .joined f)
  | answered (f : ℕ) (x : Fetch) (e : CacheEntry) (hj : c.phase = .joined f)
      (hx : s.fetches[f]? = some x) (he : x.phase = .finished (.entry e))
      (hp : phase = .done (.perms (.ofEntry c.key.1 e) e.fetch))
  | raised (hp : phase = .done .raised)
  | cancelled (hp : phase = .done .cancelled)

/-- Everything an event can do to the state. -/
inductive Effect (cfg : Config) (s : State) : State → Prop
  | enter (c : Call) (hc : Entering s c) : Effect cfg s { s with calls := s.calls ++ [c] }
  | move (i : ℕ) (c : Call) (phase : Phase) (hi : s.calls[i]? = some c)
      (hc : ∀ f e, c.phase ≠ .owner f e) (hm : Moving s c phase) :
      Effect cfg s (s.setPhase i c phase)
  | mark (i : ℕ) (c : Call) (hi : s.calls[i]? = some c) :
      Effect cfg s { s with calls := s.calls.set i { c with mustCancel := true } }
  | create (i : ℕ) (c : Call) (hi : s.calls[i]? = some c) (hc : c.phase = .locking)
      (hf : s.inflight.get? c.key = none) : Effect cfg s (lockBody s i c)
  | close (i : ℕ) (c : Call) (f epoch : ℕ) (o : Outcome) (hi : s.calls[i]? = some c)
      (hc : c.phase = .owner f epoch)
      (ho : ∀ e, o = .entry e →
        ∃ x, s.fetches[f]? = some x ∧ x.phase = .finished (.entry e)) :
      Effect cfg s (closeFetch cfg s i c f epoch o)
  | fetch (f : ℕ) (x x' : Fetch) (hx : s.fetches[f]? = some x)
      (hu : ∀ o, x.phase ≠ .finished o) (hk : x'.key = x.key)
      (he : ∀ e, x'.phase = .finished (.entry e) → e.fetch = f) :
      Effect cfg s { s with fetches := s.fetches.set f x' }
  | invalidate (uids : List ℤ) : Effect cfg s (invalidateMany s uids)
  | clear : Effect cfg s (clear s)

variable {s : State} {c : Call} {f : ℕ} {o : Outcome}

theorem awaited_eq_some (h : awaited s c f = some o) :
    ∃ x o', s.fetches[f]? = some x ∧ x.phase = .finished o' ∧
      o = if c.mustCancel then .cancelled else o' := by
  unfold awaited at h
  split at h
  · next key o' b hx => exact ⟨_, o', hx, rfl, (some.inj h).symm⟩
  · exact absurd h (by simp)

variable {e : CacheEntry}

theorem awaited_entry (h : awaited s c f = some (.entry e)) :
    ∃ x, s.fetches[f]? = some x ∧ x.phase = .finished (.entry e) := by
  obtain ⟨x, o', hx, ho', ho⟩ := awaited_eq_some h
  refine ⟨x, hx, ?_⟩
  cases hm : c.mustCancel with
  | true => rw [hm] at ho; exact absurd ho (by simp)
  | false => rw [hm] at ho; rw [ho', ho]; rfl

theorem get_effect (cfg : Config) (s : State) (key : SubjectKey) (now : ℚ) :
    Effect cfg s (get cfg s key now) := by
  unfold get
  refine .enter _ ?_
  cases hc : cached cfg s key now with
  | some e =>
    have hget : s.cache.get? key = some e := (filter_eq_some_iff.mp hc).1
    exact .cached e hget rfl
  | none =>
    cases hf : s.inflight.get? key with
    | some f => exact .joined f hf rfl
    | none => exact .locking rfl

variable {cfg : Config} {s' : State} {i : ℕ}

theorem resume_effect
    (hi : s.calls[i]? = some c) (h : resume cfg s i c = some s') : Effect cfg s s' := by
  unfold resume at h
  split at h
  · rename_i f hc
    obtain ⟨o, ho, rfl⟩ := map_eq_some_iff.mp h
    refine .move i c _ hi (by simp [hc]) ?_
    cases o with
    | entry e =>
      obtain ⟨x, hx, he⟩ := awaited_entry ho
      exact .answered f x e hc hx he rfl
    | failed => exact .raised rfl
    | cancelled => exact .cancelled rfl
  · rename_i f epoch hc
    obtain ⟨o, ho, rfl⟩ := map_eq_some_iff.mp h
    exact .close i c f epoch o hi hc fun e he => awaited_entry (he ▸ ho)
  · exact absurd h (by simp)

theorem cancel_cases (s : State) (i : ℕ) (c : Call) :
    (∃ f x, c.phase.awaits = some f ∧ s.fetches[f]? = some x ∧ x.Unfinished ∧
      cancel s i c =
        { s with fetches := s.fetches.set f { x with cancelRequested := true } }) ∨
    cancel s i c = { s with calls := s.calls.set i { c with mustCancel := true } } := by
  unfold cancel
  split
  · rename_i f key b h
    obtain ⟨f', hf, h⟩ := bind_eq_some_iff.mp h
    obtain ⟨x, hx, heq⟩ := map_eq_some_iff.mp h
    obtain ⟨rfl, rfl⟩ := Prod.mk.inj heq
    exact .inl ⟨f', _, hf, hx, nofun, rfl⟩
  · rename_i f key b h
    obtain ⟨f', hf, h⟩ := bind_eq_some_iff.mp h
    obtain ⟨x, hx, heq⟩ := map_eq_some_iff.mp h
    obtain ⟨rfl, rfl⟩ := Prod.mk.inj heq
    exact .inl ⟨f', _, hf, hx, nofun, rfl⟩
  · exact .inr rfl

theorem cancel_effect (cfg : Config) (hi : s.calls[i]? = some c) : Effect cfg s (cancel s i c) := by
  rcases cancel_cases s i c with ⟨f, x, -, hx, hunfinished, heq⟩ | heq
  · rw [heq]
    exact .fetch f x _ hx hunfinished rfl fun e he => absurd he (hunfinished _)
  · rw [heq]
    exact .mark i c hi

theorem moveFetch_effect (cfg : Config) {next : Fetch → Option FetchPhase}
    (hnext : ∀ {x ph}, next x = some ph → (∀ o, x.phase ≠ .finished o) ∧
      ∀ e, ph = .finished (.entry e) → e.fetch = f)
    (h : moveFetch s f next = some s') : Effect cfg s s' := by
  simp only [moveFetch, bind, Option.bind_eq_some_iff, Option.pure_def, Option.some.injEq] at h
  obtain ⟨x, hx, ph, hph, rfl⟩ := h
  obtain ⟨hu, he⟩ := hnext hph
  exact .fetch f x _ hx hu rfl he

variable {x : Fetch}

theorem Fetch.started_spec {ph : FetchPhase} (f : ℕ) (h : x.started = some ph) :
    (∀ o, x.phase ≠ .finished o) ∧ ∀ e, ph = .finished (.entry e) → e.fetch = f := by
  unfold Fetch.started at h
  split at h
  · rename_i hx
    refine ⟨by simp [hx], ?_⟩
    cases h
    split <;> simp
  · exact absurd h (by simp)

theorem Fetch.ended_spec {ph : FetchPhase}
    (ho : ∀ e, o = .entry e → e.fetch = f) (h : x.ended o = some ph) :
    (∀ o, x.phase ≠ .finished o) ∧ ∀ e, ph = .finished (.entry e) → e.fetch = f := by
  unfold Fetch.ended at h
  split at h
  · rename_i hx
    refine ⟨by simp [hx], ?_⟩
    cases h
    intro e he
    exact ho e (FetchPhase.finished.inj he)
  · exact absurd h (by simp)

/-- What an event can do. -/
theorem step_effect {ev : Event} (h : step cfg s ev = some s') : Effect cfg s s' := by
  cases ev with
  | get key now =>
    cases h
    exact get_effect cfg s key now
  | acquire i =>
    simp only [step, bind, bind_eq_some_iff] at h
    obtain ⟨c, hi, h⟩ := h
    split at h
    · rename_i hc
      split at h
      · cases h
        exact .move i c _ hi (by simp [hc]) (.cancelled rfl)
      · cases h
        cases hf : s.inflight.get? c.key with
        | some f =>
          have heq : lockBody s i c = s.setPhase i c (.joined f) := by
            simp only [lockBody, hf]
          rw [heq]
          exact .move i c _ hi (by simp [hc]) (.joined f hf rfl)
        | none => exact .create i c hi hc hf
    · exact absurd h (by simp)
  | resume i =>
    simp only [step, bind, bind_eq_some_iff] at h
    obtain ⟨c, hi, h⟩ := h
    exact resume_effect hi h
  | cancel i =>
    simp only [step, bind, Option.bind_eq_some_iff, Option.pure_def, Option.some.injEq] at h
    obtain ⟨c, hi, rfl⟩ := h
    exact cancel_effect cfg hi
  | start f => exact moveFetch_effect cfg (Fetch.started_spec f) h
  | answer f r now =>
    refine moveFetch_effect cfg (Fetch.ended_spec ?_) h
    intro e he
    rw [← Outcome.entry.inj he]
    rfl
  | fail f | abandon f => exact moveFetch_effect cfg (Fetch.ended_spec (by simp)) h
  | invalidateMany uids =>
    cases h
    exact .invalidate uids
  | clear =>
    cases h
    exact .clear

/-! ### Lists of calls and fetches -/

theorem mem_set_of_ne {α : Type*} {l : List α} {a b c : α} (hi : l[i]? = some c)
    (ha : a ∈ l) (hne : a ≠ c) : a ∈ l.set i b := by
  obtain ⟨j, hj⟩ := mem_iff_getElem?.mp ha
  have hij : i ≠ j := by
    rintro rfl
    rw [hi] at hj
    exact hne (some.inj hj).symm
  exact mem_iff_getElem?.mpr ⟨j, by rw [getElem?_set_ne hij, hj]⟩

variable {calls : List Call}

theorem owners_set (hi : calls[i]? = some c) (c' : Call) (u : ℤ) :
    owners (calls.set i c') u + (if c.owns u then 1 else 0) =
      owners calls u + (if c'.owns u then 1 else 0) := by
  obtain ⟨hlt, hget⟩ := List.getElem?_eq_some_iff.mp hi
  have hpos : (if c.owns u then 1 else 0) ≤ owners calls u := by
    split
    · rename_i h
      exact countP_pos_iff.mpr ⟨c, mem_of_getElem? hi, h⟩
    · exact Nat.zero_le _
  have hset := countP_set (p := Call.owns u) (a := c') hlt
  rw [hget] at hset
  rw [owners, hset]
  rw [owners] at hpos ⊢
  omega

theorem owners_pos {e : ℕ}
    (hi : calls[i]? = some c) (hc : c.phase = .owner f e) : 0 < owners calls c.key.1 :=
  countP_pos_iff.mpr ⟨c, mem_of_getElem? hi, by simp [Call.owns, hc]⟩

/-- `fs'` holds the fetches of `fs`, none with another key, and no finished one with
another outcome. -/
def Extends (fs fs' : List Fetch) : Prop :=
  ∀ {f : ℕ} {x : Fetch}, fs[f]? = some x →
    ∃ x', fs'[f]? = some x' ∧ x'.key = x.key ∧ ∀ o, x.phase = .finished o → x'.phase = .finished o

theorem Extends.refl (fs : List Fetch) : Extends fs fs :=
  fun {_ x} hx => ⟨x, hx, rfl, fun _ => id⟩

theorem extends_append (fs : List Fetch) (x : Fetch) : Extends fs (fs ++ [x]) := by
  intro f y hy
  exact ⟨y, getElem?_append_some hy, rfl, fun _ => id⟩

variable {fs : List Fetch}

theorem extends_set {x' : Fetch} (hx : fs[f]? = some x)
    (hu : ∀ o, x.phase ≠ .finished o) (hk : x'.key = x.key) : Extends fs (fs.set f x') := by
  intro g y hy
  by_cases hfg : f = g
  · subst hfg
    obtain rfl : x = y := some.inj (hx.symm.trans hy)
    exact ⟨x', getElem?_set_some hx, hk, fun o ho => absurd ho (hu o)⟩
  · exact ⟨y, by rw [getElem?_set_ne hfg, hy], rfl, fun _ => id⟩

variable {k : SubjectKey}

theorem Produced.mono {fs' : List Fetch} (h : Extends fs fs') (hp : Produced fs k e) :
    Produced fs' k e := by
  obtain ⟨x, hx, hk, he⟩ := hp
  obtain ⟨x', hx', hk', he'⟩ := h hx
  exact ⟨x', hx', hk'.trans hk, he' _ he⟩

theorem CallOk.mono {fs' : List Fetch} {ep ep' : Dict ℤ ℕ}
    (h : CallOk fs ep c) (hfs : Extends fs fs')
    (hep : ∀ f e, c.phase = .owner f e → ep.getD c.key.1 0 ≤ ep'.getD c.key.1 0) :
    CallOk fs' ep' c where
  awaits hf := by
    obtain ⟨x, hx, hk⟩ := h.awaits hf
    obtain ⟨x', hx', hk', -⟩ := hfs hx
    exact ⟨x', hx', hk'.trans hk⟩
  epoch hp := le_trans (h.epoch hp) (hep _ _ hp)
  answer hp := by
    obtain ⟨e, hf, hprod, hpe⟩ := h.answer hp
    exact ⟨e, hf, hprod.mono hfs, hpe⟩

/-! ### The dictionaries -/

/-- Moving epochs on: exactly the doomed users with a running fetch move, by one. -/
theorem bumpEpochs_getD (running : Dict ℤ ℕ) (u : ℤ) :
    ∀ (doomed : List ℤ) (epochs : Dict ℤ ℕ), doomed.Nodup →
      (bumpEpochs running epochs doomed).getD u 0 =
        epochs.getD u 0 + if u ∈ doomed ∧ u ∈ running.keys then 1 else 0 := by
  intro doomed
  induction doomed with
  | nil => intro epochs _; simp [bumpEpochs]
  | cons d ds ih =>
    intro epochs hnd
    obtain ⟨hd, hds⟩ := nodup_cons.mp hnd
    have hfold : bumpEpochs running epochs (d :: ds) = bumpEpochs running
        (if d ∈ running.keys then epochs.set d (epochs.getD d 0 + 1) else epochs) ds := rfl
    rw [hfold, ih _ hds]
    by_cases hr : d ∈ running.keys
    · rw [if_pos hr, Dict.getD_set]
      by_cases hu : u = d
      · subst hu; simp [hd, hr]
      · simp [hu]
    · rw [if_neg hr]
      by_cases hu : u = d
      · subst hu; simp [hr]
      · simp [hu]

variable {key : SubjectKey}

theorem store_get? {cache cache' : Dict SubjectKey CacheEntry} {entry : CacheEntry}
    (hstore : store cfg cache key entry = some cache')
    (h : cache'.get? k = some e) : cache.get? k = some e ∨ (k = key ∧ entry = e) := by
  have hset : ∀ rest : Dict SubjectKey CacheEntry, (rest.get? k = some e → cache.get? k = some e) →
      (rest.set key entry).get? k = some e → cache.get? k = some e ∨ (k = key ∧ entry = e) := by
    intro rest hsub hget
    rw [Dict.get?_set] at hget
    split at hget
    · next hk => exact .inr ⟨hk, some.inj hget⟩
    · exact .inl (hsub hget)
  unfold store at hstore
  split at hstore
  · obtain ⟨old, -, rfl⟩ := map_eq_some_iff.mp hstore
    refine hset _ (fun hget => ?_) h
    rw [Dict.get?_erase] at hget
    split at hget
    · exact absurd hget (by simp)
    · exact hget
  · cases hstore
    exact hset _ id h

variable {epoch : ℕ}

theorem settle_cache (h : (settle cfg s key epoch o).1.get? k = some e) : s.cache.get? k = some e ∨
      (k = key ∧ o = .entry e ∧ s.epochs.getD key.1 0 = epoch) := by
  unfold settle at h
  split at h
  · split at h
    · rename_i hep
      split at h
      · rename_i hst
        rcases store_get? hst h with hold | ⟨hk, he⟩
        · exact .inl hold
        · exact .inr ⟨hk, by rw [he], hep⟩
      · exact .inl h
    · exact .inl h
  · exact .inl h

theorem settle_result {p : PlatformPerms} (h : (settle cfg s key epoch o).2 = .perms p f) :
    ∃ e, o = .entry e ∧ p = .ofEntry key.1 e ∧ e.fetch = f := by
  unfold settle at h
  split at h
  · rename_i e
    have hof : Result.ofOutcome key.1 (.entry e) = .perms p f →
        p = .ofEntry key.1 e ∧ e.fetch = f := by
      intro h
      obtain ⟨rfl, rfl⟩ := Result.perms.inj h
      exact ⟨rfl, rfl⟩
    refine ⟨e, rfl, ?_⟩
    split at h
    · split at h
      · exact hof h
      · exact absurd h (by simp)
    · exact hof h
  · rename_i hne
    cases o with
    | entry e => exact absurd rfl (hne e)
    | failed | cancelled => exact absurd h (by simp [Result.ofOutcome])

theorem finish_eq {n : ℕ} {r : Result} (h : s.running.get? key.1 = some n) (hn : 0 < n) :
    finish s key f r =
      ({ s with
          inflight :=
            if s.inflight.get? key = some f then s.inflight.erase key else s.inflight
          running :=
            if n = 1 then s.running.erase key.1 else s.running.set key.1 (n - 1)
          epochs := if n = 1 then s.epochs.erase key.1 else s.epochs }, r) := by
  unfold finish
  simp only [h]
  by_cases h1 : n = 1
  · subst h1
    rfl
  · have hrem : ((n : ℤ) - 1) ≠ 0 := by omega
    have hnat : ((n : ℤ) - 1).toNat = n - 1 := by omega
    rw [if_pos hrem, if_neg h1, if_neg h1, hnat]

/-! ### The bookkeeping invariant -/

theorem Inv.initial : Inv State.initial where
  calls c hc := absurd hc (by simp [State.initial])
  inflight h := absurd h (by simp [State.initial])
  cache h := absurd h (by simp [State.initial])
  entry h := absurd h (by simp [State.initial])
  running u := by simp [State.initial, owners]

theorem Inv.inflight_fetch (h : Inv s)
    (hf : s.inflight.get? k = some f) : ∃ x, s.fetches[f]? = some x ∧ x.key = k := by
  obtain ⟨c, hc, rfl, e, hp⟩ := h.inflight hf
  exact (h.calls c hc).awaits (by rw [hp]; rfl)

theorem Inv.inflight_running (h : Inv s)
    (hf : s.inflight.get? k = some f) : k.1 ∈ s.running.keys := by
  obtain ⟨c, hc, rfl, e, hp⟩ := h.inflight hf
  obtain ⟨i, hi⟩ := mem_iff_getElem?.mp hc
  have hpos := owners_pos hi hp
  rw [Dict.mem_keys_iff, h.running, if_neg (by omega)]
  rfl

theorem Inv.running_owner (h : Inv s) {e : ℕ}
    (hi : s.calls[i]? = some c) (hc : c.phase = .owner f e) :
    s.running.get? c.key.1 = some (owners s.calls c.key.1) := by
  have hpos := owners_pos hi hc
  rw [h.running, if_neg (by omega)]

theorem Inv.running_getD (h : Inv s) (u : ℤ) : s.running.getD u 0 = owners s.calls u := by
  rw [Dict.getD, h.running]
  split
  · next h0 => exact h0.symm
  · rfl

variable {phase : Phase}

theorem Inv.callOk_moving (h : Inv s) (hc : c ∈ s.calls) (hm : Moving s c phase) :
    CallOk s.fetches s.epochs { c with phase := phase } := by
  cases hm with
  | joined f hf hp =>
    subst hp
    refine ⟨fun hg => ?_, by simp, by simp⟩
    cases hg
    exact h.inflight_fetch hf
  | answered f x e hj hx he hp =>
    subst hp
    refine ⟨by simp [Phase.awaits], by simp, fun hr => ?_⟩
    obtain ⟨rfl, rfl⟩ := Result.perms.inj (Phase.done.inj hr)
    obtain ⟨x', hx', hk⟩ := (h.calls c hc).awaits (by rw [hj]; rfl)
    obtain rfl : x = x' := some.inj (hx.symm.trans hx')
    obtain rfl := h.entry hx he
    exact ⟨e, rfl, ⟨x, hx, hk, he⟩, rfl⟩
  | raised hp | cancelled hp => subst hp; exact ⟨by simp [Phase.awaits], by simp, by simp⟩

theorem Inv.callOk_entering (h : Inv s) (hc : Entering s c) : CallOk s.fetches s.epochs c := by
  cases hc with
  | cached e hget hp =>
    refine ⟨by simp [hp, Phase.awaits], by simp [hp], fun hr => ?_⟩
    rw [hp] at hr
    obtain ⟨rfl, rfl⟩ := Result.perms.inj (Phase.done.inj hr)
    exact ⟨e, rfl, h.cache hget, rfl⟩
  | joined f hf hp =>
    refine ⟨fun hg => ?_, by simp [hp], by simp [hp]⟩
    rw [hp] at hg
    cases hg
    exact h.inflight_fetch hf
  | locking hp => exact ⟨by simp [hp, Phase.awaits], by simp [hp], by simp [hp]⟩

theorem owns_eq_false (hc : ∀ f e, c.phase ≠ .owner f e) (u : ℤ) : c.owns u = false := by
  unfold Call.owns
  split
  · next f e hp => exact absurd hp (hc f e)
  · rfl

theorem Moving.ne_owner (h : Moving s c phase) : ∀ f e, phase ≠ .owner f e := by
  intro f e
  cases h <;> simp [*]

theorem Entering.ne_owner (h : Entering s c) : ∀ f e, c.phase ≠ .owner f e := by
  intro f e
  cases h <;> simp [*]

theorem forall_callOk_set {ep : Dict ℤ ℕ}
    {c' : Call} (h : ∀ c ∈ calls, CallOk fs ep c) (hc' : CallOk fs ep c') :
    ∀ c ∈ calls.set i c', CallOk fs ep c := by
  intro c hc
  rcases mem_or_eq_of_mem_set hc with hc | rfl
  · exact h c hc
  · exact hc'

theorem lockBody_create (hf : s.inflight.get? c.key = none) : lockBody s i c = { s with
        calls := s.calls.set i
          { c with phase := .owner s.fetches.length (s.epochs.getD c.key.1 0) }
        fetches := s.fetches ++ [⟨c.key, .scheduled, false⟩]
        inflight := s.inflight.set c.key s.fetches.length
        running := s.running.set c.key.1 (s.running.getD c.key.1 0 + 1) } := by
  simp only [lockBody, hf, State.setPhase]

theorem owners_close {e : ℕ} {r : Result}
    (hi : s.calls[i]? = some c) (hc : c.phase = .owner f e) (u : ℤ) :
    owners (s.calls.set i { c with phase := .done r }) u =
      owners s.calls u - if u = c.key.1 then 1 else 0 := by
  have hown := owners_set hi { c with phase := .done r } u
  have hc1 : c.owns u = decide (c.key.1 = u) := by simp [Call.owns, hc]
  have hc2 : Call.owns u { c with phase := .done r } = false := rfl
  rw [hc1, hc2] at hown
  simp only [decide_eq_true_eq, Bool.false_eq_true, if_false, Nat.add_zero] at hown
  by_cases hu : u = c.key.1
  · simp only [hu, if_true] at hown ⊢
    omega
  · simp only [hu, Ne.symm hu, if_false] at hown ⊢
    omega

/-- Another owner of the same user keeps the count above one, so the epoch it compares
with is still there. -/
theorem epochs_of_other_owner {j : ℕ} {c' : Call} {e f' e' : ℕ}
    (hi : s.calls[i]? = some c) (hc : c.phase = .owner f e) (hj : s.calls[j]? = some c')
    (hij : i ≠ j) (hc' : c'.phase = .owner f' e') :
    (if owners s.calls c.key.1 = 1 then s.epochs.erase c.key.1 else s.epochs).getD
      c'.key.1 0 = s.epochs.getD c'.key.1 0 := by
  split
  · rename_i h1
    rw [Dict.getD_erase]
    split
    · rename_i hu
      have hcount := owners_close (r := .raised) hi hc c'.key.1
      have hj' : (s.calls.set i { c with phase := .done .raised })[j]? = some c' := by
        rw [getElem?_set_ne hij, hj]
      have hpos := owners_pos hj' hc'
      rw [hcount, if_pos hu, hu, h1] at hpos
      exact absurd hpos (by simp)
    · rfl
  · rfl

/-- What the coalescing map still holds after the end of a fetch was there, and is another
fetch. -/
theorem inflight_of_closed {inflight : Dict SubjectKey ℕ} {f' : ℕ}
    (hk : (if inflight.get? key = some f then inflight.erase key else inflight).get? k = some f') :
    inflight.get? k = some f' ∧ ¬ (k = key ∧ f' = f) := by
  split at hk
  · rw [Dict.get?_erase] at hk
    split at hk
    · exact absurd hk (by simp)
    · next hne => exact ⟨hk, fun hh => hne hh.1⟩
  · rename_i hne
    refine ⟨hk, ?_⟩
    rintro ⟨rfl, rfl⟩
    exact hne hk

section

variable {ev : Event} (h : Inv s)
include h

theorem Inv.enter (hc : Entering s c) : Inv { s with calls := s.calls ++ [c] } where
  calls c' hc' := by
    rcases mem_append.mp hc' with hc' | hc'
    · exact h.calls c' hc'
    · rw [mem_singleton.mp hc']
      exact h.callOk_entering hc
  inflight hf := by
    obtain ⟨o, ho, hk⟩ := h.inflight hf
    exact ⟨o, mem_append_left _ ho, hk⟩
  cache := h.cache
  entry := h.entry
  running u := by
    have hown : owners (s.calls ++ [c]) u = owners s.calls u := by
      simp [owners, owns_eq_false hc.ne_owner u]
    rw [hown]
    exact h.running u

section

variable (hi : s.calls[i]? = some c)
include hi

theorem Inv.move (hc : ∀ f e, c.phase ≠ .owner f e) (hm : Moving s c phase) :
    Inv (s.setPhase i c phase) where
  calls := forall_callOk_set h.calls (h.callOk_moving (List.mem_of_getElem? hi) hm)
  inflight hf := by
    obtain ⟨o, ho, hk, e, hp⟩ := h.inflight hf
    have hne : o ≠ c := by
      rintro rfl
      exact hc _ _ hp
    exact ⟨o, mem_set_of_ne hi ho hne, hk, e, hp⟩
  cache := h.cache
  entry := h.entry
  running u := by
    have hown := owners_set hi { c with phase := phase } u
    rw [owns_eq_false hc, owns_eq_false (c := { c with phase := phase }) hm.ne_owner]
      at hown
    simp only [Bool.false_eq_true, if_false, Nat.add_zero] at hown
    show s.running.get? u = _
    rw [State.setPhase, hown]
    exact h.running u

theorem Inv.mark :
    Inv { s with calls := s.calls.set i { c with mustCancel := true } } where
  calls := by
    have hok := h.calls c (mem_of_getElem? hi)
    exact forall_callOk_set h.calls ⟨hok.awaits, hok.epoch, hok.answer⟩
  inflight hf := by
    obtain ⟨o, ho, hk, e, hp⟩ := h.inflight hf
    by_cases hne : o = c
    · subst hne
      exact ⟨{ o with mustCancel := true }, mem_set (lt_of_getElem? hi) _, hk, e, hp⟩
    · exact ⟨o, mem_set_of_ne hi ho hne, hk, e, hp⟩
  cache := h.cache
  entry := h.entry
  running u := by
    have hown := owners_set hi { c with mustCancel := true } u
    have hsame : Call.owns u { c with mustCancel := true } = Call.owns u c := rfl
    rw [hsame] at hown
    have heq : owners (s.calls.set i { c with mustCancel := true }) u = owners s.calls u := by
      omega
    rw [heq]
    exact h.running u

theorem Inv.create
    (hc : c.phase = .locking) (hf : s.inflight.get? c.key = none) : Inv (lockBody s i c) := by
  rw [lockBody_create hf]
  have hext : Extends s.fetches (s.fetches ++ [⟨c.key, .scheduled, false⟩]) :=
    extends_append _ _
  refine ⟨?_, ?_, ?_, ?_, ?_⟩
  · refine forall_callOk_set (fun c' hc' => (h.calls c' hc').mono hext fun _ _ _ => le_rfl) ?_
    refine ⟨fun hg => ?_, fun hp => ?_, by simp⟩
    · cases hg
      exact ⟨_, getElem?_concat_length, rfl⟩
    · rw [← (Phase.owner.inj hp).2]
  · intro k f hk
    rw [Dict.get?_set] at hk
    split at hk
    · rename_i hkey
      cases hk
      exact ⟨_, mem_set (lt_of_getElem? hi) _, hkey.symm, _, rfl⟩
    · obtain ⟨o, ho, hok, e, hp⟩ := h.inflight hk
      have hne : o ≠ c := by
        rintro rfl
        rw [hc] at hp
        exact absurd hp (by simp)
      exact ⟨o, mem_set_of_ne hi ho hne, hok, e, hp⟩
  · intro k e hk
    exact (h.cache hk).mono hext
  · intro f x e hx he
    rw [getElem?_append] at hx
    split at hx
    · exact h.entry hx he
    · obtain rfl := mem_singleton.mp (mem_of_getElem? hx)
      exact absurd he (by simp)
  · intro u
    have hown := owners_set hi
      { c with phase := .owner s.fetches.length (s.epochs.getD c.key.1 0) } u
    rw [owns_eq_false (c := c) (by simp [hc])] at hown
    simp only [Call.owns, decide_eq_true_eq, Bool.false_eq_true, if_false, Nat.add_zero] at hown
    simp only [Dict.get?_set, hown, h.running_getD]
    by_cases hu : u = c.key.1
    · simp [hu]
    · rw [if_neg hu, if_neg (Ne.symm hu), Nat.add_zero]
      exact h.running u

/-- The state after the owner of a fetch ended: its answer settled, its fetch out of the
coalescing map, and its user's epoch dropped with the user's last running fetch. -/
theorem Inv.closeFetch_eq (hc : c.phase = .owner f epoch) :
    closeFetch cfg s i c f epoch o =
      { s with
        cache := (settle cfg s c.key epoch o).1
        inflight :=
          if s.inflight.get? c.key = some f then s.inflight.erase c.key else s.inflight
        running :=
          if owners s.calls c.key.1 = 1 then s.running.erase c.key.1
          else s.running.set c.key.1 (owners s.calls c.key.1 - 1)
        epochs :=
          if owners s.calls c.key.1 = 1 then s.epochs.erase c.key.1 else s.epochs
        calls := s.calls.set i
          { c with phase := .done (settle cfg s c.key epoch o).2 } } := by
  have hrun := h.running_owner hi hc
  rw [closeFetch, finish_eq (s := { s with cache := (settle cfg s c.key epoch o).1 }) hrun
    (owners_pos hi hc)]
  rfl

theorem Inv.produced (hc : c.phase = .owner f epoch)
    (ho : ∀ e, o = .entry e → ∃ x, s.fetches[f]? = some x ∧ x.phase = .finished (.entry e)) :
    ∀ e, o = .entry e → Produced s.fetches c.key e := by
  intro e he
  obtain ⟨x, hx, hxe⟩ := ho e he
  obtain ⟨x', hx', hk⟩ := (h.calls c (mem_of_getElem? hi)).awaits (by rw [hc]; rfl)
  obtain rfl : x = x' := some.inj (hx.symm.trans hx')
  obtain rfl := h.entry hx hxe
  exact ⟨x, hx, hk, hxe⟩

theorem Inv.close (hc : c.phase = .owner f epoch)
    (ho : ∀ e, o = .entry e → ∃ x, s.fetches[f]? = some x ∧ x.phase = .finished (.entry e)) :
    Inv (closeFetch cfg s i c f epoch o) := by
  have hprod := h.produced hi hc ho
  rw [h.closeFetch_eq hi hc]
  refine ⟨?_, ?_, ?_, h.entry, ?_⟩
  · intro c' hc'
    obtain ⟨j, hj⟩ := mem_iff_getElem?.mp hc'
    by_cases hij : i = j
    · subst hij
      rw [getElem?_set_some hi] at hj
      cases hj
      refine ⟨by simp [Phase.awaits], by simp, fun hr => ?_⟩
      obtain ⟨e, he, hp, hf⟩ := settle_result (Phase.done.inj hr)
      exact ⟨e, hf, hprod e he, hp⟩
    · rw [getElem?_set_ne hij] at hj
      refine (h.calls c' (mem_of_getElem? hj)).mono (Extends.refl _) fun f' e' hp' => ?_
      exact (epochs_of_other_owner hi hc hj hij hp').ge
  · intro k f' hk
    obtain ⟨hold, hother⟩ := inflight_of_closed hk
    obtain ⟨o', ho', hk', e, hp⟩ := h.inflight hold
    have hne : o' ≠ c := by
      rintro rfl
      rw [hc] at hp
      exact hother ⟨hk'.symm, (Phase.owner.inj hp).1.symm⟩
    exact ⟨o', mem_set_of_ne hi ho' hne, hk', e, hp⟩
  · intro k e hk
    rcases settle_cache hk with hk | ⟨rfl, he, -⟩
    · exact h.cache hk
    · exact hprod e he
  · intro u
    dsimp only
    rw [owners_close hi hc]
    have hpos := owners_pos hi hc
    by_cases hu : u = c.key.1
    · subst hu
      by_cases h1 : owners s.calls c.key.1 = 1
      · simp [h1]
      · rw [if_neg h1, Dict.get?_set, if_pos rfl, if_pos rfl, if_neg (by omega)]
    · have hrun := h.running u
      by_cases h1 : owners s.calls c.key.1 = 1
      · simp [h1, hu, hrun]
      · simp [h1, hu, hrun]

end

theorem Inv.fetch {x' : Fetch} (hx : s.fetches[f]? = some x)
    (hu : ∀ o, x.phase ≠ .finished o) (hk : x'.key = x.key)
    (he : ∀ e, x'.phase = .finished (.entry e) → e.fetch = f) :
    Inv { s with fetches := s.fetches.set f x' } where
  calls c hc := (h.calls c hc).mono (extends_set hx hu hk) fun _ _ _ => le_rfl
  inflight := h.inflight
  cache hc := (h.cache hc).mono (extends_set hx hu hk)
  entry {g y e} hy hye := by
    rw [getElem?_set] at hy
    split at hy
    · rename_i hfg
      split at hy
      · cases hy
        exact hfg ▸ he e hye
      · exact absurd hy (by simp)
    · exact h.entry hy hye
  running := h.running

theorem Inv.invalidated (uids : List ℤ) :
    Inv (invalidateMany s uids) where
  calls c hc := (h.calls c hc).mono (Extends.refl _) fun _ _ _ => by
    show _ ≤ (bumpEpochs _ _ _).getD _ _
    rw [bumpEpochs_getD _ _ _ _ (List.nodup_dedup uids)]
    exact Nat.le_add_right _ _
  inflight {k f} hf := by
    have hf : (s.inflight.filterKeys fun k => k.1 ∉ uids.dedup).get? k = some f := hf
    rw [Dict.get?_filterKeys] at hf
    split at hf
    · exact h.inflight hf
    · exact absurd hf (by simp)
  cache {k e} hk := by
    have hk : (s.cache.filterKeys fun k => k.1 ∉ uids.dedup).get? k = some e := hk
    rw [Dict.get?_filterKeys] at hk
    split at hk
    · exact h.cache hk
    · exact absurd hk (by simp)
  entry := h.entry
  running := h.running

theorem Inv.cleared : Inv (clear s) := by
  have hinv := h.invalidated ((s.cache.keys.map Prod.fst).dedup ∪ s.running.keys)
  exact ⟨hinv.calls, hinv.inflight, fun hk => absurd hk (by simp [Perms.clear]), hinv.entry,
    hinv.running⟩

/-- Every event keeps the bookkeeping. -/
theorem inv_step (hs : step cfg s ev = some s') : Inv s' := by
  cases step_effect hs with
  | enter c hc => exact h.enter hc
  | move i c phase hi hc hm => exact h.move hi hc hm
  | mark i c hi => exact h.mark hi
  | create i c hi hc hf => exact h.create hi hc hf
  | close i c f epoch o hi hc ho => exact h.close hi hc ho
  | fetch f x x' hx hu hk he => exact h.fetch hx hu hk he
  | invalidate uids => exact h.invalidated uids
  | clear => exact h.cleared

end

/-- **The run lemma.** -/
theorem inv_run {es : List Event} (hs : run (step cfg) State.initial es = some s) : Inv s :=
  run_invariant inv_step Inv.initial hs

end ServiceToolkit.Perms
