import ServiceToolkit.ReplicaStore

/-!
# The Snapshot Store Without Redis

A `set_many` writes the local layer before it turns to Redis, and a `get_many` looks there first;
an exception of the pipeline or of `mget` is logged, and the call returns. What is not caught is an
exception of `start`, which both call when the store has no connection yet: **a call raises because
of Redis exactly where its connect does** (`raised_run`).

The values are safe all the same: a `set_many` has written them by then
(`get?_setLocalMany`), and a `get_many` that returns has every key it found (`Found`), unless the
value found is `None`, which the store takes for a missing key.
-/

namespace ServiceToolkit.Replica

open List

variable {K V R B : Type*}

/-- A call that an exception ended. -/
def Call.raised : Call K V R B → Bool
  | .set _ .raised => true
  | .get _ _ .raised => true
  | _ => false

/-- Some call has raised. -/
def State.raised (s : State K V R B) : Bool := s.calls.any Call.raised

/-- A call that has sent something to Redis and waits. -/
def Call.sent : Call K V R B → Bool
  | .set _ (.sending _) => true
  | .get _ _ .waiting => true
  | .get _ _ (.read _) => true
  | _ => false

/-- The call after it returned with what it has. -/
def Call.returned : Call K V R B → Call K V R B
  | .set values _ => .set values .returned
  | .get result missing _ => .get result missing .returned

/-- The connect of a waiting call fails. -/
def connectFails (s : State K V R B) : Event K V R B → Bool
  | .connect _ ok => !(s.connected || ok)
  | _ => false

variable [DecidableEq K]

/-- The entry of a key that is **live** for a `get_many`: not expired when the call prunes, nor at
any reading for this key. -/
def live (entries : Dict K (Entry V)) (requested : List (K × ℚ)) (now : ℚ) (key : K) :
    Option (Entry V) :=
  (entries.get? key).filter fun e =>
    decide (now < e.expiresAt) && requested.all fun r => r.1 ≠ key || decide (r.2 < e.expiresAt)

/-- The condition on a step: no connect fails, and a `get_many` asks for no key that is live with
the value `None`. -/
def withstands (s : State K V R B) : Event K V R B → Bool
  | .connect i ok => !connectFails s (.connect i ok)
  | .getMany requested now =>
    requested.all fun r => (live s.entries requested now r.1).all fun e => e.value.isSome
  | _ => true

/-- The keys of a write that the limit keeps: the last ones. -/
def keptKeys (cfg : Config K V R B) (values : Dict K (Option V)) : List K :=
  match cfg.localMaxEntries with
  | none => values.keys
  | some limit => values.keys.drop (values.size - limit)

/-- What surviving an outage means: no call has raised; after each `set_many` the local layer held
its values, those the limit keeps; each `get_many` has every live key it asked for; and a call that
waits for Redis returns if an exception comes. -/
structure Survived [DecidableEq R] (cfg : Config K V R B) (redis : Dict R B)
    (es : List (Event K V R B)) (s : State K V R B) : Prop where
  returns : ∀ c ∈ s.calls, c.raised = false
  wrote : ∀ es₁ values now es₂, es = es₁ ++ .setMany values now :: es₂ →
    ∃ s₂, run (step cfg) (.initial redis) (es₁ ++ [.setMany values now]) = some s₂ ∧
      ∀ k v, values.get? k = some v → 0 < cfg.localTtl →
        s₂.entries.get? k =
          if k ∈ keptKeys cfg values then some ⟨v, now + cfg.localTtl⟩ else none
  found : ∀ es₁ requested now es₂, es = es₁ ++ .getMany requested now :: es₂ →
    ∃ s₁ result missing phase, run (step cfg) (.initial redis) es₁ = some s₁ ∧
      s.calls[s₁.calls.length]? = some (.get result missing phase) ∧
      ∀ k entry, k ∈ requested.map Prod.fst → live s₁.entries requested now k = some entry →
        result.get? k = some entry.value
  caught : ∀ i c, s.calls[i]? = some c → c.sent = true →
    ∃ s', step cfg s (.fail i) = some s' ∧ s'.entries = s.entries ∧
      s'.calls[i]? = some c.returned

/-! ### Which calls raise -/

section

variable [DecidableEq R] {cfg : Config K V R B} {s s' : State K V R B} {e : Event K V R B}

omit [DecidableEq K] [DecidableEq R] in
theorem raised_enter {c : Call K V R B} (hcalls : s'.calls = s.calls ++ [c])
    (hc : c.raised = false) : s'.raised = (s.raised || false) := by
  rw [State.raised, hcalls, any_append, any_cons, hc]
  rfl

omit [DecidableEq K] [DecidableEq R] in
theorem raised_move {i : ℕ} {c c' : Call K V R B} {b : Bool} (hi : s.calls[i]? = some c)
    (hc : c.raised = false) (hcalls : s'.calls = s.calls.set i c') (hc' : c'.raised = b) :
    s'.raised = (s.raised || b) := by
  rw [State.raised, hcalls, any_set hi hc, hc']
  rfl

/-- **Which steps raise**: after a step some call has raised if one had before, or if the step is
a connect that fails. -/
theorem raised_step (hs : step cfg s e = some s') : s'.raised = (s.raised || connectFails s e) := by
  cases step_effect hs with
  | setLocal | stop | expire | foreign => exact (Bool.or_false _).symm
  | setMany values now =>
    refine raised_enter rfl ?_
    split
    · rfl
    · split <;> rfl
  | getMany requested now =>
    unfold getMany
    split
    · exact raised_enter rfl rfl
    · refine raised_enter rfl ?_
      split
      · rfl
      · split <;> rfl
  | setConnects hi hok | setRaises hi hok | getConnects hi hok | getRaises hi hok =>
    exact raised_move hi rfl rfl (by rw [connectFails, hok]; rfl)
  | setExecuted hi | getExecuted hi | setAnswered hi | getAnswered hi | setFails hi =>
    exact raised_move hi rfl rfl rfl
  | getFails hi hphase =>
    refine raised_move hi ?_ rfl rfl
    rcases hphase with rfl | ⟨raws, rfl⟩ <;> rfl

theorem raised_run {es : List (Event K V R B)} (hrun : run (step cfg) s es = some s') :
    s'.raised = false ↔
      s.raised = false ∧ StepsMeet (step cfg) (fun s e => connectFails s e = false) s es := by
  induction es generalizing s with
  | nil =>
    cases hrun
    exact ⟨fun h => ⟨h, trivial⟩, fun h => h.1⟩
  | cons e es ih =>
    obtain ⟨s₁, hs, hrest⟩ := run_cons_eq_some hrun
    rw [ih hrest, stepsMeet_cons_iff hs, raised_step hs, Bool.or_eq_false_iff, and_assoc]

end

/-! ### What a write leaves -/

section

variable {cfg : Config K V R B} {entries : Dict K (Entry V)} {values : Dict K (Option V)}

theorem entries_writeLocal (exp : ℚ) {l : List (K × Option V)} (hl : (l.map Prod.fst).Nodup) :
    (writeLocal entries l exp).entries =
      (entries.entries.filter fun e => e.1 ∉ l.map Prod.fst) ++
        l.map fun e => (e.1, ⟨e.2, exp⟩) := by
  induction l generalizing entries with
  | nil => simp [writeLocal]
  | cons e l ih =>
    obtain ⟨hnew, hl⟩ := nodup_cons.mp hl
    have hfirst : writeLocal entries (e :: l) exp =
        writeLocal ((entries.set e.1 ⟨e.2, exp⟩).moveToEnd e.1) l exp := rfl
    have hrest : ∀ x : K × Entry V, (decide (x.1 ∉ l.map Prod.fst) && decide (x.1 ≠ e.1)) =
        decide (x.1 ∉ (e :: l).map Prod.fst) := by
      intro x
      by_cases hx : x.1 = e.1 <;> simp [hx]
    rw [hfirst, ih hl, Dict.entries_moveToEnd_set, filter_append, filter_filter,
      filter_cons_of_pos (by simpa using hnew), filter_nil, append_assoc]
    simp only [hrest]
    rfl

theorem mem_keys_setLocalMany (httl : 0 < cfg.localTtl) {k : K} {now : ℚ} (hk : k ∈ values.keys) :
    k ∈ (setLocalMany cfg entries values now).keys ↔ k ∈ keptKeys cfg values := by
  have hne : values.entries ≠ [] := by
    rintro hnil
    rw [Dict.keys, hnil] at hk
    cases hk
  obtain ⟨others, hkeys, hother⟩ : ∃ others,
      (writeLocal (pruneLocal entries now) values.entries (now + cfg.localTtl)).keys =
        others ++ values.keys ∧ k ∉ others := by
    refine ⟨((pruneLocal entries now).entries.filter fun e => e.1 ∉ values.keys).map Prod.fst,
      ?_, ?_⟩
    · rw [Dict.keys, entries_writeLocal _ values.nodup, map_append, map_map]
      rfl
    · intro hmem
      obtain ⟨e, he, rfl⟩ := mem_map.mp hmem
      have hnot : e.1 ∉ values.keys := by simpa using (mem_filter.mp he).2
      exact hnot hk
  rw [setLocalMany, if_neg (by simp [hne, httl]), pruneLocalLimit, keptKeys]
  generalize writeLocal (pruneLocal entries now) values.entries (now + cfg.localTtl) = all
    at hkeys ⊢
  cases cfg.localMaxEntries with
  | none => simp [hkeys, hk]
  | some limit =>
    have hsize : all.size - limit - others.length = values.size - limit := by
      rw [← Dict.length_keys all, hkeys, length_append, Dict.length_keys]
      omega
    have hdrop : (all.dropFirst (all.size - limit)).keys =
        others.drop (all.size - limit) ++ values.keys.drop (values.size - limit) := by
      rw [Dict.keys, Dict.dropFirst, map_drop]
      change all.keys.drop _ = _
      rw [hkeys, drop_append, hsize]
    dsimp only
    rw [hdrop, mem_append, or_iff_right fun hmem => hother (mem_of_mem_drop hmem)]

/-- **A write, seen at its keys**: those the limit keeps hold the value written, the others are
gone. -/
theorem get?_setLocalMany (httl : 0 < cfg.localTtl) {k : K} {v : Option V} {now : ℚ}
    (hk : values.get? k = some v) :
    (setLocalMany cfg entries values now).get? k =
      if k ∈ keptKeys cfg values then some ⟨v, now + cfg.localTtl⟩ else none := by
  have hmem : k ∈ values.keys := by
    rw [Dict.mem_keys_iff, hk]
    rfl
  split
  · rename_i hkept
    rw [← mem_keys_setLocalMany httl hmem, Dict.mem_keys_iff] at hkept
    rcases get?_setLocalMany_of_some httl hk with hnone | hsome
    · rw [hnone] at hkept
      cases hkept
    · exact hsome
  · next hgone => exact Dict.get?_eq_none_iff.mpr (mt (mem_keys_setLocalMany httl hmem).mp hgone)

end

/-! ### The outage -/

section

variable [DecidableEq R] {cfg : Config K V R B} {redis : Dict R B} {es : List (Event K V R B)}
  {s : State K V R B}

omit [DecidableEq R] in
theorem live_eq_some {entries : Dict K (Entry V)} {requested : List (K × ℚ)} {now : ℚ} {k : K}
    {entry : Entry V} (h : live entries requested now k = some entry) :
    entries.get? k = some entry ∧ now < entry.expiresAt ∧
      ∀ t, (k, t) ∈ requested → t < entry.expiresAt := by
  obtain ⟨hget, hlive⟩ := Option.filter_eq_some_iff.mp h
  simp only [Bool.and_eq_true, decide_eq_true_eq, all_eq_true, Bool.or_eq_true] at hlive
  refine ⟨hget, hlive.1, fun t ht => ?_⟩
  exact (hlive.2 (k, t) ht).resolve_left fun hne => hne rfl

theorem isRead_step {s' : State K V R B} {e : Event K V R B} {i : ℕ}
    (h : ∃ result missing phase, s.calls[i]? = some (.get result missing phase))
    (hs : step cfg s e = some s') :
    ∃ result missing phase, s'.calls[i]? = some (.get result missing phase) := by
  obtain ⟨result, missing, phase, hi⟩ := h
  rcases calls_step hs with heq | ⟨c, heq⟩ | ⟨j, c, c', hj, heq, hmoves⟩
  · exact ⟨result, missing, phase, heq ▸ hi⟩
  · exact ⟨result, missing, phase, heq ▸ getElem?_append_some hi⟩
  · by_cases hij : j = i
    · subst hij
      obtain rfl := Option.some.inj (hi.symm.trans hj)
      cases hmoves with
      | get _ new _ _ p' _ _ => exact ⟨_, _, p', heq ▸ getElem?_set_some hi⟩
    · exact ⟨result, missing, phase, by rw [heq, getElem?_set_ne hij, hi]⟩

omit [DecidableEq R] in
theorem isRead_getMany (requested : List (K × ℚ)) (now : ℚ) :
    ∃ result missing phase, (getMany cfg s requested now).calls[s.calls.length]? =
      some (.get result missing phase) := by
  unfold getMany
  split
  · exact ⟨_, _, _, getElem?_concat_length⟩
  · exact ⟨_, _, _, getElem?_concat_length⟩

/-- A read keeps what it found: the value of every live key, if there is one. -/
theorem found_of_getMany {es₁ es₂ : List (Event K V R B)} {requested : List (K × ℚ)} {now : ℚ}
    (hrun : run (step cfg) (.initial redis) (es₁ ++ .getMany requested now :: es₂) = some s)
    (hok : StepsMeet (step cfg) (fun s e => withstands s e = true) (.initial redis)
      (es₁ ++ .getMany requested now :: es₂)) :
    ∃ s₁ result missing phase, run (step cfg) (.initial redis) es₁ = some s₁ ∧
      s.calls[s₁.calls.length]? = some (.get result missing phase) ∧
      ∀ k entry, k ∈ requested.map Prod.fst → live s₁.entries requested now k = some entry →
        result.get? k = some entry.value := by
  obtain ⟨s₁, h₁, hrun⟩ := run_append_eq_some hrun
  obtain ⟨-, hok⟩ := stepsMeet_append hok h₁
  obtain ⟨s₂, h₂, hrun⟩ := run_cons_eq_some hrun
  obtain ⟨hvalues, -⟩ := stepsMeet_cons hok h₂
  cases h₂
  obtain ⟨result, missing, phase, hcall⟩ := run_invariant isRead_step
    (isRead_getMany requested now) hrun
  refine ⟨s₁, result, missing, phase, h₁, hcall, fun k entry hk hlive => ?_⟩
  obtain ⟨hget, hnow, hreads⟩ := live_eq_some hlive
  -- a live key that is asked for does not hold `None`
  obtain ⟨v, hv⟩ : ∃ v, entry.value = some v := by
    obtain ⟨r, hr, rfl⟩ := mem_map.mp hk
    have hsome := all_eq_true.mp hvalues r hr
    rw [hlive] at hsome
    exact Option.isSome_iff_exists.mp hsome
  obtain ⟨value, exp⟩ := entry
  obtain rfl : value = some v := hv
  have hfound : Found s₁.calls.length k (some v) _ (getMany cfg s₁ requested now) :=
    found_getMany hget hk hnow hreads
  obtain ⟨result', missing', phase', hcall', -, hresult, -⟩ := run_invariant found_step hfound hrun
  obtain ⟨rfl, -, -⟩ := Call.get.inj (Option.some.inj (hcall.symm.trans hcall'))
  exact hresult

theorem fail_returns {i : ℕ} {c : Call K V R B} (hi : s.calls[i]? = some c)
    (hsent : c.sent = true) :
    ∃ s', step cfg s (.fail i) = some s' ∧ s'.entries = s.entries ∧
      s'.calls[i]? = some c.returned := by
  have hset : ∀ c', (s.setCall i c').calls[i]? = some c' := fun c' => getElem?_set_some hi
  simp only [step, hi, Option.bind_some]
  cases c with
  | set values phase =>
    cases phase with
    | sending pending => exact ⟨_, rfl, rfl, hset _⟩
    | connecting | returned | raised => cases hsent
  | get result missing phase =>
    cases phase with
    | waiting | read raws => exact ⟨_, rfl, rfl, hset _⟩
    | connecting | returned | raised => cases hsent

omit [DecidableEq R] in
theorem connectFails_of_withstands {e : Event K V R B} (h : withstands s e = true) :
    connectFails s e = false := by
  cases e with
  | connect i ok => simpa [withstands] using h
  | setLocal | setMany | getMany | execute | answer | fail | stop | expire | foreign => rfl

/-- **Surviving an outage**: in every run, with Redis failing anywhere, no call has raised exactly
if no connect failed; and if besides no `get_many` asked for a live key with the value `None`, the
store survived. -/
theorem outage_survived (cfg : Config K V R B) (redis : Dict R B) (es : List (Event K V R B))
    (s : State K V R B) (hrun : run (step cfg) (.initial redis) es = some s) :
    ((∀ c ∈ s.calls, c.raised = false) ↔
      StepsMeet (step cfg) (fun s e => connectFails s e = false) (.initial redis) es) ∧
    (StepsMeet (step cfg) (fun s e => withstands s e = true) (.initial redis) es →
      Survived cfg redis es s) := by
  have hraised : (∀ c ∈ s.calls, c.raised = false) ↔
      StepsMeet (step cfg) (fun s e => connectFails s e = false) (.initial redis) es := by
    have hinitial : (State.initial redis : State K V R B).raised = false := rfl
    have h := raised_run hrun
    rw [State.raised, any_eq_false, and_iff_right hinitial] at h
    simpa only [Bool.not_eq_true] using h
  have hconnects : StepsMeet (step cfg) (fun s e => withstands s e = true) (.initial redis) es →
      StepsMeet (step cfg) (fun s e => connectFails s e = false) (.initial redis) es :=
    StepsMeet.mono fun _ _ h => connectFails_of_withstands h
  refine ⟨hraised, fun hok => ⟨hraised.mpr (hconnects hok), ?_, ?_, ?_⟩⟩
  · rintro es₁ values now es₂ rfl
    obtain ⟨s₁, h₁, hrest⟩ := run_append_eq_some hrun
    refine ⟨setMany cfg s₁ values now, ?_, fun k v hk httl => get?_setLocalMany httl hk⟩
    rw [run_append, h₁]
    rfl
  · rintro es₁ requested now es₂ rfl
    exact found_of_getMany hrun hok
  · exact fun i c hi hsent => fail_returns hi hsent

end

/-- The first write connects, the pipeline of the second and the `mget` of a read fail. -/
def outageSchedule : List (Event ℕ ℕ ℕ ℕ) :=
  [.setMany (probeValues 1) 0, .connect 0 true, .fail 0, .setMany (probeValues 2) 1, .execute 1,
    .fail 1, .getMany [(0, 2), (3, 2)] 2, .execute 2, .fail 2]

theorem outage_survived_outageSchedule :
    ∃ s, run (step probeConfig) (.initial .empty) outageSchedule = some s ∧
      probeReturned s 2 = some (some 2) ∧ Survived probeConfig .empty outageSchedule s := by
  have hreturned : (run (step probeConfig) (.initial .empty) outageSchedule).map
      (probeReturned · 2) = some (some (some 2)) := by decide +kernel
  obtain ⟨s, hs, hreturned⟩ := Option.map_eq_some_iff.mp hreturned
  exact ⟨s, hs, hreturned, (outage_survived probeConfig .empty outageSchedule s hs).2
    (by decide +kernel)⟩

/-- Redis is down when the store is first used: the write is in the local layer, and the call
raises. -/
theorem first_write_raises :
    (run (step probeConfig) (.initial .empty)
      [.setMany (probeValues 1) 0, .connect 0 false]).map
        (fun s => (s.entries.get? 0, s.calls.map Call.raised)) =
      some (some ⟨some 1, 10⟩, [true]) := by
  decide +kernel

end ServiceToolkit.Replica
