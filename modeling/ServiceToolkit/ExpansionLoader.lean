import ServiceToolkit.Dict
import ServiceToolkit.Runs

/-!
# The Expansion Loader

`ExpansionLoader` keeps what a request has loaded. `get_or_load` returns the value of a key, or
awaits the loader it was given and then stores what it returned; `prime` stores a value directly.
Between the look into the cache and the store anything may happen: calls are events, and a load is
a party that started and has not ended yet.

The log of what happened is a part of the state that no call reads. **Loading once**
(`LoadsOnce`) is a property of the log: one load of a key succeeds at most, all calls for a key
return one value, and no load replaces a value that was primed while it ran.
-/

namespace ServiceToolkit.ExpansionLoader

open List Option

variable {K V : Type*}

/-- What happened. Loads are numbered in the order they started. -/
inductive Act (K V : Type*)
  /-- `get_or_load` calls its loader. -/
  | started (load : ℕ) (key : K)
  /-- The loader returned and the value was stored. -/
  | loaded (load : ℕ) (key : K) (value : V)
  | primed (key : K) (value : V)
  /-- `get_or_load` returned. -/
  | returned (key : K) (value : V)

/-- The key a value was stored under. -/
def Act.storedKey : Act K V → Option K
  | loaded _ key _ | primed key _ => some key
  | started .. | returned .. => none

/-- A load of a key that succeeded. -/
def Act.isLoadOf [DecidableEq K] (key : K) : Act K V → Bool
  | loaded _ k _ => k = key
  | started .. | primed .. | returned .. => false

/-- A `get_or_load` that awaits its loader, or did. -/
structure Load (K : Type*) where
  key : K
  running : Bool

/-- **The loader** of a request, with its calls and the log. -/
structure State (K V : Type*) where
  cache : Dict K V := .empty
  loads : List (Load K) := []
  log : List (Act K V) := []

/-- What can happen at an await point. -/
inductive Event (K V : Type*)
  /-- `get_or_load` is called. -/
  | get (key : K)
  /-- The loader of a call returns. -/
  | finish (load : ℕ) (value : V)
  /-- The loader of a call raises, or the call is cancelled. -/
  | fail (load : ℕ)
  /-- `prime` is called. -/
  | prime (key : K) (value : V)

section

variable [DecidableEq K]

/-- The number and key of a load that is running. -/
def State.runningLoad (s : State K V) (load : ℕ) : Option K :=
  (s.loads[load]?).bind fun l => if l.running then some l.key else none

/-- The state after a load has ended. -/
def State.ended (s : State K V) (load : ℕ) (key : K) : List (Load K) :=
  s.loads.set load ⟨key, false⟩

/-- One step. Only a load that is running can end. -/
def step (s : State K V) : Event K V → Option (State K V)
  | .get key =>
    match s.cache.get? key with
    | some value => some { s with log := s.log ++ [.returned key value] }
    | none => some { s with
        loads := s.loads ++ [⟨key, true⟩]
        log := s.log ++ [.started s.loads.length key] }
  | .finish load value =>
    (s.runningLoad load).map fun key =>
      { cache := s.cache.set key value
        loads := s.ended load key
        log := s.log ++ [.loaded load key value, .returned key value] }
  | .fail load => (s.runningLoad load).map fun key => { s with loads := s.ended load key }
  | .prime key value =>
    some { s with cache := s.cache.set key value, log := s.log ++ [.primed key value] }

/-! ### Loading once -/

/-- **Every key is loaded once.** -/
structure LoadsOnce (log : List (Act K V)) : Prop where
  /-- The loader of a key runs to success at most once. -/
  once : ∀ key, (log.filter (Act.isLoadOf key)).length ≤ 1
  /-- Every call for a key returns the same value. -/
  same : ∀ key v w, .returned key v ∈ log → .returned key w ∈ log → v = w
  /-- A primed value is not replaced by a load that was running when it was given. -/
  kept : ∀ before between behind key v load w,
    log = before ++ .primed key v :: (between ++ .loaded load key w :: behind) →
      .started load key ∉ before

/-- **The condition on a step**: a load ends with its key still missing, and a call that finds a
value finds the one that every earlier call returned. -/
def Meets (s : State K V) : Event K V → Prop
  | .get key => ∀ v w, s.cache.get? key = some v → .returned key w ∈ s.log → w = v
  | .finish load _ => ∀ key, s.runningLoad load = some key → s.cache.get? key = none
  | .fail _ | .prime .. => True

/-- No load of a key is running. -/
def Idle (s : State K V) (key : K) : Prop := ∀ load, s.runningLoad load ≠ some key

/-- Calls for a key keep apart: it is asked for when it is there or no load of it is running, and
primed when no load of it is running and it has no other value. -/
def Apart (s : State K V) : Event K V → Prop
  | .get key => s.cache.get? key = none → Idle s key
  | .prime key value => Idle s key ∧ ∀ v, s.cache.get? key = some v → v = value
  | .finish .. | .fail _ => True

/-! ### What a step does -/

/-- **The effect of an event**, one case for each way to go on. -/
inductive Effect (s : State K V) : Event K V → State K V → Prop
  | hit {key v} (h : s.cache.get? key = some v) :
      Effect s (.get key) { s with log := s.log ++ [.returned key v] }
  | start {key} (h : s.cache.get? key = none) :
      Effect s (.get key) { s with
        loads := s.loads ++ [⟨key, true⟩]
        log := s.log ++ [.started s.loads.length key] }
  | finish {load : ℕ} {key} (v : V) (h : s.runningLoad load = some key) :
      Effect s (.finish load v)
        { cache := s.cache.set key v
          loads := s.ended load key
          log := s.log ++ [.loaded load key v, .returned key v] }
  | fail {load : ℕ} {key} (h : s.runningLoad load = some key) :
      Effect s (.fail load) { s with loads := s.ended load key }
  | prime (key : K) (v : V) :
      Effect s (.prime key v)
        { s with cache := s.cache.set key v, log := s.log ++ [.primed key v] }

variable {s s' : State K V} {e : Event K V}

/-- The step relation has every step. -/
theorem step_effect (h : step s e = some s') : Effect s e s' := by
  cases e with
  | get key =>
    rw [step] at h
    cases hget : s.cache.get? key with
    | some v =>
      rw [hget] at h
      cases h
      exact .hit hget
    | none =>
      rw [hget] at h
      cases h
      exact .start hget
  | finish load v =>
    obtain ⟨key, hkey, rfl⟩ := map_eq_some_iff.mp h
    exact .finish v hkey
  | fail load =>
    obtain ⟨key, hkey, rfl⟩ := map_eq_some_iff.mp h
    exact .fail hkey
  | prime key v =>
    cases h
    exact .prime key v

omit [DecidableEq K] in
theorem runningLoad_of_ended {s t : State K V} {load load' : ℕ} {key key' : K}
    (ht : t.loads = s.ended load key) (h : t.runningLoad load' = some key') :
    load' ≠ load ∧ s.runningLoad load' = some key' := by
  rw [State.runningLoad, ht, State.ended] at h
  have hne : load' ≠ load := by
    rintro rfl
    rw [getElem?_set] at h
    split at h
    · split at h <;> simp at h
    · exact absurd rfl ‹_›
  rw [getElem?_set_ne hne.symm] at h
  exact ⟨hne, h⟩

omit [DecidableEq K] in
theorem runningLoad_of_started {t : State K V} {key : K}
    (ht : t.loads = s.loads ++ [⟨key, true⟩]) {load : ℕ} {key' : K}
    (h : t.runningLoad load = some key') :
    (load = s.loads.length ∧ key' = key) ∨ s.runningLoad load = some key' := by
  rw [State.runningLoad, ht] at h
  by_cases hload : load = s.loads.length
  · subst hload
    simp only [getElem?_concat_length, bind_some, if_true, some.injEq] at h
    exact .inl ⟨rfl, h.symm⟩
  · rw [getElem?_concat_of_ne hload] at h
    exact .inr h

/-! ### The invariant -/

/-- What holds after every step that meets the condition: nothing is loaded after it was primed,
nothing is started after it was stored, and the cache has the keys that were stored. -/
structure Sound (s : State K V) : Prop where
  once : ∀ key, (s.log.filter (Act.isLoadOf key)).length ≤ 1
  same : ∀ key v w, .returned key v ∈ s.log → .returned key w ∈ s.log → v = w
  unprimed : s.log.Pairwise fun a b => ∀ key v load w, a = .primed key v → b ≠ .loaded load key w
  early : s.log.Pairwise fun a b => ∀ key load, a.storedKey = some key → b ≠ .started load key
  cached : ∀ key, s.cache.get? key = none ↔ ∀ act ∈ s.log, act.storedKey ≠ some key
  returned : ∀ key v, .returned key v ∈ s.log → s.cache.get? key ≠ none
  started : ∀ load key, s.runningLoad load = some key → .started load key ∈ s.log

theorem Sound.loadsOnce (h : Sound s) : LoadsOnce s.log where
  once := h.once
  same := h.same
  kept before between behind key v load w hlog := by
    have hpairs := h.unprimed
    rw [hlog] at hpairs
    have hcons := (pairwise_append.mp hpairs).2.1
    exact absurd rfl (rel_of_pairwise_cons hcons (by simp) key v load w rfl)

theorem sound_initial : Sound ({} : State K V) where
  once _ := Nat.zero_le _
  same _ _ _ h := by cases h
  unprimed := .nil
  early := .nil
  cached key := by simp [Dict.get?_empty]
  returned _ _ h := by cases h
  started load key h := by simp [State.runningLoad] at h

section

variable {s : State K V} {key : K}

theorem Sound.hit (h : Sound s) {v : V} (hget : s.cache.get? key = some v)
    (hsame : ∀ w, .returned key w ∈ s.log → w = v) :
    Sound { s with log := s.log ++ [.returned key v] } where
  once key' := by simpa [List.filter_append, Act.isLoadOf] using h.once key'
  same key' a b ha hb := by
    have hcase : ∀ {a}, .returned key' a ∈ s.log ++ [.returned key v] →
        .returned key' a ∈ s.log ∨ key' = key ∧ a = v := by
      intro a ha
      simpa using ha
    rcases hcase ha with hold | ⟨rfl, hv⟩ <;> rcases hcase hb with hold' | ⟨hkey, hv'⟩
    · exact h.same key' a b hold hold'
    · exact hv' ▸ hsame a (hkey ▸ hold)
    · exact hv ▸ (hsame b hold').symm
    · rw [hv, hv']
  unprimed := pairwise_append.mpr ⟨h.unprimed, pairwise_singleton .., by simp⟩
  early := pairwise_append.mpr ⟨h.early, pairwise_singleton .., by simp⟩
  cached key' := by
    rw [h.cached]
    simp [Act.storedKey, or_imp, forall_and]
  returned key' a ha := by
    rcases mem_append.mp ha with ha | ha
    · exact h.returned key' a ha
    · obtain ⟨rfl, rfl⟩ : key' = key ∧ a = v := by simpa using ha
      exact ne_none_iff_exists'.mpr ⟨a, hget⟩
  started load key' hload := mem_append_left _ (h.started load key' hload)

theorem Sound.start (h : Sound s) (hget : s.cache.get? key = none) :
    Sound { s with
      loads := s.loads ++ [⟨key, true⟩]
      log := s.log ++ [.started s.loads.length key] } where
  once key' := by simpa [List.filter_append, Act.isLoadOf] using h.once key'
  same key' a b ha hb := h.same key' a b (by simpa using ha) (by simpa using hb)
  unprimed := List.pairwise_append.mpr ⟨h.unprimed, List.pairwise_singleton .., by simp⟩
  early := by
    refine pairwise_append.mpr ⟨h.early, pairwise_singleton .., ?_⟩
    intro a ha b hb key' load hstored heq
    obtain rfl := mem_singleton.mp hb
    obtain ⟨-, rfl⟩ := Act.started.inj heq
    exact (h.cached key).mp hget a ha hstored
  cached key' := by
    rw [h.cached]
    simp [Act.storedKey, or_imp, forall_and]
  returned key' a ha := h.returned key' a (by simpa using ha)
  started load key' hload := by
    rcases runningLoad_of_started (s := s) rfl hload with ⟨rfl, rfl⟩ | hold
    · simp
    · exact mem_append_left _ (h.started load key' hold)

theorem Sound.finish (h : Sound s) {load : ℕ} (v : V)
    (hload : s.runningLoad load = some key) (hget : s.cache.get? key = none) :
    Sound {
      cache := s.cache.set key v
      loads := s.ended load key
      log := s.log ++ [.loaded load key v, .returned key v] } where
  once key' := by
    rw [filter_append, length_append]
    by_cases hkey : key = key'
    · subst hkey
      have hnone : s.log.filter (Act.isLoadOf key) = [] := by
        rw [filter_eq_nil_iff]
        intro act hact hloadOf
        refine (h.cached key).mp hget act hact ?_
        cases act with
        | loaded i k w =>
          rw [Act.storedKey, of_decide_eq_true hloadOf]
        | started | primed | returned => cases hloadOf
      rw [hnone]
      simp [Act.isLoadOf]
    · simpa [Act.isLoadOf, hkey] using h.once key'
  same key' a b ha hb := by
    have hfresh : ∀ w, .returned key w ∉ s.log := fun w hw => h.returned key w hw hget
    have hcase : ∀ {a}, .returned key' a ∈ s.log ++ [.loaded load key v, .returned key v] →
        .returned key' a ∈ s.log ∨ key' = key ∧ a = v := by
      intro a ha
      simpa using ha
    rcases hcase ha with hold | ⟨hkey, hv⟩ <;> rcases hcase hb with hold' | ⟨hkey', hv'⟩
    · exact h.same key' a b hold hold'
    · exact absurd (hkey' ▸ hold) (hfresh a)
    · exact absurd (hkey ▸ hold') (hfresh b)
    · rw [hv, hv']
  unprimed := by
    refine pairwise_append.mpr ⟨h.unprimed, by simp, ?_⟩
    intro a ha b hb key' w load' w' hprimed heq
    rw [heq] at hb
    obtain ⟨-, rfl, -⟩ : load' = load ∧ key' = key ∧ w' = v := by simpa using hb
    exact (h.cached key').mp hget a ha (by rw [hprimed, Act.storedKey])
  early := by
    refine pairwise_append.mpr ⟨h.early, by simp, ?_⟩
    intro a ha b hb key' load' hstored heq
    simp [heq] at hb
  cached key' := by
    rw [Dict.get?_set]
    by_cases hkey : key' = key
    · subst hkey
      rw [if_pos rfl]
      exact iff_of_false (by simp) fun hno => hno (.loaded load key' v) (by simp) rfl
    · rw [if_neg hkey, h.cached]
      simp [Act.storedKey, or_imp, forall_and, Ne.symm hkey]
  returned key' a ha := by
    rw [Dict.get?_set]
    by_cases hkey : key' = key
    · simp [hkey]
    · rw [if_neg hkey]
      exact h.returned key' a (by simpa [hkey] using ha)
  started load' key' hload' :=
    mem_append_left _ (h.started load' key' (runningLoad_of_ended (s := s) rfl hload').2)

theorem Sound.fail (h : Sound s) (load : ℕ) (key : K) :
    Sound { s with loads := s.ended load key } where
  once := h.once
  same := h.same
  unprimed := h.unprimed
  early := h.early
  cached := h.cached
  returned := h.returned
  started load' key' hload' := h.started load' key' (runningLoad_of_ended (s := s) rfl hload').2

theorem Sound.prime (h : Sound s) (key : K) (v : V) :
    Sound { s with cache := s.cache.set key v, log := s.log ++ [.primed key v] } where
  once key' := by simpa [List.filter_append, Act.isLoadOf] using h.once key'
  same key' a b ha hb := h.same key' a b (by simpa using ha) (by simpa using hb)
  unprimed := List.pairwise_append.mpr ⟨h.unprimed, List.pairwise_singleton .., by simp⟩
  early := List.pairwise_append.mpr ⟨h.early, List.pairwise_singleton .., by simp⟩
  cached key' := by
    rw [Dict.get?_set]
    by_cases hkey : key' = key
    · subst hkey
      simp [Act.storedKey]
    · rw [if_neg hkey, h.cached]
      simp [Act.storedKey, or_imp, forall_and, Ne.symm hkey]
  returned key' a ha := by
    rw [Dict.get?_set]
    by_cases hkey : key' = key
    · simp [hkey]
    · rw [if_neg hkey]
      exact h.returned key' a (by simpa using ha)
  started load key' hload := mem_append_left _ (h.started load key' hload)

end

/-- A step keeps the loader sound. -/
theorem sound_step (h : Sound s) (hmeets : Meets s e) (hs : step s e = some s') : Sound s' := by
  cases step_effect hs with
  | hit hget => exact h.hit hget fun w hw => hmeets _ w hget hw
  | start hget => exact h.start hget
  | finish v hload => exact h.finish v hload (hmeets _ hload)
  | fail _ => exact h.fail _ _
  | prime key v => exact h.prime key v

theorem not_loadsOnce_finish (h : Sound s) {load : ℕ} {key : K} (v : V)
    (hload : s.runningLoad load = some key) (hget : s.cache.get? key ≠ none) :
    ¬ LoadsOnce (s.log ++ [.loaded load key v, .returned key v]) := by
  intro hbad
  have hstored := mt (h.cached key).mpr hget
  simp only [ne_eq, not_forall, not_not] at hstored
  obtain ⟨act, hact, hkey⟩ := hstored
  cases act with
  | started | returned => cases hkey
  | loaded i k w =>
    obtain rfl : k = key := some.inj hkey
    have honce := hbad.once k
    have hpos : 0 < (s.log.filter (Act.isLoadOf k)).length :=
      length_pos_of_mem (mem_filter.mpr ⟨hact, decide_eq_true rfl⟩)
    rw [filter_append, length_append] at honce
    simp only [Act.isLoadOf, decide_true, filter_cons_of_pos, Bool.false_eq_true,
      not_false_eq_true, filter_cons_of_neg, filter_nil, length_singleton] at honce
    omega
  | primed k w =>
    obtain rfl : k = key := some.inj hkey
    obtain ⟨before, behind, hlog⟩ := append_of_mem hact
    have hstarted := h.started load k hload
    have hearly := h.early
    rw [hlog] at hstarted hearly
    have hbefore : Act.started load k ∈ before := by
      refine (mem_append.mp hstarted).resolve_right fun hmem => ?_
      rcases mem_cons.mp hmem with heq | hmem
      · cases heq
      · have hcons := (pairwise_append.mp hearly).2.1
        exact rel_of_pairwise_cons hcons hmem k load rfl rfl
    refine hbad.kept before behind [.returned k v] k w load v ?_ hbefore
    rw [hlog, append_assoc, cons_append]

theorem not_loadsOnce_step (h : Sound s)
    (hnot : ¬ Meets s e) (hs : step s e = some s') : ¬ LoadsOnce s'.log := by
  cases step_effect hs with
  | hit hget =>
    intro hbad
    refine hnot fun v' w hget' hw => ?_
    obtain rfl := some.inj (hget.symm.trans hget')
    exact hbad.same _ w _ (mem_append_left _ hw) (by simp)
  | start hget =>
    refine absurd (fun v w hget' _ => ?_) hnot
    rw [hget] at hget'
    cases hget'
  | finish v hload =>
    refine not_loadsOnce_finish h v hload fun hget => hnot fun key hkey => ?_
    obtain rfl := some.inj (hload.symm.trans hkey)
    exact hget
  | fail _ | prime _ _ => exact absurd trivial hnot

/-! ### Keeping apart -/

/-- What keeping apart adds: one load of a key runs at most, only while the key is missing, and what
was returned is still there. -/
structure Quiet (s : State K V) : Prop extends Sound s where
  alone : ∀ i j key, s.runningLoad i = some key → s.runningLoad j = some key → i = j
  missing : ∀ i key, s.runningLoad i = some key → s.cache.get? key = none
  current : ∀ key w, .returned key w ∈ s.log → s.cache.get? key = some w

theorem Quiet.meets (h : Quiet s) (e : Event K V) : Meets s e := by
  cases e with
  | get key => exact fun v w hget hw => some.inj ((h.current key w hw).symm.trans hget)
  | finish load v => exact fun key hload => h.missing load key hload
  | fail | prime => trivial

/-- A step apart keeps it quiet. -/
theorem quiet_step (h : Quiet s) (hapart : Apart s e) (hs : step s e = some s') : Quiet s' := by
  have hsound := sound_step h.toSound (h.meets e) hs
  cases step_effect hs with
  | hit hget =>
    refine ⟨hsound, h.alone, h.missing, fun key' w hw => ?_⟩
    rcases mem_append.mp hw with hw | hw
    · exact h.current key' w hw
    · cases mem_singleton.mp hw
      exact hget
  | start hget =>
    have hidle := hapart hget
    refine ⟨hsound, fun i j key' hi hj => ?_, fun i key' hi => ?_, fun key' w hw => ?_⟩
    · rcases runningLoad_of_started (s := s) rfl hi with ⟨hnew, rfl⟩ | hold <;>
        rcases runningLoad_of_started (s := s) rfl hj with ⟨hnew', hkey⟩ | hold'
      · rw [hnew, hnew']
      · exact absurd hold' (hidle j)
      · exact absurd (hkey ▸ hold) (hidle i)
      · exact h.alone i j key' hold hold'
    · rcases runningLoad_of_started (s := s) rfl hi with ⟨-, rfl⟩ | hi
      · exact hget
      · exact h.missing i key' hi
    · exact h.current key' w (by simpa using hw)
  | @finish load key v hload =>
    have hother : ∀ {i key'}, State.runningLoad { s with loads := s.ended load key } i =
        some key' → key' ≠ key ∧ s.runningLoad i = some key' := by
      intro i key' hi
      obtain ⟨hne, hold⟩ := runningLoad_of_ended (s := s) rfl hi
      refine ⟨?_, hold⟩
      rintro rfl
      exact hne (h.alone i load key' hold hload)
    refine ⟨hsound, fun i j key' hi hj => ?_, fun i key' hi => ?_, fun key' w hw => ?_⟩
    · exact h.alone i j key' (hother hi).2 (hother hj).2
    · rw [Dict.get?_set, if_neg (hother hi).1]
      exact h.missing i key' (hother hi).2
    · rw [Dict.get?_set]
      have hcase : .returned key' w ∈ s.log ∨ key' = key ∧ w = v := by simpa using hw
      rcases hcase with hold | ⟨rfl, rfl⟩
      · have hne : key' ≠ key := by
          rintro rfl
          have hcurrent := h.current key' w hold
          rw [h.missing load key' hload] at hcurrent
          cases hcurrent
        rw [if_neg hne]
        exact h.current key' w hold
      · rw [if_pos rfl]
  | fail hload =>
    refine ⟨hsound, fun i j key' hi hj => ?_, fun i key' hi => ?_, h.current⟩
    · exact h.alone i j key' (runningLoad_of_ended (s := s) rfl hi).2
        (runningLoad_of_ended (s := s) rfl hj).2
    · exact h.missing i key' (runningLoad_of_ended (s := s) rfl hi).2
  | prime key v =>
    refine ⟨hsound, h.alone, fun i key' hi => ?_, fun key' w hw => ?_⟩
    · have hne : key' ≠ key := by
        rintro rfl
        exact hapart.1 i hi
      rw [Dict.get?_set, if_neg hne]
      exact h.missing i key' hi
    · have hcurrent := h.current key' w (by simpa using hw)
      rw [Dict.get?_set]
      by_cases hkey : key' = key
      · rw [if_pos hkey, hapart.2 w (hkey ▸ hcurrent)]
      · rw [if_neg hkey]
        exact hcurrent

theorem quiet_initial : Quiet ({} : State K V) where
  toSound := sound_initial
  alone i j key h := by simp [State.runningLoad] at h
  missing i key h := by simp [State.runningLoad] at h
  current key w h := by cases h

/-- **Loading once, exactly.** Throughout a run every key is loaded once if and only if every step
meets the condition, and every step does if the calls keep apart. -/
theorem loadsOnce_iff (es : List (Event K V)) (s : State K V) (hrun : run step {} es = some s) :
    ((∀ done s₁, done <+: es → run step {} done = some s₁ → LoadsOnce s₁.log) ↔
      StepsMeet step Meets {} es) ∧
    (StepsMeet step Apart {} es → StepsMeet step Meets {} es) := by
  constructor
  · exact throughout_iff (I := Sound) (P := fun s => LoadsOnce s.log) Sound.loadsOnce
      (fun h _ hmeets hs => sound_step h hmeets hs)
      (fun h _ hnot hs => not_loadsOnce_step h hnot hs) sound_initial (stepsMeet_true ..) hrun
  · exact StepsMeet.imp_where (I := Quiet) quiet_step (fun h _ => h.meets _) quiet_initial

/-- A call that loads, and one after it. -/
def inTurn : List (Event ℕ ℕ) := [.get 0, .finish 0 7, .get 0]

theorem inTurn_apart : StepsMeet step Apart {} inTurn := by
  refine ⟨fun _ load => ?_, trivial, fun hget => ?_, trivial⟩
  · simp [State.runningLoad]
  · cases hget

theorem inTurn_loadsOnce :
    ∃ s, run step {} inTurn = some s ∧
      s.log = [.started 0 0, .loaded 0 0 7, .returned 0 7, .returned 0 7] ∧ LoadsOnce s.log :=
  ⟨_, rfl, rfl, (loadsOnce_iff inTurn _ rfl).1.mpr ((loadsOnce_iff inTurn _ rfl).2 inTurn_apart)
    inTurn _ (prefix_refl _) rfl⟩

/-- Two calls for one key, both before the first load has ended. -/
def gathered : List (Event ℕ ℕ) := [.get 0, .get 0, .finish 0 7, .finish 1 8]

/-- A value primed while a load runs. -/
def overtaken : List (Event ℕ ℕ) := [.get 0, .prime 0 5, .finish 0 7]

/-- Both calls load and return different values; the load replaces the primed value. -/
theorem gathered_loads_twice :
    (∃ s, run step {} gathered = some s ∧ ¬ LoadsOnce s.log ∧
      s.log = [.started 0 0, .started 1 0, .loaded 0 0 7, .returned 0 7, .loaded 1 0 8,
        .returned 0 8]) ∧
    ∃ s, run step {} overtaken = some s ∧ ¬ LoadsOnce s.log ∧ s.cache.get? 0 = some 7 :=
  ⟨⟨_, rfl, fun h => absurd (h.once 0) (by decide), rfl⟩,
    ⟨_, rfl, fun h => h.kept [.started 0 0] [] [.returned 0 7] 0 5 0 7 rfl (by simp), rfl⟩⟩

end

end ServiceToolkit.ExpansionLoader
