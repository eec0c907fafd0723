import ServiceToolkit.Recency
import ServiceToolkit.ReplicaStore

/-!
# The Local Layer of the Snapshot Store

`_prune_local` drops expired entries from the front and stops at the first one that is not
expired. That this drops them all rests on an order nothing in the code checks: the entries must
stand in the order of their expiry. They do, since every write moves its entry to the end and all
entries live equally long, as long as the clock does not go back.
-/

namespace ServiceToolkit.Replica

open List

variable {K V R B : Type*}

/-- The readings of the clock an event makes, in their order. -/
def Event.readings : Event K V R B → List ℚ
  | .setLocal _ now => [now]
  | .setMany _ now => [now]
  | .getMany requested now => now :: requested.map Prod.snd
  | .answer _ now => [now]
  | .connect _ _ | .execute _ | .fail _ | .stop | .expire _ | .foreign _ _ => []

/-- The keys `_set_local_many` writes, in the order of its loop. -/
def localWrites (cfg : Config K V R B) (values : Dict K (Option V)) : List K :=
  if cfg.localTtl ≤ 0 then [] else values.keys

/-- Entries by their expiry, the earliest first. -/
def ByExpiry (entries : Dict K (Entry V)) : Prop :=
  entries.entries.Pairwise fun a b => a.2.expiresAt ≤ b.2.expiresAt

/-- What orders the local layer: the entries stand by their expiry, each written at one of the
clock's readings, and by their last write, and the limit is kept. -/
structure Ordered (cfg : Config K V R B) (readings : List ℚ) (log : List K)
    (entries : Dict K (Entry V)) : Prop where
  byExpiry : ByExpiry entries
  written : ∀ e ∈ entries.entries, ∃ t ∈ readings, e.2.expiresAt = t + cfg.localTtl
  byLastUse : ByLastUse log entries.keys
  bounded : ∀ limit, cfg.localMaxEntries = some limit → entries.size ≤ limit

section

variable [DecidableEq K]

/-- The keys an event writes to the local layer. A read writes what Redis answered. -/
def written (cfg : Config K V R B) (s : State K V R B) : Event K V R B → List K
  | .setLocal values _ => localWrites cfg values
  | .setMany values _ => localWrites cfg values
  | .answer i _ =>
    match s.calls[i]? with
    | some (.get _ missing (.read raws)) => localWrites cfg (decoded cfg missing raws)
    | _ => []
  | .getMany _ _ | .connect _ _ | .execute _ | .fail _ | .stop | .expire _ | .foreign _ _ => []

/-- The promise of the local layer after a log of writes: it stands by expiry, a prune leaves
nothing expired, the limit is kept, and after the loop of a write the limit drops what was last
written before everything that stays. -/
structure LocalLayer (cfg : Config K V R B) (log : List K) (s : State K V R B) : Prop where
  ordered : ByExpiry s.entries
  pruned : ∀ now, ∀ e ∈ (pruneLocal s.entries now).entries, now < e.2.expiresAt
  bounded : ∀ limit, cfg.localMaxEntries = some limit → s.entries.size ≤ limit
  evicted : ∀ (values : Dict K (Option V)) (now : ℚ) (entries : Dict K (Entry V)),
    entries = writeLocal (pruneLocal s.entries now) values.entries (now + cfg.localTtl) →
    ∀ k k', k ∈ entries.keys → k ∉ (pruneLocalLimit cfg entries).keys →
      k' ∈ (pruneLocalLimit cfg entries).keys → UsedBefore (log ++ values.keys) k k'

/-! ### Pruning -/

section

variable {cfg : Config K V R B} {readings : List ℚ} {log : List K} {entries : Dict K (Entry V)}

omit [DecidableEq K] in
theorem Ordered.sublist (h : Ordered cfg readings log entries) {entries' : Dict K (Entry V)}
    (hsub : entries'.entries.Sublist entries.entries) : Ordered cfg readings log entries' where
  byExpiry := h.byExpiry.sublist hsub
  written e he := h.written e (hsub.subset he)
  byLastUse := h.byLastUse.sublist (hsub.map Prod.fst)
  bounded limit hlimit := hsub.length_le.trans (h.bounded limit hlimit)

omit [DecidableEq K] in
/-- **Pruning** from the front drops everything that has expired, where the entries stand by
their expiry. -/
theorem lt_expiresAt_of_mem_pruneLocal (h : ByExpiry entries) {now : ℚ} {e : K × Entry V}
    (he : e ∈ (pruneLocal entries now).entries) : now < e.2.expiresAt := by
  have hall : ∀ l : List (K × Entry V), l.Pairwise (fun a b => a.2.expiresAt ≤ b.2.expiresAt) →
      e ∈ l.dropWhile (fun e => e.2.expiresAt ≤ now) → now < e.2.expiresAt := by
    intro l
    induction l with
    | nil => exact fun _ hmem => absurd hmem not_mem_nil
    | cons a l ih =>
      intro hl hmem
      obtain ⟨ha, hl⟩ := pairwise_cons.mp hl
      by_cases hexp : a.2.expiresAt ≤ now
      · rw [dropWhile_cons_of_pos (by simpa using hexp)] at hmem
        exact ih hl hmem
      · rw [dropWhile_cons_of_neg (by simpa using hexp)] at hmem
        have hlt := not_le.mp hexp
        rcases mem_cons.mp hmem with rfl | hmem
        · exact hlt
        · exact hlt.trans_le (ha e hmem)
  exact hall _ h he

end

/-! ### Writing -/

section

variable {cfg : Config K V R B} {readings : List ℚ} {log : List K} {entries : Dict K (Entry V)}

/-- The loop of a write keeps the order of expiry, where nothing expires later than what it
writes. -/
theorem byExpiry_writeLocal {exp : ℚ} (values : List (K × Option V)) (h : ByExpiry entries)
    (hle : ∀ e ∈ entries.entries, e.2.expiresAt ≤ exp) :
    ByExpiry (writeLocal entries values exp) := by
  unfold writeLocal
  refine (foldl_invariant (fun _ (d : Dict K (Entry V)) => ByExpiry d ∧
    ∀ e ∈ d.entries, e.2.expiresAt ≤ exp) ⟨h, hle⟩ ?_).1
  rintro _ ⟨k, v⟩ _ d - ⟨hd, hdle⟩
  rw [ByExpiry, Dict.entries_moveToEnd_set]
  have hrest : ∀ e ∈ d.entries.filter (fun e => e.1 ≠ k), e.2.expiresAt ≤ exp :=
    fun e he => hdle e (mem_of_mem_filter he)
  constructor
  · rw [pairwise_append]
    refine ⟨hd.sublist filter_sublist, pairwise_singleton .., fun a ha b hb => ?_⟩
    obtain rfl := mem_singleton.mp hb
    exact hrest a ha
  · intro e he
    rcases mem_append.mp he with he | he
    · exact hrest e he
    · rw [mem_singleton.mp he]

theorem byLastUse_writeLocal {exp : ℚ} (values : List (K × Option V))
    (h : ByLastUse log entries.keys) :
    ByLastUse (log ++ values.map Prod.fst) (writeLocal entries values exp).keys := by
  unfold writeLocal
  refine foldl_invariant (fun done (d : Dict K (Entry V)) =>
    ByLastUse (log ++ done.map Prod.fst) d.keys) (by simpa using h) ?_
  intro done e _ d _ hd
  rw [Dict.keys_moveToEnd_set, map_append, ← append_assoc]
  exact hd.touch e.1

theorem mem_writeLocal {exp : ℚ} {values : List (K × Option V)} {e : K × Entry V}
    (he : e ∈ (writeLocal entries values exp).entries) :
    e ∈ entries.entries ∨ e.2.expiresAt = exp := by
  have hget : (writeLocal entries values exp).get? e.1 = some e.2 := Dict.mem_entries_iff.mp he
  rw [get?_writeLocal] at hget
  rcases Option.or_eq_some_iff.mp hget with hnew | ⟨-, hold⟩
  · obtain ⟨v, -, heq⟩ := Option.map_eq_some_iff.mp hnew
    exact .inr (heq ▸ rfl)
  · exact .inl (Dict.mem_entries_iff.mpr hold)

omit [DecidableEq K] in
theorem pruneLocalLimit_sublist (cfg : Config K V R B) (entries : Dict K (Entry V)) :
    (pruneLocalLimit cfg entries).entries.Sublist entries.entries := by
  unfold pruneLocalLimit
  split
  · exact List.Sublist.refl _
  · exact drop_sublist ..

omit [DecidableEq K] in
theorem size_pruneLocalLimit {limit : ℕ} (hlimit : cfg.localMaxEntries = some limit) :
    (pruneLocalLimit cfg entries).size ≤ limit := by
  have hsize : (pruneLocalLimit cfg entries).size = entries.size - (entries.size - limit) := by
    simp only [pruneLocalLimit, hlimit, Dict.size, Dict.dropFirst, length_drop]
  omega

/-- **A write** at a reading that no earlier one exceeds keeps the layer ordered. -/
theorem Ordered.setLocalMany (h : Ordered cfg readings log entries) {now : ℚ}
    (hclock : ∀ t ∈ readings, t ≤ now) (values : Dict K (Option V)) :
    Ordered cfg (readings ++ [now]) (log ++ localWrites cfg values)
      (setLocalMany cfg entries values now) := by
  unfold Replica.setLocalMany
  split
  · rename_i hskip
    have hnone : localWrites cfg values = [] := by
      rw [localWrites]
      split
      · rfl
      · next httl => rw [Dict.keys, hskip.resolve_right httl, map_nil]
    rw [hnone, append_nil]
    refine ⟨h.byExpiry, fun e he => ?_, h.byLastUse, h.bounded⟩
    obtain ⟨t, ht, heq⟩ := h.written e he
    exact ⟨t, mem_append_left _ ht, heq⟩
  · rename_i hwrite
    have hwrites : localWrites cfg values = values.entries.map Prod.fst :=
      if_neg fun httl => hwrite (.inr httl)
    have hp : Ordered cfg readings log (pruneLocal entries now) :=
      h.sublist (dropWhile_sublist _)
    have hsub := pruneLocalLimit_sublist cfg
      (writeLocal (pruneLocal entries now) values.entries (now + cfg.localTtl))
    refine ⟨List.Pairwise.sublist hsub (byExpiry_writeLocal _ hp.byExpiry fun e he => ?_),
      fun e he => ?_, ?_, fun limit => size_pruneLocalLimit⟩
    · obtain ⟨t, ht, heq⟩ := hp.written e he
      rw [heq]
      exact add_le_add_left (hclock t ht) _
    · rcases mem_writeLocal (hsub.subset he) with hold | hnew
      · obtain ⟨t, ht, heq⟩ := hp.written e hold
        exact ⟨t, mem_append_left _ ht, heq⟩
      · exact ⟨now, mem_append_right _ mem_cons_self, hnew⟩
    · rw [hwrites]
      exact (byLastUse_writeLocal _ hp.byLastUse).sublist (hsub.map Prod.fst)

end

/-! ### The steps -/

section

variable [DecidableEq R] {cfg : Config K V R B} {s s' : State K V R B} {e : Event K V R B}
  {readings : List ℚ} {log : List K}

theorem lookUpAll_sublist (entries : Dict K (Entry V)) (requested : List (K × ℚ)) :
    (lookUpAll entries requested).entries.entries.Sublist entries.entries := by
  unfold lookUpAll
  refine foldl_invariant (fun _ (l : Lookups K V) =>
    l.entries.entries.Sublist entries.entries) (List.Sublist.refl _) ?_
  intro _ e _ l _ hl
  have hlocal : (getLocal l.entries e.1 e.2).2.entries.Sublist l.entries.entries := by
    unfold getLocal
    split
    · exact List.Sublist.refl _
    · split
      · exact filter_sublist
      · exact List.Sublist.refl _
  have heq : (lookUp l e.1 e.2).entries = (getLocal l.entries e.1 e.2).2 := by
    unfold lookUp
    split <;> next hget => rw [hget]
  rw [heq]
  exact hlocal.trans hl

/-- **What an event does to the local layer**: one write of `_set_local_many`, or nothing but
dropping entries. -/
theorem entries_step (hs : step cfg s e = some s') :
    (s'.entries.entries.Sublist s.entries.entries ∧ written cfg s e = []) ∨
      ∃ values now, e.readings = [now] ∧ s'.entries = setLocalMany cfg s.entries values now ∧
        written cfg s e = localWrites cfg values := by
  cases step_effect hs with
  | setLocal values now | setMany values now => exact .inr ⟨values, now, rfl, rfl, rfl⟩
  | getMany requested now =>
    refine .inl ⟨?_, rfl⟩
    unfold getMany
    split
    · exact List.Sublist.refl _
    · exact (lookUpAll_sublist ..).trans (dropWhile_sublist _)
  | setAnswered hi =>
    refine .inl ⟨List.Sublist.refl _, ?_⟩
    rw [written, hi]
  | getAnswered hi =>
    refine .inr ⟨_, _, rfl, rfl, ?_⟩
    rw [written, hi]
  | stop => exact .inl ⟨nil_sublist _, rfl⟩
  | setConnects | setRaises | getConnects | getRaises | setExecuted | getExecuted | setFails
  | getFails | expire | foreign => exact .inl ⟨List.Sublist.refl _, rfl⟩

/-- **The step lemma**: an event whose readings no earlier one exceeds keeps the layer ordered. -/
theorem ordered_step (h : Ordered cfg readings log s.entries)
    (hclock : ∀ t ∈ readings, ∀ t' ∈ e.readings, t ≤ t') (hs : step cfg s e = some s') :
    Ordered cfg (readings ++ e.readings) (log ++ written cfg s e) s'.entries := by
  rcases entries_step hs with ⟨hsub, hnone⟩ | ⟨values, now, hreadings, heq, hwritten⟩
  · have hkept := h.sublist hsub
    rw [hnone, append_nil]
    refine ⟨hkept.byExpiry, fun e he => ?_, hkept.byLastUse, hkept.bounded⟩
    obtain ⟨t, ht, heq⟩ := hkept.written e he
    exact ⟨t, mem_append_left _ ht, heq⟩
  · rw [hreadings, heq, hwritten]
    exact h.setLocalMany (fun t ht => hclock t ht now (by simp [hreadings])) values

omit [DecidableEq K] [DecidableEq R] in
theorem Ordered.initial (redis : Dict R B) :
    Ordered cfg [] [] (State.initial redis : State K V R B).entries where
  byExpiry := .nil
  written _ he := absurd he not_mem_nil
  byLastUse := .nil []
  bounded _ _ := Nat.zero_le _

/-- **The run lemma**: in every run under a clock that does not go back the layer is ordered. -/
theorem ordered_run {redis : Dict R B} {es : List (Event K V R B)}
    (hrun : run (step cfg) (.initial redis) es = some s)
    (hclock : (es.flatMap Event.readings).Pairwise (· ≤ ·)) :
    Ordered cfg (es.flatMap Event.readings)
      (observed (step cfg) (written cfg) (.initial redis) es) s.entries := by
  refine run_observed (P := fun es log s => (es.flatMap Event.readings).Pairwise (· ≤ ·) →
    Ordered cfg (es.flatMap Event.readings) log s.entries) ?_ (fun _ => .initial redis) hrun hclock
  intro es log s e s' h hs hclock
  rw [flatMap_append, flatMap_singleton] at hclock ⊢
  obtain ⟨hpast, -, hnow⟩ := pairwise_append.mp hclock
  exact ordered_step (h hpast) hnow hs

end

omit [DecidableEq K] in
theorem usedBefore_of_pruneLocalLimit {cfg : Config K V R B} {log : List K}
    {entries : Dict K (Entry V)} (h : ByLastUse log entries.keys) {k k' : K}
    (hk : k ∈ entries.keys) (hgone : k ∉ (pruneLocalLimit cfg entries).keys)
    (hk' : k' ∈ (pruneLocalLimit cfg entries).keys) : UsedBefore log k k' := by
  unfold pruneLocalLimit at hgone hk'
  split at hgone
  · exact absurd hk hgone
  · rename_i limit hlimit
    rw [hlimit] at hk'
    dsimp only [Dict.keys, Dict.dropFirst] at hgone hk'
    rw [map_drop] at hgone hk'
    rw [Dict.keys, ← take_append_drop (entries.size - limit) (entries.entries.map Prod.fst),
      mem_append] at hk
    exact h.before _ (hk.resolve_right hgone) hk'

/-- **The order of the local layer**: in every run under a clock that does not go back, the entries
stand by expiry, a prune leaves no expired entry, the limit is kept, and what it drops was last
written before everything that stays. -/
theorem local_layer_ordered [DecidableEq R] (cfg : Config K V R B) (redis : Dict R B)
    (es : List (Event K V R B)) (s : State K V R B)
    (hrun : run (step cfg) (.initial redis) es = some s)
    (hclock : (es.flatMap Event.readings).Pairwise (· ≤ ·)) :
    LocalLayer cfg (observed (step cfg) (written cfg) (.initial redis) es) s := by
  have h := ordered_run hrun hclock
  refine ⟨h.byExpiry, fun now e he => lt_expiresAt_of_mem_pruneLocal h.byExpiry he, h.bounded, ?_⟩
  rintro values now _ rfl k k' hk hgone hk'
  have hpruned : ByLastUse _ (pruneLocal s.entries now).keys :=
    h.byLastUse.sublist ((dropWhile_sublist _).map Prod.fst)
  exact usedBefore_of_pruneLocalLimit (byLastUse_writeLocal _ hpruned) hk hgone hk'

end

/-- Key 0 is written again after key 1, and a third key does not fit. -/
def overwriteSchedule : List (Event ℕ ℕ ℕ ℕ) :=
  [.setLocal (.ofList [(0, some 1)]) 0, .setMany (.ofList [(1, some 1)]) 1,
    .setLocal (.ofList [(0, some 2)]) 2, .getMany [(1, 2), (0, 3)] 2,
    .setLocal (.ofList [(2, some 1)]) 3]

theorem local_layer_ordered_overwriteSchedule :
    ∃ s, run (step { probeConfig with localMaxEntries := some 2 }) (.initial .empty)
        overwriteSchedule = some s ∧
      s.entries.keys = [0, 2] ∧
      LocalLayer { probeConfig with localMaxEntries := some 2 } [0, 1, 0, 2] s := by
  have hkeys : (run (step { probeConfig with localMaxEntries := some 2 }) (.initial .empty)
      overwriteSchedule).map (fun s => s.entries.keys) = some [0, 2] := by decide +kernel
  obtain ⟨s, hs, hkeys⟩ := Option.map_eq_some_iff.mp hkeys
  exact ⟨s, hs, hkeys, local_layer_ordered _ .empty _ s hs (by decide +kernel)⟩

end ServiceToolkit.Replica
