import Mathlib.Data.List.Nodup

/-!
# Insertion-Ordered Dictionaries

The dictionaries of the language: finite maps that remember the order in which their
keys were first stored. Storing under a present key replaces the value in place, storing
under a new key appends it, and iteration visits the entries in that order. That no key
occurs twice is a field of the structure, so it never has to be re-proved.

Every operation comes with the equation of its `get?`, which is all that order-blind
proofs use.
-/

namespace ServiceToolkit

open List

/-- A dictionary: its entries in insertion order, no key twice. -/
structure Dict (K V : Type*) where
  entries : List (K × V)
  nodup : (entries.map Prod.fst).Nodup

namespace Dict

variable {K V : Type*}

/-- The dictionary without entries. -/
def empty : Dict K V := ⟨[], List.nodup_nil⟩

/-- The keys in iteration order. -/
def keys (d : Dict K V) : List K := d.entries.map Prod.fst

/-- The number of entries. -/
def size (d : Dict K V) : ℕ := d.entries.length

/-- The entries whose key passes `p`, in their order. -/
def filterKeys (d : Dict K V) (p : K → Bool) : Dict K V :=
  ⟨d.entries.filter fun e => p e.1,
    d.nodup.sublist (List.filter_sublist.map Prod.fst)⟩

/-- The entries whose value passes `p`, in their order. -/
def filterValues (d : Dict K V) (p : V → Bool) : Dict K V :=
  ⟨d.entries.filter fun e => p e.2,
    d.nodup.sublist (List.filter_sublist.map Prod.fst)⟩

/-- Drop the first `n` entries. -/
def dropFirst (d : Dict K V) (n : ℕ) : Dict K V :=
  ⟨d.entries.drop n, d.nodup.sublist ((List.drop_sublist n d.entries).map Prod.fst)⟩

/-- Drop the first entries for as long as they pass `p`. -/
def dropWhile (d : Dict K V) (p : V → Bool) : Dict K V :=
  ⟨d.entries.dropWhile fun e => p e.2,
    d.nodup.sublist ((List.dropWhile_sublist _).map Prod.fst)⟩

variable [DecidableEq K]

/-- The value stored under a key. -/
def get? (d : Dict K V) (k : K) : Option V := d.entries.lookup k

/-- The value stored under a key, or a default. -/
def getD (d : Dict K V) (k : K) (v : V) : V := (d.get? k).getD v

variable (l : List (K × V))

theorem map_fst_replace (k : K) (v : V) :
    (l.map fun e => if e.1 = k then (k, v) else e).map Prod.fst = l.map Prod.fst := by
  rw [map_map]
  refine map_congr_left fun e _ => ?_
  by_cases h : e.1 = k <;> simp [h]

/-- Store under a key: in place when the key is present, at the end otherwise. -/
def set (d : Dict K V) (k : K) (v : V) : Dict K V :=
  if h : k ∈ d.keys then
    ⟨d.entries.map fun e => if e.1 = k then (k, v) else e,
      (map_fst_replace d.entries k v).symm ▸ d.nodup⟩
  else
    ⟨d.entries ++ [(k, v)], by
      rw [List.map_append, List.nodup_append]
      refine ⟨d.nodup, List.nodup_singleton k, ?_⟩
      rintro a ha b hb rfl
      obtain rfl : a = k := by simpa using hb
      exact h ha⟩

/-- Drop a key. -/
def erase (d : Dict K V) (k : K) : Dict K V := d.filterKeys fun k' => k' ≠ k

/-- Move a key's entry to the end. -/
def moveToEnd (d : Dict K V) (k : K) : Dict K V :=
  match d.get? k with
  | some v => (d.erase k).set k v
  | none => d

/-- Store every entry of another dictionary. -/
def update (d d' : Dict K V) : Dict K V := d'.entries.foldl (fun d e => d.set e.1 e.2) d

/-- The dictionary of a list of pairs: of several pairs with one key the last counts. -/
def ofList (l : List (K × V)) : Dict K V := l.foldl (fun d e => d.set e.1 e.2) empty

/-! ### Looking up -/

@[simp] theorem get?_empty (k : K) : (empty : Dict K V).get? k = none := rfl

theorem lookup_cons_eq (e : K × V) (es : List (K × V)) (k : K) :
    (e :: es).lookup k = if k = e.1 then some e.2 else es.lookup k := by
  rw [lookup_cons]
  by_cases h : k = e.1
  · rw [if_pos h, beq_iff_eq.mpr h]
  · rw [if_neg h, beq_eq_false_iff_ne.mpr h]

variable {d : Dict K V} {k : K}

theorem mem_keys_iff : k ∈ d.keys ↔ (d.get? k).isSome := by
  rw [keys, get?]
  induction d.entries with
  | nil => simp
  | cons e es ih =>
    rw [map_cons, mem_cons, lookup_cons_eq, ih]
    by_cases h : k = e.1 <;> simp [h]

theorem get?_eq_none_iff : d.get? k = none ↔ k ∉ d.keys := by
  rw [mem_keys_iff, Option.not_isSome_iff_eq_none]

theorem lookup_filter_fst (p : K → Bool) (k : K) :
    (l.filter fun e => p e.1).lookup k = if p k then l.lookup k else none := by
  induction l with
  | nil => simp
  | cons e es ih =>
    rw [lookup_cons_eq, filter_cons]
    by_cases he : k = e.1
    · subst he
      by_cases hp : p e.1
      · rw [if_pos hp, lookup_cons_eq]
        simp [hp]
      · rw [if_neg hp, ih]
        simp [hp]
    · rw [if_neg he]
      by_cases hp : p e.1
      · rw [if_pos hp, lookup_cons_eq, if_neg he, ih]
      · rw [if_neg hp, ih]

@[simp] theorem get?_filterKeys (d : Dict K V) (p : K → Bool) (k : K) :
    (d.filterKeys p).get? k = if p k then d.get? k else none :=
  lookup_filter_fst d.entries p k

@[simp] theorem get?_erase (d : Dict K V) (k k' : K) :
    (d.erase k).get? k' = if k' = k then none else d.get? k' := by
  rw [erase, get?_filterKeys]
  by_cases h : k' = k <;> simp [h]

theorem lookup_replace_of_ne {k' : K} (v : V) (hne : k' ≠ k) :
    (l.map fun e => if e.1 = k then (k, v) else e).lookup k' = l.lookup k' := by
  induction l with
  | nil => rfl
  | cons e es ih =>
    rw [map_cons, lookup_cons_eq, lookup_cons_eq, ih]
    by_cases he : e.1 = k
    · rw [if_pos he, if_neg hne, if_neg (he ▸ hne)]
    · rw [if_neg he]

theorem lookup_replace_self (v : V) (hk : k ∈ l.map Prod.fst) :
    (l.map fun e => if e.1 = k then (k, v) else e).lookup k = some v := by
  induction l with
  | nil => simp at hk
  | cons e es ih =>
    rw [map_cons, lookup_cons_eq]
    by_cases he : e.1 = k
    · simp [he]
    · rw [map_cons, mem_cons] at hk
      rw [if_neg he, if_neg (Ne.symm he)]
      exact ih (hk.resolve_left (Ne.symm he))

@[simp] theorem get?_set (d : Dict K V) (k k' : K) (v : V) :
    (d.set k v).get? k' = if k' = k then some v else d.get? k' := by
  unfold set
  by_cases hkk : k' = k
  · subst hkk
    rw [if_pos rfl]
    split
    · next h => exact lookup_replace_self d.entries v h
    · rename_i h
      have hk : d.entries.lookup k' = none := get?_eq_none_iff.mpr h
      show (d.entries ++ [(k', v)]).lookup k' = some v
      rw [lookup_append, hk]
      simp
  · rw [if_neg hkk]
    split
    · exact lookup_replace_of_ne d.entries v hkk
    · show (d.entries ++ [(k, v)]).lookup k' = d.get? k'
      rw [lookup_append, lookup_cons_eq, if_neg hkk]
      simp [get?]

theorem getD_set (d : Dict K V) (k k' : K) (v w : V) :
    (d.set k v).getD k' w = if k' = k then v else d.getD k' w := by
  rw [getD, get?_set]
  split <;> rfl

theorem getD_erase (d : Dict K V) (k k' : K) (w : V) :
    (d.erase k).getD k' w = if k' = k then w else d.getD k' w := by
  rw [getD, get?_erase]
  split <;> rfl

variable {v : V}

theorem mem_iff_lookup_eq_some {l : List (K × V)} (hnodup : (l.map Prod.fst).Nodup) :
    (k, v) ∈ l ↔ l.lookup k = some v := by
  induction l with
  | nil => simp
  | cons e es ih =>
    rw [map_cons, nodup_cons] at hnodup
    rw [lookup_cons_eq, mem_cons]
    by_cases h : k = e.1
    · have habsent : (k, v) ∉ es := fun hmem =>
        hnodup.1 (h ▸ mem_map_of_mem (f := Prod.fst) hmem)
      rw [if_pos h, Option.some_inj, or_iff_left habsent, Prod.ext_iff]
      exact ⟨fun he => he.2.symm, fun he => ⟨h, he.symm⟩⟩
    · rw [if_neg h, ← ih hnodup.2]
      exact or_iff_right fun he => h (congrArg Prod.fst he)

theorem lookup_reverse {l : List (K × V)} (hnodup : (l.map Prod.fst).Nodup) (k : K) :
    l.reverse.lookup k = l.lookup k := by
  have hnodup' : (l.reverse.map Prod.fst).Nodup := by
    rw [map_reverse]
    exact nodup_reverse.mpr hnodup
  refine Option.ext fun v => ?_
  rw [← mem_iff_lookup_eq_some hnodup', ← mem_iff_lookup_eq_some hnodup, mem_reverse]

theorem mem_entries_iff : (k, v) ∈ d.entries ↔ d.get? k = some v :=
  mem_iff_lookup_eq_some d.nodup

theorem entries_eq_nil (h : ∀ k, d.get? k = none) : d.entries = [] := by
  rw [eq_nil_iff_forall_not_mem]
  rintro ⟨k, v⟩ hmem
  have hget := mem_entries_iff.mp hmem
  rw [h k] at hget
  exact absurd hget (by simp)

@[simp] theorem get?_filterValues (d : Dict K V) (p : V → Bool) (k : K) :
    (d.filterValues p).get? k = (d.get? k).filter p := by
  ext v
  rw [Option.filter_eq_some_iff, ← mem_entries_iff, ← mem_entries_iff]
  exact mem_filter

@[simp] theorem get?_moveToEnd (d : Dict K V) (k k' : K) : (d.moveToEnd k).get? k' = d.get? k' := by
  rw [moveToEnd]
  split
  · rename_i v hv
    rw [get?_set, get?_erase]
    by_cases h : k' = k
    · rw [if_pos h, h, hv]
    · rw [if_neg h, if_neg h]
  · rfl

theorem get?_foldl_set (d : Dict K V) (k : K) :
    (l.foldl (fun d e => d.set e.1 e.2) d).get? k = (l.reverse.lookup k).or (d.get? k) := by
  induction l generalizing d with
  | nil => rfl
  | cons e es ih =>
    rw [foldl_cons, ih, get?_set, reverse_cons, lookup_append, Option.or_assoc,
      lookup_cons_eq]
    by_cases h : k = e.1 <;> simp [h]

theorem get?_ofList (k : K) : (ofList l).get? k = l.reverse.lookup k := by
  rw [ofList, get?_foldl_set, get?_empty, Option.or_none]

theorem filterMap_key (d : Dict K V) (k : K) :
    (d.entries.filterMap fun e => if e.1 = k then some e.2 else none) = (d.get? k).toList := by
  obtain ⟨entries, hnodup⟩ := d
  rw [get?]
  induction entries with
  | nil => rfl
  | cons e es ih =>
    rw [map_cons, nodup_cons] at hnodup
    rw [filterMap_cons, lookup_cons_eq, ih hnodup.2]
    by_cases heq : e.1 = k
    · have hnone : es.lookup k = none := by
        rw [lookup_eq_none_iff]
        intro e' he'
        rw [bne_iff_ne]
        rintro rfl
        exact hnodup.1 (heq ▸ mem_map_of_mem he')
      simp [heq, hnone]
    · simp [heq, Ne.symm heq]

theorem get?_ofList_map (f : K → V) (keys : List K) (k : K) :
    (ofList (keys.map fun k => (k, f k))).get? k = if k ∈ keys then some (f k) else none := by
  have hlookup : ∀ l : List K, (l.map fun k => (k, f k)).lookup k =
      if k ∈ l then some (f k) else none := by
    intro l
    induction l with
    | nil => rfl
    | cons k' l ih =>
      rw [map_cons, lookup_cons_eq, ih]
      by_cases heq : k = k'
      · subst heq
        simp
      · simp [heq]
  rw [get?_ofList, ← map_reverse, hlookup]
  simp only [mem_reverse]

@[simp] theorem get?_update (d d' : Dict K V) (k : K) :
    (d.update d').get? k = (d'.get? k).or (d.get? k) := by
  rw [update, get?_foldl_set, lookup_reverse d'.nodup]
  rfl

/-! ### Dropping from the front -/

theorem get?_of_entries_subset {d' : Dict K V} (h : ∀ e ∈ d'.entries, e ∈ d.entries) (k : K) :
    d'.get? k = none ∨ d'.get? k = d.get? k := by
  cases hget : d'.get? k with
  | none => exact .inl rfl
  | some v => exact .inr (mem_entries_iff.mp (h _ (mem_entries_iff.mpr hget))).symm

theorem get?_dropFirst (d : Dict K V) (n : ℕ) (k : K) :
    (d.dropFirst n).get? k = none ∨ (d.dropFirst n).get? k = d.get? k :=
  get?_of_entries_subset (fun _ => mem_of_mem_drop) k

theorem get?_dropWhile (d : Dict K V) (p : V → Bool) (k : K) :
    (d.dropWhile p).get? k = none ∨ (d.dropWhile p).get? k = d.get? k :=
  get?_of_entries_subset (fun _ he => (dropWhile_sublist _).subset he) k

theorem get?_dropWhile_of_not {p : V → Bool}
    (hget : d.get? k = some v) (hp : p v = false) : (d.dropWhile p).get? k = some v := by
  have hkeep : ∀ l : List (K × V), (k, v) ∈ l → (k, v) ∈ l.dropWhile fun e => p e.2 := by
    intro l
    induction l with
    | nil => exact id
    | cons e l ih =>
      intro hmem
      by_cases he : p e.2 = true
      · rw [dropWhile_cons, if_pos he]
        rcases mem_cons.mp hmem with rfl | hmem
        · exact absurd he (by simp [hp])
        · exact ih hmem
      · rw [dropWhile_cons, if_neg he]
        exact hmem
  exact mem_entries_iff.mp (hkeep _ (mem_entries_iff.mpr hget))

/-! ### Size and order -/

omit [DecidableEq K] in
theorem length_keys (d : Dict K V) : d.keys.length = d.size := length_map _

theorem size_set (d : Dict K V) (k : K) (v : V) :
    (d.set k v).size = if k ∈ d.keys then d.size else d.size + 1 := by
  rw [set, size]
  split
  · exact length_map _
  · exact length_append

theorem keys_erase (d : Dict K V) (k : K) : (d.erase k).keys = d.keys.filter (· ≠ k) := by
  rw [keys, keys, filter_map]
  rfl

theorem size_erase_of_mem (h : k ∈ d.keys) : (d.erase k).size = d.size - 1 := by
  have herase : d.keys.filter (· ≠ k) = d.keys.erase k := by
    rw [keys, d.nodup.erase_eq_filter]
    simp only [bne_eq, decide_not]
    rfl
  rw [← length_keys, keys_erase, herase, length_erase_of_mem h, length_keys]

theorem entries_set_of_notMem (h : k ∉ d.keys) (v : V) :
    (d.set k v).entries = d.entries ++ [(k, v)] := by
  rw [set, dif_neg h]

theorem filter_entries_set (d : Dict K V) (k : K) (v : V) :
    (d.set k v).entries.filter (fun e => e.1 ≠ k) = d.entries.filter fun e => e.1 ≠ k := by
  unfold set
  split
  · dsimp only
    induction d.entries with
    | nil => rfl
    | cons e es ih =>
      rw [map_cons, filter_cons, filter_cons, ih]
      by_cases he : e.1 = k <;> simp [he]
  · simp [filter_append]

theorem entries_moveToEnd (h : d.get? k = some v) :
    (d.moveToEnd k).entries = (d.entries.filter fun e => e.1 ≠ k) ++ [(k, v)] := by
  have hgone : k ∉ (d.erase k).keys := by
    rw [← get?_eq_none_iff, get?_erase, if_pos rfl]
  simp only [moveToEnd, h]
  rw [entries_set_of_notMem hgone]
  simp only [erase, filterKeys, decide_not]

theorem entries_moveToEnd_set (d : Dict K V) (k : K) (v : V) :
    ((d.set k v).moveToEnd k).entries = (d.entries.filter fun e => e.1 ≠ k) ++ [(k, v)] := by
  rw [entries_moveToEnd (by rw [get?_set, if_pos rfl]), filter_entries_set]

theorem keys_moveToEnd_set (d : Dict K V) (k : K) (v : V) :
    ((d.set k v).moveToEnd k).keys = d.keys.filter (· ≠ k) ++ [k] := by
  rw [keys, entries_moveToEnd_set, map_append, keys, filter_map]
  rfl

theorem keys_moveToEnd (h : k ∈ d.keys) : (d.moveToEnd k).keys = d.keys.filter (· ≠ k) ++ [k] := by
  obtain ⟨v, hv⟩ := Option.isSome_iff_exists.mp (mem_keys_iff.mp h)
  rw [keys, entries_moveToEnd hv, map_append, keys, filter_map]
  rfl

theorem size_moveToEnd (d : Dict K V) (k : K) : (d.moveToEnd k).size = d.size := by
  unfold moveToEnd
  split
  · rename_i v hv
    have hk : k ∈ d.keys := mem_keys_iff.mpr (hv ▸ rfl)
    have hgone : k ∉ (d.erase k).keys := by
      rw [keys_erase]
      simp
    have hpos : 0 < d.size := length_keys d ▸ length_pos_of_mem hk
    rw [size_set, if_neg hgone, size_erase_of_mem hk]
    omega
  · rfl

end Dict

end ServiceToolkit
