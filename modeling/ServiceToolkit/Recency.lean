import Mathlib.Data.List.Basic
import Mathlib.Data.List.Pairwise

/-!
# The Order of Last Use

A store that must stay small drops what was used longest ago. What that is depends on the log of
its uses: `UsedBefore log k k'` says that the last use of `k` comes before a use of `k'`, hence
before the last one. A list of keys is `ByLastUse` when it lists them in that order, the one used
longest ago first. Two operations keep the order: to use a key and move it to the end (`touch`),
and to drop keys (`sublist`). The keys at the front are then the ones to drop (`before`).
-/

namespace ServiceToolkit

open List

variable {K : Type*} {log keys keys' : List K} {k k' k'' : K}

/-- In the log, the last use of `k` is **before** a use of `k'`. -/
def UsedBefore (log : List K) (k k' : K) : Prop :=
  ∃ earlier later, log = earlier ++ k :: later ∧ k ∉ later ∧ k' ∈ later

/-- The keys are all used in the log, and listed by their last use, the oldest first. -/
structure ByLastUse (log keys : List K) : Prop where
  used : ∀ k ∈ keys, k ∈ log
  order : keys.Pairwise (UsedBefore log)

theorem UsedBefore.concat (h : UsedBefore log k k') (hne : k'' ≠ k) :
    UsedBefore (log ++ [k'']) k k' := by
  obtain ⟨earlier, later, rfl, hk, hk'⟩ := h
  refine ⟨earlier, later ++ [k''], by simp, ?_, mem_append_left _ hk'⟩
  rw [mem_append, mem_singleton]
  rintro (hmem | rfl)
  · exact hk hmem
  · exact hne rfl

theorem usedBefore_concat_self (h : k ∈ log) (hne : k ≠ k') : UsedBefore (log ++ [k']) k k' := by
  -- cut the log at the last use of `k`, the first one of the reversed log
  obtain ⟨later, earlier, hlog, hk⟩ := eq_append_cons_of_mem (mem_reverse.mpr h)
  refine ⟨earlier.reverse, later.reverse ++ [k'], ?_, ?_, by simp⟩
  · rw [← reverse_reverse log, hlog]
    simp
  · simp [hk, hne]

theorem not_usedBefore_of_last : ¬ UsedBefore (log ++ [k]) k k' := by
  rintro ⟨earlier, later, hlog, hk, hk'⟩
  rcases eq_nil_or_concat later with rfl | ⟨init, last, rfl⟩
  · cases hk'
  · have hcut : log ++ [k] = (earlier ++ k :: init) ++ [last] := by simpa using hlog
    obtain ⟨-, heq⟩ := append_inj' hcut rfl
    rw [singleton_inj] at heq
    exact hk (by simp [heq])

theorem ByLastUse.nil (log : List K) : ByLastUse log [] := ⟨by simp, .nil⟩

theorem ByLastUse.sublist (h : ByLastUse log keys) (hsub : keys'.Sublist keys) :
    ByLastUse log keys' :=
  ⟨fun k hk => h.used k (hsub.subset hk), h.order.sublist hsub⟩

/-- **A use** of a key moves it to the end. -/
theorem ByLastUse.touch [DecidableEq K] (h : ByLastUse log keys) (k : K) :
    ByLastUse (log ++ [k]) (keys.filter (· ≠ k) ++ [k]) where
  used a ha := by
    rcases mem_append.mp ha with ha | ha
    · exact mem_append_left _ (h.used a (mem_of_mem_filter ha))
    · exact mem_append_right _ ha
  order := by
    rw [pairwise_append]
    refine ⟨?_, pairwise_singleton .., ?_⟩
    · refine List.Pairwise.imp_of_mem ?_ (h.order.sublist filter_sublist)
      intro a b ha _ hab
      have hne : a ≠ k := by simpa using (mem_filter.mp ha).2
      exact hab.concat (Ne.symm hne)
    · intro a ha b hb
      obtain rfl := mem_singleton.mp hb
      obtain ⟨hmem, hne⟩ := mem_filter.mp ha
      exact usedBefore_concat_self (h.used a hmem) (by simpa using hne)

theorem ByLastUse.touch_last [DecidableEq K] (h : ByLastUse log keys)
    (hlast : keys.getLast? = some k) : ByLastUse (log ++ [k]) keys := by
  obtain ⟨front, rfl⟩ := getLast?_eq_some_iff.mp hlast
  have hne : ∀ a ∈ front, a ≠ k := by
    rintro a ha rfl
    obtain ⟨earlier, later, -, hnot, hmem⟩ :=
      (pairwise_append.mp h.order).2.2 a ha a (mem_singleton_self a)
    exact hnot hmem
  have hfilter : (front ++ [k]).filter (· ≠ k) = front := by
    rw [filter_append, filter_eq_self.mpr (by simpa using hne)]
    simp
  have htouched := h.touch k
  rwa [hfilter] at htouched

theorem not_byLastUse_of_use (hk : k ∈ keys) (hlast : keys.getLast? ≠ some k) :
    ¬ ByLastUse (log ++ [k]) keys := by
  intro h
  obtain ⟨front, back, rfl⟩ := append_of_mem hk
  cases back with
  | nil => exact hlast (getLast?_concat ..)
  | cons k' back =>
    have hback := (pairwise_append.mp h.order).2.1
    exact not_usedBefore_of_last ((pairwise_cons.mp hback).1 k' mem_cons_self)

/-- **The keys at the front** were used before the others. -/
theorem ByLastUse.before (h : ByLastUse log keys) (n : ℕ) (hk : k ∈ keys.take n)
    (hk' : k' ∈ keys.drop n) : UsedBefore log k k' := by
  have hall := h.order
  rw [← take_append_drop n keys, pairwise_append] at hall
  exact hall.2.2 k hk k' hk'

end ServiceToolkit
