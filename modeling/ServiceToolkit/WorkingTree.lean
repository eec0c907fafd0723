import ServiceToolkit.Dict

/-!
# Working Trees

A version control's view of a directory: the **tree** of a commit, the **index** of the paths
it tracks, and the **files** that are there. `status` reports where they differ. It looks at
the paths of the commit and of the index, and at the files that are not tracked, except those
it is told to **ignore**.

An empty report is no proof that the files are those of the commit: what is ignored and not
tracked goes unreported. Nothing else does.
-/

namespace ServiceToolkit.WorkingTree

variable {P C : Type*} [DecidableEq P]

/-- The files that the index does not track. -/
def untracked (index files : Dict P C) : List P := files.keys.filter fun p => p ∉ index.keys

theorem mem_untracked_iff {index files : Dict P C} {p : P} :
    p ∈ untracked index files ↔ p ∈ files.keys ∧ p ∉ index.keys := by
  rw [untracked, List.mem_filter, decide_eq_true_eq]

variable [DecidableEq C]

/-- The paths at which one snapshot, over its own paths, differs from another. -/
def changed (old new : Dict P C) : List P := old.keys.filter fun p => new.get? p ≠ old.get? p

theorem changed_eq_nil_iff {old new : Dict P C} :
    changed old new = [] ↔ ∀ p ∈ old.keys, new.get? p = old.get? p := by
  rw [changed, List.filter_eq_nil_iff]
  refine forall₂_congr fun p _ => ?_
  rw [decide_eq_true_eq, not_not]

/-- What differs: the index from the commit, the files from the index, and the files that are
neither tracked nor ignored. -/
def status (tree index files : Dict P C) (ignored : P → Bool) : List P :=
  changed tree index ++ changed index tree ++ changed index files ++
    (untracked index files).filter fun p => !ignored p

/-- **Nothing is reported** exactly when the index is the commit, the tracked files are those
of the index and every other file is ignored. -/
theorem status_eq_nil_iff {tree index files : Dict P C} {ignored : P → Bool} :
    status tree index files ignored = [] ↔
      (∀ p, index.get? p = tree.get? p) ∧ (∀ p ∈ index.keys, files.get? p = index.get? p) ∧
        ∀ p ∈ untracked index files, ignored p = true := by
  have hsame : (changed tree index = [] ∧ changed index tree = []) ↔
      ∀ p, index.get? p = tree.get? p := by
    rw [changed_eq_nil_iff, changed_eq_nil_iff]
    constructor
    · rintro ⟨htree, hindex⟩ p
      by_cases hp : p ∈ tree.keys
      · exact htree p hp
      · by_cases hp' : p ∈ index.keys
        · exact (hindex p hp').symm
        · rw [Dict.get?_eq_none_iff.mpr hp, Dict.get?_eq_none_iff.mpr hp']
    · exact fun h => ⟨fun p _ => h p, fun p _ => (h p).symm⟩
  have hignored : ((untracked index files).filter fun p => !ignored p) = [] ↔
      ∀ p ∈ untracked index files, ignored p = true := by
    rw [List.filter_eq_nil_iff]
    refine forall₂_congr fun p _ => ?_
    rw [Bool.not_eq_true', Bool.not_eq_false]
  rw [status, List.append_eq_nil_iff, List.append_eq_nil_iff, List.append_eq_nil_iff, hsame,
    changed_eq_nil_iff, hignored, and_assoc]

/-- **With nothing reported** the files agree with the commit at a path exactly unless a file
is there that is ignored and not tracked. -/
theorem agrees_iff_of_clean {tree index files : Dict P C} {ignored : P → Bool}
    (hclean : status tree index files ignored = []) (p : P) :
    files.get? p = tree.get? p ↔ ¬ (p ∈ untracked index files ∧ ignored p = true) := by
  obtain ⟨hindex, htracked, hignored⟩ := status_eq_nil_iff.mp hclean
  by_cases hp : p ∈ index.keys
  · have hnot : p ∉ untracked index files := fun h => (mem_untracked_iff.mp h).2 hp
    exact iff_of_true ((htracked p hp).trans (hindex p)) fun h => hnot h.1
  · have hnone : tree.get? p = none := (hindex p).symm.trans (Dict.get?_eq_none_iff.mpr hp)
    rw [hnone, Dict.get?_eq_none_iff]
    constructor
    · exact fun hfile h => hfile (mem_untracked_iff.mp h.1).1
    · intro h hfile
      have huntracked := mem_untracked_iff.mpr ⟨hfile, hp⟩
      exact h ⟨huntracked, hignored p huntracked⟩

/-- After an exact checkout nothing is reported. -/
theorem status_of_checkout {tree index files : Dict P C} (ignored : P → Bool)
    (hindex : ∀ p, index.get? p = tree.get? p) (hfiles : ∀ p, files.get? p = tree.get? p) :
    status tree index files ignored = [] := by
  refine status_eq_nil_iff.mpr ⟨hindex, fun p _ => (hfiles p).trans (hindex p).symm,
    fun p hp => ?_⟩
  obtain ⟨hfile, hnot⟩ := mem_untracked_iff.mp hp
  rw [← Dict.get?_eq_none_iff, hindex, ← hfiles, Dict.get?_eq_none_iff] at hnot
  exact absurd hfile hnot

end ServiceToolkit.WorkingTree
