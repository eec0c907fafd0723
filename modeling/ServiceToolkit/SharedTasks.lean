import ServiceToolkit.Runs

/-!
# Calls that Await Shared Tasks

On an event loop several calls may await one task, and cancelling a call that awaits a task
which has not finished cancels the task. A call is then **lost** in two ways: it is marked to end
cancelled itself, or the task it awaits is doomed to.

The module follows which calls are lost through what a loop does: a call arrives or moves on, a
task is created, moves on or is doomed. `Accounted` says that every lost call is one that was
cancelled itself; it survives all of these as long as nobody joins a doomed task and a task is
doomed only by the one call that awaits it (`Accounted.doom`).
-/

namespace ServiceToolkit.SharedTasks

variable {C T : Type*}

/-- How calls await tasks, which are numbered: the task a call awaits, whether the call is marked
to end cancelled, and whether a task is doomed to. -/
structure Awaiting (C T : Type*) where
  awaits : C → Option ℕ
  marked : C → Bool
  doomed : T → Bool

namespace Awaiting

variable (A : Awaiting C T)

/-- The call ends cancelled, by itself or with its task. -/
def lost (tasks : List T) (c : C) : Bool :=
  A.marked c || ((A.awaits c).bind (tasks[·]?)).any A.doomed

/-- No call but `i` awaits the task. -/
def alone (calls : List C) (i j : ℕ) : Bool :=
  (calls.eraseIdx i).all fun c => A.awaits c != some j

/-- **The invariant**: a lost call is one of those cancelled themselves. -/
def Accounted (own : ℕ → Prop) (tasks : List T) (calls : List C) : Prop :=
  ∀ (i : ℕ) (c : C), calls[i]? = some c → A.lost tasks c = true → own i

variable {A}
variable {tasks tasks' : List T} {calls : List C} {own own' : ℕ → Prop}

/-! ### Lost calls -/

variable {c : C}

theorem lost_of_marked (hc : A.marked c = true) : A.lost tasks c = true := by
  rw [lost, hc, Bool.true_or]

variable {j : ℕ} {t : T}

theorem lost_of_awaits (hc : A.awaits c = some j) (hj : tasks[j]? = some t)
    (hdoomed : A.doomed t = true) : A.lost tasks c = true := by
  simp only [lost, hc, Option.bind_some, hj, Option.any_some, hdoomed, Bool.or_true]

/-- A call that is lost after the tasks changed was lost before, or awaits a task that is doomed
now. -/
theorem lost_change (tasks : List T) (hlost : A.lost tasks' c = true) :
    A.lost tasks c = true ∨
      ∃ j t, A.awaits c = some j ∧ tasks'[j]? = some t ∧ A.doomed t = true := by
  rw [lost, Bool.or_eq_true, Option.any_eq_true] at hlost
  rcases hlost with hmarked | ⟨t, ht, hdoomed⟩
  · exact .inl (lost_of_marked hmarked)
  · obtain ⟨j, hj, ht⟩ := Option.bind_eq_some_iff.mp ht
    exact .inr ⟨j, t, hj, ht, hdoomed⟩

theorem lost_of_concat (ht : A.doomed t = false)
    (hlost : A.lost (tasks ++ [t]) c = true) : A.lost tasks c = true := by
  rcases lost_change tasks hlost with hold | ⟨j, x, hj, hx, hdoomed⟩
  · exact hold
  · refine forall_getElem?_concat (P := fun j x => A.doomed x = true → A.awaits c = some j →
      A.lost tasks c = true) ?_ ?_ hx hdoomed hj
    · exact fun hx hdoomed hj => lost_of_awaits hj hx hdoomed
    · intro hdoomed
      rw [ht] at hdoomed
      cases hdoomed

variable {t' : T}

theorem lost_of_set (hlost : A.lost (tasks.set j t') c = true) :
    A.lost tasks c = true ∨ A.awaits c = some j ∧ A.doomed t' = true := by
  rcases lost_change tasks hlost with hold | ⟨k, x, hk, hx, hdoomed⟩
  · exact .inl hold
  · refine forall_getElem?_set (P := fun k x => A.doomed x = true → A.awaits c = some k →
      A.lost tasks c = true ∨ A.awaits c = some j ∧ A.doomed t' = true) ?_ ?_ hx hdoomed hk
    · exact fun hx _ hdoomed hk => .inl (lost_of_awaits hk hx hdoomed)
    · exact fun hdoomed hk => .inr ⟨hk, hdoomed⟩

/-! ### What keeps the calls accounted for -/

theorem Accounted.nil : A.Accounted own tasks [] := by
  intro i c hi
  simp at hi

variable (h : A.Accounted own tasks calls)
include h

theorem Accounted.mono (hown : ∀ i, own i → own' i) :
    A.Accounted own' tasks calls :=
  fun i c hi hlost => hown i (h i c hi hlost)

theorem Accounted.concat_call
    (hc : A.lost tasks c = false) : A.Accounted own tasks (calls ++ [c]) := by
  intro i x hi
  refine forall_getElem?_concat (P := fun i x => A.lost tasks x = true → own i) ?_ ?_ hi
  · exact fun hi => h _ _ hi
  · intro hlost
    rw [hc] at hlost
    cases hlost

theorem Accounted.set_call {i : ℕ}
    (hc : A.lost tasks c = true → own i) : A.Accounted own tasks (calls.set i c) := by
  intro k x hk
  exact forall_getElem?_set (P := fun k x => A.lost tasks x = true → own k)
    (fun hk _ => h _ _ hk) hc hk

theorem Accounted.concat_task (ht : A.doomed t = false) : A.Accounted own (tasks ++ [t]) calls :=
  fun i c hi hlost => h i c hi (lost_of_concat ht hlost)

theorem Accounted.set_task
    (hj : tasks[j]? = some t) (hdoomed : A.doomed t' = true → A.doomed t = true) :
    A.Accounted own (tasks.set j t') calls := by
  intro i c hi hlost
  rcases lost_of_set hlost with hold | ⟨hc, hdoomed'⟩
  · exact h i c hi hold
  · exact h i c hi (lost_of_awaits hc hj (hdoomed hdoomed'))

/-- **A task is doomed** with call `i`: it was already, or no other call awaits it. -/
theorem Accounted.doom {i : ℕ} (hj : tasks[j]? = some t) (hown : own i)
    (halone : A.doomed t = true ∨ A.alone calls i j = true) :
    A.Accounted own (tasks.set j t') calls := by
  intro k c hk hlost
  rcases lost_of_set hlost with hold | ⟨hc, -⟩
  · exact h k c hk hold
  · rcases halone with hdoomed | halone
    · exact h k c hk (lost_of_awaits hc hj hdoomed)
    · by_cases hki : k = i
      · exact hki ▸ hown
      · have hmem : c ∈ calls.eraseIdx i := List.mem_eraseIdx_iff_getElem?.mpr ⟨k, hki, hk⟩
        have hnot := List.all_eq_true.mp halone c hmem
        rw [hc, bne_self_eq_false] at hnot
        cases hnot

end Awaiting

end ServiceToolkit.SharedTasks
