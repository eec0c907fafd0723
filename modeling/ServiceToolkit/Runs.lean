import Mathlib.Data.List.Basic
import Mathlib.Data.List.Induction

/-!
# Runs of a Step Function

A component whose calls interleave is modelled by a partial step function
`step : S → E → Option S`: an event names the party that moves next together with
every choice its move leaves open (a clock reading, an answer from outside), and the
function returns the next state, or `none` when that party cannot move that way. A
schedule is then a list of events and `run` follows it.

The module packages the inductions every safety argument needs. `run_invariant`
carries a property that every step keeps along every schedule; `run_invariant_where`
does the same for the schedules whose steps all meet a condition `ok` on the state
before the step (`StepsMeet`), and `throughout_iff` is the rule for a condition that is
exact. `run_history` and `run_history_where` do so for properties of the state and the events
that led to it, and `run_observed` of what the steps showed on the way (`observed`).
`foldl_invariant` is the rule for a loop over a list, and `foldlM_invariant` the one for a loop
whose body may raise. `answers_eq_map` compares the answers of two machines.
-/

namespace ServiceToolkit

open List Option

variable {S E : Type*}

/-- The state a schedule leads to, or `none` when one of its events is not possible
where it stands. -/
def run (step : S → E → Option S) : S → List E → Option S
  | s, [] => some s
  | s, e :: es => (step s e).bind fun s' => run step s' es

section

variable {step : S → E → Option S}

@[simp] theorem run_nil (s : S) : run step s [] = some s := rfl

@[simp] theorem run_cons (s : S) (e : E) (es : List E) :
    run step s (e :: es) = (step s e).bind fun s' => run step s' es := rfl

theorem run_append (s : S) (es₁ es₂ : List E) :
    run step s (es₁ ++ es₂) = (run step s es₁).bind fun s' => run step s' es₂ := by
  induction es₁ generalizing s with
  | nil => rfl
  | cons e es ih =>
    rw [cons_append, run_cons, run_cons, bind_assoc]
    exact congrArg _ (funext ih)

variable {s : S}

theorem run_append_eq_some {s'' : S} {es₁ es₂ : List E} (h : run step s (es₁ ++ es₂) = some s'') :
    ∃ s', run step s es₁ = some s' ∧ run step s' es₂ = some s'' := by
  rw [run_append] at h
  exact bind_eq_some_iff.mp h

variable {es : List E}

theorem run_cons_eq_some {s'' : S} {e : E} (h : run step s (e :: es) = some s'') :
    ∃ s', step s e = some s' ∧ run step s' es = some s'' := by
  rw [run_cons] at h
  exact bind_eq_some_iff.mp h

theorem run_congr {step' : S → E → Option S}
    (h : ∀ s, ∀ e ∈ es, step s e = step' s e) : run step s es = run step' s es := by
  induction es generalizing s with
  | nil => rfl
  | cons e es ih =>
    rw [run_cons, run_cons, h s e mem_cons_self]
    exact congrArg _ (funext fun _ => ih fun s e he => h s e (mem_cons_of_mem _ he))

theorem run_isSome_iff {ok : E → Prop} (h : ∀ s e, (step s e).isSome = true ↔ ok e) (s : S)
    (es : List E) : (run step s es).isSome = true ↔ ∀ e ∈ es, ok e := by
  induction es generalizing s with
  | nil => simp
  | cons e es ih =>
    rw [run_cons, forall_mem_cons, ← h s e]
    cases step s e with
    | none => simp
    | some s' => simpa using ih s'

theorem run_map {F : Type*} (f : F → E) (s : S) (es : List F) :
    run step s (es.map f) = run (fun s e => step s (f e)) s es := by
  induction es generalizing s with
  | nil => rfl
  | cons e es ih =>
    rw [map_cons, run_cons, run_cons]
    exact congrArg _ (funext fun s => ih s)

variable {P : S → Prop} {s' : S}

theorem run_invariant_mem (hstep : ∀ {s e s'}, e ∈ es → P s → step s e = some s' → P s') (hs : P s)
    (h : run step s es = some s') : P s' := by
  induction es generalizing s with
  | nil =>
    cases h
    exact hs
  | cons e es ih =>
    obtain ⟨s₁, h₁, h₂⟩ := run_cons_eq_some h
    exact ih (fun he => hstep (mem_cons_of_mem _ he)) (hstep mem_cons_self hs h₁) h₂

/-- **The invariant rule**: what every step keeps, every schedule keeps. -/
theorem run_invariant (hstep : ∀ {s e s'}, P s → step s e = some s' → P s') {s s' : S} (hs : P s)
    (h : run step s es = some s') : P s' :=
  run_invariant_mem (fun _ => hstep) hs h

theorem exists_step_of_run (h : run step s es = some s') {e : E}
    (he : e ∈ es) : ∃ s₁ s₂, step s₁ e = some s₂ := by
  induction es generalizing s with
  | nil => cases he
  | cons e' es ih =>
    obtain ⟨s₁, h₁, h₂⟩ := run_cons_eq_some h
    rcases mem_cons.mp he with rfl | he
    · exact ⟨s, s₁, h₁⟩
    · exact ih h₂ he

/-- Every step of the schedule that is taken meets `ok` in the state before it. -/
def StepsMeet (step : S → E → Option S) (ok : S → E → Prop) : S → List E → Prop
  | _, [] => True
  | s, e :: es => ok s e ∧
      match step s e with
      | none => True
      | some s' => StepsMeet step ok s' es

instance StepsMeet.decidable (ok : S → E → Prop) [∀ s e, Decidable (ok s e)] :
    ∀ (s : S) (es : List E), Decidable (StepsMeet step ok s es)
  | _, [] => isTrue trivial
  | s, e :: es =>
    match h : step s e with
    | none => decidable_of_iff (ok s e) (by simp [StepsMeet, h])
    | some s' =>
      haveI := StepsMeet.decidable ok s' es
      decidable_of_iff (ok s e ∧ StepsMeet step ok s' es) (by simp [StepsMeet, h])

variable {ok : S → E → Prop}

theorem stepsMeet_cons_iff {e : E} (hs : step s e = some s') :
    StepsMeet step ok s (e :: es) ↔ ok s e ∧ StepsMeet step ok s' es := by
  rw [StepsMeet, hs]

theorem stepsMeet_cons {e : E} (h : StepsMeet step ok s (e :: es)) (hs : step s e = some s') :
    ok s e ∧ StepsMeet step ok s' es :=
  (stepsMeet_cons_iff hs).mp h

theorem stepsMeet_append {es₁ es₂ : List E}
    (h : StepsMeet step ok s (es₁ ++ es₂)) (hrun : run step s es₁ = some s') :
    StepsMeet step ok s es₁ ∧ StepsMeet step ok s' es₂ := by
  induction es₁ generalizing s with
  | nil =>
    cases hrun
    exact ⟨trivial, h⟩
  | cons e es ih =>
    obtain ⟨t, hs, hrest⟩ := run_cons_eq_some hrun
    obtain ⟨hok, hmeets⟩ := stepsMeet_cons h hs
    obtain ⟨hes, hes₂⟩ := ih hmeets hrest
    exact ⟨(stepsMeet_cons_iff hs).mpr ⟨hok, hes⟩, hes₂⟩

theorem StepsMeet.mono {ok' : S → E → Prop} (himp : ∀ s e, ok s e → ok' s e)
    (h : StepsMeet step ok s es) : StepsMeet step ok' s es := by
  induction es generalizing s with
  | nil => trivial
  | cons e es ih =>
    refine ⟨himp s e h.1, ?_⟩
    cases hs : step s e with
    | none => trivial
    | some s' => exact ih (stepsMeet_cons h hs).2

theorem run_invariant_where_mem
    (hstep : ∀ {s e s'}, e ∈ es → P s → ok s e → step s e = some s' → P s') (hs : P s)
    (hok : StepsMeet step ok s es) (h : run step s es = some s') : P s' := by
  induction es generalizing s with
  | nil =>
    cases h
    exact hs
  | cons e es ih =>
    obtain ⟨s₁, h₁, h₂⟩ := run_cons_eq_some h
    obtain ⟨hok₁, hok₂⟩ := stepsMeet_cons hok h₁
    exact ih (fun he => hstep (mem_cons_of_mem _ he)) (hstep mem_cons_self hs hok₁ h₁) hok₂ h₂

/-- **The conditional invariant rule**: what every step that meets `ok` keeps, every
schedule of such steps keeps. -/
theorem run_invariant_where (hstep : ∀ {s e s'}, P s → ok s e → step s e = some s' → P s')
    (hs : P s) (hok : StepsMeet step ok s es) (h : run step s es = some s') : P s' :=
  run_invariant_where_mem (fun _ => hstep) hs hok h

theorem StepsMeet.imp_where {I : S → Prop} {ok' : S → E → Prop}
    (hkeep : ∀ {s e s'}, I s → ok s e → step s e = some s' → I s')
    (himp : ∀ {s e}, I s → ok s e → ok' s e) (hI : I s)
    (h : StepsMeet step ok s es) : StepsMeet step ok' s es := by
  induction es generalizing s with
  | nil => trivial
  | cons e es ih =>
    refine ⟨himp hI h.1, ?_⟩
    cases hs : step s e with
    | none => trivial
    | some s' =>
      obtain ⟨hok, hrest⟩ := stepsMeet_cons h hs
      exact ih (hkeep hI hok hs) hrest

/-- **The exact rule**: if an invariant implies a property and is kept by the steps that meet `ok`,
and every other step breaks the property, it holds throughout a run exactly if every step meets
`ok`. -/
theorem throughout_iff {I : S → Prop} {given : S → E → Prop} (hP : ∀ {s}, I s → P s)
    (hkeep : ∀ {s e s'}, I s → given s e → ok s e → step s e = some s' → I s')
    (hbreak : ∀ {s e s'}, I s → given s e → ¬ ok s e → step s e = some s' → ¬ P s')
    (hI : I s) (hgiven : StepsMeet step given s es) (hrun : run step s es = some s') :
    (∀ done s₁, done <+: es → run step s done = some s₁ → P s₁) ↔ StepsMeet step ok s es := by
  induction es generalizing s with
  | nil =>
    refine iff_of_true (fun done s₁ hdone h => ?_) trivial
    obtain rfl := prefix_nil.mp hdone
    cases h
    exact hP hI
  | cons e es ih =>
    obtain ⟨s₁, hs, hrest⟩ := run_cons_eq_some hrun
    obtain ⟨hgiven₁, hgivens⟩ := stepsMeet_cons hgiven hs
    rw [stepsMeet_cons_iff hs]
    constructor
    · intro h
      have hfirst : P s₁ := h [e] s₁ (prefix_append [e] es) (by simp [hs])
      have hok : ok s e := by
        by_contra hnot
        exact hbreak hI hgiven₁ hnot hs hfirst
      refine ⟨hok, (ih (hkeep hI hgiven₁ hok hs) hgivens hrest).mp fun done s₂ hdone hs₂ => ?_⟩
      refine h (e :: done) s₂ (cons_prefix_cons.mpr ⟨rfl, hdone⟩) ?_
      rw [run_cons, hs, bind_some, hs₂]
    · rintro ⟨hok, hmeets⟩ done s₂ hdone hs₂
      cases done with
      | nil =>
        cases hs₂
        exact hP hI
      | cons e' done =>
        obtain ⟨rfl, hprefix⟩ := cons_prefix_cons.mp hdone
        rw [run_cons, hs, bind_some] at hs₂
        exact (ih (hkeep hI hgiven₁ hok hs) hgivens hrest).mpr hmeets done s₂ hprefix hs₂

/-- **The rule for histories**, under a condition on the steps: a property of the events so far
and the state they led to, which every step that meets `ok` keeps. -/
theorem run_history_where {P : List E → S → Prop}
    (hstep : ∀ {es s e s'}, P es s → ok s e → step s e = some s' → P (es ++ [e]) s')
    (hinit : P [] s) (hok : StepsMeet step ok s es) (h : run step s es = some s') : P es s' := by
  have hall : ∀ (rest done : List E) (s : S), P done s → StepsMeet step ok s rest →
      run step s rest = some s' → P (done ++ rest) s' := by
    intro rest
    induction rest with
    | nil =>
      intro done s hs _ h
      cases h
      rwa [append_nil]
    | cons e rest ih =>
      intro done s hs hok h
      obtain ⟨s₁, h₁, h₂⟩ := run_cons_eq_some h
      obtain ⟨hok₁, hok₂⟩ := stepsMeet_cons hok h₁
      have hrest := ih (done ++ [e]) s₁ (hstep hs hok₁ h₁) hok₂ h₂
      rwa [append_assoc, singleton_append] at hrest
  exact hall es [] s hinit hok h

theorem stepsMeet_true (s : S) (es : List E) : StepsMeet step (fun _ _ => True) s es := by
  induction es generalizing s with
  | nil => trivial
  | cons e es ih =>
    refine ⟨trivial, ?_⟩
    split
    · trivial
    · exact ih _

/-- **The rule for histories.** -/
theorem run_history {P : List E → S → Prop}
    (hstep : ∀ {es s e s'}, P es s → step s e = some s' → P (es ++ [e]) s')
    (hinit : P [] s) (h : run step s es = some s') : P es s' :=
  run_history_where (fun hs _ => hstep hs) hinit (stepsMeet_true s es) h

/-- What the steps of a schedule show, one after the other. -/
def observed {O : Type*} (step : S → E → Option S) (shows : S → E → List O) : S → List E → List O
  | _, [] => []
  | s, e :: es => shows s e ++
      match step s e with
      | none => []
      | some s' => observed step shows s' es

theorem observed_concat {O : Type*} {shows : S → E → List O} (e : E) (h : run step s es = some s') :
    observed step shows s (es ++ [e]) = observed step shows s es ++ shows s' e := by
  induction es generalizing s with
  | nil =>
    cases h
    rw [nil_append, observed, observed, nil_append]
    split
    · exact append_nil _
    · exact append_nil _
  | cons e' es ih =>
    obtain ⟨s₁, h₁, h₂⟩ := run_cons_eq_some h
    simp only [cons_append, observed, h₁]
    rw [ih h₂, append_assoc]

/-- **The rule for observations**: a property of the events so far, of what they showed and of
the state they led to. -/
theorem run_observed {O : Type*} {shows : S → E → List O} {P : List E → List O → S → Prop}
    (hstep : ∀ {es log s e s'}, P es log s → step s e = some s' →
      P (es ++ [e]) (log ++ shows s e) s') (hinit : P [] [] s)
    (h : run step s es = some s') : P es (observed step shows s es) s' := by
  refine (run_history (P := fun es t => run step s es = some t ∧
    P es (observed step shows s es) t) ?_ ⟨rfl, hinit⟩ h).2
  rintro done t e t' ⟨hrun, ht⟩ hs
  rw [observed_concat e hrun, run_append, hrun, bind_some, run_cons, hs]
  exact ⟨rfl, hstep ht hs⟩

/-- **The rule for parts**: where every step of a system is a step of a part of it, or leaves the
part alone, a run of the system is a run of the part on the events that concern it. -/
theorem run_part {T F : Type*} {step' : T → F → Option T} (part : S → T) {concerns : E → Option F}
    (hstep : ∀ {s e s' f}, concerns e = some f → step s e = some s' →
      step' (part s) f = some (part s'))
    (hframe : ∀ {s e s'}, concerns e = none → step s e = some s' → part s' = part s)
    (h : run step s es = some s') :
    run step' (part s) (es.filterMap concerns) = some (part s') := by
  induction es generalizing s with
  | nil =>
    cases h
    rfl
  | cons e es ih =>
    obtain ⟨s₁, h₁, h₂⟩ := run_cons_eq_some h
    cases he : concerns e with
    | none =>
      rw [filterMap_cons_none he, ← hframe he h₁]
      exact ih h₂
    | some f =>
      rw [filterMap_cons_some he, run_cons, hstep he h₁]
      exact ih h₂

end

/-! ### Numbered parties

Calls and tasks are kept in a list, numbered in the order they start. A property of every
party with its number survives the move of one party and the arrival of another. -/

section

variable {α : Type*} {l : List α} {i : ℕ} {x y : α}

theorem lt_of_getElem? (h : l[i]? = some x) : i < l.length := (List.getElem?_eq_some_iff.mp h).1

theorem getElem?_set_some (h : l[i]? = some x) : (l.set i y)[i]? = some y :=
  getElem?_set_self (lt_of_getElem? h)

theorem getElem?_append_some {l' : List α} (h : l[i]? = some x) : (l ++ l')[i]? = some x :=
  (getElem?_append_left (lt_of_getElem? h)).trans h

theorem getElem?_concat_of_ne (hi : i ≠ l.length) : (l ++ [y])[i]? = l[i]? := by
  rcases Nat.lt_or_gt_of_ne hi with hlt | hgt
  · exact getElem?_append_left hlt
  · rw [getElem?_eq_none (by simp; omega), getElem?_eq_none (Nat.le_of_lt hgt)]

theorem forall_getElem?_set {P : ℕ → α → Prop} {j : ℕ}
    (h : ∀ {i x}, l[i]? = some x → i ≠ j → P i x) (hy : P j y) :
    ∀ {i x}, (l.set j y)[i]? = some x → P i x := by
  intro i x hi
  by_cases hij : j = i
  · subst hij
    rw [getElem?_set_self'] at hi
    obtain ⟨-, -, rfl⟩ := map_eq_some_iff.mp hi
    exact hy
  · rw [getElem?_set_ne hij] at hi
    exact h hi (Ne.symm hij)

theorem forall_getElem?_concat {P : ℕ → α → Prop}
    (h : ∀ {i x}, l[i]? = some x → P i x) (hy : P l.length y) :
    ∀ {i x}, (l ++ [y])[i]? = some x → P i x := by
  intro i x hi
  rw [getElem?_append] at hi
  split at hi
  · exact h hi
  · obtain ⟨hlt, rfl⟩ := List.getElem?_eq_some_iff.mp hi
    obtain rfl : i = l.length := by
      simp only [length_singleton] at hlt
      omega
    simpa using hy

theorem any_set {p : α → Bool} (hi : l[i]? = some x) (hx : p x = false) :
    (l.set i y).any p = (l.any p || p y) := by
  induction l generalizing i with
  | nil => cases hi
  | cons a l ih =>
    cases i with
    | zero =>
      obtain rfl : a = x := some.inj hi
      rw [set_cons_zero, any_cons, any_cons, hx, Bool.false_or, Bool.or_comm]
    | succ i =>
      rw [set_cons_succ, any_cons, any_cons, ih hi, Bool.or_assoc]

end

/-! ### Machines that answer

A component that is called from one place at a time answers every call:
`step : S → E → O × S`. -/

section

variable {O : Type*} {step : S → E → O × S}

/-- The state after a list of calls. -/
def after (step : S → E → O × S) (s : S) (es : List E) : S :=
  es.foldl (fun s e => (step s e).2) s

/-- The answers to a list of calls. -/
def answers (step : S → E → O × S) : S → List E → List O
  | _, [] => []
  | s, e :: es => (step s e).1 :: answers step (step s e).2 es

theorem after_concat (s : S) (es : List E) (e : E) :
    after step s (es ++ [e]) = (step (after step s es) e).2 :=
  foldl_append

theorem answers_concat (s : S) (es : List E) (e : E) :
    answers step s (es ++ [e]) = answers step s es ++ [(step (after step s es) e).1] := by
  induction es generalizing s with
  | nil => rfl
  | cons e' es ih => exact congrArg _ (ih _)

/-- **Induction along the calls** of a list: what holds before the first and is kept by each holds
after every one of them. -/
theorem calls_induction {P : List E → Prop} {es : List E} (hinit : P [])
    (hstep : ∀ {done e}, done ++ [e] <+: es → P done → P (done ++ [e])) :
    ∀ done, done <+: es → P done := by
  intro done
  induction done using reverseRecOn with
  | nil => exact fun _ => hinit
  | append_singleton done e ih =>
    intro hdone
    exact hstep hdone (ih ((prefix_append done [e]).trans hdone))

/-- **The simulation rule**: two machines that answer each call alike, where it comes, answer all
of them alike. -/
theorem answers_eq_map {T O' : Type*} {step' : T → E → O' × T} {f : O' → O} {s : S} {t : T}
    {es : List E} (h : ∀ {done e}, done ++ [e] <+: es →
      (step (after step s done) e).1 = f (step' (after step' t done) e).1) :
    answers step s es = (answers step' t es).map f := by
  refine calls_induction (P := fun done => answers step s done = (answers step' t done).map f)
    rfl ?_ es (prefix_refl es)
  intro done e hdone ih
  rw [answers_concat, answers_concat, map_append, map_singleton, ih, h hdone]

/-- **The exact rule for calls**: where the invariant makes a call as it should be exactly if it
meets `ok`, and such a call keeps it, all calls of a list are as they should be exactly if all meet
`ok`. -/
theorem each_call_iff {I : S → Prop} {good ok : S → E → Prop} {s : S} {es : List E} (hI : I s)
    (hkeep : ∀ {s e}, I s → ok s e → I (step s e).2) (hiff : ∀ {s e}, I s → (good s e ↔ ok s e)) :
    (∀ done e, done ++ [e] <+: es → good (after step s done) e) ↔
      ∀ done e, done ++ [e] <+: es → ok (after step s done) e := by
  constructor
  · intro h
    have hall : ∀ done, done <+: es → I (after step s done) := by
      refine calls_induction hI ?_
      intro done e hdone ih
      rw [after_concat]
      exact hkeep ih ((hiff ih).mp (h done e hdone))
    intro done e hdone
    exact (hiff (hall done ((prefix_append done [e]).trans hdone))).mp (h done e hdone)
  · intro h
    have hall : ∀ done, done <+: es → I (after step s done) := by
      refine calls_induction hI ?_
      intro done e hdone ih
      rw [after_concat]
      exact hkeep ih (h done e hdone)
    intro done e hdone
    exact (hiff (hall done ((prefix_append done [e]).trans hdone))).mpr (h done e hdone)

end

/-! ### Loops -/

/-- **The loop rule**: what every iteration keeps holds after a loop. It may speak of the elements
visited so far, and an iteration may use where in the list it stands. -/
theorem foldl_invariant {α β : Type*} {f : β → α → β} (P : List α → β → Prop) {b : β}
    {l : List α} (hinit : P [] b)
    (hstep : ∀ done a rest b, l = done ++ a :: rest → P done b → P (done ++ [a]) (f b a)) :
    P l (l.foldl f b) := by
  have hall : ∀ (rest done : List α) (b : β), l = done ++ rest → P done b →
      P l (rest.foldl f b) := by
    intro rest
    induction rest with
    | nil =>
      intro done b hl hb
      rwa [hl, append_nil]
    | cons a rest ih =>
      intro done b hl hb
      refine ih (done ++ [a]) (f b a) ?_ (hstep done a rest b hl hb)
      rw [hl, append_assoc, singleton_append]
  exact hall l [] b rfl hinit

/-- **The loop rule**, for a body that may raise: what every iteration that did not raise keeps
holds after a loop that did not. It may speak of the elements visited so far. -/
theorem foldlM_invariant {α β ε : Type*} {f : β → α → Except ε β} (P : List α → β → Prop)
    {b b' : β} {l : List α} (hinit : P [] b)
    (hstep : ∀ done a b b', P done b → f b a = .ok b' → P (done ++ [a]) b')
    (h : l.foldlM f b = .ok b') : P l b' := by
  have hall : ∀ (rest done : List α) (b : β), P done b → rest.foldlM f b = .ok b' →
      P (done ++ rest) b' := by
    intro rest
    induction rest with
    | nil =>
      intro done b hb h
      obtain rfl : b = b' := Except.ok.inj h
      rwa [append_nil]
    | cons a rest ih =>
      intro done b hb h
      rw [foldlM_cons] at h
      cases hf : f b a with
      | error e =>
        rw [hf] at h
        cases h
      | ok b₁ =>
        rw [hf] at h
        have := ih (done ++ [a]) b₁ (hstep done a b b₁ hb hf) h
        rwa [append_assoc, singleton_append] at this
  exact hall l [] b hinit h

/-- A comprehension whose body may raise returns what its body returned, element by element. -/
theorem mapM_eq_ok_iff {α β ε : Type*} {f : α → Except ε β} {l : List α} {r : List β} :
    l.mapM f = .ok r ↔ Forall₂ (fun a b => f a = .ok b) l r := by
  constructor
  · intro h
    induction l generalizing r with
    | nil =>
      cases h
      exact .nil
    | cons a l ih =>
      rw [mapM_cons] at h
      cases hf : f a with
      | error e =>
        rw [hf] at h
        cases h
      | ok b =>
        cases hl : l.mapM f with
        | error e =>
          rw [hf, hl] at h
          cases h
        | ok r' =>
          rw [hf, hl] at h
          cases h
          exact .cons hf (ih hl)
  · intro h
    induction h with
    | nil => rfl
    | cons hf _ ih =>
      rw [mapM_cons, hf, ih]
      rfl

/-- An element of one of two related lists is related to one of the other. -/
theorem exists_of_mem_forall₂ {α β : Type*} {R : α → β → Prop} {l : List α} {r : List β}
    (h : Forall₂ R l r) {a : α} (ha : a ∈ l) : ∃ b, R a b := by
  induction h with
  | nil => cases ha
  | cons hab _ ih =>
    rcases mem_cons.mp ha with rfl | ha
    · exact ⟨_, hab⟩
    · exact ih ha

/-- A comprehension raises what its body raised for one of the elements. -/
theorem exists_of_mapM_eq_error {α β ε : Type*} {f : α → Except ε β} {l : List α} {e : ε}
    (h : l.mapM f = .error e) : ∃ a ∈ l, f a = .error e := by
  induction l with
  | nil => cases h
  | cons a l ih =>
    rw [mapM_cons] at h
    cases hf : f a with
    | error e' =>
      rw [hf] at h
      cases h
      exact ⟨a, mem_cons_self, hf⟩
    | ok b =>
      cases hl : l.mapM f with
      | error e' =>
        rw [hf, hl] at h
        cases h
        obtain ⟨a', hmem, ha'⟩ := ih hl
        exact ⟨a', mem_cons_of_mem _ hmem, ha'⟩
      | ok r =>
        rw [hf, hl] at h
        cases h

end ServiceToolkit
