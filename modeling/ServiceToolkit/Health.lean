import Mathlib.Data.Finset.Basic
import Mathlib.Data.List.Chain
import ServiceToolkit.Dict
import ServiceToolkit.Runs

/-!
# The gRPC Health Service

`HealthServicer` keeps a status per service and streams the changes of a service to every
`Watch` call of it. A watcher has one slot for the latest status and one event that wakes it, so
a burst of changes is coalesced into the last of them.

Every method runs on the server's event loop and changes the state without awaiting. A `Watch`
call is suspended where it waits for its event and while it writes, so the start and the end of a
write are two events, and anything may happen between them; it leaves wherever it is suspended.
Waking up is an event of its own also where the loop would not suspend. A watcher is **parked**
when it waits and its event is not set.
-/

namespace ServiceToolkit.Health

open List Option

/-! ### Statuses

`HealthCheckResponse.ServingStatus` values, which are integers at runtime. -/

/-- `SERVING`. -/
def serving : ℤ := 1

/-- `NOT_SERVING`. -/
def notServing : ℤ := 2

/-- `SERVICE_UNKNOWN`. -/
def serviceUnknown : ℤ := 3

/-! ### The servicer -/

/-- Where a `Watch` call is: waiting for its event, writing a status, or gone. -/
inductive WatchPhase
  | waiting
  | writing (status : ℤ)
  | left
  deriving DecidableEq

/-- A `Watch` call with its `_Watcher`; `written` are the statuses whose write it started. -/
structure Watch where
  service : String
  status : ℤ
  changed : Bool
  sent : Option ℤ
  phase : WatchPhase
  written : List ℤ
  deriving DecidableEq

/-- The servicer, and the `Watch` calls ever made, numbered as they arrived. -/
structure HealthServicer where
  status : Dict String ℤ
  watchers : Dict String (Finset ℕ)
  shuttingDown : Bool
  watches : List Watch

/-- `__init__`. -/
def HealthServicer.initial : HealthServicer where
  status := Dict.empty.set "" serving
  watchers := .empty
  shuttingDown := false
  watches := []

/-- `Check`: the status, or the abort of an unknown service. -/
def check (s : HealthServicer) (service : String) : Except String ℤ :=
  match s.status.get? service with
  | some status => .ok status
  | none => .error "unknown service"

/-- The watchers registered for a service. -/
def HealthServicer.registered (s : HealthServicer) (service : String) : Finset ℕ :=
  s.watchers.getD service ∅

/-- The status a watcher of the service has to see. -/
def HealthServicer.current (s : HealthServicer) (service : String) : ℤ :=
  s.status.getD service serviceUnknown

/-- `_set`: store the status and wake the registered watchers of the service. -/
def set' (s : HealthServicer) (service : String) (status : ℤ) : HealthServicer :=
  { s with
    status := s.status.set service status
    watches := s.watches.mapIdx fun i w =>
      if i ∈ s.registered service then { w with status := status, changed := true } else w }

/-- `set`: ignored once shutdown has begun. -/
def set (s : HealthServicer) (service : String) (status : ℤ) : HealthServicer :=
  if s.shuttingDown then s else set' s service status

/-- The loop of `enter_graceful_shutdown`. -/
def setAll (s : HealthServicer) (services : List String) : HealthServicer :=
  services.foldl (fun s service => set' s service notServing) s

/-- `enter_graceful_shutdown`. -/
def enterGracefulShutdown (s : HealthServicer) : HealthServicer :=
  if s.shuttingDown then s else setAll { s with shuttingDown := true } s.status.keys

/-- `Watch` as far as its first wait. -/
def watch (s : HealthServicer) (service : String) : HealthServicer :=
  { s with
    watchers := s.watchers.set service (insert s.watches.length (s.registered service))
    watches := s.watches ++ [⟨service, s.current service, true, none, .waiting, []⟩] }

/-- A pass of the loop of `Watch`, from the event to the write or back to the event. -/
def Watch.wake (w : Watch) : Watch :=
  if some w.status ≠ w.sent then
    { w with changed := false, phase := .writing w.status, written := w.written ++ [w.status] }
  else { w with changed := false }

/-- The `finally` of `Watch`: take this registration out, and the service's with the last. -/
def discard (watchers : Dict String (Finset ℕ)) (service : String) (i : ℕ) :
    Dict String (Finset ℕ) :=
  match watchers.get? service with
  | none => watchers
  | some registered =>
    if registered.erase i = ∅ then watchers.erase service
    else watchers.set service (registered.erase i)

/-- What can happen next. -/
inductive Event
  | watch (service : String)
  | wake (watch : ℕ)
  | endWrite (watch : ℕ)
  | leave (watch : ℕ)
  | set (service : String) (status : ℤ)
  | enterGracefulShutdown
  deriving DecidableEq

/-- One event of the loop. -/
def step (s : HealthServicer) : Event → Option HealthServicer
  | .watch service => some (watch s service)
  | .wake i =>
    match s.watches[i]? with
    | some w =>
      if w.phase = .waiting ∧ w.changed then some { s with watches := s.watches.set i w.wake }
      else none
    | none => none
  | .endWrite i =>
    match s.watches[i]? with
    | some w =>
      match w.phase with
      | .writing status =>
        some { s with
          watches := s.watches.set i { w with sent := some status, phase := .waiting } }
      | _ => none
    | none => none
  | .leave i =>
    match s.watches[i]? with
    | some w =>
      if w.phase = .left then none
      else some { s with
        watchers := discard s.watchers w.service i
        watches := s.watches.set i { w with phase := .left } }
    | none => none
  | .set service status => some (set s service status)
  | .enterGracefulShutdown => some (enterGracefulShutdown s)

/-! ### Registrations -/

section

variable {s s' : HealthServicer} {i : ℕ} {w : Watch} {service : String}

/-- The registrations are exactly the **live watchers**, each under its service. -/
def Registered (s : HealthServicer) : Prop :=
  ∀ service i, i ∈ s.registered service ↔
    ∃ w, s.watches[i]? = some w ∧ w.service = service ∧ w.phase ≠ .left

theorem getD_discard (watchers : Dict String (Finset ℕ)) (service k : String) (i : ℕ) :
    (discard watchers service i).getD k ∅ =
      if k = service then (watchers.getD service ∅).erase i else watchers.getD k ∅ := by
  cases hget : watchers.get? service with
  | none =>
    simp only [discard, hget]
    split
    · next hk => rw [hk, Dict.getD, hget, getD_none, Finset.erase_empty]
    · rfl
  | some registered =>
    have hgetD : watchers.getD service ∅ = registered := by rw [Dict.getD, hget, getD_some]
    simp only [discard, hget, hgetD]
    split
    · rename_i hempty
      rw [Dict.getD_erase]
      split
      · exact hempty.symm
      · rfl
    · rw [Dict.getD_set]

variable {w' : Watch}

theorem Registered.set_watch (h : Registered s) (hi : s.watches[i]? = some w)
    (hservice : w'.service = w.service) (hlive : w'.phase ≠ .left ↔ w.phase ≠ .left) :
    Registered { s with watches := s.watches.set i w' } := by
  intro service j
  refine (h service j).trans ?_
  by_cases hij : i = j
  · subst hij
    simp only [hi, getElem?_set_some hi, some.injEq, exists_eq_left', hservice, hlive]
  · simp only [getElem?_set_ne hij]

theorem Registered.leave (h : Registered s) (hi : s.watches[i]? = some w) : Registered { s with
      watchers := discard s.watchers w.service i
      watches := s.watches.set i { w with phase := .left } } := by
  intro service j
  have hregistered := h service j
  rw [HealthServicer.registered] at hregistered ⊢
  rw [getD_discard]
  by_cases hij : i = j
  · subst hij
    have hleft : ¬ ∃ w', (s.watches.set i { w with phase := .left })[i]? = some w' ∧
        w'.service = service ∧ w'.phase ≠ .left := by
      simp [getElem?_set_some hi]
    refine iff_of_false ?_ hleft
    split
    · exact Finset.notMem_erase _ _
    · rename_i hne
      rw [hregistered]
      rintro ⟨w', hw', hservice, -⟩
      obtain rfl : w = w' := some.inj (hi.symm.trans hw')
      exact hne hservice.symm
  · simp only [getElem?_set_ne hij]
    rw [← hregistered]
    split
    · next hservice => rw [Finset.mem_erase, hservice, and_iff_right (Ne.symm hij)]
    · rfl

theorem Registered.watch (h : Registered s) (service : String) : Registered (watch s service) := by
  intro k j
  have hregistered := h k j
  rw [HealthServicer.registered] at hregistered ⊢
  rw [Health.watch, Dict.getD_set]
  by_cases hj : j = s.watches.length
  · subst hj
    rw [getElem?_concat_length]
    by_cases hk : k = service
    · rw [if_pos hk]
      exact iff_of_true (Finset.mem_insert_self _ _) ⟨_, rfl, hk.symm, nofun⟩
    · have hnone : s.watches[s.watches.length]? = none := getElem?_eq_none le_rfl
      rw [if_neg hk, hregistered, hnone]
      refine iff_of_false nofun ?_
      rintro ⟨w', hw', rfl, -⟩
      cases hw'
      exact hk rfl
  · rw [getElem?_concat_of_ne hj, ← hregistered]
    split
    · next hk => rw [hk, Finset.mem_insert, or_iff_right hj]; rfl
    · rfl

/-! ### What a watcher has seen -/

/-- **One watcher** of a service with the given current status. A live one has it in its slot;
unless its event is set, the last status it wrote, or is writing, is that one; and no status was
written twice in a row. -/
structure WatchOk (current : ℤ) (w : Watch) : Prop where
  status : w.phase ≠ .left → w.status = current
  waiting : w.phase = .waiting →
    w.written.getLast? = w.sent ∧ (w.changed = false → w.sent = some w.status)
  writing : ∀ status, w.phase = .writing status →
    w.written.getLast? = some status ∧ (w.changed = false → status = w.status)
  chain : w.written.IsChain (· ≠ ·)

theorem WatchOk.new (service : String) (current : ℤ) :
    WatchOk current ⟨service, current, true, none, .waiting, []⟩ where
  status _ := rfl
  waiting _ := ⟨rfl, nofun⟩
  writing := nofun
  chain := .nil

variable {current : ℤ}

theorem WatchOk.set (h : WatchOk current w) (status : ℤ) :
    WatchOk status { w with status := status, changed := true } where
  status _ := rfl
  waiting hphase := ⟨(h.waiting hphase).1, nofun⟩
  writing _ hphase := ⟨(h.writing _ hphase).1, nofun⟩
  chain := h.chain

theorem WatchOk.of_left {current' : ℤ} (h : WatchOk current w) (hleft : w.phase = .left) :
    WatchOk current' w where
  status hlive := absurd hleft hlive
  waiting := h.waiting
  writing := h.writing
  chain := h.chain

theorem WatchOk.wake (h : WatchOk current w) (hphase : w.phase = .waiting) :
    WatchOk current w.wake := by
  obtain ⟨hlast, -⟩ := h.waiting hphase
  have hstatus : w.status = current := h.status (by rw [hphase]; nofun)
  rw [Watch.wake]
  split
  · rename_i hnew
    refine ⟨fun _ => hstatus, nofun, ?_, ?_⟩
    · rintro status hwriting
      obtain rfl := WatchPhase.writing.inj hwriting
      exact ⟨getLast?_concat, fun _ => rfl⟩
    · refine isChain_append.mpr ⟨h.chain, .singleton _, ?_⟩
      rintro x hx y hy rfl
      cases hy
      exact hnew (hx.symm.trans hlast)
  · rename_i hold
    refine ⟨fun _ => hstatus, fun _ => ⟨hlast, fun _ => (not_not.mp hold).symm⟩, ?_, h.chain⟩
    intro status hwriting
    rw [hphase] at hwriting
    cases hwriting

variable {status : ℤ}

theorem WatchOk.endWrite (h : WatchOk current w) (hphase : w.phase = .writing status) :
    WatchOk current { w with sent := some status, phase := .waiting } := by
  obtain ⟨hlast, hseen⟩ := h.writing status hphase
  refine ⟨fun _ => h.status (by rw [hphase]; nofun), fun _ => ⟨hlast, fun hchanged => ?_⟩, nofun,
    h.chain⟩
  exact congrArg some (hseen hchanged)

theorem WatchOk.leave (h : WatchOk current w) : WatchOk current { w with phase := .left } :=
  ⟨fun hlive => absurd rfl hlive, nofun, nofun, h.chain⟩

/-! ### The invariant -/

/-- **The invariant**: the registrations are the live watchers, and every watcher is in
order. -/
structure Inv (s : HealthServicer) : Prop where
  registered : Registered s
  watch : ∀ {i : ℕ} {w : Watch}, s.watches[i]? = some w → WatchOk (s.current w.service) w

theorem Inv.initial : Inv .initial where
  registered service i := by simp [HealthServicer.initial, HealthServicer.registered, Dict.getD]
  watch := by simp [HealthServicer.initial]

theorem Inv.set_watch (h : Inv s) (hi : s.watches[i]? = some w)
    (hservice : w'.service = w.service) (hlive : w'.phase ≠ .left ↔ w.phase ≠ .left)
    (hok : WatchOk (s.current w.service) w') :
    Inv { s with watches := s.watches.set i w' } where
  registered := h.registered.set_watch hi hservice hlive
  watch := by
    refine forall_getElem?_set (P := fun _ (x : Watch) => WatchOk (s.current x.service) x) ?_ ?_
    · exact fun hj _ => h.watch hj
    · exact hservice.symm ▸ hok

theorem Inv.arrive (h : Inv s) (service : String) : Inv (Health.watch s service) where
  registered := h.registered.watch service
  watch := forall_getElem?_concat (P := fun _ (x : Watch) => WatchOk (s.current x.service) x)
    h.watch (WatchOk.new service _)

theorem Inv.leave (h : Inv s) (hi : s.watches[i]? = some w) :
    Inv { s with
      watchers := discard s.watchers w.service i
      watches := s.watches.set i { w with phase := .left } } where
  registered := h.registered.leave hi
  watch := forall_getElem?_set (P := fun _ (x : Watch) => WatchOk (s.current x.service) x)
    (fun hj _ => h.watch hj) (h.watch hi).leave

theorem registered_set' (s : HealthServicer) (service : String) (status : ℤ) :
    (set' s service status).registered = s.registered := rfl

theorem current_set' (s : HealthServicer) (service k : String) (status : ℤ) :
    (set' s service status).current k = if k = service then status else s.current k := by
  rw [HealthServicer.current, set', Dict.getD_set]
  rfl

theorem getElem?_set' {service : String} (hi : (set' s service status).watches[i]? = some w') :
    ∃ w, s.watches[i]? = some w ∧
      w' = if i ∈ s.registered service then { w with status := status, changed := true }
        else w := by
  rw [set', getElem?_mapIdx] at hi
  obtain ⟨w, hw, rfl⟩ := map_eq_some_iff.mp hi
  exact ⟨w, hw, rfl⟩

theorem Registered.set' (h : Registered s) (service : String) (status : ℤ) :
    Registered (set' s service status) := by
  intro k i
  rw [registered_set', h k i, Health.set', getElem?_mapIdx]
  constructor
  · rintro ⟨w, hw, hservice, hlive⟩
    refine ⟨_, by rw [hw]; rfl, ?_⟩
    split <;> exact ⟨hservice, hlive⟩
  · rintro ⟨w', hw', hservice, hlive⟩
    obtain ⟨w, hw, rfl⟩ := map_eq_some_iff.mp hw'
    refine ⟨w, hw, ?_⟩
    split at hservice <;> split at hlive <;> exact ⟨hservice, hlive⟩

/-- **A change of status** reaches every live watcher of the service, and no other watcher. -/
theorem WatchOk.after_set' (h : Inv s) (hi : (Health.set' s service status).watches[i]? = some w') :
    WatchOk ((Health.set' s service status).current w'.service) w' := by
  obtain ⟨w, hw, rfl⟩ := getElem?_set' hi
  have hok := h.watch hw
  rw [current_set']
  by_cases hmem : i ∈ s.registered service
  · rw [if_pos hmem]
    obtain ⟨x, hx, hservice, -⟩ := (h.registered service i).mp hmem
    obtain rfl : w = x := some.inj (hw.symm.trans hx)
    rw [if_pos hservice]
    exact hok.set status
  · rw [if_neg hmem]
    split
    · rename_i hservice
      refine hok.of_left (Classical.byContradiction fun hlive => hmem ?_)
      exact (h.registered service i).mpr ⟨w, hw, hservice, hlive⟩
    · exact hok

theorem Inv.set' (h : Inv s) (service : String) (status : ℤ) :
    Inv (Health.set' s service status) where
  registered := h.registered.set' service status
  watch := WatchOk.after_set' h

/-! ### Shutting down -/

theorem Inv.setAll (h : Inv s) (services : List String) : Inv (setAll s services) := by
  induction services generalizing s with
  | nil => exact h
  | cons service services ih => exact ih (h.set' service notServing)

theorem setAll_shuttingDown (s : HealthServicer) (services : List String) :
    (setAll s services).shuttingDown = s.shuttingDown := by
  induction services generalizing s with
  | nil => rfl
  | cons service services ih => exact ih (set' s service notServing)

theorem setAll_status (s : HealthServicer) (services : List String) (k : String) :
    (setAll s services).status.get? k =
      if k ∈ services then some notServing else s.status.get? k := by
  induction services generalizing s with
  | nil => rfl
  | cons service services ih =>
    have hset : (set' s service notServing).status.get? k =
        if k = service then some notServing else s.status.get? k :=
      Dict.get?_set s.status service k notServing
    rw [setAll, foldl_cons, ← setAll, ih, hset]
    by_cases hk : k = service
    · rw [if_pos hk, ite_self, if_pos (hk ▸ mem_cons_self)]
    · rw [if_neg hk]
      simp only [mem_cons, hk, false_or]

/-- A servicer that is **shutting down** has no other status than `NOT_SERVING`. -/
def Down (s : HealthServicer) : Prop :=
  s.shuttingDown = true → ∀ service status, s.status.get? service = some status →
    status = notServing

theorem enterGracefulShutdown_status (h : Down s) (hk : s.status.get? service = some status) :
    (enterGracefulShutdown s).status.get? service = some notServing := by
  rw [enterGracefulShutdown]
  split
  · next hshut => rw [hk, h hshut service status hk]
  · have hmem : service ∈ s.status.keys := Dict.mem_keys_iff.mpr (by rw [hk]; rfl)
    exact (setAll_status _ _ _).trans (if_pos hmem)

theorem enterGracefulShutdown_shuttingDown (s : HealthServicer) :
    (enterGracefulShutdown s).shuttingDown = true := by
  rw [enterGracefulShutdown]
  split
  · assumption
  · exact setAll_shuttingDown _ _

theorem Down.enterGracefulShutdown (h : Down s) : Down (enterGracefulShutdown s) := by
  rw [Health.enterGracefulShutdown]
  split
  · exact h
  · intro _ service status hk
    rw [setAll_status] at hk
    split at hk
    · exact (some.inj hk).symm
    · rename_i hnot
      refine absurd (Dict.mem_keys_iff.mpr ?_) hnot
      rw [show s.status.get? service = some status from hk]
      rfl

theorem Inv.enterGracefulShutdown (h : Inv s) : Inv (enterGracefulShutdown s) := by
  rw [Health.enterGracefulShutdown]
  split
  · exact h
  · have hshut : Inv { s with shuttingDown := true } := ⟨h.registered, h.watch⟩
    exact hshut.setAll _

/-! ### Whole runs -/

variable {e : Event}

/-- What an event finds and does. -/
inductive Effect (s : HealthServicer) : Event → HealthServicer → Prop
  | watch {service : String} : Effect s (.watch service) (watch s service)
  | wake {i : ℕ} {w : Watch} (hi : s.watches[i]? = some w) (hphase : w.phase = .waiting)
      (hchanged : w.changed = true) :
      Effect s (.wake i) { s with watches := s.watches.set i w.wake }
  | endWrite {i : ℕ} {w : Watch} {status : ℤ} (hi : s.watches[i]? = some w)
      (hphase : w.phase = .writing status) : Effect s (.endWrite i) { s with
        watches := s.watches.set i { w with sent := some status, phase := .waiting } }
  | leave {i : ℕ} {w : Watch} (hi : s.watches[i]? = some w) (hlive : w.phase ≠ .left) :
      Effect s (.leave i) { s with
        watchers := discard s.watchers w.service i
        watches := s.watches.set i { w with phase := .left } }
  | set {service : String} {status : ℤ} (hup : ¬ s.shuttingDown = true) :
      Effect s (.set service status) (set' s service status)
  | ignored {service : String} {status : ℤ} : Effect s (.set service status) s
  | shutdown : Effect s .enterGracefulShutdown (enterGracefulShutdown s)

/-- The step relation has every step. -/
theorem step_effect (hstep : step s e = some s') : Effect s e s' := by
  cases e with
  | watch | enterGracefulShutdown =>
    cases hstep
    constructor
  | wake i =>
    simp only [step] at hstep
    split at hstep
    · rename_i hi
      split at hstep
      · rename_i hready
        cases hstep
        exact .wake hi hready.1 hready.2
      · cases hstep
    · cases hstep
  | endWrite i =>
    simp only [step] at hstep
    split at hstep
    · rename_i hi
      split at hstep
      · rename_i hphase
        cases hstep
        exact .endWrite hi hphase
      · cases hstep
    · cases hstep
  | leave i =>
    simp only [step] at hstep
    split at hstep
    · rename_i hi
      split at hstep
      · cases hstep
      · rename_i hlive
        cases hstep
        exact .leave hi hlive
    · cases hstep
  | set service status =>
    cases hstep
    rw [set]
    split
    · exact .ignored
    · next hup => exact .set hup

/-- **The step lemma.** -/
theorem inv_step (h : Inv s ∧ Down s) (hstep : step s e = some s') : Inv s' ∧ Down s' := by
  obtain ⟨hinv, hdown⟩ := h
  cases step_effect hstep with
  | watch => exact ⟨hinv.arrive _, hdown⟩
  | @wake i w hi hphase _ =>
    refine ⟨hinv.set_watch hi ?_ ?_ ((hinv.watch hi).wake hphase), hdown⟩
    · rw [Watch.wake]
      split <;> rfl
    · rw [Watch.wake]
      split <;> simp [hphase]
  | endWrite hi hphase =>
    refine ⟨hinv.set_watch hi rfl ?_ ((hinv.watch hi).endWrite hphase), hdown⟩
    simp [hphase]
  | leave hi _ => exact ⟨hinv.leave hi, hdown⟩
  | set hup => exact ⟨hinv.set' _ _, fun hshut => absurd hshut hup⟩
  | ignored => exact ⟨hinv, hdown⟩
  | shutdown => exact ⟨hinv.enterGracefulShutdown, hdown.enterGracefulShutdown⟩

/-- **The run lemma.** -/
theorem inv_run {es : List Event} (hrun : run step .initial es = some s) : Inv s ∧ Down s :=
  run_invariant inv_step ⟨Inv.initial, nofun⟩ hrun

theorem final_step (h : s.shuttingDown = true ∧ s.status.get? service = some notServing)
    (hstep : step s e = some s') :
    s'.shuttingDown = true ∧ s'.status.get? service = some notServing := by
  obtain ⟨hshut, hstatus⟩ := h
  cases step_effect hstep with
  | watch | wake | endWrite | leave | ignored => exact ⟨hshut, hstatus⟩
  | set hup => exact absurd hshut hup
  | shutdown =>
    rw [enterGracefulShutdown, if_pos hshut]
    exact ⟨hshut, hstatus⟩

theorem leave_frame {j : ℕ} (hstep : step s (.leave i) = some s') (hj : j ≠ i) :
    s'.watches[j]? = s.watches[j]? ∧
      ∀ service, j ∈ s'.registered service ↔ j ∈ s.registered service := by
  cases step_effect hstep with
  | leave hi _ =>
    refine ⟨getElem?_set_ne (Ne.symm hj), fun service => ?_⟩
    rw [HealthServicer.registered, getD_discard]
    split
    · next hservice => rw [Finset.mem_erase, and_iff_right hj, hservice]; rfl
    · rfl

/-- **The health service**, over every schedule: a live watcher's slot holds the status of its
service; a parked watcher has been sent it; no status is written twice in a row; a watcher that
leaves changes nothing else; and after shutdown every service known reads `NOT_SERVING`. -/
theorem health_watchers (es : List Event) (s : HealthServicer)
    (hrun : run step .initial es = some s) :
    (∀ (i : ℕ) (w : Watch), s.watches[i]? = some w → w.phase ≠ .left →
      w.status = s.current w.service) ∧
    (∀ (i : ℕ) (w : Watch), s.watches[i]? = some w → w.phase = .waiting → w.changed = false →
      w.written.getLast? = some (s.current w.service)) ∧
    (∀ (i : ℕ) (w : Watch), s.watches[i]? = some w → w.written.IsChain (· ≠ ·)) ∧
    (∀ i s', step s (.leave i) = some s' → ∀ j, j ≠ i → s'.watches[j]? = s.watches[j]? ∧
      ∀ service, j ∈ s'.registered service ↔ j ∈ s.registered service) ∧
    (∀ es₁ es₂ s₁, es = es₁ ++ .enterGracefulShutdown :: es₂ →
      run step .initial es₁ = some s₁ → ∀ service status, s₁.status.get? service = some status →
      check s service = .ok notServing) := by
  obtain ⟨hinv, -⟩ := inv_run hrun
  refine ⟨fun i w hi => (hinv.watch hi).status, ?_, fun i w hi => (hinv.watch hi).chain,
    fun i s' hstep j hj => leave_frame hstep hj, ?_⟩
  · intro i w hi hphase hchanged
    have hok := hinv.watch hi
    obtain ⟨hlast, hsent⟩ := hok.waiting hphase
    rw [hlast, hsent hchanged, hok.status (by rw [hphase]; nofun)]
  · rintro es₁ es₂ s₁ rfl hrun₁ service status hknown
    obtain ⟨s₁', hrun₁', hrest⟩ := run_append_eq_some hrun
    obtain rfl : s₁ = s₁' := some.inj (hrun₁.symm.trans hrun₁')
    obtain ⟨s₂, hshutdown, hrest⟩ := run_cons_eq_some hrest
    cases hshutdown
    have hfinal := run_invariant (P := fun s => s.shuttingDown = true ∧
      s.status.get? service = some notServing) final_step
      ⟨enterGracefulShutdown_shuttingDown s₁,
        enterGracefulShutdown_status (inv_run hrun₁).2 hknown⟩ hrest
    rw [check, hfinal.2]

end

/-- Two watchers of a service that is not set yet; one leaves, the other is writing while the
service is set twice and the server shuts down. -/
def watchSchedule : List Event :=
  [.watch "orders", .watch "orders", .wake 0, .endWrite 0, .wake 1, .leave 0, .set "orders" serving,
    .set "orders" notServing, .set "orders" serving, .endWrite 1, .wake 1,
    .enterGracefulShutdown, .set "orders" serving, .endWrite 1, .wake 1, .endWrite 1]

theorem health_watchers_watchSchedule :
    ∃ s w, run step .initial watchSchedule = some s ∧ s.watches[1]? = some w ∧
      w.written = [serviceUnknown, serving, notServing] ∧
      w.written.getLast? = some (s.current "orders") ∧ check s "orders" = .ok notServing := by
  have hwatch : (run step .initial watchSchedule).map (fun s => s.watches[1]?) =
      some (some ⟨"orders", notServing, false, some notServing, .waiting,
        [serviceUnknown, serving, notServing]⟩) := by decide +kernel
  obtain ⟨s, hs, hwatch⟩ := map_eq_some_iff.mp hwatch
  have hbefore : ((run step .initial (watchSchedule.take 11)).bind fun s =>
      s.status.get? "orders") = some serving := by decide +kernel
  obtain ⟨s₁, hs₁, hknown⟩ := bind_eq_some_iff.mp hbefore
  obtain ⟨-, hparked, -, -, hdown⟩ := health_watchers watchSchedule s hs
  refine ⟨s, _, hs, hwatch, rfl, hparked 1 _ hwatch rfl rfl, ?_⟩
  exact hdown (watchSchedule.take 11) (watchSchedule.drop 12) s₁ (by decide) hs₁ "orders" _ hknown

end ServiceToolkit.Health
