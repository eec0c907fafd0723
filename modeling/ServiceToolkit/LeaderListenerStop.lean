import ServiceToolkit.LeaderListenerTasks

/-!
# Stopping the Leader-Elected Listener

What `stop` promises: once it has returned and everything that was in flight has finished,
nothing of the listener is left, as long as `start` is not called again.

After `stop` has been called every task is `Falling`: nobody gets further up, nobody creates a
retry task, and what is closed stays closed. This and the way of the `stop` itself make up
`Down`.
-/

namespace ServiceToolkit.Listener

open List

/-! ### On the way down -/

/-- The `stop` has closed the runtime. -/
def Phase.hasClosed : Phase → Bool
  | .closingRedis _ | .returned => true
  | _ => false

/-- Nobody gets further up. -/
structure Falling (s : State) : Prop where
  stopping : s.stopping = true
  retryTask : s.retryTask = none
  noUp : ∀ {j : ℕ} {call : Call}, s.calls[j]? = some call → call.UpCancelled

/-- What holds from the call `q` of `stop` on. -/
structure Down (q : ℕ) (s : State) : Prop where
  inv : Inv s
  falling : Falling s
  /-- The call is there. -/
  isStop : ∃ phase cancelRequested, s.calls[q]? = some ⟨.stop, phase, cancelRequested⟩
  /-- What it has closed stays closed. -/
  closed : ∀ {call : Call}, s.calls[q]? = some call → call.phase.hasClosed = true →
    Local s.toFields .closed

theorem closed_shrinks {f : Fields} {code : Code} (h : Local f .closed)
    (hshrinks : Shrinks f code) : Local code.1 .closed :=
  ⟨hshrinks.subscriptions.elim (fun e => e.trans h.1) id,
    hshrinks.client.elim (fun e => e.trans h.2.1) id,
    hshrinks.lease.elim (fun e => e.trans h.2.2) id⟩

section Falling

variable {s : State} {i : ℕ} {role : Role} {code : Code}

theorem Falling.settled (h : Falling s) (hi : i < s.calls.length)
    (hshrinks : Shrinks s.toFields code) : Falling (settle s i role code) := by
  obtain ⟨phase, created, hsettled⟩ := settle_spec role code hi
  refine ⟨hsettled.stopping.trans h.stopping, ?_, fun hj => ?_⟩
  · rcases hsettled.created with ⟨-, hsame⟩ | ⟨-, -, hstopping, -⟩
    · exact hsame.trans h.retryTask
    · rw [h.stopping] at hstopping
      cases hstopping
  · rcases hsettled.get hj with ⟨-, rfl⟩ | ⟨-, hold⟩ | ⟨rfl, -⟩
    · rintro here ⟨⟩ hup
      rw [hsettled.lands.waiting, hshrinks.low.not_up] at hup
      cases hup
    · exact h.noUp hold
    · exact fun _ => Phase.noConfusion

theorem settled_closed {call : Call} (hi : i < s.calls.length) (hsafe : Safe code)
    (hlow : code.2.isLow) (hcall : (settle s i role code).calls[i]? = some call)
    (hclosed : call.phase.hasClosed = true) : Local (settle s i role code).toFields .closed := by
  obtain ⟨phase, created, hsettled⟩ := settle_spec role code hi
  rw [hsettled.self hi] at hcall
  cases hcall
  refine hsettled.runtime.here ?_
  have hhere : code.2 = .closed := by
    rcases hsettled.lands with ⟨hphase, -⟩ | ⟨hphase, -⟩ | ⟨hover | ⟨started, hover⟩, -⟩
    · rw [show phase = _ from hphase] at hclosed
      cases hclosed
    · rw [show phase = _ from hphase] at hclosed
      cases hclosed
    · exact hover
    · rw [hover] at hlow
      rcases hlow with hlow | hlow | hlow <;> cases hlow
  rw [← hhere]
  exact hsafe.here

end Falling

/-! ### From a stop on -/

section Down

variable {redisEnabled : Bool} {q : ℕ} {s : State} {i : ℕ}

theorem Down.settled {call : Call} {code : Code} (h : Down q s)
    (hcall : s.calls[i]? = some call) (hsafe : Safe code) (hshrinks : Shrinks s.toFields code)
    (hinv : Inv (settle s i call.role code)) : Down q (settle s i call.role code) := by
  have hi : i < s.calls.length := lt_of_getElem? hcall
  obtain ⟨phase, created, hsettled⟩ := settle_spec call.role code hi
  obtain ⟨stopPhase, cancelRequested, hstop⟩ := h.isStop
  refine ⟨hinv, h.falling.settled hi hshrinks, ?_, fun {call'} hq hclosed => ?_⟩
  · by_cases heq : q = i
    · subst heq
      rw [hstop] at hcall
      cases hcall
      exact ⟨phase, false, hsettled.self hi⟩
    · exact ⟨stopPhase, cancelRequested, hsettled.other heq hstop⟩
  · by_cases heq : q = i
    · subst heq
      exact settled_closed hi hsafe hshrinks.low hq hclosed
    · rw [hsettled.other heq hstop] at hq
      cases hq
      exact hsettled.runtime.here (closed_shrinks (h.closed hstop hclosed) hshrinks)

theorem Down.leaves {call : Call} {phase : Phase} {g : Fields} (h : Down q s)
    (hcall : s.calls[i]? = some call) (hover : phase.isOver = true)
    (hkept : Local s.toFields .closed → Local g .closed)
    (hclosed : call.role = .stop → phase.hasClosed = true → call.phase.hasClosed = true)
    (hinv : Inv ({ s with toFields := g }.setCall i call.role phase)) :
    Down q ({ s with toFields := g }.setCall i call.role phase) := by
  have hi : i < s.calls.length := lt_of_getElem? hcall
  have hself : ({ s with toFields := g }.setCall i call.role phase).calls[i]? =
      some ⟨call.role, phase, false⟩ := getElem?_set_self hi
  have hother : ∀ {j : ℕ}, j ≠ i →
      ({ s with toFields := g }.setCall i call.role phase).calls[j]? = s.calls[j]? :=
    fun hne => getElem?_set_ne (Ne.symm hne)
  obtain ⟨stopPhase, cancelRequested, hstop⟩ := h.isStop
  refine ⟨hinv, ⟨h.falling.stopping, h.falling.retryTask, fun hj => ?_⟩, ?_,
    fun {call'} hq hdone => ?_⟩
  · refine forall_getElem?_set (P := fun _ => Call.UpCancelled)
      (fun hj _ => h.falling.noUp hj) ?_ hj
    rintro here ⟨⟩
    cases hover
  · by_cases heq : q = i
    · subst heq
      rw [hstop] at hcall
      cases hcall
      exact ⟨phase, false, hself⟩
    · exact ⟨stopPhase, cancelRequested, (hother heq).trans hstop⟩
  · by_cases heq : q = i
    · subst heq
      rw [hself] at hq
      cases hq
      rw [hstop] at hcall
      cases hcall
      exact hkept (h.closed hstop (hclosed rfl hdone))
    · rw [hother heq] at hq
      exact hkept (h.closed hq hdone)

theorem Down.added {s' : State} {added : Call} (h : Down q s)
    (hstopping : s'.stopping = s.stopping) (hretryTask : s'.retryTask = s.retryTask)
    (hcalls : s'.calls = s.calls ++ [added]) (hphase : added.phase.isActive = false)
    (hkept : Local s.toFields .closed → Local s'.toFields .closed) (hinv : Inv s') : Down q s' := by
  obtain ⟨stopPhase, cancelRequested, hstop⟩ := h.isStop
  have hold : s'.calls[q]? = s.calls[q]? := by
    rw [hcalls, getElem?_append_left (lt_of_getElem? hstop)]
  refine ⟨hinv, ⟨hstopping.trans h.falling.stopping, hretryTask.trans h.falling.retryTask,
    fun hj => ?_⟩, ⟨stopPhase, cancelRequested, hold.trans hstop⟩, fun hj hdone => ?_⟩
  · rw [hcalls] at hj
    refine forall_getElem?_concat (P := fun _ => Call.UpCancelled)
      (fun hi => h.falling.noUp hi) (fun _ hw => ?_) hj
    rw [hw] at hphase
    cases hphase
  · rw [hold] at hj
    exact hkept (h.closed hj hdone)

theorem Down.fields {g : Fields} (h : Down q s)
    (hkept : Local s.toFields .closed → Local g .closed) (hinv : Inv { s with toFields := g }) :
    Down q { s with toFields := g } :=
  ⟨hinv, ⟨h.falling.stopping, h.falling.retryTask, h.falling.noUp⟩, h.isStop,
    fun hq hdone => hkept (h.closed hq hdone)⟩

/-- What holds from a `stop` on is kept by every orderly step but `start`. -/
theorem down_step {s' : State} {e : Event} (h : Down q s) (horderly : Orderly s e)
    (hne : e ≠ .start) (hstep : step redisEnabled s e = some s') : Down q s' := by
  have hinv : Inv s' := inv_step h.inv horderly hstep
  have hclose : Safe (closeRuntime s.toFields) := closeRuntime_safe h.inv.owned
  -- `stop` is called again
  have hagain : NoRetry s → Down q s.stopAdded := fun hnone =>
    h.added h.falling.stopping.symm h.falling.retryTask.symm rfl rfl id (h.inv.stop_added hnone)
  have hlast : s.stopAdded.calls[s.calls.length]? = some ⟨.stop, .returned, false⟩ :=
    getElem?_concat_length
  cases move_of_step hstep with
  | start => exact absurd rfl hne
  | resume hcall hgoesOn hresumed =>
    rename_i here cancelRequested _ _
    have hup : here.isUp = false := by
      cases hup : here.isUp with
      | true =>
        exact hup.symm.trans (At.swallows.not_up (hgoesOn (h.falling.noUp hcall _ rfl hup)))
      | false => rfl
    have hdown : here.isDown = true := h.inv.way hcall hup
    have hlocal : Local s.toFields here := h.inv.here hcall fun hup' => by
      rw [hup] at hup'
      cases hup'
    exact h.settled hcall (resumed_owned h.inv.owned hlocal hresumed)
      (resumed_shrinks hdown hresumed) hinv
  | rest hcall | cancelSleep hcall => exact h.leaves hcall rfl id Role.noConfusion hinv
  | wake hcall hstopping =>
    rw [h.falling.stopping] at hstopping
    cases hstopping
  | begin hcall | joined hcall => exact h.settled hcall hclose (closeRuntime_shrinks _) hinv
  | stop hnone =>
    exact (hagain hnone).settled hlast hclose (closeRuntime_shrinks _) hinv
  | stopRaises hnone => exact (hagain hnone).leaves hlast rfl id (fun _ _ => rfl) hinv
  | stopWaits htask =>
    rw [h.falling.retryTask] at htask
    cases htask
  | joinedRaises hcall => exact h.leaves hcall rfl id (fun _ => Bool.noConfusion) hinv
  | redisClosed hcall => exact h.leaves hcall rfl id (fun _ _ => rfl) hinv
  | redisRaises hcall => exact h.leaves hcall rfl id (fun _ => Bool.noConfusion) hinv
  | cancel hcall =>
    exact h.leaves hcall rfl (fewer_cancelledAt s.toFields _).here Role.noConfusion hinv
  | renewalLost hl => exact h.added rfl rfl rfl rfl id hinv
  | renewalFails hl | renewalEnds hl => exact h.fields id hinv

theorem down_stop {s' : State} (h : Inv s) (horderly : Orderly s .stop)
    (hstep : step redisEnabled s .stop = some s') : Down s.calls.length s' := by
  have hinv : Inv s' := inv_step h horderly hstep
  have hlast : s.stopAdded.calls[s.calls.length]? = some ⟨.stop, .returned, false⟩ :=
    getElem?_concat_length
  have hi : s.calls.length < s.stopAdded.calls.length := lt_of_getElem? hlast
  have hfalling : NoRetry s → Falling s.stopAdded := by
    refine fun hnone => ⟨rfl, rfl, fun hj => ?_⟩
    exact forall_getElem?_concat (P := fun _ => Call.UpCancelled)
      (fun hj => h.cancelled_up horderly hnone hj) (fun _ => Phase.noConfusion) hj
  cases move_of_step hstep with
  | stop hnone =>
    have hshrinks := closeRuntime_shrinks s.toFields
    obtain ⟨phase, created, hsettled⟩ := settle_spec .stop (closeRuntime s.toFields) hi
    exact ⟨hinv, (hfalling hnone).settled hi hshrinks, ⟨phase, false, hsettled.self hi⟩,
      settled_closed hi (closeRuntime_safe h.owned) hshrinks.low⟩
  | stopRaises hnone =>
    have hself : (s.stopAdded.setCall s.calls.length .stop .raised).calls[s.calls.length]? =
        some ⟨.stop, .raised, false⟩ := getElem?_set_self hi
    refine ⟨hinv, ⟨rfl, rfl, fun hj => ?_⟩, ⟨.raised, false, hself⟩, fun hq hdone => ?_⟩
    · exact forall_getElem?_set (P := fun _ => Call.UpCancelled)
        (fun hj _ => (hfalling hnone).noUp hj) (fun _ => Phase.noConfusion) hj
    · rw [hself] at hq
      cases hq
      cases hdone
  | stopWaits htask ht =>
    rename_i t task
    have hself := awaitingCalls_last s.calls t task
    refine ⟨hinv, ⟨rfl, rfl, h.awaiting_up horderly htask ht⟩, ⟨.awaitingRetry t, false, hself⟩,
      fun hq hdone => ?_⟩
    rw [hself] at hq
    cases hq
    cases hdone

theorem down_run {s' : State} {es : List Event} (h : Down q s)
    (horderly : StepsMeet (step redisEnabled) Orderly s es) (hstart : Event.start ∉ es)
    (hrun : run (step redisEnabled) s es = some s') : Down q s' := by
  induction es generalizing s with
  | nil =>
    cases hrun
    exact h
  | cons e es ih =>
    obtain ⟨t, hstep, hrest⟩ := run_cons_eq_some hrun
    obtain ⟨hok, hmeets⟩ := stepsMeet_cons horderly hstep
    rw [mem_cons, not_or] at hstart
    exact ih (down_step h hok (Ne.symm hstart.1) hstep) hmeets hstart.2 hrest

end Down

/-! ### Nothing is left -/

/-- Nothing of the listener is left. -/
structure NothingLeft (s : State) : Prop where
  subscriptions : s.subscriptions = 0
  client : s.client = none ∧ ∀ c, s.isOpen c = false
  lease : s.lease = none ∧ ∀ l, s.isClaimed l = false
  renewal : ∀ l, s.renewalIs .running l = false ∧ s.renewalIs .cancelling l = false
  retryTask : s.retryTask = none ∧
    ∀ call ∈ s.calls, call.role = .retry → call.phase.isOver = true

section NothingLeft

variable {q : ℕ} {s : State}

theorem isClaimed_of_running {f : Fields} {l : ℕ} (h : f.renewalIs .running l = true) :
    f.isClaimed l = true := by
  rw [Fields.renewalIs] at h
  rw [Fields.isClaimed]
  cases hl : f.leases[l]? with
  | none =>
    rw [hl] at h
    cases h
  | some x =>
    rw [hl, Option.any_some] at h
    rw [Option.any_some, Lease.claimed, h, Bool.or_true]

theorem Down.retry_over (h : Down q s)
    (hfinished : ∀ call ∈ s.calls, call.role ≠ .retry → call.phase.isActive = false) {i : ℕ}
    {phase : Phase} {cancelled : Bool} (hcall : s.calls[i]? = some ⟨.retry, phase, cancelled⟩) :
    phase.isOver = true := by
  cases hover : phase.isOver with
  | true => rfl
  | false =>
    rcases h.inv.retry hcall hover with htask | ⟨j, cancelled', hj⟩
    · rw [h.falling.retryTask] at htask
      cases htask
    · cases hfinished _ (mem_of_getElem? hj) Role.noConfusion

theorem Down.nothingLeft (h : Down q s) (hreturned : (s.calls[q]?).map Call.phase = some .returned)
    (hfinished : ∀ call ∈ s.calls, call.role ≠ .retry → call.phase.isActive = false) :
    NothingLeft s := by
  obtain ⟨call, hcall, hphase⟩ := Option.map_eq_some_iff.mp hreturned
  have hclosed : Local s.toFields .closed := h.closed hcall (by rw [hphase]; rfl)
  have hvacant : Vacant s.toFields := h.inv.owned.vacant hclosed.2.2 hclosed.2.1
  refine ⟨hclosed.1, ⟨hclosed.2.1, hvacant.client⟩, ⟨hclosed.2.2, hvacant.lease⟩,
    fun l => ⟨?_, ?_⟩, h.falling.retryTask, fun call hmem hrole => ?_⟩
  · rw [← Bool.not_eq_true]
    intro hrunning
    have hclaimed := isClaimed_of_running hrunning
    rw [hvacant.lease l] at hclaimed
    cases hclaimed
  · rw [← Bool.not_eq_true]
    intro hcancelling
    -- whoever waits for the renew task is active
    obtain ⟨i, role, cancelled, hi⟩ := h.inv.pending hcancelling
    by_cases hrole : role = .retry
    · subst hrole
      cases h.retry_over hfinished hi
    · cases hfinished _ (mem_of_getElem? hi) hrole
  · obtain ⟨i, hi⟩ := getElem?_of_mem hmem
    obtain ⟨role, phase, cancelled⟩ := call
    subst hrole
    exact h.retry_over hfinished hi

end NothingLeft

/-- **`stop` is final**, in a run whose steps meet `Orderly` and without a later `start`: once it
has returned, and every `start`, begun callback and other `stop` has finished, no subscription, open
NATS client, lease held or renewing, or retry task is left. -/
theorem stop_is_final {redisEnabled : Bool} {before after : List Event} {s s' : State}
    (horderly : StepsMeet (step redisEnabled) Orderly State.initial (before ++ .stop :: after))
    (hbefore : run (step redisEnabled) State.initial before = some s)
    (hafter : run (step redisEnabled) s (.stop :: after) = some s')
    (hstart : Event.start ∉ after)
    (hreturned : (s'.calls[s.calls.length]?).map Call.phase = some .returned)
    (hfinished : ∀ call ∈ s'.calls, call.role ≠ .retry → call.phase.isActive = false) :
    NothingLeft s' := by
  obtain ⟨hmeets, hmeets'⟩ := stepsMeet_append horderly hbefore
  obtain ⟨t, hstop, hrest⟩ := run_cons_eq_some hafter
  obtain ⟨hok, hmeets''⟩ := stepsMeet_cons hmeets' hstop
  have hdown : Down s.calls.length t := down_stop (inv_run hmeets hbefore) hok hstop
  exact (down_run hdown hmeets'' hstart hrest).nothingLeft hreturned hfinished

/-- A `stop` while the retry task sets up its subscriptions. -/
theorem stop_is_final_cancels_attempt :
    ∃ s s' : State,
      run (step true) State.initial
        [.start, .resume 0 .ok, .resume 0 .refused, .wake 1, .resume 1 .ok, .resume 1 .ok] =
          some s ∧
      run (step true) s
        [.stop, .deliverCancel 1, .joined 2, .resume 2 .ok, .renewalEnds 1, .resume 2 .ok,
          .resume 2 .ok, .redisClosed 2 true] = some s' ∧
      NothingLeft s' := by
  refine ⟨_, _, rfl, rfl, ?_⟩
  refine @stop_is_final true
    [.start, .resume 0 .ok, .resume 0 .refused, .wake 1, .resume 1 .ok, .resume 1 .ok]
    [.deliverCancel 1, .joined 2, .resume 2 .ok, .renewalEnds 1, .resume 2 .ok, .resume 2 .ok,
      .redisClosed 2 true] _ _ ?_ rfl rfl ?_ rfl ?_
  all_goals decide

/-- **A `stop` overtaken.** First run: `stop` comes while `start` waits for its NATS connection and
closes a client that has none yet; the connection made then stays open. Second run: of two calls of
`start`, the second is refused the lease and clears the field that names the lease of the first;
`stop` cannot release it and it is renewed for ever. -/
theorem stop_overtaken :
    (∃ s, run (step true) State.initial
        [.start, .resume 0 .ok, .resume 0 .ok, .stop, .renewalEnds 0, .resume 1 .ok,
          .resume 1 .ok, .redisClosed 1 true, .resume 0 .ok, .resume 0 .raises] = some s ∧
      (∀ call ∈ s.calls, call.phase = .returned) ∧ s.isOpen 0 = true) ∧
    (∃ s, run (step true) State.initial
        [.start, .resume 0 .ok, .start, .resume 0 .ok, .resume 1 .refused, .resume 0 .ok,
          .resume 0 (.subscribed 1), .resume 0 .ok, .stop, .deliverCancel 2, .joined 3,
          .resume 3 .ok, .resume 3 .ok, .resume 3 .ok, .redisClosed 3 true] = some s ∧
      (∀ call ∈ s.calls, call.phase.isOver = true) ∧ s.isClaimed 0 = true ∧
        s.renewalIs .running 0 = true) := by
  refine ⟨⟨_, rfl, ?_⟩, ⟨_, rfl, ?_⟩⟩
  · decide
  · decide

end ServiceToolkit.Listener
