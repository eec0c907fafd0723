import ServiceToolkit.NatsClient

/-!
# No Connection is Left Behind

A connection that `NATSClient` opened and no longer references keeps its subscriptions. So each
open connection has to be the one the client references or in the hands of a `close` call that
drains or closes it (`Owned`); once no call is running, only the first remains.

`connect` keeps this by itself: under its lock it dials only while no open connection is
referenced (`Dialing`). But `close` drops whatever the client references when it ends, also if
its drain raised, or if another connection has taken the place of the drained one. **The client
keeps its connections exactly if every `close` call that ends leaves none behind that is open and
in no other call's hands** (`connections_kept_iff`).

`drain_raises_leaks` is a run in which a connection is lost.
-/

namespace ServiceToolkit.Nats

open List

/-! ### Who keeps a connection -/

/-- The call drains or closes this connection. -/
def ClientCall.holds (c : ℕ) (call : ClientCall) : Bool :=
  call == .draining c || call == .closing c

/-- A call has the connection in its hands. -/
def NatsClient.held (s : NatsClient) (c : ℕ) : Bool := s.calls.any (ClientCall.holds c)

/-- The connection was established and is not closed. -/
def NatsClient.isOpen (s : NatsClient) (c : ℕ) : Bool := s.closed[c]? == some false

/-- **Every open connection** is the one the client references or in the hands of a call. -/
def Owned (s : NatsClient) : Prop :=
  ∀ c, s.isOpen c = true → s.connection = some c ∨ s.held c = true

/-- No call is running. -/
def NatsClient.quiet (s : NatsClient) : Bool := s.calls.all (· == .ended)

/-- The reference to the connection may go: it is closed, or a call has it in its hands. -/
def NatsClient.droppable (s : NatsClient) (c : ℕ) : Bool := !s.isOpen c || s.held c

/-- The `close` call `i` ends after it closed connection `c` or failed to: without the call, both
this connection and the one the client references are droppable. -/
def NatsClient.endKeeps (s : NatsClient) (i c : ℕ) (closes : Bool) : Bool :=
  let s' := (if closes then s.closeConnection c else s).setCall i .ended
  s'.droppable c && s.connection.all s'.droppable

/-- **The condition on a step**: a `close` call that ends leaves no open connection behind that no
other call has in its hands; as it does if its drain timed out and another connection is referenced
by then. -/
def NatsClient.keeps (s : NatsClient) : ClientEvent → Bool
  | .drain i outcome =>
    match s.calls[i]?, outcome with
    | some (.draining c), .drained => s.endKeeps i c true
    | some (.draining c), .raised => s.endKeeps i c false
    | some (.draining c), .timedOut =>
      s.connection == some c || (s.setCall i .ended).droppable c
    | _, _ => true
  | .closeDone i ok =>
    match s.calls[i]? with
    | some (.closing c) => s.endKeeps i c ok
    | _ => true
  | _ => true

section

variable {s s' : NatsClient} {e : ClientEvent} {i c c' : ℕ}

@[simp] theorem holds_draining : (ClientCall.draining c').holds c = true ↔ c' = c := by
  simp [ClientCall.holds]

@[simp] theorem holds_closing : (ClientCall.closing c').holds c = true ↔ c' = c := by
  simp [ClientCall.holds]

variable {old : ClientCall}

theorem held_setCall (call : ClientCall) (hold : s.calls[i]? = some old)
    (h : s.held c = true) : old.holds c = true ∨ (s.setCall i call).held c = true := by
  rw [NatsClient.held, any_eq_true] at h
  obtain ⟨x, hx, hholds⟩ := h
  obtain ⟨j, hj⟩ := mem_iff_getElem?.mp hx
  by_cases hij : i = j
  · rw [← hij, hold] at hj
    cases hj
    exact .inl hholds
  · right
    rw [NatsClient.held, any_eq_true]
    refine ⟨x, mem_iff_getElem?.mpr ⟨j, ?_⟩, hholds⟩
    rw [NatsClient.setCall, getElem?_set_ne hij, hj]

variable {call : ClientCall}

theorem held_of_moved {call' : ClientCall} (hold : s.calls[i]? = some old)
    (h : (s.setCall i call).held c = true) :
    call.holds c = true ∨ (s.setCall i call').held c = true := by
  have hmoved : (s.setCall i call).calls[i]? = some call := getElem?_set_some hold
  have hsame : (s.setCall i call).setCall i call' = s.setCall i call' := by
    simp only [NatsClient.setCall, set_set]
  exact hsame ▸ held_setCall call' hmoved h

theorem held_addCall (call : ClientCall) (h : s.held c = true) :
    (s.addCall call).held c = true := by
  rw [NatsClient.held, NatsClient.addCall, any_append, Bool.or_eq_true]
  exact .inl h

theorem isOpen_closeConnection (h : (s.closeConnection c).isOpen i = true) :
    i ≠ c ∧ s.isOpen i = true := by
  rw [NatsClient.isOpen, NatsClient.closeConnection, getElem?_set] at h
  split at h
  · split at h <;> simp at h
  · rename_i hne
    exact ⟨Ne.symm hne, h⟩

theorem droppable_iff : s.droppable c = true ↔ (s.isOpen c = true → s.held c = true) := by
  rw [NatsClient.droppable]
  cases s.isOpen c <;> simp

/-! ### The steps that keep a connection -/

theorem Owned.addCall (h : Owned s) (call : ClientCall) : Owned (s.addCall call) := by
  intro c hopen
  exact (h c hopen).imp_right (held_addCall call)

theorem Owned.setCall (h : Owned s) (old : ClientCall)
    (hold : s.calls[i]? = some old) (hholds : ∀ c, old.holds c = false) :
    Owned (s.setCall i call) := by
  intro c hopen
  refine (h c hopen).imp_right fun hheld => ?_
  rcases held_setCall call hold hheld with hc | hc
  · rw [hholds c] at hc
    cases hc
  · exact hc

theorem Owned.closeConnection (h : Owned s) (c : ℕ) : Owned (s.closeConnection c) := by
  intro c' hopen
  exact h c' (isOpen_closeConnection hopen).2

theorem Owned.connected (h : Owned s) (c : ℕ) (caller : Caller) : Owned (s.connected c caller) := by
  cases caller <;> exact h

/-- **The end of a `close` call**: what it drops is owned by other calls exactly under the
condition. -/
theorem owned_endClose (closes : Bool) (howned : Owned s)
    (hold : s.calls[i]? = some old) (hholds : ∀ c', old.holds c' = true → c' = c) :
    Owned (endClose (if closes then s.closeConnection c else s) i) ↔
      s.endKeeps i c closes = true := by
  let s₁ := if closes then s.closeConnection c else s
  have hcalls : s₁.calls = s.calls := by
    cases closes <;> rfl
  have hopen₁ : ∀ c', (s₁.setCall i .ended).isOpen c' = true → s.isOpen c' = true := by
    intro c' hopen
    cases closes with
    | true => exact (isOpen_closeConnection hopen).2
    | false => exact hopen
  -- nothing is referenced any more
  have hdrop : Owned (endClose s₁ i) ↔ ∀ c', (s₁.setCall i .ended).droppable c' = true := by
    refine forall_congr' fun c' => ?_
    rw [droppable_iff]
    refine imp_congr_right fun _ => or_iff_right ?_
    rintro ⟨⟩
  refine hdrop.trans ⟨fun h => ?_, fun h c' => ?_⟩
  · rw [NatsClient.endKeeps, Bool.and_eq_true, Option.all_eq_true]
    exact ⟨h c, fun c' _ => h c'⟩
  · rw [NatsClient.endKeeps, Bool.and_eq_true, Option.all_eq_true] at h
    by_cases hc : c' = c
    · exact hc ▸ h.1
    · rw [droppable_iff]
      intro hopen
      rcases howned c' (hopen₁ c' hopen) with hreferenced | hheld
      · exact droppable_iff.mp (h.2 c' hreferenced) hopen
      · have hheld₁ : s₁.held c' = true := by
          rw [NatsClient.held, hcalls]
          exact hheld
        rcases held_setCall .ended (hcalls ▸ hold) hheld₁ with hself | hother
        · exact absurd (hholds c' hself) hc
        · exact hother

/-- **A drain that timed out**: the call turns to the connection that is referenced by then. -/
theorem owned_timedOut (howned : Owned s) (hold : s.calls[i]? = some (.draining c)) :
    Owned (afterDrain s i c .timedOut) ↔
      (s.connection == some c || (s.setCall i .ended).droppable c) = true := by
  rw [Bool.or_eq_true, beq_iff_eq]
  cases hconnection : s.connection with
  | none =>
    have hend := owned_endClose false howned hold fun c' hc' => (holds_draining.mp hc').symm
    simpa [afterDrain, hconnection, NatsClient.endKeeps] using hend
  | some c' =>
    have hafter : afterDrain s i c .timedOut = s.setCall i (.closing c') := by
      simp only [afterDrain, hconnection]
    rw [hafter]
    constructor
    · intro h
      by_cases hsame : c' = c
      · exact .inl (congrArg some hsame)
      · right
        rw [droppable_iff]
        intro hopen
        rcases h c hopen with hreferenced | hheld
        · exact absurd (Option.some.inj (hconnection.symm.trans hreferenced)) hsame
        · exact (held_of_moved hold hheld).resolve_left fun hc =>
            hsame (holds_closing.mp hc)
    · intro h c'' hopen
      rcases howned c'' hopen with hreferenced | hheld
      · exact .inl hreferenced
      · rcases held_setCall (.closing c') hold hheld with hc | hother
        · obtain rfl := holds_draining.mp hc
          rcases h with hsame | hdrop
          · exact .inl (hconnection.trans hsame)
          · refine .inr ((held_of_moved hold (droppable_iff.mp hdrop hopen)).resolve_left ?_)
            exact Bool.false_ne_true
        · exact .inr hother

/-! ### Dialing -/

/-- **A call that dials** has the lock, and no open connection is referenced meanwhile. -/
def Dialing (s : NatsClient) : Prop :=
  ∀ i caller, s.calls[i]? = some (.dialing caller) → s.lock = some i ∧ s.usable = none

theorem Dialing.of_calls (h : Dialing s) (hlock : s'.lock = s.lock)
    (husable : s.usable = none → s'.usable = none)
    (hcalls : ∀ {i : ℕ} {caller}, s'.calls[i]? = some (.dialing caller) →
      s.calls[i]? = some (.dialing caller)) : Dialing s' := by
  intro i caller hi
  obtain ⟨hholder, hnone⟩ := h i caller (hcalls hi)
  exact ⟨hlock.trans hholder, husable hnone⟩

theorem Dialing.not_dialing (h : Dialing s) (hlock : s.lock = none) (i : ℕ) (caller : Caller) :
    s.calls[i]? ≠ some (.dialing caller) := by
  intro hi
  rw [(h i caller hi).1] at hlock
  cases hlock

variable {caller : Caller}

theorem dialing_of_addCall (hcall : ∀ caller, call ≠ .dialing caller)
    (h : (s.addCall call).calls[i]? = some (.dialing caller)) :
    s.calls[i]? = some (.dialing caller) := by
  rw [NatsClient.addCall, getElem?_append] at h
  split at h
  · exact h
  · exact absurd (mem_singleton.mp (mem_of_getElem? h)).symm (hcall caller)

theorem dialing_of_setCall (hcall : ∀ caller, call ≠ .dialing caller) {j : ℕ}
    (h : (s.setCall i call).calls[j]? = some (.dialing caller)) :
    j ≠ i ∧ s.calls[j]? = some (.dialing caller) := by
  by_cases hij : i = j
  · subst hij
    rw [NatsClient.setCall, getElem?_set] at h
    simp only [if_true] at h
    split at h
    · exact absurd (Option.some.inj h) (hcall caller)
    · cases h
  · rw [NatsClient.setCall, getElem?_set_ne hij] at h
    exact ⟨Ne.symm hij, h⟩

/-- **A dial leaves nothing behind**: what was referenced before is closed. -/
theorem owned_dialed (howned : Owned s) (hnone : s.usable = none)
    (hold : s.calls[i]? = some (.dialing caller)) : Owned (dialed s i caller) := by
  have hnew : Owned { s with
      connection := some s.closed.length
      jetstream := none
      lock := none
      closed := s.closed ++ [false] } := by
    intro c hopen
    rw [NatsClient.isOpen, getElem?_append] at hopen
    split at hopen
    · rcases howned c hopen with hreferenced | hheld
      · have hclosed := usable_eq_none_iff.mp hnone c hreferenced
        rw [isClosed_iff] at hclosed
        rw [hclosed] at hopen
        cases hopen
      · exact .inr hheld
    · have hmem : c - s.closed.length < [false].length := by
        by_contra hlarge
        rw [getElem?_eq_none (Nat.le_of_not_lt hlarge)] at hopen
        cases hopen
      have hc : s.closed.length = c := by
        simp only [length_singleton] at hmem
        omega
      exact .inl (congrArg some hc)
  refine (hnew.connected s.closed.length caller).setCall (.dialing caller) ?_ fun _ => rfl
  cases caller <;> exact hold

/-! ### One step -/

theorem Dialing.closeConnection (h : Dialing s) (c : ℕ) : Dialing (s.closeConnection c) := by
  refine h.of_calls rfl (fun hnone => ?_) id
  rw [usable_eq_none_iff] at hnone ⊢
  exact fun c' hc' => isClosed_closeConnection (hnone c' hc')

theorem Dialing.endClose (h : Dialing s) (i : ℕ) : Dialing (endClose s i) :=
  h.of_calls rfl (fun _ => rfl) fun hj => (dialing_of_setCall (s := s) (by rintro _ ⟨⟩) hj).2

theorem Dialing.eq_of_dialing (h : Dialing s) {j : ℕ} {caller' : Caller}
    (hi : s.calls[i]? = some (.dialing caller)) (hj : s.calls[j]? = some (.dialing caller')) :
    j = i :=
  Option.some.inj ((h j caller' hj).1.symm.trans (h i caller hi).1)

theorem dialing_afterDrain (h : Dialing s) (i c : ℕ) (outcome : Drain) :
    Dialing (afterDrain s i c outcome) := by
  cases outcome with
  | drained => exact (h.closeConnection c).endClose i
  | raised => exact h.endClose i
  | timedOut =>
    rw [afterDrain]
    split
    · exact h.of_calls rfl id fun hj => (dialing_of_setCall (by rintro _ ⟨⟩) hj).2
    · exact h.endClose i

section

variable (hdial : Dialing s) (howned : Owned s)
include hdial howned

theorem startConnect_keeps (caller : Caller) :
    Dialing (startConnect s caller) ∧ Owned (startConnect s caller) := by
  rw [startConnect]
  split
  · rename_i c _
    refine ⟨?_, (howned.connected c caller).addCall _⟩
    cases caller <;>
      exact hdial.of_calls rfl id (dialing_of_addCall (s := s) (by rintro _ ⟨⟩))
  · exact ⟨hdial.of_calls rfl id (dialing_of_addCall (by rintro _ ⟨⟩)), howned.addCall _⟩

theorem startJetstream_keeps :
    Dialing (startJetstream s) ∧ Owned (startJetstream s) := by
  rw [startJetstream]
  split
  · exact ⟨hdial.of_calls rfl id (dialing_of_addCall (s := s) (by rintro _ ⟨⟩)),
      Owned.addCall (s := s) howned _⟩
  · exact startConnect_keeps hdial howned .jetstream

theorem locked_keeps (hlock : s.lock = none) (hold : s.calls[i]? = some (.locking caller)) :
    Dialing (locked s i caller) ∧ Owned (locked s i caller) := by
  rw [locked]
  split
  · rename_i c _
    refine ⟨fun j caller' hj => ?_, (howned.connected c caller).setCall (.locking caller) ?_
      fun _ => rfl⟩
    · have hj' : s.calls[j]? = some (.dialing caller') := by
        cases caller <;> exact (dialing_of_setCall (s := s) (by rintro _ ⟨⟩) hj).2
      exact absurd hj' (hdial.not_dialing hlock j caller')
    · cases caller <;> exact hold
  · rename_i hnone
    refine ⟨fun j caller' hj => ?_, Owned.setCall (s := s) howned (.locking caller) hold
      fun _ => rfl⟩
    by_cases hij : i = j
    · exact ⟨congrArg some hij, hnone⟩
    · have hj' : s.calls[j]? = some (.dialing caller') := by
        rw [← hj]
        exact (getElem?_set_ne hij).symm
      exact absurd hj' (hdial.not_dialing hlock j caller')

theorem dial_keeps (hold : s.calls[i]? = some (.dialing caller)) (ok : Bool) :
    let s' := if ok then dialed s i caller else { s with lock := none }.setCall i .ended
    Dialing s' ∧ Owned s' := by
  have hothers : ∀ {j caller'}, j ≠ i ∧ s.calls[j]? = some (.dialing caller') → False :=
    fun hj => hj.1 (hdial.eq_of_dialing hold hj.2)
  cases ok with
  | true =>
    refine ⟨fun j caller' hj => ?_, owned_dialed howned (hdial i caller hold).2 hold⟩
    cases caller <;>
      exact (hothers (dialing_of_setCall (s := s) (by rintro _ ⟨⟩) hj)).elim
  | false =>
    refine ⟨fun j caller' hj => ?_, ?_⟩
    · exact (hothers (dialing_of_setCall (s := s) (by rintro _ ⟨⟩) hj)).elim
    · exact Owned.setCall (s := s) howned (.dialing caller) hold fun _ => rfl

/-- **The step lemma**: every open connection stays owned exactly if the step meets the
condition. -/
theorem owned_step (hstep : s.step e = some s') :
    Dialing s' ∧ (Owned s' ↔ s.keeps e = true) := by
  -- a step that is no end of a `close` call
  have hkeeps : ∀ {t : NatsClient} {b : Bool}, b = true → Dialing t ∧ Owned t →
      Dialing t ∧ (Owned t ↔ b = true) := fun hb ht => ⟨ht.1, iff_of_true ht.2 hb⟩
  cases e with
  | connect =>
    cases hstep
    exact hkeeps rfl (startConnect_keeps hdial howned .connect)
  | jetstream =>
    cases hstep
    exact hkeeps rfl (startJetstream_keeps hdial howned)
  | close =>
    simp only [NatsClient.step] at hstep
    split at hstep <;> cases hstep <;>
      exact hkeeps rfl
        ⟨hdial.of_calls rfl id (dialing_of_addCall (by rintro _ ⟨⟩)), howned.addCall _⟩
  | acquire i =>
    simp only [NatsClient.step] at hstep
    split at hstep
    · rename_i caller hold
      split at hstep
      · rename_i hlock
        cases hstep
        exact hkeeps rfl (locked_keeps hdial howned hlock hold)
      · cases hstep
    · cases hstep
  | dial i ok =>
    simp only [NatsClient.step] at hstep
    split at hstep
    · rename_i caller hold
      cases hstep
      exact hkeeps rfl (dial_keeps hdial howned hold ok)
    · cases hstep
  | drain i outcome =>
    simp only [NatsClient.step] at hstep
    split at hstep
    · rename_i c hold
      cases hstep
      refine ⟨dialing_afterDrain hdial i c outcome, ?_⟩
      have hholds : ∀ c', (ClientCall.draining c).holds c' = true → c' = c :=
        fun c' hc' => (holds_draining.mp hc').symm
      simp only [NatsClient.keeps, hold]
      cases outcome with
      | drained => exact owned_endClose true howned hold hholds
      | raised => exact owned_endClose false howned hold hholds
      | timedOut => exact owned_timedOut howned hold
    · cases hstep
  | closeDone i ok =>
    simp only [NatsClient.step] at hstep
    split at hstep
    · rename_i c hold
      cases hstep
      have hholds : ∀ c', (ClientCall.closing c).holds c' = true → c' = c :=
        fun c' hc' => (holds_closing.mp hc').symm
      simp only [NatsClient.keeps, hold]
      refine ⟨?_, owned_endClose ok howned hold hholds⟩
      cases ok with
      | true => exact (hdial.closeConnection c).endClose i
      | false => exact hdial.endClose i
    · cases hstep
  | connectionCloses c =>
    cases hstep
    exact hkeeps rfl ⟨hdial.closeConnection c, howned.closeConnection c⟩

/-! ### Whole runs -/

/-- **The run lemma**: connections stay owned throughout exactly if every step meets the
condition. -/
theorem owned_run {es : List ClientEvent} (hrun : run NatsClient.step s es = some s') :
    (∀ done s₁, done <+: es → run NatsClient.step s done = some s₁ → Owned s₁) ↔
      StepsMeet NatsClient.step (fun s e => s.keeps e = true) s es := by
  refine throughout_iff (I := fun s => Dialing s ∧ Owned s) (P := Owned) (fun h => h.2) ?_ ?_
    ⟨hdial, howned⟩ (stepsMeet_true s es) hrun
  · intro s e s' h _ hok hstep
    obtain ⟨hdial', howned'⟩ := owned_step h.1 h.2 hstep
    exact ⟨hdial', howned'.mpr hok⟩
  · intro s e s' h _ hnot hstep howned'
    exact hnot ((owned_step h.1 h.2 hstep).2.mp howned')

end

theorem held_of_quiet (h : s.quiet = true) (c : ℕ) : s.held c = false := by
  rw [NatsClient.held, any_eq_false]
  intro call hcall
  rw [beq_iff_eq.mp (all_eq_true.mp h call hcall)]
  exact Bool.false_ne_true

end

/-- **No connection is left behind**: each open connection is referenced or in the hands of a
`close` call, in every state, exactly if every `close` call that ended met the condition; and then,
once no call is running, all but the referenced one are closed. -/
theorem connections_kept_iff (es : List ClientEvent) (s : NatsClient)
    (hrun : run NatsClient.step .initial es = some s) :
    ((∀ done s₁, done <+: es → run NatsClient.step .initial done = some s₁ → Owned s₁) ↔
      StepsMeet NatsClient.step (fun s e => s.keeps e = true) .initial es) ∧
    (StepsMeet NatsClient.step (fun s e => s.keeps e = true) .initial es → s.quiet = true →
      ∀ c < s.closed.length, s.isClosed c = true ∨ s.connection = some c) := by
  have hdial : Dialing .initial := by
    intro i caller hi
    cases hi
  have howned : Owned .initial := by
    intro c hopen
    cases hopen
  have hiff := owned_run hdial howned hrun
  refine ⟨hiff, fun hmeets hquiet c hc => ?_⟩
  have hs : Owned s := hiff.mpr hmeets es s prefix_rfl hrun
  cases hclosed : s.isClosed c with
  | true => exact .inl rfl
  | false =>
    have hopen : s.isOpen c = true := by
      rw [NatsClient.isOpen, getElem?_eq_getElem hc, beq_iff_eq]
      rw [NatsClient.isClosed, getD_eq_getElem?_getD, getElem?_eq_getElem hc] at hclosed
      exact congrArg some hclosed
    refine .inr ((hs c hopen).resolve_right fun hheld => ?_)
    rw [held_of_quiet hquiet c] at hheld
    cases hheld

/-- Two `close` calls overlap, and the client connects again once both have ended. -/
theorem connections_kept_iff_closed_twice :
    ∃ s, run NatsClient.step .initial
        [.connect, .acquire 0, .dial 0 true, .close, .close, .drain 1 .drained, .drain 2 .raised,
          .connect, .acquire 3, .dial 3 true, .close, .drain 4 .timedOut, .closeDone 4 true] =
          some s ∧ s.quiet = true ∧
      ∀ c < s.closed.length, s.isClosed c = true ∨ s.connection = some c := by
  have hsome : (run NatsClient.step .initial
      [.connect, .acquire 0, .dial 0 true, .close, .close, .drain 1 .drained, .drain 2 .raised,
        .connect, .acquire 3, .dial 3 true, .close, .drain 4 .timedOut,
        .closeDone 4 true]).any NatsClient.quiet = true := by decide
  obtain ⟨s, hs, hquiet⟩ := (Option.any_eq_true _ _).mp hsome
  exact ⟨s, hs, hquiet, (connections_kept_iff _ s hs).2 (by decide) hquiet⟩

/-- **A leaked connection**: `drain` raises while the connection is reconnecting, and the client
forgets a connection that is open. -/
theorem drain_raises_leaks :
    ∃ s, run NatsClient.step .initial
        [.connect, .acquire 0, .dial 0 true, .close, .drain 1 .raised] = some s ∧
      s.quiet = true ∧ s.isOpen 0 = true ∧ s.connection = none :=
  ⟨_, rfl, rfl, rfl, rfl⟩

end ServiceToolkit.Nats
