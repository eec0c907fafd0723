import ServiceToolkit.Runs

/-!
# The NATS Client's Connection

`NATSClient` keeps two caches: `_connection`, which `connect` establishes and replaces once it is
closed, and `_jetstream`, the JetStream context that `jetstream` binds to the connection. nats-py
closes a connection for good when its reconnect attempts are exhausted, whatever the client
does.

Any number of `connect`, `jetstream` and `close` calls run on one client. A call runs from one
await to the next: while it waits for the lock, while it dials under the lock, while a connection
drains or closes. Waiting for a lock that is free is an event of its own; the model allows other
steps in between. Connections are numbered in the order they were established, and a context is
the number of its connection. `handed` records each value `jetstream` returned, with the state of
the client at that moment.

A context is always bound to the current connection (`Bound`). But a cached context is returned
without a look at its connection, so once that is closed, `jetstream` alone returns the dead
context for good (`jetstream_dead_for_good`). **Contexts are alive exactly if `jetstream` is never
called while the context it has cached is of a closed connection** (`jetstream_contexts_live_iff`).
-/

namespace ServiceToolkit.Nats

open Option

/-! ### The client -/

/-- The method a call of `connect` was made by. -/
inductive Caller
  | connect
  | jetstream
  deriving DecidableEq

/-- Where a call is: at the lock, dialing under it, draining a connection, closing it after the
drain timed out, or ended. -/
inductive ClientCall
  | locking (caller : Caller)
  | dialing (caller : Caller)
  | draining (connection : ℕ)
  | closing (connection : ℕ)
  | ended
  deriving DecidableEq

/-- A context that `jetstream` returned, the client's connection at that moment, and whether the
context's connection was closed. -/
structure Handed where
  context : ℕ
  connection : Option ℕ
  closed : Bool
  deriving DecidableEq

/-- The client: `_connection`, `_jetstream`, the lock's holder, which connections are closed, the
calls, and what `jetstream` returned. -/
structure NatsClient where
  connection : Option ℕ
  jetstream : Option ℕ
  lock : Option ℕ
  closed : List Bool
  calls : List ClientCall
  handed : List Handed
  deriving DecidableEq

/-- `__init__`. -/
def NatsClient.initial : NatsClient := ⟨none, none, none, [], [], []⟩

/-- `is_closed`. -/
def NatsClient.isClosed (s : NatsClient) (c : ℕ) : Bool := s.closed.getD c false

/-- `_usable`. -/
def NatsClient.usable (s : NatsClient) : Option ℕ := s.connection.filter fun c => !s.isClosed c

def NatsClient.addCall (s : NatsClient) (call : ClientCall) : NatsClient :=
  { s with calls := s.calls ++ [call] }

def NatsClient.setCall (s : NatsClient) (i : ℕ) (call : ClientCall) : NatsClient :=
  { s with calls := s.calls.set i call }

/-- `jetstream` returns a context. -/
def NatsClient.hand (s : NatsClient) (context : ℕ) : NatsClient :=
  { s with handed := s.handed ++ [⟨context, s.connection, s.isClosed context⟩] }

/-- `connect` returns a connection to its caller; `jetstream` binds its context to it. -/
def NatsClient.connected (s : NatsClient) (c : ℕ) : Caller → NatsClient
  | .connect => s
  | .jetstream => { s with jetstream := some c }.hand c

/-- `connect` as far as its first await. -/
def startConnect (s : NatsClient) (caller : Caller) : NatsClient :=
  match s.usable with
  | some c => (s.connected c caller).addCall .ended
  | none => s.addCall (.locking caller)

/-- `jetstream` as far as its first await. -/
def startJetstream (s : NatsClient) : NatsClient :=
  match s.jetstream with
  | some context => (s.hand context).addCall .ended
  | none => startConnect s .jetstream

/-- `connect` once it has the lock: the second check, or the dial. -/
def locked (s : NatsClient) (i : ℕ) (caller : Caller) : NatsClient :=
  match s.usable with
  | some c => (s.connected c caller).setCall i .ended
  | none => { s with lock := some i }.setCall i (.dialing caller)

/-- The dial succeeded: a new connection, and no context of it yet. -/
def dialed (s : NatsClient) (i : ℕ) (caller : Caller) : NatsClient :=
  ({ s with
    connection := some s.closed.length
    jetstream := none
    lock := none
    closed := s.closed ++ [false] }.connected s.closed.length caller).setCall i .ended

/-- A connection closes. -/
def NatsClient.closeConnection (s : NatsClient) (c : ℕ) : NatsClient :=
  { s with closed := s.closed.set c true }

/-- The `finally` of `close`. -/
def endClose (s : NatsClient) (i : ℕ) : NatsClient :=
  { s with connection := none, jetstream := none }.setCall i .ended

/-- How draining ended. -/
inductive Drain
  | drained
  | timedOut
  | raised
  deriving DecidableEq

/-- `close` after the drain of connection `c`. A timeout closes the connection the client has by
then; it may have none. -/
def afterDrain (s : NatsClient) (i c : ℕ) : Drain → NatsClient
  | .drained => endClose (s.closeConnection c) i
  | .raised => endClose s i
  | .timedOut =>
    match s.connection with
    | some c' => s.setCall i (.closing c')
    | none => endClose s i

/-- What can happen next. -/
inductive ClientEvent
  | connect
  | jetstream
  | close
  | acquire (call : ℕ)
  | dial (call : ℕ) (ok : Bool)
  | drain (call : ℕ) (outcome : Drain)
  | closeDone (call : ℕ) (ok : Bool)
  | connectionCloses (connection : ℕ)
  deriving DecidableEq

/-- One event of the loop. -/
def NatsClient.step (s : NatsClient) : ClientEvent → Option NatsClient
  | .connect => some (startConnect s .connect)
  | .jetstream => some (startJetstream s)
  | .close =>
    match s.connection with
    | some c => some (s.addCall (.draining c))
    | none => some (s.addCall .ended)
  | .acquire i =>
    match s.calls[i]? with
    | some (.locking caller) => if s.lock = none then some (locked s i caller) else none
    | _ => none
  | .dial i ok =>
    match s.calls[i]? with
    | some (.dialing caller) =>
      some (if ok then dialed s i caller else { s with lock := none }.setCall i .ended)
    | _ => none
  | .drain i outcome =>
    match s.calls[i]? with
    | some (.draining c) => some (afterDrain s i c outcome)
    | _ => none
  | .closeDone i ok =>
    match s.calls[i]? with
    | some (.closing c) => some (endClose (if ok then s.closeConnection c else s) i)
    | _ => none
  | .connectionCloses c => some (s.closeConnection c)

/-- **The condition on a step**: `jetstream` is not called while it has cached a context whose
connection is closed. -/
def NatsClient.contextOpen (s : NatsClient) : ClientEvent → Bool
  | .jetstream => s.jetstream.all fun c => !s.isClosed c
  | _ => true

/-! ### What one step hands out -/

/-- The context was bound to the client's connection, and that was open. -/
def Handed.Alive (h : Handed) : Prop := h.connection = some h.context ∧ h.closed = false

/-- **The context is bound** to the current connection. -/
def Bound (s : NatsClient) : Prop := ∀ c, s.jetstream = some c → s.connection = some c

/-- What a step does to the record: it stays, or a context is handed out, alive or not. -/
inductive Records (handed handed' : List Handed) (alive : Prop) : Prop
  | same (hhanded : handed' = handed) (halive : alive)
  | hands (h : Handed) (hhanded : handed' = handed ++ [h]) (halive : h.Alive ↔ alive)

theorem Records.of_alive {handed handed' : List Handed} {alive : Prop}
    (h : Records handed handed' True) (halive : alive) : Records handed handed' alive := by
  rwa [eq_true halive]

theorem Records.forall_alive {handed handed' : List Handed} {alive : Prop}
    (h : Records handed handed' alive) :
    (∀ x ∈ handed', x.Alive) ↔ (∀ x ∈ handed, x.Alive) ∧ alive := by
  cases h with
  | same hhanded halive => rw [hhanded, and_iff_left halive]
  | hands x hhanded halive =>
    rw [hhanded, List.forall_mem_append, List.forall_mem_singleton, halive]

section

variable {s s' : NatsClient} {e : ClientEvent} {i c c' : ℕ}

theorem usable_eq_some (h : s.usable = some c) : s.connection = some c ∧ s.isClosed c = false := by
  obtain ⟨hconnection, hopen⟩ := filter_eq_some_iff.mp h
  exact ⟨hconnection, by simpa using hopen⟩

theorem isClosed_iff : s.isClosed c = true ↔ s.closed[c]? = some true := by
  rw [NatsClient.isClosed, List.getD_eq_getElem?_getD]
  cases s.closed[c]? <;> simp

theorem usable_eq_none_iff :
    s.usable = none ↔ ∀ c, s.connection = some c → s.isClosed c = true := by
  simp [NatsClient.usable, filter_eq_none_iff]

theorem isClosed_closeConnection (h : s.isClosed c' = true) :
    (s.closeConnection c).isClosed c' = true := by
  rw [isClosed_iff] at h ⊢
  have hlt := lt_of_getElem? h
  rw [NatsClient.closeConnection, List.getElem?_set]
  split
  · rename_i hsame
    rw [if_pos (hsame ▸ hlt)]
  · exact h

theorem connected_spec (hbound : Bound s) (hconnection : s.connection = some c)
    (hopen : s.isClosed c = false) (caller : Caller) :
    Bound (s.connected c caller) ∧ Records s.handed (s.connected c caller).handed True := by
  cases caller with
  | connect => exact ⟨hbound, .same rfl trivial⟩
  | jetstream =>
    refine ⟨?_, .hands ⟨c, s.connection, s.isClosed c⟩ rfl ?_⟩
    · rintro c' ⟨⟩
      exact hconnection
    · exact iff_of_true ⟨hconnection, hopen⟩ trivial

theorem startConnect_spec (hbound : Bound s) (caller : Caller) :
    Bound (startConnect s caller) ∧ Records s.handed (startConnect s caller).handed True := by
  rw [startConnect]
  split
  · rename_i c husable
    obtain ⟨hconnection, hopen⟩ := usable_eq_some husable
    exact connected_spec hbound hconnection hopen caller
  · exact ⟨hbound, .same rfl trivial⟩

theorem startJetstream_spec (hbound : Bound s) :
    Bound (startJetstream s) ∧
      Records s.handed (startJetstream s).handed (s.contextOpen .jetstream = true) := by
  rw [startJetstream, NatsClient.contextOpen]
  split
  · rename_i context hcontext
    refine ⟨hbound, .hands ⟨context, s.connection, s.isClosed context⟩ rfl ?_⟩
    rw [Handed.Alive, hcontext, all_some, Bool.not_eq_true']
    exact and_iff_right (hbound context hcontext)
  · rename_i hnone
    rw [hnone, all_none, eq_self]
    exact startConnect_spec hbound .jetstream

theorem locked_spec (hbound : Bound s) (i : ℕ) (caller : Caller) :
    Bound (locked s i caller) ∧ Records s.handed (locked s i caller).handed True := by
  rw [locked]
  split
  · rename_i c husable
    obtain ⟨hconnection, hopen⟩ := usable_eq_some husable
    exact connected_spec hbound hconnection hopen caller
  · exact ⟨hbound, .same rfl trivial⟩

theorem dialed_spec (s : NatsClient) (i : ℕ) (caller : Caller) :
    Bound (dialed s i caller) ∧ Records s.handed (dialed s i caller).handed True := by
  let s₁ : NatsClient :=
    { s with
      connection := some s.closed.length
      jetstream := none
      lock := none
      closed := s.closed ++ [false] }
  have hopen : s₁.isClosed s.closed.length = false := by
    simp [NatsClient.isClosed, s₁]
  exact connected_spec (s := s₁) nofun rfl hopen caller

theorem afterDrain_spec (hbound : Bound s) (i c : ℕ) (outcome : Drain) :
    Bound (afterDrain s i c outcome) ∧
      Records s.handed (afterDrain s i c outcome).handed True := by
  cases outcome with
  | drained | raised => exact ⟨nofun, .same rfl trivial⟩
  | timedOut =>
    rw [afterDrain]
    split
    · exact ⟨hbound, .same rfl trivial⟩
    · exact ⟨nofun, .same rfl trivial⟩

/-- **The step lemma**: the context stays bound, and what a step hands out is alive if the cached
context is. -/
theorem bound_step (hbound : Bound s) (hstep : s.step e = some s') :
    Bound s' ∧ Records s.handed s'.handed (s.contextOpen e = true) := by
  cases e with
  | connect =>
    cases hstep
    exact (startConnect_spec hbound .connect).imp_right (·.of_alive rfl)
  | jetstream =>
    cases hstep
    exact startJetstream_spec hbound
  | close =>
    simp only [NatsClient.step] at hstep
    split at hstep <;> cases hstep <;> exact ⟨hbound, .same rfl rfl⟩
  | acquire i =>
    simp only [NatsClient.step] at hstep
    split at hstep
    · split at hstep
      · cases hstep
        exact (locked_spec hbound i _).imp_right (·.of_alive rfl)
      · cases hstep
    · cases hstep
  | dial i ok =>
    simp only [NatsClient.step] at hstep
    split at hstep
    · cases hstep
      cases ok with
      | true => exact (dialed_spec s i _).imp_right (·.of_alive rfl)
      | false => exact ⟨hbound, .same rfl rfl⟩
    · cases hstep
  | drain i outcome =>
    simp only [NatsClient.step] at hstep
    split at hstep
    · cases hstep
      exact (afterDrain_spec hbound i _ outcome).imp_right (·.of_alive rfl)
    · cases hstep
  | closeDone i ok =>
    simp only [NatsClient.step] at hstep
    split at hstep
    · cases hstep
      cases ok <;> exact ⟨nofun, .same rfl rfl⟩
    · cases hstep
  | connectionCloses c =>
    cases hstep
    exact ⟨hbound, .same rfl rfl⟩

/-! ### Whole runs -/

/-- **The run lemma**: what a run hands out is all alive exactly if every step met the
condition. -/
theorem alive_run {es : List ClientEvent} (hbound : Bound s)
    (hrun : run NatsClient.step s es = some s') :
    (∀ h ∈ s'.handed, h.Alive) ↔ (∀ h ∈ s.handed, h.Alive) ∧
      StepsMeet NatsClient.step (fun s e => s.contextOpen e = true) s es := by
  induction es generalizing s with
  | nil =>
    cases hrun
    exact (and_iff_left trivial).symm
  | cons e es ih =>
    obtain ⟨s₁, hstep, hrest⟩ := run_cons_eq_some hrun
    obtain ⟨hbound₁, hrecords⟩ := bound_step hbound hstep
    rw [ih hbound₁ hrest, hrecords.forall_alive, stepsMeet_cons_iff hstep, and_assoc]

/-- **Live contexts**: each context that `jetstream` returned was bound to the client's connection
then, and that open, exactly if `jetstream` was never called with a cached context of a closed one.
-/
theorem jetstream_contexts_live_iff (es : List ClientEvent) (s : NatsClient)
    (hrun : run NatsClient.step .initial es = some s) :
    (∀ h ∈ s.handed, h.connection = some h.context ∧ h.closed = false) ↔
      StepsMeet NatsClient.step (fun s e => s.contextOpen e = true) .initial es :=
  (alive_run (s := .initial) nofun hrun).trans (and_iff_right nofun)

/-- The client has cached a context of its connection, and that is closed. -/
structure Dead (s : NatsClient) (context : ℕ) : Prop where
  connection : s.connection = some context
  jetstream : s.jetstream = some context
  closed : s.isClosed context = true

/-- A dial that succeeds, and the end of a `close`, replace the connection. -/
def ClientEvent.replaces : ClientEvent → Bool
  | .dial _ ok => ok
  | .drain _ outcome => outcome != .timedOut
  | .closeDone .. => true
  | _ => false

theorem dead_step {context : ℕ} (h : Dead s context) (he : e.replaces = false)
    (hstep : s.step e = some s') : Dead s' context ∧ s'.handed =
      s.handed ++ List.replicate ([e].count .jetstream) ⟨context, some context, true⟩ := by
  obtain ⟨hconnection, hjetstream, hclosed⟩ := h
  have husable : s.usable = none :=
    usable_eq_none_iff.mpr fun c hc => some.inj (hconnection.symm.trans hc) ▸ hclosed
  have hsame := (List.append_nil s.handed).symm
  cases e with
  | connect | close =>
    simp only [NatsClient.step, startConnect, husable, hconnection] at hstep
    cases hstep
    exact ⟨⟨hconnection, hjetstream, hclosed⟩, hsame⟩
  | jetstream =>
    rw [NatsClient.step, startJetstream, hjetstream] at hstep
    cases hstep
    refine ⟨⟨hconnection, hjetstream, hclosed⟩, ?_⟩
    change s.handed ++ [⟨context, s.connection, s.isClosed context⟩] = _
    rw [hconnection, hclosed]
    rfl
  | acquire i =>
    simp only [NatsClient.step, locked, husable] at hstep
    split at hstep
    · split at hstep <;> cases hstep
      exact ⟨⟨hconnection, hjetstream, hclosed⟩, hsame⟩
    · cases hstep
  | dial i ok =>
    cases he
    simp only [NatsClient.step] at hstep
    split at hstep <;> cases hstep
    exact ⟨⟨hconnection, hjetstream, hclosed⟩, hsame⟩
  | drain i outcome =>
    cases outcome <;> cases he
    simp only [NatsClient.step, afterDrain, hconnection] at hstep
    split at hstep <;> cases hstep
    exact ⟨⟨hconnection, hjetstream, hclosed⟩, hsame⟩
  | closeDone i ok => cases he
  | connectionCloses c =>
    cases hstep
    exact ⟨⟨hconnection, hjetstream, isClosed_closeConnection hclosed⟩, hsame⟩

/-- **Dead for good**: once the connection of the cached context is closed, every `jetstream` call
returns that context, whatever else happens, until a `connect` succeeds or a `close` ends. -/
theorem jetstream_dead_for_good {before es : List ClientEvent} {context : ℕ}
    (hbefore : run NatsClient.step .initial before = some s)
    (hcontext : s.jetstream = some context) (hclosed : s.isClosed context = true)
    (hkeeps : StepsMeet NatsClient.step (fun _ e => e.replaces = false) s es)
    (hrun : run NatsClient.step s es = some s') :
    s'.handed =
      s.handed ++ List.replicate (es.count .jetstream) ⟨context, some context, true⟩ := by
  have hbound : Bound s :=
    run_invariant (fun h hs => (bound_step h hs).1) (fun _ h => by cases h) hbefore
  have hdead : Dead s context := ⟨hbound context hcontext, hcontext, hclosed⟩
  refine (run_history_where (P := fun es t => Dead t context ∧ t.handed =
    s.handed ++ List.replicate (es.count .jetstream) ⟨context, some context, true⟩)
    (fun {es t e t'} h he hs => ?_) ⟨hdead, (List.append_nil _).symm⟩ hkeeps hrun).2
  obtain ⟨hdead', hhanded⟩ := dead_step h.1 he hs
  refine ⟨hdead', ?_⟩
  rw [hhanded, h.2, List.append_assoc, List.replicate_append_replicate, ← List.count_append]

end

/-- The connection has closed, and a reconnect fails between two restarts of a consumer. -/
theorem jetstream_dead_twice :
    ∃ s s', run NatsClient.step .initial
        [.jetstream, .acquire 0, .dial 0 true, .connectionCloses 0] = some s ∧
      run NatsClient.step s [.jetstream, .connect, .acquire 2, .dial 2 false, .jetstream] =
        some s' ∧
      s'.handed = s.handed ++ List.replicate 2 ⟨0, some 0, true⟩ :=
  ⟨_, _, rfl, rfl, @jetstream_dead_for_good _ _
    [.jetstream, .acquire 0, .dial 0 true, .connectionCloses 0]
    [.jetstream, .connect, .acquire 2, .dial 2 false, .jetstream] 0 rfl rfl rfl (by decide) rfl⟩

/-- A consumer's connection drops and another caller reconnects before the consumer asks for a
context again. -/
theorem jetstream_contexts_live_iff_reconnected :
    ∃ s, run NatsClient.step .initial
        [.jetstream, .acquire 0, .dial 0 true, .connectionCloses 0, .connect, .acquire 1,
          .dial 1 true, .jetstream] = some s ∧
      ∀ h ∈ s.handed, h.connection = some h.context ∧ h.closed = false := by
  have hsome : (run NatsClient.step .initial
      [.jetstream, .acquire 0, .dial 0 true, .connectionCloses 0, .connect, .acquire 1,
        .dial 1 true, .jetstream]).isSome = true := by decide
  obtain ⟨s, hs⟩ := isSome_iff_exists.mp hsome
  exact ⟨s, hs, (jetstream_contexts_live_iff _ s hs).mpr (by decide)⟩

/-- **A dead context**: the connection closes on its own, and the consumer's next two restarts are
handed its context. -/
theorem dead_context_handed :
    ∃ s, run NatsClient.step .initial
        [.jetstream, .acquire 0, .dial 0 true, .connectionCloses 0, .jetstream, .jetstream] =
          some s ∧
      s.handed = [⟨0, some 0, false⟩, ⟨0, some 0, true⟩, ⟨0, some 0, true⟩] :=
  ⟨_, rfl, rfl⟩

end ServiceToolkit.Nats
