import ServiceToolkit.NatsClient

/-!
# The Event Bus and its Connections

`BaseEventBus` owns one `NATSClient` at a time. `start` makes a new client, connects it, ensures
the stream and only then puts it into `self._client`; if any of that raises, it closes whatever
`self._client` holds. `stop` closes the client and drops it.

Calls come one after the other. What the settings, the server and the connection answer is part of
a call: `NATSSettings.from_env`, `connect`, `ensure_stream` and `close` may each succeed or raise.
Between calls nats-py may close a connection for good, and `_publish` may be called, which
reconnects the client. All connections that the bus opened are numbered in the order they were
opened.

A connection is lost when no client of the bus references it and nobody closed it. `start` loses
the new connection if `ensure_stream` raises, and an old one that it replaces; and it closes a
working client when it fails.
-/

namespace ServiceToolkit.Bus

open Nats (NatsClient ClientEvent Drain)

/-! ### The client, one call at a time -/

/-- A `NATSClient`: the connection it references. -/
structure Client where
  connection : Option ℕ
  deriving DecidableEq

/-- `NATSClient.__init__`. -/
def Client.new : Client := ⟨none⟩

/-- `_usable`, given which connections are closed. -/
def Client.usable (client : Client) (closed : List Bool) : Option ℕ :=
  client.connection.filter fun c => !closed.getD c false

/-- `NATSClient.connect`: the client and the connections after it, or `none` if the dial raises. -/
def Client.connect (client : Client) (closed : List Bool) (dials : Bool) :
    Option (Client × List Bool) :=
  match client.usable closed with
  | some _ => some (client, closed)
  | none => if dials then some (⟨some closed.length⟩, closed ++ [false]) else none

/-- How `NATSClient.close` goes: the drain ends, times out, after which the connection's `close`
may raise, or raises. -/
inductive Closing
  | drained
  | timedOut (closes : Bool)
  | raised
  deriving DecidableEq

/-- The exception comes out of `NATSClient.close`. -/
def Closing.raises : Closing → Bool
  | .drained => false
  | .timedOut closes => !closes
  | .raised => true

/-- `NATSClient.close`: whether it raises, the client and the connections after it. -/
def Client.close (client : Client) (closed : List Bool) (closing : Closing) :
    Bool × Client × List Bool :=
  match client.connection with
  | none => (false, client, closed)
  | some c => (closing.raises, ⟨none⟩, if closing.raises then closed else closed.set c true)

/-- The client while no call is running on it. -/
def Client.alone (client : Client) (jetstream : Option ℕ) (closed : List Bool) : NatsClient :=
  ⟨client.connection, jetstream, none, closed, [], []⟩

/-- The events of a `connect` call that nothing interleaves with. -/
def Client.connectEvents (client : Client) (closed : List Bool) (dials : Bool) :
    List ClientEvent :=
  match client.usable closed with
  | some _ => [.connect]
  | none => [.connect, .acquire 0, .dial 0 dials]

/-- The events of a `close` call that nothing interleaves with. -/
def Client.closeEvents (client : Client) (closing : Closing) : List ClientEvent :=
  match client.connection, closing with
  | none, _ => [.close]
  | some _, .drained => [.close, .drain 0 .drained]
  | some _, .timedOut closes => [.close, .drain 0 .timedOut, .closeDone 0 closes]
  | some _, .raised => [.close, .drain 0 .raised]

/-- **A `connect` call** is a run of the client's model: it ends, with the connection and the
connections that `Client.connect` says, or with those from before. -/
theorem connect_run (client : Client) (jetstream : Option ℕ) (closed : List Bool) (dials : Bool) :
    ∃ s, run NatsClient.step (client.alone jetstream closed)
        (client.connectEvents closed dials) = some s ∧ s.calls = [.ended] ∧
      (Client.mk s.connection, s.closed) =
        (client.connect closed dials).getD (client, closed) := by
  have husable : (client.alone jetstream closed).usable = client.usable closed := rfl
  rw [Client.connectEvents, Client.connect]
  cases h : client.usable closed with
  | some c =>
    refine ⟨(client.alone jetstream closed).addCall .ended, ?_, rfl, rfl⟩
    simp only [run_cons, NatsClient.step, Nats.startConnect, husable, h, Option.bind_some]
    rfl
  | none =>
    let waiting := (client.alone jetstream closed).addCall (.locking .connect)
    let dialing := { waiting with lock := some 0 }.setCall 0 (.dialing .connect)
    have hconnect : (client.alone jetstream closed).step .connect = some waiting := by
      rw [NatsClient.step, Nats.startConnect, husable, h]
    have hacquire : waiting.step (.acquire 0) = some dialing := by
      have husable : waiting.usable = none := h
      change some (Nats.locked waiting 0 .connect) = some dialing
      rw [Nats.locked, husable]
    simp only [run_cons, hconnect, hacquire, Option.bind_some]
    cases dials with
    | true | false => exact ⟨_, rfl, rfl, rfl⟩

/-- **A `close` call** is a run of the client's model. -/
theorem close_run (client : Client) (jetstream : Option ℕ) (closed : List Bool)
    (closing : Closing) :
    ∃ s, run NatsClient.step (client.alone jetstream closed) (client.closeEvents closing) = some s ∧
      s.calls = [.ended] ∧
      (Client.mk s.connection, s.closed) = (client.close closed closing).2 := by
  obtain ⟨connection⟩ := client
  cases connection with
  | none => exact ⟨_, rfl, rfl, rfl⟩
  | some c =>
    cases closing with
    | drained | raised => exact ⟨_, rfl, rfl, rfl⟩
    | timedOut closes => cases closes <;> exact ⟨_, rfl, rfl, rfl⟩

/-! ### The bus -/

/-- The bus: `self._client`, and which of the connections it opened are closed. -/
structure EventBus where
  client : Option Client
  closed : List Bool
  deriving DecidableEq

/-- `BaseEventBus.__init__`. -/
def EventBus.initial : EventBus := ⟨none, []⟩

/-- What the `try` block of `start` meets: whether `NATSSettings.from_env` returns, the dial
succeeds and `ensure_stream` returns. -/
structure Startup where
  configured : Bool
  dials : Bool
  ensures : Bool
  deriving DecidableEq

/-- The new client gets its connection. -/
def Startup.connects (startup : Startup) : Bool := startup.configured && startup.dials

/-- The `try` block of `start`: the client, unless something raised, and the connections. The client
is new, so that `ensure_stream` dials no other. -/
def Startup.attempt (startup : Startup) (closed : List Bool) : Option Client × List Bool :=
  if startup.configured then
    match Client.new.connect closed startup.dials with
    | none => (none, closed)
    | some (client, closed) => (if startup.ensures then some client else none, closed)
  else (none, closed)

/-- The `except` block of `start`: the client is closed, and dropped unless that raises. -/
def EventBus.abandon (s : EventBus) (closing : Closing) : Bool × EventBus :=
  match s.client with
  | none => (false, s)
  | some client =>
    match client.close s.closed closing with
    | (true, client, closed) => (true, ⟨some client, closed⟩)
    | (false, _, closed) => (false, ⟨none, closed⟩)

/-- `start`: whether an exception comes out of it, and the bus after it. -/
def EventBus.start (enabled : Bool) (s : EventBus) (startup : Startup) (closing : Closing) :
    Bool × EventBus :=
  if enabled then
    match startup.attempt s.closed with
    | (some client, closed) => (false, ⟨some client, closed⟩)
    | (none, closed) => { s with closed := closed }.abandon closing
  else (false, s)

/-- `stop`. -/
def EventBus.stop (s : EventBus) (closing : Closing) : Bool × EventBus :=
  match s.client with
  | none => (false, s)
  | some client =>
    match client.close s.closed closing with
    | (raised, _, closed) => (raised, ⟨none, closed⟩)

/-- `_publish`: the client connects again if its connection is closed. No exception comes out. -/
def EventBus.publish (enabled : Bool) (s : EventBus) (dials : Bool) : Bool × EventBus :=
  match s.client with
  | none => (false, s)
  | some client =>
    match if enabled then client.connect s.closed dials else none with
    | none => (false, s)
    | some (client, closed) => (false, ⟨some client, closed⟩)

/-- A call, or a connection that closes by itself. -/
inductive Call
  | start (startup : Startup) (closing : Closing)
  | stop (closing : Closing)
  | publish (dials : Bool)
  | connectionCloses (connection : ℕ)
  deriving DecidableEq

/-- One call: whether it raises, and the bus after it. -/
def step (enabled : Bool) (s : EventBus) : Call → Bool × EventBus
  | .start startup closing => s.start enabled startup closing
  | .stop closing => s.stop closing
  | .publish dials => s.publish enabled dials
  | .connectionCloses c => (false, { s with closed := s.closed.set c true })

/-! ### What the bus promises -/

/-- The connection was opened and is not closed. -/
def EventBus.isOpen (s : EventBus) (c : ℕ) : Bool := s.closed[c]? == some false

/-- The connection behind `self._client`. -/
def EventBus.behind (s : EventBus) : Option ℕ := s.client.bind Client.connection

/-- There is a client, and its connection is open. -/
def EventBus.working (s : EventBus) : Bool := s.behind.any s.isOpen

/-- **No connection is lost**: each is the one behind `self._client` or closed. -/
def Kept (s : EventBus) : Prop := ∀ c, s.isOpen c = true → s.behind = some c

/-- The call is a `start` that fails. -/
def Call.failedStart (enabled : Bool) : Call → Bool
  | .start startup _ => enabled && !(startup.connects && startup.ensures)
  | _ => false

/-- **All or nothing**: no connection is lost by the call, and if it is a `start` that fails, a
client that was working is in place and open. -/
def AllOrNothing (enabled : Bool) (s : EventBus) (call : Call) : Prop :=
  Kept (step enabled s call).2 ∧
    (call.failedStart enabled = true → s.working = true →
      (step enabled s call).2.client = s.client ∧ (step enabled s call).2.working = true)

/-- **The condition on a call**: `start` is not called on a working client, and does not fail in
`ensure_stream`; `stop` closes the connection of a working client. -/
def orderly (enabled : Bool) (s : EventBus) : Call → Bool
  | .start startup _ => !enabled || !s.working && !(startup.connects && !startup.ensures)
  | .stop closing => !s.working || !closing.raises
  | .publish _ | .connectionCloses _ => true

/-! ### One call -/

/-- No connection is lost, and the client's connection is one that was opened. -/
structure Sound (s : EventBus) : Prop where
  kept : Kept s
  opened : ∀ c, s.behind = some c → c < s.closed.length

section

variable {enabled : Bool} {s : EventBus} {startup : Startup} {closing : Closing}

theorem working_iff : s.working = true ↔ ∃ c, s.behind = some c ∧ s.isOpen c = true := by
  rw [EventBus.working, Option.any_eq_true]

theorem Sound.none_open (h : Sound s) (hworking : ¬ s.working = true) (c : ℕ) :
    ¬ s.isOpen c = true := by
  intro hopen
  exact hworking (working_iff.mpr ⟨c, h.kept c hopen, hopen⟩)

theorem isOpen_set_iff {client : Option Client} {closed : List Bool} {c d : ℕ} :
    (EventBus.mk client (closed.set c true)).isOpen d = true ↔
      d ≠ c ∧ closed[d]? = some false := by
  rw [EventBus.isOpen, beq_iff_eq, List.getElem?_set]
  grind

theorem isOpen_concat_iff {client : Option Client} {closed : List Bool} {d : ℕ} :
    (EventBus.mk client (closed ++ [false])).isOpen d = true ↔
      d = closed.length ∨ closed[d]? = some false := by
  rw [EventBus.isOpen, beq_iff_eq]
  grind

theorem attempt_eq (startup : Startup) (closed : List Bool) :
    startup.attempt closed =
      if startup.connects then
        (if startup.ensures then some ⟨some closed.length⟩ else none, closed ++ [false])
      else (none, closed) := by
  obtain ⟨configured, dials, ensures⟩ := startup
  cases configured <;> cases dials <;> rfl

theorem abandon_spec (s : EventBus) (closing : Closing) :
    (s.abandon closing).2.behind = none ∧
      ((s.abandon closing).2.closed = s.closed ∨
        ∃ c, s.behind = some c ∧ (s.abandon closing).2.closed = s.closed.set c true) := by
  obtain ⟨_ | ⟨_ | c⟩, closed⟩ := s
  · exact ⟨rfl, .inl rfl⟩
  · exact ⟨rfl, .inl rfl⟩
  · cases h : closing.raises with
    | true | false => simp [EventBus.abandon, Client.close, EventBus.behind, h]

theorem stop_eq (s : EventBus) (closing : Closing) :
    (s.stop closing).2 =
      ⟨none, match s.behind with
        | none => s.closed
        | some c => if closing.raises then s.closed else s.closed.set c true⟩ := by
  obtain ⟨_ | ⟨_ | c⟩, closed⟩ := s <;> rfl

/-- A `start` that succeeds replaces the client; an open connection of the old one is lost. -/
theorem started_iff (h : Sound s) (hready : startup.connects = true)
    (hensures : startup.ensures = true) :
    AllOrNothing true s (.start startup closing) ↔ ¬ s.working = true := by
  have hstep : (step true s (.start startup closing)).2 =
      ⟨some ⟨some s.closed.length⟩, s.closed ++ [false]⟩ := by
    simp [step, EventBus.start, attempt_eq, hready, hensures]
  have hnot : ¬ (Call.start startup closing).failedStart true = true := by
    simp [Call.failedStart, hready, hensures]
  rw [AllOrNothing, hstep, and_iff_left fun hfailed => absurd hfailed hnot]
  constructor
  · intro hkept hworking
    obtain ⟨c, hbehind, hopen⟩ := working_iff.mp hworking
    have hlt := h.opened c hbehind
    have hlength := hkept c (isOpen_concat_iff.mpr (.inr (beq_iff_eq.mp hopen)))
    exact Nat.ne_of_lt hlt (Option.some.inj hlength).symm
  · intro hworking c hopen
    rcases isOpen_concat_iff.mp hopen with rfl | hopen
    · rfl
    · exact absurd (beq_iff_eq.mpr hopen) (h.none_open hworking c)

theorem failedEnsure_not (h : Sound s) (hready : startup.connects = true)
    (hensures : startup.ensures = false) : ¬ AllOrNothing true s (.start startup closing) := by
  have hstep : (step true s (.start startup closing)).2 =
      ({ s with closed := s.closed ++ [false] }.abandon closing).2 := by
    simp [step, EventBus.start, attempt_eq, hready, hensures]
  obtain ⟨hbehind, hclosed⟩ := abandon_spec { s with closed := s.closed ++ [false] } closing
  rintro ⟨hkept, -⟩
  rw [hstep] at hkept
  have hopen : ({ s with closed := s.closed ++ [false] }.abandon closing).2.isOpen
      s.closed.length = true := by
    rw [EventBus.isOpen, beq_iff_eq]
    rcases hclosed with hclosed | ⟨c, hc, hclosed⟩
    · rw [hclosed]
      exact List.getElem?_concat_length
    · have hlt := h.opened c hc
      rw [hclosed, List.getElem?_set_ne (Nat.ne_of_lt hlt)]
      exact List.getElem?_concat_length
  rw [hkept _ hopen] at hbehind
  cases hbehind

theorem unconnected_iff (h : Sound s) (hready : startup.connects = false) :
    AllOrNothing true s (.start startup closing) ↔ ¬ s.working = true := by
  have hstep : (step true s (.start startup closing)).2 = (s.abandon closing).2 := by
    simp [step, EventBus.start, attempt_eq, hready]
  have hfailed : (Call.start startup closing).failedStart true = true := by
    simp [Call.failedStart, hready]
  obtain ⟨hbehind, hclosed⟩ := abandon_spec s closing
  rw [AllOrNothing, hstep]
  constructor
  · rintro ⟨-, hplace⟩ hworking
    have hworking' := (hplace hfailed hworking).2
    rw [EventBus.working, hbehind] at hworking'
    cases hworking'
  · intro hworking
    refine ⟨fun c hopen => absurd ?_ (h.none_open hworking c), fun _ hw => absurd hw hworking⟩
    rcases hclosed with hclosed | ⟨d, -, hclosed⟩
    · rwa [EventBus.isOpen, hclosed] at hopen
    · have hset : (EventBus.mk s.client (s.closed.set d true)).isOpen c = true := by
        rwa [EventBus.isOpen, hclosed] at hopen
      exact beq_iff_eq.mpr (isOpen_set_iff.mp hset).2

theorem stop_iff (h : Sound s) :
    AllOrNothing enabled s (.stop closing) ↔ orderly enabled s (.stop closing) = true := by
  have hnot : ¬ (Call.stop closing).failedStart enabled = true := Bool.false_ne_true
  rw [AllOrNothing, and_iff_left fun hfailed => absurd hfailed hnot, step, stop_eq]
  by_cases hworking : s.working = true
  · obtain ⟨c, hbehind, hopen⟩ := working_iff.mp hworking
    cases hraises : closing.raises with
    | true =>
      refine iff_of_false (fun hkept => ?_) (by simp [orderly, hworking, hraises])
      simp only [hbehind, if_true] at hkept
      cases hkept c hopen
    | false =>
      refine iff_of_true (fun d hd => ?_) (by simp [orderly, hraises])
      simp only [hbehind] at hd
      obtain ⟨hne, hd⟩ := isOpen_set_iff.mp hd
      have hd := h.kept d (beq_iff_eq.mpr hd)
      exact absurd (Option.some.inj (hd.symm.trans hbehind)) hne
  · refine iff_of_true (fun d hd => absurd ?_ (h.none_open hworking d))
      (by simp [orderly, hworking])
    split at hd
    · exact hd
    · split at hd
      · exact hd
      · exact beq_iff_eq.mpr (isOpen_set_iff.mp hd).2

theorem kept_connect (h : Sound s) {client client' : Client} {closed : List Bool} {dials : Bool}
    (hclient : s.client = some client)
    (hconnect : client.connect s.closed dials = some (client', closed)) :
    Sound ⟨some client', closed⟩ := by
  rw [Client.connect] at hconnect
  split at hconnect
  · cases hconnect
    rw [← hclient]
    exact h
  · rename_i husable
    split at hconnect
    · cases hconnect
      refine ⟨fun c hopen => ?_, ?_⟩
      · rcases isOpen_concat_iff.mp hopen with rfl | hopen
        · rfl
        · have hbehind := h.kept c (beq_iff_eq.mpr hopen)
          rw [EventBus.behind, hclient, Option.bind_some] at hbehind
          simp [Client.usable, hbehind, hopen] at husable
      · rintro c ⟨⟩
        simp
    · cases hconnect

theorem sound_publish (h : Sound s) (dials : Bool) : Sound (s.publish enabled dials).2 := by
  unfold EventBus.publish
  split
  · exact h
  · rename_i client hclient
    split
    · exact h
    · rename_i client' closed hconnect
      split at hconnect
      · exact kept_connect h hclient hconnect
      · cases hconnect

theorem allOrNothing_iff (h : Sound s) (call : Call) :
    AllOrNothing enabled s call ↔ orderly enabled s call = true := by
  cases call with
  | start startup closing =>
    cases enabled with
    | false => exact iff_of_true ⟨h.kept, fun hfailed => absurd hfailed Bool.false_ne_true⟩ rfl
    | true =>
      cases hready : startup.connects with
      | false =>
        rw [unconnected_iff h hready]
        simp [orderly, hready]
      | true =>
        cases hensures : startup.ensures with
        | false =>
          refine iff_of_false (failedEnsure_not h hready hensures) ?_
          simp [orderly, hready, hensures]
        | true =>
          rw [started_iff h hready hensures]
          simp [orderly, hensures]
  | stop closing => exact stop_iff h
  | publish dials =>
    exact iff_of_true
      ⟨(sound_publish h dials).kept, fun hfailed => absurd hfailed Bool.false_ne_true⟩ rfl
  | connectionCloses c =>
    refine iff_of_true ⟨fun d hd => ?_, fun hfailed => absurd hfailed Bool.false_ne_true⟩ rfl
    exact h.kept d (beq_iff_eq.mpr (isOpen_set_iff.mp hd).2)

/-- An orderly call keeps the bus sound. -/
theorem sound_step (h : Sound s) {call : Call} (hok : orderly enabled s call = true) :
    Sound (step enabled s call).2 := by
  refine ⟨((allOrNothing_iff h call).mpr hok).1, ?_⟩
  cases call with
  | start startup closing =>
    rw [step, EventBus.start]
    split
    · split
      · rename_i client closed hattempt
        rw [attempt_eq] at hattempt
        split at hattempt
        · split at hattempt
          · obtain ⟨hclient, rfl⟩ := Prod.mk.inj hattempt
            cases hclient
            rintro c ⟨⟩
            simp
          · cases hattempt
        · cases hattempt
      · rename_i closed hattempt
        intro c hc
        rw [(abandon_spec ..).1] at hc
        cases hc
    · exact h.opened
  | stop closing =>
    rw [step, stop_eq]
    rintro c ⟨⟩
  | publish dials => exact (sound_publish h dials).opened
  | connectionCloses c =>
    intro d hd
    rw [step, List.length_set]
    exact h.opened d hd

end

/-- **`start` is all-or-nothing and no connection is lost**, call by call, exactly if each call
meets the condition in the state it comes in. -/
theorem start_all_or_nothing_iff (enabled : Bool) (calls : List Call) :
    (∀ done call, done ++ [call] <+: calls →
        AllOrNothing enabled (after (step enabled) .initial done) call) ↔
      ∀ done call, done ++ [call] <+: calls →
        orderly enabled (after (step enabled) .initial done) call = true := by
  have hinitial : Sound .initial := by
    constructor
    · intro c hopen
      simp [EventBus.isOpen, EventBus.initial] at hopen
    · rintro c ⟨⟩
  exact each_call_iff hinitial (fun h hok => sound_step h hok) (fun h => allOrNothing_iff h _)

/-- The stream cannot be ensured: `start` has failed, and the connection it opened stays open. A
second `start` that fails to connect takes a working client away. -/
theorem failedEnsure_loses_connection :
    (step true .initial (.start ⟨true, true, false⟩ .drained)).2 = ⟨none, [false]⟩ ∧
      ¬ AllOrNothing true .initial (.start ⟨true, true, false⟩ .drained) ∧
      after (step true) .initial [.start ⟨true, true, true⟩ .drained] = ⟨some ⟨some 0⟩, [false]⟩ ∧
      after (step true) .initial
        [.start ⟨true, true, true⟩ .drained, .start ⟨true, false, false⟩ .drained] =
          ⟨none, [true]⟩ := by
  refine ⟨rfl, ?_, rfl, rfl⟩
  rintro ⟨hkept, -⟩
  cases hkept 0 rfl

end ServiceToolkit.Bus
