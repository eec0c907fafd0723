import ServiceToolkit.Handlers

/-!
# The Four Paths of a Wrapped Call

`Handlers` says how one wrapped call ends. This module follows the call itself, item by
item, through the code path that `wrap` picks for it: `asyncStream`, `asyncSingle`,
`syncStream` or `syncSingle`.

## Bodies

A `Body` is one call of a behaviour as a sequence of **events** followed by its outcome:
what it sends and what it does to its context (`Act`), and, for the reader of the trace
only, which hooks ran and which wrap ended the call with a status. A wrapper runs the body
of the handler it replaces inside a `try`: every event passes through it (`guarded`), and
on the way a wrapper of a plain function notes each code set on its `_SyncContext`. The
`except` and `finally` clauses follow at the end (`exceptAsync`, `exceptSync`).

`context.abort` raises on an asynchronous context. On the synchronous context of a plain
function it sends the status and returns, so there it is an event and the function runs on.
The hooks and `on_error` are total functions; a client that gives up in the middle of a
stream is not modelled.
-/

namespace ServiceToolkit.Rpc

open List

variable {σ α β ε : Type*}

/-! ### Calls -/

/-- What a servicer does before it ends: the items it yields or writes with
`context.write`, the codes and details it sets, and aborts that do not raise. -/
inductive Act (β : Type*)
  | yields (item : β)
  | writes (item : β)
  | setCode (code : StatusCode)
  | setDetails (details : String)
  | aborts (code : StatusCode) (details : String)
  deriving DecidableEq

/-- The item an act sends. -/
def Act.item? : Act β → Option β
  | .yields item => some item
  | .writes item => some item
  | _ => none

/-- How a function ends: with a value (or `None`), or on an exception. -/
inductive Ending (β ε : Type*)
  | returned (value : Option β)
  | raised (error : Raised ε)
  deriving DecidableEq

/-- The exception of an outcome. -/
def Ending.failure : Ending β ε → Option (Raised ε)
  | .returned _ => none
  | .raised error => some error

/-- The value of an outcome. -/
def Ending.value : Ending β ε → Option β
  | .returned value => value
  | .raised _ => none

/-- The outcome of a generator: what its function returns goes nowhere. -/
def Ending.dropValue : Ending β ε → Ending β ε
  | .returned _ => .returned none
  | .raised error => .raised error

/-- One event of a call. Wraps are numbered from the servicer outwards. `entered` says whether the
hook left an end hook, `ended` the exception and the code the end hook was told, `act` is what the
caller or the context sees. -/
inductive Event (σ β ε : Type*)
  | served (vars : σ)
  | act (a : Act β)
  | entered (wrap : ℕ) (leftEnd : Bool)
  | translated (wrap : ℕ) (code : StatusCode) (details : String)
  | ended (wrap : ℕ) (failure : Option (Raised ε)) (code : Option StatusCode)

/-- The act of an event. -/
def Event.act? : Event σ β ε → Option (Act β)
  | .act a => some a
  | _ => none

/-- The variables the servicer was entered with. -/
def Event.served? : Event σ β ε → Option σ
  | .served vars => some vars
  | _ => none

/-- The translation of an event: which wrap, and the status. -/
def Event.translated? : Event σ β ε → Option (ℕ × StatusCode × String)
  | .translated wrap code details => some (wrap, code, details)
  | _ => none

/-- A hook call: an enter hook with whether it left an end hook, or an end hook. -/
inductive HookCall
  | entered (wrap : ℕ) (leftEnd : Bool)
  | ended (wrap : ℕ)
  deriving DecidableEq

/-- The hook call of an event. -/
def Event.hook? : Event σ β ε → Option HookCall
  | .entered wrap leftEnd => some (.entered wrap leftEnd)
  | .ended wrap _ _ => some (.ended wrap)
  | _ => none

/-- One call of a behaviour. -/
inductive Body (σ β ε : Type*)
  | emit (event : Event σ β ε) (rest : Body σ β ε)
  | done (outcome : Ending β ε) (vars : σ)

namespace Body

/-- The events of a call, in order. -/
def events : Body σ β ε → List (Event σ β ε)
  | .emit event rest => event :: rest.events
  | .done _ _ => []

/-- How a call ends. -/
def outcome : Body σ β ε → Ending β ε
  | .emit _ rest => rest.outcome
  | .done outcome _ => outcome

/-- The context variables a call leaves. -/
def vars : Body σ β ε → σ
  | .emit _ rest => rest.vars
  | .done _ vars => vars

/-- A call with these events before it. -/
def emitAll (events : List (Event σ β ε)) (body : Body σ β ε) : Body σ β ε :=
  events.foldr .emit body

/-- The acts of a call. -/
def acts (body : Body σ β ε) : List (Act β) := body.events.filterMap Event.act?

/-- What a call sends back: the items of a stream, or the value of a unary call. -/
def delivered (streaming : Bool) (body : Body σ β ε) : List β :=
  if streaming then body.acts.filterMap Act.item? else body.outcome.value.toList

variable (event : Event σ β ε) (rest : Body σ β ε)

@[simp] theorem events_emit :
    (emit event rest).events = event :: rest.events := rfl

@[simp] theorem events_done (outcome : Ending β ε) (vars : σ) :
    (done outcome vars).events = [] := rfl

@[simp] theorem outcome_emit :
    (emit event rest).outcome = rest.outcome := rfl

@[simp] theorem vars_emit :
    (emit event rest).vars = rest.vars := rfl

variable (es : List (Event σ β ε)) (body : Body σ β ε)

@[simp] theorem events_emitAll : (emitAll es body).events = es ++ body.events := by
  induction es with
  | nil => rfl
  | cons e es ih => exact congrArg (e :: ·) ih

@[simp] theorem outcome_emitAll : (emitAll es body).outcome = body.outcome := by
  induction es with
  | nil => rfl
  | cons e es ih => exact ih

@[simp] theorem vars_emitAll : (emitAll es body).vars = body.vars := by
  induction es with
  | nil => rfl
  | cons e es ih => exact ih

/-! ### The loop of a wrapper -/

/-- A wrapper's `try` around a call: each event passes through as it comes, the code the
context shows is kept up to date, and the clauses after the `try` go on from the outcome. -/
def guarded (note : Option StatusCode → Act β → Option StatusCode)
    (after : Option StatusCode → Ending β ε → σ → Body σ β ε) :
    Option StatusCode → Body σ β ε → Body σ β ε
  | seen, .emit (.act a) rest => .emit (.act a) (guarded note after (note seen a) rest)
  | seen, .emit event rest => .emit event (guarded note after seen rest)
  | seen, .done outcome vars => after seen outcome vars

variable (note : Option StatusCode → Act β → Option StatusCode)
  (after : Option StatusCode → Ending β ε → σ → Body σ β ε)

/-- **The whole loop**: the events of the call pass unchanged and in order, and what comes
after them is told the code the acts left on the context. -/
theorem guarded_eq (seen : Option StatusCode) (body : Body σ β ε) : guarded note after seen body =
      emitAll body.events (after (body.acts.foldl note seen) body.outcome body.vars) := by
  induction body generalizing seen with
  | done outcome vars => rfl
  | emit event rest ih =>
    cases event with
    | act a => exact congrArg (emit (.act a)) (ih (note seen a))
    | served vars => exact congrArg (emit (.served vars)) (ih seen)
    | entered wrap leftEnd => exact congrArg (emit (.entered wrap leftEnd)) (ih seen)
    | translated wrap code details =>
      exact congrArg (emit (.translated wrap code details)) (ih seen)
    | ended wrap failure code => exact congrArg (emit (.ended wrap failure code)) (ih seen)

end Body

/-! ### Servicers, handlers and wraps -/

/-- What `inspect` says about a servicer's function. -/
inductive Callable
  | coroutineFunction
  | asyncGenFunction
  | plainFunction
  deriving DecidableEq, Repr

/-- `_is_async`: `iscoroutinefunction(inner) or isasyncgenfunction(inner)`. -/
def Callable.isAsync : Callable → Bool
  | .coroutineFunction => true
  | .asyncGenFunction => true
  | .plainFunction => false

/-- Where grpc runs such a function. -/
def Callable.model (callable : Callable) : ExecutionModel :=
  if callable.isAsync then .async else .plain

/-- A servicer as it is registered: its function answers a call with the acts on the way,
the outcome and the variables it leaves. -/
structure ServicerFunction (σ α β ε : Type*) where
  kind : Kind
  callable : Callable
  codec : Codec α β
  function : σ → α → List (Act β) × Ending β ε × σ

/-- A method handler, with the number of wraps it has around the servicer. -/
structure Method (σ α β ε : Type*) where
  kind : Kind
  callable : Callable
  codec : Codec α β
  wraps : ℕ
  body : σ → α → Body σ β ε

/-- The servicer's own call. -/
def ServicerFunction.call (servicer : ServicerFunction σ α β ε) (vars : σ) (request : α) :
    Body σ β ε :=
  let (acts, outcome, after) := servicer.function vars request
  .emitAll (.served vars :: acts.map .act) (.done outcome after)

/-- The handler a servicer is registered with. -/
def ServicerFunction.method (servicer : ServicerFunction σ α β ε) : Method σ α β ε where
  kind := servicer.kind
  callable := servicer.callable
  codec := servicer.codec
  wraps := 0
  body := servicer.call

theorem ServicerFunction.events_call (servicer : ServicerFunction σ α β ε) (vars : σ)
    (request : α) : (servicer.call vars request).events =
      .served vars :: (servicer.function vars request).1.map .act := by
  simp only [ServicerFunction.call, Body.events_emitAll, Body.events_done, append_nil]

theorem filterMap_map_act {γ : Type*} {f : Event σ β ε → Option γ} (hf : ∀ a, f (.act a) = none)
    (acts : List (Act β)) : (acts.map Event.act).filterMap f = [] := by
  rw [filterMap_map, filterMap_eq_nil_iff]
  exact fun a _ => hf a

theorem ServicerFunction.call_filterMap (servicer : ServicerFunction σ α β ε) (vars : σ)
    (request : α) : (servicer.call vars request).events.filterMap Event.served? = [vars] ∧
      (servicer.call vars request).events.filterMap Event.translated? = [] ∧
      (servicer.call vars request).events.filterMap Event.hook? = [] := by
  rw [servicer.events_call]
  refine ⟨?_, ?_, ?_⟩
  · rw [filterMap_cons, filterMap_map_act (f := Event.served?) fun _ => rfl]
    rfl
  · rw [filterMap_cons, filterMap_map_act (f := Event.translated?) fun _ => rfl]
    rfl
  · rw [filterMap_cons, filterMap_map_act (f := Event.hook?) fun _ => rfl]
    rfl

/-- The arguments of one `wrap`. -/
structure Layer (σ ε : Type*) where
  enter : Option (Enter σ ε)
  onError : Option (OnError ε)

/-- The event of `_start`. -/
def Layer.entry (layer : Layer σ ε) (wrap : ℕ) (vars : σ) : List (Event σ β ε) :=
  match layer.enter with
  | some hook => [.entered wrap (hook vars).2.isSome]
  | none => []

/-- `finally: if end is not None: end(failure)`, and the call ends. -/
def finallyEnd (wrap : ℕ) (finish : Option (EndHook σ ε)) (failure : Option (Raised ε))
    (code : Option StatusCode) (outcome : Ending β ε) (vars : σ) : Body σ β ε :=
  match finish with
  | some hook => .emit (.ended wrap failure code) (.done outcome (hook failure code vars))
  | none => .done outcome vars

/-- `context.code()` of an asynchronous context: set by `set_code` and by `abort`. -/
def noteAsync (seen : Option StatusCode) : Act β → Option StatusCode
  | .setCode code => some code
  | .aborts code _ => some code
  | _ => seen

/-- `_SyncContext.code`: set by `set_code` only, the rest is the underlying context's. -/
def noteSync (seen : Option StatusCode) : Act β → Option StatusCode
  | .setCode code => some code
  | _ => seen

/-- The code an asynchronous context shows once this was raised. -/
def codeRaised (seen : Option StatusCode) : Raised ε → Option StatusCode
  | .abort code _ => some code
  | _ => seen

/-- The clauses after the `try` of an asynchronous wrapper: with a status for the exception
`context.abort` raises, and the end hook hears of the exception itself. -/
def exceptAsync (layer : Layer σ ε) (wrap : ℕ) (finish : Option (EndHook σ ε))
    (seen : Option StatusCode) : Ending β ε → σ → Body σ β ε
  | .returned value, vars => finallyEnd wrap finish none seen (.returned value) vars
  | .raised error, vars =>
    match statusOf layer.onError error with
    | none => finallyEnd wrap finish (some error) (codeRaised seen error) (.raised error) vars
    | some (code, details) =>
      .emit (.translated wrap code details)
        (finallyEnd wrap finish (some error) (some code) (.raised (.abort code details)) vars)

/-- The clauses after the `try` of a plain wrapper: `_end_sync` sets the status and the
function returns `None`; the end hook hears of no exception. -/
def exceptSync (layer : Layer σ ε) (wrap : ℕ) (finish : Option (EndHook σ ε))
    (seen : Option StatusCode) : Ending β ε → σ → Body σ β ε
  | .returned value, vars => finallyEnd wrap finish none seen (.returned value) vars
  | .raised error, vars =>
    match statusOf layer.onError error with
    | none => finallyEnd wrap finish (some error) seen (.raised error) vars
    | some (code, details) =>
      .emitAll [.translated wrap code details, .act (.setCode code), .act (.setDetails details)]
        (finallyEnd wrap finish none (some code) (.returned none) vars)

section Paths

variable (inner : σ → α → Body σ β ε) (layer : Layer σ ε) (wrap : ℕ) (vars : σ) (request : α)

/-- `_async_stream`: items of an async generator are yielded as they come, and a coroutine
that writes with `context.write` is awaited. -/
def asyncStream : Body σ β ε :=
  let started := start layer.enter vars
  .emitAll (layer.entry wrap vars)
    (.guarded noteAsync
      (fun seen outcome => exceptAsync layer wrap started.2 seen outcome.dropValue)
      none (inner started.1 request))

/-- `_async_single`. -/
def asyncSingle : Body σ β ε :=
  let started := start layer.enter vars
  .emitAll (layer.entry wrap vars)
    (.guarded noteAsync (exceptAsync layer wrap started.2) none (inner started.1 request))

/-- `_sync_stream`: `yield from inner(request, context)`. -/
def syncStream : Body σ β ε :=
  let started := start layer.enter vars
  .emitAll (layer.entry wrap vars)
    (.guarded noteSync
      (fun seen outcome => exceptSync layer wrap started.2 seen outcome.dropValue)
      none (inner started.1 request))

/-- `_sync_single`. -/
def syncSingle : Body σ β ε :=
  let started := start layer.enter vars
  .emitAll (layer.entry wrap vars)
    (.guarded noteSync (exceptSync layer wrap started.2) none (inner started.1 request))

end Paths

/-- One call as grpc sees it: the code and details set on the context, its items, its
exception, the variables it leaves and those the servicer was entered with. -/
def Body.run (streaming : Bool) (body : Body σ β ε) : Run σ β ε where
  items := body.delivered streaming
  failure := body.outcome.failure
  status := (body.acts.foldl noteSync none).map fun code =>
    (code, body.acts.foldl (fun seen a => match a with | .setDetails d => d | _ => seen) "")
  vars := body.vars
  entered := body.events.filterMap Event.served?

/-- The handler of `Handlers` that a method is. -/
def Method.handler (method : Method σ α β ε) : Handler σ α β ε where
  kind := method.kind
  model := method.callable.model
  codec := method.codec
  behaviour vars request := (method.body vars request).run method.kind.responseStreaming

/-- `wrap`: the path is picked by what the function is and by the response side. A wrapper
is a coroutine function, an async generator function or a plain one itself. -/
def Method.wrap (method : Method σ α β ε) (layer : Layer σ ε) : Method σ α β ε where
  kind := factory method.handler
  callable :=
    if method.callable.isAsync && method.kind.responseStreaming then .asyncGenFunction
    else if method.callable.isAsync then .coroutineFunction
    else .plainFunction
  codec := method.codec
  wraps := method.wraps + 1
  body :=
    if method.callable.isAsync && method.kind.responseStreaming then
      asyncStream method.body layer method.wraps
    else if method.callable.isAsync then asyncSingle method.body layer method.wraps
    else if method.kind.responseStreaming then syncStream method.body layer method.wraps
    else syncSingle method.body layer method.wraps

/-! ### One wrap

The four paths differ in the context they are given and in whether a value is returned;
`wrap_body` reads all of them as the servicer's events between the enter hook and the
clauses after the `try`. -/

/-- The code a context of this execution model shows after an act. -/
def note : ExecutionModel → Option StatusCode → Act β → Option StatusCode
  | .async => noteAsync
  | .plain => noteSync

/-- The clauses after the `try`, by execution model. -/
def closing (model : ExecutionModel) (layer : Layer σ ε) (wrap : ℕ)
    (finish : Option (EndHook σ ε)) (seen : Option StatusCode) (outcome : Ending β ε) (vars : σ) :
    Body σ β ε :=
  match model with
  | .async => exceptAsync layer wrap finish seen outcome vars
  | .plain => exceptSync layer wrap finish seen outcome vars

/-- What a wrapper has of the outcome of the function it calls: no value in a stream. -/
def Ending.taken (streaming : Bool) (outcome : Ending β ε) : Ending β ε :=
  if streaming then outcome.dropValue else outcome

variable (streaming : Bool) (outcome : Ending β ε)

@[simp] theorem Ending.failure_taken : (outcome.taken streaming).failure = outcome.failure := by
  cases streaming <;> cases outcome <;> rfl

/-- The status a wrap has for an outcome. -/
def Layer.status (layer : Layer σ ε) (outcome : Ending β ε) : Option (StatusCode × String) :=
  outcome.failure.bind (statusOf layer.onError)

/-- **One wrapped call**: the enter hook, the events of the call inside, the clauses. -/
theorem wrap_body (method : Method σ α β ε) (layer : Layer σ ε) (vars : σ) (request : α) :
    (method.wrap layer).body vars request =
      let started := start layer.enter vars
      let inner := method.body started.1 request
      .emitAll (layer.entry method.wraps vars ++ inner.events)
        (closing method.callable.model layer method.wraps started.2
          (inner.acts.foldl (note method.callable.model) none)
          (inner.outcome.taken method.kind.responseStreaming) inner.vars) := by
  have hfold : ∀ (es es' : List (Event σ β ε)) (body : Body σ β ε),
      Body.emitAll (es ++ es') body = .emitAll es (.emitAll es' body) :=
    fun es es' body => foldr_append
  rw [Method.wrap, Callable.model]
  cases method.callable.isAsync <;> cases method.kind.responseStreaming <;>
    simp only [Bool.false_and, Bool.true_and, Bool.false_eq_true, if_false, if_true, asyncStream,
      asyncSingle, syncStream, syncSingle, Body.guarded_eq, hfold, closing, note, Ending.taken]

/-- The code the context shows when nothing was translated: an abort records its own on an
asynchronous one. -/
def shownCode (model : ExecutionModel) (seen : Option StatusCode) :
    Option (Raised ε) → Option StatusCode
  | none => seen
  | some error =>
    match model with
    | .async => codeRaised seen error
    | .plain => seen

/-- What a translation does to the context: `_end_sync` on a plain one. -/
def statusActs : ExecutionModel → Option (StatusCode × String) → List (Act β)
  | .plain, some (code, details) => [.setCode code, .setDetails details]
  | _, _ => []

@[simp] theorem statusActs_none (model : ExecutionModel) :
    (statusActs model none : List (Act β)) = [] := by
  cases model <;> rfl

@[simp] theorem statusActs_async (status : Option (StatusCode × String)) :
    (statusActs .async status : List (Act β)) = [] := rfl

/-- The events of a status: the translation, and what it does to the context. -/
def statusEvents (model : ExecutionModel) (wrap : ℕ) :
    Option (StatusCode × String) → List (Event σ β ε)
  | none => []
  | some (code, details) =>
    .translated wrap code details :: (statusActs model (some (code, details))).map .act

/-- The exception a call ends on when `failure` was translated to a status or was not. -/
def endsOn (failure : Option (Raised ε)) :
    ExecutionModel → Option (StatusCode × String) → Option (Raised ε)
  | _, none => failure
  | .async, some (code, details) => some (.abort code details)
  | .plain, some _ => none

/-- The outcome of a call with that status: without one it stands; with one an asynchronous call
aborts, and a plain one returns. -/
def Ending.closed (outcome : Ending β ε) :
    ExecutionModel → Option (StatusCode × String) → Ending β ε
  | _, none => outcome
  | .async, some (code, details) => .raised (.abort code details)
  | .plain, some _ => .returned none

/-- The exception the end hook hears of: not one that was set on a plain context. -/
def hookFailure (failure : Option (Raised ε)) :
    ExecutionModel → Option (StatusCode × String) → Option (Raised ε)
  | _, none => failure
  | .async, some _ => failure
  | .plain, some _ => none

/-- The code the end hook is told. -/
def hookCode (model : ExecutionModel) (seen : Option StatusCode) (failure : Option (Raised ε)) :
    Option (StatusCode × String) → Option StatusCode
  | none => shownCode model seen failure
  | some (code, _) => some code

/-- **The clauses after the `try`** of all four paths: the events of the status, if there is one,
and the end hook. -/
theorem closing_eq (model : ExecutionModel) (layer : Layer σ ε) (wrap : ℕ)
    (finish : Option (EndHook σ ε)) (seen : Option StatusCode) (outcome : Ending β ε) (vars : σ) :
    closing model layer wrap finish seen outcome vars =
      let status := layer.status outcome
      .emitAll (statusEvents model wrap status)
        (finallyEnd wrap finish (hookFailure outcome.failure model status)
          (hookCode model seen outcome.failure status) (outcome.closed model status) vars) := by
  cases outcome with
  | returned value => cases model <;> rfl
  | raised error =>
    have hstatus : layer.status (.raised error : Ending β ε) = statusOf layer.onError error :=
      rfl
    dsimp only
    rw [hstatus]
    cases model with
    | async =>
      rw [closing, exceptAsync]
      cases statusOf layer.onError error <;> rfl
    | plain =>
      rw [closing, exceptSync]
      cases statusOf layer.onError error <;> rfl

section FinallyEnd

variable (wrap : ℕ) (finish : Option (EndHook σ ε)) (failure : Option (Raised ε))
  (code : Option StatusCode) (outcome : Ending β ε) (vars : σ)

@[simp] theorem outcome_finallyEnd :
    (finallyEnd wrap finish failure code outcome vars).outcome = outcome := by
  cases finish <;> rfl

@[simp] theorem vars_finallyEnd :
    (finallyEnd wrap finish failure code outcome vars).vars =
      match finish with
      | some hook => hook failure code vars
      | none => vars := by
  cases finish <;> rfl

/-- What a projection sees of the last events, if it does not look at what the end hook is
told. -/
theorem filterMap_finallyEnd {γ : Type*} {f : Event σ β ε → Option γ} {e : Option γ}
    (hf : ∀ failure code, f (.ended wrap failure code) = e) :
    (finallyEnd wrap finish failure code outcome vars).events.filterMap f =
      if finish.isSome then e.toList else [] := by
  cases finish with
  | none => rfl
  | some hook =>
    rw [finallyEnd, Body.events_emit, filterMap_cons, hf]
    cases e <;> rfl

end FinallyEnd

@[simp] theorem Layer.status_taken (layer : Layer σ ε) (streaming : Bool)
    (outcome : Ending β ε) : layer.status (outcome.taken streaming) = layer.status outcome := by
  rw [Layer.status, Ending.failure_taken, Layer.status]

theorem Layer.entry_filterMap {γ : Type*} {f : Event σ β ε → Option γ} {wrap : ℕ}
    (layer : Layer σ ε) (vars : σ) (hf : ∀ leftEnd, f (.entered wrap leftEnd) = none) :
    (layer.entry wrap vars).filterMap f = [] := by
  rw [Layer.entry]
  cases layer.enter with
  | none => rfl
  | some hook => rw [filterMap_cons, hf, filterMap_nil]

section Closing

variable (model : ExecutionModel) (layer : Layer σ ε) (wrap : ℕ) (finish : Option (EndHook σ ε))
  (seen : Option StatusCode) (outcome : Ending β ε) (vars : σ)

theorem filterMap_closing {γ : Type*} {f : Event σ β ε → Option γ} {e : Option γ}
    (hf : ∀ failure code, f (.ended wrap failure code) = e) :
    (closing model layer wrap finish seen outcome vars).events.filterMap f =
      (statusEvents model wrap (layer.status outcome)).filterMap f ++
        if finish.isSome then e.toList else [] := by
  rw [closing_eq, Body.events_emitAll, filterMap_append, filterMap_finallyEnd _ _ _ _ _ _ hf]

theorem acts_closing :
    (closing model layer wrap finish seen outcome vars).events.filterMap Event.act? =
      statusActs model (layer.status outcome) := by
  rw [filterMap_closing (e := none) _ _ _ _ _ _ _ fun _ _ => rfl]
  cases layer.status outcome <;> cases model <;> cases finish <;> rfl

theorem served_closing :
    (closing model layer wrap finish seen outcome vars).events.filterMap Event.served? = [] := by
  rw [filterMap_closing (e := none) _ _ _ _ _ _ _ fun _ _ => rfl]
  cases layer.status outcome <;> cases model <;> cases finish <;> rfl

theorem translated_closing :
    (closing model layer wrap finish seen outcome vars).events.filterMap Event.translated? =
      ((layer.status outcome).map (wrap, ·)).toList := by
  rw [filterMap_closing (e := none) _ _ _ _ _ _ _ fun _ _ => rfl]
  cases layer.status outcome <;> cases model <;> cases finish <;> rfl

theorem hooks_closing :
    (closing model layer wrap finish seen outcome vars).events.filterMap Event.hook? =
      if finish.isSome then [.ended wrap] else [] := by
  rw [filterMap_closing (e := some (.ended wrap)) _ _ _ _ _ _ _ fun _ _ => rfl]
  cases layer.status outcome <;> cases model <;> cases finish <;> rfl

theorem failure_closing : (closing model layer wrap finish seen outcome vars).outcome.failure =
      endsOn outcome.failure model (layer.status outcome) := by
  rw [closing_eq, Body.outcome_emitAll, outcome_finallyEnd]
  cases layer.status outcome <;> cases model <;> rfl

theorem value_closing :
    (closing model layer wrap finish seen outcome vars).outcome.value = outcome.value := by
  rw [closing_eq, Body.outcome_emitAll, outcome_finallyEnd]
  cases outcome with
  | returned value => cases model <;> rfl
  | raised error => cases layer.status (.raised error : Ending β ε) <;> cases model <;> rfl

end Closing

/-! ### What one wrap keeps -/

theorem wrap_callable_model (method : Method σ α β ε) (layer : Layer σ ε) :
    (method.wrap layer).callable.model = method.callable.model := by
  rw [Method.wrap, Callable.model, Callable.model]
  cases method.callable.isAsync <;> cases method.kind.responseStreaming <;> rfl

section OneWrap

variable (method : Method σ α β ε) (layer : Layer σ ε) (vars : σ) (request : α)

theorem acts_wrap :
    ((method.wrap layer).body vars request).acts =
      let inner := method.body (start layer.enter vars).1 request
      inner.acts ++ statusActs method.callable.model (layer.status inner.outcome) := by
  simp only [Body.acts, wrap_body, Body.events_emitAll, filterMap_append,
    layer.entry_filterMap (f := Event.act?) vars fun _ => rfl, nil_append, acts_closing,
    Layer.status_taken]

theorem served_wrap : ((method.wrap layer).body vars request).events.filterMap Event.served? =
      (method.body (start layer.enter vars).1 request).events.filterMap Event.served? := by
  simp only [wrap_body, Body.events_emitAll, filterMap_append,
    layer.entry_filterMap (f := Event.served?) vars fun _ => rfl, nil_append, served_closing,
    append_nil]

theorem translated_wrap :
    ((method.wrap layer).body vars request).events.filterMap Event.translated? =
      let inner := method.body (start layer.enter vars).1 request
      inner.events.filterMap Event.translated? ++
        ((layer.status inner.outcome).map (method.wraps, ·)).toList := by
  simp only [wrap_body, Body.events_emitAll, filterMap_append,
    layer.entry_filterMap (f := Event.translated?) vars fun _ => rfl, nil_append,
    translated_closing, Layer.status_taken]

theorem hooks_wrap : ((method.wrap layer).body vars request).events.filterMap Event.hook? =
      (layer.entry method.wraps vars : List (Event σ β ε)).filterMap Event.hook? ++
        (method.body (start layer.enter vars).1 request).events.filterMap Event.hook? ++
        if (start layer.enter vars).2.isSome then [.ended method.wraps] else [] := by
  simp only [wrap_body, Body.events_emitAll, filterMap_append, hooks_closing]

theorem failure_wrap :
    ((method.wrap layer).body vars request).outcome.failure =
      let inner := (method.body (start layer.enter vars).1 request).outcome
      endsOn inner.failure method.callable.model (layer.status inner) := by
  simp only [wrap_body, Body.outcome_emitAll, failure_closing, Ending.failure_taken,
    Layer.status_taken]

theorem value_wrap (hunary : method.kind.responseStreaming = false) :
    ((method.wrap layer).body vars request).outcome.value =
      (method.body (start layer.enter vars).1 request).outcome.value := by
  simp only [wrap_body, Body.outcome_emitAll, value_closing, hunary, Ending.taken,
    Bool.false_eq_true, if_false]

theorem statusActs_items (model : ExecutionModel) (status : Option (StatusCode × String)) :
    (statusActs model status : List (Act β)).filterMap Act.item? = [] := by
  cases model <;> cases status <;> rfl

theorem delivered_wrap :
    ((method.wrap layer).body vars request).delivered method.kind.responseStreaming =
      (method.body (start layer.enter vars).1 request).delivered
        method.kind.responseStreaming := by
  rw [Body.delivered, Body.delivered]
  cases hkind : method.kind.responseStreaming with
  | true =>
    rw [if_pos rfl, if_pos rfl, acts_wrap]
    rw [filterMap_append, statusActs_items, append_nil]
  | false =>
    have hfalse : ¬ (false = true) := Bool.false_ne_true
    rw [if_neg hfalse, if_neg hfalse, value_wrap _ _ _ _ hkind]

end OneWrap

/-! ### As the handlers of `Handlers`

A method whose aborts end its calls, on the event loop, and that does not abort on the
thread pool is a handler of `Handlers`, and its wraps are the wraps of that module. -/

/-- No abort is passed over, and a plain function does not end on one. -/
def Method.CleanAborts (method : Method σ α β ε) : Prop :=
  ∀ vars request,
    (∀ a ∈ (method.body vars request).acts, ∀ code details, a ≠ .aborts code details) ∧
    (method.callable.model = .plain → ∀ code details,
      (method.body vars request).outcome.failure ≠ some (.abort code details))

theorem foldl_note_eq {acts : List (Act β)}
    (hclean : ∀ a ∈ acts, ∀ code details, a ≠ .aborts code details) (model : ExecutionModel)
    (seen : Option StatusCode) : acts.foldl (note model) seen = acts.foldl noteSync seen := by
  cases model with
  | plain => rfl
  | async =>
    refine foldl_ext _ _ _ fun shown a ha => ?_
    cases a with
    | aborts code details => exact absurd rfl (hclean _ ha code details)
    | _ => rfl

theorem Body.run_status_code (body : Body σ β ε) :
    (body.run streaming).status.map Prod.fst = body.acts.foldl noteSync none := by
  rw [Body.run, Option.map_map]
  exact Option.map_id' ..

variable {method : Method σ α β ε}

theorem shownCode_eq_recorded (hclean : method.CleanAborts) (vars : σ)
    (request : α) (streaming : Bool) :
    let body := method.body vars request
    shownCode method.callable.model (body.acts.foldl (note method.callable.model) none)
        body.outcome.failure = (body.run streaming).toReply.recorded := by
  obtain ⟨hacts, hplain⟩ := hclean vars request
  have hrun : ((method.body vars request).run streaming).failure =
      (method.body vars request).outcome.failure := rfl
  dsimp only
  rw [foldl_note_eq hacts, Reply.recorded, Body.run_status_code, hrun]
  cases hfailure : (method.body vars request).outcome.failure with
  | none => rfl
  | some error =>
    cases hmodel : method.callable.model with
    | async => cases error <;> rfl
    | plain =>
      cases error with
      | abort code details => exact absurd hfailure (hplain hmodel code details)
      | _ => rfl

theorem Body.run_status_congr {body inner : Body σ β ε} (h : body.acts = inner.acts) :
    (body.run streaming).status = (inner.run streaming).status := by
  simp only [Body.run, h]

theorem Body.run_status_statusActs {body inner : Body σ β ε} {code : StatusCode} {details : String}
    (h : body.acts = inner.acts ++ [.setCode code, .setDetails details]) :
    (body.run streaming).status = some (code, details) := by
  simp only [Body.run, h, foldl_append, foldl_cons, foldl_nil, noteSync, Option.map_some]

/-- The variables a wrapped call leaves: those of the call inside, as the end hook changes
them. -/
theorem vars_wrap (method : Method σ α β ε) (layer : Layer σ ε) (vars : σ) (request : α) :
    ((method.wrap layer).body vars request).vars =
      let inner := method.body (start layer.enter vars).1 request
      let model := method.callable.model
      let status := layer.status inner.outcome
      match (start layer.enter vars).2 with
      | some hook =>
        hook (hookFailure inner.outcome.failure model status)
          (hookCode model (inner.acts.foldl (note model) none) inner.outcome.failure status)
          inner.vars
      | none => inner.vars := by
  simp only [wrap_body, closing_eq, Body.vars_emitAll, vars_finallyEnd, Ending.failure_taken,
    Layer.status_taken]

theorem Run.eq_of_fields {r r' : Run σ β ε} (hitems : r.items = r'.items)
    (hfailure : r.failure = r'.failure) (hstatus : r.status = r'.status)
    (hvars : r.vars = r'.vars) (hentered : r.entered = r'.entered) : r = r' := by
  obtain ⟨⟨items, failure, status⟩, vars, entered⟩ := r
  obtain ⟨⟨items', failure', status'⟩, vars', entered'⟩ := r'
  dsimp only at hitems hfailure hstatus hvars hentered
  rw [hitems, hfailure, hstatus, hvars, hentered]

/-- **A wrapped method** is the wrapped handler of `Handlers`. -/
theorem handler_wrap (hclean : method.CleanAborts) (layer : Layer σ ε) :
    (method.wrap layer).handler = Rpc.wrap method.handler layer.enter layer.onError := by
  have hkind : (method.wrap layer).kind = method.kind := factory_eq _
  rw [Method.handler, Rpc.wrap, rebuild, hkind, wrap_callable_model, factory_eq]
  congr 1
  funext vars request
  have hshown := shownCode_eq_recorded hclean (start layer.enter vars).1 request
    method.kind.responseStreaming
  have hvars := vars_wrap method layer vars request
  have hfailure := failure_wrap method layer vars request
  have hacts := acts_wrap method layer vars request
  have hitems := delivered_wrap method layer vars request
  have hserved := served_wrap method layer vars request
  dsimp only at hshown hvars hfailure hacts
  have hbind : ((method.body (start layer.enter vars).1 request).run
      method.kind.responseStreaming).failure.bind (statusOf layer.onError) =
      layer.status (method.body (start layer.enter vars).1 request).outcome := rfl
  dsimp only [Method.handler, conclude]
  rw [hbind]
  cases hstatus : layer.status (method.body (start layer.enter vars).1 request).outcome with
  | none =>
    rw [hstatus] at hvars hfailure hacts
    rw [statusActs_none, append_nil] at hacts
    refine Run.eq_of_fields hitems hfailure (Body.run_status_congr _ hacts) (hvars.trans ?_) hserved
    simp only [hookFailure, hookCode, hshown]
    rfl
  | some status =>
    obtain ⟨code, details⟩ := status
    rw [hstatus] at hvars hfailure hacts
    cases hmodel : method.callable.model with
    | async =>
      rw [hmodel] at hvars hfailure hacts
      rw [statusActs_async, append_nil] at hacts
      exact Run.eq_of_fields hitems hfailure (Body.run_status_congr _ hacts) hvars hserved
    | plain =>
      rw [hmodel] at hvars hfailure hacts
      exact Run.eq_of_fields hitems hfailure (Body.run_status_statusActs _ hacts) hvars hserved

/-- Wrapping adds no abort of its own to a plain call, and none that is passed over. -/
theorem Method.CleanAborts.wrap (hclean : method.CleanAborts)
    (layer : Layer σ ε) : (method.wrap layer).CleanAborts := by
  intro vars request
  obtain ⟨hinner, hplain⟩ := hclean (start layer.enter vars).1 request
  refine ⟨fun a ha code details heq => ?_, fun hmodel code details hfailure => ?_⟩
  · rw [acts_wrap] at ha
    rcases mem_append.mp ha with ha | ha
    · exact hinner a ha code details heq
    · subst heq
      cases hstatus : layer.status (method.body (start layer.enter vars).1 request).outcome <;>
        cases hmodel : method.callable.model <;> simp [hstatus, hmodel, statusActs] at ha
  · rw [wrap_callable_model] at hmodel
    rw [failure_wrap] at hfailure
    dsimp only at hfailure
    rw [hmodel] at hfailure
    cases hstatus : layer.status (method.body (start layer.enter vars).1 request).outcome with
    | none =>
      rw [hstatus] at hfailure
      exact hplain hmodel code details hfailure
    | some status =>
      rw [hstatus] at hfailure
      cases hfailure

end ServiceToolkit.Rpc
