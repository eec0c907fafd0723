import Mathlib.Data.Int.Notation
import Mathlib.Data.List.Infix
import Mathlib.Tactic.Common

/-!
# Method Handlers and Their Wrapping

A server interceptor that runs something around a servicer replaces its handler. A
**handler** has a kind (unary or streaming on each side), an execution model (a coroutine
or async generator on the event loop, or a plain function or generator on the thread
pool), a codec and a behaviour; `rebuild` keeps the kind and the codec around another
behaviour, and `wrap` runs hooks around the behaviour in the execution model it finds.

## Calls

A behaviour is a function of the **context variables** it starts with (`Vars`, or any
other type `σ`) and the request, or the stream of requests. Its `Run` is everything that
can be told from outside about one call:

* `items` — what was sent back, in order: the items of a stream, or the value of a unary
  call (`[]` when it returned `None` or raised);
* `failure` — the exception it ended on, if any; `context.abort` raises one;
* `status` — the code and details recorded on the context with `set_code` and
  `set_details`;
* `vars` — the context variables afterwards;
* `entered` — the context variables at each entry of the servicer's own function. A
  behaviour that refuses a call leaves it empty; `serving` is the only one that fills it.
-/

namespace ServiceToolkit.Rpc

/-- `grpc.StatusCode`. -/
inductive StatusCode
  | ok
  | cancelled
  | unknown
  | invalidArgument
  | deadlineExceeded
  | notFound
  | alreadyExists
  | permissionDenied
  | resourceExhausted
  | failedPrecondition
  | aborted
  | outOfRange
  | unimplemented
  | internal
  | unavailable
  | dataLoss
  | unauthenticated
  deriving DecidableEq, Repr

/-- What a behaviour can raise: the `AbortError` of `context.abort`, an exception of the
servicer's (or of code it was given), or one the interpreter raises in the interceptors
themselves. -/
inductive Raised (ε : Type*)
  | abort (code : StatusCode) (details : String)
  | user (error : ε)
  | typeError
  | keyError
  | unicodeDecodeError
  deriving DecidableEq

/-- How a call went, as grpc sees it. -/
structure Reply (β ε : Type*) where
  items : List β
  failure : Option (Raised ε)
  status : Option (StatusCode × String)
  deriving DecidableEq

/-- One call of a behaviour. -/
structure Run (σ β ε : Type*) extends Reply β ε where
  vars : σ
  entered : List σ

/-- The call never entered the servicer and was aborted with this status. -/
def Run.Refused {σ β ε : Type*} (run : Run σ β ε) (code : StatusCode) (details : String) : Prop :=
  run.entered = [] ∧ run.failure = some (.abort code details)

/-- The status code a call ends with: an abort's own; for another exception the code set
on the context, if it is an error, and else `UNKNOWN`; for a normal end the code set on
the context, or `OK`. -/
def Reply.code {β ε : Type*} (r : Reply β ε) : StatusCode :=
  match r.failure with
  | some (.abort code _) => code
  | some _ => ((r.status.map Prod.fst).filter (· ≠ .ok)).getD .unknown
  | none => (r.status.map Prod.fst).getD .ok

/-- Unary or streaming, on the request and on the response side. -/
inductive Kind
  | unaryUnary
  | unaryStream
  | streamUnary
  | streamStream
  deriving DecidableEq, Repr

/-- `handler.request_streaming`. -/
def Kind.requestStreaming : Kind → Bool
  | .streamUnary | .streamStream => true
  | .unaryUnary | .unaryStream => false

/-- `handler.response_streaming`. -/
def Kind.responseStreaming : Kind → Bool
  | .unaryStream | .streamStream => true
  | .unaryUnary | .streamUnary => false

/-- Where grpc runs a behaviour: a coroutine or async generator on the event loop, a plain
function or generator on the thread pool. -/
inductive ExecutionModel
  | async
  | plain
  deriving DecidableEq, Repr

/-- How requests are read and responses written; each side may be left to grpc. -/
structure Codec (α β : Type*) where
  requestDeserializer : Option (List UInt8 → α)
  responseSerializer : Option (β → List UInt8)

/-- An RPC method handler. -/
structure Handler (σ α β ε : Type*) where
  kind : Kind
  model : ExecutionModel
  codec : Codec α β
  behaviour : σ → α → Run σ β ε

variable {σ α β ε : Type*}

/-- A servicer's own function as a behaviour: each call records the variables it was
entered with. -/
def serving (servicer : σ → α → Reply β ε × σ) (vars : σ) (request : α) : Run σ β ε :=
  let (reply, after) := servicer vars request
  { reply with vars := after, entered := [vars] }

/-- The kind whose constructor `factory` picks, from the two streaming flags. -/
def factory (handler : Handler σ α β ε) : Kind :=
  if handler.kind.requestStreaming && handler.kind.responseStreaming then .streamStream
  else if handler.kind.requestStreaming then .streamUnary
  else if handler.kind.responseStreaming then .unaryStream
  else .unaryUnary

variable (handler : Handler σ α β ε)

@[simp] theorem factory_eq : factory handler = handler.kind := by
  unfold factory
  cases handler.kind <;> rfl

/-- A handler of the same kind and codec around another behaviour, which brings its own
execution model. -/
def rebuild (handler : Handler σ α β ε) (model : ExecutionModel)
    (newBehaviour : σ → α → Run σ β ε) : Handler σ α β ε where
  kind := factory handler
  model := model
  codec := handler.codec
  behaviour := newBehaviour

variable (model : ExecutionModel)

@[simp] theorem rebuild_kind
    (b : σ → α → Run σ β ε) : (rebuild handler model b).kind = handler.kind :=
  factory_eq handler

@[simp] theorem rebuild_codec
    (b : σ → α → Run σ β ε) : (rebuild handler model b).codec = handler.codec := rfl

@[simp] theorem rebuild_behaviour
    (b : σ → α → Run σ β ε) : (rebuild handler model b).behaviour = b := rfl

/-! ### Wrapping -/

/-- What an enter hook leaves to be called when the servicer ends: with the exception it
ended on, if any, and the code recorded on the context by then. -/
abbrev EndHook (σ ε : Type*) := Option (Raised ε) → Option StatusCode → σ → σ

/-- Called as the servicer starts; returns the changed variables and the end hook. -/
abbrev Enter (σ ε : Type*) := σ → σ × Option (EndHook σ ε)

/-- Asked about an exception the servicer raised: the status to end the call with, or
`none` to let it propagate unchanged. -/
abbrev OnError (ε : Type*) := Raised ε → Option (StatusCode × String)

/-- `_start`: nothing happens when there is no enter hook. -/
def start (enter : Option (Enter σ ε)) (vars : σ) : σ × Option (EndHook σ ε) :=
  match enter with
  | some hook => hook vars
  | none => (vars, none)

/-- `_status`: an abort the servicer raised is never judged again. -/
def statusOf (onError : Option (OnError ε)) (error : Raised ε) : Option (StatusCode × String) :=
  match onError, error with
  | none, _ => none
  | _, .abort _ _ => none
  | some judge, error => judge error

/-- How a wrapped call ends, and the exception the end hook is told about. A coroutine or async
generator aborts with the status, and the hook hears the servicer's exception; a plain servicer's
status is set on the context, the call returns, and the hook hears of none. -/
def conclude (model : ExecutionModel) (onError : Option (OnError ε)) (reply : Reply β ε) :
    Reply β ε × Option (Raised ε) :=
  match reply.failure.bind (statusOf onError), model with
  | none, _ => (reply, reply.failure)
  | some (code, details), .async =>
    ({ reply with failure := some (.abort code details) }, reply.failure)
  | some status, .plain => ({ reply with failure := none, status := some status }, none)

/-- The code recorded on the context when a call has ended so: an abort records its own. -/
def Reply.recorded (reply : Reply β ε) : Option StatusCode :=
  match reply.failure with
  | some (.abort code _) => some code
  | _ => reply.status.map Prod.fst

/-- The handler with `enter` around each call and `onError` on a failure. -/
def wrap (handler : Handler σ α β ε) (enter : Option (Enter σ ε))
    (onError : Option (OnError ε)) : Handler σ α β ε :=
  rebuild handler handler.model fun vars request =>
    let (started, finish) := start enter vars
    let inner := handler.behaviour started request
    let (reply, failure) := conclude handler.model onError inner.toReply
    { reply with
      vars := match finish with
        | some hook => hook failure reply.recorded inner.vars
        | none => inner.vars
      entered := inner.entered }

variable (enter : Option (Enter σ ε)) (onError : Option (OnError ε))

@[simp] theorem wrap_kind : (wrap handler enter onError).kind = handler.kind :=
  rebuild_kind ..

@[simp] theorem wrap_model : (wrap handler enter onError).model = handler.model := rfl

@[simp] theorem wrap_codec : (wrap handler enter onError).codec = handler.codec := rfl

theorem conclude_none (reply : Reply β ε) :
    conclude model none reply = (reply, reply.failure) := by
  have hstatus : reply.failure.bind (statusOf none) = none := by
    cases reply.failure <;> rfl
  simp only [conclude, hstatus]

/-- **A wrapped call** without error translation is the servicer's own call, started with
the variables the enter hook set, and the end hook sees what it leaves. -/
theorem wrap_enter (hook : Enter σ ε) (vars : σ) (request : α) :
    (wrap handler (some hook) none).behaviour vars request =
      let inner := handler.behaviour (hook vars).1 request
      { inner with
        vars := match (hook vars).2 with
          | some finish => finish inner.failure inner.toReply.recorded inner.vars
          | none => inner.vars } := by
  simp only [wrap, rebuild_behaviour, start, conclude_none]

/-! ### What interceptors share -/

/-- `"grpc.health" in method or "grpc.reflection" in method`. -/
def isSystemMethod (method : String) : Bool :=
  decide ("grpc.health".toList <:+: method.toList) ||
    decide ("grpc.reflection".toList <:+: method.toList)

/-- The context variables of a call that the interceptors bind: the caller admitted for it,
the verified payload of its user token, and the user a bot acts for. -/
structure Vars (π : Type*) where
  currentCaller : Option String
  currentJwtPayload : Option π
  currentOnBehalf : Option ℤ
  deriving DecidableEq

end ServiceToolkit.Rpc
