import ServiceToolkit.HandlerPaths

/-!
# Nests of Wraps

Several interceptors wrap the same handler, so a call passes through wraps around wraps.
`nest` is a servicer with any list of them around it, and this module says what is left of
the servicer's own call: everything.

Which status a failure ends with is decided by `judged`: the innermost wrap that has one.
From there on an asynchronous call ends on an abort, which no wrap translates, and a plain
call ends normally, so that the wraps further out have nothing to translate.
-/

namespace ServiceToolkit.Rpc

open List Option

variable {σ α β ε : Type*}

/-! ### Nests -/

/-- The servicer with these wraps around it, the outermost first. -/
def nest (servicer : ServicerFunction σ α β ε) : List (Layer σ ε) → Method σ α β ε
  | [] => servicer.method
  | layer :: inner => (nest servicer inner).wrap layer

/-- The variables the servicer is entered with: the enter hooks ran from outside in. -/
def enterAll : List (Layer σ ε) → σ → σ
  | [], vars => vars
  | layer :: inner, vars => enterAll inner (start layer.enter vars).1

/-- The innermost wrap that has a status for an exception, and the status. -/
def judged : List (Layer σ ε) → Raised ε → Option (ℕ × StatusCode × String)
  | [], _ => none
  | layer :: inner, error =>
    (judged inner error).or ((statusOf layer.onError error).map (inner.length, ·))

/-- The hook calls of a nest: an end hook runs after everything inside its own wrap. -/
def hookCalls : List (Layer σ ε) → σ → List HookCall
  | [], _ => []
  | layer :: inner, vars =>
    ((layer.enter.map fun hook => HookCall.entered inner.length (hook vars).2.isSome).toList ++
      hookCalls inner (start layer.enter vars).1) ++
      if (start layer.enter vars).2.isSome then [.ended inner.length] else []

/-- Whether this is the enter hook of a wrap. -/
def HookCall.isEntry (wrap : ℕ) : HookCall → Bool
  | .entered wrap' _ => wrap' = wrap
  | .ended _ => false

section Nest

variable (servicer : ServicerFunction σ α β ε) (layers : List (Layer σ ε))

@[simp] theorem nest_kind : (nest servicer layers).kind = servicer.kind := by
  induction layers with
  | nil => rfl
  | cons layer inner ih =>
    rw [nest, Method.wrap, factory_eq]
    exact ih

@[simp] theorem nest_model : (nest servicer layers).callable.model = servicer.callable.model := by
  induction layers with
  | nil => rfl
  | cons layer inner ih => rw [nest, wrap_callable_model, ih]

@[simp] theorem nest_codec : (nest servicer layers).codec = servicer.codec := by
  induction layers with
  | nil => rfl
  | cons layer inner ih => exact ih

@[simp] theorem nest_wraps : (nest servicer layers).wraps = layers.length := by
  induction layers with
  | nil => rfl
  | cons layer inner ih => exact congrArg (· + 1) ih

theorem bind_endsOn (failure : Option (Raised ε)) (model : ExecutionModel)
    (status : Option (StatusCode × String)) (onError : Option (OnError ε)) :
    (endsOn failure model status).bind (statusOf onError) =
      if status.isSome then none else failure.bind (statusOf onError) := by
  cases status with
  | none => rfl
  | some status =>
    cases model with
    | async => cases onError <;> rfl
    | plain => rfl

/-- The call of the servicer inside a nest. -/
def inside (vars : σ) (request : α) : Body σ β ε := servicer.call (enterAll layers vars) request

variable (vars : σ) (request : α)

/-- The translation of the servicer's exception by the nest. -/
def translation : Option (ℕ × StatusCode × String) :=
  (inside servicer layers vars request).outcome.failure.bind (judged layers)

theorem translation_cons (layer : Layer σ ε) : translation servicer (layer :: layers) vars request =
      (translation servicer layers (start layer.enter vars).1 request).or
        (((inside servicer layers (start layer.enter vars).1 request).outcome.failure.bind
          (statusOf layer.onError)).map (layers.length, ·)) := by
  have hinside : inside servicer (layer :: layers) vars request =
      inside servicer layers (start layer.enter vars).1 request := rfl
  rw [translation, translation, hinside]
  cases (inside servicer layers (start layer.enter vars).1 request).outcome.failure <;> rfl

theorem status_of_endsOn {layer : Layer σ ε} {outcome : Ending β ε} {failure : Option (Raised ε)}
    {model : ExecutionModel} {given : Option (ℕ × StatusCode × String)}
    (h : outcome.failure = endsOn failure model (given.map Prod.snd)) :
    layer.status outcome =
      if given.isSome then none else failure.bind (statusOf layer.onError) := by
  rw [Layer.status, h, bind_endsOn, isSome_map]

theorem endsOn_endsOn (failure : Option (Raised ε)) (model : ExecutionModel)
    (given : Option (ℕ × StatusCode × String)) (status : Option (StatusCode × String)) (wrap : ℕ) :
    endsOn (endsOn failure model (given.map Prod.snd)) model
        (if given.isSome then none else status) =
      endsOn failure model ((given.or (status.map (wrap, ·))).map Prod.snd) := by
  cases given with
  | some _ => rfl
  | none => cases status <;> rfl

@[simp] theorem translation_nil : translation servicer [] vars request = none := by
  rw [translation]
  cases (inside servicer [] vars request).outcome.failure <;> rfl

theorem failure_nest : ((nest servicer layers).body vars request).outcome.failure =
      endsOn (inside servicer layers vars request).outcome.failure servicer.callable.model
        ((translation servicer layers vars request).map Prod.snd) := by
  induction layers generalizing vars with
  | nil =>
    rw [translation_nil]
    rfl
  | cons layer inner ih =>
    have hinner := ih (start layer.enter vars).1
    rw [nest, failure_wrap]
    dsimp only
    rw [nest_model, status_of_endsOn hinner, hinner, translation_cons,
      endsOn_endsOn _ _ _ _ inner.length]
    rfl

theorem status_nest (layer : Layer σ ε) :
    layer.status ((nest servicer layers).body vars request).outcome =
      if (translation servicer layers vars request).isSome then none
      else (inside servicer layers vars request).outcome.failure.bind (statusOf layer.onError) :=
  status_of_endsOn (failure_nest servicer layers vars request)

theorem translated_nest :
    ((nest servicer layers).body vars request).events.filterMap Event.translated? =
      (translation servicer layers vars request).toList := by
  induction layers generalizing vars with
  | nil =>
    rw [translation_nil]
    exact (servicer.call_filterMap vars request).2.1
  | cons layer inner ih =>
    rw [nest, translated_wrap]
    dsimp only
    rw [ih, status_nest, nest_wraps, translation_cons]
    cases translation servicer inner (start layer.enter vars).1 request <;> rfl

/-- What a nested call does to its context: what the servicer does, and then the status. -/
theorem acts_nest : ((nest servicer layers).body vars request).acts =
      (inside servicer layers vars request).acts ++
        statusActs servicer.callable.model
          ((translation servicer layers vars request).map Prod.snd) := by
  induction layers generalizing vars with
  | nil =>
    rw [translation_nil, map_none, statusActs_none, append_nil]
    rfl
  | cons layer inner ih =>
    rw [nest, acts_wrap]
    dsimp only
    rw [ih, status_nest, nest_model, translation_cons, append_assoc]
    congr 1
    cases translation servicer inner (start layer.enter vars).1 request with
    | some given => exact (congrArg _ (statusActs_none _)).trans (append_nil _)
    | none =>
      rw [map_none, statusActs_none, nil_append, isSome_none, none_or, Option.map_map]
      exact congrArg _ (Option.map_id' ..).symm

theorem served_nest : ((nest servicer layers).body vars request).events.filterMap Event.served? =
      [enterAll layers vars] := by
  induction layers generalizing vars with
  | nil => exact (servicer.call_filterMap vars request).1
  | cons layer inner ih => exact (served_wrap ..).trans (ih _)

theorem hooks_nest : ((nest servicer layers).body vars request).events.filterMap Event.hook? =
      hookCalls layers vars := by
  induction layers generalizing vars with
  | nil => exact (servicer.call_filterMap vars request).2.2
  | cons layer inner ih =>
    rw [nest, hooks_wrap, ih, nest_wraps, hookCalls]
    congr 2
    rw [Layer.entry]
    cases layer.enter <;> rfl

theorem delivered_nest :
    ((nest servicer layers).body vars request).delivered servicer.kind.responseStreaming =
      (inside servicer layers vars request).delivered servicer.kind.responseStreaming := by
  induction layers generalizing vars with
  | nil => rfl
  | cons layer inner ih =>
    have hwrap := delivered_wrap (nest servicer inner) layer vars request
    rw [nest_kind] at hwrap
    exact hwrap.trans (ih _)

end Nest

theorem judged_abort (layers : List (Layer σ ε)) (code : StatusCode) (details : String) :
    judged layers (.abort code details) = none := by
  induction layers with
  | nil => rfl
  | cons layer inner ih =>
    have hstatus : statusOf layer.onError (.abort code details) = none := by
      cases layer.onError <;> rfl
    rw [judged, ih, hstatus]
    rfl

/-! ### Each hook once -/

theorem count_ended_hookCalls (layers : List (Layer σ ε)) (vars : σ) (wrap : ℕ) :
    (hookCalls layers vars).count (.ended wrap) =
      (hookCalls layers vars).count (.entered wrap true) := by
  induction layers generalizing vars with
  | nil => rfl
  | cons layer inner ih =>
    rw [hookCalls, count_append, count_append, count_append, count_append, ih]
    cases layer.enter with
    | none => rfl
    | some hook =>
      simp only [start, map_some, toList_some]
      by_cases hleft : (hook vars).2.isSome = true <;>
        by_cases hwrap : inner.length = wrap <;> simp [hleft, hwrap, Nat.add_comm]

theorem countP_isEntry_hookCalls (layers : List (Layer σ ε)) (vars : σ) (wrap : ℕ) :
    (hookCalls layers vars).countP (HookCall.isEntry wrap) =
      if (layers.reverse[wrap]?.bind Layer.enter).isSome then 1 else 0 := by
  induction layers generalizing vars with
  | nil => rfl
  | cons layer inner ih =>
    have hended : (if (start layer.enter vars).2.isSome then [HookCall.ended inner.length]
        else []).countP (HookCall.isEntry wrap) = 0 := by
      split <;> rfl
    rw [hookCalls, countP_append, countP_append, ih, reverse_cons, hended]
    rcases Nat.lt_trichotomy wrap inner.length with hlt | rfl | hgt
    · -- a wrap further in: the new enter hook is another's
      rw [getElem?_append_left (by simpa using hlt)]
      cases layer.enter with
      | none => simp
      | some hook => simp [HookCall.isEntry, hlt.ne']
    · have hnone : inner.reverse[inner.length]? = none := by simp
      rw [hnone, ← length_reverse, getElem?_concat_length, bind_some]
      cases layer.enter with
      | none => simp
      | some hook => simp [HookCall.isEntry]
    · have hnone : (inner.reverse ++ [layer])[wrap]? = none := by
        simpa [Nat.succ_le_iff] using hgt
      have hnone' : inner.reverse[wrap]? = none := by
        simpa using hgt.le
      rw [hnone, hnone']
      cases layer.enter with
      | none => simp
      | some hook => simp [HookCall.isEntry, hgt.ne]

/-! ### Transparency -/

/-- What it means for a nest of wraps to be **transparent** for a call. -/
structure Transparent (servicer : ServicerFunction σ α β ε) (layers : List (Layer σ ε)) (vars : σ)
    (request : α) : Prop where
  /-- The handler is of the servicer's kind. -/
  kind : (nest servicer layers).kind = servicer.kind
  /-- It runs where the servicer runs. -/
  model : (nest servicer layers).callable.model = servicer.callable.model
  /-- It reads and writes as the servicer does. -/
  codec : (nest servicer layers).codec = servicer.codec
  /-- The servicer runs once, with the variables the enter hooks set. -/
  served : ((nest servicer layers).body vars request).events.filterMap Event.served? =
    [enterAll layers vars]
  /-- The items or the value are the servicer's, in order. -/
  delivered : ((nest servicer layers).body vars request).delivered
      servicer.kind.responseStreaming =
    (servicer.call (enterAll layers vars) request).delivered servicer.kind.responseStreaming
  /-- An exception is translated once, by the innermost wrap with a status for it. -/
  translated : ((nest servicer layers).body vars request).events.filterMap Event.translated? =
    ((servicer.call (enterAll layers vars) request).outcome.failure.bind (judged layers)).toList
  /-- The call ends on that status: by an abort, or by setting it and returning. -/
  failure : ((nest servicer layers).body vars request).outcome.failure =
    endsOn (servicer.call (enterAll layers vars) request).outcome.failure servicer.callable.model
      (((servicer.call (enterAll layers vars) request).outcome.failure.bind
        (judged layers)).map Prod.snd)
  /-- The context is left as the servicer left it, up to that status. -/
  acts : ((nest servicer layers).body vars request).acts =
    (servicer.call (enterAll layers vars) request).acts ++
      statusActs servicer.callable.model
        (((servicer.call (enterAll layers vars) request).outcome.failure.bind
          (judged layers)).map Prod.snd)
  /-- An abort is nobody's to translate. -/
  abort : ∀ code details,
    (servicer.call (enterAll layers vars) request).outcome.failure = some (.abort code details) →
    ((nest servicer layers).body vars request).outcome.failure = some (.abort code details) ∧
      ((nest servicer layers).body vars request).events.filterMap Event.translated? = []
  /-- Each wrap's enter hook runs once, if it has one. -/
  entered : ∀ wrap, (((nest servicer layers).body vars request).events.filterMap
      Event.hook?).countP (HookCall.isEntry wrap) =
    if (layers.reverse[wrap]?.bind Layer.enter).isSome then 1 else 0
  /-- Each wrap's end hook runs once for each time its enter hook left one. -/
  ended : ∀ wrap, (((nest servicer layers).body vars request).events.filterMap
      Event.hook?).count (.ended wrap) =
    (((nest servicer layers).body vars request).events.filterMap Event.hook?).count
      (.entered wrap true)

/-- **Wrapping is transparent**: for every servicer, nest of wraps and call. -/
theorem wrapping_transparent (servicer : ServicerFunction σ α β ε) (layers : List (Layer σ ε))
    (vars : σ) (request : α) : Transparent servicer layers vars request where
  kind := nest_kind ..
  model := nest_model ..
  codec := nest_codec ..
  served := served_nest ..
  delivered := delivered_nest ..
  translated := translated_nest ..
  failure := failure_nest ..
  acts := acts_nest ..
  abort code details habort := by
    have hnone : translation servicer layers vars request = none := by
      rw [translation, inside, habort, bind_some, judged_abort]
    have hfailure := failure_nest servicer layers vars request
    have htranslated := translated_nest servicer layers vars request
    rw [hnone] at hfailure htranslated
    exact ⟨hfailure.trans habort, htranslated⟩
  entered wrap := by
    rw [hooks_nest, countP_isEntry_hookCalls]
  ended wrap := by
    rw [hooks_nest, count_ended_hookCalls]

/-! ### The handlers of a nest -/

theorem cleanAborts_nest {servicer : ServicerFunction σ α β ε}
    (hclean : servicer.method.CleanAborts) (layers : List (Layer σ ε)) :
    (nest servicer layers).CleanAborts := by
  induction layers with
  | nil => exact hclean
  | cons layer inner ih => exact ih.wrap layer

/-- **The handler of a nest** is the servicer's handler, wrapped once for each layer. -/
theorem handler_nest {servicer : ServicerFunction σ α β ε} (hclean : servicer.method.CleanAborts)
    (layers : List (Layer σ ε)) : (nest servicer layers).handler =
      layers.foldr (fun layer handler => Rpc.wrap handler layer.enter layer.onError)
        servicer.method.handler := by
  induction layers with
  | nil => rfl
  | cons layer inner ih =>
    rw [nest, handler_wrap (cleanAborts_nest hclean inner), ih, foldr_cons]

/-! ### The interceptors that wrap -/

/-- An interceptor that wraps what the next one found, except for health and reflection. -/
def intercept (layer : Layer σ ε) (name : String) (found : Option (Method σ α β ε)) :
    Option (Method σ α β ε) :=
  if isSystemMethod name then found else found.map (·.wrap layer)

theorem foldr_intercept (servicer : ServicerFunction σ α β ε) (layers : List (Layer σ ε))
    (name : String) :
    layers.foldr (fun layer found => intercept layer name found) (some servicer.method) =
      some (if isSystemMethod name then servicer.method else nest servicer layers) := by
  induction layers with
  | nil => exact congrArg some (ite_self _).symm
  | cons layer inner ih =>
    rw [foldr_cons, ih, intercept]
    split <;> rfl

/-- **A chain of interceptors** finds the servicer's own handler for health and reflection, and for
every other method that handler in one `Rpc.wrap` for each interceptor. -/
theorem handler_intercepted {servicer : ServicerFunction σ α β ε}
    (hclean : servicer.method.CleanAborts) (layers : List (Layer σ ε)) (name : String) :
    (layers.foldr (fun layer found => intercept layer name found) (some servicer.method)).map
        Method.handler =
      some (if isSystemMethod name then servicer.method.handler
        else layers.foldr (fun layer handler => Rpc.wrap handler layer.enter layer.onError)
          servicer.method.handler) := by
  rw [foldr_intercept, map_some, apply_ite Method.handler, handler_nest hclean]

/-- A unary servicer that returns its request. -/
def echo : ServicerFunction ℕ ℕ ℕ ε :=
  ⟨.unaryUnary, .coroutineFunction, ⟨none, none⟩, fun vars n => ([], .returned (some n), vars)⟩

theorem handler_intercepted_echo :
    (intercept ⟨some fun vars => (vars + 1, none), none⟩ "/a.B/C" (some echo.method)).map
        Method.handler =
      some (Rpc.wrap (echo : ServicerFunction ℕ ℕ ℕ String).method.handler
        (some fun vars => (vars + 1, none)) none) := by
  have hclean : (echo : ServicerFunction ℕ ℕ ℕ String).method.CleanAborts := by
    refine fun vars request => ⟨fun a ha => ?_, fun _ code details h => ?_⟩
    · cases ha
    · cases h
  exact (handler_intercepted hclean [⟨some fun vars => (vars + 1, none), none⟩] "/a.B/C").trans
    (congrArg some (if_neg (by decide)))

/-- What the error mapping reads of an exception. -/
structure PyError where
  className : String
  isException : Bool
  statusCode : Option ℤ
  text : String
  deriving DecidableEq

/-- `_ERROR_CLASS_TO_STATUS`. -/
def errorClassToStatus : List (String × StatusCode) :=
  [("ResourceNotFoundError", .notFound), ("InvalidInputError", .invalidArgument),
    ("InvalidFormatError", .invalidArgument), ("AuthRequiredError", .unauthenticated),
    ("AuthInvalidTokenError", .unauthenticated),
    ("AuthPermissionDeniedError", .permissionDenied), ("DuplicateResourceError", .alreadyExists),
    ("RateLimitError", .resourceExhausted), ("NotAuthorizedException", .unauthenticated)]

/-- `_HTTP_STATUS_TO_GRPC`. -/
def httpStatusToGrpc : List (ℤ × StatusCode) :=
  [(400, .invalidArgument), (401, .unauthenticated), (403, .permissionDenied), (404, .notFound),
    (409, .alreadyExists), (422, .invalidArgument), (429, .resourceExhausted),
    (501, .unimplemented), (503, .unavailable), (504, .deadlineExceeded)]

/-- `_grpc_status_for_exception`: by class name, then by the HTTP status it carries. -/
def grpcStatusForException (exc : PyError) : Option StatusCode :=
  (errorClassToStatus.lookup exc.className).or <|
    exc.statusCode.bind fun httpStatus =>
      (httpStatusToGrpc.lookup httpStatus).or <|
        if 400 ≤ httpStatus ∧ httpStatus < 500 then some .invalidArgument
        else if 500 ≤ httpStatus then some .internal
        else none

/-- `_domain_status`: the exceptions the interpreter raises have no entry and no status. -/
def domainStatus : OnError PyError
  | .user error =>
    if error.isException then
      (grpcStatusForException error).map fun status =>
        (status, if error.text = "" then error.className else error.text)
    else none
  | _ => none

/-- The wrap of `DomainErrorServerInterceptor`. -/
def domainErrors : Layer σ PyError := ⟨none, some domainStatus⟩

/-- The code `GrpcServerMetricsInterceptor` records at the end of a call: that of an error a
client call raised, or the one on the context. -/
def observedCode (rpcErrorCode : ε → Option StatusCode) (failure : Option (Raised ε))
    (code : Option StatusCode) : StatusCode :=
  match failure with
  | some (.user error) => (rpcErrorCode error).getD (code.getD .unknown)
  | some _ => code.getD .unknown
  | none => code.getD .ok

/-- The wrap of `GrpcServerMetricsInterceptor`, recording with `observe`. -/
def serverMetrics (rpcErrorCode : ε → Option StatusCode) (observe : StatusCode → σ → σ) :
    Layer σ ε where
  enter := some fun vars =>
    (vars, some fun failure code => observe (observedCode rpcErrorCode failure code))
  onError := none

theorem map_judged_cons (layer : Layer σ ε) (inner : List (Layer σ ε)) (error : Raised ε) :
    (judged (layer :: inner) error).map Prod.snd =
      ((judged inner error).map Prod.snd).or (statusOf layer.onError error) := by
  rw [judged]
  cases judged inner error with
  | some given => rfl
  | none => cases statusOf layer.onError error <;> rfl

/-- The status for a domain error is its own however many wraps map domain errors, as long as
nothing else translates. -/
theorem judged_domainErrors {layers : List (Layer σ PyError)}
    (hlayers : ∀ layer ∈ layers, layer.onError = none ∨ layer = domainErrors) (error : PyError) :
    (judged layers (.user error)).map Prod.snd =
      if layers.any (·.onError.isSome) then domainStatus (.user error) else none := by
  induction layers with
  | nil => rfl
  | cons layer inner ih =>
    have hinner := ih fun l hl => hlayers l (mem_cons_of_mem _ hl)
    rw [map_judged_cons, hinner, any_cons]
    rcases hlayers layer mem_cons_self with hnone | rfl
    · rw [hnone, statusOf, or_none, isSome_none, Bool.false_or]
    · have hstatus : statusOf (domainErrors : Layer σ PyError).onError (.user error) =
          domainStatus (.user error) := rfl
      have hmaps : (domainErrors : Layer σ PyError).onError.isSome = true := rfl
      rw [hstatus, hmaps, Bool.true_or, if_pos rfl]
      split
      · exact or_self
      · rfl

/-- **A domain error is translated once**, to its own status, and the call ends on that status,
however many wraps map domain errors and wherever they are; without such a wrap, or without a
status, it is left alone. -/
theorem domain_error_ends_once (servicer : ServicerFunction σ α β PyError)
    {layers : List (Layer σ PyError)}
    (hlayers : ∀ layer ∈ layers, layer.onError = none ∨ layer = domainErrors) (vars : σ)
    (request : α) {error : PyError}
    (hraised : (servicer.call (enterAll layers vars) request).outcome.failure =
      some (.user error)) :
    let status := if layers.any (·.onError.isSome) then domainStatus (.user error) else none
    let body := (nest servicer layers).body vars request
    (body.events.filterMap Event.translated?).map Prod.snd = status.toList ∧
      body.outcome.failure = endsOn (some (.user error)) servicer.callable.model status ∧
      body.acts = (servicer.call (enterAll layers vars) request).acts ++
        statusActs servicer.callable.model status := by
  intro status body
  have hstatus : (translation servicer layers vars request).map Prod.snd = status := by
    rw [translation, inside, hraised, bind_some, judged_domainErrors hlayers]
  refine ⟨?_, ?_, ?_⟩
  · rw [translated_nest, ← hstatus]
    cases translation servicer layers vars request <;> rfl
  · rw [failure_nest, hstatus, inside, hraised]
  · rw [acts_nest, hstatus, inside]

/-- A servicer that refuses every request. -/
def limited : ServicerFunction ℕ ℕ ℕ PyError :=
  ⟨.unaryUnary, .coroutineFunction, ⟨none, none⟩, fun vars _ =>
    ([], .raised (.user ⟨"RateLimitError", true, none, "slow down"⟩), vars)⟩

/-- Two wraps that map domain errors and one that counts. -/
def mappedTwice : List (Layer ℕ PyError) :=
  [domainErrors, serverMetrics (fun _ => none) fun _ n => n + 1, domainErrors]

/-- Under them the call ends on one abort. -/
theorem domain_error_ends_once_twice : ((nest limited mappedTwice).body 0 7).outcome.failure =
    some (.abort .resourceExhausted "slow down") := by
  have hlayers : ∀ layer ∈ mappedTwice, layer.onError = none ∨ layer = domainErrors := by
    simp [mappedTwice, serverMetrics]
  exact (domain_error_ends_once limited hlayers 0 7 rfl).2.1.trans (by decide)

end ServiceToolkit.Rpc
