import ServiceToolkit.Handlers
import ServiceToolkit.Text

/-!
# The User Token of an Inbound Call

`JwtContextServerInterceptor` reads the `authorization` metadata of an inbound call,
verifies the user token in it and binds the decoded payload to `current_jwt_payload` while
the servicer runs; for a bot it also binds the user the bot acts for. A call without the
header passes as an anonymous one.

The token verifier is a parameter (`JwtVerifier`): it answers a payload or raises. So is the
answer to whether a payload belongs to a bot.

## Scope of the wrapper

Only unary-unary handlers are wrapped; a handler that streams on either side is handed back
as it is. The wrapper is a coroutine that awaits the servicer, which suits a coroutine; a
plain servicer runs its body and then fails in the `await` of its value (`awaitCall`).

Nothing restores the payload when reading the on-behalf entry raises, for that happens
before the `try`; the model keeps this.
-/

namespace ServiceToolkit.Rpc

open ServiceToolkit.Text

/-- A metadata value as the servicer context hands it over. -/
inductive MetadataValue
  | text (s : String)
  | bytes (b : ByteArray)
  deriving DecidableEq

/-- `value.decode("utf-8") if isinstance(value, bytes) else str(value)`; `none` is the
`UnicodeDecodeError`. -/
def MetadataValue.decode : MetadataValue → Option String
  | .text s => some s
  | .bytes b => String.fromUTF8? b

/-- The metadata of a call; `none` is Python's `None`. -/
abbrev Metadata := Option (List (String × MetadataValue))

/-- The first entry of the metadata whose key is `name` in any letter case. -/
def firstEntry (U : Unicode) (name : String) (metadata : Metadata) : Option MetadataValue :=
  ((metadata.getD []).find? fun e => U.lower e.1.toList = name.toList).map Prod.snd

/-- The token verifier, and which of its payloads are bots. -/
structure JwtVerifier (π ε : Type*) where
  verify : String → Except ε π
  isBot : π → Bool

variable {σ α β ε π : Type*}

/-- `_read_authorization`. -/
def readAuthorization (U : Unicode) (metadata : Metadata) : Except (Raised ε) (Option String) :=
  match firstEntry U "authorization" metadata with
  | none => .ok none
  | some value =>
    match value.decode with
    | none => .error .unicodeDecodeError
    | some text => .ok (some text)

/-- `_read_on_behalf`: an entry that is no integer counts as absent. -/
def readOnBehalf (U : Unicode) (metadata : Metadata) : Except (Raised ε) (Option ℤ) :=
  match firstEntry U "x-on-behalf-user-id" metadata with
  | none => .ok none
  | some value =>
    match value.decode with
    | none => .error .unicodeDecodeError
    | some text => .ok (pythonInt U (strip text.toList))

/-- `_BEARER_PREFIX`. -/
def bearerPrefix : List Char := "bearer ".toList

/-- The token of a bearer value: what follows the scheme, stripped. -/
def bearerToken (value : String) : String :=
  String.ofList (strip (value.toList.drop bearerPrefix.length))

/-- `_verify_metadata_jwt`: the verified payload, `none` for an anonymous call, or the abort
it ends with. -/
def verifyMetadataJwt (U : Unicode) (verifier : JwtVerifier π ε) (metadata : Metadata) :
    Except (Raised ε) (Option π) :=
  match readAuthorization U metadata with
  | .error raised => .error raised
  | .ok none => .ok none
  | .ok (some value) =>
    if value = "" then .ok none
    else if ¬ bearerPrefix.isPrefixOf (U.lower value.toList) then
      .error (.abort .unauthenticated "authorization metadata must be a Bearer token")
    else
      match verifier.verify (bearerToken value) with
      | .error _ => .error (.abort .unauthenticated "invalid or expired authorization JWT")
      | .ok payload => .ok (some payload)

/-- `await behaviour(request, context)` of a handler: a coroutine is run to its end, and a
plain function's value cannot be awaited once its body has returned. -/
def awaitCall (handler : Handler σ α β ε) (vars : σ) (request : α) : Run σ β ε :=
  let run := handler.behaviour vars request
  match handler.model, run.failure with
  | .plain, none => { run with items := [], failure := some .typeError }
  | _, _ => run

/-- A call that raised before the servicer was reached. -/
def raisedRun (raised : Raised ε) (vars : σ) : Run σ β ε :=
  { items := [], failure := some raised, status := none, vars := vars, entered := [] }

/-- The wrapper's `try … finally` once a payload is bound: the on-behalf user is bound too
when there is one, and what was bound is taken back afterwards. -/
def callBound (handler : Handler (Vars π) α β ε) (payload : π) (onBehalf : Option ℤ)
    (vars : Vars π) (request : α) : Run (Vars π) β ε :=
  let bound := { vars with currentJwtPayload := some payload }
  match onBehalf with
  | none =>
    let run := awaitCall handler bound request
    { run with vars := { run.vars with currentJwtPayload := vars.currentJwtPayload } }
  | some user =>
    let run := awaitCall handler { bound with currentOnBehalf := some user } request
    { run with
      vars := { run.vars with
        currentJwtPayload := vars.currentJwtPayload
        currentOnBehalf := vars.currentOnBehalf } }

/-- `_wrapped`, for a call with this metadata. -/
def wrappedCall (U : Unicode) (verifier : JwtVerifier π ε) (metadata : Metadata)
    (handler : Handler (Vars π) α β ε) (vars : Vars π) (request : α) : Run (Vars π) β ε :=
  match verifyMetadataJwt U verifier metadata with
  | .error raised => raisedRun raised vars
  | .ok none => awaitCall handler vars request
  | .ok (some payload) =>
    if verifier.isBot payload then
      match readOnBehalf U metadata with
      | .error raised => raisedRun raised { vars with currentJwtPayload := some payload }
      | .ok onBehalf => callBound handler payload onBehalf vars request
    else callBound handler payload none vars request

/-- `_wrap_handler_with_jwt_context`: streaming handlers pass through. -/
def wrapHandlerWithJwtContext (U : Unicode) (verifier : JwtVerifier π ε) (metadata : Metadata)
    (handler : Handler (Vars π) α β ε) : Handler (Vars π) α β ε :=
  if handler.kind ≠ .unaryUnary then handler
  else
    { kind := .unaryUnary
      model := .async
      codec := handler.codec
      behaviour := wrappedCall U verifier metadata handler }

/-- `JwtContextServerInterceptor.intercept_service` on a method, for the handler the server
has for it (`none` when it serves no such method). -/
def jwtInterceptService (U : Unicode) (verifier : JwtVerifier π ε) (method : String)
    (metadata : Metadata) (served : Option (Handler (Vars π) α β ε)) :
    Option (Handler (Vars π) α β ε) :=
  if isSystemMethod method then served
  else served.map (wrapHandlerWithJwtContext U verifier metadata)

/-! ### What verification answers -/

section

variable {U : Unicode} {verifier : JwtVerifier π ε} {metadata : Metadata} {value : MetadataValue}
  {text : String} {payload : π}

/-- The verifier **accepts** an authorization text: it names the bearer scheme, and its token
verifies to the payload. -/
def Accepts (U : Unicode) (verifier : JwtVerifier π ε) (text : String) (payload : π) : Prop :=
  bearerPrefix <+: U.lower text.toList ∧ verifier.verify (bearerToken text) = .ok payload

theorem Accepts.ne_empty (h : Accepts U verifier text payload) : text ≠ "" := by
  rintro rfl
  have hnil : U.lower "".toList = [] := (U.lower_eq_nil _).mpr rfl
  have hpre := h.1
  rw [hnil, List.prefix_nil] at hpre
  exact absurd hpre (by decide)

section

variable (hfirst : firstEntry U "authorization" metadata = some value)
include hfirst

theorem readAuthorization_eq (htext : value.decode = some text) :
    (readAuthorization U metadata : Except (Raised ε) _) = .ok (some text) := by
  simp only [readAuthorization, hfirst, htext]

theorem verifyMetadataJwt_accepted
    (htext : value.decode = some text) (haccepts : Accepts U verifier text payload) :
    verifyMetadataJwt U verifier metadata = .ok (some payload) := by
  have hbearer : bearerPrefix.isPrefixOf (U.lower text.toList) = true :=
    List.isPrefixOf_iff_prefix.mpr haccepts.1
  simp only [verifyMetadataJwt, readAuthorization_eq hfirst htext, haccepts.ne_empty, hbearer,
    haccepts.2, not_true, if_false]

theorem verifyMetadataJwt_refused (htext : value.decode = some text) (hne : text ≠ "")
    (hrefused : ∀ payload, ¬ Accepts U verifier text payload) :
    ∃ details, verifyMetadataJwt U verifier metadata =
      .error (.abort .unauthenticated details) := by
  by_cases hbearer : bearerPrefix.isPrefixOf (U.lower text.toList) = true
  · cases hverify : verifier.verify (bearerToken text) with
    | error e =>
      exact ⟨"invalid or expired authorization JWT", by
        simp only [verifyMetadataJwt, readAuthorization_eq hfirst htext, hne, hbearer, hverify,
          not_true, if_false]⟩
    | ok payload =>
      exact absurd ⟨List.isPrefixOf_iff_prefix.mp hbearer, hverify⟩ (hrefused payload)
  · exact ⟨"authorization metadata must be a Bearer token", by
      simp only [verifyMetadataJwt, readAuthorization_eq hfirst htext, hne, if_false]
      rw [if_pos hbearer]⟩

theorem verifyMetadataJwt_undecodable (htext : value.decode = none) :
    verifyMetadataJwt U verifier metadata = .error .unicodeDecodeError := by
  simp only [verifyMetadataJwt, readAuthorization, hfirst, htext]

end

theorem verifyMetadataJwt_absent
    (habsent : ∀ value ∈ firstEntry U "authorization" metadata, value.decode = some "") :
    verifyMetadataJwt U verifier metadata = .ok none := by
  cases hfirst : firstEntry U "authorization" metadata with
  | none => simp only [verifyMetadataJwt, readAuthorization, hfirst]
  | some value =>
    simp only [verifyMetadataJwt, readAuthorization_eq hfirst (habsent value hfirst), if_true]

/-- The on-behalf entry, if there is one, can be read as text. -/
def OnBehalfReadable (U : Unicode) (metadata : Metadata) : Prop :=
  ∀ value ∈ firstEntry U "x-on-behalf-user-id" metadata, value.decode.isSome

theorem readOnBehalf_ok (h : OnBehalfReadable U metadata) :
    ∃ onBehalf, (readOnBehalf U metadata : Except (Raised ε) _) = .ok onBehalf := by
  cases hfirst : firstEntry U "x-on-behalf-user-id" metadata with
  | none => exact ⟨none, by simp only [readOnBehalf, hfirst]⟩
  | some value =>
    obtain ⟨text, htext⟩ := Option.isSome_iff_exists.mp (h value hfirst)
    exact ⟨pythonInt U (strip text.toList), by simp only [readOnBehalf, hfirst, htext]⟩

end

/-! ### Calls -/

section

variable {U : Unicode} {verifier : JwtVerifier π ε} {metadata : Metadata}
  (codec : Codec α β) (servicer : Vars π → α → Reply β ε × Vars π)

theorem awaitCall_async (kind : Kind) (vars : Vars π) (request : α) :
    awaitCall (Handler.mk kind .async codec (serving servicer)) vars request =
      serving servicer vars request := rfl

/-- With a payload bound, a coroutine servicer is entered with that payload and its own reply
stands. -/
theorem callBound_async (kind : Kind) (payload : π) (onBehalf : Option ℤ) (vars : Vars π)
    (request : α) :
    let run := callBound (Handler.mk kind .async codec (serving servicer)) payload onBehalf vars
      request
    ∃ entered, run.entered = [entered] ∧ entered.currentJwtPayload = some payload ∧
      run.toReply = (servicer entered request).1 := by
  cases onBehalf with
  | none | some user => exact ⟨_, rfl, rfl, rfl⟩

theorem wrappedCall_refused {value : MetadataValue} (handler : Handler (Vars π) α β ε)
    (hfirst : firstEntry U "authorization" metadata = some value) (hne : value.decode ≠ some "")
    (hrefused : ∀ text payload, value.decode = some text → ¬ Accepts U verifier text payload)
    (vars : Vars π) (request : α) :
    let run := wrappedCall U verifier metadata handler vars request
    run.entered = [] ∧ (value.decode.isSome → run.toReply.code = .unauthenticated) := by
  cases htext : value.decode with
  | none =>
    rw [wrappedCall, verifyMetadataJwt_undecodable hfirst htext]
    exact ⟨rfl, fun h => absurd h (by simp)⟩
  | some text =>
    have hnonempty : text ≠ "" := fun h => hne (h ▸ htext)
    obtain ⟨details, hverify⟩ :=
      verifyMetadataJwt_refused hfirst htext hnonempty fun payload => hrefused text payload htext
    rw [wrappedCall, hverify]
    exact ⟨rfl, fun _ => rfl⟩

theorem wrappedCall_accepted {value : MetadataValue} {text : String} {payload : π}
    (hfirst : firstEntry U "authorization" metadata = some value)
    (htext : value.decode = some text) (haccepts : Accepts U verifier text payload)
    (hbehalf : verifier.isBot payload → OnBehalfReadable U metadata) (kind : Kind)
    (vars : Vars π) (request : α) :
    let run := wrappedCall U verifier metadata (Handler.mk kind .async codec (serving servicer))
      vars request
    ∃ entered, run.entered = [entered] ∧ entered.currentJwtPayload = some payload ∧
      run.toReply = (servicer entered request).1 := by
  rw [wrappedCall, verifyMetadataJwt_accepted hfirst htext haccepts]
  by_cases hbot : verifier.isBot payload = true
  · obtain ⟨onBehalf, hread⟩ := readOnBehalf_ok (ε := ε) (hbehalf hbot)
    simp only [hbot, if_true, hread]
    exact callBound_async codec servicer kind payload onBehalf vars request
  · simp only [hbot]
    exact callBound_async codec servicer kind payload none vars request

theorem wrappedCall_absent
    (habsent : ∀ value ∈ firstEntry U "authorization" metadata, value.decode = some "")
    (kind : Kind) (vars : Vars π) (request : α) :
    wrappedCall U verifier metadata (Handler.mk kind .async codec (serving servicer))
      vars request = serving servicer vars request := by
  rw [wrappedCall, verifyMetadataJwt_absent habsent]
  exact awaitCall_async codec servicer kind vars request

/-- **The calls of a method** outside health and reflection. A streaming handler is handed back as
it is. On a unary one:

* an authorization value that is neither empty nor accepted enters no servicer, and the call ends
  `UNAUTHENTICATED` when the value is text or UTF-8;
* with an accepted value a coroutine servicer is entered with the verified payload, provided that
  the on-behalf entry of a bot can be read, and its own reply is the call's;
* without one a coroutine servicer is entered with the variables the call came with, none of them a
  payload, and its own reply is the call's. -/
theorem unary_calls_run_verified (U : Unicode) (verifier : JwtVerifier π ε) (method : String)
    (hmethod : isSystemMethod method = false)
    (metadata : Metadata) (kind : Kind) (model : ExecutionModel) (codec : Codec α β)
    (servicer : Vars π → α → Reply β ε × Vars π) :
    let served := Handler.mk kind model codec (serving servicer)
    ∃ handler, jwtInterceptService U verifier method metadata (some served) = some handler ∧
      handler.kind = kind ∧ handler.codec = codec ∧
      (kind ≠ .unaryUnary → handler = served) ∧
      (kind = .unaryUnary → ∀ vars request,
        let run := handler.behaviour vars request
        (∀ value, firstEntry U "authorization" metadata = some value → value.decode ≠ some "" →
          (∀ text payload, value.decode = some text → ¬ Accepts U verifier text payload) →
            run.entered = [] ∧
            (value.decode.isSome → run.toReply.code = .unauthenticated)) ∧
        (model = .async → ∀ value text payload,
          firstEntry U "authorization" metadata = some value → value.decode = some text →
          Accepts U verifier text payload →
          (verifier.isBot payload → OnBehalfReadable U metadata) →
            ∃ entered, run.entered = [entered] ∧ entered.currentJwtPayload = some payload ∧
              run.toReply = (servicer entered request).1) ∧
        (model = .async →
          (∀ value ∈ firstEntry U "authorization" metadata, value.decode = some "") →
          vars.currentJwtPayload = none →
            ∃ entered, run.entered = [entered] ∧ entered.currentJwtPayload = none ∧
              run.toReply = (servicer entered request).1)) := by
  intro served
  have hintercept : jwtInterceptService U verifier method metadata (some served) =
      some (wrapHandlerWithJwtContext U verifier metadata served) := by
    rw [jwtInterceptService, hmethod]
    rfl
  refine ⟨_, hintercept, ?_⟩
  by_cases hkind : kind = .unaryUnary
  · subst hkind
    refine ⟨rfl, rfl, fun h => absurd rfl h, fun _ vars request => ?_⟩
    have hrun : (wrapHandlerWithJwtContext U verifier metadata served).behaviour vars request =
        wrappedCall U verifier metadata served vars request := rfl
    rw [hrun]
    refine ⟨fun value hfirst hne hrefused =>
      wrappedCall_refused served hfirst hne hrefused vars request, ?_, ?_⟩
    · rintro rfl value text payload hfirst htext haccepts hbehalf
      exact wrappedCall_accepted codec servicer hfirst htext haccepts hbehalf _ vars request
    · rintro rfl habsent hanonymous
      rw [wrappedCall_absent codec servicer habsent]
      exact ⟨vars, rfl, hanonymous, rfl⟩
  · have hsame : wrapHandlerWithJwtContext U verifier metadata served = served := by
      rw [wrapHandlerWithJwtContext, if_pos hkind]
    rw [hsame]
    exact ⟨rfl, rfl, fun _ => rfl, fun h => absurd h hkind⟩

end

/-- A verifier that knows one token of a person and one of a bot. -/
def probeVerifier : JwtVerifier String Unit where
  verify token := if token = "alice" ∨ token = "robot" then .ok token else .error ()
  isBot payload := payload = "robot"

/-- A bot's call on behalf of user 7, with the token in mixed case and bytes, reaches a unary
coroutine with the bot's payload. -/
theorem probe_bot_call_runs_verified :
    ∃ handler, jwtInterceptService .ascii probeVerifier "/pkg.Svc/Read"
        (some [("X-Other", .text "x"), ("Authorization", .bytes "BEARER robot ".toUTF8),
          ("x-on-behalf-user-id", .text "7")])
        (some ⟨.unaryUnary, .async, ⟨none, none⟩,
          serving fun vars (request : String) =>
            (⟨[(request, vars.currentOnBehalf)], none, none⟩, vars)⟩) = some handler ∧
      ∀ vars request, ∃ entered, (handler.behaviour vars request).entered = [entered] ∧
        entered.currentJwtPayload = some "robot" := by
  obtain ⟨handler, hhandler, -, -, -, hunary⟩ :=
    unary_calls_run_verified .ascii probeVerifier "/pkg.Svc/Read" (by decide)
      (some [("X-Other", .text "x"), ("Authorization", .bytes "BEARER robot ".toUTF8),
        ("x-on-behalf-user-id", .text "7")])
      .unaryUnary .async ⟨none, none⟩
      fun vars (request : String) => (⟨[(request, vars.currentOnBehalf)], none, none⟩, vars)
  refine ⟨handler, hhandler, fun vars request => ?_⟩
  obtain ⟨-, haccepted, -⟩ := hunary rfl vars request
  obtain ⟨entered, hentered, hpayload, -⟩ :=
    haccepted rfl (.bytes "BEARER robot ".toUTF8) "BEARER robot " "robot" (by decide) (by decide)
      ⟨by decide, by decide⟩ fun _ value hvalue => by
        obtain rfl : value = .text "7" := Option.some.inj (hvalue.symm.trans (by decide))
        rfl
  exact ⟨entered, hentered, hpayload⟩

/-- The wrapper lets a streaming call through unchecked: with a token the verifier refuses,
an async streaming servicer is entered and its items are what the call ends with. -/
theorem streaming_call_ignores_bad_token :
    ∃ handler, jwtInterceptService .ascii probeVerifier "/pkg.Svc/Watch"
        (some [("authorization", .text "Bearer mallory")])
        (some ⟨.unaryStream, .async, ⟨none, none⟩,
          serving fun vars (request : String) => (⟨[request], none, none⟩, vars)⟩) =
          some handler ∧
      (∀ payload, ¬ Accepts .ascii probeVerifier "Bearer mallory" payload) ∧
      (handler.behaviour ⟨none, none, none⟩ "all").entered = [⟨none, none, none⟩] ∧
      (handler.behaviour ⟨none, none, none⟩ "all").toReply.code = .ok := by
  have hverify : probeVerifier.verify (bearerToken "Bearer mallory") = .error () := by decide
  refine ⟨_, rfl, fun payload haccepts => ?_, rfl, rfl⟩
  rw [Accepts, hverify] at haccepts
  cases haccepts.2

end ServiceToolkit.Rpc
