import ServiceToolkit.Authorization

/-!
# The Internal Token Gate

`InternalTokenInterceptor` decides every inbound call from its method path and the
`x-internal-token` metadata. A method listed in its policy is decided by the policy alone.
Every other method keeps the older platform-token rules: no platform token means no gate,
health and reflection pass, a method path that ends in an exemption passes, the platform
token passes, and an alternate verifier may admit what the platform token did not.

The order of these branches is the whole of the security argument, so `interceptService`
keeps all of them, in the source's order, together with the two ways the decision itself can
raise: an alternate verifier that raises, and `hmac.compare_digest`, which refuses text
outside ASCII.

Metadata is the list of pairs grpc hands over; the value under a key without the `-bin`
ending is text. The handler the server has for the method (`none` when it serves no such
method) is a parameter, for the continuation does nothing but look it up.
-/

namespace ServiceToolkit.Rpc

/-- What an interceptor is told about a call. -/
structure HandlerCallDetails where
  method : String
  invocationMetadata : List (String × String)
  deriving DecidableEq

variable {σ α β ε π : Type*}

/-- Checks a token the platform token did not match: it may raise, leave the call refused (`none`),
or give a function that wraps the handler, which may raise in turn. -/
abbrev AlternateTokenVerifier (σ α β ε : Type*) :=
  String → String → Except (Raised ε)
    (Option (Option (Handler σ α β ε) → Except (Raised ε) (Option (Handler σ α β ε))))

/-- The interceptor. Its platform token is not empty, and it has a token or a policy. -/
structure InternalTokenInterceptor (σ α β ε : Type*) where
  token : Option String
  exemptMethods : List String
  alternateVerifier : Option (AlternateTokenVerifier σ α β ε)
  policy : Option CallerPolicy
  token_ne_empty : token ≠ some ""
  gated : token.isSome ∨ policy.isSome

namespace InternalTokenInterceptor

/-- `InternalTokenInterceptor(token, exempt_methods, alternate_verifier, policy)`; the error
is the text of the `ValueError`. -/
def make (token : Option String) (exemptMethods : List String)
    (alternateVerifier : Option (AlternateTokenVerifier σ α β ε)) (policy : Option CallerPolicy) :
    Except String (InternalTokenInterceptor σ α β ε) :=
  let present := token.filter (· ≠ "")
  if h : present = none ∧ policy = none then .error "Internal token must not be empty."
  else .ok
    { token := present
      exemptMethods := exemptMethods
      alternateVerifier := alternateVerifier
      policy := policy
      token_ne_empty := by simp [present]
      gated := by
        rw [not_and_or] at h
        exact h.imp Option.isSome_iff_ne_none.mpr Option.isSome_iff_ne_none.mpr }

theorem policy_of_make {token : Option String} {exemptMethods : List String}
    {alternateVerifier : Option (AlternateTokenVerifier σ α β ε)} {policy : Option CallerPolicy}
    {i : InternalTokenInterceptor σ α β ε}
    (h : make token exemptMethods alternateVerifier policy = .ok i) : i.policy = policy := by
  simp only [make] at h
  split at h
  · cases h
  · obtain rfl := Except.ok.inj h
    rfl

end InternalTokenInterceptor

/-- `hmac.compare_digest` on two strings: it raises unless both are ASCII. -/
def compareDigest (a b : String) : Except (Raised ε) Bool :=
  if a.toList.all (·.toNat < 128) && b.toList.all (·.toNat < 128) then .ok (a = b)
  else .error .typeError

/-- `dict(details.invocation_metadata).get("x-internal-token")`. -/
def presentedToken (details : HandlerCallDetails) : Option String :=
  (Dict.ofList details.invocationMetadata).get? "x-internal-token"

/-- Serve or refuse a listed call: the whole decision, no fallback. -/
def authorizeListed (policy : CallerPolicy) (served : Option (Handler (Vars π) α β ε))
    (details : HandlerCallDetails) : Except (Raised ε) (Option (Handler (Vars π) α β ε)) :=
  match policy.decide details.method (presentedToken details) with
  | none => .error .keyError
  | some decision =>
    match served with
    | none => .ok none
    | some handler =>
      match decision with
      | ⟨.admitted, some caller⟩ => .ok (some (asCaller handler caller))
      | ⟨verdict, _⟩ =>
        let (code, text) := refusals verdict
        .ok (some (refusing handler code text))

/-- The rules for a method no policy lists, under a platform token. -/
def platformRule (i : InternalTokenInterceptor σ α β ε) (token : String)
    (served : Option (Handler σ α β ε)) (details : HandlerCallDetails) :
    Except (Raised ε) (Option (Handler σ α β ε)) :=
  let method := details.method.toList
  let refused := served.map fun handler =>
    refusing handler .unauthenticated "Invalid or missing internal token"
  if isSystemMethod details.method then .ok served
  else if i.exemptMethods.any fun exempt => exempt.toList.isSuffixOf method then .ok served
  else
    let received := presentedToken details
    match compareDigest (received.getD "") token with
    | .error raised => .error raised
    | .ok true => .ok served
    | .ok false =>
      match i.alternateVerifier, received.filter (· ≠ "") with
      | some verify, some value =>
        match verify details.method value with
        | .error raised => .error raised
        | .ok (some admitted) => admitted served
        | .ok none => .ok refused
      | _, _ => .ok refused

/-- The decision on one call: the handler grpc is to run, or what was raised. A listed
method never reaches the platform rules. -/
def interceptService (i : InternalTokenInterceptor (Vars π) α β ε)
    (served : Option (Handler (Vars π) α β ε)) (details : HandlerCallDetails) :
    Except (Raised ε) (Option (Handler (Vars π) α β ε)) :=
  match i.policy.filter (·.covers details.method) with
  | some policy => authorizeListed policy served details
  | none =>
    match i.token with
    | none => .ok served
    | some token => platformRule i token served details

/-! ### Listed methods -/

/-- **First and final**: on a listed method the interceptor is the policy's decision,
whatever its token, exemptions and alternate verifier are. -/
theorem interceptService_listed {i : InternalTokenInterceptor (Vars π) α β ε}
    {policy : CallerPolicy} (hpolicy : i.policy = some policy) {details : HandlerCallDetails}
    (hcovers : policy.covers details.method = true) (served : Option (Handler (Vars π) α β ε)) :
    interceptService i served details = authorizeListed policy served details := by
  have hfilter : i.policy.filter (·.covers details.method) = some policy := by
    rw [hpolicy, Option.filter_some, if_pos hcovers]
  rw [interceptService, hfilter]

theorem authorizeListed_served {policy : CallerPolicy} {details : HandlerCallDetails}
    {names : Finset String} (hnames : policy.rules.get? details.method = some names)
    (handler : Handler (Vars π) α β ε) :
    authorizeListed policy (some handler) details = .ok (some
      (match policy.callers.resolve (presentedToken details) with
        | none => refusing handler .unauthenticated "unknown caller"
        | some caller =>
          if caller ∈ names then asCaller handler caller
          else refusing handler .permissionDenied "this caller may not call this method")) := by
  rw [authorizeListed, CallerPolicy.decide]
  cases hresolve : policy.callers.resolve (presentedToken details) with
  | none => rfl
  | some caller =>
    simp only [hnames, Option.map_some]
    by_cases hmem : caller ∈ names
    · simp only [hmem, not_true, if_false, if_true]
    · simp only [hmem, not_false_eq_true, if_true, if_false, refusals]

/-- **Who reaches a listed method**, of any kind and execution model: the servicer is entered
exactly when the last `x-internal-token` value is the secret of a caller the method admits, and then
under that caller's name and with its own reply; a caller not admitted is refused with
`PERMISSION_DENIED`, any other value, or none, with `UNAUTHENTICATED`. The handler keeps its kind
and codec, and no other interceptor with the same policy answers differently. -/
theorem listed_method_admits_exactly_named_callers
    {U : Text.Unicode} {secrets : Dict String String} {callers : CallerCredentials}
    (hcallers : CallerCredentials.make secrets = .ok callers)
    {rules : Dict String (List String)} {policy : CallerPolicy}
    (hpolicy : CallerPolicy.make U rules callers = .ok policy)
    {token : Option String} {exemptMethods : List String}
    {alternateVerifier : Option (AlternateTokenVerifier (Vars π) α β ε)}
    {i : InternalTokenInterceptor (Vars π) α β ε}
    (hi : InternalTokenInterceptor.make token exemptMethods alternateVerifier (some policy) =
      .ok i)
    (details : HandlerCallDetails) {admitted : List String}
    (hlisted : rules.get? details.method = some admitted)
    (kind : Kind) (model : ExecutionModel) (codec : Codec α β)
    (servicer : Vars π → α → Reply β ε × Vars π) :
    let served := some (Handler.mk kind model codec (serving servicer))
    let presented := details.invocationMetadata.reverse.lookup "x-internal-token"
    (∃ handler, interceptService i served details = .ok (some handler) ∧
      handler.kind = kind ∧ handler.codec = codec ∧
      ∀ vars request,
        let run := handler.behaviour vars request
        (run.entered ≠ [] ↔
          ∃ caller ∈ admitted, ∃ secret,
            secrets.get? caller = some secret ∧ presented = some secret) ∧
        (∀ caller secret, secrets.get? caller = some secret → presented = some secret →
          (caller ∈ admitted →
            run.entered = [{ vars with currentCaller := some caller }] ∧
            run.toReply = (servicer { vars with currentCaller := some caller } request).1) ∧
          (caller ∉ admitted →
            run.Refused .permissionDenied "this caller may not call this method")) ∧
        ((∀ caller secret, secrets.get? caller = some secret → presented ≠ some secret) →
          run.Refused .unauthenticated "unknown caller")) ∧
    ∀ (token' : Option String) (exemptMethods' : List String)
      (alternateVerifier' : Option (AlternateTokenVerifier (Vars π) α β ε))
      (i' : InternalTokenInterceptor (Vars π) α β ε),
      InternalTokenInterceptor.make token' exemptMethods' alternateVerifier' (some policy) =
          .ok i' →
        interceptService i' served details = interceptService i served details := by
  intro served presented
  obtain ⟨rfl, hrules⟩ := CallerPolicy.make_eq_ok hpolicy
  have hnames : policy.rules.get? details.method = some admitted.toFinset := by
    rw [hrules, hlisted, Option.map_some]
  have hcovers : policy.covers details.method = true := by
    rw [CallerPolicy.covers, hnames, Option.isSome_some]
  have hlist : ∀ {i : InternalTokenInterceptor (Vars π) α β ε}, i.policy = some policy →
      interceptService i served details = authorizeListed policy served details := fun h =>
    interceptService_listed h hcovers served
  have htoken : presentedToken details = presented := Dict.get?_ofList _ _
  have hi := hlist (InternalTokenInterceptor.policy_of_make hi)
  refine ⟨?_, fun _ _ _ i' hi' => ?_⟩
  · rw [hi, authorizeListed_served hnames, htoken]
    refine ⟨_, rfl, ?_⟩
    cases hr : policy.callers.resolve presented with
    | none =>
      have hnobody : ∀ caller secret, secrets.get? caller = some secret →
          presented ≠ some secret := fun _ _ hs =>
        CallerCredentials.ne_of_resolve_eq_none hcallers hr hs
      refine ⟨rebuild_kind .., rebuild_codec .., fun vars request => ⟨?_, ?_, fun _ => ?_⟩⟩
      · refine ⟨fun h => absurd rfl h, ?_⟩
        rintro ⟨caller, -, secret, hs, hp⟩
        exact absurd hp (hnobody caller secret hs)
      · intro caller secret hs hp
        exact absurd hp (hnobody caller secret hs)
      · exact refusing_refused ..
    | some named =>
      obtain ⟨value, hvalue, hpresented⟩ :=
        (CallerCredentials.resolve_eq_some_iff hcallers presented named).mp hr
      have hunique : ∀ caller secret, secrets.get? caller = some secret →
          presented = some secret → caller = named := fun _ _ hs hp =>
        CallerCredentials.eq_of_resolve_eq_some hcallers hr hs hp
      by_cases hmem : named ∈ admitted
      · simp only [List.mem_toFinset, hmem, if_true]
        refine ⟨wrap_kind .., wrap_codec .., fun vars request => ?_⟩
        rw [asCaller_behaviour]
        refine ⟨?_, ?_, ?_⟩
        · exact ⟨fun _ => ⟨named, hmem, value, hvalue, hpresented⟩, fun _ => List.cons_ne_nil _ _⟩
        · intro caller secret hs hp
          obtain rfl := hunique caller secret hs hp
          exact ⟨fun _ => ⟨rfl, rfl⟩, fun h => absurd hmem h⟩
        · intro h
          exact absurd hpresented (h named value hvalue)
      · simp only [List.mem_toFinset, hmem, if_false]
        refine ⟨rebuild_kind .., rebuild_codec .., fun vars request => ⟨?_, ?_, ?_⟩⟩
        · refine ⟨fun h => absurd rfl h, ?_⟩
          rintro ⟨caller, hadmitted, secret, hs, hp⟩
          exact absurd (hunique caller secret hs hp ▸ hadmitted) hmem
        · intro caller secret hs hp
          obtain rfl := hunique caller secret hs hp
          exact ⟨fun h => absurd h hmem, fun _ => refusing_refused ..⟩
        · intro h
          exact absurd hpresented (h named value hvalue)
  · rw [hi, hlist (InternalTokenInterceptor.policy_of_make hi')]

/-- Two callers with their secrets. -/
def probeSecrets : Dict String String :=
  ⟨[("control-service", "control-secret"), ("network-service", "network-secret")], by decide⟩

/-- One listed method, open to the first of them. -/
def probeRules : Dict String (List String) :=
  ⟨[("/pkg.Svc/Write", ["control-service"])], by decide⟩

/-- The admitted caller's secret reaches a streaming servicer on the thread pool under the caller's
name, behind an exemption and after a first, wrong token. -/
theorem probe_write_admits_control_service :
    ∃ (callers : CallerCredentials) (policy : CallerPolicy)
      (i : InternalTokenInterceptor (Vars Unit) String String Unit),
      CallerCredentials.make probeSecrets = .ok callers ∧
      CallerPolicy.make .ascii probeRules callers = .ok policy ∧
      InternalTokenInterceptor.make (some "platform") ["Svc/Write"] none (some policy) = .ok i ∧
      ∃ handler,
        interceptService i
            (some ⟨.unaryStream, .plain, ⟨none, none⟩,
              serving fun vars request => (⟨[request], none, none⟩, vars)⟩)
            ⟨"/pkg.Svc/Write",
              [("x-internal-token", "platform"), ("x-internal-token", "control-secret")]⟩ =
          .ok (some handler) ∧
        ∀ vars request, (handler.behaviour vars request).entered =
          [{ vars with currentCaller := some "control-service" }] := by
  obtain ⟨callers, hcallers, policy, hpolicy⟩ :
      ∃ callers, CallerCredentials.make probeSecrets = .ok callers ∧
        ∃ policy, CallerPolicy.make .ascii probeRules callers = .ok policy := ⟨_, rfl, _, rfl⟩
  obtain ⟨i, hi⟩ : ∃ i : InternalTokenInterceptor (Vars Unit) String String Unit,
      InternalTokenInterceptor.make (some "platform") ["Svc/Write"] none (some policy) = .ok i :=
    ⟨_, rfl⟩
  obtain ⟨⟨handler, hhandler, -, -, hrun⟩, -⟩ :=
    listed_method_admits_exactly_named_callers hcallers hpolicy hi
      ⟨"/pkg.Svc/Write",
        [("x-internal-token", "platform"), ("x-internal-token", "control-secret")]⟩
      rfl .unaryStream .plain ⟨none, none⟩
      fun vars request => (⟨[request], none, none⟩, vars)
  refine ⟨callers, policy, i, hcallers, hpolicy, hi, handler, hhandler, fun vars request => ?_⟩
  obtain ⟨-, hcaller, -⟩ := hrun vars request
  exact ((hcaller "control-service" "control-secret" rfl rfl).1 (by decide)).1

end ServiceToolkit.Rpc
