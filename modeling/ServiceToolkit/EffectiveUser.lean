import ServiceToolkit.JwtContext
import ServiceToolkit.Runs

/-!
# The User a Call Acts As

Inside a servicer, `effective_user_id(current_jwt_payload())` names the user the call acts
as: the subject of the verified payload, or the user a bot says it acts for. It reads two
context variables which the interceptor binds before the servicer runs and takes back after
it. Calls that share a context come one after the other, so a binding that is not taken back
is seen by the next one.

What a call should act as depends on nothing but the call: `UnaryCall.subject` is computed
from its verified payload and its own metadata. The interceptor reads the on-behalf entry of a
bot's call after it has bound the payload and before its `try`, so an entry of bytes that are
no UTF-8 ends the call with the payload still bound; the next call on that context, if it
brings no token, then acts as the bot.

A servicer has no way to set the two variables (the module exports none), which is a field of
`Servicer`.
-/

namespace ServiceToolkit.Rpc

open ServiceToolkit.Text List

variable {α β ε π : Type*}

/-- The `sub` of a payload: text, a number, or something `int` refuses (or no `sub`). -/
inductive Sub
  | text (s : List Char)
  | integer (n : ℤ)
  | unusable

/-- `int(payload.sub)`; `none` where it raises. -/
def Sub.toInt (U : Unicode) : Sub → Option ℤ
  | .text s => pythonInt U s
  | .integer n => some n
  | .unusable => none

/-- What is read of a verified payload: whether it is a bot's, and its subject. -/
structure Claims (π : Type*) where
  isBot : π → Bool
  sub : π → Sub

/-- `user_id_from_payload`; the error is the text of the `AuthRequiredError`. -/
def userIdFromPayload (U : Unicode) (claims : Claims π) (payload : Option π) : Except String ℤ :=
  match payload.bind fun p => (claims.sub p).toInt U with
  | some user => .ok user
  | none => .error "Authentication required."

/-- `effective_user_id`, where the context holds these variables. -/
def effectiveUserId (U : Unicode) (claims : Claims π) (vars : Vars π) (payload : Option π) :
    Except String ℤ :=
  match vars.currentOnBehalf with
  | some user =>
    if payload.any claims.isBot then .ok user else userIdFromPayload U claims payload
  | none => userIdFromPayload U claims payload

/-- The inbound variables of two contexts agree. -/
def SameInbound (v w : Vars π) : Prop :=
  v.currentJwtPayload = w.currentJwtPayload ∧ v.currentOnBehalf = w.currentOnBehalf

/-- A context on which nothing is bound. -/
def Unbound (v : Vars π) : Prop := v.currentJwtPayload = none ∧ v.currentOnBehalf = none

/-- A servicer's function. It leaves the inbound variables as it finds them. -/
structure Servicer (π α β ε : Type*) where
  call : Vars π → α → Reply β ε × Vars π
  leaves : ∀ vars request, SameInbound (call vars request).2 vars

/-- A unary call: what the client sent, what the verifier answers at that time, and the method
as the server has it. -/
structure UnaryCall (π α β ε : Type*) where
  method : String
  metadata : Metadata
  verify : String → Except ε π
  model : ExecutionModel
  codec : Codec α β
  servicer : Servicer π α β ε
  request : α

namespace UnaryCall

/-- The handler the server has for the method. -/
def served (c : UnaryCall π α β ε) : Handler (Vars π) α β ε :=
  Handler.mk .unaryUnary c.model c.codec (serving c.servicer.call)

/-- The call, through the interceptor, on a context. -/
def run (U : Unicode) (claims : Claims π) (vars : Vars π) (c : UnaryCall π α β ε) :
    Run (Vars π) β ε :=
  let handler := (jwtInterceptService U ⟨c.verify, claims.isBot⟩ c.method c.metadata
    (some c.served)).getD c.served
  handler.behaviour vars c.request

/-- The verified payload of the call. The token of a health or reflection call is not
looked at. -/
def verifiedPayload (U : Unicode) (claims : Claims π) (c : UnaryCall π α β ε) : Option π :=
  if isSystemMethod c.method then none
  else
    match verifyMetadataJwt U ⟨c.verify, claims.isBot⟩ c.metadata with
    | .ok payload => payload
    | .error _ => none

/-- The integer of the first on-behalf entry, if it is one. -/
def onBehalfUser (U : Unicode) (c : UnaryCall π α β ε) : Option ℤ :=
  ((firstEntry U "x-on-behalf-user-id" c.metadata).bind MetadataValue.decode).bind fun text =>
    pythonInt U (strip text.toList)

/-- The user the call **should act as**: the one a bot names, and else the subject of the
verified payload. -/
def subject (U : Unicode) (claims : Claims π) (c : UnaryCall π α β ε) : Except String ℤ :=
  match c.verifiedPayload U claims with
  | none => .error "Authentication required."
  | some payload =>
    match (if claims.isBot payload then c.onBehalfUser U else none) with
    | some user => .ok user
    | none => userIdFromPayload U claims (some payload)

/-- The verified payload is a bot's and the first on-behalf entry is bytes that are no UTF-8. -/
def BotUndecodable (U : Unicode) (claims : Claims π) (c : UnaryCall π α β ε) : Prop :=
  (∃ payload, c.verifiedPayload U claims = some payload ∧ claims.isBot payload = true) ∧
    ∃ value, firstEntry U "x-on-behalf-user-id" c.metadata = some value ∧ value.decode = none

/-! ### One call -/

variable {U : Unicode} {claims : Claims π} {vars : Vars π} {c : UnaryCall π α β ε}

theorem awaitCall_served (c : UnaryCall π α β ε) (vars : Vars π) :
    (awaitCall c.served vars c.request).entered = [vars] ∧
      SameInbound (awaitCall c.served vars c.request).vars vars := by
  unfold awaitCall
  dsimp only
  split
  · exact ⟨rfl, c.servicer.leaves vars c.request⟩
  · exact ⟨rfl, c.servicer.leaves vars c.request⟩

theorem callBound_served (c : UnaryCall π α β ε) (payload : π) (onBehalf : Option ℤ)
    (hunbound : Unbound vars) :
    (∀ entered ∈ (callBound c.served payload onBehalf vars c.request).entered,
      entered.currentJwtPayload = some payload ∧ entered.currentOnBehalf = onBehalf) ∧
    SameInbound (callBound c.served payload onBehalf vars c.request).vars vars := by
  cases onBehalf with
  | none =>
    obtain ⟨hentered, hvars⟩ :=
      c.awaitCall_served { vars with currentJwtPayload := some payload }
    refine ⟨fun entered hmem => ?_, rfl, hvars.2⟩
    obtain rfl := mem_singleton.mp (hentered ▸ hmem)
    exact ⟨rfl, hunbound.2⟩
  | some user =>
    obtain ⟨hentered, -⟩ :=
      c.awaitCall_served
        { vars with currentJwtPayload := some payload, currentOnBehalf := some user }
    refine ⟨fun entered hmem => ?_, rfl, rfl⟩
    obtain rfl := mem_singleton.mp (hentered ▸ hmem)
    exact ⟨rfl, rfl⟩

/-- Reading the on-behalf entry gives the integer it holds, or raises where its bytes are no
UTF-8. -/
theorem readOnBehalf_eq (c : UnaryCall π α β ε) :
    (readOnBehalf U c.metadata : Except (Raised ε) _) =
      if ∃ value, firstEntry U "x-on-behalf-user-id" c.metadata = some value ∧ value.decode = none
      then .error .unicodeDecodeError else .ok (c.onBehalfUser U) := by
  unfold readOnBehalf onBehalfUser
  cases hfirst : firstEntry U "x-on-behalf-user-id" c.metadata with
  | none => simp
  | some value => cases htext : value.decode <;> simp [htext]

theorem run_system (hsystem : isSystemMethod c.method = true) :
    c.run U claims vars = serving c.servicer.call vars c.request := by
  simp only [run, jwtInterceptService, hsystem, if_true, Option.getD_some, served]

theorem run_wrapped (hsystem : isSystemMethod c.method = false) : c.run U claims vars =
      wrappedCall U ⟨c.verify, claims.isBot⟩ c.metadata c.served vars c.request := by
  simp [run, jwtInterceptService, hsystem, wrapHandlerWithJwtContext, served]

/-- What a call does with the context, by what it verified. -/
inductive Outcome (U : Unicode) (claims : Claims π) (vars : Vars π) (c : UnaryCall π α β ε) : Prop
  | refused (hverified : c.verifiedPayload U claims = none)
      (hentered : (c.run U claims vars).entered = [])
      (hvars : (c.run U claims vars).vars = vars)
  | anonymous (hverified : c.verifiedPayload U claims = none)
      (hentered : (c.run U claims vars).entered = [vars])
      (hvars : SameInbound (c.run U claims vars).vars vars)
  | undecodable (payload : π) (hverified : c.verifiedPayload U claims = some payload)
      (hunread : c.BotUndecodable U claims)
      (hentered : (c.run U claims vars).entered = [])
      (hvars : (c.run U claims vars).vars = { vars with currentJwtPayload := some payload })
  | verified (payload : π) (hverified : c.verifiedPayload U claims = some payload)
      (hread : ¬ c.BotUndecodable U claims)
      (hentered : ∀ entered ∈ (c.run U claims vars).entered,
        entered.currentJwtPayload = some payload ∧
          entered.currentOnBehalf = if claims.isBot payload then c.onBehalfUser U else none)
      (hvars : SameInbound (c.run U claims vars).vars vars)

theorem not_botUndecodable {payload : π} (hverified : c.verifiedPayload U claims = some payload)
    (hbot : claims.isBot payload = false) : ¬ c.BotUndecodable U claims := by
  rintro ⟨⟨payload', hverified', hbot'⟩, -⟩
  obtain rfl := Option.some.inj (hverified.symm.trans hverified')
  exact absurd hbot' (by simp [hbot])

theorem outcome (U : Unicode) (claims : Claims π) (c : UnaryCall π α β ε)
    (hunbound : Unbound vars) : Outcome U claims vars c := by
  cases hsystem : isSystemMethod c.method with
  | true =>
    refine .anonymous (by simp [verifiedPayload, hsystem]) ?_ ?_
    · rw [run_system hsystem]
      rfl
    · rw [run_system hsystem]
      exact c.servicer.leaves vars c.request
  | false =>
    have hrun : c.run U claims vars = _ := run_wrapped hsystem
    cases hverify : verifyMetadataJwt U ⟨c.verify, claims.isBot⟩ c.metadata with
    | error raised =>
      have hnone : c.verifiedPayload U claims = none := by
        simp [verifiedPayload, hsystem, hverify]
      simp only [wrappedCall, hverify] at hrun
      exact .refused hnone (by rw [hrun]; rfl) (by rw [hrun]; rfl)
    | ok verified =>
      have hverified : c.verifiedPayload U claims = verified := by
        simp [verifiedPayload, hsystem, hverify]
      cases verified with
      | none =>
        simp only [wrappedCall, hverify] at hrun
        obtain ⟨hentered, hvars⟩ := c.awaitCall_served vars
        exact .anonymous hverified (by rw [hrun, hentered]) (by rw [hrun]; exact hvars)
      | some payload =>
        simp only [wrappedCall, hverify, c.readOnBehalf_eq] at hrun
        cases hbot : claims.isBot payload with
        | false =>
          simp only [hbot, if_false, Bool.false_eq_true] at hrun
          obtain ⟨hentered, hvars⟩ := c.callBound_served payload none hunbound
          refine .verified payload hverified (not_botUndecodable hverified hbot) ?_
            (by rw [hrun]; exact hvars)
          rw [hrun, hbot]
          exact hentered
        | true =>
          simp only [hbot, if_true] at hrun
          by_cases hunread : ∃ value,
              firstEntry U "x-on-behalf-user-id" c.metadata = some value ∧ value.decode = none
          · rw [if_pos hunread] at hrun
            exact .undecodable payload hverified ⟨⟨payload, hverified, hbot⟩, hunread⟩
              (by rw [hrun]; rfl) (by rw [hrun]; rfl)
          · rw [if_neg hunread] at hrun
            obtain ⟨hentered, hvars⟩ :=
              c.callBound_served payload (c.onBehalfUser U) hunbound
            refine .verified payload hverified (fun h => hunread h.2) ?_ (by rw [hrun]; exact hvars)
            rw [hrun, hbot]
            exact hentered

/-- On a context without bindings, a servicer that is entered acts as the call's subject. -/
theorem subject_of_entered (hunbound : Unbound vars) : ∀ entered ∈ (c.run U claims vars).entered,
      effectiveUserId U claims entered entered.currentJwtPayload = c.subject U claims := by
  intro entered hmem
  cases c.outcome U claims hunbound with
  | refused hverified hentered hvars => simp [hentered] at hmem
  | anonymous hverified hentered hvars =>
    rw [hentered, mem_singleton] at hmem
    simp [hmem, effectiveUserId, subject, hverified, hunbound.1, hunbound.2, userIdFromPayload]
  | undecodable payload hverified hunread hentered hvars => simp [hentered] at hmem
  | verified payload hverified hread hentered hvars =>
    obtain ⟨hpayload, hbehalf⟩ := hentered entered hmem
    unfold effectiveUserId subject
    simp only [hpayload, hbehalf, hverified]
    -- an on-behalf user is bound for a bot only
    cases hbot : claims.isBot payload with
    | false => rfl
    | true => cases c.onBehalfUser U <;> simp [hbot]

/-- The two variables are taken back exactly when no bot's on-behalf entry failed to
decode. -/
theorem restored_iff (hunbound : Unbound vars) :
    SameInbound (c.run U claims vars).vars vars ↔ ¬ c.BotUndecodable U claims := by
  cases c.outcome U claims hunbound with
  | refused hverified hentered hvars =>
    refine iff_of_true (by rw [hvars]; exact ⟨rfl, rfl⟩) ?_
    rintro ⟨⟨payload, hpayload, -⟩, -⟩
    rw [hverified] at hpayload
    cases hpayload
  | anonymous hverified hentered hvars =>
    refine iff_of_true hvars ?_
    rintro ⟨⟨payload, hpayload, -⟩, -⟩
    rw [hverified] at hpayload
    cases hpayload
  | undecodable payload hverified hunread hentered hvars =>
    refine iff_of_false ?_ (not_not.mpr hunread)
    rintro ⟨hpayload, -⟩
    rw [hvars, hunbound.1] at hpayload
    cases hpayload
  | verified payload hverified hread hentered hvars => exact iff_of_true hvars hread

end UnaryCall

/-! ### Calls on one context -/

/-- One call, and the context it leaves. -/
def serveCall (U : Unicode) (claims : Claims π) (vars : Vars π) (c : UnaryCall π α β ε) :
    Run (Vars π) β ε × Vars π :=
  let run := c.run U claims vars
  (run, run.vars)

/-- What a call on a context must be like: a servicer that is entered acts as the call's own
subject, and the two variables are afterwards what they were. -/
def ActsAsItself (U : Unicode) (claims : Claims π) (vars : Vars π) (c : UnaryCall π α β ε) :
    Prop :=
  (∀ entered ∈ (c.run U claims vars).entered,
    effectiveUserId U claims entered entered.currentJwtPayload = c.subject U claims) ∧
  SameInbound (c.run U claims vars).vars vars

theorem actsAsItself_iff {U : Unicode} {claims : Claims π} {vars : Vars π}
    {c : UnaryCall π α β ε} (hunbound : Unbound vars) :
    ActsAsItself U claims vars c ↔ ¬ c.BotUndecodable U claims := by
  rw [ActsAsItself, UnaryCall.restored_iff hunbound]
  exact ⟨fun h => h.2, fun h => ⟨UnaryCall.subject_of_entered hunbound, h⟩⟩

/-- **No impersonation, and when.** In every sequence of unary calls on one context that starts
without bindings, every call acts as its own subject and leaves the two variables as it found them,
exactly when no verified bot's first on-behalf entry is bytes that are no UTF-8. -/
theorem no_impersonation_iff (U : Unicode) (claims : Claims π) (vars : Vars π)
    (hunbound : Unbound vars) (calls : List (UnaryCall π α β ε)) :
    (∀ done c rest, calls = done ++ c :: rest →
      ActsAsItself U claims (after (serveCall U claims) vars done) c) ↔
      ∀ c ∈ calls, ¬ c.BotUndecodable U claims := by
  induction calls generalizing vars with
  | nil => simp
  | cons c calls ih =>
    -- a call that acts as itself leaves the next one a context without bindings
    have hnext : ¬ c.BotUndecodable U claims → Unbound (c.run U claims vars).vars := by
      intro hread
      obtain ⟨hpayload, hbehalf⟩ := (UnaryCall.restored_iff hunbound).mpr hread
      exact ⟨hpayload.trans hunbound.1, hbehalf.trans hunbound.2⟩
    constructor
    · intro h
      have hread := (actsAsItself_iff hunbound).mp (h [] c calls rfl)
      have hrest := (ih _ (hnext hread)).mp fun done c' rest heq =>
        h (c :: done) c' rest (by rw [heq, cons_append])
      intro c' hmem
      rcases mem_cons.mp hmem with rfl | hmem
      · exact hread
      · exact hrest c' hmem
    · intro h done c' rest heq
      have hread := h c mem_cons_self
      cases done with
      | nil =>
        obtain ⟨rfl, -⟩ := cons.inj heq
        exact (actsAsItself_iff hunbound).mpr hread
      | cons c₁ done =>
        obtain ⟨rfl, htail⟩ := cons.inj heq
        exact (ih _ (hnext hread)).mpr (fun c' hc' => h c' (mem_cons_of_mem _ hc'))
          done c' rest htail

/-- A bot's claims for the token `robot`, whose subject is user 5. -/
def probeClaims : Claims String where
  isBot payload := payload = "robot"
  sub _ := .text ['5']

/-- A call of `/pkg.Svc/Read` with this metadata; the servicer sends nothing back. -/
def probeCall (metadata : Metadata) : UnaryCall String Unit Unit Unit where
  method := "/pkg.Svc/Read"
  metadata := metadata
  verify := probeVerifier.verify
  model := .async
  codec := ⟨none, none⟩
  servicer := ⟨fun vars _ => (⟨[], none, none⟩, vars), fun _ _ => ⟨rfl, rfl⟩⟩
  request := ()

/-- A bot on behalf of user 7, then a person, each as themselves. -/
theorem no_impersonation_bot_then_person :
    ActsAsItself .ascii probeClaims
      (after (serveCall .ascii probeClaims) ⟨none, none, none⟩
        [probeCall (some [("authorization", .text "Bearer robot"),
          ("x-on-behalf-user-id", .text "7")])])
      (probeCall (some [("authorization", .text "Bearer alice"),
        ("x-on-behalf-user-id", .text "7")])) := by
  refine (no_impersonation_iff .ascii probeClaims ⟨none, none, none⟩ ⟨rfl, rfl⟩
    [probeCall (some [("authorization", .text "Bearer robot"),
        ("x-on-behalf-user-id", .text "7")]),
      probeCall (some [("authorization", .text "Bearer alice"),
        ("x-on-behalf-user-id", .text "7")])]).mpr ?_ _ _ [] rfl
  intro c hc
  -- both bring the on-behalf entry as text
  have hfirst : firstEntry .ascii "x-on-behalf-user-id" c.metadata = some (.text "7") := by
    rcases mem_cons.mp hc with rfl | hc
    · decide
    · obtain rfl := mem_singleton.mp hc
      decide
  rintro ⟨-, value, hvalue, hdecode⟩
  obtain rfl := Option.some.inj (hfirst.symm.trans hvalue)
  cases hdecode

/-- A bot's call whose on-behalf entry is the byte `0xff` raises; the next call on the same context
brings no token, and its servicer acts as user 5, the bot. -/
theorem anonymous_call_acts_as_earlier_bot :
    let vars := after (serveCall .ascii probeClaims) ⟨none, none, none⟩
      [probeCall (some [("authorization", .text "Bearer robot"),
        ("x-on-behalf-user-id", .bytes ⟨#[0xff]⟩)])]
    ((probeCall none).run .ascii probeClaims vars).entered =
        [⟨none, some "robot", none⟩] ∧
      effectiveUserId .ascii probeClaims ⟨none, some "robot", none⟩ (some "robot") = .ok 5 ∧
      (probeCall none).subject .ascii probeClaims = .error "Authentication required." := by
  refine ⟨?_, ?_, ?_⟩
  · decide
  · rfl
  · rfl

end ServiceToolkit.Rpc
