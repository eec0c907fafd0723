import ServiceToolkit.Json
import ServiceToolkit.PermsFence

/-!
# The Invalidation Messages of the Permission Resolver

Two handlers receive what NATS delivers. `_handle_user_invalidation` takes the user id from the end
of the subject, and only if there is none from `data.user_id` of the body.
`_handle_role_invalidation` takes a list of ids, `data.user_ids`. Both convert with `int()`, and
both catch `ValueError`, `KeyError` and `TypeError` around the whole of it.

A user id stands in a well-formed place if it is a decimal end of the subject, or an integer or a
decimal text at `data.user_id` or in `data.user_ids`. A handler that returns has invalidated such a
user if nothing of theirs is cached or in flight, and the fetches that run for them are fenced
(`Dropped`).

But one element that `int()` does not take loses the whole list; a number that reads as infinite
raises an `OverflowError`, which nobody catches, as does a body that nests too deeply; and an id in
the subject hides the one in the body.
-/

namespace ServiceToolkit.Perms

open Text Json List

/-! ### Messages -/

/-- The data of a message: no bytes, a JSON document, or bytes that `decode` or `json.loads`
raises on. -/
inductive Body
  | empty
  | document (v : Value)
  | unreadable (e : Raised)

/-- What a handler reads of a message. -/
structure Message where
  subject : String
  body : Body

/-- The resolver's subject, and what Python brings: the tables of `int()`, and how deep a document
may nest. -/
structure Receiver where
  invalidationSubjectPrefix : String
  decimals : Decimals
  depth : ℕ

/-- `_user_subject_prefix`. -/
def Receiver.userSubjectPrefix (r : Receiver) : List Char :=
  r.invalidationSubjectPrefix.toList.rdropWhile (· = '.')

/-- The document in the data: no bytes stand for an empty one. -/
def Body.document? : Body → Option Value
  | .empty => some (.dict [])
  | .document v => some v
  | .unreadable _ => none

/-- The exception that reading the data raises. -/
def Body.loadError (depth : ℕ) : Body → Option Raised
  | .empty => none
  | .document v => v.loadError depth
  | .unreadable e => some e

/-- `json.loads(bytes(msg.data).decode("utf-8") or "{}")`. -/
def loads (r : Receiver) : Body → Except Raised Value
  | .empty => .ok (.dict [])
  | .document v =>
    match v.loadError r.depth with
    | none => .ok v
    | some e => .error e
  | .unreadable e => .error e

/-- The end of the subject, after the prefix and a full stop. -/
def Receiver.subjectTail (r : Receiver) (subject : String) : Option (List Char) :=
  if r.userSubjectPrefix ++ ['.'] <+: subject.toList then
    some (subject.toList.drop (r.userSubjectPrefix ++ ['.']).length)
  else none

/-- `_user_id_from_subject`. -/
def userIdFromSubject (r : Receiver) (subject : String) : Option ℤ :=
  (r.subjectTail subject).bind fun tail => pythonInt r.decimals.toUnicode tail

/-- `data["user_id"]`, if there is a `data` that has one. -/
def dataUserId (payload : Value) : Option Value :=
  (payload.get? "data").bind (Value.get? "user_id")

/-- The `try` block of `_handle_user_invalidation`: the users it invalidates, `none` if it does not
come to a call. -/
def userTargets (r : Receiver) (msg : Message) : Except Raised (Option (List ℤ)) :=
  match userIdFromSubject r msg.subject with
  | some userId => .ok (some [userId])
  | none => do
      let payload ← loads r msg.body
      match dataUserId payload with
      | none => pure none
      | some v => do
          let userId ← v.toInt r.decimals
          pure (some [userId])

/-- `data.get("user_ids") or []`. -/
def userIdsOr (data : Value) : Value :=
  ((data.get? "user_ids").filter Value.truthy).getD (.list [])

/-- The `try` block of `_handle_role_invalidation`, after the data was read. -/
def payloadTargets (r : Receiver) (payload : Value) : Except Raised (Option (List ℤ)) :=
  match payload.get? "data" with
  | some (.dict members) =>
    match userIdsOr (.dict members) with
    | .list elements => (elements.mapM (Value.toInt r.decimals)).map some
    | _ => .ok none
  | _ => .ok none

/-- The `try` block of `_handle_role_invalidation`. -/
def roleTargets (r : Receiver) (msg : Message) : Except Raised (Option (List ℤ)) := do
  payloadTargets r (← loads r msg.body)

/-- `except (ValueError, KeyError, TypeError, json.JSONDecodeError)`. -/
def caught : Raised → Bool
  | .valueError | .typeError => true
  | .overflowError | .recursionError => false

/-- How a handler ends: it returns, after a line in the log or not, or an exception comes out. -/
inductive Ending
  | returned
  | logged (text : String)
  | raised (e : Raised)
  deriving DecidableEq

/-- The resolver and its count of messages. -/
structure Listener where
  resolver : State
  invalidationsReceived : ℕ

/-- A handler, given what its `try` block invalidates and the line it logs. -/
def handle (targets : Except Raised (Option (List ℤ))) (text : String) (l : Listener) :
    Ending × Listener :=
  let l := { l with invalidationsReceived := l.invalidationsReceived + 1 }
  match targets with
  | .ok none => (.returned, l)
  | .ok (some userIds) => (.returned, { l with resolver := invalidateMany l.resolver userIds })
  | .error e => (if caught e then .logged text else .raised e, l)

/-- `_handle_user_invalidation`. -/
def handleUserInvalidation (r : Receiver) (msg : Message) : Listener → Ending × Listener :=
  handle (userTargets r msg) "Failed to handle RBAC user invalidation message"

/-- `_handle_role_invalidation`. -/
def handleRoleInvalidation (r : Receiver) (msg : Message) : Listener → Ending × Listener :=
  handle (roleTargets r msg) "Failed to handle RBAC role invalidation message"

/-! ### What is asked of a handler -/

/-- **The user is invalidated**: nothing of theirs is cached or in flight, and their epoch moves on
if a fetch for them is running. -/
structure Dropped (uid : ℤ) (s s' : State) : Prop where
  cache : ∀ tenant, s'.cache.get? (uid, tenant) = none
  inflight : ∀ tenant, s'.inflight.get? (uid, tenant) = none
  epoch : uid ∈ s.running.keys → s'.epochs.getD uid 0 = s.epochs.getD uid 0 + 1

/-- **A message is received**: whatever the state of the resolver, the handler returns and has
invalidated these users. -/
def Received (handler : Listener → Ending × Listener) (userIds : List ℤ) : Prop :=
  ∀ l, (∀ e, (handler l).1 ≠ .raised e) ∧
    ∀ uid ∈ userIds, Dropped uid l.resolver (handler l).2.resolver

/-- The well-formed id at `data.user_id`. -/
def Body.userId (body : Body) : Option ℤ := (body.document?.bind dataUserId).bind Value.whole

/-- The elements of the list at `data.user_ids`. -/
def Body.elements (body : Body) : List Value :=
  match body.document?.bind fun v => (v.get? "data").bind (Value.get? "user_ids") with
  | some (.list elements) => elements
  | _ => []

/-- The well-formed ids of a message for the user handler. -/
def userPlaces (r : Receiver) (msg : Message) : List ℤ :=
  ((r.subjectTail msg.subject).bind decimal).toList ++ msg.body.userId.toList

/-- The well-formed ids of a message for the role handler. -/
def rolePlaces (msg : Message) : List ℤ := msg.body.elements.filterMap Value.whole

/-- The value reads as an infinite number. -/
def isInfinite : Value → Bool
  | .float (.infinite _) => true
  | _ => false

/-- `int()` takes the value for this user id. -/
def names (D : Decimals) (v : Value) (uid : ℤ) : Bool := (v.toInt D).toOption = some uid

/-- **The condition for the user handler.** If `int()` takes the end of the subject, the well-formed
ids are this one. If not, the data loads, or is caught without a well-formed id; and `data.user_id`,
if there, is not infinite and stands for the well-formed ids. -/
def userReceived (r : Receiver) (msg : Message) : Bool :=
  match userIdFromSubject r msg.subject with
  | some userId => (userPlaces r msg).all (· = userId)
  | none =>
    match msg.body.loadError r.depth with
    | some e => caught e && (userPlaces r msg).isEmpty
    | none =>
      match msg.body.document?.bind dataUserId with
      | none => (userPlaces r msg).isEmpty
      | some v => !isInfinite v && (userPlaces r msg).all (names r.decimals v)

/-- **The condition for the role handler.** The data loads, or is caught and has no well-formed id.
Then `int()` takes every element of `data.user_ids`, or the first it does not take is not infinite
and none is well-formed. -/
def roleReceived (r : Receiver) (msg : Message) : Bool :=
  match msg.body.loadError r.depth with
  | some e => caught e && msg.body.elements.all fun v => v.whole.isNone
  | none =>
    match msg.body.elements.find? fun v => !v.converts r.decimals with
    | none => true
    | some v => !isInfinite v && msg.body.elements.all fun v => v.whole.isNone

/-! ### What a handler does -/

/-- The users that are invalidated. -/
def invalidated : Except Raised (Option (List ℤ)) → List ℤ
  | .ok (some userIds) => userIds
  | _ => []

theorem dropped_invalidateMany (s : State) {uid : ℤ} {userIds : List ℤ} (h : uid ∈ userIds) :
    Dropped uid s (invalidateMany s userIds) where
  cache tenant := (invalidateMany_get?_none (k := (uid, tenant)) h).1
  inflight tenant := (invalidateMany_get?_none (k := (uid, tenant)) h).2
  epoch hrunning := by
    change (bumpEpochs s.running s.epochs userIds.dedup).getD uid 0 = _
    rw [bumpEpochs_getD _ _ _ _ (nodup_dedup userIds),
      if_pos ⟨mem_dedup.mpr h, hrunning⟩]

/-- A listener that has cached an answer for a user. -/
def cachedFor (uid : ℤ) : Listener where
  resolver := { State.initial with
    cache := Dict.empty.set (uid, none) ⟨0, 0, [], 0, 0, 0⟩ }
  invalidationsReceived := 0

theorem not_dropped {targets : Except Raised (Option (List ℤ))} {text : String} {uid : ℤ}
    (h : uid ∉ invalidated targets) :
    ¬ Dropped uid (cachedFor uid).resolver (handle targets text (cachedFor uid)).2.resolver := by
  intro hdropped
  have hcache := hdropped.cache none
  have hcached : (cachedFor uid).resolver.cache.get? (uid, none) = some ⟨0, 0, [], 0, 0, 0⟩ := by
    simp [cachedFor]
  rcases targets with e | _ | userIds
  · cases hcached.symm.trans hcache
  · cases hcached.symm.trans hcache
  · have hkeeps : (invalidateMany (cachedFor uid).resolver userIds).cache.get? (uid, none) =
        (cachedFor uid).resolver.cache.get? (uid, none) := by
      have hnot : uid ∉ userIds := h
      simp [invalidateMany, hnot]
    cases hcached.symm.trans (hkeeps.symm.trans hcache)

/-- **A message is received** exactly if no exception comes out of the `try` block uncaught and the
users are among its targets. -/
theorem received_iff (targets : Except Raised (Option (List ℤ))) (text : String)
    (userIds : List ℤ) : Received (handle targets text) userIds ↔
      (∀ e, targets = .error e → caught e = true) ∧ ∀ uid ∈ userIds, uid ∈ invalidated targets := by
  constructor
  · intro h
    constructor
    · rintro e rfl
      by_contra hcaught
      refine (h (cachedFor 0)).1 e ?_
      simp [handle, hcaught]
    · intro uid huid
      by_contra hnot
      exact not_dropped hnot ((h (cachedFor uid)).2 uid huid)
  · rintro ⟨hcaught, hids⟩ l
    rcases targets with e | _ | ids
    · refine ⟨fun e' he' => ?_, fun uid huid => absurd (hids uid huid) not_mem_nil⟩
      simp [handle, hcaught e rfl] at he'
    · exact ⟨fun e' he' => (by cases he'), fun uid huid => absurd (hids uid huid) not_mem_nil⟩
    · exact ⟨fun e' he' => (by cases he'), fun uid huid => dropped_invalidateMany _ (hids uid huid)⟩

section

variable (r : Receiver) (msg : Message)

theorem loads_cases (body : Body) :
    (∃ e, body.loadError r.depth = some e ∧ loads r body = .error e) ∨
      ∃ v, body.loadError r.depth = none ∧ body.document? = some v ∧ loads r body = .ok v := by
  cases body with
  | empty => exact .inr ⟨_, rfl, rfl, rfl⟩
  | unreadable e => exact .inl ⟨e, rfl, rfl⟩
  | document v =>
    cases h : v.loadError r.depth with
    | none => exact .inr ⟨v, h, rfl, by rw [loads, h]⟩
    | some e => exact .inl ⟨e, h, by rw [loads, h]⟩

/-- Of what `int()` raises, the exception for an infinite number is not caught. -/
theorem caught_of_toInt {D : Decimals} {v : Value} {e : Raised} (h : v.toInt D = .error e) :
    caught e = !isInfinite v := by
  cases v with
  | null | list | dict =>
    cases h
    rfl
  | int | bool => cases h
  | float x =>
    cases x with
    | finite => cases h
    | infinite | nan =>
      cases h
      rfl
  | str text =>
    rw [Value.toInt] at h
    split at h
    · cases h
    · cases h
      rfl

theorem isInfinite_of_toInt {D : Decimals} {v : Value} {n : ℤ} (h : v.toInt D = .ok n) :
    isInfinite v = false := by
  unfold isInfinite
  split
  · cases h
  · rfl

theorem user_received_iff :
    Received (handleUserInvalidation r msg) (userPlaces r msg) ↔ userReceived r msg = true := by
  rw [handleUserInvalidation, received_iff, userReceived, userTargets]
  cases hsubject : userIdFromSubject r msg.subject with
  | some userId => simp [invalidated]
  | none =>
    rcases loads_cases r msg.body with ⟨e, herror, hloads⟩ | ⟨payload, herror, hdoc, hloads⟩
    · rw [hloads, herror]
      simp [bind, Except.bind, invalidated, eq_nil_iff_forall_not_mem]
    · rw [hloads, herror, hdoc, Option.bind_some]
      cases hid : dataUserId payload with
      | none => simp [bind, Except.bind, pure, Except.pure, invalidated, hid,
          eq_nil_iff_forall_not_mem]
      | some v =>
        cases hv : v.toInt r.decimals with
        | error e =>
          have hnames : ∀ uid, names r.decimals v uid = false := by
            simp [names, hv, Except.toOption]
          simp [bind, Except.bind, invalidated, hid, hv, hnames, caught_of_toInt hv]
        | ok userId =>
          have hnames : ∀ uid, names r.decimals v uid = decide (uid = userId) := by
            intro uid
            simp [names, hv, Except.toOption, eq_comm (a := uid)]
          simp [bind, Except.bind, pure, Except.pure, invalidated, hid, hv, hnames,
            isInfinite_of_toInt hv]

/-- What the `try` block of the role handler converts are the elements at `data.user_ids`. -/
theorem payloadTargets_eq {payload : Value} (hdoc : msg.body.document? = some payload) :
    payloadTargets r payload = .ok none ∧ msg.body.elements = [] ∨
      payloadTargets r payload =
        (msg.body.elements.mapM (Value.toInt r.decimals)).map some := by
  rw [Body.elements, hdoc, Option.bind_some, payloadTargets]
  cases payload.get? "data" with
  | none => exact .inl ⟨rfl, rfl⟩
  | some data =>
    cases data with
    | dict members =>
      simp only [Option.bind_some, userIdsOr]
      cases (Value.dict members).get? "user_ids" with
      | none => exact .inr rfl
      | some v =>
        cases htruthy : v.truthy with
        | false =>
          rw [Option.filter_some_neg (by simp [htruthy])]
          cases v with
          | list elements =>
            cases elements with
            | nil => exact .inr rfl
            | cons => cases htruthy
          | null | bool | int | float | str | dict => exact .inr rfl
        | true =>
          rw [Option.filter_some_pos htruthy]
          cases v with
          | list elements => exact .inr rfl
          | null | bool | int | float | str | dict => exact .inl ⟨rfl, rfl⟩
    | null | bool | int | float | str | list => exact .inl ⟨rfl, rfl⟩

theorem role_received_iff :
    Received (handleRoleInvalidation r msg) (rolePlaces msg) ↔ roleReceived r msg = true := by
  rw [handleRoleInvalidation, received_iff, roleReceived, rolePlaces]
  have hnone : (∀ uid ∈ msg.body.elements.filterMap Value.whole, uid ∈ ([] : List ℤ)) ↔
      (msg.body.elements.all fun v => v.whole.isNone) = true := by
    simp only [not_mem_nil, imp_false, mem_filterMap, not_exists, not_and,
      all_eq_true, Option.isNone_iff_eq_none]
    exact ⟨fun h v hv => Option.eq_none_iff_forall_ne_some.mpr fun uid => h uid v hv,
      fun h uid v hv hwhole => by cases (h v hv).symm.trans hwhole⟩
  rcases loads_cases r msg.body with ⟨e, herror, hloads⟩ | ⟨payload, herror, hdoc, hloads⟩
  · have htargets : roleTargets r msg = .error e := by
      rw [roleTargets, hloads]
      rfl
    rw [htargets, herror]
    simp only [invalidated, hnone, Bool.and_eq_true]
    simp
  · rw [herror]
    have hpayload : roleTargets r msg = payloadTargets r payload := by
      rw [roleTargets, hloads]
      rfl
    rw [hpayload]
    rcases payloadTargets_eq r msg hdoc with ⟨htargets, helements⟩ | htargets
    · simp [htargets, helements]
    · rw [htargets]
      cases hfind : msg.body.elements.find? fun v => !v.converts r.decimals with
      | none =>
        have hconverts : ∀ v ∈ msg.body.elements, v.converts r.decimals = true := by
          intro v hv
          simpa using find?_eq_none.mp hfind v hv
        obtain ⟨ns, hns, hmem⟩ := mapM_toInt_ok r.decimals hconverts
        rw [hns]
        refine iff_of_true ⟨fun e he => (by cases he), fun uid huid => ?_⟩ rfl
        obtain ⟨v, hv, hwhole⟩ := mem_filterMap.mp huid
        obtain ⟨n, hn⟩ := (converts_eq_true_iff r.decimals).mp (hconverts v hv)
        rcases toInt_decimal r.decimals hwhole with hint | hint
        · exact hmem v hv uid hint
        · cases hn.symm.trans hint
      | some v =>
        obtain ⟨e, hv, he⟩ := mapM_toInt_error r.decimals hfind
        simp only [he, Except.map, invalidated, hnone, ← caught_of_toInt hv, Bool.and_eq_true]
        simp

/-- **Which messages are received**, of all subjects and bodies. -/
theorem messages_received_iff :
    (Received (handleUserInvalidation r msg) (userPlaces r msg) ↔ userReceived r msg = true) ∧
      (Received (handleRoleInvalidation r msg) (rolePlaces msg) ↔ roleReceived r msg = true) :=
  ⟨user_received_iff r msg, role_received_iff r msg⟩

end

/-- A receiver with the default subject. -/
def defaultReceiver : Receiver := ⟨"auth.rbac.user.invalidated", .ascii, 1000⟩

/-! ### Messages among the calls -/

/-- What happens in a service: a message is handled, or the resolver makes a step. -/
inductive Input
  | user (msg : Message)
  | role (msg : Message)
  | event (e : Event)

def serviceStep (cfg : Config) (r : Receiver) (l : Listener) : Input → Option Listener
  | .user msg => some (handleUserInvalidation r msg l).2
  | .role msg => some (handleRoleInvalidation r msg l).2
  | .event e => (step cfg l.resolver e).map fun s => { l with resolver := s }

/-- The event of the resolver that a `try` block is. -/
def invalidation : Except Raised (Option (List ℤ)) → Option Event
  | .ok (some userIds) => some (.invalidateMany userIds)
  | _ => none

def Input.event? (r : Receiver) : Input → Option Event
  | .user msg => invalidation (userTargets r msg)
  | .role msg => invalidation (roleTargets r msg)
  | .event e => some e

/-- A message that is received and names the user. -/
def Input.Announces (r : Receiver) (uid : ℤ) : Input → Prop
  | .user msg => userReceived r msg = true ∧ uid ∈ userPlaces r msg
  | .role msg => roleReceived r msg = true ∧ uid ∈ rolePlaces msg
  | .event _ => False

section

variable {cfg : Config} {r : Receiver} {l l' : Listener}

/-- **A run of the service is a run of its resolver.** -/
theorem run_resolver {inputs : List Input} (h : run (serviceStep cfg r) l inputs = some l') :
    run (step cfg) l.resolver (inputs.filterMap (Input.event? r)) = some l'.resolver := by
  have hhandle : ∀ (targets : Except Raised (Option (List ℤ))) (text : String) (l : Listener),
      (∀ e, invalidation targets = some e →
        step cfg l.resolver e = some (handle targets text l).2.resolver) ∧
      (invalidation targets = none → (handle targets text l).2.resolver = l.resolver) := by
    rintro (_ | _ | userIds) text l
    · exact ⟨nofun, fun _ => rfl⟩
    · exact ⟨nofun, fun _ => rfl⟩
    · exact ⟨fun e he => (by cases he; rfl), nofun⟩
  refine run_part Listener.resolver (fun {l input l' e} he hs => ?_)
    (fun {l input l'} he hs => ?_) h
  · cases input with
    | user msg | role msg =>
      cases hs
      exact (hhandle _ _ _).1 e he
    | event e' =>
      cases he
      obtain ⟨s, hstep, rfl⟩ := Option.map_eq_some_iff.mp hs
      exact hstep
  · cases input with
    | user msg | role msg =>
      cases hs
      exact (hhandle _ _ _).2 he
    | event e' => cases he

theorem Input.Announces.event {input : Input} {uid : ℤ} (h : input.Announces r uid) :
    ∃ e, input.event? r = some e ∧ e.Invalidates uid := by
  have hevent : ∀ targets, uid ∈ invalidated targets →
      ∃ e, invalidation targets = some e ∧ e.Invalidates uid := by
    rintro (_ | _ | userIds) huid
    · cases huid
    · cases huid
    · exact ⟨_, rfl, huid⟩
  cases input with
  | user msg =>
    exact hevent _ (((received_iff _ _ _).mp ((user_received_iff r msg).mpr h.1)).2 uid h.2)
  | role msg =>
    exact hevent _ (((received_iff _ _ _).mp ((role_received_iff r msg).mpr h.1)).2 uid h.2)
  | event e => exact h.elim

/-- **A message fences what was fetched before it.** In every run of a service, a call of `get`
after a received message that names its user never receives an answer of a fetch created before it.
-/
theorem message_fences {before between rest : List Input} {input : Input} {key : SubjectKey}
    {now : ℚ} {l₁ l₂ : Listener}
    (h₁ : run (serviceStep cfg r) ⟨.initial, 0⟩ before = some l₁)
    (h₂ : run (serviceStep cfg r) l₁ (input :: between) = some l₂)
    (h : run (serviceStep cfg r) l₂ (.event (.get key now) :: rest) = some l)
    (hannounces : input.Announces r key.1) :
    ∃ c : Call, l.resolver.calls[l₂.resolver.calls.length]? = some c ∧ c.key = key ∧
      ∀ p f, c.phase = .done (.perms p f) → l₁.resolver.fetches.length ≤ f := by
  obtain ⟨e, hevent, huid⟩ := hannounces.event
  have hinv₁ : Inv l₁.resolver := inv_run (run_resolver h₁)
  have hrun₂ := run_resolver h₂
  rw [filterMap_cons_some hevent] at hrun₂
  obtain ⟨t, ht, hrun₂⟩ := run_cons_eq_some hrun₂
  have hinv₂ : Inv l₂.resolver := run_invariant inv_step (inv_step hinv₁ ht) hrun₂
  have hfence₂ := fenced_run (inv_step hinv₁ ht) (fenced_of_invalidates hinv₁ huid ht) hrun₂
  obtain ⟨g, hg, hrun⟩ := run_cons_eq_some (run_resolver h)
  have hnew : (g.calls[l₂.resolver.calls.length]?).map Call.key = some key := by
    cases hg
    simp [Perms.get]
  obtain ⟨c, hc, hk⟩ := Option.map_eq_some_iff.mp (run_invariant
    (P := fun s => (s.calls[l₂.resolver.calls.length]?).map Call.key = some key)
    call_key_step hnew hrun)
  refine ⟨c, hc, hk, fun p f hp => ?_⟩
  have hfence := fenced_run (inv_step hinv₂ hg) (fenced_step hinv₂ hfence₂ hg) hrun
  have hlater := hfence.later hfence₂.calls hc (by rw [hk])
  rw [hp] at hlater
  exact hlater

end

/-- The schedule with a message in place of its invalidation. -/
theorem message_fences_overtaken :
    ∃ l₁ l₂ l : Listener,
      run (serviceStep ⟨30, 10⟩ defaultReceiver) ⟨.initial, 0⟩
        ((overtakenSchedule.take 3).map .event) = some l₁ ∧
      run (serviceStep ⟨30, 10⟩ defaultReceiver) l₁
        [.user ⟨"auth.rbac.user.invalidated.1", .empty⟩] = some l₂ ∧
      run (serviceStep ⟨30, 10⟩ defaultReceiver) l₂
        ((overtakenSchedule.drop 4).map .event) = some l ∧
      ∃ c : Call, l.resolver.calls[l₂.resolver.calls.length]? = some c ∧ c.key = (1, none) ∧
        ∀ p f, c.phase = .done (.perms p f) → l₁.resolver.fetches.length ≤ f :=
  ⟨_, _, _, rfl, rfl, rfl, @message_fences _ _ _ ((overtakenSchedule.take 3).map .event) []
    ((overtakenSchedule.drop 5).map .event) (.user ⟨"auth.rbac.user.invalidated.1", .empty⟩)
    (1, none) 0 _ _ rfl rfl rfl ⟨by decide +kernel, by decide +kernel⟩⟩

/-- `{"data": {"user_ids": [7, null]}}`. -/
def nullMessage : Message where
  subject := "auth.rbac.role.invalidated.3"
  body := .document (.dict [("data", .dict [("user_ids", .list [.int 7, .null])])])

/-- `{"data": {"user_id": 1e400}}`. -/
def infiniteMessage : Message where
  subject := "auth.rbac.user.invalidated"
  body := .document (.dict [("data", .dict [("user_id", .float (.infinite false))])])

/-- A `null` in the list loses the user beside it: the cached answer stays. And an exception comes
out of the handler for a number that reads as infinite. -/
theorem null_loses_users :
    rolePlaces nullMessage = [7] ∧
      (handleRoleInvalidation defaultReceiver nullMessage (cachedFor 7)).1 =
        .logged "Failed to handle RBAC role invalidation message" ∧
      (handleRoleInvalidation defaultReceiver nullMessage
        (cachedFor 7)).2.resolver.cache.get? (7, none) = some ⟨0, 0, [], 0, 0, 0⟩ ∧
      (handleUserInvalidation defaultReceiver infiniteMessage (cachedFor 7)).1 =
        .raised .overflowError := by
  decide +kernel

end ServiceToolkit.Perms
