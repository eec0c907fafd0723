import ServiceToolkit.Dict
import ServiceToolkit.Handlers
import ServiceToolkit.Runs
import ServiceToolkit.Text

/-!
# Which Caller May Call Which Method

The platform token says that a call came from inside the platform, not which service is
calling. A method listed in a `CallerPolicy` is decided per caller instead: the caller is
named by its own secret, presented on `x-internal-token`, and the method names the callers
it admits.

Both tables are checked when they are built. `CallerCredentials` holds every secret once
and none that is empty, and these two facts are fields of the structure: they are what
makes a presented value name at most one caller, and an absent one name none.
-/

namespace ServiceToolkit.Rpc

open ServiceToolkit.Text List

/-- Why a policy or a set of credentials is refused at construction. -/
inductive CallerPolicyError
  | badName (name : String)
  | badSecret (name : String)
  | sharedSecret (first second : String)
  | badMethod (method : String)
  | admitsNobody (method : String)
  | unknownCallers (method : String) (names : List String)
  deriving DecidableEq

/-! ### Credentials -/

/-- `[a-z0-9]`. -/
def isLowerOrDigit (c : Char) : Bool := ('a' ≤ c && c ≤ 'z') || ('0' ≤ c && c ≤ '9')

/-- `_CALLER_NAME.fullmatch`: `[a-z0-9][a-z0-9-]*`. -/
def isCallerName (name : String) : Bool :=
  match name.toList with
  | [] => false
  | c :: cs => isLowerOrDigit c && cs.all fun c => isLowerOrDigit c || c == '-'

/-- The callers a service knows, each with its encoded secret. -/
structure CallerCredentials where
  entries : List (String × ByteArray)
  secrets_nodup : (entries.map Prod.snd).Nodup
  secrets_ne_empty : ∀ e ∈ entries, e.2 ≠ "".toUTF8

namespace CallerCredentials

/-- No caller at all. -/
def empty : CallerCredentials := ⟨[], List.nodup_nil, by simp⟩

theorem toUTF8_inj {s t : String} : s.toUTF8 = t.toUTF8 ↔ s = t := String.toByteArray_inj

/-- One iteration of the constructor's loop. The source keeps the secrets seen so far in a
dictionary beside the entries; it is the entries read by secret. -/
def add (callers : CallerCredentials) (name secret : String) :
    Except CallerPolicyError CallerCredentials :=
  if ¬ isCallerName name then .error (.badName name)
  else if h : secret = "" ∨ secret.toList ≠ strip secret.toList then .error (.badSecret name)
  else
    match hseen : callers.entries.find? (fun e => e.2 = secret.toUTF8) with
    | some (first, _) => .error (.sharedSecret first name)
    | none => .ok
        { entries := callers.entries ++ [(name, secret.toUTF8)]
          secrets_nodup := by
            rw [List.map_append, List.nodup_append]
            refine ⟨callers.secrets_nodup, List.nodup_singleton _, ?_⟩
            rintro a ha b hb rfl
            obtain ⟨e, he, rfl⟩ := List.mem_map.mp ha
            obtain hb : e.2 = secret.toUTF8 := by simpa using hb
            simpa [hb] using List.find?_eq_none.mp hseen e he
          secrets_ne_empty := by
            intro e he
            rcases List.mem_append.mp he with he | he
            · exact callers.secrets_ne_empty e he
            · obtain rfl := List.mem_singleton.mp he
              exact fun heq => h (.inl (toUTF8_inj.mp heq)) }

/-- `CallerCredentials(secrets)`. -/
def make (secrets : Dict String String) : Except CallerPolicyError CallerCredentials :=
  secrets.entries.foldlM (fun callers e => callers.add e.1 e.2) empty

/-- The names of the known callers. -/
def names (callers : CallerCredentials) : Finset String :=
  (callers.entries.map Prod.fst).toFinset

/-- The caller a presented value names, or `none`. Every secret is compared, and the last
match is kept. -/
def resolve (callers : CallerCredentials) (presented : Option String) : Option String :=
  let candidate := (presented.getD "").toUTF8
  callers.entries.foldl (fun found e => if candidate = e.2 then some e.1 else found) none

variable {callers : CallerCredentials} {secret : String}

theorem entries_of_add {callers' : CallerCredentials} {name : String}
    (h : callers.add name secret = .ok callers') :
    callers'.entries = callers.entries ++ [(name, secret.toUTF8)] := by
  unfold add at h
  split at h
  · cases h
  · split at h
    · cases h
    · split at h
      · cases h
      · obtain rfl := Except.ok.inj h
        rfl

variable {secrets : Dict String String}

theorem entries_of_make (h : make secrets = .ok callers) :
    callers.entries = secrets.entries.map fun e => (e.1, e.2.toUTF8) := by
  refine foldlM_invariant (fun done c => c.entries = done.map fun e => (e.1, e.2.toUTF8)) rfl ?_ h
  intro done e c c' hc hadd
  rw [entries_of_add hadd, hc, map_append, map_singleton]

/-- The last match of a loop that keeps the last match, when no two entries match. -/
theorem foldl_match_eq_some_iff {K V : Type*} [DecidableEq V] (l : List (K × V))
    (hnodup : (l.map Prod.snd).Nodup) (v : V) (k : K) :
    l.foldl (fun found e => if v = e.2 then some e.1 else found) none = some k ↔
      (k, v) ∈ l := by
  induction l using reverseRecOn with
  | nil => simp
  | append_singleton l e ih =>
    rw [map_append, nodup_append] at hnodup
    rw [foldl_append, foldl_cons, foldl_nil, mem_append, mem_singleton]
    by_cases he : v = e.2
    · have habsent : (k, v) ∉ l := fun hmem =>
        hnodup.2.2 _ (mem_map_of_mem (f := Prod.snd) hmem) e.2 (by simp) he
      rw [if_pos he, Option.some_inj, or_iff_right habsent, Prod.ext_iff]
      exact ⟨fun hk => ⟨hk.symm, he⟩, fun hk => hk.1.symm⟩
    · rw [if_neg he, ih hnodup.1]
      exact (or_iff_left fun hk => he (congrArg Prod.snd hk)).symm

/-- **A presented value names a caller** exactly when it is that caller's secret; an absent
value names nobody, for no secret is empty. -/
theorem resolve_eq_some_iff
    (h : make secrets = .ok callers) (presented : Option String) (name : String) :
    callers.resolve presented = some name ↔
      ∃ secret, secrets.get? name = some secret ∧ presented = some secret := by
  have hentries := entries_of_make h
  rw [resolve, foldl_match_eq_some_iff _ callers.secrets_nodup]
  constructor
  · intro hmem
    have hne := callers.secrets_ne_empty _ hmem
    rw [hentries] at hmem
    obtain ⟨⟨name', secret⟩, hrow, heq⟩ := mem_map.mp hmem
    obtain ⟨rfl, hsecret⟩ := Prod.mk.inj heq
    have hsecret : secret = presented.getD "" := toUTF8_inj.mp hsecret
    refine ⟨secret, Dict.mem_entries_iff.mp hrow, ?_⟩
    cases presented with
    | none => exact absurd rfl hne
    | some value => rw [hsecret, Option.getD_some]
  · rintro ⟨secret, hrow, rfl⟩
    rw [hentries]
    exact mem_map.mpr ⟨(name, secret), Dict.mem_entries_iff.mpr hrow, rfl⟩

theorem ne_of_resolve_eq_none (h : make secrets = .ok callers) {presented : Option String}
    (hresolve : callers.resolve presented = none) {caller : String}
    (hsecret : secrets.get? caller = some secret) : presented ≠ some secret := by
  intro hpresented
  have hcaller := (resolve_eq_some_iff h presented caller).mpr ⟨secret, hsecret, hpresented⟩
  rw [hresolve] at hcaller
  cases hcaller

theorem eq_of_resolve_eq_some
    (h : make secrets = .ok callers) {presented : Option String} {name : String}
    (hresolve : callers.resolve presented = some name) {caller : String}
    (hsecret : secrets.get? caller = some secret) (hpresented : presented = some secret) :
    caller = name := by
  have hcaller := (resolve_eq_some_iff h presented caller).mpr ⟨secret, hsecret, hpresented⟩
  rw [hresolve] at hcaller
  exact (Option.some.inj hcaller).symm

end CallerCredentials

/-! ### Policies -/

/-- `[A-Za-z_]`. -/
def isIdentStart (c : Char) : Bool :=
  ('A' ≤ c && c ≤ 'Z') || ('a' ≤ c && c ≤ 'z') || c == '_'

/-- `[A-Za-z_]\w*`. -/
def isIdent (U : Unicode) : List Char → Bool
  | [] => false
  | c :: cs => isIdentStart c && cs.all U.isWord

/-- `[A-Za-z_][\w.]*\.[A-Za-z_]\w*`: at least two parts between full stops, the first and
the last of them identifiers. -/
def isServiceName (U : Unicode) (service : List Char) : Bool :=
  match service.splitOn '.' with
  | [] => false
  | first :: rest =>
    isIdent U first && rest.all (fun part => part.all U.isWord) && rest.getLast?.any (isIdent U)

/-- `_METHOD_PATH.fullmatch`: an exact `/package.Service/Method` path. -/
def isMethodPath (U : Unicode) (method : String) : Bool :=
  match method.toList.splitOn '/' with
  | [[], service, name] => isServiceName U service && isIdent U name
  | _ => false

/-- Exact method paths, each with the callers it admits: at least one, and all of them
known. -/
structure CallerPolicy where
  rules : Dict String (Finset String)
  callers : CallerCredentials
  admits : ∀ method names, rules.get? method = some names → names.Nonempty ∧ names ⊆ callers.names

/-- The outcome of a decision. -/
inductive Verdict
  | admitted
  | unauthenticated
  | permissionDenied
  deriving DecidableEq

/-- A verdict, with the caller it is about when one was named. -/
structure Decision where
  verdict : Verdict
  caller : Option String
  deriving DecidableEq

namespace CallerPolicy

/-- A policy without rules. -/
def empty (callers : CallerCredentials) : CallerPolicy :=
  ⟨.empty, callers, by simp⟩

/-- One iteration of the constructor's loop. -/
def add (U : Unicode) (policy : CallerPolicy) (method : String) (admitted : List String) :
    Except CallerPolicyError CallerPolicy :=
  let names := admitted.toFinset
  let unknown := names \ policy.callers.names
  if ¬ isMethodPath U method then .error (.badMethod method)
  else if hnone : names = ∅ then .error (.admitsNobody method)
  else if hunknown : unknown ≠ ∅ then .error (.unknownCallers method (unknown.sort (· ≤ ·)))
  else .ok
    { policy with
      rules := policy.rules.set method names
      admits := by
        intro m ns hm
        rw [Dict.get?_set] at hm
        split at hm
        · cases hm
          exact ⟨Finset.nonempty_iff_ne_empty.mpr hnone,
            Finset.sdiff_eq_empty_iff_subset.mp (not_not.mp hunknown)⟩
        · exact policy.admits m ns hm }

/-- `CallerPolicy(rules, callers)`. -/
def make (U : Unicode) (rules : Dict String (List String)) (callers : CallerCredentials) :
    Except CallerPolicyError CallerPolicy :=
  rules.entries.foldlM (fun policy e => policy.add U e.1 e.2) (empty callers)

/-- Whether the policy lists a method. -/
def covers (policy : CallerPolicy) (method : String) : Bool := (policy.rules.get? method).isSome

/-- The one decision for a listed method; `none` is the `KeyError` of an unlisted one. -/
def decide (policy : CallerPolicy) (method : String) (presented : Option String) :
    Option Decision :=
  match policy.callers.resolve presented with
  | none => some ⟨.unauthenticated, none⟩
  | some caller =>
    (policy.rules.get? method).map fun names =>
      if caller ∉ names then ⟨.permissionDenied, some caller⟩ else ⟨.admitted, some caller⟩

theorem add_eq_ok {U : Unicode} {policy policy' : CallerPolicy} {method : String}
    {admitted : List String} (h : policy.add U method admitted = .ok policy') :
    policy'.callers = policy.callers ∧
      policy'.rules = policy.rules.set method admitted.toFinset := by
  unfold add at h
  simp only at h
  split at h
  · cases h
  · split at h
    · cases h
    · split at h
      · cases h
      · obtain rfl := Except.ok.inj h
        exact ⟨rfl, rfl⟩

/-- A policy that was built holds its credentials and, for every method, the callers its
table of rules gives. -/
theorem make_eq_ok {U : Unicode} {rules : Dict String (List String)}
    {callers : CallerCredentials} {policy : CallerPolicy} (h : make U rules callers = .ok policy) :
    policy.callers = callers ∧
      ∀ method, policy.rules.get? method = (rules.get? method).map List.toFinset := by
  have hloop : policy.callers = callers ∧ ∀ method,
      policy.rules.get? method = (rules.entries.reverse.lookup method).map toFinset := by
    refine foldlM_invariant (fun done p => p.callers = callers ∧ ∀ method,
      p.rules.get? method = (done.reverse.lookup method).map toFinset) ⟨rfl, fun method => rfl⟩ ?_ h
    rintro done ⟨m, admitted⟩ p p' ⟨hcallers, hrules⟩ hadd
    obtain ⟨hc, hr⟩ := add_eq_ok hadd
    refine ⟨hc.trans hcallers, fun method => ?_⟩
    rw [hr, Dict.get?_set, hrules, reverse_append, reverse_singleton,
      singleton_append, Dict.lookup_cons_eq]
    split <;> rfl
  refine ⟨hloop.1, fun method => ?_⟩
  rw [hloop.2, Dict.lookup_reverse rules.nodup]
  rfl

end CallerPolicy

/-! ### The two answers -/

/-- `_REFUSALS`, with its fallback: anything but a denied permission is `UNAUTHENTICATED`. -/
def refusals : Verdict → StatusCode × String
  | .permissionDenied => (.permissionDenied, "this caller may not call this method")
  | .unauthenticated | .admitted => (.unauthenticated, "unknown caller")

section

variable {σ α β ε π : Type*}

/-- The call of a behaviour that aborts at once. -/
def abortRun (code : StatusCode) (details : String) (vars : σ) : Run σ β ε :=
  { items := [], failure := some (.abort code details), status := none, vars := vars,
    entered := [] }

/-- A handler of the given handler's kind that aborts: a coroutine for every kind. -/
def refusing (handler : Handler σ α β ε) (code : StatusCode) (details : String) :
    Handler σ α β ε :=
  rebuild handler .async fun vars _ => abortRun code details vars

/-- The handler with `current_caller` set to the caller while it runs. -/
def asCaller (handler : Handler (Vars π) α β ε) (caller : String) : Handler (Vars π) α β ε :=
  wrap handler
    (some fun vars =>
      ({ vars with currentCaller := some caller },
        some fun _ _ after => { after with currentCaller := vars.currentCaller }))
    none

@[simp] theorem refusing_behaviour (handler : Handler σ α β ε) (code : StatusCode)
    (details : String) (vars : σ) (request : α) :
    (refusing handler code details).behaviour vars request = abortRun code details vars := rfl

theorem refusing_refused (handler : Handler σ α β ε) (code : StatusCode) (details : String)
    (vars : σ) (request : α) :
    ((refusing handler code details).behaviour vars request).Refused code details := by
  rw [refusing_behaviour]
  exact ⟨rfl, rfl⟩

/-- A call of a handler run as a caller: the handler's own call under that caller's name,
which is taken back afterwards. -/
theorem asCaller_behaviour (handler : Handler (Vars π) α β ε) (caller : String) (vars : Vars π)
    (request : α) :
    (asCaller handler caller).behaviour vars request =
      let inner := handler.behaviour { vars with currentCaller := some caller } request
      { inner with vars := { inner.vars with currentCaller := vars.currentCaller } } :=
  wrap_enter handler _ vars request

end

end ServiceToolkit.Rpc
