import Mathlib.Algebra.Order.Floor.Ring
import Mathlib.Algebra.Order.Ring.Rat
import Mathlib.Data.Rat.Floor
import Mathlib.Logic.Function.Basic
import ServiceToolkit.Runs

/-!
# The Redis Lock

Any number of `RedisLock` instances, each with its own token, work on one key of a Redis server.
`acquire` stores the token with `SET NX PX`; the scripts of `release` and `extend` delete the key,
or set its time to live, if it still stores the token. What an instance knows is its flag
`_held`, a copy that is updated when a reply arrives.

The calls of an instance are sequential. A call is three events: it starts and sends its command,
the server executes the command atomically, and the reply reaches the instance, each as late as
it may. The server's clock moves in between, and the key vanishes at its expiry instant.
-/

namespace ServiceToolkit.RedisLock

open Option

/-! ### Instances and the server -/

/-- The instances on a key, by their tokens, no two alike, and their `ttl_seconds`; and the product
of floats `ttl * 1000`. -/
structure Locks (I : Type*) where
  token : I → String
  ttlSeconds : I → ℚ
  millis : ℚ → ℚ
  token_injective : Function.Injective token

/-- `max(1, int(ttl * 1000))`. -/
def Locks.ttlMs {I : Type*} (L : Locks I) (ttlSeconds : ℚ) : ℕ :=
  (max 1 ⌊L.millis ttlSeconds⌋).toNat

/-- Where an instance is in its calls. A command carries its reply once the server has executed
it. -/
inductive Call
  | idle
  | acquiring (reply : Option Bool)
  | releasing (reply : Option Bool)
  | extending (ttlMs : ℕ) (reply : Option Bool)
  deriving DecidableEq

/-- The instance is in the middle of a `release`. -/
def Call.inRelease : Call → Bool
  | .releasing _ => true
  | _ => false

/-- The server's clock in milliseconds, what the key stores and when it expires, and the
instances. -/
structure State (I : Type*) where
  now : ℕ
  key : Option (String × ℕ)
  held : I → Bool
  call : I → Call

variable {I : Type*} [DecidableEq I] (L : Locks I)

/-- New instances; the key may store anything. -/
def State.initial (key : Option (String × ℕ)) : State I where
  now := 0
  key := key
  held _ := false
  call _ := .idle

/-- What can happen next. -/
inductive Event (I : Type*)
  | acquire (i : I)
  | release (i : I)
  | extend (i : I) (ttlSeconds : Option ℚ)
  | execute (i : I)
  | reply (i : I)
  | elapse (ms : ℕ)
  deriving DecidableEq

/-- An instance moves on in its call. -/
def State.setCall (s : State I) (i : I) (call : Call) : State I :=
  { s with call := Function.update s.call i call }

/-- The key stores the token. -/
def State.stores (s : State I) (token : String) : Bool := s.key.any fun k => k.1 == token

/-- The server executes the command of an instance: what it leaves in the key, and the reply. -/
def executeCommand (s : State I) (i : I) : Call → Option (Option (String × ℕ) × Call)
  | .acquiring none =>
    if s.key.isSome then some (s.key, .acquiring (some false))
    else some (some (L.token i, s.now + L.ttlMs (L.ttlSeconds i)), .acquiring (some true))
  | .releasing none =>
    if s.stores (L.token i) then some (none, .releasing (some true))
    else some (s.key, .releasing (some false))
  | .extending ttlMs none =>
    if s.stores (L.token i) then
      some (some (L.token i, s.now + ttlMs), .extending ttlMs (some true))
    else some (s.key, .extending ttlMs (some false))
  | _ => none

/-- The reply reaches the instance: the flag it leaves. -/
def receiveReply (held : Bool) : Call → Option Bool
  | .acquiring (some result) => some result
  | .releasing (some _) => some false
  | .extending _ (some ok) => some (held && ok)
  | _ => none

/-- One event. -/
def step (s : State I) : Event I → Option (State I)
  | .acquire i => if s.call i = .idle then some (s.setCall i (.acquiring none)) else none
  | .release i =>
    if s.call i = .idle then
      some (if s.held i then s.setCall i (.releasing none) else s)
    else none
  | .extend i ttlSeconds =>
    if s.call i = .idle then
      some (if s.held i then
        s.setCall i (.extending (L.ttlMs (ttlSeconds.getD (L.ttlSeconds i))) none) else s)
    else none
  | .execute i =>
    (executeCommand L s i (s.call i)).map fun r => { s.setCall i r.2 with key := r.1 }
  | .reply i =>
    (receiveReply (s.held i) (s.call i)).map fun held =>
      { s.setCall i .idle with held := Function.update s.held i held }
  | .elapse ms =>
    some { s with now := s.now + ms, key := s.key.filter fun k => s.now + ms < k.2 }

/-- The event is an **expiry**: time passes and the key vanishes. -/
def State.expires (s : State I) : Event I → Bool
  | .elapse ms => s.key.any fun k => k.2 ≤ s.now + ms
  | _ => false

/-! ### What an event does -/

/-- The key stores the token of the instance. -/
def Owns (s : State I) (i : I) : Prop := ∃ expiresAt, s.key = some (L.token i, expiresAt)

/-- **What the server does** with a command. -/
inductive Executed (s : State I) (i : I) : Call → Option (String × ℕ) → Call → Prop
  | refused (hkey : s.key ≠ none) :
      Executed s i (.acquiring none) s.key (.acquiring (some false))
  | acquired (hkey : s.key = none) : Executed s i (.acquiring none)
      (some (L.token i, s.now + L.ttlMs (L.ttlSeconds i))) (.acquiring (some true))
  | released (howns : Owns L s i) : Executed s i (.releasing none) none (.releasing (some true))
  | notReleased (hnot : ¬ Owns L s i) :
      Executed s i (.releasing none) s.key (.releasing (some false))
  | extended {ttl : ℕ} (howns : Owns L s i) : Executed s i (.extending ttl none)
      (some (L.token i, s.now + ttl)) (.extending ttl (some true))
  | notExtended {ttl : ℕ} (hnot : ¬ Owns L s i) :
      Executed s i (.extending ttl none) s.key (.extending ttl (some false))

/-- **What an event finds and does.** -/
inductive Effect (s : State I) : Event I → State I → Prop
  | acquire {i} (hidle : s.call i = .idle) :
      Effect s (.acquire i) (s.setCall i (.acquiring none))
  | release {i} (hidle : s.call i = .idle) (hheld : s.held i = true) :
      Effect s (.release i) (s.setCall i (.releasing none))
  | extend {ttl : ℕ} {i ttlSeconds} (hidle : s.call i = .idle)
      (hheld : s.held i = true) :
      Effect s (.extend i ttlSeconds) (s.setCall i (.extending ttl none))
  | releaseNotHeld {i} (hheld : ¬ s.held i = true) : Effect s (.release i) s
  | extendNotHeld {i ttlSeconds} (hheld : ¬ s.held i = true) :
      Effect s (.extend i ttlSeconds) s
  | execute {i key call}
      (hexecuted : Executed L s i (s.call i) key call) :
      Effect s (.execute i) { s.setCall i call with key := key }
  | acquireReply {i result} (hcall : s.call i = .acquiring (some result)) :
      Effect s (.reply i) { s.setCall i .idle with held := Function.update s.held i result }
  | releaseReply {i result} (hcall : s.call i = .releasing (some result)) :
      Effect s (.reply i) { s.setCall i .idle with held := Function.update s.held i false }
  | extendReply {ttl : ℕ} {i ok} (hcall : s.call i = .extending ttl (some ok)) :
      Effect s (.reply i)
        { s.setCall i .idle with held := Function.update s.held i (s.held i && ok) }
  | elapse {ms : ℕ} : Effect s (.elapse ms)
      { s with now := s.now + ms, key := s.key.filter fun k => s.now + ms < k.2 }

section

variable {L}
variable {s s' : State I} {e : Event I} {i j : I}

omit [DecidableEq I] in
theorem stores_token_iff : s.stores (L.token i) = true ↔ Owns L s i := by
  rw [State.stores, any_eq_true]
  constructor
  · rintro ⟨⟨token, expiresAt⟩, hkey, htoken⟩
    obtain rfl : token = L.token i := eq_of_beq htoken
    exact ⟨expiresAt, hkey⟩
  · rintro ⟨expiresAt, hkey⟩
    exact ⟨_, hkey, beq_self_eq_true _⟩

omit [DecidableEq I] in
theorem executed_of_executeCommand {call call' : Call} {key : Option (String × ℕ)}
    (h : executeCommand L s i call = some (key, call')) : Executed L s i call key call' := by
  cases call with
  | idle => cases h
  | acquiring reply =>
    cases reply with
    | some => cases h
    | none =>
      simp only [executeCommand] at h
      split at h
      · rename_i hsome
        cases h
        exact .refused (ne_none_iff_isSome.mpr hsome)
      · rename_i hnone
        cases h
        exact .acquired (not_isSome_iff_eq_none.mp hnone)
  | releasing reply =>
    cases reply with
    | some => cases h
    | none =>
      simp only [executeCommand] at h
      split at h
      · rename_i howns
        cases h
        exact .released (stores_token_iff.mp howns)
      · rename_i hnot
        cases h
        exact .notReleased (mt stores_token_iff.mpr hnot)
  | extending ttl reply =>
    cases reply with
    | some => cases h
    | none =>
      simp only [executeCommand] at h
      split at h
      · rename_i howns
        cases h
        exact .extended (stores_token_iff.mp howns)
      · rename_i hnot
        cases h
        exact .notExtended (mt stores_token_iff.mpr hnot)

/-- The step relation has every step. -/
theorem step_effect (hstep : step L s e = some s') : Effect L s e s' := by
  cases e with
  | acquire i =>
    simp only [step] at hstep
    split at hstep
    · rename_i hidle
      cases hstep
      exact .acquire hidle
    · cases hstep
  | release | extend =>
    simp only [step] at hstep
    split at hstep
    · cases hstep
      split <;> constructor <;> assumption
    · cases hstep
  | execute i =>
    obtain ⟨⟨key, call⟩, hexecute, rfl⟩ := map_eq_some_iff.mp hstep
    exact .execute (executed_of_executeCommand hexecute)
  | reply i =>
    obtain ⟨held, hreply, rfl⟩ := map_eq_some_iff.mp hstep
    cases hcall : s.call i with
    | idle =>
      rw [hcall] at hreply
      cases hreply
    | acquiring reply =>
      rw [hcall] at hreply
      cases reply <;> cases hreply
      exact .acquireReply hcall
    | releasing reply =>
      rw [hcall] at hreply
      cases reply <;> cases hreply
      exact .releaseReply hcall
    | extending ttl reply =>
      rw [hcall] at hreply
      cases reply <;> cases hreply
      exact .extendReply hcall
  | elapse ms =>
    cases hstep
    exact .elapse

/-! ### Who changes the key -/

omit [DecidableEq I] in
theorem Owns.token_eq {token : String} {expiresAt : ℕ} (h : Owns L s i)
    (hkey : s.key = some (token, expiresAt)) : L.token i = token := by
  obtain ⟨expiresAt', hkey'⟩ := h
  exact (Prod.mk.inj (some.inj (hkey'.symm.trans hkey))).1

/-- **A key is removed**, or its token replaced, only by its expiry or by the release of the
instance whose token it stores. -/
theorem key_removed {token : String} {expiresAt : ℕ} (hstep : step L s e = some s')
    (hkey : s.key = some (token, expiresAt)) (hgone : s'.key.map Prod.fst ≠ some token) :
    s.expires e = true ∨ ∃ i, e = .execute i ∧ s.call i = .releasing none ∧ L.token i = token := by
  have hstays : s'.key = s.key → False := fun hsame => hgone (by rw [hsame, hkey]; rfl)
  cases step_effect hstep with
  | acquire | release | extend | releaseNotHeld | extendNotHeld | acquireReply | releaseReply
  | extendReply => exact absurd rfl hstays
  | elapse =>
    refine .inl (Classical.byContradiction fun hnot => hstays ?_)
    simp only [State.expires, hkey, any_some, decide_eq_true_eq, not_le] at hnot
    simp only [hkey, filter_some, hnot, decide_true, if_true]
  | @execute i key call hexecuted =>
    generalize hcall : s.call i = before at hexecuted
    cases hexecuted with
    | refused | notReleased | notExtended => exact absurd rfl hstays
    | acquired hnone => exact absurd (hnone.symm.trans hkey) nofun
    | released howns => exact .inr ⟨i, rfl, hcall, howns.token_eq hkey⟩
    | extended howns => exact absurd (congrArg some (howns.token_eq hkey)) hgone

/-- **A time to live is renewed** only by the instance whose token the key stores. -/
theorem key_renewed {token : String} {expiresAt expiresAt' : ℕ} (hstep : step L s e = some s')
    (hkey : s.key = some (token, expiresAt)) (hkey' : s'.key = some (token, expiresAt'))
    (hne : expiresAt' ≠ expiresAt) :
    ∃ i ttl, e = .execute i ∧ s.call i = .extending ttl none ∧ L.token i = token := by
  have hchanged : s'.key ≠ s.key := by
    rw [hkey, hkey']
    rintro ⟨⟩
    exact hne rfl
  cases step_effect hstep with
  | acquire | release | extend | releaseNotHeld | extendNotHeld | acquireReply | releaseReply
  | extendReply => exact absurd rfl hchanged
  | elapse =>
    refine absurd ?_ hchanged
    have hfilter : s.key.filter _ = some (token, expiresAt') := hkey'
    rw [hfilter]
    exact ((filter_eq_some_iff.mp hfilter).1).symm
  | @execute i key call hexecuted =>
    generalize hcall : s.call i = before at hexecuted
    cases hexecuted with
    | refused | notReleased | notExtended => exact absurd rfl hchanged
    | acquired hnone => exact absurd (hnone.symm.trans hkey) nofun
    | released => cases hkey'
    | extended howns => exact ⟨i, _, rfl, hcall, howns.token_eq hkey⟩

/-! ### What the instances believe -/

/-- **The invariant** of runs without an expiry: an instance that believes it holds the lock, and
is not releasing it, owns the key, and so does one whose `acquire` succeeded but has not been
told yet. -/
structure Truthful (L : Locks I) (s : State I) : Prop where
  held : ∀ i, s.held i = true → (s.call i).inRelease = false → Owns L s i
  acquired : ∀ i, s.call i = .acquiring (some true) → Owns L s i

omit [DecidableEq I] in
theorem Truthful.initial (key : Option (String × ℕ)) : Truthful L (.initial key) :=
  ⟨nofun, nofun⟩

theorem Owns.step (h : Owns L s i) (hstep : step L s e = some s') (hexpires : ¬ s.expires e = true)
    (hrelease : e = .execute i → s.call i ≠ .releasing none) : Owns L s' i := by
  obtain ⟨expiresAt, hkey⟩ := h
  have hstored : s'.key.map Prod.fst = some (L.token i) := by
    by_contra hgone
    rcases key_removed hstep hkey hgone with hexp | ⟨j, rfl, hcall, htoken⟩
    · exact hexpires hexp
    · obtain rfl := L.token_injective htoken
      exact hrelease rfl hcall
  obtain ⟨⟨token, expiresAt'⟩, hkey', rfl⟩ := map_eq_some_iff.mp hstored
  exact ⟨expiresAt', hkey'⟩

theorem call_setCall (s : State I) (i j : I) (call : Call) :
    (s.setCall i call).call j = if j = i then call else s.call j :=
  Function.update_apply s.call i call j

theorem Truthful.setCall (h : Truthful L s) {call : Call} (hidle : s.call i = .idle)
    (hcall : call ≠ .acquiring (some true)) : Truthful L (s.setCall i call) := by
  refine ⟨fun j hheld hnot => h.held j hheld ?_, fun j hreply => ?_⟩
  · rw [call_setCall] at hnot
    split at hnot
    · rename_i hj
      rw [hj, hidle]
      rfl
    · exact hnot
  · rw [call_setCall] at hreply
    split at hreply
    · exact absurd hreply hcall
    · exact h.acquired j hreply

theorem Truthful.setHeld (h : Truthful L s) {held : Bool} (howns : held = true → Owns L s i) :
    Truthful L { s.setCall i .idle with held := Function.update s.held i held } := by
  refine ⟨fun j hheld hnot => ?_, fun j hreply => ?_⟩
  · simp only [Function.update_apply] at hheld
    split at hheld
    · rename_i hj
      subst hj
      exact howns hheld
    · rename_i hj
      rw [call_setCall, if_neg hj] at hnot
      exact h.held j hheld hnot
  · rw [call_setCall] at hreply
    split at hreply
    · cases hreply
    · exact h.acquired j hreply

omit [DecidableEq I] in
theorem Executed.spec {call call' : Call} {key : Option (String × ℕ)}
    (h : Executed L s i call key call') :
    call'.inRelease = call.inRelease ∧ (call'.inRelease = false → call ≠ .releasing none) ∧
      (call' = .acquiring (some true) →
        key = some (L.token i, s.now + L.ttlMs (L.ttlSeconds i))) := by
  cases h with
  | acquired => exact ⟨rfl, nofun, fun _ => rfl⟩
  | refused | released | notReleased | extended | notExtended => exact ⟨rfl, nofun, nofun⟩

theorem Truthful.execute (h : Truthful L s) {key : Option (String × ℕ)} {call : Call}
    (hstep : step L s (.execute i) = some { s.setCall i call with key := key })
    (hexecuted : Executed L s i (s.call i) key call) :
    Truthful L { s.setCall i call with key := key } := by
  obtain ⟨hsame, hrelease, hacquired⟩ := hexecuted.spec
  refine ⟨fun j hheld hnot => ?_, fun j hreply => ?_⟩
  · rw [call_setCall] at hnot
    split at hnot
    · rename_i hj
      subst hj
      exact (h.held j hheld (hsame ▸ hnot)).step hstep nofun fun _ => hrelease hnot
    · rename_i hj
      refine (h.held j hheld hnot).step hstep nofun fun he => ?_
      exact absurd (Event.execute.inj he).symm hj
  · rw [call_setCall] at hreply
    split at hreply
    · rename_i hj
      subst hj
      exact ⟨_, hacquired hreply⟩
    · rename_i hj
      refine (h.acquired j hreply).step hstep nofun fun he => ?_
      exact absurd (Event.execute.inj he).symm hj

theorem Truthful.step (h : Truthful L s) (hexpires : ¬ s.expires e = true)
    (hstep : step L s e = some s') : Truthful L s' := by
  cases step_effect hstep with
  | acquire hidle | release hidle _ | extend hidle _ => exact h.setCall hidle nofun
  | releaseNotHeld | extendNotHeld => exact h
  | execute hexecuted => exact h.execute hstep hexecuted
  | acquireReply hreply => exact h.setHeld fun hresult => h.acquired _ (hresult ▸ hreply)
  | releaseReply => exact h.setHeld nofun
  | extendReply hreply =>
    refine h.setHeld fun hok => h.held _ (Bool.and_eq_true_iff.mp hok).1 ?_
    rw [hreply]
    rfl
  | elapse =>
    refine ⟨fun j hheld hnot => ?_, fun j hreply => ?_⟩
    · exact (h.held j hheld hnot).step hstep hexpires nofun
    · exact (h.acquired j hreply).step hstep hexpires nofun

/-- **The run lemma**: along every run without an expiry, what the instances believe is true. -/
theorem owns_run {key : Option (String × ℕ)} {es : List (Event I)}
    (hok : StepsMeet (step L) (fun s e => ¬ s.expires e = true) (.initial key) es)
    (hrun : run (step L) (.initial key) es = some s) : Truthful L s :=
  run_invariant_where Truthful.step (Truthful.initial key) hok hrun

omit [DecidableEq I] in
theorem Owns.unique (hi : Owns L s i) (hj : Owns L s j) : i = j := by
  obtain ⟨expiresAt, hkey⟩ := hj
  exact L.token_injective (hi.token_eq hkey)

end

/-- **Ownership of the lock**, for instances with distinct tokens: a key is removed only by its
expiry or by the release of the instance whose token it stores, and renewed only by that instance;
and without an expiry, an instance with `held` that is not in a release owns the key, so there is at
most one. -/
theorem redis_lock_ownership (key : Option (String × ℕ)) (es : List (Event I)) (s : State I)
    (hrun : run (step L) (.initial key) es = some s) :
    (∀ e s' token expiresAt, step L s e = some s' → s.key = some (token, expiresAt) →
      (s'.key.map Prod.fst ≠ some token → s.expires e = true ∨
        ∃ i, e = .execute i ∧ s.call i = .releasing none ∧ L.token i = token) ∧
      (∀ expiresAt', s'.key = some (token, expiresAt') → expiresAt' ≠ expiresAt →
        ∃ i ttl, e = .execute i ∧ s.call i = .extending ttl none ∧ L.token i = token)) ∧
    (StepsMeet (step L) (fun s e => ¬ s.expires e = true) (.initial key) es →
      (∀ i, s.held i = true → (s.call i).inRelease = false → Owns L s i) ∧
      ∀ i j, s.held i = true → (s.call i).inRelease = false → s.held j = true →
        (s.call j).inRelease = false → i = j) := by
  refine ⟨fun e s' token expiresAt hstep hkey => ⟨key_removed hstep hkey, ?_⟩, fun hok => ?_⟩
  · exact fun expiresAt' hkey' hne => key_renewed hstep hkey hkey' hne
  · have htruthful := owns_run hok hrun
    refine ⟨htruthful.held, fun i j hi hi' hj hj' => ?_⟩
    exact (htruthful.held i hi hi').unique (htruthful.held j hj hj')

/-- Two instances with a time to live of a second. -/
def twoLocks : Locks Bool where
  token i := if i then "a" else "b"
  ttlSeconds _ := 1
  millis := (· * 1000)
  token_injective i j := by cases i <;> cases j <;> decide

/-- Both instances acquire; the one that gets the key extends it while time passes. -/
def contendedSchedule : List (Event Bool) :=
  [.acquire true, .acquire false, .execute true, .execute false, .elapse 400, .reply false,
    .reply true, .extend true none, .execute true, .elapse 900, .reply true]

theorem redis_lock_ownership_contended :
    ∃ s, run (step twoLocks) (.initial none) contendedSchedule = some s ∧ s.held true = true ∧
      Owns twoLocks s true ∧ s.held false = false := by
  have hheld : (run (step twoLocks) (.initial none) contendedSchedule).map
      (fun s => (s.held true, s.call true, s.held false)) = some (true, .idle, false) := by
    decide +kernel
  obtain ⟨s, hs, hstate⟩ := map_eq_some_iff.mp hheld
  obtain ⟨htrue, hrest⟩ := Prod.mk.inj hstate
  obtain ⟨hcall, hfalse⟩ := Prod.mk.inj hrest
  obtain ⟨-, hexclusive⟩ := redis_lock_ownership twoLocks none contendedSchedule s hs
  refine ⟨s, hs, htrue, (hexclusive (by decide +kernel)).1 true htrue ?_, hfalse⟩
  rw [hcall]
  rfl

end ServiceToolkit.RedisLock
