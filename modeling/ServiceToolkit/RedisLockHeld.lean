import ServiceToolkit.RedisLock

/-!
# What a Lock Remembers

Without an expiry, an instance whose flag `held` is set owns the key (`owns_run`). The converse is
about forgetting: every call rewrites the flag from its own reply, and the reply to an `acquire`
made while the instance holds the lock is a refusal. The flag is then cleared while the key
stores the token, and no later `release` sends its script.

`expected` says, for every phase of a call, what flag and phase together tell about the key, and
`agrees_step` that this stays true. **Between its calls the flag of an instance is exact if and
only if no refusal reaches it while it is set** (`held_exact_iff`).

`acquire_with_wait` is a number of `acquire` calls, with time in between.
-/

namespace ServiceToolkit.RedisLock

open Option

variable {I : Type*}

/-- What the flag and the phase of the call tell about the key: whether it stores the token. -/
def expected (held : Bool) : Call → Bool
  | .idle | .acquiring none | .acquiring (some false) | .extending _ none => held
  | .acquiring (some true) => true
  | .extending _ (some ok) => held && ok
  | .releasing none => true
  | .releasing (some _) => false

variable (L : Locks I)

/-- The instance is right about the key. -/
def Agrees (i : I) (s : State I) : Prop := expected (s.held i) (s.call i) = true ↔ Owns L s i

/-- **The condition on a step**: no refused `acquire` ends while the flag is set. -/
def remembers [DecidableEq I] (i : I) (s : State I) : Event I → Bool
  | .reply j => j ≠ i || s.call i ≠ .acquiring (some false) || !s.held i
  | _ => true

/-- What an instance that never forgets shows in a state: between calls its flag is set exactly if
it owns the key, a `release` of the key it owns sends the script, and the script frees the key. -/
structure NeverForgets [DecidableEq I] (i : I) (s : State I) : Prop where
  held_iff : s.call i = .idle → (s.held i = true ↔ Owns L s i)
  releases : s.call i = .idle → Owns L s i →
    ∃ s', step L s (.release i) = some s' ∧ s'.call i = .releasing none
  frees : s.call i = .releasing none → ∃ s', step L s (.execute i) = some s' ∧ s'.key = none

section

variable {L} {s s' : State I} {e : Event I} {i j : I} {call : Call} {key : Option (String × ℕ)}

theorem Executed.owns_iff {call' : Call} (h : Executed L s j call key call') (hne : j ≠ i) :
    Owns L { s with key := key } i ↔ Owns L s i := by
  have htoken : L.token j ≠ L.token i := fun heq => hne (L.token_injective heq)
  cases h with
  | refused | notReleased | notExtended => exact Iff.rfl
  | acquired hkey =>
    refine iff_of_false ?_ ?_
    · rintro ⟨expiresAt, heq⟩
      exact htoken (Prod.mk.inj (some.inj heq)).1
    · rintro ⟨expiresAt, heq⟩
      cases hkey.symm.trans heq
  | released howns =>
    refine iff_of_false ?_ fun hi => hne (howns.unique hi)
    rintro ⟨expiresAt, ⟨⟩⟩
  | extended howns =>
    refine iff_of_false ?_ fun hi => hne (howns.unique hi)
    rintro ⟨expiresAt, heq⟩
    exact htoken (Prod.mk.inj (some.inj heq)).1

theorem Executed.expected_iff {held : Bool} {call' : Call}
    (h : Executed L s i call key call') (hagrees : expected held call = true ↔ Owns L s i) :
    expected held call' = true ↔ Owns L { s with key := key } i := by
  cases h with
  | refused => exact hagrees
  | acquired => exact iff_of_true rfl ⟨_, rfl⟩
  | released =>
    refine iff_of_false Bool.false_ne_true ?_
    rintro ⟨expiresAt, ⟨⟩⟩
  | notReleased hnot => exact iff_of_false Bool.false_ne_true hnot
  | extended howns =>
    refine iff_of_true ?_ ⟨_, rfl⟩
    have hheld : held = true := hagrees.mpr howns
    rw [expected, hheld]
    rfl
  | notExtended hnot =>
    refine iff_of_false ?_ hnot
    rw [expected, Bool.and_false]
    exact Bool.false_ne_true

variable [DecidableEq I]

theorem Agrees.setCall (h : Agrees L i s)
    (hcall : j = i → expected (s.held i) call = expected (s.held i) (s.call i)) :
    Agrees L i (s.setCall j call) := by
  rw [Agrees, call_setCall]
  split
  · next hi => exact (hcall hi.symm) ▸ h
  · exact h

theorem Agrees.setHeld (h : Agrees L i s) {held : Bool}
    (hheld : j = i → held = expected (s.held i) (s.call i)) :
    Agrees L i { s.setCall j .idle with held := Function.update s.held j held } := by
  rw [Agrees]
  dsimp only
  rw [call_setCall, Function.update_apply]
  split
  · next hi => exact (hheld hi.symm).symm ▸ h
  · exact h

/-- **The step lemma**: without an expiry, a step that meets the condition leaves the instance
right about the key. -/
theorem agrees_step (h : Agrees L i s) (hexpires : ¬ s.expires e = true)
    (hok : remembers i s e = true) (hstep : step L s e = some s') : Agrees L i s' := by
  cases step_effect hstep with
  | @acquire j hidle | @extend j _ _ hidle hheld =>
    refine h.setCall ?_
    rintro rfl
    rw [hidle]
    rfl
  | @release j hidle hheld =>
    refine h.setCall ?_
    rintro rfl
    rw [hidle, hheld]
    rfl
  | releaseNotHeld | extendNotHeld => exact h
  | @execute j key call hexecuted =>
    rw [Agrees]
    dsimp only
    rw [call_setCall]
    split
    · rename_i hi
      subst hi
      exact hexecuted.expected_iff h
    · next hi => exact Iff.trans h (hexecuted.owns_iff (Ne.symm hi)).symm
  | @acquireReply j result hcall =>
    refine h.setHeld ?_
    rintro rfl
    rw [hcall]
    cases result with
    | true => rfl
    | false =>
      have hheld : s.held j = false := by simpa [remembers, hcall] using hok
      exact hheld.symm
  | @releaseReply j result hcall | @extendReply j ttl ok hcall =>
    refine h.setHeld ?_
    rintro rfl
    rw [hcall]
    rfl
  | @elapse ms =>
    have hsame : s.key.filter (fun k => decide (s.now + ms < k.2)) = s.key := by
      cases hkey : s.key with
      | none => rfl
      | some k =>
        simp only [State.expires, hkey, any_some, decide_eq_true_eq, not_le] at hexpires
        simp only [filter_some, hexpires, decide_true, if_true]
    rw [Agrees, Owns, hsame]
    exact h

/-- A refusal that reaches an instance whose flag is set makes it forget the key it owns. -/
theorem forgets_step (h : Agrees L i s) (hnot : ¬ remembers i s e = true)
    (hstep : step L s e = some s') : ¬ NeverForgets L i s' := by
  cases e with
  | acquire | release | extend | execute | elapse => exact absurd rfl hnot
  | reply j =>
    obtain ⟨⟨rfl, hcall⟩, hheld⟩ :
        (j = i ∧ s.call i = .acquiring (some false)) ∧ s.held i = true := by
      simpa [remembers] using hnot
    have howns : Owns L s j := by
      rw [Agrees, hcall] at h
      exact h.mp hheld
    simp only [step, hcall, receiveReply, map_some, some.injEq] at hstep
    subst hstep
    intro hforgets
    have hset : Function.update s.held j false j = true :=
      (hforgets.held_iff (by rw [call_setCall, if_pos rfl])).mpr howns
    rw [Function.update_self] at hset
    cases hset

omit [DecidableEq I] in
theorem Agrees.initial
    (hfresh : key.map Prod.fst ≠ some (L.token i)) : Agrees L i (.initial key) := by
  refine iff_of_false Bool.false_ne_true ?_
  rintro ⟨expiresAt, hkey⟩
  have hkey' : key = some (L.token i, expiresAt) := hkey
  exact hfresh (by rw [hkey']; rfl)

theorem Agrees.neverForgets (h : Agrees L i s) : NeverForgets L i s := by
  refine ⟨fun hidle => ?_, fun hidle howns => ?_, fun hcall => ?_⟩
  · rw [Agrees, hidle] at h
    exact h
  · rw [Agrees, hidle] at h
    have hheld : s.held i = true := h.mpr howns
    refine ⟨s.setCall i (.releasing none), ?_, ?_⟩
    · rw [step, if_pos hidle, if_pos hheld]
    · rw [call_setCall, if_pos rfl]
  · rw [Agrees, hcall] at h
    have howns : Owns L s i := h.mp rfl
    refine ⟨{ s.setCall i (.releasing (some true)) with key := none }, ?_, rfl⟩
    simp only [step, hcall, executeCommand, stores_token_iff.mpr howns, if_true, map_some]

/-- **The flag is exact**: without an expiry, an instance whose token is not in the key from the
start never forgets the key exactly if no refused `acquire` ended while its flag was set. -/
theorem held_exact_iff (L : Locks I) (i : I) (key : Option (String × ℕ))
    (hfresh : key.map Prod.fst ≠ some (L.token i)) (es : List (Event I)) (s : State I)
    (hrun : run (step L) (.initial key) es = some s)
    (hexpires : StepsMeet (step L) (fun s e => ¬ s.expires e = true) (.initial key) es) :
    (∀ done s₁, done <+: es → run (step L) (.initial key) done = some s₁ → NeverForgets L i s₁) ↔
      StepsMeet (step L) (fun s e => remembers i s e = true) (.initial key) es :=
  throughout_iff Agrees.neverForgets agrees_step (fun h _ => forgets_step h)
    (Agrees.initial hfresh) hexpires hrun

end

/-- One instance waits for the other, acquires, extends and releases. -/
def handoverSchedule : List (Event Bool) :=
  [.acquire true, .execute true, .acquire false, .reply true, .execute false, .reply false,
    .release true, .elapse 5, .execute true, .acquire false, .reply true, .execute false,
    .reply false, .extend false (some 2), .execute false, .reply false, .release false,
    .execute false, .reply false]

theorem held_exact_iff_handoverSchedule :
    ∃ s, run (step twoLocks) (.initial none) handoverSchedule = some s ∧
      NeverForgets twoLocks false s := by
  have hsome : (run (step twoLocks) (.initial none) handoverSchedule).isSome = true := by
    decide +kernel
  obtain ⟨s, hs⟩ := isSome_iff_exists.mp hsome
  exact ⟨s, hs, (held_exact_iff twoLocks false none (by decide) handoverSchedule s hs
    (by decide +kernel)).mpr (by decide +kernel) handoverSchedule s List.prefix_rfl hs⟩

/-- **A forgotten key**: `acquire` twice. The second one is refused, the flag is cleared while the
key stores the token, and a `release` does nothing. -/
theorem acquired_twice_forgets :
    ∃ s, run (step twoLocks) (.initial none)
        [.acquire true, .execute true, .reply true, .acquire true, .execute true, .reply true] =
          some s ∧
      s.call true = .idle ∧ s.held true = false ∧ s.key = some ("a", 1000) ∧
      step twoLocks s (.release true) = some s := by
  have hstate : (run (step twoLocks) (.initial none)
      [.acquire true, .execute true, .reply true, .acquire true, .execute true, .reply true]).map
        (fun s => (s.call true, s.held true, s.key)) =
      some (.idle, false, some ("a", 1000)) := by decide +kernel
  obtain ⟨s, hs, hstate⟩ := map_eq_some_iff.mp hstate
  obtain ⟨hidle, hrest⟩ := Prod.mk.inj hstate
  obtain ⟨hheld, hkey⟩ := Prod.mk.inj hrest
  refine ⟨s, hs, hidle, hheld, hkey, ?_⟩
  simp only [step, hidle, hheld, if_true, Bool.false_eq_true, if_false]

end ServiceToolkit.RedisLock
