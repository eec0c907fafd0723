import ServiceToolkit.InternalToken
import ServiceToolkit.SegmentedPaths

/-!
# Which Methods the Internal Token Gate Exempts

Under a platform token, a call without it passes the gate when its method path contains
`grpc.health` or `grpc.reflection`, or ends in the text of an exemption. What an exemption
is meant to be is a name: the path of a method, with the leading slash and any number of
leading package segments optional. The gate compares characters, and a text can begin in the
middle of a segment: `Svc/Method` is the end of `/pkg.OtherSvc/Method`, the empty text is the
end of every path, and `grpc.health` is found in `/x.grpc.healthz/M`.

A `MethodPath` is the path of a method with its segments told apart. `InSystemService` and
`NamedBy` say segment by segment what a path should be exempt for; `StartsName` says the
same of the characters: a text starts a name of the path when it is what follows the
leading slash or one of the dots.
-/

namespace ServiceToolkit.Rpc

open Paths List

/-- The path `/<package.>Service/Method` of a method. Neither dots nor slashes occur in a
segment or in the method's name. -/
structure MethodPath where
  package : List (List Char)
  service : List Char
  name : List Char
  segment_valid : ∀ s ∈ package ++ [service], s ≠ [] ∧ '.' ∉ s ∧ '/' ∉ s
  name_valid : name ≠ [] ∧ '.' ∉ name ∧ '/' ∉ name

namespace MethodPath

/-- The segments of the full service name. -/
def segments (p : MethodPath) : List (List Char) := p.package ++ [p.service]

/-- A method called by some segments of its service name. -/
def calledBy (p : MethodPath) (segments : List (List Char)) : List Char :=
  join '.' segments ++ '/' :: p.name

/-- The path as it stands in the call. -/
def path (p : MethodPath) : List Char := '/' :: p.calledBy p.segments

/-- The service is one of `grpc.health` or of `grpc.reflection`. -/
def InSystemService (p : MethodPath) : Prop :=
  ∃ rest, rest ≠ [] ∧
    (p.segments = ["grpc".toList, "health".toList] ++ rest ∨
      p.segments = ["grpc".toList, "reflection".toList] ++ rest)

/-- An exemption **names** the method: in full, or with the leading slash or some leading
package segments left out, or both. -/
def NamedBy (p : MethodPath) (exempt : List Char) : Prop :=
  ∃ k ≤ p.package.length,
    exempt = p.calledBy (p.segments.drop k) ∨ exempt = '/' :: p.calledBy (p.segments.drop k)

/-- What the gate is meant to exempt. -/
def MayPass (p : MethodPath) (exemptMethods : List String) : Prop :=
  p.InSystemService ∨ ∃ exempt ∈ exemptMethods, p.NamedBy exempt.toList

end MethodPath

/-! ### Names by their characters -/

/-- A text **starts a name** of the path: it is all that follows the leading slash, or all
that follows a dot. -/
def StartsName (path t : List Char) : Prop := '/' :: t = path ∨ '.' :: t <:+ path

namespace MethodPath

variable {p : MethodPath}

theorem valid_segments (p : MethodPath) : Valid '.' p.segments := fun s hs =>
  ⟨(p.segment_valid s hs).1, (p.segment_valid s hs).2.1⟩

theorem dot_notMem_rest (p : MethodPath) : '.' ∉ '/' :: p.name := by
  simp [p.name_valid.2.1]

/-- The texts that start a name of the path are the method's names without a slash. -/
theorem startsName_iff {t : List Char} :
    StartsName p.path t ↔ ∃ k ≤ p.package.length, t = p.calledBy (p.segments.drop k) := by
  have hdot : '.' :: t <:+ p.path ↔
      ∃ k, 0 < k ∧ k < p.segments.length ∧ t = p.calledBy (p.segments.drop k) := by
    rw [path, suffix_cons_iff, calledBy,
      sep_suffix_join_iff p.dot_notMem_rest fun s hs => (p.valid_segments s hs).2]
    simp [calledBy]
  have hlen : p.segments.length = p.package.length + 1 := by simp [segments]
  rw [StartsName, hdot, hlen, path, cons_inj_right]
  constructor
  · rintro (rfl | ⟨k, -, hk, rfl⟩)
    · exact ⟨0, Nat.zero_le _, rfl⟩
    · exact ⟨k, Nat.lt_succ_iff.mp hk, rfl⟩
  · rintro ⟨k, hk, rfl⟩
    rcases Nat.eq_zero_or_pos k with rfl | hpos
    · exact .inl rfl
    · exact .inr ⟨k, hpos, Nat.lt_succ_iff.mpr hk, rfl⟩

/-- An exemption names the method exactly when it starts a name of the path, a slash before
it or not. -/
theorem namedBy_iff {exempt : List Char} : p.NamedBy exempt ↔
      ∃ t, StartsName p.path t ∧ (exempt = t ∨ exempt = '/' :: t) := by
  simp only [startsName_iff]
  constructor
  · rintro ⟨k, hk, h⟩
    exact ⟨_, ⟨k, hk, rfl⟩, h⟩
  · rintro ⟨t, ⟨k, hk, rfl⟩, h⟩
    exact ⟨k, hk, h⟩

theorem segments_under_iff (above : List (List Char)) (hne : above ≠ [])
    (habove : ∀ s ∈ above, s ≠ [] ∧ '.' ∉ s ∧ '/' ∉ s) :
    '/' :: (join '.' above ++ ['.']) <+: p.path ↔
      ∃ rest, rest ≠ [] ∧ p.segments = above ++ rest := by
  have hvalid : Valid '.' above := fun s hs => ⟨(habove s hs).1, (habove s hs).2.1⟩
  have hslash : '/' ∉ join '.' above ++ ['.'] := by
    rw [mem_append, not_or]
    refine ⟨fun h => ?_, by decide⟩
    rcases mem_join h with h | ⟨s, hs, h⟩
    · exact absurd h (by decide)
    · exact (habove s hs).2.2 h
  rw [path, cons_prefix_cons, calledBy, prefix_append_iff,
    prefix_join_iff hvalid p.valid_segments hne]
  constructor
  · rintro ⟨-, h | ⟨rest, hrest, heq, hpre⟩⟩
    · exact h
    · -- a longer text would have to hold the slash before the method's name
      obtain ⟨c, rest, rfl⟩ := exists_cons_of_ne_nil hrest
      obtain ⟨rfl, -⟩ := cons_prefix_cons.mp hpre
      exact absurd (heq ▸ mem_append_right _ mem_cons_self) hslash
  · exact fun h => ⟨rfl, .inl h⟩

/-- A service of health or of reflection, by the characters its path starts with. -/
theorem inSystemService_iff : p.InSystemService ↔
      "/grpc.health.".toList <+: p.path ∨ "/grpc.reflection.".toList <+: p.path := by
  have hhealth := segments_under_iff (p := p) ["grpc".toList, "health".toList] (by decide)
    (by decide)
  have hreflection := segments_under_iff (p := p) ["grpc".toList, "reflection".toList]
    (by decide) (by decide)
  have hh : '/' :: (join '.' ["grpc".toList, "health".toList] ++ ['.']) =
      "/grpc.health.".toList := by decide
  have hr : '/' :: (join '.' ["grpc".toList, "reflection".toList] ++ ['.']) =
      "/grpc.reflection.".toList := by decide
  rw [hh] at hhealth
  rw [hr] at hreflection
  rw [hhealth, hreflection, InSystemService]
  constructor
  · rintro ⟨rest, hrest, h | h⟩
    · exact .inl ⟨rest, hrest, h⟩
    · exact .inr ⟨rest, hrest, h⟩
  · rintro (⟨rest, hrest, h⟩ | ⟨rest, hrest, h⟩)
    · exact ⟨rest, hrest, .inl h⟩
    · exact ⟨rest, hrest, .inr h⟩

end MethodPath

/-! ### Calls without the token -/

variable {π α β ε : Type*}

/-- The call reaches the servicer: the gate lets some handler answer it, and that handler
enters the servicer's own function. -/
def Reaches (decision : Except (Raised ε) (Option (Handler (Vars π) α β ε))) (vars : Vars π)
    (request : α) : Prop :=
  ∃ handler, decision = .ok (some handler) ∧ (handler.behaviour vars request).entered ≠ []

theorem not_reaches_refusing (handler : Handler (Vars π) α β ε) (code : StatusCode)
    (details : String) (vars : Vars π) (request : α) :
    ¬ Reaches (.ok (some (refusing handler code details))) vars request := by
  rintro ⟨handler', h, hentered⟩
  obtain rfl := Option.some.inj (Except.ok.inj h)
  exact hentered (refusing_refused handler code details vars request).1

theorem compareDigest_ne_true {a b : String} (h : a ≠ b) :
    compareDigest a b ≠ (.ok true : Except (Raised ε) Bool) := by
  unfold compareDigest
  split <;> simp [h]

/-- The rule that decides a call without the token: what it contains or how it ends. -/
def PassesByText (exemptMethods : List String) (method : String) : Prop :=
  isSystemMethod method = true ∨ ∃ exempt ∈ exemptMethods, exempt.toList <:+ method.toList

variable {exemptMethods : List String}

theorem passesByText_iff {path : List Char} :
    PassesByText exemptMethods (String.ofList path) ↔
      (∃ text ∈ ["grpc.health", "grpc.reflection"], text.toList <:+: path) ∨
        ∃ exempt ∈ exemptMethods, exempt.toList <:+ path := by
  have hpath : (String.ofList path).toList = path := String.toList_ofList
  unfold PassesByText isSystemMethod
  rw [hpath, Bool.or_eq_true, decide_eq_true_iff, decide_eq_true_iff, exists_mem_cons_iff,
    exists_mem_cons_iff]
  simp only [not_mem_nil, false_and, exists_false, or_false]

variable {i : InternalTokenInterceptor (Vars π) α β ε}

/-- The attributes of an interceptor with a platform token, no policy and no alternate
verifier. -/
theorem InternalTokenInterceptor.make_platform {token : String}
    (hi : make (some token) exemptMethods none none = .ok i) :
    token ≠ "" ∧ i.token = some token ∧ i.exemptMethods = exemptMethods ∧
      i.alternateVerifier = none ∧ i.policy = none := by
  simp only [make] at hi
  split at hi
  · cases hi
  · rename_i h
    obtain rfl := Except.ok.inj hi
    have hne : token ≠ "" := by
      rintro rfl
      exact h (by decide)
    exact ⟨hne, by simp [Option.filter_some, hne], rfl, rfl, rfl⟩

/-- Without the token, the servicer is reached exactly through the text of the path. -/
theorem interceptService_reaches_iff {token : String}
    (hi : InternalTokenInterceptor.make (some token) exemptMethods none none = .ok i)
    {details : HandlerCallDetails} (htoken : presentedToken details ≠ some token)
    (kind : Kind) (model : ExecutionModel) (codec : Codec α β)
    (servicer : Vars π → α → Reply β ε × Vars π) (vars : Vars π) (request : α) :
    Reaches (interceptService i (some ⟨kind, model, codec, serving servicer⟩) details) vars
        request ↔ PassesByText exemptMethods details.method := by
  obtain ⟨hne, htok, hexempt, hverifier, hpolicy⟩ :=
    InternalTokenInterceptor.make_platform hi
  have hserved : Reaches (.ok (some ⟨kind, model, codec, serving servicer⟩)) vars request :=
    ⟨_, rfl, cons_ne_nil _ _⟩
  have hmiss : (presentedToken details).getD "" ≠ token := by
    cases hp : presentedToken details with
    | none => exact Ne.symm hne
    | some value => exact fun h => htoken (by rw [hp, ← h]; rfl)
  simp only [interceptService, hpolicy, Option.filter_none, htok, platformRule, hexempt,
    hverifier, PassesByText]
  split
  · next hsystem => exact iff_of_true hserved (.inl hsystem)
  · rename_i hsystem
    split
    · rename_i hany
      obtain ⟨exempt, hmem, hsuffix⟩ := any_eq_true.mp hany
      exact iff_of_true hserved (.inr ⟨exempt, hmem, isSuffixOf_iff_suffix.mp hsuffix⟩)
    · rename_i hany
      refine iff_of_false ?_ ?_
      · split
        · rintro ⟨handler, h, -⟩
          cases h
        · next hcompare => exact absurd hcompare (compareDigest_ne_true hmiss)
        · exact not_reaches_refusing _ _ _ vars request
      · rintro (h | ⟨exempt, hmem, hsuffix⟩)
        · exact hsystem h
        · exact hany (any_eq_true.mpr ⟨exempt, hmem, isSuffixOf_iff_suffix.mpr hsuffix⟩)

/-- The texts of the path **begin at names**: an exemption that the path ends in is all of it or
starts a name, and `grpc.health` and `grpc.reflection` stand nowhere but right behind the leading
slash and before a dot. -/
structure BeginAtNames (exemptMethods : List String) (path : List Char) : Prop where
  exempt : ∀ exempt ∈ exemptMethods, exempt.toList <:+ path →
    exempt.toList = path ∨ StartsName path exempt.toList
  system : ∀ text ∈ ["grpc.health", "grpc.reflection"], ∀ before after : List Char,
    path = before ++ text.toList ++ after → before = ['/'] ∧ ['.'] <+: after

/-- The path **starts a name** that the rules hold: one of the two packages right behind its leading
slash, or an exemption, without its slash, behind that slash or behind a dot. -/
def MeetsName (exemptMethods : List String) (path : List Char) : Prop :=
  ("/grpc.health.".toList <+: path ∨ "/grpc.reflection.".toList <+: path) ∨
    ∃ exempt ∈ exemptMethods, ∃ t, StartsName path t ∧
      (exempt.toList = t ∨ exempt.toList = '/' :: t)

/-- What may pass is what the rules hold a name of. -/
theorem MethodPath.mayPass_iff {p : MethodPath} :
    p.MayPass exemptMethods ↔ MeetsName exemptMethods p.path := by
  simp only [MayPass, MeetsName, inSystemService_iff, namedBy_iff]

/-- A call that passes on texts that begin at names meets one. -/
theorem BeginAtNames.meetsName {p : MethodPath} (h : BeginAtNames exemptMethods p.path)
    (hpasses : PassesByText exemptMethods (String.ofList p.path)) :
    MeetsName exemptMethods p.path := by
  have hstarts : ∀ text ∈ ["grpc.health", "grpc.reflection"], text.toList <:+: p.path →
      '/' :: (text.toList ++ ['.']) <+: p.path := by
    rintro text htext ⟨before, after, heq⟩
    obtain ⟨rfl, after, rfl⟩ := h.system text htext before after heq.symm
    exact ⟨after, by rw [← heq]; simp⟩
  rcases passesByText_iff.mp hpasses with ⟨text, htext, hin⟩ | ⟨exempt, hmem, hends⟩
  · have hstart := hstarts text htext hin
    rcases mem_pair.mp htext with rfl | rfl
    · exact .inl (.inl (by simpa using hstart))
    · exact .inl (.inr (by simpa using hstart))
  · refine .inr ⟨exempt, hmem, ?_⟩
    rcases h.exempt exempt hmem hends with heq | hname
    · exact ⟨p.calledBy p.segments, .inl rfl, .inr heq⟩
    · exact ⟨_, hname, .inl rfl⟩

/-- On a path that passes on no text there is none to begin anywhere. -/
theorem beginAtNames_of_not_passes {path : List Char}
    (h : ¬ PassesByText exemptMethods (String.ofList path)) :
    BeginAtNames exemptMethods path := by
  rw [passesByText_iff, not_or] at h
  exact ⟨fun exempt hmem hends => absurd ⟨exempt, hmem, hends⟩ h.2,
    fun text htext before after heq => absurd ⟨text, htext, before, after, heq.symm⟩ h.1⟩

/-- **When the exemptions are exact.** With a platform token, no policy and no alternate verifier,
that a call without the token reaches the servicer only for health, reflection or a method that an
exemption names holds exactly when every text that matches in its path begins at a name, or, where
one begins inside a segment, another rule holds a name of it. -/
theorem exemptions_exact_iff {token : String} {exemptMethods : List String}
    {i : InternalTokenInterceptor (Vars π) α β ε}
    (hi : InternalTokenInterceptor.make (some token) exemptMethods none none = .ok i)
    (p : MethodPath) (metadata : List (String × String))
    (htoken : presentedToken ⟨String.ofList p.path, metadata⟩ ≠ some token)
    (kind : Kind) (model : ExecutionModel) (codec : Codec α β)
    (servicer : Vars π → α → Reply β ε × Vars π) (vars : Vars π) (request : α) :
    (Reaches (interceptService i (some ⟨kind, model, codec, serving servicer⟩)
        ⟨String.ofList p.path, metadata⟩) vars request → p.MayPass exemptMethods) ↔
      (BeginAtNames exemptMethods p.path ∨ MeetsName exemptMethods p.path) := by
  rw [interceptService_reaches_iff hi htoken, MethodPath.mayPass_iff]
  constructor
  · intro h
    by_cases hpasses : PassesByText exemptMethods (String.ofList p.path)
    · exact .inr (h hpasses)
    · exact .inl (beginAtNames_of_not_passes hpasses)
  · rintro (h | h) hpasses
    · exact h.meetsName hpasses
    · exact h

/-- The path `/pkg.Svc/Method`, exempt as `Svc/Method`, is reached without the token, and
rightly so. -/
theorem exemptions_exact_named :
    ∃ i : InternalTokenInterceptor (Vars Unit) Unit Unit Unit,
      InternalTokenInterceptor.make (some "secret") ["Svc/Method"] none none = .ok i ∧
      ∃ p : MethodPath, p.path = "/pkg.Svc/Method".toList ∧ p.MayPass ["Svc/Method"] := by
  obtain ⟨i, hi⟩ : ∃ i : InternalTokenInterceptor (Vars Unit) Unit Unit Unit,
      InternalTokenInterceptor.make (some "secret") ["Svc/Method"] none none = .ok i :=
    ⟨_, rfl⟩
  refine ⟨i, hi, ⟨["pkg".toList], "Svc".toList, "Method".toList, by decide, by decide⟩,
    by decide, ?_⟩
  have htoken : presentedToken ⟨String.ofList ("/pkg.Svc/Method".toList), []⟩ ≠
      some "secret" := by decide
  refine (exemptions_exact_iff hi
    ⟨["pkg".toList], "Svc".toList, "Method".toList, by decide, by decide⟩ []
    htoken .unaryUnary .async ⟨none, none⟩ (fun vars _ => (⟨[()], none, none⟩, vars))
    ⟨none, none, none⟩ ()).mpr ?_ ?_
  · exact .inr (.inr ⟨"Svc/Method", by decide, "Svc/Method".toList, .inr (by decide),
      .inl rfl⟩)
  · exact (interceptService_reaches_iff hi htoken _ _ _ _ _ _).mpr
      (.inr ⟨"Svc/Method", by decide, by decide⟩)

/-- Under the exemption `Svc/Method` the method `/pkg.OtherSvc/Method` is reached without the token,
and under none one of a service `x.grpc.healthz`; neither is exempt by name. -/
theorem exemptions_miss_the_segment :
    (∃ i : InternalTokenInterceptor (Vars Unit) Unit Unit Unit,
      InternalTokenInterceptor.make (some "secret") ["Svc/Method"] none none = .ok i ∧
      ∃ p : MethodPath, p.path = "/pkg.OtherSvc/Method".toList ∧
        Reaches (interceptService i
          (some ⟨.unaryUnary, .async, ⟨none, none⟩,
            serving fun vars _ => (⟨[()], none, none⟩, vars)⟩)
          ⟨"/pkg.OtherSvc/Method", []⟩) ⟨none, none, none⟩ () ∧
        ¬ p.MayPass ["Svc/Method"]) ∧
    ∃ i : InternalTokenInterceptor (Vars Unit) Unit Unit Unit,
      InternalTokenInterceptor.make (some "secret") [] none none = .ok i ∧
      ∃ p : MethodPath, p.path = "/x.grpc.healthz/M".toList ∧
        Reaches (interceptService i
          (some ⟨.unaryUnary, .async, ⟨none, none⟩,
            serving fun vars _ => (⟨[()], none, none⟩, vars)⟩)
          ⟨"/x.grpc.healthz/M", []⟩) ⟨none, none, none⟩ () ∧
        ¬ p.MayPass [] := by
  obtain ⟨i, hi⟩ : ∃ i : InternalTokenInterceptor (Vars Unit) Unit Unit Unit,
      InternalTokenInterceptor.make (some "secret") ["Svc/Method"] none none = .ok i :=
    ⟨_, rfl⟩
  obtain ⟨j, hj⟩ : ∃ j : InternalTokenInterceptor (Vars Unit) Unit Unit Unit,
      InternalTokenInterceptor.make (some "secret") [] none none = .ok j := ⟨_, rfl⟩
  refine ⟨⟨i, hi, ⟨["pkg".toList], "OtherSvc".toList, "Method".toList, by decide, by decide⟩,
    by decide, ?_, ?_⟩, j, hj, ⟨[['x'], "grpc".toList], "healthz".toList, ['M'], by decide,
    by decide⟩, by decide, ?_, ?_⟩
  · exact (interceptService_reaches_iff hi (by decide) _ _ _ _ _ _).mpr
      (.inr ⟨"Svc/Method", by decide, by decide⟩)
  · rintro (⟨rest, -, h | h⟩ | ⟨exempt, hmem, k, hk, h⟩)
    · cases h
    · cases h
    · obtain rfl := mem_singleton.mp hmem
      have hk : k ≤ 1 := hk
      interval_cases k <;> revert h <;> decide
  · exact (interceptService_reaches_iff hj (by decide) _ _ _ _ _ _).mpr
      (.inl (by decide))
  · rintro (⟨rest, -, h | h⟩ | ⟨exempt, hmem, -⟩)
    · cases h
    · cases h
    · cases hmem

end ServiceToolkit.Rpc
