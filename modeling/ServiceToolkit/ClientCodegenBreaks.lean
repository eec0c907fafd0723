import ServiceToolkit.ClientCodegenCorrect

/-!
# What Breaks a Generated Client

Each condition of `Sound` is needed: where one fails, some well-typed arguments make a call that
raises or sends another request. A name that is hidden makes every call raise; an argument that
is captured has no influence on what is sent, although a field would have to differ; two fields
of a oneof cannot both be set; a `CopyFrom` that is hidden raises; a field that stores another value
does not hold its argument; an iterable or a mapping that is skipped leaves its field empty, and one
without a truth value raises.
-/

namespace ServiceToolkit.ClientCodegen

open List Option

variable {V : Type*}

/-! ### Names that are needed -/

theorem free_of_globals {s : ServiceDescriptor V} {x : String} {g : Global}
    (hg : ∀ rpc, g ≠ .function rpc) (h : (emitted s).globals.get? x = some g) :
    ∀ other ∈ s.methods, snake other.name ≠ x := by
  intro other hother heq
  obtain ⟨taken, -, -, hget⟩ := globals_of_taken hother
  rw [heq, h] at hget
  exact hg _ (some.inj hget)

theorem afterLoop_split {fields : List (FieldDescriptor V)} {g : FieldDescriptor V}
    (hg : g ∈ afterLoop fields) :
    ∃ before f after, fields = before ++ f :: after ∧ (∀ b ∈ before, b.kind ≠ .map true) ∧
      f.kind = .map true ∧ g ∈ after := by
  cases hdrop : fields.dropWhile fun f => f.kind ≠ .map true with
  | nil =>
    rw [afterLoop, hdrop] at hg
    cases hg
  | cons f after =>
    rw [afterLoop, hdrop] at hg
    refine ⟨fields.takeWhile fun f => f.kind ≠ .map true, f, after, ?_, fun b hb => ?_, ?_, hg⟩
    · rw [← hdrop, takeWhile_append_dropWhile]
    · have hmeets := mem_takeWhile_imp hb
      exact of_decide_eq_true hmeets
    · have hhead := head?_dropWhile_not (fun f => decide (f.kind ≠ .map true)) fields
      rw [hdrop] at hhead
      simpa using hhead

variable [DecidableEq V]

section

variable {world : World V} {s : ServiceDescriptor V} {m : MethodDescriptor V}
  {args : String → Arg V} {x : String}

theorem free_of_resolve {locals : Locals V} {g : Global}
    (hlocals : locals x = (renderMethod (scanMethod s m)).bindParams args x)
    (h : locals.resolve (emitted s).globals x = some (.global g)) :
    (∀ f ∈ m.input.fields, f.name ≠ x) ∧ (emitted s).globals.get? x = some g := by
  rw [Locals.resolve, hlocals, Function.bindParams] at h
  split at h
  · cases h
  · rename_i hparam
    rw [none_or, map_eq_some_iff] at h
    obtain ⟨g', hget, heq⟩ := h
    obtain rfl := Binding.global.inj heq
    exact ⟨fun f hf hname => hparam (mem_params_iff.mpr (.inl ⟨f, hf, hname⟩)), hget⟩

theorem execSend_eq_some {globals : Dict String Global} {stubs : List String} {rpc : String}
    {ty : MessageType V} {frame : Frame V} {sent : Sent V}
    (h : execSend globals stubs rpc ty frame = some sent) :
    frame.locals.resolve globals "_CLIENT" = some (.global .client) ∧
      frame.locals.resolve globals "_STUBS" = some (.global .stubs) ∧
      sent = ⟨rpc, ty, frame.message⟩ := by
  rw [execSend] at h
  split at h
  · rename_i hclient hstubs
    split at h
    · exact ⟨hclient, hstubs, (some.inj h).symm⟩
    · cases h
  · cases h

theorem execOptional_resolve {globals : Dict String Global} {ty : MessageType V}
    {locals : Locals V} {msg msg' : Message V} {names : List String}
    (h : execOptional world globals ty locals msg names = some msg') (hnames : names ≠ []) :
    locals.resolve globals "apply_optional_fields" = some (.global .applyOptionalFields) := by
  rw [execOptional, if_neg hnames] at h
  split at h
  · next hresolve => exact hresolve
  · cases h

theorem unhidden_of_call {msg : Message V} {rpc : String}
    (h : call world s m args = some ⟨rpc, m.input, msg⟩) : Unhidden s m := by
  rw [call, callFunction] at h
  dsimp only at h
  rw [show (renderMethod (scanMethod s m)).body.type = (s.protoModule, m.input.name) from rfl] at h
  dsimp only at h
  split at h
  · rename_i hmodule
    obtain ⟨ty, hty, h⟩ := bind_eq_some_iff.mp h
    obtain ⟨msg₁, -, h⟩ := bind_eq_some_iff.mp h
    obtain ⟨msg₂, hoptional, h⟩ := bind_eq_some_iff.mp h
    obtain ⟨frame, hblocks, h⟩ := bind_eq_some_iff.mp h
    obtain ⟨hmoduleFields, hmoduleGlobal⟩ := free_of_resolve rfl hmodule
    obtain ⟨hclient, hstubs, hsent⟩ := execSend_eq_some h
    have hlocals : ∀ x, x ∉ loopNames → x ≠ "request" →
        frame.locals x = (renderMethod (scanMethod s m)).bindParams args x := by
      intro x hloop hrequest
      rw [run_blocks_locals hblocks hloop]
      exact Locals.bind_of_ne hrequest
    refine ⟨?_, ⟨free_of_globals (by rintro _ ⟨⟩) hmoduleGlobal, hmoduleFields⟩, ?_, ?_⟩
    · rw [hty, (Sent.mk.inj hsent).2.1]
    · intro f hf
      exact ⟨(free_of_resolve (hlocals _ (by decide) (by decide)) hclient).1 f hf,
        (free_of_resolve (hlocals _ (by decide) (by decide)) hstubs).1 f hf⟩
    · rintro ⟨f, hf, hkind⟩
      have hnames : (m.input.ofKind .optional).map FieldDescriptor.name ≠ [] :=
        ne_nil_of_mem (mem_map_of_mem (mem_filter.mpr ⟨hf, decide_eq_true hkind⟩))
      rw [optional_names] at hoptional
      obtain ⟨hfields, hglobal⟩ := free_of_resolve (Locals.bind_of_ne (by decide))
        (execOptional_resolve hoptional hnames)
      exact ⟨free_of_globals (by rintro _ ⟨⟩) hglobal, hfields⟩
  · cases h

end

/-! ### Arguments to try -/

/-- As little as a parameter takes. -/
def FieldDescriptor.leastArg (f : FieldDescriptor V) : Arg V :=
  match f.kind with
  | .plain => .single f.default
  | .repeated => .iterable [] (some false)
  | _ => .none

/-- One value, element or entry. -/
def FieldDescriptor.argOf (f : FieldDescriptor V) (k v : V) : Arg V :=
  match f.kind with
  | .repeated => .iterable [v] (some true)
  | .map _ => .mapping ⟨[(k, v)], List.nodup_singleton _⟩ (some true)
  | _ => .single v

/-- The default one. -/
def FieldDescriptor.oneArg (f : FieldDescriptor V) : Arg V := f.argOf f.defaultKey f.default

section

variable {passed : Passed V} {f : FieldDescriptor V}

theorem takes_leastArg (passed : Passed V) (f : FieldDescriptor V) :
    f.takes passed f.leastArg = true := by
  have hlists := passed.lists []
  unfold FieldDescriptor.takes FieldDescriptor.leastArg
  cases f.kind <;> simp_all [f.accepts_default]

theorem takes_argOf (passed : Passed V) {k v : V} (hk : f.acceptsKey k = true)
    (hv : f.accepts v = true) : f.takes passed (f.argOf k v) = true := by
  have hlists := passed.lists [v]
  have hdicts := passed.dicts ⟨[(k, v)], List.nodup_singleton _⟩
  unfold FieldDescriptor.takes FieldDescriptor.argOf
  cases f.kind <;> simp_all [FieldDescriptor.acceptsEntry]

theorem takes_oneArg (passed : Passed V) (f : FieldDescriptor V) :
    f.takes passed f.oneArg = true :=
  takes_argOf passed f.acceptsKey_default f.accepts_default

theorem not_holds_both (hkind : f.kind ≠ .plain) {content : Option (Content V)}
    (hone : Holds f.oneArg content) (hleast : Holds f.leastArg content) : False := by
  unfold FieldDescriptor.oneArg FieldDescriptor.argOf at hone
  unfold FieldDescriptor.leastArg at hleast
  cases h : f.kind <;> simp_all [Holds]

theorem ne_none_of_holds_one {content : Option (Content V)} (h : Holds f.oneArg content) :
    content ≠ none := by
  unfold FieldDescriptor.oneArg FieldDescriptor.argOf at h
  rintro rfl
  cases hkind : f.kind <;> simp_all [Holds]

end

/-- The least arguments of a call. -/
def MessageType.leastArgs (ty : MessageType V) : String → Arg V :=
  fun x => (ty.field? x).elim .none FieldDescriptor.leastArg

/-- Every argument is of its parameter's type. -/
def Typed (passed : Passed V) (ty : MessageType V) (args : String → Arg V) : Prop :=
  ∀ f ∈ ty.fields, f.takes passed (args f.name) = true

theorem typed_leastArgs (passed : Passed V) (ty : MessageType V) :
    Typed passed ty ty.leastArgs := by
  intro f hf
  rw [MessageType.leastArgs, field?_eq hf]
  exact takes_leastArg passed f

section

variable {world : World V} {passed : Passed V} {s : ServiceDescriptor V}
  {m : MethodDescriptor V} {args : String → Arg V} {f g : FieldDescriptor V}

theorem Typed.update {ty : MessageType V} (h : Typed passed ty args) (hg : g ∈ ty.fields)
    {a : Arg V} (ha : g.takes passed a = true) :
    Typed passed ty (Function.update args g.name a) := by
  intro f hf
  by_cases heq : f.name = g.name
  · rw [heq, Function.update_self, inj_on_of_nodup_map ty.nodup hf hg heq]
    exact ha
  · rw [Function.update_of_ne heq]
    exact h f hf

/-- **A oneof** has at most one field that is set. -/
def Exclusive (ty : MessageType V) (msg : Message V) : Prop :=
  ∀ x y, x ≠ y → ty.sharesOneof x y = true → msg x = none ∨ msg y = none

theorem Writes.exclusive {ty : MessageType V} {x : String} {msg msg' : Message V}
    (h : Writes ty x msg msg') (hmsg : Exclusive ty msg) : Exclusive ty msg' := by
  induction h with
  | nothing => exact hmsg
  | @put now _ c ih =>
    intro y z hne hshares
    by_cases hy : y = x
    · right
      rw [MessageType.put, if_neg (hy ▸ hne.symm), ← hy, hshares, if_pos rfl]
    · by_cases hz : z = x
      · left
        rw [MessageType.put, if_neg hy, ← hz, sharesOneof_comm, hshares, if_pos rfl]
      · rw [MessageType.put, MessageType.put, if_neg hy, if_neg hz]
        refine (ih y z hne hshares).imp (fun h => ?_) fun h => ?_
        · rw [h, ite_self]
        · rw [h, ite_self]

/-- A content in which nothing but one value stands, under one key. -/
def Content.Only (k v : V) : Content V → Prop
  | .single w => w = v
  | .elements held => ∀ w ∈ held, w = v
  | .entries held => ∀ k' w, held.get? k' = some w → k' = k ∧ w = v

theorem only_of_process {ty : MessageType V} {msg msg' : Message V} {k v : V}
    (hf : f ∈ ty.fields) (hargs : args f.name = f.argOf k v)
    (hmsg : ∀ c, msg f.name = some c → c.Only (f.storedKey k) (f.stored v))
    (h : process world ty args msg f = some msg') :
    ∀ c, msg' f.name = some c → c.Only (f.storedKey k) (f.stored v) := by
  have hset : (Content.entries (f.setEntry (msg.entries f.name) (k, v))).Only
      (f.storedKey k) (f.stored v) := by
    intro k' w hget
    rw [FieldDescriptor.setEntry, Dict.get?_set] at hget
    split at hget
    · next hk => exact ⟨hk, (some.inj hget).symm⟩
    · rw [Message.entries] at hget
      split at hget
      · next hheld => exact hmsg _ hheld k' w hget
      · cases hget
  have hput : ∀ {c : Content V}, c.Only (f.storedKey k) (f.stored v) → ∀ c',
      ty.put msg f.name c f.name = some c' → c'.Only (f.storedKey k) (f.stored v) := by
    rintro c hc c' hc'
    rw [put_self] at hc'
    exact some.inj hc' ▸ hc
  rw [process, block_eq, hargs, FieldDescriptor.argOf] at h
  cases hkind : f.kind with
  | plain | optional =>
    simp only [hkind, assign, bind_field? hf] at h
    obtain ⟨-, rfl⟩ := ite_eq_some_iff.mp h
    exact hput rfl
  | message =>
    simp only [hkind, Block.apply, bind_field? hf] at h
    obtain ⟨-, rfl⟩ := ite_eq_some_iff.mp h
    exact hput rfl
  | repeated =>
    simp only [hkind, Block.apply, World.whenTrue, World.truth, World.iterate, bind_some, if_true,
      bind_field? hf] at h
    obtain ⟨-, rfl⟩ := ite_eq_some_iff.mp h
    refine hput fun w hw => ?_
    rcases mem_append.mp hw with hw | hw
    · rw [Message.elements] at hw
      split at hw
      · next hheld => exact hmsg _ hheld w hw
      · cases hw
    · exact mem_singleton.mp hw
  | map ofMessages =>
    cases ofMessages with
    | true =>
      simp only [hkind, Block.apply, World.whenTrue, World.truth, bind_some, if_true, run_cons,
        copyEntry, bind_field? hf, run_nil, Option.bind_fun_some] at h
      obtain ⟨-, rfl⟩ := ite_eq_some_iff.mp h
      exact hput hset
    | false =>
      simp only [hkind, Block.apply, World.whenTrue, World.truth, bind_some, if_true,
        bind_field? hf] at h
      obtain ⟨-, rfl⟩ := ite_eq_some_iff.mp h
      exact hput hset

/-! ### Captured arguments -/

section

variable (h : SendsRequest world passed s m)
include h

/-- **An argument without influence** breaks the request: one call would have to set the field
and the other not. -/
theorem not_captured (hg : g ∈ m.input.fields)
    (hkind : g.kind ≠ .plain) (hargs : Typed passed m.input args)
    (hcall : call world s m (Function.update args g.name g.oneArg) =
      call world s m (Function.update args g.name g.leastArg)) : False := by
  obtain ⟨msg, hone, hholds⟩ := h _ (hargs.update hg (takes_oneArg passed g))
  obtain ⟨msg', hleast, hholds'⟩ := h _ (hargs.update hg (takes_leastArg passed g))
  have hsame : msg = msg' := by
    rw [hcall, hleast] at hone
    exact (Sent.mk.inj (some.inj hone)).2.2.symm
  have hset := hholds g hg
  have hunset := hholds' g hg
  rw [Function.update_self] at hset hunset
  exact not_holds_both hkind hset (hsame ▸ hunset)

theorem request_of_sends :
    ∀ f ∈ m.input.fields, f.name = "request" → f.kind = .plain := by
  intro f hf hname
  by_contra hkind
  refine not_captured h hf hkind (typed_leastArgs passed m.input)
    (call_of_request hf hname hkind fun y hy => ?_)
  rw [Function.update_of_ne (hname ▸ hy), Function.update_of_ne (hname ▸ hy)]

/-- A field named like a loop's variable has no block after the loop. -/
theorem loops_of_sends :
    ∀ g ∈ afterLoop m.input.fields, g.block.isSome = true → g.name ∉ loopNames := by
  intro g hg hblock hx
  obtain ⟨before, f, after, hsplit, hbefore, hloop, hafter⟩ := afterLoop_split hg
  have hfmem : f ∈ m.input.fields := by
    rw [hsplit]
    exact mem_append_right _ mem_cons_self
  have hgmem : g ∈ m.input.fields := by
    rw [hsplit]
    exact mem_append_right _ (mem_cons_of_mem _ hafter)
  have hrequest : f.name ≠ "request" := by
    intro hname
    cases hloop.symm.trans (request_of_sends h f hfmem hname)
  have hne : f.name ≠ g.name := by
    intro heq
    have hnodup := m.input.nodup
    rw [hsplit, map_append, map_cons, nodup_append, nodup_cons] at hnodup
    exact hnodup.2.1.1 (heq ▸ mem_map_of_mem hafter)
  -- the loop runs once, and the later field is given or not
  have hruns : Function.update (Function.update m.input.leastArgs f.name f.oneArg) g.name g.oneArg
      f.name = .mapping ⟨[(f.defaultKey, f.default)], nodup_singleton _⟩ (some true) := by
    rw [Function.update_of_ne hne, Function.update_self, FieldDescriptor.oneArg,
      FieldDescriptor.argOf, hloop]
  refine not_captured h hgmem (block_isSome_iff.mp hblock).1
    ((typed_leastArgs passed m.input).update hfmem (takes_oneArg passed f))
    (call_of_loop hsplit hbefore hloop hafter hblock hx hrequest hruns rfl fun y hy => ?_)
  rw [Function.update_of_ne hy, Function.update_of_ne hy]

theorem uncaptured_of_sends : Uncaptured m.input :=
  ⟨request_of_sends h, loops_of_sends h⟩

theorem unhidden_of_sends : Unhidden s m := by
  obtain ⟨msg, hcall, -⟩ := h _ (typed_leastArgs passed m.input)
  exact unhidden_of_call hcall

/-! ### Oneofs, hidden methods and skipped iterables -/

variable (hm : m ∈ s.methods)
include hm

theorem run_of_sends (hargs : Typed passed m.input args) :
    ∃ msg, run (process world m.input args) (fun _ => none) m.input.order = some msg ∧
      ∀ f ∈ m.input.fields, Holds (args f.name) (msg f.name) := by
  obtain ⟨msg, hcall, hholds⟩ := h args hargs
  rw [call_eq hm (unhidden_of_sends h) (uncaptured_of_sends h)] at hcall
  obtain ⟨msg', hrun, hsent⟩ := map_eq_some_iff.mp hcall
  exact ⟨msg', hrun, (Sent.mk.inj hsent).2.2 ▸ hholds⟩

theorem oneofs_of_sends :
    ∀ f ∈ m.input.fields, ∀ g ∈ m.input.fields, f.name ≠ g.name →
      m.input.sharesOneof f.name g.name = false := by
  intro f hf g hg hne
  by_contra hshares
  rw [Bool.not_eq_false] at hshares
  have hargs := ((typed_leastArgs passed m.input).update hf (takes_oneArg passed f)).update
    hg (takes_oneArg passed g)
  obtain ⟨msg, hrun, hholds⟩ := run_of_sends h hm hargs
  have hexclusive : Exclusive m.input msg :=
    run_invariant (fun hmsg hstep => (process_writes hstep).exclusive hmsg)
      (fun _ _ _ _ => .inl rfl) hrun
  have hheld := hholds f hf
  have hheld' := hholds g hg
  rw [Function.update_of_ne hne, Function.update_self] at hheld
  rw [Function.update_self] at hheld'
  rcases hexclusive f.name g.name hne hshares with hnone | hnone
  · exact ne_none_of_holds_one hheld hnone
  · exact ne_none_of_holds_one hheld' hnone

/-- A field whose step raises for some argument of its type breaks the request. -/
theorem process_ne_none (hf : f ∈ m.input.fields) {a : Arg V} (htakes : f.takes passed a = true)
    (hnone : ∀ args : String → Arg V, args f.name = a →
      ∀ msg, process world m.input args msg f = none) : False := by
  obtain ⟨msg, hrun, -⟩ := run_of_sends h hm ((typed_leastArgs passed m.input).update hf htakes)
  obtain ⟨before, after, hstep⟩ := exists_step_of_run hrun ((order_perm m.input).mem_iff.mpr hf)
  rw [hnone _ (Function.update_self ..)] at hstep
  cases hstep

theorem copies_of_sends :
    ∀ f ∈ m.input.fields, f.kind = .message ∨ f.kind = .map true → f.hidesCopyFrom = false := by
  intro f hf hkind
  by_contra hhides
  refine process_ne_none h hm hf (takes_oneArg passed f) fun args hargs msg => ?_
  rw [process, block_eq, hargs, FieldDescriptor.oneArg, FieldDescriptor.argOf]
  rcases hkind with hkind | hkind
  · simp only [hkind, Block.apply, bind_field? hf, hhides, false_and, if_false]
  · simp only [hkind, Block.apply, World.whenTrue, World.truth, bind_some, if_true, run_cons,
      copyEntry, bind_field? hf, hhides, false_and, if_false, bind_none]

/-- **What a field holds** after it was processed with an argument, if it was only written to by
its own step. -/
theorem held_of_sends (hf : f ∈ m.input.fields) {a : Arg V} (htakes : f.takes passed a = true)
    {P : Option (Content V) → Prop} (hnone : P none)
    (hstep : ∀ {args : String → Arg V} {msg msg'}, args f.name = a → P (msg f.name) →
      process world m.input args msg f = some msg' → P (msg' f.name)) :
    ∃ content, Holds a content ∧ P content := by
  obtain ⟨msg, hrun, hholds⟩ := run_of_sends h hm
    ((typed_leastArgs passed m.input).update hf htakes)
  have hheld := hholds f hf
  rw [Function.update_self] at hheld
  refine ⟨_, hheld, ?_⟩
  refine run_invariant_mem (P := fun now : Message V => P (now f.name))
    (fun {now g now'} hg hnow hnext => ?_) hnone hrun
  have hgmem := (order_perm m.input).mem_iff.mp hg
  by_cases hname : g.name = f.name
  · obtain rfl := inj_on_of_nodup_map m.input.nodup hgmem hf hname
    exact hstep (Function.update_self ..) hnow hnext
  · rw [(process_writes hnext).frame (Ne.symm hname)
      (oneofs_of_sends h hm g hgmem f hf hname)]
    exact hnow

theorem exact_of_sends :
    ∀ f ∈ m.input.fields, f.Exact := by
  intro f hf
  have hboth : ∀ k v, f.acceptsKey k = true → f.accepts v = true →
      f.stored v = v ∧ ((∃ b, f.kind = .map b) → f.storedKey k = k) := by
    intro k v hk hv
    obtain ⟨content, hholds, honly⟩ := held_of_sends h hm hf (takes_argOf passed hk hv)
      (P := fun content => ∀ c, content = some c → c.Only (f.storedKey k) (f.stored v))
      (fun c hc => nomatch hc) (fun hargs hmsg hstep => only_of_process hf hargs hmsg hstep)
    rw [FieldDescriptor.argOf] at hholds
    cases hkind : f.kind with
    | plain | optional | message =>
      rw [hkind] at hholds
      exact ⟨(honly _ hholds).symm, by rintro ⟨b, hb⟩; cases hb⟩
    | repeated =>
      rw [hkind] at hholds
      rcases hholds with rfl | ⟨hnil, -⟩
      · exact ⟨(honly _ rfl v mem_cons_self).symm, by rintro ⟨b, hb⟩; cases hb⟩
      · cases hnil
    | map b =>
      rw [hkind] at hholds
      rcases hholds with ⟨held, rfl, hget⟩ | ⟨hnil, -⟩
      · have hentry := honly _ rfl k v (by rw [hget]; simp [Dict.get?])
        exact ⟨hentry.2.symm, fun _ => hentry.1.symm⟩
      · cases hnil
  exact ⟨fun v hv => (hboth _ v f.acceptsKey_default hv).1,
    fun hmap k hk => (hboth k _ hk f.accepts_default).2 hmap⟩

/-- A step behind `if f:` needs a truth value that tells. -/
theorem tells_of_sends
    (hf : f ∈ m.input.fields) {a : Arg V} (htakes : f.takes passed a = true) {truth : Option Bool}
    (htruth : world.truth a = truth) {isEmpty : Bool} (hempty : Holds a none → isEmpty = true)
    (hprocess : ∀ args : String → Arg V, args f.name = a → ∀ msg, ∃ body,
      process world m.input args msg f = world.whenTrue a msg body) : Tells truth isEmpty := by
  subst htruth
  cases htruth : world.truth a with
  | none =>
    refine (process_ne_none h hm hf htakes fun args hargs msg => ?_).elim
    obtain ⟨body, hbody⟩ := hprocess args hargs msg
    rw [hbody, World.whenTrue, htruth, bind_none]
  | some isTrue =>
    cases isTrue with
    | true => exact .inl rfl
    | false =>
      obtain ⟨content, hholds, rfl⟩ := held_of_sends h hm hf htakes (P := (· = none)) rfl
        fun {args msg msg'} hargs hmsg hstep => by
          obtain ⟨body, hbody⟩ := hprocess args hargs msg
          rw [hbody, World.whenTrue, htruth] at hstep
          cases hstep
          exact hmsg
      exact .inr ⟨rfl, hempty hholds⟩

theorem told_of_sends :
    ∀ f ∈ m.input.fields, f.Told passed := by
  refine fun f hf => ⟨fun hkind elements truth haccepts hpassed => ?_,
    fun hmap entries truth haccepts hpassed => ?_⟩
  · refine tells_of_sends h hm hf (a := .iterable elements truth) ?_ rfl ?_
      fun args hargs msg => ?_
    · simp only [FieldDescriptor.takes, hkind, haccepts, hpassed, Bool.and_self]
    · rintro (hheld | ⟨rfl, -⟩)
      · cases hheld
      · rfl
    · rw [process, block_eq, hkind, hargs]
      exact ⟨_, rfl⟩
  · obtain ⟨ofMessages, hkind⟩ := hmap
    refine tells_of_sends h hm hf (a := .mapping entries truth) ?_ rfl ?_
      fun args hargs msg => ?_
    · simp only [FieldDescriptor.takes, hkind, haccepts, hpassed, Bool.and_self]
    · rintro (⟨held, hheld, -⟩ | ⟨hnil, -⟩)
      · cases hheld
      · rw [hnil]
        rfl
    · rw [process, block_eq, hkind, hargs]
      cases ofMessages <;> exact ⟨_, rfl⟩

end

theorem sendsRequest_iff (hm : m ∈ s.methods) :
    SendsRequest world passed s m ↔ Sound passed s m :=
  ⟨fun h => ⟨unhidden_of_sends h, uncaptured_of_sends h, oneofs_of_sends h hm,
    copies_of_sends h hm, exact_of_sends h hm, told_of_sends h hm⟩, sendsRequest_of_sound hm⟩

end

/-- **Generated clients**: each unary RPC has a right module and sends the right request for all
well-typed arguments, exactly if the module's names are clear and the request's fields sound. -/
theorem client_right_iff (world : World V) (passed : Passed V) (s : ServiceDescriptor V) :
    (∀ m ∈ s.methods, m.unary = true → ModuleRight s ∧ SendsRequest world passed s m) ↔
      ∀ m ∈ s.methods, m.unary = true → Clear s ∧ Sound passed s m :=
  forall₂_congr fun _ hm => imp_congr_right fun _ =>
    and_congr (moduleRight_iff hm) (sendsRequest_iff hm)

/-! ### Descriptors that break it -/

/-- A field of a `string`, singular or repeated. -/
def stringField (name : String) (isRepeated : Bool) : FieldDescriptor ℕ where
  name := name
  type := 9
  label := if isRepeated then 3 else 1
  messageType := none
  containingOneof := none
  accepts _ := true
  acceptsKey _ := true
  stored := id
  storedKey := id
  default := 0
  defaultKey := 0
  accepts_default := rfl
  acceptsKey_default := rfl
  singular h := absurd rfl h

/-- A service with one unary RPC, whose request has one field. -/
def oneFieldService (f : FieldDescriptor ℕ) : ServiceDescriptor ℕ where
  name := "SearchService"
  stem := "search"
  methods := [⟨"Search", ⟨"v1.SearchRequest", "SearchRequest", [f], List.nodup_singleton _⟩,
    "SearchReply", true⟩]
  nodup := List.nodup_singleton _
  exports x := if x = "SearchRequest" then
    some ⟨"v1.SearchRequest", "SearchRequest", [f], List.nodup_singleton _⟩ else none

/-- **A field named `from`** makes a module that Python refuses. -/
theorem keyword_field_breaks :
    let s := oneFieldService (stringField "from" false)
    (∃ m ∈ s.methods, m.unary = true) ∧ ¬ ModuleRight s := by
  refine ⟨⟨_, mem_cons_self, rfl⟩, fun h => ?_⟩
  have hinvalid : (emitted (oneFieldService (stringField "from" false))).valid = false := by
    decide +kernel
  rw [h.valid] at hinvalid
  cases hinvalid

end ServiceToolkit.ClientCodegen
