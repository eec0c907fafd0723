import ServiceToolkit.ClientCodegenRun

/-!
# Which Generated Clients are Right

A generated client is right if Python accepts the module, every RPC has a function of its own
beside `close`, and each function of a unary RPC sends through the RPC's stub a message of the
RPC's input type that holds the arguments. Nothing in the generator looks at the names it puts
into the text, so this depends on the descriptor.

`Sound` fields make the right request; that they have to be sound is in `ClientCodegenBreaks`.

Which iterables and mappings a caller passes is a parameter (`Passed`): lists and dictionaries are
always among them, but `if f:` skips what is false, and Python allows others that are false and not
empty, or that have no truth value.
-/

namespace ServiceToolkit.ClientCodegen

open List

variable {V : Type*}

/-! ### Names of the module -/

/-- The functions of the module: Python accepts it, and under each function's name is the
function, beside `close`. -/
structure ModuleRight (s : ServiceDescriptor V) : Prop where
  valid : (emitted s).valid = true
  functions : ∀ m ∈ s.methods, (emitted s).globals.get? (snake m.name) = some (.function m.name)
  close : (emitted s).globals.get? "close" = some .close

/-- The method's names parse. -/
def MethodDescriptor.Named (m : MethodDescriptor V) : Prop :=
  isBindable (snake m.name) = true ∧ isAttribute m.name = true ∧
    isAttribute m.outputName = true ∧ isAttribute m.input.name = true

/-- The field's name parses, and is no option's. -/
def FieldDescriptor.Named (f : FieldDescriptor V) : Prop :=
  isBindable f.name = true ∧ f.name ∉ grpcOptions.map Param.name

/-- **Names that parse and stay apart.** -/
structure Clear (s : ServiceDescriptor V) : Prop where
  functions : (s.methods.map fun m => snake m.name).Nodup
  close : ∀ m ∈ s.methods, snake m.name ≠ "close"
  methods : ∀ m ∈ s.methods, m.Named
  fields : ∀ m ∈ s.methods, ∀ f ∈ m.input.fields, f.Named

section

variable {s : ServiceDescriptor V} {m : MethodDescriptor V}

theorem params_perm : ((m.input.ofKind .plain).map FieldDescriptor.name ++
    (m.input.fields.filter fun f => f.kind ≠ .plain).map FieldDescriptor.name).Perm
      (m.input.fields.map FieldDescriptor.name) := by
  have hnot : (fun f : FieldDescriptor V => decide (f.kind ≠ .plain)) =
      fun f => !decide (f.kind = .plain) := by
    funext f
    exact decide_not
  rw [← map_append, MessageType.ofKind, hnot]
  exact (filter_append_perm _ _).map _

theorem params_nodup_iff : ((renderMethod (scanMethod s m)).params.map Param.name).Nodup ↔
    ∀ f ∈ m.input.fields, f.name ∉ grpcOptions.map Param.name := by
  have hoptions : (grpcOptions.map Param.name).Nodup := by decide
  rw [params_names, nodup_append, params_perm.nodup_iff]
  constructor
  · rintro ⟨-, -, hdisjoint⟩ f hf hoption
    exact hdisjoint f.name (params_perm.mem_iff.mpr (mem_map_of_mem hf)) f.name hoption rfl
  · refine fun h => ⟨m.input.nodup, hoptions, ?_⟩
    rintro x hx _ hoption rfl
    obtain ⟨f, hf, rfl⟩ := mem_map.mp (params_perm.mem_iff.mp hx)
    exact h f hf hoption

theorem function_valid_iff : (renderMethod (scanMethod s m)).valid = true ↔
    m.Named ∧ ∀ f ∈ m.input.fields, f.Named := by
  have hoptions : ∀ x ∈ grpcOptions.map Param.name, isBindable x = true := by decide
  have hparams : ((renderMethod (scanMethod s m)).params.map Param.name).all isBindable = true ↔
      ∀ f ∈ m.input.fields, isBindable f.name = true := by
    rw [all_eq_true]
    refine ⟨fun h f hf => h f.name (mem_params_iff.mpr (.inl ⟨f, hf, rfl⟩)), fun h x hx => ?_⟩
    rcases mem_params_iff.mp hx with ⟨f, hf, rfl⟩ | hx
    · exact h f hf
    · exact hoptions x hx
  simp only [FieldDescriptor.Named]
  rw [forall₂_and, ← hparams, ← params_nodup_iff (s := s), Function.valid]
  simp only [Bool.and_eq_true, decide_eq_true_eq, MethodDescriptor.Named, and_assoc]
  rfl

theorem valid_iff (hm : m ∈ s.methods) : (emitted s).valid = true ↔
    (∀ m ∈ s.methods, m.Named) ∧ ∀ m ∈ s.methods, ∀ f ∈ m.input.fields, f.Named := by
  have hstubs : (emitted s).stubs ≠ [] := by
    rw [emitted, renderServiceModule, scanService, map_map]
    exact ne_nil_of_mem (mem_map_of_mem hm)
  have hfunctions : (emitted s).functions =
      s.methods.map fun m => renderMethod (scanMethod s m) := map_map
  rw [Emitted.valid, hfunctions, Bool.and_eq_true, and_iff_right (decide_eq_true hstubs),
    all_map, all_eq_true, ← forall₂_and]
  exact forall₂_congr fun m _ => function_valid_iff

theorem close_iff : (emitted s).globals.get? "close" = some .close ↔
    ∀ m ∈ s.methods, snake m.name ≠ "close" := by
  constructor
  · intro h m hm heq
    obtain ⟨other, -, -, hget⟩ := globals_of_taken hm
    rw [heq, h] at hget
    cases hget
  · intro h
    rw [globals_of_free h, header_lookup.1]

theorem moduleRight_iff (hm : m ∈ s.methods) : ModuleRight s ↔ Clear s := by
  constructor
  · intro h
    obtain ⟨hmethods, hfields⟩ := (valid_iff hm).mp h.valid
    exact ⟨own_functions_iff.mp h.functions, close_iff.mp h.close, hmethods, hfields⟩
  · intro h
    exact ⟨(valid_iff hm).mpr ⟨h.methods, h.fields⟩, own_functions_iff.mpr h.functions,
      close_iff.mpr h.close⟩

end

/-! ### Fields and oneofs -/

section

variable {ty : MessageType V} {f : FieldDescriptor V}

theorem label_eq_three_iff : f.label = 3 ↔ f.kind = .repeated ∨ ∃ b, f.kind = .map b := by
  rw [FieldDescriptor.kind, Field.kind]
  by_cases hmap : (collectField f).isMap = true
  · have hrepeated : f.label = 3 := by
      simp only [collectField, Bool.and_eq_true, decide_eq_true_eq] at hmap
      exact hmap.1.1
    simp [hmap, hrepeated]
  · have hrepeated : (collectField f).isRepeated = true ↔ f.label = 3 := by
      simp [collectField]
    rw [if_neg hmap, ← hrepeated]
    by_cases h : (collectField f).isRepeated = true
    · simp [h]
    · simp only [h, Bool.false_eq_true, if_false]
      split
      · simp
      · split <;> simp

theorem field?_eq (hf : f ∈ ty.fields) : ty.field? f.name = some f := by
  rw [MessageType.field?]
  cases hfind : ty.fields.find? fun g => g.name = f.name with
  | none => simpa using find?_eq_none.mp hfind f hf
  | some g =>
    have hname := find?_some hfind
    rw [inj_on_of_nodup_map ty.nodup (mem_of_find?_eq_some hfind) hf
      (of_decide_eq_true hname)]

theorem block_eq : f.block = match f.kind with
    | .map true => some (.copyMap f.name)
    | .map false => some (.updateMap f.name)
    | .repeated => some (.extend f.name)
    | .message => some (.copyFrom f.name)
    | .optional | .plain => none := rfl

theorem bind_field? {α : Type*} (hf : f ∈ ty.fields) (p : FieldDescriptor V → Option α) :
    (ty.field? f.name).bind p = p f := by
  rw [field?_eq hf, Option.bind_some]

theorem ite_eq_some_iff {α : Type*} {p : Prop} [Decidable p] {a b : α} :
    (if p then some a else none) = some b ↔ p ∧ a = b := by
  split <;> simp_all

theorem sharesOneof_comm (x y : String) : ty.sharesOneof x y = ty.sharesOneof y x := by
  rw [MessageType.sharesOneof, MessageType.sharesOneof]
  cases ty.field? x with
  | none => cases ty.field? y <;> rfl
  | some f =>
    cases ty.field? y with
    | none => rfl
    | some g =>
      dsimp only
      by_cases h : f.containingOneof = g.containingOneof
      · rw [h]
      · simp [h, Ne.symm h]

theorem order_perm (ty : MessageType V) : ty.order.Perm ty.fields := by
  let rest := ty.fields.filter fun f => !decide (f.kind = .plain)
  have hoptional : ty.ofKind .optional = rest.filter fun f => decide (f.kind = .optional) := by
    rw [MessageType.ofKind, filter_filter]
    refine filter_congr fun f _ => ?_
    cases f.kind <;> rfl
  have hblocked : ty.blocked = rest.filter fun f => !decide (f.kind = .optional) := by
    rw [MessageType.blocked, filter_filter]
    refine filter_congr fun f _ => ?_
    rw [Bool.eq_iff_iff, block_isSome_iff]
    simp [and_comm]
  rw [MessageType.order, append_assoc, hoptional, hblocked]
  exact ((filter_append_perm _ rest).append_left _).trans (filter_append_perm _ _)

end

/-! ### The right request -/

variable [DecidableEq V]

/-- The iterables and mappings that callers pass, by their elements and truth value: lists and
dictionaries, and maybe others. -/
structure Passed (V : Type*) where
  iterable : List V → Option Bool → Bool
  mapping : Dict V V → Option Bool → Bool
  lists : ∀ l, iterable l (some !l.isEmpty) = true
  dicts : ∀ d, mapping d (some !d.entries.isEmpty) = true

/-- An argument of the parameter's type. -/
def FieldDescriptor.takes (passed : Passed V) (f : FieldDescriptor V) (a : Arg V) : Bool :=
  match f.kind, a with
  | .plain, .single v => f.accepts v
  | .optional, .none => true
  | .optional, .single v => f.accepts v
  | .message, .none => true
  | .message, .single v => f.accepts v
  | .repeated, .iterable elements truth =>
    elements.all f.accepts && passed.iterable elements truth
  | .map _, .none => true
  | .map _, .mapping entries truth =>
    entries.entries.all f.acceptsEntry && passed.mapping entries truth
  | _, _ => false

/-- What a field holds is its argument: it is set exactly if that is not `None`, and has exactly
its elements. -/
def Holds : Arg V → Option (Content V) → Prop
  | .none, content => content = none
  | .single v, content => content = some (.single v)
  | .iterable elements _, content =>
    content = some (.elements elements) ∨ elements = [] ∧ content = none
  | .mapping entries _, content =>
    (∃ held, content = some (.entries held) ∧ ∀ k, held.get? k = entries.get? k) ∨
      entries.entries = [] ∧ content = none

/-- **The function of an RPC sends the right request**, whatever the arguments. -/
def SendsRequest (world : World V) (passed : Passed V) (s : ServiceDescriptor V)
    (m : MethodDescriptor V) : Prop :=
  ∀ args, (∀ f ∈ m.input.fields, f.takes passed (args f.name) = true) →
    ∃ msg, call world s m args = some ⟨m.name, m.input, msg⟩ ∧
      ∀ f ∈ m.input.fields, Holds (args f.name) (msg f.name)

/-- The truth value **tells**: there is one, and what is false is empty. -/
def Tells (truth : Option Bool) (isEmpty : Bool) : Prop :=
  truth = some true ∨ truth = some false ∧ isEmpty = true

/-- What is passed to the field is told by its truth value. -/
structure FieldDescriptor.Told (passed : Passed V) (f : FieldDescriptor V) : Prop where
  iterable : f.kind = .repeated → ∀ elements truth, elements.all f.accepts = true →
    passed.iterable elements truth = true → Tells truth elements.isEmpty
  mapping : (∃ b, f.kind = .map b) → ∀ entries truth, entries.entries.all f.acceptsEntry = true →
    passed.mapping entries truth = true → Tells truth entries.entries.isEmpty

/-- The field **stores** every value it accepts as it is. -/
structure FieldDescriptor.Exact (f : FieldDescriptor V) : Prop where
  value : ∀ v, f.accepts v = true → f.stored v = v
  key : (∃ b, f.kind = .map b) → ∀ k, f.acceptsKey k = true → f.storedKey k = k

/-- **Fields that keep their arguments**: the request type is found, no name is hidden or captured,
no field clears another of its oneof or stores another value, `CopyFrom` is there when called, and
no iterable or mapping with elements is skipped. -/
structure Sound (passed : Passed V) (s : ServiceDescriptor V) (m : MethodDescriptor V) :
    Prop where
  unhidden : Unhidden s m
  uncaptured : Uncaptured m.input
  oneofs : ∀ f ∈ m.input.fields, ∀ g ∈ m.input.fields, f.name ≠ g.name →
    m.input.sharesOneof f.name g.name = false
  copies : ∀ f ∈ m.input.fields, f.kind = .message ∨ f.kind = .map true → f.hidesCopyFrom = false
  exact : ∀ f ∈ m.input.fields, f.Exact
  told : ∀ f ∈ m.input.fields, f.Told passed

/-! ### One field -/

section

variable {world : World V} {passed : Passed V} {ty : MessageType V}
  {args : String → Arg V} {msg msg' : Message V} {f g : FieldDescriptor V} {x : String}

@[simp] theorem put_self (c : Content V) : ty.put msg x c x = some c := if_pos rfl

theorem put_of_ne {c : Content V} {y : String} (hne : y ≠ x)
    (hshares : ty.sharesOneof x y = false) : ty.put msg x c y = msg y := by
  rw [MessageType.put, if_neg hne, hshares, if_neg Bool.false_ne_true]

/-- **Writing one field**, any number of times. -/
inductive Writes (ty : MessageType V) (x : String) (msg : Message V) : Message V → Prop
  | nothing : Writes ty x msg msg
  | put {msg' : Message V} (h : Writes ty x msg msg') (c : Content V) :
      Writes ty x msg (ty.put msg' x c)

theorem Writes.frame (h : Writes ty x msg msg') {y : String} (hne : y ≠ x)
    (hshares : ty.sharesOneof x y = false) : msg' y = msg y := by
  induction h with
  | nothing => rfl
  | put _ c ih => rw [put_of_ne hne hshares, ih]

variable {a : Arg V}

theorem writes_of_bind {p : FieldDescriptor V → Prop} [∀ f, Decidable (p f)]
    {c : FieldDescriptor V → Content V} {now : Message V} (hnow : Writes ty x msg now)
    (h : ((ty.field? x).bind fun f => if p f then some (ty.put now x (c f)) else none) =
      some msg') : Writes ty x msg msg' := by
  obtain ⟨f, -, h⟩ := Option.bind_eq_some_iff.mp h
  obtain ⟨-, rfl⟩ := ite_eq_some_iff.mp h
  exact .put hnow _

theorem assign_writes (h : assign ty msg x a = some msg') : Writes ty x msg msg' := by
  cases a with
  | none =>
    cases h
    exact .nothing
  | single v => exact writes_of_bind .nothing h
  | iterable elements truth | mapping entries truth => cases h

theorem copyEntries_writes {entries : List (V × V)}
    (h : run (copyEntry ty x) msg entries = some msg') : Writes ty x msg msg' := by
  exact run_invariant (P := Writes ty x msg) (fun hnow hstep => writes_of_bind hnow hstep)
    .nothing h

theorem whenTrue_writes {body : Option (Message V)} (h : world.whenTrue a msg body = some msg')
    (hbody : body = some msg' → Writes ty x msg msg') : Writes ty x msg msg' := by
  obtain ⟨isTrue, -, h⟩ := Option.bind_eq_some_iff.mp h
  cases isTrue with
  | true => exact hbody h
  | false =>
    cases h
    exact .nothing

theorem apply_writes {b : Block} (h : b.apply world ty msg a = some msg') :
    Writes ty b.field msg msg' := by
  cases b with
  | updateMap x =>
    refine whenTrue_writes h fun h => ?_
    split at h
    · exact writes_of_bind .nothing h
    · cases h
  | copyMap x =>
    refine whenTrue_writes h fun h => ?_
    split at h
    · exact copyEntries_writes h
    · cases h
  | extend x =>
    refine whenTrue_writes h fun h => ?_
    obtain ⟨elements, -, h⟩ := Option.bind_eq_some_iff.mp h
    exact writes_of_bind .nothing h
  | copyFrom x =>
    simp only [Block.apply] at h
    split at h
    · cases h
      exact .nothing
    · exact writes_of_bind .nothing h
    · cases h

theorem process_writes (h : process world ty args msg f = some msg') :
    Writes ty f.name msg msg' := by
  rw [process] at h
  split at h
  · rename_i b hblock
    rw [← block_field hblock]
    exact apply_writes h
  · exact assign_writes h

/-! ### A field gets its argument -/

theorem assign_holds (hf : f ∈ ty.fields) (hlabel : f.label ≠ 3) (hexact : f.Exact)
    (hnone : msg f.name = none) (ha : a = .none ∨ ∃ v, a = .single v ∧ f.accepts v = true) :
    ∃ msg', assign ty msg f.name a = some msg' ∧ Holds a (msg' f.name) := by
  rcases ha with rfl | ⟨v, rfl, hv⟩
  · exact ⟨msg, rfl, hnone⟩
  · refine ⟨ty.put msg f.name (.single v), ?_, put_self _⟩
    rw [assign, bind_field? hf, if_pos ⟨hlabel, hv⟩, hexact.value v hv]

theorem copyFrom_holds (hf : f ∈ ty.fields) (hcopies : f.hidesCopyFrom = false)
    (hexact : f.Exact) (hnone : msg f.name = none)
    (ha : a = .none ∨ ∃ v, a = .single v ∧ f.accepts v = true) :
    ∃ msg', (Block.copyFrom f.name).apply world ty msg a = some msg' ∧
      Holds a (msg' f.name) := by
  rcases ha with rfl | ⟨v, rfl, hv⟩
  · exact ⟨msg, rfl, hnone⟩
  · refine ⟨ty.put msg f.name (.single v), ?_, put_self _⟩
    rw [Block.apply, bind_field? hf, if_pos ⟨hcopies, hv⟩, hexact.value v hv]

theorem extend_holds (hf : f ∈ ty.fields) (hexact : f.Exact) (hnone : msg f.name = none)
    {elements : List V} {truth : Option Bool} (haccepts : elements.all f.accepts = true)
    (htells : Tells truth elements.isEmpty) :
    ∃ msg', (Block.extend f.name).apply world ty msg (.iterable elements truth) = some msg' ∧
      Holds (.iterable elements truth) (msg' f.name) := by
  rcases htells with rfl | ⟨rfl, hempty⟩
  · have hheld : msg.elements f.name = [] := by rw [Message.elements, hnone]
    have hstored : elements.map f.stored = elements :=
      (map_congr_left fun v hv => hexact.value v (all_eq_true.mp haccepts v hv)).trans (map_id' _)
    refine ⟨ty.put msg f.name (.elements elements), ?_, .inl (put_self _)⟩
    simp only [Block.apply, World.whenTrue, World.truth, World.iterate, Option.bind_some, if_true,
      bind_field? hf, haccepts, hheld, hstored, nil_append]
  · exact ⟨msg, rfl, .inr ⟨isEmpty_iff.mp hempty, hnone⟩⟩

/-- The entries that a map holds after those it was given. -/
theorem foldl_setEntry (hexact : f.Exact) (hmap : ∃ b, f.kind = .map b) {entries : List (V × V)}
    (haccepts : entries.all f.acceptsEntry = true) (held : Dict V V) :
    entries.foldl f.setEntry held = entries.foldl (fun d e => d.set e.1 e.2) held := by
  refine foldl_ext _ _ held fun d e he => ?_
  have hentry := Bool.and_eq_true_iff.mp (all_eq_true.mp haccepts e he)
  rw [FieldDescriptor.setEntry, hexact.key hmap e.1 hentry.1, hexact.value e.2 hentry.2]

variable (msg) in
theorem copyEntries_holds (hf : f ∈ ty.fields) (hcopies : f.hidesCopyFrom = false)
    {entries : List (V × V)} (haccepts : entries.all f.acceptsEntry = true) :
    ∃ msg', run (copyEntry ty f.name) msg entries = some msg' ∧
      (msg' f.name = some (.entries (entries.foldl f.setEntry (msg.entries f.name))) ∨
        entries = [] ∧ msg' = msg) := by
  induction entries generalizing msg with
  | nil => exact ⟨msg, rfl, .inr ⟨rfl, rfl⟩⟩
  | cons e rest ih =>
    rw [all_cons, Bool.and_eq_true] at haccepts
    let next := ty.put msg f.name (.entries (f.setEntry (msg.entries f.name) e))
    have hstep : copyEntry ty f.name msg e = some next := by
      rw [copyEntry, bind_field? hf, if_pos ⟨hcopies, haccepts.1⟩]
    have hput : next f.name = some (.entries (f.setEntry (msg.entries f.name) e)) := put_self _
    have hnext : next.entries f.name = f.setEntry (msg.entries f.name) e := by
      rw [Message.entries, hput]
    obtain ⟨msg', hrun, hheld⟩ := ih next haccepts.2
    refine ⟨msg', ?_, .inl ?_⟩
    · rw [run_cons, hstep, Option.bind_some, hrun]
    · rcases hheld with hheld | ⟨rfl, rfl⟩
      · rw [hheld, hnext, foldl_cons]
      · exact put_self _

variable (world) in
theorem map_holds (hf : f ∈ ty.fields) {ofMessages : Bool} (hkind : f.kind = .map ofMessages)
    (hcopies : ofMessages = true → f.hidesCopyFrom = false) (hexact : f.Exact)
    (hnone : msg f.name = none) (ha : a = .none ∨ ∃ entries truth, a = .mapping entries truth ∧
      entries.entries.all f.acceptsEntry = true ∧ Tells truth entries.entries.isEmpty) :
    ∃ msg', (if ofMessages then Block.copyMap f.name else .updateMap f.name).apply world ty msg a =
      some msg' ∧ Holds a (msg' f.name) := by
  rcases ha with rfl | ⟨entries, truth, rfl, haccepts, rfl | ⟨rfl, hempty⟩⟩
  · cases ofMessages <;> exact ⟨msg, rfl, hnone⟩
  · have hheld : msg.entries f.name = .empty := by rw [Message.entries, hnone]
    have hget : ∀ k, (entries.entries.foldl f.setEntry (msg.entries f.name)).get? k =
        entries.get? k := by
      intro k
      rw [foldl_setEntry hexact ⟨_, hkind⟩ haccepts, hheld]
      exact (Dict.get?_update _ entries k).trans (by rw [Dict.get?_empty, Option.or_none])
    cases ofMessages with
    | true =>
      obtain ⟨msg', hrun, hheld⟩ := copyEntries_holds msg hf (hcopies rfl) haccepts
      refine ⟨msg', hrun, ?_⟩
      rcases hheld with hheld | ⟨hnil, rfl⟩
      · exact .inl ⟨_, hheld, hget⟩
      · exact .inr ⟨hnil, hnone⟩
    | false =>
      refine ⟨ty.put msg f.name (.entries (entries.entries.foldl f.setEntry (msg.entries f.name))),
        ?_, .inl ⟨_, put_self _, hget⟩⟩
      simp only [Bool.false_eq_true, if_false, Block.apply, World.whenTrue, World.truth,
        Option.bind_some, if_true, bind_field? hf, haccepts]
  · refine ⟨msg, ?_, .inr ⟨isEmpty_iff.mp hempty, hnone⟩⟩
    cases ofMessages <;> rfl

theorem takes_cases (h : f.takes passed a = true) :
    (∃ v, f.kind = .plain ∧ a = .single v ∧ f.accepts v = true) ∨
    ((f.kind = .optional ∨ f.kind = .message) ∧
      (a = .none ∨ ∃ v, a = .single v ∧ f.accepts v = true)) ∨
    (∃ elements truth, f.kind = .repeated ∧ a = .iterable elements truth ∧
      elements.all f.accepts = true ∧ passed.iterable elements truth = true) ∨
    ∃ b, f.kind = .map b ∧ (a = .none ∨ ∃ entries truth, a = .mapping entries truth ∧
      entries.entries.all f.acceptsEntry = true ∧ passed.mapping entries truth = true) := by
  unfold FieldDescriptor.takes at h
  split at h
  · next v hkind => exact .inl ⟨v, hkind, rfl, h⟩
  · next hkind => exact .inr (.inl ⟨.inl hkind, .inl rfl⟩)
  · next v hkind => exact .inr (.inl ⟨.inl hkind, .inr ⟨v, rfl, h⟩⟩)
  · next hkind => exact .inr (.inl ⟨.inr hkind, .inl rfl⟩)
  · next v hkind => exact .inr (.inl ⟨.inr hkind, .inr ⟨v, rfl, h⟩⟩)
  · next elements truth hkind =>
    exact .inr (.inr (.inl ⟨elements, truth, hkind, rfl, Bool.and_eq_true_iff.mp h⟩))
  · next b hkind => exact .inr (.inr (.inr ⟨b, hkind, .inl rfl⟩))
  · next b entries truth hkind =>
    exact .inr (.inr (.inr ⟨b, hkind, .inr ⟨entries, truth, rfl, Bool.and_eq_true_iff.mp h⟩⟩))
  · cases h

/-- **A field with a well-typed argument** that nothing was written to yet gets it. -/
theorem process_holds (hf : f ∈ ty.fields) (htakes : f.takes passed (args f.name) = true)
    (hnone : msg f.name = none)
    (hcopies : f.kind = .message ∨ f.kind = .map true → f.hidesCopyFrom = false)
    (hexact : f.Exact) (htold : f.Told passed) :
    ∃ msg', process world ty args msg f = some msg' ∧ Holds (args f.name) (msg' f.name) := by
  have hsingular : f.kind = .plain ∨ f.kind = .optional ∨ f.kind = .message → f.label ≠ 3 := by
    intro hkind hlabel
    rcases label_eq_three_iff.mp hlabel with h | ⟨b, h⟩ <;> simp [h] at hkind
  rw [process, block_eq]
  rcases takes_cases htakes with ⟨v, hkind, ha⟩ | ⟨hkind | hkind, ha⟩ |
    ⟨elements, truth, hkind, ha, haccepts, hpassed⟩ | ⟨b, hkind, ha⟩
  · rw [hkind]
    exact assign_holds hf (hsingular (.inl hkind)) hexact hnone (.inr ⟨v, ha⟩)
  · rw [hkind]
    exact assign_holds hf (hsingular (.inr (.inl hkind))) hexact hnone ha
  · rw [hkind]
    exact copyFrom_holds hf (hcopies (.inl hkind)) hexact hnone ha
  · rw [hkind, ha]
    exact extend_holds hf hexact hnone haccepts (htold.iterable hkind _ _ haccepts hpassed)
  · have ha : args f.name = .none ∨ ∃ entries truth, args f.name = .mapping entries truth ∧
        entries.entries.all f.acceptsEntry = true ∧ Tells truth entries.entries.isEmpty := by
      refine ha.imp_right ?_
      rintro ⟨entries, truth, ha, haccepts, hpassed⟩
      exact ⟨entries, truth, ha, haccepts, htold.mapping ⟨b, hkind⟩ _ _ haccepts hpassed⟩
    have hmap := map_holds world hf hkind (fun hb => hcopies (.inr (hb ▸ hkind))) hexact
      hnone ha
    rw [hkind]
    cases b <;> exact hmap

theorem run_process_holds {fields : List (FieldDescriptor V)}
    (honeofs : ∀ f ∈ ty.fields, ∀ g ∈ ty.fields, f.name ≠ g.name →
      ty.sharesOneof f.name g.name = false)
    (hfields : ∀ f ∈ fields, f ∈ ty.fields) (hnodup : (fields.map FieldDescriptor.name).Nodup)
    (hprocess : ∀ f ∈ fields, ∀ msg : Message V, msg f.name = none →
      ∃ msg', process world ty args msg f = some msg' ∧ Holds (args f.name) (msg' f.name))
    (hnone : ∀ f ∈ fields, msg f.name = none) :
    ∃ msg', run (process world ty args) msg fields = some msg' ∧
      (∀ f ∈ fields, Holds (args f.name) (msg' f.name)) ∧
      ∀ g ∈ ty.fields, g.name ∉ fields.map FieldDescriptor.name → msg' g.name = msg g.name := by
  induction fields generalizing msg with
  | nil => exact ⟨msg, rfl, by simp, fun _ _ _ => rfl⟩
  | cons f rest ih =>
    rw [map_cons, nodup_cons] at hnodup
    have hf := hfields f mem_cons_self
    obtain ⟨next, hstep, hheld⟩ := hprocess f mem_cons_self msg (hnone f mem_cons_self)
    have hframe : ∀ g ∈ ty.fields, g.name ≠ f.name → next g.name = msg g.name :=
      fun g hg hne => (process_writes hstep).frame hne (honeofs f hf g hg hne.symm)
    have hrest : ∀ g ∈ rest, next g.name = none := by
      intro g hg
      rw [hframe g (hfields g (mem_cons_of_mem _ hg))]
      · exact hnone g (mem_cons_of_mem _ hg)
      · intro heq
        exact hnodup.1 (heq ▸ mem_map_of_mem hg)
    obtain ⟨msg', hrun, hholds, hothers⟩ := ih
      (fun g hg => hfields g (mem_cons_of_mem _ hg)) hnodup.2
      (fun g hg => hprocess g (mem_cons_of_mem _ hg)) hrest
    refine ⟨msg', ?_, ?_, fun g hg hnot => ?_⟩
    · rw [run_cons, hstep, Option.bind_some, hrun]
    · refine forall_mem_cons.mpr ⟨?_, hholds⟩
      rw [hothers f hf hnodup.1]
      exact hheld
    · rw [map_cons, mem_cons, not_or] at hnot
      rw [hothers g hg hnot.2, hframe g hg hnot.1]

end

section

variable {world : World V} {passed : Passed V} {s : ServiceDescriptor V}
  {m : MethodDescriptor V}

/-- Sound fields make the right request. -/
theorem sendsRequest_of_sound (hm : m ∈ s.methods) (h : Sound passed s m) :
    SendsRequest world passed s m := by
  intro args htakes
  have hmem : ∀ {f}, f ∈ m.input.order ↔ f ∈ m.input.fields := (order_perm m.input).mem_iff
  obtain ⟨msg, hrun, hholds, -⟩ : ∃ msg', run (process world m.input args) (fun _ => none)
      m.input.order = some msg' ∧ (∀ f ∈ m.input.order, Holds (args f.name) (msg' f.name)) ∧ _ :=
    run_process_holds h.oneofs (fun f hf => hmem.mp hf)
      (((order_perm m.input).map _).nodup_iff.mpr m.input.nodup)
      (fun f hf msg hnone => process_holds (hmem.mp hf) (htakes f (hmem.mp hf)) hnone
        (h.copies f (hmem.mp hf)) (h.exact f (hmem.mp hf)) (h.told f (hmem.mp hf)))
      fun f _ => rfl
  refine ⟨msg, ?_, fun f hf => hholds f (hmem.mpr hf)⟩
  rw [call_eq hm h.unhidden h.uncaptured, hrun, Option.map_some]

end

end ServiceToolkit.ClientCodegen
