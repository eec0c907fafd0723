import ServiceToolkit.ClientCodegen
import ServiceToolkit.Runs

/-!
# Running a Generated Client

What the function of an RPC does when it is called. Names are looked up as Python does: a
parameter or a local variable first, then the top of the module. `request` becomes a local
variable with the first line, and the loop over a map of messages binds `key` and `value`, so a
field of one of these names may lose its argument on the way (**capture**); a parameter may also
hide a name of the module that the body needs.

The protobuf runtime is modelled as far as the body uses it: a message is constructed from
keyword arguments, a field holds what its type stores for a value, setting a field of a oneof clears
the others, and `CopyFrom` of a message is hidden when its type has a field of that name. `if f:`
asks the argument for its truth value, which may raise.
-/

namespace ServiceToolkit.ClientCodegen

open List

variable {V : Type*} [DecidableEq V]

/-! ### Values and messages -/

/-- An argument: `None`, a scalar or a message, an iterable or a mapping. The last two come with
their truth value, `none` if asking for it raises. -/
inductive Arg (V : Type*) [DecidableEq V]
  | none
  | single (v : V)
  | iterable (elements : List V) (isTrue : Option Bool)
  | mapping (entries : Dict V V) (isTrue : Option Bool)

/-- What a field holds. -/
inductive Content (V : Type*) [DecidableEq V]
  | single (v : V)
  | elements (elements : List V)
  | entries (entries : Dict V V)

/-- The fields of a message that are set. -/
abbrev Message (V : Type*) [DecidableEq V] := String → Option (Content V)

/-- What Python makes of values that are not where they belong: whether a scalar or a message
is true, what iterating over one gives, and a built message as a value. -/
structure World (V : Type*) [DecidableEq V] where
  isTrue : V → Option Bool
  elements : V → Option (List V)
  pack : MessageType V → Message V → V

/-- The field of a name. -/
def MessageType.field? (ty : MessageType V) (x : String) : Option (FieldDescriptor V) :=
  ty.fields.find? fun f => f.name = x

/-- Two fields are in one oneof. -/
def MessageType.sharesOneof (ty : MessageType V) (x y : String) : Bool :=
  match ty.field? x, ty.field? y with
  | some f, some g => f.containingOneof.isSome && f.containingOneof = g.containingOneof
  | _, _ => false

/-- Setting a field clears the others of its oneof. -/
def MessageType.put (ty : MessageType V) (msg : Message V) (x : String) (c : Content V) :
    Message V :=
  fun y => if y = x then some c else if ty.sharesOneof x y then none else msg y

/-- The elements of a repeated field. -/
def Message.elements (msg : Message V) (x : String) : List V :=
  match msg x with
  | some (.elements elements) => elements
  | _ => []

/-- The entries of a map field. -/
def Message.entries (msg : Message V) (x : String) : Dict V V :=
  match msg x with
  | some (.entries entries) => entries
  | _ => .empty

/-- A keyword argument of the constructor, or `setattr` of what `apply_optional_fields` does not
skip: `None` leaves the field alone. -/
def assign (ty : MessageType V) (msg : Message V) (x : String) : Arg V → Option (Message V)
  | .none => some msg
  | .single v =>
    (ty.field? x).bind fun f =>
      if f.label ≠ 3 ∧ f.accepts v = true then some (ty.put msg x (.single (f.stored v))) else none
  | _ => none

/-- The truth value of an argument. -/
def World.truth (world : World V) : Arg V → Option Bool
  | .none => some false
  | .single v => world.isTrue v
  | .iterable _ isTrue | .mapping _ isTrue => isTrue

/-- `if f:` before what is done to a message. -/
def World.whenTrue (world : World V) (a : Arg V) (msg : Message V)
    (body : Option (Message V)) : Option (Message V) :=
  (world.truth a).bind fun isTrue => if isTrue then body else some msg

/-- What iterating over an argument gives. -/
def World.iterate (world : World V) : Arg V → Option (List V)
  | .none => none
  | .single v => world.elements v
  | .iterable elements _ => some elements
  | .mapping entries _ => some entries.keys

/-- `CopyFrom` of the message in a field, or of the values of a map field, is a field of its
own. -/
def FieldDescriptor.hidesCopyFrom (f : FieldDescriptor V) : Bool :=
  f.messageType.any fun message =>
    if message.mapEntry then "CopyFrom" ∈ message.valueFieldNames
    else "CopyFrom" ∈ message.fieldNames

/-- An entry that a map accepts. -/
def FieldDescriptor.acceptsEntry (f : FieldDescriptor V) (entry : V × V) : Bool :=
  f.acceptsKey entry.1 && f.accepts entry.2

/-- An entry put into a map. -/
def FieldDescriptor.setEntry (f : FieldDescriptor V) (held : Dict V V) (entry : V × V) : Dict V V :=
  held.set (f.storedKey entry.1) (f.stored entry.2)

/-- `request.x[key].CopyFrom(value)`. -/
def copyEntry (ty : MessageType V) (x : String) (msg : Message V) (entry : V × V) :
    Option (Message V) :=
  (ty.field? x).bind fun f =>
    if f.hidesCopyFrom = false ∧ f.acceptsEntry entry = true then
      some (ty.put msg x (.entries (f.setEntry (msg.entries x) entry)))
    else none

/-- What a block does to the request, with the value of its field's name. -/
def Block.apply (world : World V) (ty : MessageType V) (msg : Message V) (a : Arg V) :
    Block → Option (Message V)
  | .updateMap x =>
    world.whenTrue a msg <|
      match a with
      | .mapping entries _ => (ty.field? x).bind fun f =>
        if entries.entries.all f.acceptsEntry then
          some (ty.put msg x (.entries (entries.entries.foldl f.setEntry (msg.entries x))))
        else none
      | _ => none
  | .copyMap x =>
    world.whenTrue a msg <|
      match a with
      | .mapping entries _ => run (copyEntry ty x) msg entries.entries
      | _ => none
  | .extend x =>
    world.whenTrue a msg <|
      (world.iterate a).bind fun elements => (ty.field? x).bind fun f =>
        if elements.all f.accepts then
          some (ty.put msg x (.elements (msg.elements x ++ elements.map f.stored)))
        else none
  | .copyFrom x =>
    match a with
    | .none => some msg
    | .single v => (ty.field? x).bind fun f =>
      if f.hidesCopyFrom = false ∧ f.accepts v = true then
        some (ty.put msg x (.single (f.stored v)))
      else none
    | _ => none

/-! ### Calls -/

/-- What a name means in a function. -/
inductive Binding (V : Type*) [DecidableEq V]
  | arg (a : Arg V)
  | request
  | global (g : Global)

/-- The local names of a call. -/
abbrev Locals (V : Type*) [DecidableEq V] := String → Option (Binding V)

/-- Binding a local name. -/
def Locals.bind (locals : Locals V) (x : String) (b : Binding V) : Locals V :=
  fun y => if y = x then some b else locals y

/-- Local names come before those of the module. -/
def Locals.resolve (locals : Locals V) (globals : Dict String Global) (x : String) :
    Option (Binding V) :=
  (locals x).or ((globals.get? x).map .global)

/-- The names of the loop over a map, after its last round. -/
def Block.rebind (a : Arg V) (locals : Locals V) : Block → Locals V
  | .copyMap _ =>
    match a with
    | .mapping entries (some true) =>
      match entries.entries.getLast? with
      | some e => (locals.bind "key" (.arg (.single e.1))).bind "value" (.arg (.single e.2))
      | none => locals
    | _ => locals
  | _ => locals

/-- A call between two blocks. -/
structure Frame (V : Type*) [DecidableEq V] where
  locals : Locals V
  message : Message V

section

variable (world : World V) (globals : Dict String Global)

/-- The value of a name, as an argument. -/
def value (ty : MessageType V) (locals : Locals V) (msg : Message V) (x : String) :
    Option (Arg V) :=
  match locals.resolve globals x with
  | some (.arg a) => some a
  | some .request => some (.single (world.pack ty msg))
  | _ => none

/-- One block. -/
def execBlock (ty : MessageType V) (frame : Frame V) (b : Block) : Option (Frame V) :=
  (value world globals ty frame.locals frame.message b.field).bind fun a =>
    (b.apply world ty frame.message a).map fun msg => ⟨b.rebind a frame.locals, msg⟩

/-- The keyword arguments `x=x`, of the constructor or of `apply_optional_fields`. -/
def execKeywords (ty : MessageType V) (locals : Locals V) (msg : Message V)
    (names : List String) : Option (Message V) :=
  run (fun msg x => (value world globals ty locals msg x).bind (assign ty msg x)) msg names

/-- `apply_optional_fields`, if there are optional fields. -/
def execOptional (ty : MessageType V) (locals : Locals V) (msg : Message V)
    (names : List String) : Option (Message V) :=
  if names = [] then some msg
  else
    match locals.resolve globals "apply_optional_fields" with
    | some (.global .applyOptionalFields) => execKeywords world globals ty locals msg names
    | _ => none

/-- What is sent: through which stub, of which type, and which fields are set. -/
structure Sent (V : Type*) [DecidableEq V] where
  rpc : String
  type : MessageType V
  message : Message V

/-- The last statement. -/
def execSend (stubs : List String) (rpc : String) (ty : MessageType V) (frame : Frame V) :
    Option (Sent V) :=
  match frame.locals.resolve globals "_CLIENT", frame.locals.resolve globals "_STUBS" with
  | some (.global .client), some (.global .stubs) =>
    if rpc ∈ stubs then some ⟨rpc, ty, frame.message⟩ else none
  | _, _ => none

/-- The parameters of a call. -/
def Function.bindParams (f : Function) (args : String → Arg V) : Locals V :=
  fun x => if x ∈ f.params.map Param.name then some (.arg (args x)) else none

end

/-- **A call** of a function of the emitted module: what it sends, or `none` if it raises. -/
def callFunction (world : World V) (m : Emitted) (exports : String → Option (MessageType V))
    (f : Function) (args : String → Arg V) : Option (Sent V) :=
  let globals := m.globals
  let locals := f.bindParams args
  match locals.resolve globals f.body.type.1 with
  | some (.global .pb2) =>
    (exports f.body.type.2).bind fun ty =>
    (execKeywords world globals ty locals (fun _ => none) f.body.plain).bind fun msg =>
    let locals := locals.bind "request" .request
    (execOptional world globals ty locals msg f.body.optional).bind fun msg =>
    (run (execBlock world globals ty) ⟨locals, msg⟩ f.body.blocks).bind fun frame =>
    execSend globals m.stubs f.rpc ty frame
  | _ => none

/-- A call of the function of an RPC. -/
def call (world : World V) (s : ServiceDescriptor V) (m : MethodDescriptor V)
    (args : String → Arg V) : Option (Sent V) :=
  callFunction world (emitted s) s.exports (renderMethod (scanMethod s m)) args

/-! ### Field by field -/

/-- What is done for a field, with its own argument. -/
def process (world : World V) (ty : MessageType V) (args : String → Arg V) (msg : Message V)
    (f : FieldDescriptor V) : Option (Message V) :=
  match f.block with
  | some b => b.apply world ty msg (args f.name)
  | none => assign ty msg f.name (args f.name)

/-- The order in which the fields are processed. -/
def MessageType.order (ty : MessageType V) : List (FieldDescriptor V) :=
  ty.ofKind .plain ++ ty.ofKind .optional ++ ty.blocked

/-- The fields after the first loop. -/
def afterLoop (fields : List (FieldDescriptor V)) : List (FieldDescriptor V) :=
  (fields.dropWhile fun f => f.kind ≠ .map true).tail

/-- The names that a loop binds. -/
def loopNames : List String := ["key", "value"]

section

variable {world : World V} {globals : Dict String Global} {ty : MessageType V}
  {args : String → Arg V} {locals : Locals V} {msg : Message V} {x : String}

theorem Locals.bind_of_ne {y : String} {b : Binding V} (hne : y ≠ x) :
    locals.bind x b y = locals y := if_neg hne

theorem Locals.resolve_of_some {b : Binding V} (h : locals x = some b) :
    locals.resolve globals x = some b := by
  rw [Locals.resolve, h, Option.some_or]

theorem Locals.resolve_of_none (h : locals x = none) :
    locals.resolve globals x = (globals.get? x).map .global := by
  rw [Locals.resolve, h, Option.none_or]

variable {a : Arg V}

theorem value_of_arg (h : locals x = some (.arg a)) :
    value world globals ty locals msg x = some a := by
  rw [value, Locals.resolve_of_some h]

theorem value_congr {locals' : Locals V} (h : locals x = locals' x) :
    value world globals ty locals msg x = value world globals ty locals' msg x := by
  rw [value, value, Locals.resolve, Locals.resolve, h]

theorem rebind_of_not_loop {b : Block} (hx : x ∉ loopNames) : b.rebind a locals x = locals x := by
  rw [loopNames, mem_cons, mem_singleton, not_or] at hx
  cases b with
  | copyMap y =>
    unfold Block.rebind
    split
    · split
      · exact (Locals.bind_of_ne hx.2).trans (Locals.bind_of_ne hx.1)
      · rfl
    · rfl
  | updateMap y | extend y | copyFrom y => rfl

theorem rebind_of_not_copyMap {b : Block} (hb : ∀ x, b ≠ .copyMap x) :
    b.rebind a locals = locals := by
  cases b with
  | copyMap y => exact absurd rfl (hb y)
  | updateMap y | extend y | copyFrom y => rfl

theorem run_blocks_locals {frame frame' : Frame V} {blocks : List Block}
    (hrun : run (execBlock world globals ty) frame blocks = some frame')
    (hx : x ∉ loopNames) : frame'.locals x = frame.locals x := by
  refine run_invariant (P := fun now : Frame V => now.locals x = frame.locals x)
    (fun hnow hstep => ?_) rfl hrun
  obtain ⟨a, -, happly⟩ := Option.bind_eq_some_iff.mp hstep
  obtain ⟨msg, -, rfl⟩ := Option.map_eq_some_iff.mp happly
  exact (rebind_of_not_loop hx).trans hnow

theorem execKeywords_eq {fields : List (FieldDescriptor V)}
    (hargs : ∀ f ∈ fields, locals f.name = some (.arg (args f.name)))
    (hkinds : ∀ f ∈ fields, f.block = none) :
    execKeywords world globals ty locals msg (fields.map FieldDescriptor.name) =
      run (process world ty args) msg fields := by
  rw [execKeywords, run_map]
  refine run_congr fun msg f hf => ?_
  rw [value_of_arg (hargs f hf), process, hkinds f hf]
  rfl

/-- **The blocks** of fields whose names are bound to their arguments, when no name is bound by
a loop before its block. -/
theorem run_blocks {fields : List (FieldDescriptor V)}
    (hargs : ∀ f ∈ fields, f.block.isSome = true → locals f.name = some (.arg (args f.name)))
    (hloops : ∀ f ∈ afterLoop fields, f.block.isSome = true → f.name ∉ loopNames) :
    (run (execBlock world globals ty) ⟨locals, msg⟩
      (fields.filterMap FieldDescriptor.block)).map Frame.message =
      run (process world ty args) msg (fields.filter fun f => f.block.isSome) := by
  induction fields generalizing locals msg with
  | nil => rfl
  | cons f rest ih =>
    have hrest : ∀ g ∈ afterLoop rest, g.block.isSome = true → g.name ∉ loopNames := by
      intro g hg
      refine hloops g ?_
      by_cases hkind : f.kind = .map true
      · rw [afterLoop, dropWhile_cons_of_neg (by simp [hkind])]
        exact (dropWhile_suffix _).subset (mem_of_mem_tail hg)
      · rw [afterLoop, dropWhile_cons_of_pos (by simp [hkind])]
        exact hg
    cases hblock : f.block with
    | none =>
      rw [filterMap_cons_none hblock, filter_cons_of_neg (by simp [hblock])]
      exact ih (fun g hg => hargs g (mem_cons_of_mem _ hg)) hrest
    | some b =>
      have hvalue := hargs f mem_cons_self (by rw [hblock]; rfl)
      rw [filterMap_cons_some hblock, filter_cons_of_pos (by simp [hblock]),
        run_cons, run_cons, execBlock, block_field hblock, value_of_arg hvalue,
        Option.bind_some, process, hblock]
      dsimp only
      cases happly : b.apply world ty msg (args f.name) with
      | none => rfl
      | some msg' =>
        rw [Option.map_some, Option.bind_some, Option.bind_some]
        refine ih (fun g hg hsome => ?_) hrest
        rw [← hargs g (mem_cons_of_mem _ hg) hsome]
        -- either this block binds nothing, or the rest is after a loop
        by_cases hkind : f.kind = .map true
        · refine rebind_of_not_loop (hloops g ?_ hsome)
          rw [afterLoop, dropWhile_cons_of_neg (by simp [hkind])]
          exact hg
        · rw [rebind_of_not_copyMap]
          rintro x rfl
          exact hkind (block_eq_copyMap_iff.mp hblock).1

end

/-! ### Calls in which nothing is lost -/

/-- What a function looks up at the top of the module is what it should be: the request type is
exported under its short name, and no RPC and no field takes a name that is needed. -/
structure Unhidden (s : ServiceDescriptor V) (m : MethodDescriptor V) : Prop where
  exported : s.exports m.input.name = some m.input
  moduleFree : (∀ other ∈ s.methods, snake other.name ≠ s.protoModule) ∧
    ∀ f ∈ m.input.fields, f.name ≠ s.protoModule
  clientFree : ∀ f ∈ m.input.fields, f.name ≠ "_CLIENT" ∧ f.name ≠ "_STUBS"
  optionalFree : (∃ f ∈ m.input.fields, f.kind = .optional) →
    (∀ other ∈ s.methods, snake other.name ≠ "apply_optional_fields") ∧
      ∀ f ∈ m.input.fields, f.name ≠ "apply_optional_fields"

/-- No argument is lost: a field named `request` is used up by the constructor, and no field
named like a loop's variable has its block after a loop. -/
structure Uncaptured (ty : MessageType V) : Prop where
  request : ∀ f ∈ ty.fields, f.name = "request" → f.kind = .plain
  loops : ∀ f ∈ afterLoop ty.fields, f.block.isSome = true → f.name ∉ loopNames

section

variable {world : World V} {s : ServiceDescriptor V} {m : MethodDescriptor V}
  {args : String → Arg V} {f : FieldDescriptor V}

theorem bindParams_field (hf : f ∈ m.input.fields) :
    (renderMethod (scanMethod s m)).bindParams args f.name = some (.arg (args f.name)) :=
  if_pos (mem_params_iff.mpr (.inl ⟨f, hf, rfl⟩))

theorem bindParams_free {x : String} (hfree : ∀ f ∈ m.input.fields, f.name ≠ x)
    (hx : x ∉ grpcOptions.map Param.name) :
    (renderMethod (scanMethod s m)).bindParams args x = none := by
  refine if_neg fun hmem => ?_
  rcases mem_params_iff.mp hmem with ⟨f, hf, rfl⟩ | hmem
  · exact hfree f hf rfl
  · exact hx hmem

/-- The local names of a call once `request` is bound. -/
def afterRequest (s : ServiceDescriptor V) (m : MethodDescriptor V) (args : String → Arg V) :
    Locals V :=
  ((renderMethod (scanMethod s m)).bindParams args).bind "request" .request

theorem afterRequest_field (hf : f ∈ m.input.fields) (hne : f.name ≠ "request") :
    afterRequest s m args f.name = some (.arg (args f.name)) :=
  (Locals.bind_of_ne hne).trans (bindParams_field hf)

theorem Unhidden.resolve_module (h : Unhidden s m) :
    ((renderMethod (scanMethod s m)).bindParams args).resolve (emitted s).globals s.protoModule =
      some (.global .pb2) := by
  rw [Locals.resolve_of_none (bindParams_free h.moduleFree.2 protoModule_not_option),
    globals_of_free h.moduleFree.1, header_protoModule]
  rfl

theorem Unhidden.execOptional_eq (h : Unhidden s m) (hm : m ∈ s.methods)
    (huncaptured : Uncaptured m.input) (msg : Message V) :
    execOptional world (emitted s).globals m.input (afterRequest s m args) msg
      ((m.input.ofKind .optional).map FieldDescriptor.name) =
        run (process world m.input args) msg (m.input.ofKind .optional) := by
  cases hfields : m.input.ofKind .optional with
  | nil => rfl
  | cons f rest =>
    have hmem : ∀ g ∈ m.input.ofKind .optional, g ∈ m.input.fields ∧ g.kind = .optional :=
      fun g hg => ⟨(mem_filter.mp hg).1, of_decide_eq_true (mem_filter.mp hg).2⟩
    have hf := hmem f (by rw [hfields]; exact mem_cons_self)
    obtain ⟨hrpc, hfree⟩ := h.optionalFree ⟨f, hf⟩
    have hnone : afterRequest s m args "apply_optional_fields" = none :=
      (Locals.bind_of_ne (by decide)).trans (bindParams_free hfree (by decide))
    have hheader := header_applyOptionalFields hm hf.1 (isOptional_of_kind hf.2)
    have hresolve : (afterRequest s m args).resolve (emitted s).globals "apply_optional_fields" =
        some (.global .applyOptionalFields) := by
      rw [Locals.resolve_of_none hnone, globals_of_free hrpc, hheader]
      rfl
    rw [← hfields, execOptional, if_neg (by simp [hfields]), hresolve]
    refine execKeywords_eq (fun g hg => ?_) fun g hg => (block_of_kind (.inr rfl) hg).2
    refine afterRequest_field (hmem g hg).1 fun hrequest => ?_
    cases (huncaptured.request g (hmem g hg).1 hrequest).symm.trans (hmem g hg).2

/-- The last statement sends what was built, when `_CLIENT` and `_STUBS` are what they should
be. -/
theorem Unhidden.execSend_eq (h : Unhidden s m) (hm : m ∈ s.methods) {frame : Frame V}
    (hlocals : ∀ x, x ∉ loopNames → x ≠ "request" →
      frame.locals x = (renderMethod (scanMethod s m)).bindParams args x) :
    execSend (emitted s).globals (emitted s).stubs m.name m.input frame =
      some ⟨m.name, m.input, frame.message⟩ := by
  have hnone : ∀ {x : String}, x ∉ loopNames → x ≠ "request" → x.toList.any Char.isUpper = true →
      (∀ f ∈ m.input.fields, f.name ≠ x) → x ∉ grpcOptions.map Param.name →
      frame.locals.resolve (emitted s).globals x =
        ((emitted s).header.reverse.lookup x).map .global := by
    intro x hloop hrequest hupper hfree hoption
    rw [Locals.resolve_of_none ((hlocals x hloop hrequest).trans (bindParams_free hfree hoption)),
      globals_of_free fun other _ => snake_ne hupper]
  have hclient := hnone (by decide) (by decide) (by decide) (fun f hf => (h.clientFree f hf).1)
    (by decide)
  have hstubs := hnone (by decide) (by decide) (by decide) (fun f hf => (h.clientFree f hf).2)
    (by decide)
  rw [header_lookup.2.1] at hclient
  rw [header_lookup.2.2] at hstubs
  have hmem : m.name ∈ (emitted s).stubs := by
    rw [emitted, renderServiceModule, scanService, map_map]
    exact mem_map_of_mem hm
  rw [execSend, hclient, hstubs, Option.map_some, Option.map_some]
  exact if_pos hmem

/-- **A call in which nothing is hidden or captured** processes every field with its own
argument and sends the result. -/
theorem call_eq (hm : m ∈ s.methods) (hunhidden : Unhidden s m) (huncaptured : Uncaptured m.input) :
    call world s m args = (run (process world m.input args) (fun _ => none) m.input.order).map
      fun msg => ⟨m.name, m.input, msg⟩ := by
  have hplain : execKeywords world (emitted s).globals m.input
      ((renderMethod (scanMethod s m)).bindParams args) (fun _ => none)
      ((m.input.ofKind .plain).map FieldDescriptor.name) =
        run (process world m.input args) (fun _ => none) (m.input.ofKind .plain) :=
    execKeywords_eq (fun f hf => bindParams_field (block_of_kind (.inl rfl) hf).1)
      fun f hf => (block_of_kind (.inl rfl) hf).2
  rw [call, callFunction]
  dsimp only
  rw [show (renderMethod (scanMethod s m)).body.type = (s.protoModule, m.input.name) from rfl,
    hunhidden.resolve_module]
  dsimp only
  rw [hunhidden.exported, Option.bind_some, plain_names, optional_names, body_blocks, hplain,
    ← afterRequest, MessageType.order, run_append, run_append]
  cases run (process world m.input args) (fun _ => none) (m.input.ofKind .plain) with
  | none => rfl
  | some msg =>
    rw [Option.bind_some, Option.bind_some, hunhidden.execOptional_eq hm huncaptured]
    cases run (process world m.input args) msg (m.input.ofKind .optional) with
    | none => rfl
    | some msg' =>
      rw [Option.bind_some, Option.bind_some]
      have hblocks : (run (execBlock world (emitted s).globals m.input)
          ⟨afterRequest s m args, msg'⟩ (m.input.fields.filterMap FieldDescriptor.block)).map
            Frame.message = run (process world m.input args) msg' m.input.blocked := by
        refine run_blocks (fun f hf hsome => ?_) huncaptured.loops
        refine afterRequest_field hf fun hrequest => ?_
        exact (block_isSome_iff.mp hsome).1 (huncaptured.request f hf hrequest)
      rw [← hblocks]
      cases hrun : run (execBlock world (emitted s).globals m.input)
          ⟨afterRequest s m args, msg'⟩ (m.input.fields.filterMap FieldDescriptor.block) with
      | none => rfl
      | some frame =>
        have hlocals : ∀ x, x ∉ loopNames → x ≠ "request" →
            frame.locals x = (renderMethod (scanMethod s m)).bindParams args x := by
          intro x hloop hrequest
          rw [run_blocks_locals hrun hloop]
          exact Locals.bind_of_ne hrequest
        rw [Option.bind_some, Option.map_some, Option.map_some]
        exact hunhidden.execSend_eq hm hlocals

/-! ### Captured arguments -/

variable {args' : String → Arg V} {x y : String}

theorem bindParams_congr (hagree : ∀ y, y ≠ x → args y = args' y) (hy : y ≠ x) :
    (renderMethod (scanMethod s m)).bindParams args y =
      (renderMethod (scanMethod s m)).bindParams args' y := by
  rw [Function.bindParams, Function.bindParams, hagree y hy]

variable {globals : Dict String Global} {ty : MessageType V} {locals locals' : Locals V}
  {msg : Message V}

theorem execKeywords_congr {names : List String} (h : ∀ y ∈ names, locals y = locals' y) :
    execKeywords world globals ty locals msg names =
      execKeywords world globals ty locals' msg names := by
  refine run_congr fun msg y hy => ?_
  rw [value_congr (h y hy)]

theorem execOptional_congr {names : List String}
    (happly : locals "apply_optional_fields" = locals' "apply_optional_fields")
    (h : ∀ y ∈ names, locals y = locals' y) : execOptional world globals ty locals msg names =
      execOptional world globals ty locals' msg names := by
  rw [execOptional, execOptional, Locals.resolve, Locals.resolve, happly, execKeywords_congr h]

/-- **Two calls are equal** whose arguments differ at one field only, one that neither the
constructor nor `apply_optional_fields` takes, if their blocks do the same. -/
theorem call_congr {g : FieldDescriptor V} (hg : g ∈ m.input.fields) (hplain : g.kind ≠ .plain)
    (hmodule : s.protoModule ≠ g.name) (hagree : ∀ y, y ≠ g.name → args y = args' y)
    (hoptionals : ∀ ty msg, execOptional world (emitted s).globals ty (afterRequest s m args) msg
        ((m.input.ofKind .optional).map FieldDescriptor.name) =
      execOptional world (emitted s).globals ty (afterRequest s m args') msg
        ((m.input.ofKind .optional).map FieldDescriptor.name))
    (hblocks : ∀ ty msg, run (execBlock world (emitted s).globals ty) ⟨afterRequest s m args, msg⟩
        (m.input.fields.filterMap FieldDescriptor.block) =
      run (execBlock world (emitted s).globals ty) ⟨afterRequest s m args', msg⟩
        (m.input.fields.filterMap FieldDescriptor.block)) :
    call world s m args = call world s m args' := by
  have hkeywords : ∀ ty : MessageType V, execKeywords world (emitted s).globals ty
      ((renderMethod (scanMethod s m)).bindParams args) (fun _ => none)
      ((m.input.ofKind .plain).map FieldDescriptor.name) = execKeywords world (emitted s).globals ty
      ((renderMethod (scanMethod s m)).bindParams args') (fun _ => none)
      ((m.input.ofKind .plain).map FieldDescriptor.name) :=
    fun ty => execKeywords_congr fun y hy =>
      bindParams_congr hagree (name_ne_of_kind hg hplain hy)
  simp only [afterRequest] at hoptionals hblocks
  rw [call, call, callFunction, callFunction]
  dsimp only
  rw [show (renderMethod (scanMethod s m)).body.type = (s.protoModule, m.input.name) from rfl,
    Locals.resolve, Locals.resolve, bindParams_congr hagree hmodule, plain_names, optional_names,
    body_blocks]
  simp only [hkeywords, hoptionals, hblocks]

/-- **A field named `request`** that the constructor does not take: its argument is lost with
the first line. -/
theorem call_of_request (hf : f ∈ m.input.fields)
    (hname : f.name = "request") (hkind : f.kind ≠ .plain)
    (hagree : ∀ y, y ≠ "request" → args y = args' y) :
    call world s m args = call world s m args' := by
  have hsame : afterRequest s m args = afterRequest s m args' := by
    funext y
    rw [afterRequest, afterRequest]
    by_cases hy : y = "request"
    · rw [Locals.bind, Locals.bind, if_pos hy, if_pos hy]
    · rw [Locals.bind_of_ne hy, Locals.bind_of_ne hy, bindParams_congr hagree hy]
  refine call_congr hf hkind ?_ (hname ▸ hagree) (fun ty msg => ?_) fun ty msg => ?_
  · rw [hname]
    exact protoModule_ne (by decide)
  · rw [hsame]
  · rw [hsame]

theorem run_quiet {blocks : List Block} (hquiet : ∀ b ∈ blocks, ∀ y, b ≠ .copyMap y)
    (hagree : ∀ b ∈ blocks, locals b.field = locals' b.field) : ∃ result : Option (Message V),
      run (execBlock world globals ty) ⟨locals, msg⟩ blocks = result.map (Frame.mk locals) ∧
      run (execBlock world globals ty) ⟨locals', msg⟩ blocks = result.map (Frame.mk locals') := by
  induction blocks generalizing msg with
  | nil => exact ⟨some msg, rfl, rfl⟩
  | cons b rest ih =>
    have hb : ∀ y, b ≠ .copyMap y := hquiet b mem_cons_self
    rw [run_cons, run_cons, execBlock, execBlock, value_congr (hagree b mem_cons_self)]
    dsimp only
    cases value world globals ty locals' msg b.field with
    | none => exact ⟨none, rfl, rfl⟩
    | some a =>
      rw [Option.bind_some, Option.bind_some]
      cases b.apply world ty msg a with
      | none => exact ⟨none, rfl, rfl⟩
      | some msg' =>
        rw [Option.map_some, Option.map_some, Option.bind_some, Option.bind_some,
          rebind_of_not_copyMap hb, rebind_of_not_copyMap hb]
        exact ih (fun c hc => hquiet c (mem_cons_of_mem _ hc))
          fun c hc => hagree c (mem_cons_of_mem _ hc)

variable {entries : Dict V V} {e : V × V}

theorem rebind_eq (hlast : entries.entries.getLast? = some e) (hx : x ∈ loopNames)
    (hagree : ∀ z, z ≠ x → locals z = locals' z) :
    Block.rebind (.mapping entries (some true)) locals (.copyMap y) =
      Block.rebind (.mapping entries (some true)) locals' (.copyMap y) := by
  rw [Block.rebind, Block.rebind, hlast]
  funext z
  dsimp only
  rw [Locals.bind, Locals.bind, Locals.bind, Locals.bind]
  by_cases hvalue : z = "value"
  · rw [if_pos hvalue, if_pos hvalue]
  · rw [if_neg hvalue, if_neg hvalue]
    by_cases hkey : z = "key"
    · rw [if_pos hkey, if_pos hkey]
    · rw [if_neg hkey, if_neg hkey]
      refine hagree z ?_
      rintro rfl
      rw [loopNames, mem_cons, mem_singleton] at hx
      exact hx.elim hkey hvalue

/-- The first loop, if it runs, makes two calls equal that differ at one of its names. -/
theorem run_blocks_of_loop {before after : List Block}
    (hbefore : ∀ b ∈ before, (∀ z, b ≠ .copyMap z) ∧ b.field ≠ x) (hy : y ≠ x) (hx : x ∈ loopNames)
    (hvalue : locals y = some (.arg (.mapping entries (some true))))
    (hlast : entries.entries.getLast? = some e) (hagree : ∀ z, z ≠ x → locals z = locals' z) :
    run (execBlock world globals ty) ⟨locals, msg⟩ (before ++ .copyMap y :: after) =
      run (execBlock world globals ty) ⟨locals', msg⟩ (before ++ .copyMap y :: after) := by
  obtain ⟨result, hrun, hrun'⟩ : ∃ result : Option (Message V),
      run (execBlock world globals ty) ⟨locals, msg⟩ before = result.map (Frame.mk locals) ∧
      run (execBlock world globals ty) ⟨locals', msg⟩ before = result.map (Frame.mk locals') :=
    run_quiet (fun b hb => (hbefore b hb).1) fun b hb => hagree b.field (hbefore b hb).2
  rw [run_append, run_append, hrun, hrun']
  cases result with
  | none => rfl
  | some msg' =>
    have hvalue' : locals' y = some (.arg (.mapping entries (some true))) :=
      hagree y hy ▸ hvalue
    rw [Option.map_some, Option.map_some, Option.bind_some, Option.bind_some, run_cons, run_cons,
      execBlock, execBlock]
    dsimp only [Block.field]
    rw [value_of_arg hvalue, value_of_arg hvalue', Option.bind_some, Option.bind_some,
      rebind_eq hlast hx hagree]

/-- **A field named like a loop's variable** whose block comes after the first loop: if that
loop runs, its argument is lost. -/
theorem call_of_loop {g : FieldDescriptor V} {before after : List (FieldDescriptor V)}
    (hfields : m.input.fields = before ++ f :: after) (hbefore : ∀ h ∈ before, h.kind ≠ .map true)
    (hkind : f.kind = .map true) (hg : g ∈ after) (hblock : g.block.isSome = true)
    (hx : g.name ∈ loopNames) (hrequest : f.name ≠ "request")
    (hf : args f.name = .mapping entries (some true)) (hlast : entries.entries.getLast? = some e)
    (hagree : ∀ y, y ≠ g.name → args y = args' y) : call world s m args = call world s m args' := by
  have hgmem : g ∈ m.input.fields := by
    rw [hfields]
    exact mem_append_right _ (mem_cons_of_mem _ hg)
  have hfmem : f ∈ m.input.fields := by
    rw [hfields]
    exact mem_append_right _ mem_cons_self
  obtain ⟨hplain, hoptional⟩ := block_isSome_iff.mp hblock
  have hbind : ∀ y, y ≠ g.name → afterRequest s m args y = afterRequest s m args' y := by
    intro y hy
    rw [afterRequest, afterRequest, Locals.bind, Locals.bind, bindParams_congr hagree hy]
  have hmodule : s.protoModule ≠ g.name := by
    have hloop : ∀ y ∈ loopNames, y.toList.getLast? ≠ some '2' := by decide
    exact protoModule_ne (hloop g.name hx)
  have happly : "apply_optional_fields" ≠ g.name := by
    intro heq
    rw [← heq] at hx
    exact absurd hx (by decide)
  refine call_congr hgmem hplain hmodule hagree (fun ty msg => ?_) fun ty msg => ?_
  · exact execOptional_congr (hbind _ happly)
      fun y hy => hbind y (name_ne_of_kind hgmem hoptional hy)
  · -- the loop binds the name of the field
    have hnodup := m.input.nodup
    rw [hfields, map_append, map_cons, nodup_append, nodup_cons] at hnodup
    have hgname : g.name ∈ after.map FieldDescriptor.name := mem_map_of_mem hg
    have hfg : f.name ≠ g.name := by
      intro heq
      exact hnodup.2.1.1 (heq ▸ hgname)
    have hloop : f.block = some (.copyMap f.name) := block_eq_copyMap_iff.mpr ⟨hkind, rfl⟩
    have hvalue : afterRequest s m args f.name = some (.arg (.mapping entries (some true))) := by
      rw [afterRequest_field hfmem hrequest, hf]
    rw [hfields, filterMap_append, filterMap_cons_some hloop]
    refine run_blocks_of_loop (fun b hb => ?_) hfg hx hvalue hlast hbind
    obtain ⟨h, hh, hb⟩ := mem_filterMap.mp hb
    refine ⟨?_, ?_⟩
    · rintro z rfl
      exact hbefore h hh (block_eq_copyMap_iff.mp hb).1
    · rw [block_field hb]
      intro heq
      refine hnodup.2.2 h.name (mem_map_of_mem hh) g.name ?_ heq
      exact mem_cons_of_mem _ hgname

end

end ServiceToolkit.ClientCodegen
