import ServiceToolkit.Dict
import ServiceToolkit.Text

/-!
# Generated Clients

`lp-gen-client` writes a Python module for a gRPC service: one `async def` per RPC, with one
keyword argument per field of the request, which builds the request and sends it through the
RPC's stub. This module has the generator; what its output does when it is run is in
`ClientCodegenRun`, and whether that is right in `ClientCodegenCorrect`.

## What is modelled

A **descriptor** is what the protobuf runtime tells of a service: the fields of a message with
their types, labels and oneofs, and under which short names the service's own `pb2` module
exports message types. With a field comes the set of values its type accepts, and what it then
holds for each of them (a `float` given 0.1 holds another number); the values are opaque.

The generator's text is modelled as what Python reads in it: a function is a name, its
parameters and a `Body`, whose parts are the lines of the source's templates. `Emitted.valid`
says that the parser accepts the text: names that are keywords, parameters given twice and an
empty table of stubs are refused.

Annotations are text that is never evaluated, since the module starts with
`from __future__ import annotations`.
-/

namespace ServiceToolkit.ClientCodegen

open List

/-! ### Descriptors -/

/-- What the generator and the runtime look at in the message type of a field; in a map entry
also in the type of its values. -/
structure MessageInfo where
  mapEntry : Bool
  fieldNames : List String
  valueType : ℕ
  valueFieldNames : List String

/-- `FieldDescriptor`, with the values that the field accepts: those of its type, of its
elements' type, or of its map's keys and values; and with what it stores for them. A repeated field
is in no oneof. -/
structure FieldDescriptor (V : Type*) where
  name : String
  type : ℕ
  label : ℕ
  messageType : Option MessageInfo
  containingOneof : Option String
  accepts : V → Bool
  acceptsKey : V → Bool
  stored : V → V
  storedKey : V → V
  default : V
  defaultKey : V
  accepts_default : accepts default = true
  acceptsKey_default : acceptsKey defaultKey = true
  singular : containingOneof ≠ none → label ≠ 3

/-- A message type, with its short name. -/
structure MessageType (V : Type*) where
  fullName : String
  name : String
  fields : List (FieldDescriptor V)
  nodup : (fields.map FieldDescriptor.name).Nodup

/-- An RPC. -/
structure MethodDescriptor (V : Type*) where
  name : String
  input : MessageType V
  outputName : String
  unary : Bool

/-- A service, in the file whose Python modules are `stem_pb2` and `stem_pb2_grpc`: `exports`
is what the first calls by a short name. -/
structure ServiceDescriptor (V : Type*) where
  name : String
  stem : String
  methods : List (MethodDescriptor V)
  nodup : (methods.map MethodDescriptor.name).Nodup
  exports : String → Option (MessageType V)

/-! ### Reading descriptors -/

/-- `_TYPE_MESSAGE`. -/
def typeMessage : ℕ := 11

/-- `_INT_TYPES`. -/
def intTypes : List ℕ := [5, 3, 13, 4, 17, 18, 7, 6, 15, 16, 14]

/-- `_FLOAT_TYPES`. -/
def floatTypes : List ℕ := [2, 1]

/-- `_py_type_for`. -/
def pyTypeFor (type : ℕ) : String :=
  if type = 9 then "str"
  else if type = 8 then "bool"
  else if type = 12 then "bytes"
  else if type ∈ intTypes then "int"
  else if type ∈ floatTypes then "float"
  else "Any"

/-- `_snake`, over the characters that are left, with the one before them. -/
def snakeFrom : Option Char → List Char → List Char
  | _, [] => []
  | before, c :: rest =>
    let breaks := c.isUpper &&
      before.any fun b => !b.isUpper || rest.head?.any Char.isLower
    (if breaks then ['_', c.toLower] else [c.toLower]) ++ snakeFrom (some c) rest

/-- `_snake`. -/
def snake (name : String) : String := String.ofList (snakeFrom none name.toList)

/-- `_Field`. -/
structure Field where
  name : String
  pyType : String
  isRepeated : Bool
  isOptional : Bool
  isMessage : Bool
  isMap : Bool
  mapValueIsMessage : Bool
  deriving DecidableEq, Repr

section

variable {V : Type*}

/-- One round of `_collect_fields`. -/
def collectField (f : FieldDescriptor V) : Field :=
  let isRepeated := decide (f.label = 3)
  let isMap := isRepeated && decide (f.type = typeMessage) && f.messageType.any MessageInfo.mapEntry
  { name := f.name
    pyType := pyTypeFor f.type
    isRepeated := isRepeated
    isOptional := f.containingOneof.any fun oneof => oneof.toList.head? = some '_'
    isMessage := decide (f.type = typeMessage)
    isMap := isMap
    mapValueIsMessage := isMap &&
      f.messageType.any fun message => message.valueType = typeMessage }

/-- `_collect_fields`. -/
def collectFields (message : MessageType V) : List Field := message.fields.map collectField

end

/-- `_Method`; a type is named by its module and its short name. -/
structure Method where
  rpcName : String
  snakeName : String
  inputType : String × String
  outputType : String × String
  fields : List Field

/-- `_Service`. -/
structure Service where
  protoModule : String
  grpcModule : String
  serviceName : String
  stubClass : String
  methods : List Method

section

variable {V : Type*}

/-- The module of a service's messages. -/
def ServiceDescriptor.protoModule (s : ServiceDescriptor V) : String := s.stem ++ "_pb2"

/-- One RPC in `_scan_package`. -/
def scanMethod (s : ServiceDescriptor V) (m : MethodDescriptor V) : Method where
  rpcName := m.name
  snakeName := snake m.name
  inputType := (s.protoModule, m.input.name)
  outputType := (s.protoModule, m.outputName)
  fields := collectFields m.input

/-- One service in `_scan_package`. -/
def scanService (s : ServiceDescriptor V) : Service where
  protoModule := s.protoModule
  grpcModule := s.stem ++ "_pb2_grpc"
  serviceName := s.name
  stubClass := s.name ++ "Stub"
  methods := s.methods.map (scanMethod s)

end

/-! ### Rendering -/

/-- The branches that `_render_signature` and `_render_request_build` choose between. -/
inductive Kind
  | map (ofMessages : Bool)
  | repeated
  | message
  | optional
  | plain
  deriving DecidableEq, Repr

/-- The branch for a field, in the order in which both look at it. -/
def Field.kind (f : Field) : Kind :=
  if f.isMap then .map f.mapValueIsMessage
  else if f.isRepeated then .repeated
  else if f.isMessage then .message
  else if f.isOptional then .optional
  else .plain

/-- A keyword parameter: name, annotation and default. -/
structure Param where
  name : String
  annotation : String
  default : Option String
  deriving DecidableEq, Repr

/-- The parameter of a field. -/
def Field.param (f : Field) : Param :=
  match f.kind with
  | .map _ => ⟨f.name, "Mapping[str, Any] | None", some "None"⟩
  | .repeated => ⟨f.name, "Iterable[" ++ f.pyType ++ "]", some "()"⟩
  | .message => ⟨f.name, "Any | None", some "None"⟩
  | .optional => ⟨f.name, f.pyType ++ " | None", some "None"⟩
  | .plain => ⟨f.name, f.pyType, none⟩

/-- The parameters of every function. -/
def grpcOptions : List Param :=
  [⟨"grpc_resource", "str | None", some "None"⟩, ⟨"grpc_resource_id", "object", some "None"⟩,
    ⟨"grpc_extra_errors", "Mapping[grpc.StatusCode, Any] | None", some "None"⟩]

/-- `_render_signature`. -/
def renderSignature (m : Method) : List Param :=
  (m.fields.filter fun f => f.kind = .plain).map Field.param ++
    (m.fields.filter fun f => f.kind ≠ .plain).map Field.param ++ grpcOptions

/-- A block of lines for one field:

* `if f: request.f.update(f)`
* `if f: for key, value in f.items(): request.f[key].CopyFrom(value)`
* `if f: request.f.extend(f)`
* `if f is not None: request.f.CopyFrom(f)` -/
inductive Block
  | updateMap (field : String)
  | copyMap (field : String)
  | extend (field : String)
  | copyFrom (field : String)
  deriving DecidableEq, Repr

/-- The field of a block. -/
def Block.field : Block → String
  | .updateMap f | .copyMap f | .extend f | .copyFrom f => f

/-- The block of a field. -/
def Field.block (f : Field) : Option Block :=
  match f.kind with
  | .map true => some (.copyMap f.name)
  | .map false => some (.updateMap f.name)
  | .repeated => some (.extend f.name)
  | .message => some (.copyFrom f.name)
  | .optional | .plain => none

/-- The lines that build a request: the constructor with the `plain` fields, `apply_optional_fields`
with the `optional` ones if there are any, and the blocks. -/
structure Body where
  type : String × String
  plain : List String
  optional : List String
  blocks : List Block

/-- `_render_request_build`. -/
def renderRequestBuild (m : Method) : Body where
  type := m.inputType
  plain := (m.fields.filter fun f => f.kind = .plain).map Field.name
  optional := (m.fields.filter fun f => f.kind = .optional).map Field.name
  blocks := m.fields.filterMap Field.block

/-- `async def name(*, params) -> returns:` with the body and
`return await _CLIENT.call(_STUBS["rpc"], request, …)`. -/
structure Function where
  name : String
  params : List Param
  returns : String × String
  body : Body
  rpc : String

/-- `_render_method`. -/
def renderMethod (m : Method) : Function where
  name := m.snakeName
  params := renderSignature m
  returns := m.outputType
  body := renderRequestBuild m
  rpc := m.rpcName

/-- What a name means at the top of the emitted module. -/
inductive Global
  | pb2
  | applyOptionalFields
  | client
  | stubs
  | close
  | function (rpc : String)
  | other
  deriving DecidableEq, Repr

/-- The emitted module: the names it binds before the functions of the RPCs, the entries of
`_STUBS`, and the functions. -/
structure Emitted where
  header : List (String × Global)
  stubs : List String
  functions : List Function

/-- `_render_service_module`. The settings, the channel key and the target are expressions that
are evaluated before any function is there. -/
def renderServiceModule (service : Service) : Emitted where
  header :=
    (if service.methods.any fun m => m.fields.any Field.isRepeated then [("Iterable", .other)]
      else []) ++
    [("Mapping", .other), ("Any", .other), ("grpc", .other), (service.protoModule, .pb2),
      (service.grpcModule, .other)] ++
    (if service.methods.any fun m => m.fields.any Field.isOptional then
      [("apply_optional_fields", .applyOptionalFields)] else []) ++
    [("build_grpc_client", .other), ("settings", .other), ("_CHANNEL_KEY", .other),
      ("_CLIENT", .client), ("_STUB", .other), ("_STUBS", .stubs), ("close", .close)]
  stubs := service.methods.map Method.rpcName
  functions := service.methods.map renderMethod

/-- The module emitted for a service. -/
def emitted {V : Type*} (s : ServiceDescriptor V) : Emitted := renderServiceModule (scanService s)

/-! ### What Python accepts -/

/-- The keywords of Python. -/
def keywords : List String :=
  ["False", "None", "True", "and", "as", "assert", "async", "await", "break", "class", "continue",
    "def", "del", "elif", "else", "except", "finally", "for", "from", "global", "if", "import",
    "in", "is", "lambda", "nonlocal", "not", "or", "pass", "raise", "return", "try", "while",
    "with", "yield"]

/-- The name can be an attribute: `_STUB.name`, `module.name`. -/
def isAttribute (name : String) : Bool := name ∉ keywords

/-- The name can be bound, by a parameter or a definition. -/
def isBindable (name : String) : Bool := name ∉ keywords && name ≠ "__debug__"

/-- A function that the parser accepts. -/
def Function.valid (f : Function) : Bool :=
  isBindable f.name && isAttribute f.rpc && isAttribute f.returns.2 && isAttribute f.body.type.2 &&
    (f.params.map Param.name).all isBindable && (f.params.map Param.name).Nodup

/-- A module that the parser accepts: with no stubs the table `_STUBS` has a lone comma. -/
def Emitted.valid (m : Emitted) : Bool := m.stubs ≠ [] && m.functions.all Function.valid

/-- The names at the top of the module once it is imported. -/
def Emitted.globals (m : Emitted) : Dict String Global :=
  Dict.ofList (m.header ++ m.functions.map fun f => (f.name, .function f.rpc))

/-! ### The names of the module -/

section

variable {V : Type*} {s : ServiceDescriptor V}

theorem globals_get? (m : Emitted) (x : String) :
    m.globals.get? x = ((m.functions.map fun f => (f.name, Global.function f.rpc)).reverse.lookup
      x).or (m.header.reverse.lookup x) := by
  rw [Emitted.globals, Dict.get?_ofList, reverse_append, lookup_append]

theorem emitted_functions : (emitted s).functions.map (fun f => (f.name, Global.function f.rpc)) =
    s.methods.map fun m => (snake m.name, Global.function m.name) := by
  rw [emitted, renderServiceModule, scanService, map_map, map_map]
  rfl

theorem globals_of_free {x : String} (hfree : ∀ m ∈ s.methods, snake m.name ≠ x) :
    (emitted s).globals.get? x = (emitted s).header.reverse.lookup x := by
  have hnone : (s.methods.map fun m => (snake m.name, Global.function m.name)).reverse.lookup x =
      none := by
    rw [lookup_eq_none_iff]
    intro e he
    rw [mem_reverse, mem_map] at he
    obtain ⟨m, hm, rfl⟩ := he
    simpa using Ne.symm (hfree m hm)
  rw [globals_get?, emitted_functions, hnone, Option.none_or]

theorem globals_of_taken {m : MethodDescriptor V} (hm : m ∈ s.methods) :
    ∃ other ∈ s.methods, snake other.name = snake m.name ∧
      (emitted s).globals.get? (snake m.name) = some (.function other.name) := by
  rw [globals_get?, emitted_functions]
  cases hlookup : (s.methods.map fun m => (snake m.name, Global.function m.name)).reverse.lookup
      (snake m.name) with
  | none =>
    rw [lookup_eq_none_iff] at hlookup
    have := hlookup (snake m.name, .function m.name) (mem_reverse.mpr (mem_map_of_mem hm))
    simp at this
  | some g =>
    obtain ⟨before, rest, hsplit, -⟩ := lookup_eq_some_iff.mp hlookup
    have hmem : (snake m.name, g) ∈ s.methods.map fun m =>
        (snake m.name, Global.function m.name) := by
      rw [← mem_reverse, hsplit]
      exact mem_append_right _ mem_cons_self
    obtain ⟨other, hother, heq⟩ := mem_map.mp hmem
    obtain ⟨hname, rfl⟩ := Prod.mk.inj heq
    exact ⟨other, hother, hname, rfl⟩

/-- **Every RPC has a function of its own** exactly when their names stay apart. -/
theorem own_functions_iff : (∀ m ∈ s.methods,
      (emitted s).globals.get? (snake m.name) = some (.function m.name)) ↔
    (s.methods.map fun m => snake m.name).Nodup := by
  constructor
  · intro h
    refine List.Nodup.map_on (fun m hm m' hm' heq => ?_) (.of_map _ s.nodup)
    have hsame : some (Global.function m.name) = some (.function m'.name) := by
      rw [← h m hm, ← h m' hm', heq]
    exact inj_on_of_nodup_map s.nodup hm hm' (Global.function.inj (Option.some.inj hsame))
  · intro hnodup m hm
    obtain ⟨other, hother, heq, hget⟩ := globals_of_taken hm
    rw [hget, inj_on_of_nodup_map hnodup hother hm heq]

theorem protoModule_ne {x : String} (hx : x.toList.getLast? ≠ some '2') : s.protoModule ≠ x := by
  rintro rfl
  refine hx ?_
  rw [ServiceDescriptor.protoModule, String.toList_append, getLast?_append]
  rfl

theorem header_lookup : (emitted s).header.reverse.lookup "close" = some .close ∧
    (emitted s).header.reverse.lookup "_CLIENT" = some .client ∧
    (emitted s).header.reverse.lookup "_STUBS" = some .stubs := by
  simp [emitted, renderServiceModule, lookup_cons]

theorem header_protoModule : (emitted s).header.reverse.lookup s.protoModule = some .pb2 := by
  have hne : ∀ x : String, x.toList.getLast? ≠ some '2' → (s.protoModule == x) = false :=
    fun x hx => beq_false_of_ne (protoModule_ne hx)
  have hgrpc : (s.stem ++ "_pb2_grpc").toList.getLast? ≠ some '2' := by
    have hlast : "_pb2_grpc".toList.getLast? = some 'c' := rfl
    rw [String.toList_append, getLast?_append, hlast, Option.some_or]
    decide
  have hlater : lookup s.protoModule (if (scanService s).methods.any fun m =>
      m.fields.any Field.isOptional then [("apply_optional_fields", Global.applyOptionalFields)]
      else []).reverse = none := by
    split
    · exact lookup_eq_none_iff.mpr (by simp [protoModule_ne (s := s)])
    · rfl
  simp only [emitted, renderServiceModule, reverse_append, lookup_append, hlater]
  simp [lookup_cons, scanService, hne "close" (by decide), hne "_STUBS" (by decide),
    hne "_STUB" (by decide), hne "_CLIENT" (by decide), hne "_CHANNEL_KEY" (by decide),
    hne "settings" (by decide), hne "build_grpc_client" (by decide), hne _ hgrpc]

theorem header_applyOptionalFields {m : MethodDescriptor V} (hm : m ∈ s.methods)
    {f : FieldDescriptor V} (hf : f ∈ m.input.fields)
    (hoptional : (collectField f).isOptional = true) :
    (emitted s).header.reverse.lookup "apply_optional_fields" = some .applyOptionalFields := by
  have hany : ((scanService s).methods.any fun m => m.fields.any Field.isOptional) = true := by
    rw [any_eq_true]
    refine ⟨scanMethod s m, mem_map_of_mem hm, ?_⟩
    rw [any_eq_true]
    exact ⟨collectField f, mem_map_of_mem hf, hoptional⟩
  simp only [emitted, renderServiceModule, hany, if_pos]
  simp [lookup_cons]

theorem isUpper_of_mem_snakeFrom {before : Option Char} {l : List Char} {c : Char}
    (hc : c ∈ snakeFrom before l) : c.isUpper = false := by
  induction l generalizing before with
  | nil => cases hc
  | cons d rest ih =>
    rw [snakeFrom, mem_append] at hc
    rcases hc with hc | hc
    · split at hc
      · rcases mem_cons.mp hc with rfl | hc
        · rfl
        · rw [mem_singleton.mp hc, Char.isUpper_toLower_eq_false]
      · rw [mem_singleton.mp hc, Char.isUpper_toLower_eq_false]
    · exact ih hc

theorem snake_ne {name x : String} (hx : x.toList.any Char.isUpper = true) : snake name ≠ x := by
  rintro rfl
  obtain ⟨c, hc, hupper⟩ := any_eq_true.mp hx
  rw [snake, String.toList_ofList] at hc
  rw [isUpper_of_mem_snakeFrom hc] at hupper
  cases hupper

/-! ### The parts of a function, by field -/

/-- The branch that the generator takes for a field. -/
def FieldDescriptor.kind (f : FieldDescriptor V) : Kind := (collectField f).kind

/-- The block of a field. -/
def FieldDescriptor.block (f : FieldDescriptor V) : Option Block := (collectField f).block

/-- The fields of one branch. -/
def MessageType.ofKind (ty : MessageType V) (kind : Kind) : List (FieldDescriptor V) :=
  ty.fields.filter fun f => f.kind = kind

/-- The fields with a block. -/
def MessageType.blocked (ty : MessageType V) : List (FieldDescriptor V) :=
  ty.fields.filter fun f => f.block.isSome

variable {m : MethodDescriptor V} {f : FieldDescriptor V}

theorem block_field {b : Block} (h : f.block = some b) : b.field = f.name := by
  rw [FieldDescriptor.block, Field.block] at h
  split at h
  all_goals cases h
  all_goals rfl

theorem isOptional_of_kind (h : f.kind = .optional) : (collectField f).isOptional = true := by
  rw [FieldDescriptor.kind, Field.kind] at h
  split at h
  · cases h
  · split at h
    · cases h
    · split at h
      · cases h
      · split at h
        · rename_i hoptional
          exact hoptional
        · cases h

theorem block_isSome_iff : f.block.isSome = true ↔ f.kind ≠ .plain ∧ f.kind ≠ .optional := by
  rw [FieldDescriptor.block, Field.block, FieldDescriptor.kind]
  cases (collectField f).kind with
  | map ofMessages => cases ofMessages <;> simp
  | _ => simp

theorem block_eq_copyMap_iff {x : String} :
    f.block = some (.copyMap x) ↔ f.kind = .map true ∧ f.name = x := by
  rw [FieldDescriptor.block, Field.block, FieldDescriptor.kind]
  cases (collectField f).kind with
  | map ofMessages => cases ofMessages <;> simp [collectField]
  | _ => simp

theorem block_of_kind {ty : MessageType V} {kind : Kind} (hkind : kind = .plain ∨ kind = .optional)
    {f : FieldDescriptor V} (hf : f ∈ ty.ofKind kind) : f ∈ ty.fields ∧ f.block = none := by
  obtain ⟨hmem, heq⟩ := mem_filter.mp hf
  refine ⟨hmem, ?_⟩
  rw [← Option.not_isSome_iff_eq_none, block_isSome_iff, of_decide_eq_true heq]
  rcases hkind with rfl | rfl <;> simp

theorem name_ne_of_kind (hf : f ∈ m.input.fields) {kind : Kind} (hkind : f.kind ≠ kind) {y : String}
    (hy : y ∈ (m.input.ofKind kind).map FieldDescriptor.name) : y ≠ f.name := by
  obtain ⟨g, hg, rfl⟩ := mem_map.mp hy
  obtain ⟨hmem, hg'⟩ := mem_filter.mp hg
  intro heq
  rw [inj_on_of_nodup_map m.input.nodup hmem hf heq] at hg'
  exact hkind (of_decide_eq_true hg')

theorem plain_names : (renderMethod (scanMethod s m)).body.plain =
    (m.input.ofKind .plain).map FieldDescriptor.name := by
  rw [MessageType.ofKind]
  simp only [renderMethod, renderRequestBuild, scanMethod, collectFields, filter_map, map_map]
  rfl

theorem optional_names : (renderMethod (scanMethod s m)).body.optional =
    (m.input.ofKind .optional).map FieldDescriptor.name := by
  rw [MessageType.ofKind]
  simp only [renderMethod, renderRequestBuild, scanMethod, collectFields, filter_map, map_map]
  rfl

theorem body_blocks : (renderMethod (scanMethod s m)).body.blocks =
    m.input.fields.filterMap FieldDescriptor.block := by
  simp only [renderMethod, renderRequestBuild, scanMethod, collectFields, filterMap_map]
  rfl

theorem Field.param_name (f : Field) : f.param.name = f.name := by
  rw [Field.param]
  split <;> rfl

theorem params_names : (renderMethod (scanMethod s m)).params.map Param.name =
    (m.input.ofKind .plain).map FieldDescriptor.name ++
      (m.input.fields.filter fun f => f.kind ≠ .plain).map FieldDescriptor.name ++
      grpcOptions.map Param.name := by
  rw [MessageType.ofKind]
  simp only [renderMethod, renderSignature, scanMethod, collectFields, map_append,
    filter_map, map_map]
  have hname : ∀ f : FieldDescriptor V, (Param.name ∘ Field.param ∘ collectField) f = f.name :=
    fun f => Field.param_name _
  rw [map_congr_left fun f _ => hname f, map_congr_left fun f _ => hname f]
  rfl

theorem mem_params_iff {x : String} : x ∈ (renderMethod (scanMethod s m)).params.map Param.name ↔
    (∃ f ∈ m.input.fields, f.name = x) ∨ x ∈ grpcOptions.map Param.name := by
  rw [params_names, mem_append, mem_append, mem_map, mem_map]
  refine or_congr_left ⟨?_, ?_⟩
  · rintro (⟨f, hf, rfl⟩ | ⟨f, hf, rfl⟩)
    · exact ⟨f, (mem_filter.mp hf).1, rfl⟩
    · exact ⟨f, (mem_filter.mp hf).1, rfl⟩
  · rintro ⟨f, hf, rfl⟩
    by_cases hkind : f.kind = .plain
    · exact .inl ⟨f, mem_filter.mpr ⟨hf, decide_eq_true hkind⟩, rfl⟩
    · exact .inr ⟨f, mem_filter.mpr ⟨hf, decide_eq_true hkind⟩, rfl⟩

theorem protoModule_not_option : s.protoModule ∉ grpcOptions.map Param.name := by
  have hne : ∀ x ∈ grpcOptions.map Param.name, x.toList.getLast? ≠ some '2' := by decide
  exact fun hmem => protoModule_ne (hne _ hmem) rfl

end

end ServiceToolkit.ClientCodegen
