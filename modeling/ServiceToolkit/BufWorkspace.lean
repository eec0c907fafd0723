import Mathlib.Data.Finset.Card
import ServiceToolkit.Contracts
import ServiceToolkit.Runs

/-!
# Assembling a Buf Workspace

`build_workspace` puts a service's own protos and those of every contract its target names
into one directory tree, a **module** for each, and lists the modules in `buf.yaml`. The
service's module is `modules/local`; a pinned contract's is named by its pin, an imported one's
by its package. All of them are keyed by that directory in one mapping, so of two modules with
one name only the later is placed.

## What is modelled

* A path is its segments. Neither a contract's name nor a package's has a slash.
* A `World` is what the file system and the installed packages answer: which directories there
  are, what `*.proto` finds below them, with the contents of what is a file, and where a package
  is. That reading and copying succeed is assumed.
* `Workspace` is the tree that is swapped in: its files, and `buf.yaml` before it is written
  out. The digest only names it.
-/

namespace ServiceToolkit.Buf

open List Contracts

/-! ### The manifest -/

/-- A `grpc_proto_codegen` target, as far as it is read. -/
structure Target where
  protoDir : String
  contracts : List String
  imports : List String

/-- A section of the Buf policy: the keys that hold paths. -/
structure Section where
  ignore : Option (List String)
  ignoreOnly : Option (List (String × List String))

/-- A manifest: its name, its directory, and the tables that are read. What is not a table is
`none`. -/
structure Manifest where
  name : String
  root : Path
  targets : List Target
  pins : Dict String (Option (Dict String Contracts.Value))
  buf : Dict String (Option Section)

/-- What the file system and the installed packages answer. -/
structure World (C : Type) where
  environ : Environ
  resolve : Path → String → Path
  isDir : Path → Bool
  findSpec : String → Option (List Path)
  rglob : Path → Dict Path (Option C)

/-- `buf.yaml`, before it is written out. -/
structure Config where
  version : String
  modules : List Path
  policy : List (String × Section)

/-- The workspace: its files, and `buf.yaml`. -/
structure Workspace (C : Type) where
  files : Dict Path C
  config : Config

variable {C : Type} (repr : String → String) (world : World C) (manifest : Manifest)

/-- A `ContractError` about the manifest. -/
def Manifest.error {α : Type} (message : String) : Except Failure α :=
  .error (.contract (manifest.name ++ ": " ++ message))

/-- How a list of texts is shown. -/
def reprList (texts : List String) : String :=
  "[" ++ ", ".intercalate (texts.map repr) ++ "]"

/-- How a path is shown. -/
def showPath (path : Path) : String := "/" ++ "/".intercalate path

/-- `LOCAL_MODULE`. -/
def localModule : Path := ["modules", "local"]

/-- `_local_path`. -/
def localPath (path : String) : Except Failure String :=
  if path.toList.head? = some '/' ∨ ".." ∈ parts path then
    manifest.error ("buf policy path " ++ repr path ++ " is not inside the proto directory.")
  else .ok ("/".intercalate (localModule ++ parts path))

/-- `_moved_under_local`. -/
def movedUnderLocal (section_ : String) : Option Section → Except Failure Section
  | none => manifest.error ("[tool.service_toolkit.buf." ++ section_ ++ "] must be a table.")
  | some value => do
      let ignore ← value.ignore.mapM fun paths => paths.mapM (localPath repr manifest)
      let ignoreOnly ← value.ignoreOnly.mapM fun rules => rules.mapM fun rule => do
        return (rule.1, ← rule.2.mapM (localPath repr manifest))
      return ⟨ignore, ignoreOnly⟩

/-- `_policy`. -/
def policy : Except Failure (List (String × Section)) :=
  let unknown := manifest.buf.keys.filter fun key => key ≠ "lint" && key ≠ "breaking"
  if manifest.buf.entries.isEmpty then
    manifest.error "no [tool.service_toolkit.buf] policy to check against."
  else if unknown ≠ [] then
    manifest.error ("[tool.service_toolkit.buf] has unknown keys " ++
      reprList repr (unknown.mergeSort fun a b => a ≤ b) ++ ".")
  else manifest.buf.entries.mapM fun entry => do
    return (entry.1, ← movedUnderLocal repr manifest entry.1 entry.2)

/-- `_single_target`, with its target. -/
def singleTarget : Except Failure (Path × Target) :=
  match manifest.targets with
  | [target] =>
    let protoDir := world.resolve manifest.root target.protoDir
    if manifest.root.isPrefixOf protoDir && protoDir ≠ manifest.root && world.isDir protoDir then
      .ok (protoDir, target)
    else manifest.error ("proto_dir " ++ repr target.protoDir ++
      " is not a directory inside " ++ showPath manifest.root ++ ".")
  | _ => manifest.error
      "a Buf workspace is assembled from exactly one grpc_proto_codegen target."

/-- `read_pins`. -/
def readPins : Except Failure (Dict String ContractPin) :=
  manifest.pins.entries.foldlM (fun pins entry =>
    match entry.2 with
    | none => manifest.error ("contract " ++ entry.1 ++ " must be a table.")
    | some raw => do return pins.set entry.1 (← validated repr manifest.name entry.1 raw))
    Dict.empty

/-- `proto_root`. -/
def protoRoot (pin : ContractPin) : Except Failure Path := do
  let root := (← materialisedDir world.environ pin manifest.root) ++ parts pin.protoDir
  if world.isDir root then return root
  else .error (.contract ("contract " ++ pin.name ++ " " ++ pin.tag ++ " (" ++
    String.ofList (pin.commit.toList.take 12) ++ ") is not on disk at " ++ showPath root ++
    "; run lp-sync-contract first."))

/-- `imported.resolve`, as the proto root of the contract. -/
def resolve (package : String) : Except Failure Path :=
  match world.findSpec package with
  | some (root :: _) =>
    if !world.isDir (root ++ ["generated"]) || !world.isDir (root ++ ["proto"]) then
      .error (.contract ("imported contract " ++ package ++ " at " ++ showPath root ++
        " has no proto/ and generated/; it is not a generated contract distribution."))
    else if (world.rglob (root ++ ["proto"])).entries.isEmpty then
      .error (.contract ("imported contract " ++ package ++ " ships no .proto files in " ++
        showPath (root ++ ["proto"]) ++ "."))
    else .ok (root ++ ["proto"])
  | _ => .error (.contract ("imported contract " ++ package ++
      " is not an installed package; add its distribution to this project's dependencies."))

/-! ### The workspace -/

/-- Where the protos of a module come from. -/
inductive Origin
  | own
  | contract (name : String)
  | imported (package : String)
  deriving DecidableEq

/-- The directory a module is keyed by. -/
def Origin.module : Origin → Path
  | .own => localModule
  | .contract name => ["modules", name]
  | .imported package => ["modules", package]

/-- The origins of a target's modules, in the order in which they are entered. -/
def Target.origins (target : Target) : List Origin :=
  .own :: (target.contracts.map .contract ++ target.imports.map .imported)

/-- What `build_workspace` says of names without a pin. -/
def unpinned {α : Type} (names : List String) : Except Failure α :=
  manifest.error ("the target names unpinned contracts " ++ reprList repr names ++ ".")

/-- The directory of an origin's protos. -/
def source (protoDir : Path) (pins : Dict String ContractPin) : Origin → Except Failure Path
  | .own => .ok protoDir
  | .contract name =>
    match pins.get? name with
    | some pin => protoRoot world manifest pin
    | none => unpinned repr manifest [name]
  | .imported package => resolve world package

/-- `_files`, with the path below the root and the contents. -/
def files (root : Path) : List (Path × C) :=
  (world.rglob root).entries.filterMap fun entry => entry.2.map (entry.1, ·)

/-- The files of all modules, each under its module's directory. -/
def placed (modules : Dict Path Path) : List (Path × C) :=
  modules.entries.flatMap fun entry =>
    (files world entry.2).map fun file => (entry.1 ++ file.1, file.2)

/-- `build_workspace`. -/
def buildWorkspace : Except Failure (Workspace C) := do
  let (protoDir, target) ← singleTarget repr world manifest
  let pins ← readPins repr manifest
  let unknown := target.contracts.filter fun name => (pins.get? name).isNone
  if unknown ≠ [] then unpinned repr manifest unknown
  else
    let modules ← target.origins.foldlM (fun modules origin => do
      return modules.set origin.module (← source repr world manifest protoDir pins origin))
      (Dict.empty : Dict Path Path)
    let policy ← policy repr manifest
    return ⟨Dict.ofList (placed world modules), "v2", modules.keys, policy⟩

/-! ### What an accepted manifest leads to -/

variable {repr : String → String} {world : World C} {manifest : Manifest} {protoDir : Path}
  {pins : Dict String ContractPin} {modules : Dict Path Path} {origin : Origin} {done : List Origin}

/-- After the origins `done`: each has been found and entered, and every entry is that of one of
them. -/
structure Entered (source : Origin → Except Failure Path) (done : List Origin)
    (modules : Dict Path Path) : Prop where
  found : ∀ origin ∈ done, ∃ root, source origin = .ok root
  entered : ∀ origin ∈ done, origin.module ∈ modules.keys
  origin : ∀ {module root}, modules.get? module = some root →
    ∃ origin ∈ done, origin.module = module ∧ source origin = .ok root

theorem Entered.set {source : Origin → Except Failure Path} (h : Entered source done modules)
    {root : Path} (hroot : source origin = .ok root) :
    Entered source (done ++ [origin]) (modules.set origin.module root) where
  found := by
    intro o ho
    rcases mem_append.mp ho with ho | ho
    · exact h.found o ho
    · exact ⟨root, mem_singleton.mp ho ▸ hroot⟩
  entered := by
    intro o ho
    rw [Dict.mem_keys_iff, Dict.get?_set]
    split
    · rfl
    · rename_i hne
      rcases mem_append.mp ho with ho | ho
      · exact Dict.mem_keys_iff.mp (h.entered o ho)
      · exact absurd (congrArg Origin.module (mem_singleton.mp ho)) hne
  origin := by
    intro module root' hget
    rw [Dict.get?_set] at hget
    split at hget
    · rename_i heq
      exact ⟨origin, by simp, heq.symm, hroot.trans (congrArg _ (Option.some.inj hget))⟩
    · obtain ⟨o, ho, hmodule⟩ := h.origin hget
      exact ⟨o, mem_append_left _ ho, hmodule⟩

/-- An accepted manifest: its target, its pins, and the modules the workspace is made of. -/
theorem buildWorkspace_ok {ws : Workspace C} (h : buildWorkspace repr world manifest = .ok ws) :
    ∃ protoDir target pins modules, singleTarget repr world manifest = .ok (protoDir, target) ∧
      readPins repr manifest = .ok pins ∧
      Entered (source repr world manifest protoDir pins) target.origins modules ∧
      ws.files = Dict.ofList (placed world modules) ∧ ws.config.modules = modules.keys := by
  simp only [buildWorkspace, bind, Except.bind] at h
  split at h
  · cases h
  rename_i hit htarget
  split at h
  · cases h
  rename_i pins hpins
  split at h
  · cases h
  split at h
  · cases h
  rename_i modules hmodules
  split at h
  · cases h
  cases h
  refine ⟨hit.1, hit.2, pins, modules, htarget, hpins, ?_, rfl, rfl⟩
  refine foldlM_invariant (Entered (source repr world manifest hit.1 pins))
    ⟨by simp, by simp, by simp⟩ ?_ hmodules
  intro done o d d' hentered hset
  cases hroot : source repr world manifest hit.1 pins o with
  | error failure =>
    rw [hroot] at hset
    cases hset
  | ok root =>
    rw [hroot] at hset
    cases hset
    exact hentered.set hroot

/-! ### Every module in a directory of its own -/

theorem Origin.length_module (origin : Origin) : origin.module.length = 2 := by
  cases origin <;> rfl

theorem nodup_files (world : World C) (root : Path) : ((files world root).map Prod.fst).Nodup := by
  rw [Nodup, pairwise_map, files, pairwise_filterMap]
  refine (pairwise_map.mp (world.rglob root).nodup).imp ?_
  intro e e' hne file hfile file' hfile'
  obtain ⟨c, -, rfl⟩ := Option.map_eq_some_iff.mp hfile
  obtain ⟨c', -, rfl⟩ := Option.map_eq_some_iff.mp hfile'
  exact hne

/-- No path is used for two files: the first two segments are the module's. -/
theorem nodup_placed (world : World C) {source : Origin → Except Failure Path}
    (h : Entered source done modules) : ((placed world modules).map Prod.fst).Nodup := by
  have hlength : ∀ {e}, e ∈ modules.entries → e.1.length = 2 := by
    intro e he
    obtain ⟨o, -, hmodule, -⟩ := h.origin (Dict.mem_entries_iff.mp he)
    exact hmodule ▸ o.length_module
  rw [placed, map_flatMap, nodup_flatMap]
  constructor
  · intro e he
    rw [map_map]
    refine (nodup_map_iff_inj_on ((nodup_files world e.2).of_map _)).mpr ?_
    intro file hfile file' hfile' heq
    exact inj_on_of_nodup_map (nodup_files world e.2) hfile hfile' (append_cancel_left heq)
  · refine (pairwise_map.mp modules.nodup).imp_of_mem ?_
    intro e e' he he' hne path hpath hpath'
    simp only [mem_map, exists_exists_and_eq_and] at hpath hpath'
    obtain ⟨file, -, rfl⟩ := hpath
    obtain ⟨file', -, heq⟩ := hpath'
    exact hne (append_inj heq ((hlength he').trans (hlength he).symm)).1.symm

/-- The **workspace loses nothing**: each origin of the target has a directory of its own, which
`buf.yaml` lists once, with all its files and their contents below it. -/
def Complete (repr : String → String) (world : World C) (manifest : Manifest)
    (ws : Workspace C) : Prop :=
  ∃ protoDir target pins, singleTarget repr world manifest = .ok (protoDir, target) ∧
    readPins repr manifest = .ok pins ∧
    ∃ directory : Origin → Path,
      (∀ o ∈ target.origins, ∀ o' ∈ target.origins, directory o = directory o' → o = o') ∧
      ∀ o ∈ target.origins, ws.config.modules.count (directory o) = 1 ∧
        ∃ root, source repr world manifest protoDir pins o = .ok root ∧
          ∀ file ∈ files world root, ws.files.get? (directory o ++ file.1) = some file.2

/-- No module of the target has another's name: no contract or package is called `local`, and no
contract as a package. -/
def NamesApart (manifest : Manifest) : Prop :=
  ∀ target ∈ manifest.targets, "local" ∉ target.contracts ∧ "local" ∉ target.imports ∧
    ∀ name ∈ target.contracts, name ∉ target.imports

theorem module_injOn_iff (target : Target) :
    (∀ o ∈ target.origins, ∀ o' ∈ target.origins, o.module = o'.module → o = o') ↔
      "local" ∉ target.contracts ∧ "local" ∉ target.imports ∧
        ∀ name ∈ target.contracts, name ∉ target.imports := by
  have hmem : ∀ o, o ∈ target.origins ↔ o = .own ∨ (∃ n ∈ target.contracts, .contract n = o) ∨
      ∃ p ∈ target.imports, .imported p = o := by
    intro o
    simp only [Target.origins, mem_cons, mem_append, mem_map]
  constructor
  · intro h
    refine ⟨fun hc => ?_, fun hi => ?_, fun name hc hi => ?_⟩
    · cases h .own ((hmem _).mpr (.inl rfl)) _ ((hmem _).mpr (.inr (.inl ⟨_, hc, rfl⟩))) rfl
    · cases h .own ((hmem _).mpr (.inl rfl)) _ ((hmem _).mpr (.inr (.inr ⟨_, hi, rfl⟩))) rfl
    · cases h _ ((hmem _).mpr (.inr (.inl ⟨_, hc, rfl⟩))) _
        ((hmem _).mpr (.inr (.inr ⟨_, hi, rfl⟩))) rfl
  · rintro ⟨hc, hi, hci⟩ o ho o' ho' heq
    rw [hmem] at ho ho'
    rcases ho with rfl | ⟨n, hn, rfl⟩ | ⟨n, hn, rfl⟩ <;>
      rcases ho' with rfl | ⟨n', hn', rfl⟩ | ⟨n', hn', rfl⟩ <;>
      simp only [Origin.module, localModule, cons.injEq, and_true, true_and] at heq <;>
      grind

theorem files_of_injOn {ws : Workspace C} {target : Target}
    (h : Entered (source repr world manifest protoDir pins) target.origins modules)
    (hinj : ∀ o ∈ target.origins, ∀ o' ∈ target.origins, o.module = o'.module → o = o')
    (hfiles : ws.files = Dict.ofList (placed world modules)) {o : Origin}
    (ho : o ∈ target.origins) : ∃ root, source repr world manifest protoDir pins o = .ok root ∧
      ∀ file ∈ files world root, ws.files.get? (o.module ++ file.1) = some file.2 := by
  obtain ⟨root, hget⟩ := Option.isSome_iff_exists.mp (Dict.mem_keys_iff.mp (h.entered o ho))
  obtain ⟨o', ho', hmodule, hroot⟩ := h.origin hget
  obtain rfl := hinj o' ho' o ho hmodule
  refine ⟨root, hroot, fun file hfile => ?_⟩
  have hnodup := nodup_placed world h
  rw [hfiles, Dict.get?_ofList, Dict.lookup_reverse hnodup,
    ← Dict.mem_iff_lookup_eq_some hnodup]
  exact mem_flatMap.mpr ⟨(o'.module, root), Dict.mem_entries_iff.mpr hget, mem_map_of_mem hfile⟩

theorem module_injOn_of_listed {source : Origin → Except Failure Path}
    (h : Entered source done modules) {directory : Origin → Path}
    (hinj : ∀ o ∈ done, ∀ o' ∈ done, directory o = directory o' → o = o')
    (hlisted : ∀ o ∈ done, modules.keys.count (directory o) = 1) :
    ∀ o ∈ done, ∀ o' ∈ done, o.module = o'.module → o = o' := by
  have hkeys : modules.keys.toFinset ⊆ done.toFinset.image Origin.module := by
    intro key hkey
    rw [mem_toFinset, Dict.mem_keys_iff] at hkey
    obtain ⟨root, hget⟩ := Option.isSome_iff_exists.mp hkey
    obtain ⟨o, ho, hmodule, -⟩ := h.origin hget
    exact Finset.mem_image.mpr ⟨o, mem_toFinset.mpr ho, hmodule⟩
  have hcard : done.toFinset.card ≤ modules.keys.toFinset.card := by
    refine Finset.card_le_card_of_injOn directory ?_ ?_
    · intro o ho
      have hpos : 0 < modules.keys.count (directory o) := by
        rw [hlisted o (mem_toFinset.mp ho)]
        exact Nat.one_pos
      exact mem_toFinset.mpr (count_pos_iff.mp hpos)
    · intro o ho o' ho' heq
      exact hinj o (mem_toFinset.mp ho) o' (mem_toFinset.mp ho') heq
  have himage : (done.toFinset.image Origin.module).card = done.toFinset.card :=
    Finset.card_image_le.antisymm (hcard.trans (Finset.card_le_card hkeys))
  intro o ho o' ho' heq
  exact Finset.card_image_iff.mp himage (mem_toFinset.mpr ho) (mem_toFinset.mpr ho') heq

theorem targets_of_singleTarget {target : Target}
    (h : singleTarget repr world manifest = .ok (protoDir, target)) :
    manifest.targets = [target] := by
  rw [singleTarget] at h
  split at h
  · rename_i only honly
    dsimp only at h
    split at h
    · cases h
      exact honly
    · cases h
  · cases h

theorem namesApart_iff {target : Target}
    (h : singleTarget repr world manifest = .ok (protoDir, target)) : NamesApart manifest ↔
      ∀ o ∈ target.origins, ∀ o' ∈ target.origins, o.module = o'.module → o = o' := by
  rw [NamesApart, targets_of_singleTarget h, forall_mem_singleton, module_injOn_iff]

theorem namesApart_of_complete {ws : Workspace C}
    (h : buildWorkspace repr world manifest = .ok ws) (hc : Complete repr world manifest ws) :
    NamesApart manifest := by
  obtain ⟨protoDir, target, pins, modules, htarget, hpins, hentered, -, hkeys⟩ :=
    buildWorkspace_ok h
  obtain ⟨_, _, _, htarget', hpins', directory, hinj, hall⟩ := hc
  cases htarget.symm.trans htarget'
  refine (namesApart_iff htarget).mpr (module_injOn_of_listed hentered hinj fun o ho => ?_)
  exact hkeys ▸ (hall o ho).1

/-- **What the workspace holds**: every accepted manifest gives one with all modules, each in a
directory of its own listed once, exactly if no contract or package is called `local` and no
contract has the name of a package. -/
theorem buildWorkspace_complete_iff {ws : Workspace C}
    (h : buildWorkspace repr world manifest = .ok ws) :
    Complete repr world manifest ws ↔ NamesApart manifest := by
  refine ⟨namesApart_of_complete h, fun hapart => ?_⟩
  obtain ⟨protoDir, target, pins, modules, htarget, hpins, hentered, hfiles, hkeys⟩ :=
    buildWorkspace_ok h
  have hinj := (namesApart_iff htarget).mp hapart
  refine ⟨protoDir, target, pins, htarget, hpins, Origin.module, hinj, fun o ho => ⟨?_, ?_⟩⟩
  · rw [hkeys]
    exact count_eq_one_of_mem modules.nodup (hentered.entered o ho)
  · exact files_of_injOn hentered hinj hfiles ho

/-- A world in which every directory has one file, which says where it is from. -/
def plainWorld : World Path where
  environ := bareEnviron
  resolve := fun root text => root ++ [text]
  isDir := fun _ => true
  findSpec := fun package => some [["site", package]]
  rglob := fun root => .ofList [(["a.proto"], some root)]

/-- A service with one pinned contract, that imports one package. -/
def plainManifest (package : String) : Manifest where
  name := "pyproject.toml"
  root := ["service"]
  targets := [⟨"proto", ["agent"], [package]⟩]
  pins := .ofList [("agent", some agentRaw)]
  buf := .ofList [("lint", some ⟨none, none⟩)]

/-- The workspace of such a service. -/
theorem plainManifest_complete : ∃ ws,
    buildWorkspace id plainWorld (plainManifest "agent_grpc") = .ok ws ∧
      Complete id plainWorld (plainManifest "agent_grpc") ws := by
  have hok : (buildWorkspace id plainWorld (plainManifest "agent_grpc")).isOk = true := by
    decide +kernel
  cases h : buildWorkspace id plainWorld (plainManifest "agent_grpc") with
  | error failure =>
    rw [h] at hok
    cases hok
  | ok ws =>
    refine ⟨ws, rfl, (buildWorkspace_complete_iff h).mpr ?_⟩
    intro target htarget
    rw [mem_singleton.mp htarget]
    decide

/-- **Two modules of one name**: the protos of the contract `agent` are nowhere in the
workspace, those of the package `agent` are in their place. -/
theorem sharedName_incomplete :
    (buildWorkspace id plainWorld (plainManifest "agent")).map
        (fun ws => (ws.config.modules, ws.files.entries)) =
      .ok ([["modules", "local"], ["modules", "agent"]],
        [(["modules", "local", "a.proto"], ["service", "proto"]),
          (["modules", "agent", "a.proto"], ["site", "agent", "proto"])]) ∧
    ∀ ws, buildWorkspace id plainWorld (plainManifest "agent") = .ok ws →
      ¬ Complete id plainWorld (plainManifest "agent") ws := by
  refine ⟨by decide +kernel, fun ws h hc => ?_⟩
  have hapart := (namesApart_of_complete h hc _ (mem_singleton.mpr rfl)).2.2
  exact hapart "agent" (by decide) (by decide)

end ServiceToolkit.Buf
