import ServiceToolkit.Text
import ServiceToolkit.WorkingTree

/-!
# Materialising Pinned Contracts

A consumer pins a contract repository to a commit, and `materialise` puts the files of that
commit on disk, in a directory that code generation then reads. A directory that is there
already is kept if it is **intact**: git says that its HEAD is the pinned commit and reports
no change. Otherwise it is removed and the contract cloned again.

## What is modelled

* `validated` reads a pin out of a manifest and rejects what is not a plain repository, tag,
  commit and path, with the texts of the source. How Python shows a string (`repr`) is a
  parameter.
* A `Directory` is all its files, those of the git metadata included, with what git makes of
  it: its HEAD, its index and what it ignores. All of this may have been changed at will since
  the directory was made.
* `materialise` takes what is at the destination and how the steps of a `Fetch` go, and gives
  what is there afterwards and the directory or the exception. That git checks out a commit
  exactly is part of `Clone`; `trees` says what each commit holds.
-/

namespace ServiceToolkit.Contracts

open List

/-! ### Pins -/

/-- `ContractPin`. -/
structure ContractPin where
  name : String
  repository : String
  tag : String
  commit : String
  protoDir : String
  deriving DecidableEq, Repr

/-- The characters `[a-z0-9]`. -/
def isLowerOrDigit (c : Char) : Bool := c.isLower || c.isDigit

/-- `_NAME`. -/
def isName (name : String) : Bool :=
  match name.toList with
  | [] => false
  | c :: rest => isLowerOrDigit c && rest.all fun c => isLowerOrDigit c || c = '-'

/-- The owner of the repositories that may be pinned. -/
def approvedOwner : List Char := "https://github.com/LeavePulse/".toList

/-- `_APPROVED_REPOSITORY`. -/
def isApprovedRepository (repository : String) : Bool :=
  let text := repository.toList
  let body := (text.drop approvedOwner.length).rdrop 4
  approvedOwner.isPrefixOf text && ".git".toList.isSuffixOf (text.drop approvedOwner.length) &&
    match body with
    | [] => false
    | c :: rest =>
      c.isAlphanum && rest.all fun c => c.isAlphanum || c = '.' || c = '_' || c = '-'

/-- `_TAG`. -/
def isTag (tag : String) : Bool :=
  match tag.toList with
  | 'v' :: version =>
    let numbers := version.splitOn '.'
    numbers.length = 3 && numbers.all fun number => number ≠ [] && number.all Char.isDigit
  | _ => false

/-- `_COMMIT`. -/
def isCommit (commit : String) : Bool :=
  commit.toList.length = 40 &&
    commit.toList.all fun c => c.isDigit || ('a' ≤ c && c ≤ 'f')

/-- `Path(text).parts`, of a text that does not start with a slash. -/
def parts (text : String) : List String :=
  ((text.toList.splitOn '/').map String.ofList).filter fun part => part ≠ "" && part ≠ "."

/-- `_PROTO_DIR`, and no part leads upwards. -/
def isProtoDir (protoDir : String) : Bool :=
  (match protoDir.toList with
    | [] => false
    | c :: rest =>
      (c.isAlphanum || c = '_') &&
        rest.all fun c => c.isAlphanum || c = '.' || c = '_' || c = '/' || c = '-') &&
    ".." ∉ parts protoDir

/-- A value in a pin's table. -/
inductive Value
  | text (value : String)
  | other

/-- Why nothing was returned: a `ContractError`, or an `OSError`. -/
inductive Failure
  | contract (message : String)
  | os
  deriving DecidableEq

/-- The function `value` of `_validated`. -/
def value (manifest name : String) (raw : Dict String Value) (key : String) :
    Except Failure String :=
  match raw.get? key with
  | some (.text found) =>
    if Text.strip found.toList = [] then
      .error (.contract (manifest ++ ": contract " ++ name ++ " is missing " ++ key ++ "."))
    else .ok (String.ofList (Text.strip found.toList))
  | _ => .error (.contract (manifest ++ ": contract " ++ name ++ " is missing " ++ key ++ "."))

/-- The checks of `_validated` that fail, in their order. -/
def problems (repr : String → String) (pin : ContractPin) : List String :=
  (if isName pin.name then []
    else ["name " ++ repr pin.name ++ " is not lower-case letters, digits and dashes"]) ++
  (if isApprovedRepository pin.repository then []
    else ["repository " ++ repr pin.repository ++
      " is not an HTTPS repository of the LeavePulse GitHub organisation"]) ++
  (if isTag pin.tag then []
    else ["tag " ++ repr pin.tag ++ " is not a vMAJOR.MINOR.PATCH release"]) ++
  (if isCommit pin.commit then []
    else ["commit " ++ repr pin.commit ++
      " is not a full 40-character sha; a short or symbolic ref is not a pin"]) ++
  (if isProtoDir pin.protoDir then []
    else ["proto_dir " ++ repr pin.protoDir ++ " is not a path inside the repository"])

/-- `_validated`. -/
def validated (repr : String → String) (manifest name : String) (raw : Dict String Value) :
    Except Failure ContractPin := do
  let repository ← value manifest name raw "repository"
  let tag ← value manifest name raw "tag"
  let commit ← value manifest name raw "commit"
  let protoDir ← value manifest name raw "proto_dir"
  let pin : ContractPin := ⟨name, repository, tag, commit, protoDir⟩
  match problems repr pin with
  | [] => .ok pin
  | found =>
    .error (.contract
      (manifest ++ ": contract " ++ name ++ ": " ++ "; ".intercalate found))

/-! ### Directories -/

/-- A path, relative to a directory. -/
abbrev Path := List String

/-- The path is in the git metadata. -/
def isMetadata (path : Path) : Bool := path.head? = some ".git"

/-- The files of a commit: git keeps no metadata in it. -/
structure Tree (C : Type*) where
  files : Dict Path C
  plain : ∀ path ∈ files.keys, isMetadata path = false

/-- What git answers in a directory: its HEAD, if it finds one, and a status of the index and
of what is not ignored, unless it fails. -/
structure GitView (C : Type*) where
  head : Option String
  index : Dict Path C
  ignored : Path → Bool
  statusFails : Bool

/-- A directory: all its files, and what git answers if there is a directory `.git`. -/
structure Directory (C : Type*) where
  files : Dict Path C
  git : Option (GitView C)

section

variable {C : Type*}

/-- The files that git looks at. -/
def Directory.workTree (d : Directory C) : Dict Path C :=
  d.files.filterKeys fun path => !isMetadata path

/-- The path is a file that the index does not track and that is ignored. -/
def Directory.isIgnored (d : Directory C) (path : Path) : Prop :=
  ∃ git, d.git = some git ∧ path ∈ WorkingTree.untracked git.index d.workTree ∧
    git.ignored path = true

/-- A clone of a commit: its files are there, and git knows them. -/
structure Clone (trees : String → Tree C) where
  commit : String
  directory : Directory C
  git : GitView C
  checkedOut : ∀ path, isMetadata path = false →
    directory.files.get? path = (trees commit).files.get? path
  repository : directory.git = some git
  head : git.head = some commit
  index : ∀ path, git.index.get? path = (trees commit).files.get? path
  answers : git.statusFails = false

/-- What is at the destination. A link leads to a directory or to nothing. -/
inductive Destination (C : Type*)
  | absent
  | file
  | directory (d : Directory C)
  | link (target : Option (Directory C))

/-- The directory at the destination. -/
def Destination.reached : Destination C → Option (Directory C)
  | .directory d => some d
  | .link target => target
  | _ => none

/-- `Path.exists`. -/
def Destination.exists : Destination C → Bool
  | .absent | .link none => false
  | _ => true

/-- How the steps of a fetch go: what a removal that raises leaves of a directory, whether the
parent, the scratch directory, the rename and the clean-up succeed, and what git answers. -/
structure Fetch (trees : String → Tree C) where
  rmtreeLeaves : Option (Directory C)
  mkdir : Bool
  clone : Except String (Clone trees)
  revParseFails : Option String
  rename : Bool
  cleanup : Bool

/-- What the process is told by its environment, and where a path leads. -/
structure Environ where
  get : String → Option String
  resolve : String → Path

/-- The variable is set and not empty. -/
def Environ.isSet (environ : Environ) (variableName : String) : Bool :=
  (environ.get variableName).any (· ≠ "")

/-- `override_variable`. -/
def overrideVariable (name : String) : String :=
  "LP_GRPC_CONTRACT_" ++
    String.ofList ((name.toList.map fun c => if c.isAlphanum then c else '_').map Char.toUpper)

/-- `materialised_dir`. -/
def materialisedDir (environ : Environ) (pin : ContractPin) (baseDir : Path) :
    Except Failure Path :=
  if environ.isSet (overrideVariable pin.name) then
    if environ.isSet "CI" then
      .error (.contract
        (overrideVariable pin.name ++ " is set in CI. A CI build uses exactly the pinned " ++
          pin.name ++ " commit; unset it."))
    else .ok (environ.resolve ((environ.get (overrideVariable pin.name)).getD ""))
  else .ok (baseDir ++ [".contracts", pin.name, pin.commit])

variable [DecidableEq C] (trees : String → Tree C)

/-- `git status --porcelain --untracked-files=all`, as the paths it names. -/
def GitView.status (git : GitView C) (head : String) (d : Directory C) : Option (List Path) :=
  if git.statusFails then none
  else some (WorkingTree.status (trees head).files git.index d.workTree git.ignored)

/-- `_is_intact`. -/
def isIntact (pin : ContractPin) (d : Directory C) : Bool :=
  match d.git with
  | none => false
  | some git =>
    match git.head with
    | none => false
    | some head =>
      match git.status trees head d with
      | none => false
      | some changes => head = pin.commit && changes.isEmpty

/-! ### Materialising -/

variable {trees}

/-- `shutil.rmtree`, of what is at the destination. -/
def rmtree (fetch : Fetch trees) : Destination C → Destination C × Except Failure Unit
  | .directory _ =>
    match fetch.rmtreeLeaves with
    | none => (.absent, .ok ())
    | some left => (.directory left, .error .os)
  | destination => (destination, .error .os)

/-- `checkout.rename(destination)`: a directory does not replace a link. -/
def rename (fetch : Fetch trees) (clone : Clone trees) :
    Destination C → Destination C × Except Failure Unit
  | .link target => (.link target, .error .os)
  | destination => if fetch.rename then (.directory clone.directory, .ok ())
      else (destination, .error .os)

/-- `_git`, where the command fails. -/
def gitFailed (command stderr : String) : Failure :=
  .contract ("git " ++ command ++ " failed: " ++ String.ofList (Text.strip stderr.toList))

/-- What `materialise` says of a tag that names another commit. -/
def tagMoved (pin : ContractPin) (resolved : String) : Failure :=
  .contract ("contract " ++ pin.name ++ ": tag " ++ pin.tag ++ " names " ++ resolved ++
    ", but the pin is " ++ pin.commit ++ ". A tag that moved is not the contract this " ++
    "consumer was built against; pin the new commit deliberately or restore the tag.")

/-- `materialise` from the creation of the parent directory on. -/
def fetchPinned (pin : ContractPin) (directory : Path) (fetch : Fetch trees)
    (destination : Destination C) : Destination C × Except Failure Path :=
  if fetch.mkdir then
    match fetch.clone with
    -- the first argument of the command is the option `-c`
    | .error stderr => (destination, .error (gitFailed "-c" stderr))
    | .ok clone =>
      match fetch.revParseFails with
      | some stderr => (destination, .error (gitFailed "rev-parse" stderr))
      | none =>
        if clone.commit ≠ pin.commit then
          (destination, .error (tagMoved pin clone.commit))
        else
          match rename fetch clone destination with
          | (after, .error failure) => (after, .error failure)
          | (after, .ok ()) =>
            (after, if fetch.cleanup then .ok directory else .error .os)
  else (destination, .error .os)

/-- `materialise`: what is at the destination afterwards, and what is returned or raised. -/
def materialise (environ : Environ) (pin : ContractPin) (baseDir : Path)
    (destination : Destination C) (fetch : Fetch trees) :
    Destination C × Except Failure Path :=
  match materialisedDir environ pin baseDir with
  | .error failure => (destination, .error failure)
  | .ok directory =>
    if environ.isSet (overrideVariable pin.name) then (destination, .ok directory)
    else if destination.exists then
      if destination.reached.any (isIntact trees pin) then (destination, .ok directory)
      else
        match rmtree fetch destination with
        | (after, .error failure) => (after, .error failure)
        | (after, .ok ()) => fetchPinned pin directory fetch after
    else fetchPinned pin directory fetch destination

end

/-! ### What a validated pin is -/

theorem validated_ok {repr : String → String} {manifest name : String} {raw : Dict String Value}
    {pin : ContractPin} (h : validated repr manifest name raw = .ok pin) :
    pin.name = name ∧ problems repr pin = [] := by
  simp only [validated, bind, Except.bind] at h
  -- the four values, in the order in which they are read
  split at h
  · cases h
  split at h
  · cases h
  split at h
  · cases h
  split at h
  · cases h
  split at h
  · rename_i hnone
    cases h
    exact ⟨rfl, hnone⟩
  · cases h

theorem isProtoDir_of_validated {repr : String → String} {manifest name : String}
    {raw : Dict String Value} {pin : ContractPin}
    (h : validated repr manifest name raw = .ok pin) : isProtoDir pin.protoDir = true := by
  have hnone := (validated_ok h).2
  rw [problems, append_eq_nil_iff] at hnone
  by_contra hnot
  rw [if_neg hnot] at hnone
  cases hnone.2

/-- The parts of a text that starts with neither a slash nor a dot start with it. -/
theorem parts_of_first {text : String} {c : Char} {rest : List Char}
    (htext : text.toList = c :: rest) (hslash : c ≠ '/') (hdot : c ≠ '.') :
    ∃ first others, parts text = String.ofList (c :: first) :: others := by
  obtain ⟨first, others, hsplit⟩ :=
    exists_cons_of_ne_nil (splitOn_ne_nil '/' rest)
  have hkept : (decide (String.ofList (c :: first) ≠ "") &&
      decide (String.ofList (c :: first) ≠ ".")) = true := by
    rw [Bool.and_eq_true, decide_eq_true_eq, decide_eq_true_eq]
    constructor
    · intro h
      have := congrArg String.toList h
      rw [String.toList_ofList] at this
      cases this
    · intro h
      have := congrArg String.toList h
      rw [String.toList_ofList] at this
      exact hdot (cons.inj this).1
  refine ⟨first, (others.map String.ofList).filter fun part => part ≠ "" && part ≠ ".", ?_⟩
  rw [parts, htext, splitOn_cons_eq_if_modifyHead, if_neg (by simpa using hslash), hsplit,
    modifyHead_cons, map_cons]
  exact filter_cons_of_pos hkept

/-- **A validated proto root** is neither in the git metadata nor the directory itself. -/
theorem protoRoot_plain {protoDir : String} (h : isProtoDir protoDir = true) {path : Path}
    (hpath : parts protoDir <+: path) : isMetadata path = false := by
  rw [isProtoDir, Bool.and_eq_true] at h
  cases htext : protoDir.toList with
  | nil =>
    rw [htext] at h
    cases h.1
  | cons c rest =>
    rw [htext] at h
    have hc : c.isAlphanum = true ∨ c = '_' := by
      have := h.1
      simp only [Bool.and_eq_true, Bool.or_eq_true, decide_eq_true_eq] at this
      exact this.1
    have hne : ∀ {d : Char}, d.isAlphanum = false → d ≠ '_' → c ≠ d := by
      rintro d hd hd' rfl
      rcases hc with hc | hc
      · rw [hd] at hc
        cases hc
      · exact hd' hc
    obtain ⟨first, others, hparts⟩ := parts_of_first htext (hne rfl (by decide))
      (hne rfl (by decide))
    obtain ⟨below, rfl⟩ := hpath
    rw [hparts, isMetadata]
    refine decide_eq_false fun hgit => ?_
    have hfirst := congrArg String.toList (Option.some.inj hgit)
    rw [String.toList_ofList] at hfirst
    exact hne rfl (by decide) (cons.inj hfirst).1

/-! ### What is returned -/

section

variable {C : Type*} {trees : String → Tree C} {pin : ContractPin}

/-- The files under the proto root are exactly those of the pinned commit. -/
def Exact (trees : String → Tree C) (pin : ContractPin) (d : Directory C) : Prop :=
  ∀ path, parts pin.protoDir <+: path →
    d.files.get? path = (trees pin.commit).files.get? path

theorem get?_workTree (d : Directory C) {path : Path} (hplain : isMetadata path = false) :
    d.workTree.get? path = d.files.get? path := by
  rw [Directory.workTree, Dict.get?_filterKeys, hplain]
  rfl

theorem Clone.exact (clone : Clone trees) (hcommit : clone.commit = pin.commit)
    (hroot : isProtoDir pin.protoDir = true) : Exact trees pin clone.directory := by
  intro path hpath
  rw [clone.checkedOut path (protoRoot_plain hroot hpath), hcommit]

theorem rename_ok {fetch : Fetch trees} {clone : Clone trees} {destination after : Destination C}
    (h : rename fetch clone destination = (after, .ok ())) :
    after = .directory clone.directory := by
  have hmoved : ∀ {there : Destination C}, (if fetch.rename then
      (Destination.directory clone.directory, Except.ok ()) else (there, .error Failure.os)) =
      (after, .ok ()) → after = .directory clone.directory := by
    intro there h
    split at h
    · cases h
      rfl
    · cases h
  cases destination with
  | link target => cases h
  | absent | file | directory d => exact hmoved h

/-- A fetch that returns has put a clone of the pinned commit at the destination. -/
theorem fetchPinned_ok {directory returned : Path} {fetch : Fetch trees}
    {destination after : Destination C}
    (h : fetchPinned pin directory fetch destination = (after, .ok returned)) :
    returned = directory ∧
      ∃ clone : Clone trees, clone.commit = pin.commit ∧ after = .directory clone.directory := by
  rw [fetchPinned] at h
  split at h
  · split at h
    · cases h
    · rename_i clone _
      split at h
      · cases h
      · split at h
        · cases h
        · rename_i hcommit
          split at h
          · cases h
          · rename_i after' hrename
            split at h
            · cases h
              exact ⟨rfl, clone, not_not.mp hcommit, rename_ok hrename⟩
            · cases h
  · cases h

variable [DecidableEq C]

theorem isIntact_iff {d : Directory C} : isIntact trees pin d = true ↔
    ∃ git, d.git = some git ∧ git.head = some pin.commit ∧ git.statusFails = false ∧
      WorkingTree.status (trees pin.commit).files git.index d.workTree git.ignored = [] := by
  constructor
  · intro h
    rw [isIntact] at h
    split at h
    · cases h
    rename_i git hgit
    split at h
    · cases h
    rename_i head hhead
    split at h
    · cases h
    rename_i changes hstatus
    rw [Bool.and_eq_true, decide_eq_true_eq, List.isEmpty_iff] at h
    obtain ⟨rfl, rfl⟩ := h
    rw [GitView.status] at hstatus
    split at hstatus
    · cases hstatus
    rename_i hanswers
    exact ⟨git, hgit, hhead, Bool.eq_false_iff.mpr hanswers, Option.some.inj hstatus⟩
  · rintro ⟨git, hgit, hhead, hanswers, hclean⟩
    simp [isIntact, hgit, hhead, GitView.status, hanswers, hclean]

/-- **An intact directory** has the files of the commit under the proto root exactly if none of
the files there is ignored. -/
theorem exact_iff_of_intact {d : Directory C} (hroot : isProtoDir pin.protoDir = true)
    (hintact : isIntact trees pin d = true) :
    Exact trees pin d ↔ ∀ path, parts pin.protoDir <+: path → ¬ d.isIgnored path := by
  obtain ⟨git, hgit, -, -, hclean⟩ := isIntact_iff.mp hintact
  refine forall₂_congr fun path hpath => ?_
  rw [← get?_workTree d (protoRoot_plain hroot hpath), WorkingTree.agrees_iff_of_clean hclean]
  refine not_congr ⟨fun h => ⟨git, hgit, h⟩, ?_⟩
  rintro ⟨git', hgit', h⟩
  rw [hgit] at hgit'
  cases hgit'
  exact h

theorem Clone.intact (clone : Clone trees) (hcommit : clone.commit = pin.commit) :
    isIntact trees pin clone.directory = true := by
  refine isIntact_iff.mpr ⟨clone.git, clone.repository, by rw [clone.head, hcommit],
    clone.answers, WorkingTree.status_of_checkout _ (fun path => ?_) fun path => ?_⟩
  · rw [clone.index, hcommit]
  · cases hmeta : isMetadata path with
    | false => rw [get?_workTree _ hmeta, clone.checkedOut path hmeta, hcommit]
    | true =>
      -- the metadata is in no commit, and git does not look at it
      have hnone : (trees pin.commit).files.get? path = none := by
        rw [Dict.get?_eq_none_iff]
        intro hmem
        rw [(trees pin.commit).plain path hmem] at hmeta
        cases hmeta
      rw [hnone, Directory.workTree, Dict.get?_filterKeys, hmeta]
      rfl

variable {environ : Environ} {baseDir : Path} {destination after : Destination C}
  {fetch : Fetch trees}

theorem materialise_intact {d : Directory C}
    (hoverride : environ.isSet (overrideVariable pin.name) = false)
    (hreached : destination.reached = some d) (hintact : isIntact trees pin d = true) :
    materialise environ pin baseDir destination fetch =
      (destination, .ok (baseDir ++ [".contracts", pin.name, pin.commit])) := by
  have hexists : destination.exists = true := by
    cases destination with
    | absent => cases hreached
    | file | directory d => rfl
    | link target =>
      cases target with
      | none => cases hreached
      | some d => rfl
  have hany : destination.reached.any (isIntact trees pin) = true := by
    rw [hreached, Option.any_some, hintact]
  rw [materialise, materialisedDir, hoverride, if_neg Bool.false_ne_true]
  dsimp only
  rw [if_neg Bool.false_ne_true, hexists, if_pos rfl, hany, if_pos rfl]

/-- **What is returned**, without an override: the directory of the pinned commit, where an
intact directory was before or a clone of the commit is now. -/
theorem materialise_ok {returned : Path}
    (hoverride : environ.isSet (overrideVariable pin.name) = false)
    (h : materialise environ pin baseDir destination fetch = (after, .ok returned)) :
    returned = baseDir ++ [".contracts", pin.name, pin.commit] ∧
      ((after = destination ∧
        ∃ d, destination.reached = some d ∧ isIntact trees pin d = true) ∨
      ∃ clone : Clone trees, clone.commit = pin.commit ∧ after = .directory clone.directory) := by
  rw [materialise, materialisedDir, hoverride, if_neg Bool.false_ne_true] at h
  dsimp only at h
  rw [if_neg Bool.false_ne_true] at h
  split at h
  · split at h
    · rename_i hany
      cases h
      cases hd : destination.reached with
      | none =>
        rw [hd] at hany
        cases hany
      | some d =>
        rw [hd, Option.any_some] at hany
        exact ⟨rfl, .inl ⟨rfl, d, rfl, hany⟩⟩
    · split at h
      · cases h
      · obtain ⟨hreturned, hclone⟩ := fetchPinned_ok h
        exact ⟨hreturned, .inr hclone⟩
  · obtain ⟨hreturned, hclone⟩ := fetchPinned_ok h
    exact ⟨hreturned, .inr hclone⟩

/-- **What was materialised is used again**, whatever a fetch would do. -/
theorem materialise_again {returned : Path}
    (hoverride : environ.isSet (overrideVariable pin.name) = false)
    (h : materialise environ pin baseDir destination fetch = (after, .ok returned))
    (fetch' : Fetch trees) :
    materialise environ pin baseDir after fetch' = (after, .ok returned) := by
  obtain ⟨rfl, ⟨rfl, d, hreached, hintact⟩ | ⟨clone, hcommit, rfl⟩⟩ :=
    materialise_ok hoverride h
  · exact materialise_intact hoverride hreached hintact
  · exact materialise_intact hoverride rfl (clone.intact hcommit)

/-- **Materialisation is exact** for a validated pin without an override, exactly unless an intact
directory was there before that has, under its proto root, a file which is ignored and not tracked.
-/
theorem materialise_exact_iff {repr : String → String} {manifest name : String}
    {raw : Dict String Value} (hpin : validated repr manifest name raw = .ok pin)
    (hoverride : environ.isSet (overrideVariable pin.name) = false) (baseDir : Path)
    (destination : Destination C) (fetch : Fetch trees) :
    (∀ returned after, materialise environ pin baseDir destination fetch = (after, .ok returned) →
      returned = baseDir ++ [".contracts", pin.name, pin.commit] ∧
        ∃ d, after.reached = some d ∧ Exact trees pin d) ↔
    ∀ d, destination.reached = some d → isIntact trees pin d = true →
      ∀ path, parts pin.protoDir <+: path → ¬ d.isIgnored path := by
  have hroot := isProtoDir_of_validated hpin
  constructor
  · intro h d hreached hintact
    have hreturned : materialise environ pin baseDir destination fetch = _ :=
      materialise_intact hoverride hreached hintact
    obtain ⟨-, d', hd', hexact⟩ := h _ _ hreturned
    rw [hreached] at hd'
    cases hd'
    exact (exact_iff_of_intact hroot hintact).mp hexact
  · intro h returned after hreturned
    obtain ⟨hdirectory, ⟨rfl, d, hreached, hintact⟩ | ⟨clone, hcommit, rfl⟩⟩ :=
      materialise_ok hoverride hreturned
    · exact ⟨hdirectory, d, hreached,
        (exact_iff_of_intact hroot hintact).mpr (h d hreached hintact)⟩
    · exact ⟨hdirectory, clone.directory, rfl, clone.exact hcommit hroot⟩

end

/-- A pin, as a manifest has it. -/
def agentRaw : Dict String Value :=
  Dict.ofList [("repository", .text "https://github.com/LeavePulse/agent-contract.git"),
    ("tag", .text "v1.0.0"), ("commit", .text "0123456789abcdef0123456789abcdef01234567"),
    ("proto_dir", .text "proto")]

/-- The same pin, validated. -/
def agentPin : ContractPin :=
  ⟨"agent-contract", "https://github.com/LeavePulse/agent-contract.git", "v1.0.0",
    "0123456789abcdef0123456789abcdef01234567", "proto"⟩

/-- Its commit has one proto file. -/
def agentTrees : String → Tree ℕ := fun _ =>
  ⟨Dict.ofList [(["proto", "agent.proto"], 1)], by decide⟩

/-- A clone of that commit. -/
def agentCopy : Directory ℕ :=
  ⟨(agentTrees "").files,
    some ⟨some agentPin.commit, (agentTrees "").files, fun _ => false, false⟩⟩

/-- A fetch that goes well. -/
def agentFetch : Fetch agentTrees where
  rmtreeLeaves := none
  mkdir := true
  clone := .ok
    { commit := agentPin.commit
      directory := agentCopy
      git := ⟨some agentPin.commit, (agentTrees "").files, fun _ => false, false⟩
      checkedOut := fun _ _ => rfl
      repository := rfl
      head := rfl
      index := fun _ => rfl
      answers := rfl }
  revParseFails := none
  rename := true
  cleanup := true

/-- An environment with nothing set. -/
def bareEnviron : Environ := ⟨fun _ => none, fun _ => []⟩

/-- The pin is materialised exactly, from what is at the destination. -/
def ExactFrom (destination : Destination ℕ) : Prop :=
  (materialise bareEnviron agentPin ["service"] destination agentFetch).2 =
      .ok ["service", ".contracts", agentPin.name, agentPin.commit] ∧
    ∃ d, (materialise bareEnviron agentPin ["service"] destination agentFetch).1.reached = some d ∧
      Exact agentTrees agentPin d

/-- A fetch into an empty place, and an intact copy that is there. -/
theorem materialise_exact_fetched : ExactFrom .absent ∧ ExactFrom (.directory agentCopy) := by
  have hpin : validated id "pyproject.toml" "agent-contract" agentRaw = .ok agentPin := by
    decide +kernel
  have hreturned : ∀ destination ∈ [.absent, .directory agentCopy],
      (materialise bareEnviron agentPin ["service"] destination agentFetch).2 =
        .ok ["service", ".contracts", agentPin.name, agentPin.commit] := by
    decide +kernel
  have hexact : ∀ destination ∈ [.absent, .directory agentCopy], ExactFrom destination := by
    intro destination hmem
    refine ⟨hreturned destination hmem, ((materialise_exact_iff hpin rfl ["service"] destination
      agentFetch).mpr (fun d hd _ path _ => ?_) _ _ (Prod.ext rfl (hreturned destination hmem))).2⟩
    rcases mem_pair.mp hmem with rfl | rfl
    · cases hd
    · cases hd
      rintro ⟨_, ⟨⟩, -, hignored⟩
      cases hignored
  exact ⟨hexact _ (by simp), hexact _ (by simp)⟩

/-- After that fetch, one that fails changes nothing. -/
theorem materialise_again_fetched :
    (materialise bareEnviron agentPin ["service"]
        (materialise bareEnviron agentPin ["service"] .absent agentFetch).1
        { agentFetch with mkdir := false }).2 =
      .ok ["service", ".contracts", agentPin.name, agentPin.commit] :=
  congrArg Prod.snd (materialise_again rfl (Prod.ext rfl (by decide +kernel)) _)

/-- The same directory with one more file under the proto root, which git is told to ignore. -/
def tampered : Directory ℕ where
  files := Dict.ofList [(["proto", "agent.proto"], 1), (["proto", "extra.proto"], 2)]
  git := some ⟨some agentPin.commit, (agentTrees "").files,
    fun path => path = ["proto", "extra.proto"], false⟩

/-- **An ignored file is kept**: git reports no change, the directory is returned, and code
generation compiles a file that the pinned commit does not have. -/
theorem materialise_reuses_ignored :
    (materialise bareEnviron agentPin ["service"] (.directory tampered) agentFetch).2 =
        .ok ["service", ".contracts", agentPin.name, agentPin.commit] ∧
      (materialise bareEnviron agentPin ["service"] (.directory tampered)
        agentFetch).1.reached.map (fun d => d.files.get? ["proto", "extra.proto"]) =
          some (some 2) ∧
      (agentTrees agentPin.commit).files.get? ["proto", "extra.proto"] = none ∧
      parts agentPin.protoDir <+: ["proto", "extra.proto"] := by
  decide +kernel

end ServiceToolkit.Contracts
