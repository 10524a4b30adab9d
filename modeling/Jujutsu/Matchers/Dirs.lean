import Mathlib.Data.Finset.Basic
import Mathlib.Logic.Function.Basic
import Jujutsu.RepoPath

/-!
# The `Dirs` map

`Dirs` keeps, for each directory, the subdirectories and files a traversal must visit.
`add_dir` walks up from a directory and stops at the first one already present; it is
correct only because every present directory is already linked from its parent. That
invariant is `Linked`, and `Represents` gives a `Dirs` its meaning: the ancestors of the
directories and files added, with exactly the links between them. Every call keeps it,
so the result of any sequence of calls depends only on the paths added.
-/

set_option autoImplicit false

namespace Jujutsu

/-- A `HashMap<RepoPath, HashSet<RepoPathComponent>>`, modelled by its lookup. -/
abbrev ChildrenMap := RepoPath → Option (Finset RepoPathComponent)

/-- Keeps track of which subdirectories and files of each directory need to be visited. -/
structure Dirs where
  dirs : ChildrenMap
  files : ChildrenMap

namespace Dirs

def new : Dirs := ⟨fun _ => none, fun _ => none⟩

/-- `map.entry(dir).or_default()`, followed by `insert(child)` when there is a child. -/
def entryInsert (map : ChildrenMap) (dir : RepoPath) (maybeChild : Option RepoPathComponent) :
    ChildrenMap :=
  let children := (map dir).getD ∅
  Function.update map dir <| some <|
    match maybeChild with
    | some child => insert child children
    | none => children

/-- The loop of `add_dir`: link `maybeChild` from `dir`, stop if `dir` was present, and
otherwise go on with the parent of `dir`, linking `dir` from it. Each turn climbs one
component, so the loop turns at most once per component of `dir`: `climb` counts them down
and reaches the root, where `split` gives nothing, with no turn left. -/
def addDirLoop (dirs : ChildrenMap) (dir : RepoPath) (maybeChild : Option RepoPathComponent) :
    ChildrenMap :=
  climb dir.components.length dirs dir maybeChild
where
  /-- The loop at `dir` with `steps` components left above it. -/
  climb : Nat → ChildrenMap → RepoPath → Option RepoPathComponent → ChildrenMap
    | 0, dirs, dir, maybeChild => entryInsert dirs dir maybeChild
    | steps + 1, dirs, dir, maybeChild =>
      let wasPresent := (dirs dir).isSome
      let dirs := entryInsert dirs dir maybeChild
      if wasPresent then dirs
      else
        match dir.split with
        | none => dirs
        | some (newDir, newChild) => climb steps dirs newDir (some newChild)

def addDir (self : Dirs) (dir : RepoPath) : Dirs :=
  { self with dirs := addDirLoop self.dirs dir none }

/-- `add_file` panics on the root (`got empty filename`), modelled by `none`. -/
def addFile (self : Dirs) (file : RepoPath) : Option Dirs :=
  match file.split with
  | none => none
  | some (dir, basename) =>
    let self := self.addDir dir
    some { self with files := entryInsert self.files dir (some basename) }

def getDirs (self : Dirs) (dir : RepoPath) : Finset RepoPathComponent := (self.dirs dir).getD ∅

def getFiles (self : Dirs) (dir : RepoPath) : Finset RepoPathComponent := (self.files dir).getD ∅

@[simp] theorem addDir_files (self : Dirs) (dir : RepoPath) : (self.addDir dir).files = self.files :=
  rfl

@[simp] theorem addFile_root (self : Dirs) : self.addFile RepoPath.root = none := rfl

@[simp] theorem addFile_join (self : Dirs) (dir : RepoPath) (basename : RepoPathComponent) :
    self.addFile (dir.join basename) =
      some ⟨addDirLoop self.dirs dir none, entryInsert self.files dir (some basename)⟩ := by
  simp [addFile, addDir]

theorem addFile_isSome (self : Dirs) {file : RepoPath} (nonRoot : ¬file.isRoot = true) :
    (self.addFile file).isSome := by
  rcases file.eq_root_or_join with rfl | ⟨dir, basename, rfl⟩
  · simp at nonRoot
  · simp

/-! ## One `entry().or_default()` update -/

theorem isSome_of_mem_getD {children : Option (Finset RepoPathComponent)}
    {child : RepoPathComponent} (member : child ∈ children.getD ∅) : children.isSome := by
  cases children <;> simp_all

@[simp] theorem entryInsert_isSome (map : ChildrenMap) (dir key : RepoPath)
    (maybeChild : Option RepoPathComponent) :
    (entryInsert map dir maybeChild key).isSome ↔ (map key).isSome ∨ key = dir := by
  by_cases same : key = dir <;> simp [entryInsert, same]

@[simp] theorem mem_entryInsert (map : ChildrenMap) (dir key : RepoPath)
    (maybeChild : Option RepoPathComponent) (child : RepoPathComponent) :
    child ∈ (entryInsert map dir maybeChild key).getD ∅ ↔
      (key = dir ∧ maybeChild = some child) ∨ child ∈ (map key).getD ∅ := by
  by_cases same : key = dir
  · subst same
    cases maybeChild <;> simp [entryInsert, eq_comm]
  · simp [entryInsert, same]

/-! ## The link invariant -/

/-- Every children set holds exactly the links to present directories. -/
def Linked (dirs : ChildrenMap) : Prop :=
  ∀ dir child, child ∈ (dirs dir).getD ∅ ↔ (dirs (dir.join child)).isSome

/-- The state of the `add_dir` loop at `dir`: the pending link from `dir` to `maybeChild`
points at a present directory, and every other link is exact. -/
structure LinkedExcept (dirs : ChildrenMap) (dir : RepoPath)
    (maybeChild : Option RepoPathComponent) : Prop where
  pending : ∀ child, maybeChild = some child → (dirs (dir.join child)).isSome
  linked : ∀ parent child, (parent = dir → maybeChild ≠ some child) →
    (child ∈ (dirs parent).getD ∅ ↔ (dirs (parent.join child)).isSome)

theorem Linked.linkedExcept {dirs : ChildrenMap} (linked : Linked dirs) (dir : RepoPath) :
    LinkedExcept dirs dir none :=
  ⟨by simp, fun parent child _ => linked parent child⟩

/-- Recording the pending link completes the link relation, whatever the new keys. -/
theorem LinkedExcept.mem_entryInsert {dirs : ChildrenMap} {dir : RepoPath}
    {maybeChild : Option RepoPathComponent} (state : LinkedExcept dirs dir maybeChild)
    (parent : RepoPath) (child : RepoPathComponent) :
    child ∈ (entryInsert dirs dir maybeChild parent).getD ∅ ↔
      (dirs (parent.join child)).isSome := by
  rw [Dirs.mem_entryInsert]
  by_cases recorded : parent = dir ∧ maybeChild = some child
  · obtain ⟨rfl, pending⟩ := recorded
    simp [pending, state.pending child pending]
  · simp only [recorded, false_or]
    exact state.linked parent child fun same => fun pending => recorded ⟨same, pending⟩

/-- Where every link but those below `dir` is exact, a present `dir` has all its ancestors
present. -/
private theorem present_of_startsWith {dirs : ChildrenMap} {dir : RepoPath}
    (closed : ∀ parent child, dir.StartsWith (parent.join child) →
      (dirs (parent.join child)).isSome → (dirs parent).isSome)
    (present : (dirs dir).isSome) (base : RepoPath) (starts : dir.StartsWith base) :
    (dirs base).isSome := by
  induction dir using RepoPath.induction_join with
  | root => rwa [(RepoPath.root_startsWith_iff base).mp starts]
  | join dir entry ih =>
    rcases (dir.join_startsWith_iff base entry).mp starts with rfl | starts
    · exact present
    · exact ih (fun parent child below => closed parent child
          ((RepoPath.join_startsWith_self dir entry).trans below))
        (closed dir entry (RepoPath.startsWith_refl _) present) starts

/-- One step up: once the pending link of `dir.join child` is recorded, every link is exact
but the one from `dir` to `child`. -/
theorem LinkedExcept.entryInsert_join {dirs : ChildrenMap} {dir : RepoPath}
    {child : RepoPathComponent} {maybeChild : Option RepoPathComponent}
    (state : LinkedExcept dirs (dir.join child) maybeChild) :
    LinkedExcept (entryInsert dirs (dir.join child) maybeChild) dir (some child) := by
  refine ⟨fun child' same => by simp_all, fun parent child' unlinked => ?_⟩
  rw [state.mem_entryInsert, entryInsert_isSome, RepoPath.join_inj]
  have : ¬(parent = dir ∧ child' = child) := fun ⟨same, named⟩ =>
    unlinked same (by rw [named])
  simp [this]

/-- A present directory ends the loop: its ancestors are present already, linked down to it. -/
private theorem linked_of_present {dirs : ChildrenMap} {dir : RepoPath}
    {maybeChild : Option RepoPathComponent} (state : LinkedExcept dirs dir maybeChild)
    (present : (dirs dir).isSome) :
    Linked (entryInsert dirs dir maybeChild) ∧
      ∀ key, (entryInsert dirs dir maybeChild key).isSome ↔
        (dirs key).isSome ∨ dir.StartsWith key := by
  have ancestors : ∀ key, dir.StartsWith key → (dirs key).isSome :=
    present_of_startsWith (fun parent child below linked =>
      isSome_of_mem_getD ((state.linked parent child fun same => absurd
        (same ▸ below).length_le (by simp)).mpr linked)) present
  have keys : ∀ key, (dirs key).isSome ∨ key = dir ↔ (dirs key).isSome := fun key =>
    ⟨fun found => found.elim id fun same => same ▸ present, .inl⟩
  refine ⟨fun parent child => ?_, fun key => ?_⟩
  · simp only [state.mem_entryInsert, entryInsert_isSome, keys]
  · simp only [entryInsert_isSome, keys]
    exact ⟨.inl, fun found => found.elim id (ancestors key)⟩

/-- At the root the loop records the pending link and stops. -/
private theorem linked_at_root {dirs : ChildrenMap} {maybeChild : Option RepoPathComponent}
    (state : LinkedExcept dirs RepoPath.root maybeChild) :
    Linked (entryInsert dirs RepoPath.root maybeChild) ∧
      ∀ key, (entryInsert dirs RepoPath.root maybeChild key).isSome ↔
        (dirs key).isSome ∨ RepoPath.root.StartsWith key :=
  ⟨fun parent child => by simp [state.mem_entryInsert], fun key => by simp⟩

/-- A non-root path with `steps + 1` components is a child of a path with `steps`. -/
private theorem eq_join_of_length_succ {dir : RepoPath} {steps : Nat}
    (length : dir.components.length = steps + 1) :
    ∃ (parent : RepoPath) (child : RepoPathComponent),
      dir = parent.join child ∧ parent.components.length = steps := by
  rcases dir.eq_root_or_join with rfl | ⟨parent, child, rfl⟩
  · simp at length
  · exact ⟨parent, child, rfl, by simpa using length⟩

/-- A turn that climbs from `parent.join child` to `parent` after recording the pending link
adds the keys of that link's directory to those the rest of the loop adds. -/
private theorem climb_turn {dirs result : ChildrenMap} {parent : RepoPath}
    {child : RepoPathComponent} {maybeChild : Option RepoPathComponent}
    (rest : Linked result ∧ ∀ key, (result key).isSome ↔
      (entryInsert dirs (parent.join child) maybeChild key).isSome ∨ parent.StartsWith key) :
    Linked result ∧
      ∀ key, (result key).isSome ↔ (dirs key).isSome ∨ (parent.join child).StartsWith key :=
  ⟨rest.1, fun key => by
    rw [rest.2, entryInsert_isSome, RepoPath.join_startsWith_iff]
    exact or_assoc⟩

/-- The `add_dir` loop ends with every link exact, having added exactly the ancestors of
the directory it started from. The early exit at a present directory relies on the exact
links above it. -/
theorem addDirLoop.climb_spec (steps : Nat) (dirs : ChildrenMap) (dir : RepoPath)
    (maybeChild : Option RepoPathComponent) (length : dir.components.length = steps)
    (state : LinkedExcept dirs dir maybeChild) :
    Linked (climb steps dirs dir maybeChild) ∧
      ∀ key, (climb steps dirs dir maybeChild key).isSome ↔
        (dirs key).isSome ∨ dir.StartsWith key := by
  induction steps generalizing dirs dir maybeChild with
  | zero =>
    obtain rfl : dir = RepoPath.root := RepoPath.ext (List.length_eq_zero.mp length)
    exact linked_at_root state
  | succ steps ih =>
    obtain ⟨parent, child, rfl, parentLength⟩ := eq_join_of_length_succ length
    by_cases present : (dirs (parent.join child)).isSome
    · simpa only [climb, present] using linked_of_present state present
    · simpa only [climb, present, RepoPath.split_join] using
        climb_turn (ih _ parent (some child) parentLength state.entryInsert_join)

theorem addDirLoop_spec (dirs : ChildrenMap) (dir : RepoPath)
    (maybeChild : Option RepoPathComponent) (state : LinkedExcept dirs dir maybeChild) :
    Linked (addDirLoop dirs dir maybeChild) ∧
      ∀ key, (addDirLoop dirs dir maybeChild key).isSome ↔
        (dirs key).isSome ∨ dir.StartsWith key :=
  addDirLoop.climb_spec _ dirs dir maybeChild rfl state

/-! ## The early exit -/

/-- The `add_dir` loop without its early exit: it links every directory on the way from
`dir` up to the root, whether present or not. -/
def addDirLoopToRoot (dirs : ChildrenMap) (dir : RepoPath)
    (maybeChild : Option RepoPathComponent) : ChildrenMap :=
  climb dir.components.length dirs dir maybeChild
where
  /-- The loop at `dir` with `steps` components left above it. -/
  climb : Nat → ChildrenMap → RepoPath → Option RepoPathComponent → ChildrenMap
    | 0, dirs, dir, maybeChild => entryInsert dirs dir maybeChild
    | steps + 1, dirs, dir, maybeChild =>
      let dirs := entryInsert dirs dir maybeChild
      match dir.split with
      | none => dirs
      | some (newDir, newChild) => climb steps dirs newDir (some newChild)

theorem addDirLoopToRoot.climb_spec (steps : Nat) (dirs : ChildrenMap) (dir : RepoPath)
    (maybeChild : Option RepoPathComponent) (length : dir.components.length = steps)
    (state : LinkedExcept dirs dir maybeChild) :
    Linked (climb steps dirs dir maybeChild) ∧
      ∀ key, (climb steps dirs dir maybeChild key).isSome ↔
        (dirs key).isSome ∨ dir.StartsWith key := by
  induction steps generalizing dirs dir maybeChild with
  | zero =>
    obtain rfl : dir = RepoPath.root := RepoPath.ext (List.length_eq_zero.mp length)
    exact linked_at_root state
  | succ steps ih =>
    obtain ⟨parent, child, rfl, parentLength⟩ := eq_join_of_length_succ length
    simpa only [climb, RepoPath.split_join] using
      climb_turn (ih _ parent (some child) parentLength state.entryInsert_join)

/-- A linked children map is determined by its keys: the children of a key are the names of
the keys one level below it. -/
theorem Linked.ext {dirs dirs' : ChildrenMap} (linked : Linked dirs) (linked' : Linked dirs')
    (keys : ∀ key, (dirs key).isSome ↔ (dirs' key).isSome) : dirs = dirs' := by
  funext key
  have children (child : RepoPathComponent) :
      child ∈ (dirs key).getD ∅ ↔ child ∈ (dirs' key).getD ∅ :=
    (linked key child).trans ((keys _).trans (linked' key child).symm)
  cases present : dirs key <;> cases present' : dirs' key
  · rfl
  · simpa [present, present'] using keys key
  · simpa [present, present'] using keys key
  · exact congrArg some (Finset.ext fun child => by simpa [present, present'] using children child)

/-- The early exit of `add_dir` at the first present directory changes nothing: from every
state of the loop, where every link but the pending one is exact, it builds the same map as
the loop that goes on up to the root. -/
theorem addDirLoop_eq_toRoot {dirs : ChildrenMap} {dir : RepoPath}
    {maybeChild : Option RepoPathComponent} (state : LinkedExcept dirs dir maybeChild) :
    addDirLoop dirs dir maybeChild = addDirLoopToRoot dirs dir maybeChild := by
  obtain ⟨linked, keys⟩ := addDirLoop_spec dirs dir maybeChild state
  obtain ⟨linked', keys'⟩ := addDirLoopToRoot.climb_spec _ dirs dir maybeChild rfl state
  exact linked.ext linked' fun key => (keys key).trans (keys' key).symm

theorem addDirLoop_eq_toRoot_sibling :
    LinkedExcept (addDirLoop new.dirs (RepoPath.fromComponents [⟨"a"⟩, ⟨"b"⟩]) none)
        (RepoPath.fromComponents [⟨"a"⟩, ⟨"c"⟩]) none ∧
      addDirLoop (addDirLoop new.dirs (RepoPath.fromComponents [⟨"a"⟩, ⟨"b"⟩]) none)
          (RepoPath.fromComponents [⟨"a"⟩, ⟨"c"⟩]) none =
        addDirLoopToRoot (addDirLoop new.dirs (RepoPath.fromComponents [⟨"a"⟩, ⟨"b"⟩]) none)
          (RepoPath.fromComponents [⟨"a"⟩, ⟨"c"⟩]) none :=
  have empty : Linked new.dirs := fun _ _ => by simp [new]
  have state := (addDirLoop_spec _ _ none (empty.linkedExcept _)).1.linkedExcept _
  ⟨state, addDirLoop_eq_toRoot state⟩

/-! ## What a `Dirs` stands for -/

/-- `state` stands for the directories `addedDirs` given to `add_dir` and the files
`addedFiles` given to `add_file`, each file as the parent and basename `add_file` splits
it into: its keys are the ancestors of the added directories and of the added files'
parents, its children sets are exactly the links between keys, and its file sets hold the
basenames of the added files. -/
structure Represents (state : Dirs) (addedDirs : Set RepoPath)
    (addedFiles : Set (RepoPath × RepoPathComponent)) : Prop where
  linked : Linked state.dirs
  isSome_dirs : ∀ key, (state.dirs key).isSome ↔
    (∃ dir ∈ addedDirs, dir.StartsWith key) ∨ ∃ file ∈ addedFiles, file.1.StartsWith key
  mem_getFiles : ∀ dir name, name ∈ state.getFiles dir ↔ (dir, name) ∈ addedFiles

theorem Represents.congr {state : Dirs} {addedDirs addedDirs' : Set RepoPath}
    {addedFiles addedFiles' : Set (RepoPath × RepoPathComponent)}
    (represents : state.Represents addedDirs addedFiles)
    (dirs : ∀ dir, dir ∈ addedDirs ↔ dir ∈ addedDirs')
    (files : ∀ file, file ∈ addedFiles ↔ file ∈ addedFiles') :
    state.Represents addedDirs' addedFiles' := by
  obtain rfl := Set.ext dirs
  obtain rfl := Set.ext files
  exact represents

theorem new_represents : new.Represents ∅ ∅ :=
  ⟨fun _ _ => by simp [new], fun _ => by simp [new], fun _ _ => by simp [new, getFiles]⟩

section Represents

variable {state : Dirs} {addedDirs : Set RepoPath}
  {addedFiles : Set (RepoPath × RepoPathComponent)}

theorem Represents.addDir (represents : state.Represents addedDirs addedFiles)
    (dir : RepoPath) : (state.addDir dir).Represents (insert dir addedDirs) addedFiles := by
  obtain ⟨linked, keys⟩ := addDirLoop_spec state.dirs dir none (represents.linked.linkedExcept dir)
  refine ⟨linked, fun key => ?_, represents.mem_getFiles⟩
  simp only [Dirs.addDir, keys, represents.isSome_dirs, Set.mem_insert_iff, exists_eq_or_imp]
  exact or_comm.trans or_assoc.symm

theorem Represents.addFile (represents : state.Represents addedDirs addedFiles)
    (dir : RepoPath) (basename : RepoPathComponent) :
    ∃ next, state.addFile (dir.join basename) = some next ∧
      next.Represents addedDirs (insert (dir, basename) addedFiles) := by
  obtain ⟨linked, keys⟩ := addDirLoop_spec state.dirs dir none (represents.linked.linkedExcept dir)
  refine ⟨_, addFile_join state dir basename, linked, fun key => ?_, fun parent name => ?_⟩
  · simp only [keys, represents.isSome_dirs, Set.mem_insert_iff, exists_eq_or_imp]
    exact or_assoc.trans (or_congr_right or_comm)
  · simp only [getFiles, mem_entryInsert, Set.mem_insert_iff, Prod.mk.injEq, Option.some_inj]
    rw [← getFiles, represents.mem_getFiles, @eq_comm _ basename name]

/-- A directory's children are the components leading to an added directory or strictly
towards an added file. -/
theorem Represents.mem_getDirs (represents : state.Represents addedDirs addedFiles)
    (dir : RepoPath) (name : RepoPathComponent) :
    name ∈ state.getDirs dir ↔
      (∃ added ∈ addedDirs, added.StartsWith (dir.join name)) ∨
        ∃ file ∈ addedFiles, file.1.StartsWith (dir.join name) :=
  (represents.linked dir name).trans (represents.isSome_dirs _)

/-- The queries of a `Dirs` depend only on what it stands for. -/
theorem Represents.getDirs_eq {state' : Dirs} (represents : state.Represents addedDirs addedFiles)
    (represents' : state'.Represents addedDirs addedFiles) :
    state.getDirs = state'.getDirs ∧ state.getFiles = state'.getFiles :=
  ⟨funext fun dir => Finset.ext fun name =>
      (represents.mem_getDirs dir name).trans (represents'.mem_getDirs dir name).symm,
    funext fun dir => Finset.ext fun name =>
      (represents.mem_getFiles dir name).trans (represents'.mem_getFiles dir name).symm⟩

end Represents

/-! ## Sequences of calls -/

/-- A call on a `Dirs`. A file is given as its parent and basename, so it is never the
root, on which `add_file` panics. -/
inductive Call where
  | addDir (dir : RepoPath)
  | addFile (dir : RepoPath) (basename : RepoPathComponent)
  deriving DecidableEq

def call (state : Dirs) : Call → Dirs
  | .addDir dir => state.addDir dir
  | .addFile dir basename =>
    (state.addFile (dir.join basename)).get (addFile_isSome state (by simp))

def run (state : Dirs) (calls : List Call) : Dirs := calls.foldl call state

section Represents

variable {state : Dirs} {addedDirs : Set RepoPath}
  {addedFiles : Set (RepoPath × RepoPathComponent)}

theorem Represents.call (represents : state.Represents addedDirs addedFiles) (next : Call) :
    (state.call next).Represents (addedDirs ∪ {dir | next = .addDir dir})
      (addedFiles ∪ {file | next = .addFile file.1 file.2}) := by
  cases next with
  | addDir dir =>
    refine (represents.addDir dir).congr (fun _ => ?_) (fun _ => ?_) <;> simp [or_comm]
  | addFile dir basename =>
    obtain ⟨next, added, nextRepresents⟩ := represents.addFile dir basename
    simp only [Dirs.call, added, Option.get_some]
    refine nextRepresents.congr (fun _ => ?_) (fun _ => ?_) <;> simp [Prod.ext_iff, or_comm, eq_comm]

/-- Every run keeps the meaning of a `Dirs` up to date with the paths its calls add. -/
theorem Represents.run (represents : state.Represents addedDirs addedFiles) (calls : List Call) :
    (state.run calls).Represents (addedDirs ∪ {dir | Call.addDir dir ∈ calls})
      (addedFiles ∪ {file | Call.addFile file.1 file.2 ∈ calls}) := by
  induction calls generalizing state addedDirs addedFiles with
  | nil => exact represents.congr (by simp) (by simp)
  | cons next calls ih =>
    refine (ih (represents.call next)).congr (fun _ => ?_) (fun _ => ?_) <;>
      simp [or_assoc, eq_comm]

example : (new.run [.addDir (RepoPath.fromComponents [⟨"dir"⟩, ⟨"sub"⟩]),
    .addFile (RepoPath.fromComponents [⟨"other"⟩]) ⟨"file"⟩]).getDirs RepoPath.root =
      {⟨"dir"⟩, ⟨"other"⟩} := by decide

end Represents

/-- From `Dirs::new()`, any sequence of `add_dir` and `add_file` calls leaves as keys
exactly the ancestors of the added directories and of the added files' parents, every
children set holding exactly the links to keys, and as files exactly the added basenames.
So `get_dirs` and `get_files` depend only on the paths added, whatever the order or
repetition of the calls. -/
theorem run_invariant (calls : List Call) :
    (∀ key, ((new.run calls).dirs key).isSome ↔
      (∃ dir, Call.addDir dir ∈ calls ∧ dir.StartsWith key) ∨
        ∃ dir basename, Call.addFile dir basename ∈ calls ∧ dir.StartsWith key) ∧
    (∀ dir name, name ∈ (new.run calls).getDirs dir ↔
      ((new.run calls).dirs (dir.join name)).isSome) ∧
    (∀ dir name, name ∈ (new.run calls).getFiles dir ↔ Call.addFile dir name ∈ calls) ∧
    ∀ other : List Call, (∀ dir, Call.addDir dir ∈ other ↔ Call.addDir dir ∈ calls) →
      (∀ dir basename, Call.addFile dir basename ∈ other ↔ Call.addFile dir basename ∈ calls) →
      (new.run other).getDirs = (new.run calls).getDirs ∧
        (new.run other).getFiles = (new.run calls).getFiles := by
  have represents := new_represents.run calls
  refine ⟨fun key => ?_, represents.linked, fun dir name => ?_, fun other dirs files => ?_⟩
  · simp [represents.isSome_dirs]
  · simp [represents.mem_getFiles]
  · refine (new_represents.run other).getDirs_eq (represents.congr (fun _ => ?_) fun _ => ?_)
    · simp [dirs]
    · simp [files]

/-! ## Canonical form -/

/-- Every file set present in the map is non-empty: `add_file` creates an entry only to
insert a basename into it. -/
def FilesNonempty (files : ChildrenMap) : Prop :=
  ∀ dir, (files dir).isSome → ((files dir).getD ∅).Nonempty

theorem FilesNonempty.entryInsert {files : ChildrenMap} (nonempty : FilesNonempty files)
    (dir : RepoPath) (basename : RepoPathComponent) :
    FilesNonempty (entryInsert files dir (some basename)) := by
  intro key present
  by_cases same : key = dir
  · exact ⟨basename, by simp [same]⟩
  · simpa [Dirs.entryInsert, same] using nonempty key (by simpa [same] using present)

theorem FilesNonempty.run {state : Dirs} (nonempty : FilesNonempty state.files)
    (calls : List Call) : FilesNonempty (state.run calls).files := by
  induction calls generalizing state with
  | nil => exact nonempty
  | cons next calls ih =>
    refine ih ?_
    cases next with
    | addDir dir => exact nonempty
    | addFile dir basename =>
      simpa only [Dirs.call, addFile_join, Option.get_some] using nonempty.entryInsert dir basename

theorem FilesNonempty.isSome_iff {files : ChildrenMap} (nonempty : FilesNonempty files)
    (dir : RepoPath) : (files dir).isSome ↔ ((files dir).getD ∅).Nonempty :=
  ⟨nonempty dir, fun ⟨_, member⟩ => isSome_of_mem_getD member⟩

/-- A file map whose present sets are non-empty is determined by its `get_files`. -/
theorem FilesNonempty.ext {files files' : ChildrenMap} (nonempty : FilesNonempty files)
    (nonempty' : FilesNonempty files') (same : ∀ dir, (files dir).getD ∅ = (files' dir).getD ∅) :
    files = files' := by
  funext dir
  have keys : (files dir).isSome ↔ (files' dir).isSome := by
    rw [nonempty.isSome_iff, nonempty'.isSome_iff, same]
  have children := same dir
  cases present : files dir <;> cases present' : files' dir
  · rfl
  · simp [present, present'] at keys
  · simp [present, present'] at keys
  · simpa [present, present'] using children

/-- Two states standing for the same paths, with no empty file set, are equal. -/
theorem Represents.unique {state state' : Dirs} {addedDirs : Set RepoPath}
    {addedFiles : Set (RepoPath × RepoPathComponent)}
    (represents : state.Represents addedDirs addedFiles)
    (represents' : state'.Represents addedDirs addedFiles)
    (nonempty : FilesNonempty state.files) (nonempty' : FilesNonempty state'.files) :
    state = state' := by
  have sameFiles := (represents.getDirs_eq represents').2
  cases state
  cases state'
  congr
  · exact represents.linked.ext represents'.linked fun key =>
      (represents.isSome_dirs key).trans (represents'.isSome_dirs key).symm
  · exact nonempty.ext nonempty' (congrFun sameFiles)

/-- A `Dirs` built from `Dirs::new()` is determined by the paths its calls add: two sequences
of calls adding the same directories and files, in any order and with any repetition, build
equal values, as the derived `PartialEq` compares them. -/
theorem run_eq_of_same_paths (calls other : List Call)
    (dirs : ∀ dir, Call.addDir dir ∈ other ↔ Call.addDir dir ∈ calls)
    (files : ∀ dir basename,
      Call.addFile dir basename ∈ other ↔ Call.addFile dir basename ∈ calls) :
    new.run other = new.run calls := by
  have nonempty : FilesNonempty new.files := fun _ present => by simp [new] at present
  refine ((new_represents.run other).congr (fun _ => ?_) fun _ => ?_).unique
    (new_represents.run calls) (nonempty.run other) (nonempty.run calls)
  · simp [dirs]
  · simp [files]

theorem run_eq_of_same_paths_reordered :
    let calls := [Call.addDir (RepoPath.fromComponents [⟨"a"⟩]),
      Call.addFile (RepoPath.fromComponents [⟨"a"⟩, ⟨"b"⟩]) ⟨"f"⟩]
    let other := [Call.addFile (RepoPath.fromComponents [⟨"a"⟩, ⟨"b"⟩]) ⟨"f"⟩,
      Call.addDir (RepoPath.fromComponents [⟨"a"⟩]), Call.addDir (RepoPath.fromComponents [⟨"a"⟩])]
    (∀ dir, Call.addDir dir ∈ other ↔ Call.addDir dir ∈ calls) ∧
      (∀ dir basename, Call.addFile dir basename ∈ other ↔ Call.addFile dir basename ∈ calls) ∧
      new.run other = new.run calls :=
  ⟨fun dir => by simp, fun dir basename => by simp,
    run_eq_of_same_paths _ _ (fun dir => by simp) fun dir basename => by simp⟩

end Dirs

end Jujutsu
