import Mathlib.Data.List.Sort
import Jujutsu.Matchers.Basic
import Jujutsu.Matchers.Dirs

/-!
# `PrefixMatcher`

Matches every path under one of a list of prefixes. `PrefixMatcher::new` collects the
prefixes into a `BTreeSet` and adds each one to a `Dirs` as a directory and, off the root,
as a file. `visit` answers `AllRecursively` inside a matched directory, and otherwise the
children leading towards a prefix and the prefixes directly inside the directory.
-/

set_option autoImplicit false

namespace Jujutsu

structure PrefixMatcher where
  prefixes : Finset RepoPath
  dirs : Dirs

namespace PrefixMatcher

/-- The body of the loop of `PrefixMatcher::new`. The `is_root` check excludes the one
path on which `add_file` panics, so the `get` below never fails. -/
def addToDirs (dirs : Dirs) (path : RepoPath) : Dirs :=
  let dirs := dirs.addDir path
  if atRoot : path.isRoot then dirs else (dirs.addFile path).get (dirs.addFile_isSome atRoot)

/-- `PrefixMatcher::new`: the prefixes collected into a `BTreeSet`, whose iteration yields
each of them once, in ascending order. -/
def new (prefixes : List RepoPath) : PrefixMatcher :=
  let dirs := (prefixes.dedup.insertionSort (· ≤ ·)).foldl addToDirs Dirs.new
  ⟨prefixes.toFinset, dirs⟩

/-- Whether one of the paths of the first `i` components of `file`, for `i` from `0` to its
length, is a prefix. -/
def «matches» (self : PrefixMatcher) (file : RepoPath) : Bool :=
  let components := file.components
  (List.range (components.length + 1)).any fun i =>
    decide (RepoPath.fromComponents (components.take i) ∈ self.prefixes)

def visit (self : PrefixMatcher) (dir : RepoPath) : Visit :=
  if self.matches dir then .allRecursively
  else
    let dirs := self.dirs.getDirs dir
    let files := self.dirs.getFiles dir
    .some (.set dirs) (.set files)

def toMatcher (self : PrefixMatcher) : Matcher := ⟨self.matches, self.visit⟩

@[simp] theorem new_prefixes (prefixes : List RepoPath) :
    (new prefixes).prefixes = prefixes.toFinset := rfl

/-- `matches` decides whether some prefix is an ancestor of the file, or the file itself. -/
theorem matches_iff (self : PrefixMatcher) (file : RepoPath) :
    self.matches file = true ↔ ∃ path ∈ self.prefixes, file.StartsWith path := by
  simp only [PrefixMatcher.matches, List.any_eq_true, List.mem_range, decide_eq_true_eq,
    RepoPath.startsWith_iff_exists_take]
  constructor
  · rintro ⟨i, bound, member⟩
    exact ⟨_, member, i, bound, rfl⟩
  · rintro ⟨path, member, i, bound, rfl⟩
    exact ⟨i, bound, member⟩

/-- A prefix on the way to the child of an unmatched directory is that child. -/
theorem eq_join_of_unmatched {self : PrefixMatcher} {dir path : RepoPath}
    {name : RepoPathComponent} (unmatched : self.matches dir = false)
    (member : path ∈ self.prefixes) (starts : (dir.join name).StartsWith path) :
    path = dir.join name :=
  ((dir.join_startsWith_iff path name).mp starts).resolve_right fun above => by
    simpa [unmatched] using (matches_iff self dir).mpr ⟨path, member, above⟩

/-- A prefix above a path through the child `name` of an unmatched directory lies at or
below that child. -/
theorem startsWith_join_of_unmatched {self : PrefixMatcher} {dir path base : RepoPath}
    {name : RepoPathComponent} (unmatched : self.matches dir = false)
    (member : base ∈ self.prefixes) (starts : path.StartsWith base)
    (through : path.StartsWith (dir.join name)) : base.StartsWith (dir.join name) := by
  rcases starts.total through with below | above
  · exact below
  · rw [eq_join_of_unmatched unmatched member above]
    exact RepoPath.startsWith_refl _

theorem visit_eq_allRecursively_iff (self : PrefixMatcher) (dir : RepoPath) :
    self.visit dir = .allRecursively ↔ self.matches dir = true := by
  cases matched : self.matches dir <;> simp [visit, matched]

theorem visit_of_unmatched {self : PrefixMatcher} {dir : RepoPath}
    (unmatched : self.matches dir = false) :
    self.visit dir = .some (.set (self.dirs.getDirs dir)) (.set (self.dirs.getFiles dir)) := by
  simp [visit, unmatched]

/-- Inside a matched directory every subdirectory is matched too, so a traversal that
stops asking `visit` there loses nothing. -/
theorem visit_join_of_allRecursively (self : PrefixMatcher) {dir : RepoPath}
    (matched : self.visit dir = .allRecursively) (name : RepoPathComponent) :
    self.visit (dir.join name) = .allRecursively := by
  rw [visit_eq_allRecursively_iff, matches_iff] at matched ⊢
  obtain ⟨path, member, starts⟩ := matched
  exact ⟨path, member, (RepoPath.join_startsWith_self dir name).trans starts⟩

theorem visit_join_of_allRecursively_foo :
    (new [RepoPath.fromComponents [⟨"foo"⟩]]).visit (RepoPath.fromComponents [⟨"foo"⟩]) =
        .allRecursively ∧
      (new [RepoPath.fromComponents [⟨"foo"⟩]]).visit
          ((RepoPath.fromComponents [⟨"foo"⟩]).join ⟨"bar"⟩) = .allRecursively :=
  ⟨by decide, visit_join_of_allRecursively _ (by decide) _⟩

theorem visit_eq_some {self : PrefixMatcher} {dir : RepoPath} {dirs : VisitDirs}
    {files : VisitFiles} (visited : self.visit dir = .some dirs files) :
    self.matches dir = false ∧ dirs = .set (self.dirs.getDirs dir) ∧
      files = .set (self.dirs.getFiles dir) := by
  cases matched : self.matches dir
  · simp only [visit, matched, Bool.false_eq_true, ↓reduceIte, Visit.some.injEq] at visited
    exact ⟨rfl, visited.1.symm, visited.2.symm⟩
  · simp [visit, matched] at visited

/-! ## The `Dirs` of a `PrefixMatcher` -/

/-- What `new` establishes: the `Dirs` stands for every prefix added as a directory and
every prefix but the root, split into parent and basename, added as a file. -/
def WellFormed (self : PrefixMatcher) : Prop :=
  self.dirs.Represents {path | path ∈ self.prefixes} {file | file.1.join file.2 ∈ self.prefixes}

theorem represents_addToDirs {state : Dirs} {addedDirs : Set RepoPath}
    {addedFiles : Set (RepoPath × RepoPathComponent)}
    (represents : state.Represents addedDirs addedFiles) (path : RepoPath) :
    (addToDirs state path).Represents (insert path addedDirs)
      {file | file ∈ addedFiles ∨ file.1.join file.2 = path} := by
  rcases path.eq_root_or_join with rfl | ⟨dir, basename, rfl⟩
  · exact (represents.addDir _).congr (fun _ => .rfl) (by simp)
  · obtain ⟨next, added, nextRepresents⟩ :=
      (represents.addDir (dir.join basename)).addFile dir basename
    simp only [addToDirs, RepoPath.isRoot_iff, RepoPath.join_ne_root, dite_false, added,
      Option.get_some]
    exact nextRepresents.congr (fun _ => .rfl) (by simp [Prod.ext_iff, or_comm])

private theorem represents_foldl {state : Dirs} {addedDirs : Set RepoPath}
    {addedFiles : Set (RepoPath × RepoPathComponent)}
    (represents : state.Represents addedDirs addedFiles) (paths : List RepoPath) :
    (paths.foldl addToDirs state).Represents (addedDirs ∪ {path | path ∈ paths})
      (addedFiles ∪ {file | file.1.join file.2 ∈ paths}) := by
  induction paths generalizing state addedDirs addedFiles with
  | nil => exact represents.congr (by simp) (by simp)
  | cons path paths ih =>
    refine (ih (represents_addToDirs represents path)).congr (fun _ => ?_) (fun _ => ?_) <;>
      simp [or_assoc, or_left_comm]

theorem new_wellFormed (prefixes : List RepoPath) : (new prefixes).WellFormed :=
  (represents_foldl Dirs.new_represents _).congr (by simp) (by simp)

private theorem filesNonempty_foldl {state : Dirs} (nonempty : Dirs.FilesNonempty state.files)
    (paths : List RepoPath) : Dirs.FilesNonempty (paths.foldl addToDirs state).files := by
  induction paths generalizing state with
  | nil => exact nonempty
  | cons path paths ih =>
    refine ih ?_
    rcases path.eq_root_or_join with rfl | ⟨dir, basename, rfl⟩
    · exact nonempty
    · simpa [addToDirs] using nonempty.entryInsert dir basename

/-- The `BTreeSet` of `new` only fixes the order in which the prefixes reach the `Dirs`, and
drops repeats; neither matters: adding the prefixes in any order, repeats included, builds
the same `Dirs`. -/
theorem new_dirs_eq_foldl (prefixes paths : List RepoPath)
    (same : ∀ path, path ∈ paths ↔ path ∈ prefixes) :
    (new prefixes).dirs = paths.foldl addToDirs Dirs.new := by
  have nonempty : Dirs.FilesNonempty Dirs.new.files := fun _ present => by
    simp [Dirs.new] at present
  refine Dirs.Represents.unique (new_wellFormed prefixes)
    ((represents_foldl Dirs.new_represents paths).congr (fun _ => ?_) fun _ => ?_)
    (filesNonempty_foldl nonempty _) (filesNonempty_foldl nonempty paths)
  · simp [same]
  · simp [same]

theorem new_dirs_eq_foldl_unsorted :
    let prefixes := [RepoPath.fromComponents [⟨"a"⟩], RepoPath.fromComponents [⟨"b"⟩]]
    let paths := [RepoPath.fromComponents [⟨"b"⟩], RepoPath.fromComponents [⟨"a"⟩],
      RepoPath.fromComponents [⟨"b"⟩]]
    (∀ path, path ∈ paths ↔ path ∈ prefixes) ∧
      (new prefixes).dirs = paths.foldl addToDirs Dirs.new :=
  have same : ∀ path, path ∈ [RepoPath.fromComponents [⟨"b"⟩], RepoPath.fromComponents [⟨"a"⟩],
      RepoPath.fromComponents [⟨"b"⟩]] ↔
      path ∈ [RepoPath.fromComponents [⟨"a"⟩], RepoPath.fromComponents [⟨"b"⟩]] := fun path => by
    simp only [List.mem_cons, List.mem_singleton, List.not_mem_nil, or_false]
    tauto
  ⟨same, new_dirs_eq_foldl _ _ same⟩

section WellFormed

variable {self : PrefixMatcher} (wellFormed : self.WellFormed)
include wellFormed

/-- A directory's listed children lead to a prefix. -/
theorem WellFormed.mem_getDirs (dir : RepoPath) (name : RepoPathComponent) :
    name ∈ self.dirs.getDirs dir ↔ ∃ path ∈ self.prefixes, path.StartsWith (dir.join name) := by
  rw [Dirs.Represents.mem_getDirs wellFormed]
  constructor
  · rintro (found | ⟨⟨parent, basename⟩, member, starts⟩)
    · exact found
    · exact ⟨_, member, (RepoPath.join_startsWith_self parent basename).trans starts⟩
  · exact .inl

/-- A directory's listed files are the prefixes directly inside it. -/
theorem WellFormed.mem_getFiles (dir : RepoPath) (name : RepoPathComponent) :
    name ∈ self.dirs.getFiles dir ↔ dir.join name ∈ self.prefixes := by
  rw [Dirs.Represents.mem_getFiles wellFormed]
  simp

/-- Every `visit` result of a well-formed `PrefixMatcher` keeps the promise that the
matcher-correctness walk relies on. -/
theorem WellFormed.visitSound : self.toMatcher.VisitSound := fun dir =>
  show Matcher.HintSound _ _ _ from {
  allRecursively := fun visited name rest => by
    obtain ⟨path, member, starts⟩ :=
      (matches_iff self dir).mp ((visit_eq_allRecursively_iff self dir).mp visited)
    refine (matches_iff self _).mpr ⟨path, member, ?_⟩
    exact List.IsPrefix.trans starts (List.prefix_append _ _)
  files := fun dirs files visited name => by
    obtain ⟨unmatched, -, rfl⟩ := visit_eq_some visited
    rw [Bool.eq_iff_iff, VisitFiles.contains_set, decide_eq_true_eq, wellFormed.mem_getFiles]
    refine ⟨fun member => (matches_iff self _).mpr ⟨_, member, RepoPath.startsWith_refl _⟩,
      fun matched => ?_⟩
    obtain ⟨path, member, starts⟩ := (matches_iff self _).mp matched
    rwa [← eq_join_of_unmatched unmatched member starts]
  dirs := fun dirs files visited name next rest matched => by
    obtain ⟨unmatched, rfl, -⟩ := visit_eq_some visited
    rw [VisitDirs.contains_set, decide_eq_true_eq, wellFormed.mem_getDirs]
    obtain ⟨path, member, starts⟩ := (matches_iff self _).mp matched
    have through : (⟨dir.components ++ name :: next :: rest⟩ : RepoPath).StartsWith
        (dir.join name) := by
      simp [RepoPath.StartsWith]
    exact ⟨path, member, startsWith_join_of_unmatched unmatched member starts through⟩ }

end WellFormed

/-! ## Dropping a nested prefix -/

/-- Dropping every copy of `inner` keeps a prefix with some property whenever `outer`, which
stays, inherits the property from `inner`. -/
private theorem exists_filter_ne_iff {prefixes : List RepoPath} {inner outer : RepoPath}
    (property : RepoPath → Prop) (outerMember : outer ∈ prefixes) (different : outer ≠ inner)
    (inherits : property inner → property outer) :
    (∃ base ∈ prefixes, property base) ↔
      ∃ base ∈ prefixes.filter (· ≠ inner), property base := by
  simp only [List.mem_filter, decide_eq_true_eq]
  refine ⟨fun ⟨base, member, holds⟩ => ?_, fun ⟨base, ⟨member, _⟩, holds⟩ =>
    ⟨base, member, holds⟩⟩
  by_cases same : base = inner
  · exact ⟨outer, ⟨outerMember, different⟩, inherits (same ▸ holds)⟩
  · exact ⟨base, ⟨member, same⟩, holds⟩

/-! ## The matcher built from a list of prefixes -/

/-- Walking down guided by `visit` admits a path exactly when `matches` accepts it. -/
theorem walk_admits_iff_matches (prefixes : List RepoPath) (path : RepoPath)
    (nonRoot : path ≠ RepoPath.root) :
    (new prefixes).toMatcher.walk path = (new prefixes).matches path :=
  (new_wellFormed prefixes).visitSound.walk_eq_matches path nonRoot

theorem walk_admits_iff_matches_below :
    RepoPath.fromComponents [⟨"foo"⟩, ⟨"bar"⟩, ⟨"baz"⟩] ≠ RepoPath.root ∧
      (new [RepoPath.fromComponents [⟨"foo"⟩, ⟨"bar"⟩]]).toMatcher.walk
          (RepoPath.fromComponents [⟨"foo"⟩, ⟨"bar"⟩, ⟨"baz"⟩]) =
        (new [RepoPath.fromComponents [⟨"foo"⟩, ⟨"bar"⟩]]).matches
          (RepoPath.fromComponents [⟨"foo"⟩, ⟨"bar"⟩, ⟨"baz"⟩]) :=
  ⟨by decide, walk_admits_iff_matches _ _ (by decide)⟩

/-- `visit` is `AllRecursively` exactly at the directories under a prefix; elsewhere it lists
the children leading to a prefix and the prefixes directly inside the directory, so a
prefix other than the root appears both as a directory and as a file of its parent. -/
theorem visit_matches_reference (prefixes : List RepoPath) (dir : RepoPath) :
    ((∃ base ∈ prefixes, dir.StartsWith base) ∧ (new prefixes).visit dir = .allRecursively) ∨
      ((¬∃ base ∈ prefixes, dir.StartsWith base) ∧
        ∃ dirs files : Finset RepoPathComponent,
          (new prefixes).visit dir = .some (.set dirs) (.set files) ∧
          (∀ name, name ∈ dirs ↔ ∃ base ∈ prefixes, base.StartsWith (dir.join name)) ∧
          (∀ name, name ∈ files ↔ dir.join name ∈ prefixes)) := by
  have wellFormed := new_wellFormed prefixes
  have matchedIff := matches_iff (new prefixes) dir
  simp only [new_prefixes, List.mem_toFinset] at matchedIff
  cases matched : (new prefixes).matches dir
  · refine .inr ⟨by simpa [matched] using matchedIff, _, _, visit_of_unmatched matched,
      fun name => ?_, fun name => ?_⟩
    · simp [wellFormed.mem_getDirs]
    · simp [wellFormed.mem_getFiles]
  · exact .inl ⟨matchedIff.mp matched, (visit_eq_allRecursively_iff _ _).mpr matched⟩

example : (new [RepoPath.fromComponents [⟨"dir"⟩, ⟨"sub"⟩]]).visit
    (RepoPath.fromComponents [⟨"dir"⟩]) = .some (.set {⟨"sub"⟩}) (.set {⟨"sub"⟩}) := by decide

/-- `matches` accepts a path exactly when some prefix is the path or one of its ancestors,
the root included. -/
theorem matches_iff_exists_ancestor (prefixes : List RepoPath) (path : RepoPath) :
    (new prefixes).matches path = true ↔ ∃ base ∈ prefixes, path.StartsWith base := by
  simp [matches_iff]

/-- A prefix below another prefix changes nothing: dropping every copy of it leaves
`matches` and `visit` unchanged everywhere. -/
theorem erase_nested_agrees (prefixes : List RepoPath) (inner : RepoPath)
    (nested : ∃ outer ∈ prefixes, inner.StartsWith outer ∧ outer ≠ inner) :
    (∀ path, (new prefixes).matches path = (new (prefixes.filter (· ≠ inner))).matches path) ∧
      ∀ dir, (new prefixes).visit dir = (new (prefixes.filter (· ≠ inner))).visit dir := by
  obtain ⟨outer, outerMember, inside, different⟩ := nested
  have outerPrefix : outer ∈ (new prefixes).prefixes := by simpa using outerMember
  have sameMatches : ∀ path,
      (new prefixes).matches path = (new (prefixes.filter (· ≠ inner))).matches path := by
    intro path
    rw [Bool.eq_iff_iff]
    simpa [matches_iff] using exists_filter_ne_iff (path.StartsWith ·) outerMember different
      (·.trans inside)
  refine ⟨sameMatches, fun dir => ?_⟩
  have keptMatched := sameMatches dir
  cases matched : (new prefixes).matches dir
  · rw [visit_of_unmatched matched, visit_of_unmatched (matched ▸ keptMatched).symm]
    have below (name : RepoPathComponent) (through : inner.StartsWith (dir.join name)) :
        outer.StartsWith (dir.join name) :=
      startsWith_join_of_unmatched matched outerPrefix inside through
    congr 2 <;> ext name
    · simpa [(new_wellFormed _).mem_getDirs] using exists_filter_ne_iff
        (·.StartsWith (dir.join name)) outerMember different (below name)
    · simpa [(new_wellFormed _).mem_getFiles] using exists_filter_ne_iff
        (· = dir.join name) outerMember different fun same =>
          (below name (same ▸ RepoPath.startsWith_refl _)).antisymm (same ▸ inside)
  · rw [(visit_eq_allRecursively_iff _ _).mpr matched,
      (visit_eq_allRecursively_iff _ _).mpr (matched ▸ keptMatched).symm]

theorem erase_nested_agrees_foo :
    (∃ outer ∈ [RepoPath.fromComponents [⟨"foo"⟩],
          RepoPath.fromComponents [⟨"foo"⟩, ⟨"bar"⟩, ⟨"baz"⟩]],
        (RepoPath.fromComponents [⟨"foo"⟩, ⟨"bar"⟩, ⟨"baz"⟩]).StartsWith outer ∧
          outer ≠ RepoPath.fromComponents [⟨"foo"⟩, ⟨"bar"⟩, ⟨"baz"⟩]) ∧
      (∀ path, (new [RepoPath.fromComponents [⟨"foo"⟩],
          RepoPath.fromComponents [⟨"foo"⟩, ⟨"bar"⟩, ⟨"baz"⟩]]).matches path =
        (new ([RepoPath.fromComponents [⟨"foo"⟩],
          RepoPath.fromComponents [⟨"foo"⟩, ⟨"bar"⟩, ⟨"baz"⟩]].filter
            (· ≠ RepoPath.fromComponents [⟨"foo"⟩, ⟨"bar"⟩, ⟨"baz"⟩]))).matches path) ∧
      ∀ dir, (new [RepoPath.fromComponents [⟨"foo"⟩],
          RepoPath.fromComponents [⟨"foo"⟩, ⟨"bar"⟩, ⟨"baz"⟩]]).visit dir =
        (new ([RepoPath.fromComponents [⟨"foo"⟩],
          RepoPath.fromComponents [⟨"foo"⟩, ⟨"bar"⟩, ⟨"baz"⟩]].filter
            (· ≠ RepoPath.fromComponents [⟨"foo"⟩, ⟨"bar"⟩, ⟨"baz"⟩]))).visit dir :=
  ⟨by decide, erase_nested_agrees _ _ (by decide)⟩

end PrefixMatcher

end Jujutsu
