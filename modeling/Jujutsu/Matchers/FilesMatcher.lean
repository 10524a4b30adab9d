import Jujutsu.Matchers.Basic
import Jujutsu.Matchers.Dirs

/-!
# `FilesMatcher`

Matches exactly the files of a set. `FilesMatcher::new` adds every file to a `Dirs`, so
`visit` lists the subdirectories on the way to a listed file and the basenames of the
listed files in the directory. The set is a `HashSet`, iterated in an unspecified order: it
is given here as the sequence its iterator yields, and every result holds for every
sequence.
-/

set_option autoImplicit false

namespace Jujutsu

structure FilesMatcher where
  files : Finset RepoPath
  dirs : Dirs

namespace FilesMatcher

/-- `FilesMatcher::new`; `none` when `add_file` panics on the root. -/
def new (files : List RepoPath) : Option FilesMatcher := do
  let dirs ← files.foldlM (fun dirs file => dirs.addFile file) Dirs.new
  pure ⟨files.toFinset, dirs⟩

def «matches» (self : FilesMatcher) (file : RepoPath) : Bool := decide (file ∈ self.files)

def visit (self : FilesMatcher) (dir : RepoPath) : Visit :=
  let dirs := self.dirs.getDirs dir
  let files := self.dirs.getFiles dir
  .some (.set dirs) (.set files)

def toMatcher (self : FilesMatcher) : Matcher := ⟨self.matches, self.visit⟩

/-- What `new` establishes: the `Dirs` stands for the listed files. -/
def WellFormed (self : FilesMatcher) : Prop :=
  self.dirs.Represents ∅ {file | file.1.join file.2 ∈ self.files}

private theorem foldlM_addFile {state : Dirs} {addedFiles : Set (RepoPath × RepoPathComponent)}
    (represents : state.Represents ∅ addedFiles) (files : List RepoPath)
    (nonRoot : ∀ file ∈ files, file ≠ RepoPath.root) :
    ∃ final, files.foldlM (fun dirs file => dirs.addFile file) state = some final ∧
      final.Represents ∅ (addedFiles ∪ {file | file.1.join file.2 ∈ files}) := by
  induction files generalizing state addedFiles with
  | nil => exact ⟨state, rfl, represents.congr (by simp) (by simp)⟩
  | cons file files ih =>
    obtain ⟨dir, basename, rfl⟩ :=
      (file.eq_root_or_join).resolve_left (nonRoot file (List.mem_cons_self _ _))
    obtain ⟨next, added, nextRepresents⟩ := represents.addFile dir basename
    obtain ⟨final, folded, finalRepresents⟩ :=
      ih nextRepresents fun file member => nonRoot file (List.mem_cons_of_mem _ member)
    refine ⟨final, by simp [List.foldlM_cons, added, folded], ?_⟩
    exact finalRepresents.congr (by simp) (fun file => by simp [Prod.ext_iff, or_assoc, or_left_comm])

/-- `new` succeeds on files that are not the root, and its `Dirs` stands for them. -/
theorem new_eq_some (files : List RepoPath) (nonRoot : ∀ file ∈ files, file ≠ RepoPath.root) :
    ∃ self, new files = some self ∧ self.files = files.toFinset ∧ self.WellFormed := by
  obtain ⟨dirs, folded, represents⟩ := foldlM_addFile Dirs.new_represents files nonRoot
  refine ⟨⟨files.toFinset, dirs⟩, by simp [new, folded], rfl, ?_⟩
  exact represents.congr (by simp) (by simp)

private theorem foldlM_addFile_eq_none (state : Dirs) (files : List RepoPath) :
    files.foldlM (fun dirs file => dirs.addFile file) state = none ↔ RepoPath.root ∈ files := by
  induction files generalizing state with
  | nil => simp
  | cons file files ih =>
    rcases file.eq_root_or_join with rfl | ⟨dir, basename, rfl⟩
    · simp [List.foldlM_cons]
    · simp [List.foldlM_cons, ih]

/-- `new` panics exactly when the root is among the files, in whatever order it reads them. -/
theorem new_eq_none_iff (files : List RepoPath) : new files = none ↔ RepoPath.root ∈ files := by
  rw [← foldlM_addFile_eq_none Dirs.new files]
  cases folded : files.foldlM (fun dirs file => dirs.addFile file) Dirs.new <;> simp [new, folded]

section WellFormed

variable {self : FilesMatcher} (wellFormed : self.WellFormed)
include wellFormed

theorem WellFormed.mem_getFiles (dir : RepoPath) (name : RepoPathComponent) :
    name ∈ self.dirs.getFiles dir ↔ dir.join name ∈ self.files :=
  Dirs.Represents.mem_getFiles wellFormed dir name

/-- The listed subdirectories lead strictly towards a listed file. -/
theorem WellFormed.mem_getDirs (dir : RepoPath) (name : RepoPathComponent) :
    name ∈ self.dirs.getDirs dir ↔
      ∃ file ∈ self.files, file.StartsWith (dir.join name) ∧ file ≠ dir.join name := by
  rw [Dirs.Represents.mem_getDirs wellFormed]
  simp only [Set.mem_empty_iff_false, false_and, exists_false, false_or, Set.mem_setOf_eq]
  constructor
  · rintro ⟨⟨parent, basename⟩, listed, starts⟩
    exact ⟨_, listed, (RepoPath.startsWith_and_ne_iff _ _).mpr ⟨parent, basename, rfl, starts⟩⟩
  · rintro ⟨file, listed, strict⟩
    obtain ⟨parent, basename, rfl, starts⟩ := (RepoPath.startsWith_and_ne_iff _ _).mp strict
    exact ⟨(parent, basename), listed, starts⟩

/-- Every `visit` result of a well-formed `FilesMatcher` keeps the promise that the
matcher-correctness walk relies on. -/
theorem WellFormed.visitSound : self.toMatcher.VisitSound := fun dir => show Matcher.HintSound _ _ _ from {
  allRecursively := fun visited => by simp [toMatcher, visit] at visited
  files := fun dirs files visited name => by
    simp only [toMatcher, visit, Visit.some.injEq] at visited
    simp [← visited.2, wellFormed.mem_getFiles, toMatcher, FilesMatcher.matches]
  dirs := fun dirs files visited name next rest matched => by
    simp only [toMatcher, visit, Visit.some.injEq] at visited
    simp only [← visited.1, VisitDirs.contains_set, decide_eq_true_eq, wellFormed.mem_getDirs]
    refine ⟨_, by simpa [toMatcher, FilesMatcher.matches] using matched, ?_, ?_⟩
    · simp [RepoPath.StartsWith]
    · simp [RepoPath.ext_iff] }

end WellFormed

/-! ## The matcher built from a set of files -/

/-- Walking down guided by `visit` admits exactly the listed files, which are exactly the
files `matches` accepts: no traversal pruned by `visit` skips a listed file or admits an
unlisted one. -/
theorem walk_admits_iff_mem (files : List RepoPath)
    (nonRoot : ∀ file ∈ files, file ≠ RepoPath.root) :
    ∃ matcher, new files = some matcher ∧ ∀ path, path ≠ RepoPath.root →
      (matcher.toMatcher.walk path = true ↔ path ∈ files) ∧
        (matcher.matches path = true ↔ path ∈ files) := by
  obtain ⟨matcher, built, listed, wellFormed⟩ := new_eq_some files nonRoot
  refine ⟨matcher, built, fun path nonRootPath => ?_⟩
  have accepts : matcher.matches path = true ↔ path ∈ files := by
    simp [FilesMatcher.matches, listed]
  exact ⟨by rw [wellFormed.visitSound.walk_eq_matches path nonRootPath]; exact accepts, accepts⟩

theorem walk_admits_iff_mem_single :
    (∀ file ∈ [RepoPath.fromComponents [⟨"dir"⟩, ⟨"file"⟩]], file ≠ RepoPath.root) ∧
    ∃ matcher, new [RepoPath.fromComponents [⟨"dir"⟩, ⟨"file"⟩]] = some matcher ∧
      ∀ path, path ≠ RepoPath.root →
        (matcher.toMatcher.walk path = true ↔ path ∈ [RepoPath.fromComponents [⟨"dir"⟩, ⟨"file"⟩]]) ∧
          (matcher.matches path = true ↔ path ∈ [RepoPath.fromComponents [⟨"dir"⟩, ⟨"file"⟩]]) :=
  ⟨by decide, walk_admits_iff_mem _ (by decide)⟩

/-- `visit` is never `AllRecursively`; it lists the subdirectories of `dir` holding a listed
file and the basenames of the listed files directly in `dir`, no more and no fewer. -/
theorem visit_reference (files : List RepoPath)
    (nonRoot : ∀ file ∈ files, file ≠ RepoPath.root) :
    ∃ matcher, new files = some matcher ∧ ∀ dir, ∃ dirs names : Finset RepoPathComponent,
      matcher.visit dir = .some (.set dirs) (.set names) ∧
      (∀ name, name ∈ dirs ↔
        ∃ file ∈ files, file.StartsWith (dir.join name) ∧ file ≠ dir.join name) ∧
      (∀ name, name ∈ names ↔ dir.join name ∈ files) := by
  obtain ⟨matcher, built, listed, wellFormed⟩ := new_eq_some files nonRoot
  refine ⟨matcher, built, fun dir => ⟨_, _, rfl, fun name => ?_, fun name => ?_⟩⟩
  · simp [wellFormed.mem_getDirs, listed]
  · simp [wellFormed.mem_getFiles, listed]

theorem visit_reference_single :
    (∀ file ∈ [RepoPath.fromComponents [⟨"dir"⟩, ⟨"file"⟩]], file ≠ RepoPath.root) ∧
    ∃ matcher, new [RepoPath.fromComponents [⟨"dir"⟩, ⟨"file"⟩]] = some matcher ∧
      ∀ dir, ∃ dirs names : Finset RepoPathComponent,
        matcher.visit dir = .some (.set dirs) (.set names) ∧
        (∀ name, name ∈ dirs ↔ ∃ file ∈ [RepoPath.fromComponents [⟨"dir"⟩, ⟨"file"⟩]],
          file.StartsWith (dir.join name) ∧ file ≠ dir.join name) ∧
        (∀ name, name ∈ names ↔ dir.join name ∈ [RepoPath.fromComponents [⟨"dir"⟩, ⟨"file"⟩]]) :=
  ⟨by decide, visit_reference _ (by decide)⟩

/-- `new` reads its `HashSet` in an unspecified order, and the matcher it builds does not
depend on that order: lists with the same members give the same `matches` and `visit`. -/
theorem new_order_independent (files other : List RepoPath)
    (nonRoot : ∀ file ∈ files, file ≠ RepoPath.root) (same : ∀ file, file ∈ other ↔ file ∈ files) :
    ∃ matcher matcher', new files = some matcher ∧ new other = some matcher' ∧
      matcher.matches = matcher'.matches ∧ matcher.visit = matcher'.visit := by
  obtain ⟨matcher, built, listed, wellFormed⟩ := new_eq_some files nonRoot
  obtain ⟨matcher', built', listed', wellFormed'⟩ :=
    new_eq_some other fun file member => nonRoot file ((same file).mp member)
  have sameFiles : matcher'.files = matcher.files := by
    rw [listed, listed']
    ext file
    simp [same]
  have represents : matcher'.dirs.Represents ∅ {file | file.1.join file.2 ∈ matcher.files} :=
    sameFiles ▸ wellFormed'
  obtain ⟨sameDirs, sameNames⟩ := Dirs.Represents.getDirs_eq wellFormed represents
  refine ⟨matcher, matcher', built, built', ?_, ?_⟩
  · funext path
    simp [FilesMatcher.matches, sameFiles]
  · funext dir
    simp [visit, sameDirs, sameNames]

theorem new_order_independent_swapped :
    (∀ file ∈ [RepoPath.fromComponents [⟨"a"⟩], RepoPath.fromComponents [⟨"b"⟩, ⟨"c"⟩]],
      file ≠ RepoPath.root) ∧
    (∀ file, file ∈ [RepoPath.fromComponents [⟨"b"⟩, ⟨"c"⟩], RepoPath.fromComponents [⟨"a"⟩]] ↔
      file ∈ [RepoPath.fromComponents [⟨"a"⟩], RepoPath.fromComponents [⟨"b"⟩, ⟨"c"⟩]]) ∧
    ∃ matcher matcher',
      new [RepoPath.fromComponents [⟨"a"⟩], RepoPath.fromComponents [⟨"b"⟩, ⟨"c"⟩]] =
        some matcher ∧
      new [RepoPath.fromComponents [⟨"b"⟩, ⟨"c"⟩], RepoPath.fromComponents [⟨"a"⟩]] =
        some matcher' ∧
      matcher.matches = matcher'.matches ∧ matcher.visit = matcher'.visit :=
  have same : ∀ file,
      file ∈ [RepoPath.fromComponents [⟨"b"⟩, ⟨"c"⟩], RepoPath.fromComponents [⟨"a"⟩]] ↔
        file ∈ [RepoPath.fromComponents [⟨"a"⟩], RepoPath.fromComponents [⟨"b"⟩, ⟨"c"⟩]] :=
    fun file => by simp [or_comm]
  ⟨by decide, same, new_order_independent _ _ (by decide) same⟩

end FilesMatcher

end Jujutsu
