import Jujutsu.Matchers.FilesMatcher
import Jujutsu.Matchers.PrefixMatcher

/-!
# The snapshot traversal

The snapshot engine walks the working copy depth first and consults `visit` at each
directory it enters: `AllRecursively` descends without further matcher checks, and
otherwise only the listed subdirectories are entered and the listed files taken. The
working-copy code is not part of the sources, so the traversal follows the spec. For every
matcher whose `visit` is sound it returns exactly the matched files of the tree, in the
order of the tree: the matcher-correctness law over whole directory trees.
-/

set_option autoImplicit false

namespace Jujutsu

/-- Modelled from the spec: an entry of a working-copy directory, a file or a subdirectory
with its entries. -/
inductive Entry where
  | file (name : RepoPathComponent)
  | dir (name : RepoPathComponent) (entries : List Entry)

mutual
/-- The files of an entry of `dir`, depth first. -/
def Entry.files (dir : RepoPath) : Entry → List RepoPath
  | .file name => [dir.join name]
  | .dir name entries => Entry.filesOf (dir.join name) entries

/-- The files of the entries of `dir`, depth first. -/
def Entry.filesOf (dir : RepoPath) : List Entry → List RepoPath
  | [] => []
  | entry :: rest => entry.files dir ++ Entry.filesOf dir rest
end

/-- Whether a traversal under this hint takes the file `name`. -/
def Visit.takesFile : Visit → RepoPathComponent → Bool
  | .allRecursively, _ => true
  | .some _ files, name => files.contains name

/-- Whether a traversal under this hint enters the subdirectory `name`. -/
def Visit.entersDir : Visit → RepoPathComponent → Bool
  | .allRecursively, _ => true
  | .some dirs _, name => dirs.contains name

namespace Matcher

/-- The hint for the subdirectory `child` of a directory entered under `hint`: inside
`AllRecursively` the matcher is not asked again. -/
def childHint (self : Matcher) (hint : Visit) (child : RepoPath) : Visit :=
  match hint with
  | .allRecursively => .allRecursively
  | .some _ _ => self.visit child

mutual
/-- Modelled from the spec: the snapshot traversal of one entry of `dir`, a directory it
entered under `hint`. -/
def snapshotEntry (self : Matcher) (dir : RepoPath) (hint : Visit) : Entry → List RepoPath
  | .file name => if hint.takesFile name then [dir.join name] else []
  | .dir name entries =>
    if hint.entersDir name then
      self.snapshotEntries (dir.join name) (self.childHint hint (dir.join name)) entries
    else []

/-- Modelled from the spec: the snapshot traversal of the entries of `dir`, in order. -/
def snapshotEntries (self : Matcher) (dir : RepoPath) (hint : Visit) :
    List Entry → List RepoPath
  | [] => []
  | entry :: rest => self.snapshotEntry dir hint entry ++ self.snapshotEntries dir hint rest
end

/-- Modelled from the spec: the files a snapshot considers in a working copy whose root
holds `entries`. -/
def snapshot (self : Matcher) (entries : List Entry) : List RepoPath :=
  self.snapshotEntries RepoPath.root (self.visit RepoPath.root) entries

end Matcher

/-- Every file found below `dir` lies strictly inside it. -/
theorem Entry.filesOf_below (dir : RepoPath) (entries : List Entry) :
    ∀ file ∈ Entry.filesOf dir entries,
      ∃ name rest, file = ⟨dir.components ++ name :: rest⟩ := by
  refine Entry.filesOf.induct
    (fun dir entry => ∀ file ∈ entry.files dir,
      ∃ name rest, file = ⟨dir.components ++ name :: rest⟩)
    (fun dir entries => ∀ file ∈ Entry.filesOf dir entries,
      ∃ name rest, file = ⟨dir.components ++ name :: rest⟩)
    (fun dir name => ?_) (fun dir name entries ih => ?_) (fun dir => by simp [Entry.filesOf])
    (fun dir entry rest ih ih' => ?_) dir entries
  · simp only [Entry.files, List.mem_singleton]
    rintro file rfl
    exact ⟨name, [], rfl⟩
  · intro file member
    obtain ⟨next, rest, rfl⟩ := ih file member
    exact ⟨name, next :: rest, by simp⟩
  · simp only [Entry.filesOf, List.mem_append]
    rintro file (member | member)
    · exact ih file member
    · exact ih' file member

namespace Matcher

section Sound

variable {self : Matcher} {dir : RepoPath} {hint : Visit}

theorem HintSound.takesFile_eq (sound : self.HintSound dir hint) (name : RepoPathComponent) :
    hint.takesFile name = self.matches (dir.join name) := by
  cases hint with
  | allRecursively => exact (sound.allRecursively rfl name []).symm
  | some dirs files => exact sound.files dirs files rfl name

/-- The hint a subdirectory is entered under keeps its promise. -/
theorem HintSound.childHint (visitSound : self.VisitSound) (sound : self.HintSound dir hint)
    (name : RepoPathComponent) :
    self.HintSound (dir.join name) (self.childHint hint (dir.join name)) := by
  cases hint with
  | allRecursively =>
    refine ⟨fun _ next rest => ?_, by simp [Matcher.childHint], by simp [Matcher.childHint]⟩
    simpa using sound.allRecursively rfl name (next :: rest)
  | some dirs files => exact visitSound _

/-- A subdirectory the hint does not enter holds no matching file. -/
theorem HintSound.filter_skipped {dirs : VisitDirs} {files : VisitFiles}
    (sound : self.HintSound dir (.some dirs files)) {name : RepoPathComponent}
    (skipped : dirs.contains name = false) (entries : List Entry) :
    (Entry.filesOf (dir.join name) entries).filter self.matches = [] := by
  refine List.filter_eq_nil_iff.mpr fun file member matched => ?_
  obtain ⟨next, rest, rfl⟩ := Entry.filesOf_below _ entries file member
  have entered := sound.dirs dirs files rfl name next rest (by simpa using matched)
  simp [skipped] at entered

end Sound

/-- Under a hint that keeps its promise, the traversal of a directory's entries takes
exactly their matching files, in order. -/
theorem VisitSound.snapshotEntries_eq {self : Matcher} (visitSound : self.VisitSound)
    (dir : RepoPath) (entries : List Entry) :
    ∀ hint, self.HintSound dir hint →
      self.snapshotEntries dir hint entries = (Entry.filesOf dir entries).filter self.matches := by
  refine Entry.filesOf.induct
    (fun dir entry => ∀ hint, self.HintSound dir hint →
      self.snapshotEntry dir hint entry = (entry.files dir).filter self.matches)
    (fun dir entries => ∀ hint, self.HintSound dir hint →
      self.snapshotEntries dir hint entries = (Entry.filesOf dir entries).filter self.matches)
    (fun dir name hint sound => ?_) (fun dir name entries ih hint sound => ?_)
    (fun dir hint _ => by simp [snapshotEntries, Entry.filesOf])
    (fun dir entry rest ih ih' hint sound => ?_) dir entries
  · simp only [snapshotEntry, Entry.files, sound.takesFile_eq name, List.filter_cons,
      List.filter_nil]
  · simp only [snapshotEntry, Entry.files]
    cases entered : hint.entersDir name
    · cases hint with
      | allRecursively => simp [Visit.entersDir] at entered
      | some dirs files => exact (sound.filter_skipped entered entries).symm
    · exact ih _ (sound.childHint visitSound name)
  · simp only [snapshotEntries, Entry.filesOf, List.filter_append, ih hint sound, ih' hint sound]

/-- A snapshot pruned by a sound `visit` considers exactly the matching files of the
working copy, in the order of the tree. -/
theorem VisitSound.snapshot_eq_filter {self : Matcher} (visitSound : self.VisitSound)
    (entries : List Entry) :
    self.snapshot entries = (Entry.filesOf RepoPath.root entries).filter self.matches :=
  visitSound.snapshotEntries_eq _ entries _ (visitSound _)

theorem VisitSound.snapshot_eq_filter_prefix :
    (PrefixMatcher.new [RepoPath.fromComponents [⟨"dir"⟩]]).toMatcher.VisitSound ∧
      (PrefixMatcher.new [RepoPath.fromComponents [⟨"dir"⟩]]).toMatcher.snapshot
          [.dir ⟨"dir"⟩ [.file ⟨"file"⟩], .file ⟨"other"⟩] =
        (Entry.filesOf RepoPath.root [.dir ⟨"dir"⟩ [.file ⟨"file"⟩], .file ⟨"other"⟩]).filter
          (PrefixMatcher.new [RepoPath.fromComponents [⟨"dir"⟩]]).toMatcher.matches :=
  ⟨(PrefixMatcher.new_wellFormed _).visitSound,
    VisitSound.snapshot_eq_filter (PrefixMatcher.new_wellFormed _).visitSound _⟩

end Matcher

/-! ## What a snapshot considers, matcher by matcher -/

/-- A snapshot under the matcher of a set of files considers exactly the working-copy files
in the set. -/
theorem FilesMatcher.snapshot_eq_listed (files : List RepoPath)
    (nonRoot : ∀ file ∈ files, file ≠ RepoPath.root) :
    ∃ matcher, FilesMatcher.new files = some matcher ∧ ∀ entries,
      matcher.toMatcher.snapshot entries =
        (Entry.filesOf RepoPath.root entries).filter fun file => decide (file ∈ files) := by
  obtain ⟨matcher, built, listed, wellFormed⟩ := FilesMatcher.new_eq_some files nonRoot
  refine ⟨matcher, built, fun entries => ?_⟩
  rw [Matcher.snapshot, wellFormed.visitSound.snapshotEntries_eq _ _ _ (wellFormed.visitSound _)]
  refine List.filter_congr fun file _ => ?_
  simp [toMatcher, FilesMatcher.matches, listed]

theorem FilesMatcher.snapshot_eq_listed_single :
    (∀ file ∈ [RepoPath.fromComponents [⟨"dir"⟩, ⟨"file"⟩]], file ≠ RepoPath.root) ∧
    ∃ matcher, FilesMatcher.new [RepoPath.fromComponents [⟨"dir"⟩, ⟨"file"⟩]] = some matcher ∧
      ∀ entries, matcher.toMatcher.snapshot entries =
        (Entry.filesOf RepoPath.root entries).filter
          fun file => decide (file ∈ [RepoPath.fromComponents [⟨"dir"⟩, ⟨"file"⟩]]) :=
  ⟨by decide, FilesMatcher.snapshot_eq_listed _ (by decide)⟩

/-- A snapshot under the sparse patterns' `PrefixMatcher` considers exactly the
working-copy files under some pattern. -/
theorem PrefixMatcher.snapshot_eq_under (prefixes : List RepoPath) (entries : List Entry) :
    (PrefixMatcher.new prefixes).toMatcher.snapshot entries =
      (Entry.filesOf RepoPath.root entries).filter
        fun file => decide (∃ base ∈ prefixes, file.StartsWith base) := by
  have sound := (PrefixMatcher.new_wellFormed prefixes).visitSound
  rw [Matcher.snapshot, sound.snapshotEntries_eq _ _ _ (sound _)]
  refine List.filter_congr fun file _ => ?_
  rw [Bool.eq_iff_iff, decide_eq_true_iff]
  simpa using PrefixMatcher.matches_iff (PrefixMatcher.new prefixes) file

end Jujutsu
