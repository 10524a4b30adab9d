import Mathlib.Data.Finset.Basic
import Jujutsu.RepoPath

/-!
# Matchers

The `Visit` hint, the `Matcher` trait and the two constant matchers of `matchers.rs`,
with the traversal that `visit` guides. A matcher is correct when that traversal admits
exactly the paths `matches` accepts (the spec's matcher-correctness law); `VisitSound`
says what each `visit` result must promise for this, and `VisitSound.walk_eq_matches`
derives the law from it.
-/

set_option autoImplicit false

namespace Jujutsu

/-- The subdirectories a traversal must enter. -/
inductive VisitDirs where
  | all
  | set (dirs : Finset RepoPathComponent)
  deriving DecidableEq

/-- The files of a directory a traversal must consider. -/
inductive VisitFiles where
  | all
  | set (files : Finset RepoPathComponent)
  deriving DecidableEq

/-- How a traversal should enter a directory. `allRecursively` guarantees that everything
below matches, so descendants need no further checks. -/
inductive Visit where
  | allRecursively
  | some (dirs : VisitDirs) (files : VisitFiles)
  deriving DecidableEq

/-- Whether a traversal enters the subdirectory `name`. -/
def VisitDirs.contains : VisitDirs → RepoPathComponent → Bool
  | .all, _ => true
  | .set dirs, name => decide (name ∈ dirs)

/-- Whether a traversal considers the file `name`. -/
def VisitFiles.contains : VisitFiles → RepoPathComponent → Bool
  | .all, _ => true
  | .set files, name => decide (name ∈ files)

@[simp] theorem VisitDirs.contains_set (dirs : Finset RepoPathComponent)
    (name : RepoPathComponent) : (VisitDirs.set dirs).contains name = decide (name ∈ dirs) :=
  rfl

@[simp] theorem VisitFiles.contains_set (files : Finset RepoPathComponent)
    (name : RepoPathComponent) : (VisitFiles.set files).contains name = decide (name ∈ files) :=
  rfl

def Visit.nothing : Visit := .some (.set ∅) (.set ∅)

/-- The `Matcher` trait: a predicate on files and a pruning hint for directories. -/
structure Matcher where
  «matches» : RepoPath → Bool
  visit : RepoPath → Visit

/-! ## Constant matchers -/

structure NothingMatcher where
  deriving DecidableEq

def NothingMatcher.matches (_self : NothingMatcher) (_file : RepoPath) : Bool := false

def NothingMatcher.visit (_self : NothingMatcher) (_dir : RepoPath) : Visit := Visit.nothing

def NothingMatcher.toMatcher (self : NothingMatcher) : Matcher := ⟨self.matches, self.visit⟩

structure EverythingMatcher where
  deriving DecidableEq

def EverythingMatcher.matches (_self : EverythingMatcher) (_file : RepoPath) : Bool := true

def EverythingMatcher.visit (_self : EverythingMatcher) (_dir : RepoPath) : Visit :=
  .allRecursively

def EverythingMatcher.toMatcher (self : EverythingMatcher) : Matcher :=
  ⟨self.matches, self.visit⟩

/-! ## The traversal that `visit` guides -/

namespace Matcher

/-- The spec's matcher-correctness walk towards a file. Standing at `dir` with components
`name :: rest` still to walk, it asks `visit dir`: `allRecursively` admits the file, the
last component is admitted iff the files selector holds it, and any other component is
entered only when the dirs selector holds it. -/
def walkFrom (self : Matcher) (dir : RepoPath) : List RepoPathComponent → Bool
  | [] => false
  | name :: rest =>
    match self.visit dir with
    | .allRecursively => true
    | .some dirs files =>
      match rest with
      | [] => files.contains name
      | _ :: _ => dirs.contains name && self.walkFrom (dir.join name) rest

/-- Whether the traversal from the root admits `file`. -/
def walk (self : Matcher) (file : RepoPath) : Bool := self.walkFrom RepoPath.root file.components

/-- What a `visit` result `hint` for `dir` promises about `matches` below `dir`: after
`allRecursively` every descendant matches; a files selector holds exactly the matching
children; a dirs selector holds every child with a matching path beneath it. -/
structure HintSound (matcher : Matcher) (dir : RepoPath) (hint : Visit) : Prop where
  allRecursively : hint = .allRecursively →
    ∀ name rest, matcher.matches ⟨dir.components ++ name :: rest⟩ = true
  files : ∀ dirs files, hint = .some dirs files →
    ∀ name, files.contains name = matcher.matches (dir.join name)
  dirs : ∀ dirs files, hint = .some dirs files →
    ∀ name next rest, matcher.matches ⟨dir.components ++ name :: next :: rest⟩ = true →
      dirs.contains name = true

/-- Every `visit` result keeps its promise. -/
def VisitSound (matcher : Matcher) : Prop := ∀ dir, matcher.HintSound dir (matcher.visit dir)

theorem VisitSound.walkFrom_eq {self : Matcher} (sound : self.VisitSound) (dir : RepoPath)
    (name : RepoPathComponent) (rest : List RepoPathComponent) :
    self.walkFrom dir (name :: rest) = self.matches ⟨dir.components ++ name :: rest⟩ := by
  induction rest generalizing dir name with
  | nil =>
    simp only [walkFrom]
    split
    case h_1 all => exact ((sound dir).allRecursively all name []).symm
    case h_2 dirs files selected => exact (sound dir).files dirs files selected name
  | cons next rest ih =>
    simp only [walkFrom]
    split
    case h_1 all => exact ((sound dir).allRecursively all name _).symm
    case h_2 dirs files selected =>
      rw [← walkFrom, ih (dir.join name) next]
      simp only [RepoPath.join_components, List.append_assoc, List.singleton_append]
      cases matched : self.matches ⟨dir.components ++ name :: next :: rest⟩
      · exact Bool.and_false _
      · rw [(sound dir).dirs dirs files selected name next rest matched, Bool.true_and]

/-- A matcher whose `visit` is sound satisfies the matcher-correctness law: the guided
traversal admits a file exactly when `matches` accepts it. -/
theorem VisitSound.walk_eq_matches {self : Matcher} (sound : self.VisitSound) (file : RepoPath)
    (nonRoot : file ≠ RepoPath.root) : self.walk file = self.matches file := by
  obtain ⟨components⟩ := file
  cases components with
  | nil => exact absurd rfl nonRoot
  | cons name rest => exact sound.walkFrom_eq RepoPath.root name rest

end Matcher

end Jujutsu
