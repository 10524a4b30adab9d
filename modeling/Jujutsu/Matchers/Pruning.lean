import Jujutsu.Matchers.Traversal

/-!
# What the snapshot traversal prunes

`visit` exists so that the snapshot traversal can skip whole subtrees. `Traversal` shows
that a sound `visit` loses no matching file; this module shows the other half for the
matchers of `matchers.rs`: their `visit` lists only children beneath which some path
matches, so the traversal never enters a directory in which nothing can match. For a
`FilesMatcher` that is a directory on the way to a listed file, for a `PrefixMatcher` a
directory on the way to a prefix or under one.
-/

set_option autoImplicit false

namespace Jujutsu

namespace Matcher

mutual
/-- Modelled from the spec: the directories the snapshot traversal enters below one entry of
`dir`, a directory it entered under `hint`. -/
def enteredEntry (self : Matcher) (dir : RepoPath) (hint : Visit) : Entry → List RepoPath
  | .file _ => []
  | .dir name entries =>
    if hint.entersDir name then
      dir.join name ::
        self.enteredEntries (dir.join name) (self.childHint hint (dir.join name)) entries
    else []

/-- Modelled from the spec: the directories the snapshot traversal enters below the entries
of `dir`, in order. -/
def enteredEntries (self : Matcher) (dir : RepoPath) (hint : Visit) :
    List Entry → List RepoPath
  | [] => []
  | entry :: rest => self.enteredEntry dir hint entry ++ self.enteredEntries dir hint rest
end

/-- Modelled from the spec: the directories a snapshot enters in a working copy whose root
holds `entries`. -/
def entered (self : Matcher) (entries : List Entry) : List RepoPath :=
  self.enteredEntries RepoPath.root (self.visit RepoPath.root) entries

/-- What a `visit` result `hint` for `dir` promises about pruning: a dirs selector holds only
children beneath which some path matches. -/
def HintTight (matcher : Matcher) (dir : RepoPath) (hint : Visit) : Prop :=
  ∀ dirs files, hint = .some dirs files → ∀ name, dirs.contains name = true →
    ∃ next rest, matcher.matches ⟨dir.components ++ name :: next :: rest⟩ = true

/-- Every `visit` result prunes every subdirectory in which nothing matches. -/
def VisitTight (matcher : Matcher) : Prop := ∀ dir, matcher.HintTight dir (matcher.visit dir)

section Tight

variable {self : Matcher} {dir : RepoPath} {hint : Visit}

/-- A child that a sound and tight hint enters has a matching path strictly beneath it. -/
theorem HintTight.below_entered (tight : self.HintTight dir hint)
    (sound : self.HintSound dir hint) {name : RepoPathComponent}
    (entersDir : hint.entersDir name = true) :
    ∃ next rest, self.matches ⟨(dir.join name).components ++ next :: rest⟩ = true := by
  simp only [RepoPath.join_components, List.append_assoc, List.singleton_append]
  cases hint with
  | allRecursively => exact ⟨name, [], sound.allRecursively rfl name [name]⟩
  | some dirs files => exact tight dirs files rfl name entersDir

/-- The hint a subdirectory is entered under is tight again. -/
theorem HintTight.childHint (tight : self.HintTight dir hint) (visitTight : self.VisitTight)
    (name : RepoPathComponent) :
    self.HintTight (dir.join name) (self.childHint hint (dir.join name)) := by
  cases hint with
  | allRecursively => intro dirs files visited; simp [Matcher.childHint] at visited
  | some dirs files => exact visitTight _

end Tight

end Matcher

/-! ## The matchers of `matchers.rs` prune tightly -/

theorem FilesMatcher.WellFormed.visitTight {self : FilesMatcher} (wellFormed : self.WellFormed) :
    self.toMatcher.VisitTight := fun dir dirs files visited name member => by
  simp only [toMatcher, visit, Visit.some.injEq] at visited
  obtain ⟨file, listed, strict⟩ :=
    (wellFormed.mem_getDirs dir name).mp (by simpa [← visited.1] using member)
  obtain ⟨next, rest, rfl⟩ := (RepoPath.startsWith_and_ne_iff_exists_cons _ _).mp strict
  exact ⟨next, rest, by simpa [toMatcher, FilesMatcher.matches] using listed⟩

theorem PrefixMatcher.WellFormed.visitTight {self : PrefixMatcher}
    (wellFormed : self.WellFormed) : self.toMatcher.VisitTight :=
  fun dir dirs files visited name member => by
  obtain ⟨-, rfl, -⟩ := PrefixMatcher.visit_eq_some visited
  obtain ⟨path, prefixed, suffix, appended⟩ :=
    (wellFormed.mem_getDirs dir name).mp (by simpa using member)
  obtain ⟨next, rest, extended⟩ :=
    List.exists_cons_of_ne_nil (List.append_ne_nil_of_right_ne_nil suffix (List.cons_ne_nil name []))
  refine ⟨next, rest, (PrefixMatcher.matches_iff self _).mpr ⟨path, prefixed, [name], ?_⟩⟩
  rw [← appended, ← extended]
  simp

/-! ## The traversal enters only directories with a match beneath -/

namespace Matcher

/-- Under a sound and tight hint, every directory the traversal enters below `dir` has a
matching path strictly beneath it. -/
theorem VisitTight.enteredEntries_below {self : Matcher} (visitTight : self.VisitTight)
    (visitSound : self.VisitSound) (dir : RepoPath) (entries : List Entry) :
    ∀ hint, self.HintSound dir hint → self.HintTight dir hint →
      ∀ entered ∈ self.enteredEntries dir hint entries,
        ∃ next rest, self.matches ⟨entered.components ++ next :: rest⟩ = true := by
  refine Entry.filesOf.induct
    (fun dir entry => ∀ hint, self.HintSound dir hint → self.HintTight dir hint →
      ∀ entered ∈ self.enteredEntry dir hint entry,
        ∃ next rest, self.matches ⟨entered.components ++ next :: rest⟩ = true)
    (fun dir entries => ∀ hint, self.HintSound dir hint → self.HintTight dir hint →
      ∀ entered ∈ self.enteredEntries dir hint entries,
        ∃ next rest, self.matches ⟨entered.components ++ next :: rest⟩ = true)
    (fun dir name hint _ _ => by simp [enteredEntry])
    (fun dir name entries ih hint sound tight => ?_)
    (fun dir hint _ _ => by simp [enteredEntries])
    (fun dir entry rest ih ih' hint sound tight => ?_) dir entries
  · simp only [enteredEntry]
    split
    next entersDir =>
      simp only [List.mem_cons]
      rintro entered (rfl | deeper)
      · exact tight.below_entered sound entersDir
      · exact ih _ (sound.childHint visitSound name) (tight.childHint visitTight name)
          entered deeper
    next => simp
  · simp only [enteredEntries, List.mem_append]
    rintro entered (here | later)
    · exact ih hint sound tight entered here
    · exact ih' hint sound tight entered later

/-- A snapshot pruned by a sound and tight `visit` enters only directories beneath which some
path matches. -/
theorem VisitTight.entered_below {self : Matcher} (visitTight : self.VisitTight)
    (visitSound : self.VisitSound) (entries : List Entry) :
    ∀ dir ∈ self.entered entries,
      ∃ next rest, self.matches ⟨dir.components ++ next :: rest⟩ = true :=
  visitTight.enteredEntries_below visitSound _ entries _ (visitSound _) (visitTight _)

theorem VisitTight.entered_below_prefix :
    (PrefixMatcher.new [RepoPath.fromComponents [⟨"dir"⟩]]).toMatcher.VisitTight ∧
      (PrefixMatcher.new [RepoPath.fromComponents [⟨"dir"⟩]]).toMatcher.VisitSound ∧
      ∀ dir ∈ (PrefixMatcher.new [RepoPath.fromComponents [⟨"dir"⟩]]).toMatcher.entered
          [.dir ⟨"dir"⟩ [.file ⟨"file"⟩], .dir ⟨"other"⟩ [.file ⟨"file"⟩]],
        ∃ next rest, (PrefixMatcher.new [RepoPath.fromComponents [⟨"dir"⟩]]).toMatcher.matches
          ⟨dir.components ++ next :: rest⟩ = true :=
  have wellFormed := PrefixMatcher.new_wellFormed [RepoPath.fromComponents [⟨"dir"⟩]]
  ⟨wellFormed.visitTight, wellFormed.visitSound,
    VisitTight.entered_below wellFormed.visitTight wellFormed.visitSound _⟩

end Matcher

/-! ## What the snapshot enters, matcher by matcher -/

/-- A snapshot under the matcher of a set of files enters only directories on the way to a
listed file. -/
theorem FilesMatcher.entered_toward_listed (files : List RepoPath)
    (nonRoot : ∀ file ∈ files, file ≠ RepoPath.root) :
    ∃ matcher, FilesMatcher.new files = some matcher ∧ ∀ entries,
      ∀ dir ∈ matcher.toMatcher.entered entries,
        ∃ file ∈ files, file.StartsWith dir ∧ file ≠ dir := by
  obtain ⟨matcher, built, listed, wellFormed⟩ := FilesMatcher.new_eq_some files nonRoot
  refine ⟨matcher, built, fun entries dir entered => ?_⟩
  obtain ⟨next, rest, matched⟩ :=
    wellFormed.visitTight.entered_below wellFormed.visitSound entries dir entered
  refine ⟨_, ?_, (RepoPath.startsWith_and_ne_iff_exists_cons _ _).mpr ⟨next, rest, rfl⟩⟩
  simpa [Matcher.entered, FilesMatcher.toMatcher, FilesMatcher.matches, listed] using matched

theorem FilesMatcher.entered_toward_listed_single :
    (∀ file ∈ [RepoPath.fromComponents [⟨"dir"⟩, ⟨"file"⟩]], file ≠ RepoPath.root) ∧
    ∃ matcher, FilesMatcher.new [RepoPath.fromComponents [⟨"dir"⟩, ⟨"file"⟩]] = some matcher ∧
      ∀ entries, ∀ dir ∈ matcher.toMatcher.entered entries,
        ∃ file ∈ [RepoPath.fromComponents [⟨"dir"⟩, ⟨"file"⟩]], file.StartsWith dir ∧ file ≠ dir :=
  ⟨by decide, FilesMatcher.entered_toward_listed _ (by decide)⟩

/-- A snapshot under the sparse patterns' `PrefixMatcher` enters only directories on the way
to a prefix or under one. -/
theorem PrefixMatcher.entered_near_prefix (prefixes : List RepoPath) (entries : List Entry) :
    ∀ dir ∈ (PrefixMatcher.new prefixes).toMatcher.entered entries,
      ∃ base ∈ prefixes, base.StartsWith dir ∨ dir.StartsWith base := by
  have wellFormed := PrefixMatcher.new_wellFormed prefixes
  intro dir entered
  obtain ⟨next, rest, matched⟩ :=
    wellFormed.visitTight.entered_below wellFormed.visitSound entries dir entered
  obtain ⟨base, member, starts⟩ := (PrefixMatcher.matches_iff _ _).mp matched
  have below : (⟨dir.components ++ next :: rest⟩ : RepoPath).StartsWith dir := ⟨next :: rest, rfl⟩
  exact ⟨base, by simpa using member, starts.total below⟩

theorem PrefixMatcher.entered_near_prefix_nested :
    (PrefixMatcher.new [RepoPath.fromComponents [⟨"dir"⟩, ⟨"sub"⟩]]).toMatcher.entered
        [.dir ⟨"dir"⟩ [.dir ⟨"sub"⟩ [.file ⟨"file"⟩], .dir ⟨"other"⟩ [.file ⟨"file"⟩]],
          .dir ⟨"other"⟩ [.file ⟨"file"⟩]] =
      [RepoPath.fromComponents [⟨"dir"⟩], RepoPath.fromComponents [⟨"dir"⟩, ⟨"sub"⟩]] ∧
    ∃ base ∈ [RepoPath.fromComponents [⟨"dir"⟩, ⟨"sub"⟩]],
      base.StartsWith (RepoPath.fromComponents [⟨"dir"⟩]) ∨
        (RepoPath.fromComponents [⟨"dir"⟩]).StartsWith base :=
  ⟨by decide, PrefixMatcher.entered_near_prefix _
    [.dir ⟨"dir"⟩ [.dir ⟨"sub"⟩ [.file ⟨"file"⟩], .dir ⟨"other"⟩ [.file ⟨"file"⟩]],
      .dir ⟨"other"⟩ [.file ⟨"file"⟩]] _ (by decide)⟩

end Jujutsu
