import Mathlib.Data.List.Lex
import Mathlib.Data.List.Infix
import Mathlib.Data.String.Basic

/-!
# Repository paths

`RepoPath` and `RepoPathComponent` as `matchers.rs` uses them: the root, `is_root`,
`components`, `from_components` and `split`, with `join` for stating results. The module
defining them is not part of the sources, so both types follow the spec's data model.
-/

set_option autoImplicit false

namespace Jujutsu

/-- Modelled from the spec: one component of a repository path, compared as a string.
The spec's well-formedness of components (non-empty, no separator) is not needed by any
result below, which all hold for every string. -/
structure RepoPathComponent where
  value : String
  deriving DecidableEq, Repr

/-- Modelled from the spec: components are ordered as byte strings. Rust orders a `String`
by its UTF-8 bytes, which is the lexicographic order of its characters' code points. -/
instance : LinearOrder RepoPathComponent :=
  LinearOrder.lift' (·.value.data) fun ⟨⟨_⟩⟩ ⟨⟨_⟩⟩ same => by cases same; rfl

/-- Modelled from the spec: an ordered sequence of components; the root is the empty
sequence. -/
@[ext] structure RepoPath where
  components : List RepoPathComponent
  deriving DecidableEq, Repr

/-- Modelled from the spec: equality and ordering are component-wise, so a `BTreeSet`
of paths iterates them in the lexicographic order of their component lists. -/
instance : LinearOrder RepoPath :=
  LinearOrder.lift' RepoPath.components fun left right same => by
    cases left; cases right; cases same; rfl

namespace RepoPath

/-- Modelled from the spec: the unique empty path. -/
def root : RepoPath := ⟨[]⟩

/-- Modelled from the spec: whether the path is the root. -/
def isRoot (self : RepoPath) : Bool := self.components.isEmpty

/-- Modelled from the spec: the path with the given components. -/
def fromComponents (components : List RepoPathComponent) : RepoPath := ⟨components⟩

/-- Modelled from the spec: the parent directory and the last component, or nothing for
the root. -/
def split (self : RepoPath) : Option (RepoPath × RepoPathComponent) :=
  match self.components.getLast? with
  | none => none
  | some basename => some (⟨self.components.dropLast⟩, basename)

/-- Modelled from the spec: the child `entry` of the directory `self`. -/
def join (self : RepoPath) (entry : RepoPathComponent) : RepoPath :=
  ⟨self.components ++ [entry]⟩

/-- `self` lies under `base`, or is `base`: the components of `base` begin those of
`self`. Every path starts with the root. -/
def StartsWith (self base : RepoPath) : Prop := base.components <+: self.components

instance (self base : RepoPath) : Decidable (self.StartsWith base) :=
  inferInstanceAs (Decidable (base.components <+: self.components))

@[simp] theorem root_components : root.components = [] := rfl

@[simp] theorem fromComponents_components (components : List RepoPathComponent) :
    (fromComponents components).components = components := rfl

@[simp] theorem join_components (dir : RepoPath) (entry : RepoPathComponent) :
    (dir.join entry).components = dir.components ++ [entry] := rfl

@[simp] theorem isRoot_iff (path : RepoPath) : path.isRoot = true ↔ path = root := by
  simp [isRoot, RepoPath.ext_iff]

@[simp] theorem join_ne_root (dir : RepoPath) (entry : RepoPathComponent) :
    dir.join entry ≠ root := by
  simp [RepoPath.ext_iff]

@[simp] theorem root_ne_join (dir : RepoPath) (entry : RepoPathComponent) :
    root ≠ dir.join entry :=
  (join_ne_root dir entry).symm

@[simp] theorem join_inj {dir dir' : RepoPath} {entry entry' : RepoPathComponent} :
    dir.join entry = dir'.join entry' ↔ dir = dir' ∧ entry = entry' := by
  simpa [RepoPath.ext_iff] using @List.concat_inj _ entry entry' dir.components dir'.components

/-- Every path is the root or a child of its parent. -/
@[elab_as_elim] theorem induction_join {motive : RepoPath → Prop} (root : motive root)
    (join : ∀ (dir : RepoPath) (entry : RepoPathComponent), motive dir → motive (dir.join entry))
    (path : RepoPath) : motive path := by
  obtain ⟨components⟩ := path
  induction components using List.reverseRecOn with
  | nil => exact root
  | append_singleton components entry ih => exact join ⟨components⟩ entry ih

theorem eq_root_or_join (path : RepoPath) :
    path = root ∨ ∃ (dir : RepoPath) (entry : RepoPathComponent), path = dir.join entry := by
  induction path using induction_join with
  | root => exact .inl rfl
  | join dir entry _ => exact .inr ⟨dir, entry, rfl⟩

@[simp] theorem split_root : root.split = none := rfl

@[simp] theorem split_join (dir : RepoPath) (entry : RepoPathComponent) :
    (dir.join entry).split = some (dir, entry) := by
  simp [split]

theorem split_eq_none_iff (path : RepoPath) : path.split = none ↔ path = root := by
  rcases eq_root_or_join path with rfl | ⟨dir, entry, rfl⟩ <;> simp

theorem split_eq_some_iff {path dir : RepoPath} {entry : RepoPathComponent} :
    path.split = some (dir, entry) ↔ path = dir.join entry := by
  rcases eq_root_or_join path with rfl | ⟨dir', entry', rfl⟩ <;> simp [eq_comm]

theorem length_lt_of_split {path dir : RepoPath} {entry : RepoPathComponent}
    (splitting : path.split = some (dir, entry)) :
    dir.components.length < path.components.length := by
  simp [split_eq_some_iff.mp splitting]

/-! ## Ancestors -/

@[simp] theorem startsWith_refl (path : RepoPath) : path.StartsWith path :=
  List.prefix_refl _

@[simp] theorem startsWith_root (path : RepoPath) : path.StartsWith root :=
  List.nil_prefix

@[simp] theorem root_startsWith_iff (base : RepoPath) : root.StartsWith base ↔ base = root := by
  simp [StartsWith, RepoPath.ext_iff]

theorem StartsWith.trans {path middle base : RepoPath} (outer : path.StartsWith middle)
    (inner : middle.StartsWith base) : path.StartsWith base :=
  List.IsPrefix.trans inner outer

/-- The ancestors of a child are the child itself and the ancestors of its parent. -/
theorem join_startsWith_iff (dir base : RepoPath) (entry : RepoPathComponent) :
    (dir.join entry).StartsWith base ↔ base = dir.join entry ∨ dir.StartsWith base := by
  simp only [StartsWith, join_components, List.prefix_concat_iff, RepoPath.ext_iff]

theorem join_startsWith_self (dir : RepoPath) (entry : RepoPathComponent) :
    (dir.join entry).StartsWith dir :=
  ((join_startsWith_iff dir dir entry).mpr (.inr (startsWith_refl dir)))

theorem StartsWith.length_le {path base : RepoPath} (starts : path.StartsWith base) :
    base.components.length ≤ path.components.length :=
  List.IsPrefix.length_le starts

theorem StartsWith.antisymm {path base : RepoPath} (starts : path.StartsWith base)
    (back : base.StartsWith path) : path = base :=
  RepoPath.ext (List.IsPrefix.eq_of_length back (le_antisymm back.length_le starts.length_le))

/-- Two ancestors of one path are ancestors one of the other. -/
theorem StartsWith.total {path left right : RepoPath} (startsLeft : path.StartsWith left)
    (startsRight : path.StartsWith right) : left.StartsWith right ∨ right.StartsWith left :=
  (List.prefix_or_prefix_of_prefix startsRight startsLeft).imp id id

/-- A strict ancestor of a path is an ancestor of its parent. -/
theorem StartsWith.of_join_ne {dir base : RepoPath} {entry : RepoPathComponent}
    (starts : (dir.join entry).StartsWith base) (different : base ≠ dir.join entry) :
    dir.StartsWith base :=
  ((join_startsWith_iff dir base entry).mp starts).resolve_left different

theorem StartsWith.ne_join {dir base : RepoPath} (starts : dir.StartsWith base)
    (entry : RepoPathComponent) : base ≠ dir.join entry := fun same => by
  have := starts.length_le
  simp [same] at this

/-- The strict ancestors of a path are the ancestors of its parent. -/
theorem startsWith_and_ne_iff (path base : RepoPath) :
    path.StartsWith base ∧ path ≠ base ↔
      ∃ (dir : RepoPath) (entry : RepoPathComponent), path = dir.join entry ∧ dir.StartsWith base := by
  constructor
  · rintro ⟨starts, different⟩
    rcases eq_root_or_join path with rfl | ⟨dir, entry, rfl⟩
    · exact absurd ((root_startsWith_iff base).mp starts).symm different
    · exact ⟨dir, entry, rfl, starts.of_join_ne (Ne.symm different)⟩
  · rintro ⟨dir, entry, rfl, starts⟩
    exact ⟨(join_startsWith_self dir entry).trans starts, (starts.ne_join entry).symm⟩

/-- A strict descendant of `base` is `base` followed by at least one component. -/
theorem startsWith_and_ne_iff_exists_cons (path base : RepoPath) :
    path.StartsWith base ∧ path ≠ base ↔
      ∃ next rest, path = ⟨base.components ++ next :: rest⟩ := by
  constructor
  · rintro ⟨⟨suffix, appended⟩, different⟩
    cases suffix with
    | nil => exact absurd (RepoPath.ext (by simpa using appended.symm)) different
    | cons next rest => exact ⟨next, rest, RepoPath.ext appended.symm⟩
  · rintro ⟨next, rest, rfl⟩
    exact ⟨⟨next :: rest, rfl⟩, fun same => by simpa using congrArg (·.components.length) same⟩

/-- The ancestors of a path are the paths of its first `i` components. -/
theorem startsWith_iff_exists_take (path base : RepoPath) :
    path.StartsWith base ↔
      ∃ i < path.components.length + 1, fromComponents (path.components.take i) = base := by
  constructor
  · intro starts
    refine ⟨base.components.length, Nat.lt_succ_of_le starts.length_le, ?_⟩
    ext1
    exact (List.prefix_iff_eq_take.mp starts).symm
  · rintro ⟨i, -, rfl⟩
    exact List.take_prefix i path.components

end RepoPath

end Jujutsu
