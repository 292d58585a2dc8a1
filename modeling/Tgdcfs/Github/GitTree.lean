import Tgdcfs.Core.Directory

/-!
# Git trees

A branch of the metadata repository points to a commit, and a commit to a
tree: blobs at paths.  The paths are strings; a directory of the tree is a
beginning of the components of a path.
-/

namespace Tgdcfs

abbrev StoragePath := List Char

/-- The parts of a path between the slashes. -/
def components (path : StoragePath) : List (List Char) :=
  path.splitOn '/'

/-- The path is the directory or lies below it. -/
def Beneath (directory path : StoragePath) : Prop :=
  components directory <+: components path

instance (directory path : StoragePath) :
    Decidable (Beneath directory path) :=
  inferInstanceAs (Decidable (components directory <+: components path))

/-- `path == directory or path.startswith(directory + "/")`. -/
def startsUnder (directory path : StoragePath) : Bool :=
  path = directory || (directory ++ ['/']).isPrefixOf path

theorem components_append (directory rest : StoragePath) :
    components (directory ++ '/' :: rest) =
      components directory ++ components rest := by
  exact List.splitOn_append_cons_self ..

theorem intercalate_components (path : StoragePath) :
    ['/'].intercalate (components path) = path :=
  List.intercalate_splitOn ..

theorem components_injective {path other : StoragePath}
    (same : components path = components other) : path = other := by
  rw [← intercalate_components path, same, intercalate_components]

theorem intercalate_append {first second : List (List Char)}
    (filled : first ≠ []) (more : second ≠ []) :
    ['/'].intercalate (first ++ second) =
      ['/'].intercalate first ++ '/' :: ['/'].intercalate second := by
  induction first with
  | nil => exact (filled rfl).elim
  | cons head tail ih =>
      cases tail with
      | nil =>
          obtain ⟨next, rest, rfl⟩ := List.exists_cons_of_ne_nil more
          simp [List.intercalate]
      | cons next rest =>
          have joined := ih (List.cons_ne_nil _ _)
          simp only [List.intercalate, List.cons_append,
            List.intersperse_cons_cons, List.flatten_cons, List.append_assoc]
            at joined ⊢
          rw [joined]

theorem components_ne_nil (path : StoragePath) : components path ≠ [] :=
  fun empty => List.splitOn_ne_nil _ _ empty

/-- Below a directory the rest of the path follows a slash. -/
theorem beneath_iff {directory path : StoragePath} :
    Beneath directory path ↔
      path = directory ∨ ∃ rest, path = directory ++ '/' :: rest := by
  constructor
  · rintro ⟨rest, splits⟩
    by_cases whole : rest = []
    · rw [whole, List.append_nil] at splits
      exact .inl (components_injective splits.symm)
    · refine .inr ⟨['/'].intercalate rest, ?_⟩
      rw [← intercalate_components path, ← splits,
        intercalate_append (components_ne_nil _) whole,
        intercalate_components]
  · rintro (rfl | ⟨rest, rfl⟩)
    · exact List.prefix_rfl
    · rw [Beneath, components_append]
      exact List.prefix_append ..

theorem startsUnder_iff {directory path : StoragePath} :
    startsUnder directory path = true ↔ Beneath directory path := by
  rw [beneath_iff, startsUnder, Bool.or_eq_true, decide_eq_true_eq,
    List.isPrefixOf_iff_prefix]
  constructor
  · rintro (same | ⟨rest, rfl⟩)
    · exact .inl same
    · exact .inr ⟨rest, by simp⟩
  · rintro (same | ⟨rest, rfl⟩)
    · exact .inl same
    · exact .inr ⟨rest, by simp⟩

/-- Replacing the directory of a path replaces its components. -/
theorem components_replaced {old new path : StoragePath}
    (beneath : Beneath old path) :
    components (new ++ path.drop old.length) =
      components new ++
        (components path).drop (components old).length := by
  rcases beneath_iff.mp beneath with rfl | ⟨rest, rfl⟩
  · rw [List.drop_length, List.drop_length, List.append_nil, List.append_nil]
  · rw [List.drop_left, components_append, components_append,
      List.drop_left]

/-- Two paths that cannot both be blobs of a tree: they are the same, or one
is a directory of the other. -/
def Clash (first second : StoragePath) : Prop :=
  Beneath first second ∨ Beneath second first

instance (first second : StoragePath) : Decidable (Clash first second) :=
  inferInstanceAs (Decidable (_ ∨ _))

theorem Clash.symm {first second : StoragePath}
    (clash : Clash first second) : Clash second first :=
  Or.symm clash

/-- Paths that clash below a new directory clashed below the old one. -/
theorem Clash.of_replaced {old new first second : StoragePath}
    (firstBeneath : Beneath old first) (secondBeneath : Beneath old second)
    (clash : Clash (new ++ first.drop old.length)
      (new ++ second.drop old.length)) : Clash first second := by
  obtain ⟨firstRest, firstSplits⟩ := firstBeneath
  obtain ⟨secondRest, secondSplits⟩ := secondBeneath
  unfold Clash Beneath at clash ⊢
  rw [components_replaced ⟨firstRest, firstSplits⟩,
    components_replaced ⟨secondRest, secondSplits⟩, ← firstSplits,
    ← secondSplits, List.drop_left, List.drop_left,
    List.prefix_append_right_inj, List.prefix_append_right_inj] at clash
  rw [← firstSplits, ← secondSplits, List.prefix_append_right_inj,
    List.prefix_append_right_inj]
  exact clash

/-- A blob in a tree; the content is behind the sha. -/
structure GitBlob where
  path : StoragePath
  mode : String
  sha : String
  deriving DecidableEq

def GitBlob.SameContent (first second : GitBlob) : Prop :=
  first.mode = second.mode ∧ first.sha = second.sha

instance (first second : GitBlob) : Decidable (first.SameContent second) :=
  inferInstanceAs (Decidable (_ ∧ _))

/-- A tree has one blob at a path and none where it has a directory. -/
structure GitTree where
  blobs : List GitBlob
  consistent : ∀ first ∈ blobs, ∀ second ∈ blobs,
    Clash first.path second.path → first = second

inductive EntryType where
  | blob
  | tree
  | commit
  deriving DecidableEq

structure TreeEntry where
  type : EntryType
  path : StoragePath
  mode : String
  sha : String

/-- The answer to a recursive listing. -/
structure TreeListing where
  tree : List TreeEntry
  truncated : Bool

namespace TreeListing

/-- The blobs that a listing shows. -/
def blobs (listing : TreeListing) : List GitBlob :=
  listing.tree.filterMap fun entry =>
    if entry.type = .blob then some ⟨entry.path, entry.mode, entry.sha⟩
    else none

/-- What may be answered for a tree: all its blobs, or some of them with the
flag set. -/
structure Of (tree : GitTree) (listing : TreeListing) : Prop where
  sound : ∀ blob ∈ listing.blobs, blob ∈ tree.blobs
  complete : listing.truncated = false →
    ∀ blob ∈ tree.blobs, blob ∈ listing.blobs

end TreeListing

end Tgdcfs
