import Tgdcfs.Github.BackedPaths

/-!
# Loads of a whole listing

A listing that is complete shows every blob of the branch and every directory
above one.  If the names are valid and no two blobs are files of one name, a
load of it has the directories above the blobs and the files of the blobs.
-/

namespace Tgdcfs

open Lib

/-- A complete listing: every blob, and every directory above one, once. -/
structure TreeListing.Whole (branch : GitTree) (listing : TreeListing) :
    Prop where
  blobs : listing.Of branch
  whole : listing.truncated = false
  directories : ∀ path,
    (∃ entry ∈ listing.tree, entry.type = .tree ∧ entry.path = path) ↔
      ∃ blob ∈ branch.blobs, Beneath path blob.path ∧ path ≠ blob.path
  once : (listing.tree.map TreeEntry.path).Nodup

/-- The names of the directories above a blob. -/
def GitBlob.names (nameKey : Option PathNameKey) (blob : GitBlob) :
    List Name :=
  (components blob.path).dropLast.map (decodeSegment nameKey)

/-- The file that the last segment of a blob stands for. -/
def segmentFile (nameKey : Option PathNameKey) (segment : List Char) :
    Option LoadedFile :=
  if segment = GITKEEP ∨ segment = STATS_FILE_NAME then none
  else
    (splitLast '.' segment).bind fun parts =>
      (parseInt parts.2).map fun messageId =>
        ⟨decodeSegment nameKey parts.1, messageId⟩

def GitBlob.file (nameKey : Option PathNameKey) (blob : GitBlob) :
    Option LoadedFile :=
  segmentFile nameKey (lastSegment blob.path)

/-- Nothing in the tree would end a load. -/
structure GitTree.Loadable (nameKey : Option PathNameKey) (tree : GitTree) :
    Prop where
  named : ∀ blob ∈ tree.blobs, Named (components blob.path)
  valid : ∀ blob ∈ tree.blobs, ∀ name ∈ blob.names nameKey, validName name
  distinct : ∀ first ∈ tree.blobs, ∀ second ∈ tree.blobs, ∀ one other,
    first.names nameKey = second.names nameKey →
      first.file nameKey = some one → second.file nameKey = some other →
        one.name = other.name → first = second

/-- The load has what the blobs stand for. -/
structure LoadedTree.Of (nameKey : Option PathNameKey) (tree : GitTree)
    (loaded : LoadedTree) : Prop where
  directories : ∀ names, loaded.HasDirectory names ↔
    names = [] ∨ ∃ blob ∈ tree.blobs, names <+: blob.names nameKey
  files : ∀ names file, loaded.HasFile names file ↔
    ∃ blob ∈ tree.blobs, blob.names nameKey = names ∧
      blob.file nameKey = some file

section Whole

variable {nameKey : Option PathNameKey} {branch : GitTree}
  {listing : TreeListing} {entry : TreeEntry}

theorem blob_of_entry (member : entry ∈ listing.tree)
    (isBlob : entry.type = .blob) :
    ⟨entry.path, entry.mode, entry.sha⟩ ∈ listing.blobs :=
  List.mem_filterMap.mpr ⟨entry, member, if_pos isBlob⟩

theorem entry_of_blob {blob : GitBlob} (member : blob ∈ listing.blobs) :
    ∃ entry ∈ listing.tree, entry.type = .blob ∧ entry.path = blob.path := by
  obtain ⟨entry, listed, made⟩ := List.mem_filterMap.mp member
  by_cases isBlob : entry.type = .blob
  · rw [if_pos isBlob] at made
    cases made
    exact ⟨entry, listed, isBlob, rfl⟩
  · rw [if_neg isBlob] at made
    cases made

theorem components_split (path : StoragePath) :
    ∃ segments last, components path = segments ++ [last] :=
  ⟨_, _, (List.dropLast_append_getLast (components_ne_nil path)).symm⟩

theorem GitBlob.names_eq {blob : GitBlob} {segments : List (List Char)}
    {last : List Char} (parts : components blob.path = segments ++ [last]) :
    blob.names nameKey = segments.map (decodeSegment nameKey) := by
  simp [GitBlob.names, parts]

theorem GitBlob.file_eq {blob : GitBlob} {segments : List (List Char)}
    {last : List Char} (free : '/' ∉ last)
    (parts : components blob.path = segments ++ [last]) :
    blob.file nameKey = segmentFile nameKey last := by
  rw [GitBlob.file, lastSegment_eq free parts]

theorem TreeEntry.file_eq (isBlob : entry.type = .blob) :
    entry.file (nameCipher nameKey) =
      segmentFile nameKey (lastSegment entry.path) := by
  unfold TreeEntry.file segmentFile decodeSegment
  by_cases reserved : lastSegment entry.path = GITKEEP ∨
      lastSegment entry.path = STATS_FILE_NAME
  · rw [if_pos reserved, if_neg]
    rintro ⟨_, notKeep, notStats⟩
    exact reserved.elim notKeep notStats
  · rw [if_neg reserved, if_pos]
    exact ⟨isBlob, fun keep => reserved (.inl keep),
      fun stats => reserved (.inr stats)⟩

theorem TreeEntry.blob_of_file {file : LoadedFile}
    (offered : entry.file (nameCipher nameKey) = some file) :
    entry.type = .blob := by
  unfold TreeEntry.file at offered
  by_contra other
  rw [if_neg fun both => other both.1] at offered
  cases offered

namespace GitTree.Loadable

variable (loadable : branch.Loadable nameKey)
include loadable

theorem above {blob : GitBlob} (inBranch : blob ∈ branch.blobs)
    {segments : List (List Char)}
    (begins : segments <+: (components blob.path).dropLast) :
    Named segments ∧
      ValidPath (nameCipher nameKey) (['/'].intercalate segments) := by
  have named : Named segments :=
    Named.of_prefix (loadable.named blob inBranch)
      (begins.trans (List.dropLast_prefix _))
  refine ⟨named, validPath_intercalate named ?_⟩
  intro segment member
  exact loadable.valid blob inBranch _
    (List.mem_map_of_mem (begins.subset member))

theorem entry_directory (whole : listing.Whole branch)
    (member : entry ∈ listing.tree) {path : StoragePath}
    (asked : entry.directory = some path) :
    ∃ blob ∈ branch.blobs, ∃ segments,
      segments <+: (components blob.path).dropLast ∧
        path = ['/'].intercalate segments := by
  cases isType : entry.type with
  | commit => simp [TreeEntry.directory, isType] at asked
  | tree =>
      simp only [TreeEntry.directory, isType, Option.some.injEq] at asked
      subst asked
      obtain ⟨blob, inBranch, beneath, different⟩ :=
        (whole.directories entry.path).mp ⟨entry, member, isType, rfl⟩
      refine ⟨blob, inBranch, _, ?_, path_eq rfl⟩
      obtain ⟨segments, last, parts⟩ := components_split blob.path
      unfold Beneath at beneath
      rw [parts] at beneath ⊢
      rcases List.prefix_concat_iff.mp beneath with same | shorter
      · exact (different (components_injective (same.trans parts.symm))).elim
      · simpa using shorter
  | blob =>
      have inBranch := whole.blobs.sound _ (blob_of_entry member isType)
      refine ⟨_, inBranch, _, List.prefix_rfl, ?_⟩
      obtain ⟨segments, last, parts⟩ := components_split entry.path
      have named := loadable.named _ inBranch
      have free : '/' ∉ last := by
        apply (named last _).2
        simp [parts]
      simp only [TreeEntry.directory, isType] at asked
      rw [parts, List.dropLast_concat, ← parentPath_eq free parts]
      split at asked
      · cases asked
      · split at asked
        · cases asked
          rfl
        · obtain ⟨_, _, same⟩ := Option.map_eq_some_iff.mp asked
          exact same.symm

/-- An entry puts the file of its blob into the directory above it. -/
theorem entry_puts (whole : listing.Whole branch)
    (member : entry ∈ listing.tree) {path : StoragePath} {file : LoadedFile} :
    entry.Puts (nameCipher nameKey) path file ↔ ∃ blob ∈ branch.blobs,
      entry.type = .blob ∧ blob.path = entry.path ∧
        path = ['/'].intercalate (components blob.path).dropLast ∧
          blob.file nameKey = some file := by
  have placed : ∀ {mode sha},
      (⟨entry.path, mode, sha⟩ : GitBlob) ∈ branch.blobs →
        parentPath entry.path =
          ['/'].intercalate (components entry.path).dropLast := by
    intro mode sha inBranch
    obtain ⟨segments, last, parts⟩ := components_split entry.path
    have free : '/' ∉ last := by
      apply (loadable.named _ inBranch last _).2
      simp [parts]
    rw [parts, List.dropLast_concat, parentPath_eq free parts]
  constructor
  · rintro ⟨asked, offered, valid⟩
    have isBlob := TreeEntry.blob_of_file offered
    have inBranch := whole.blobs.sound _ (blob_of_entry member isBlob)
    rw [TreeEntry.file_eq isBlob] at offered
    refine ⟨_, inBranch, isBlob, rfl, ?_, offered⟩
    dsimp only
    rw [← placed inBranch]
    simp only [TreeEntry.directory, isBlob] at asked
    split at asked
    · cases asked
    · split at asked
      · cases asked
        rfl
      · obtain ⟨_, _, same⟩ := Option.map_eq_some_iff.mp asked
        exact same.symm
  · rintro ⟨blob, inBranch, isBlob, samePath, rfl, offered⟩
    have same : entry.file (nameCipher nameKey) = some file := by
      rw [TreeEntry.file_eq isBlob, ← samePath]
      exact offered
    obtain ⟨blobPath, mode, sha⟩ := blob
    cases samePath
    refine ⟨?_, same, (loadable.above inBranch List.prefix_rfl).2⟩
    rw [← placed inBranch]
    unfold GitBlob.file segmentFile at offered
    simp only [TreeEntry.directory, isBlob]
    split at offered
    · cases offered
    · rename_i free
      obtain ⟨parts, split_, _⟩ := Option.bind_eq_some_iff.mp offered
      dsimp only at free split_
      rw [if_neg fun keep => free (.inl keep),
        if_neg fun stats => free (.inr stats), split_]
      rfl

theorem reflects (whole : listing.Whole branch) :
    (buildFromTree (nameCipher nameKey) listing.tree).Reflects
      (nameCipher nameKey) listing.tree := by
  rcases reflects_build (nameCipher nameKey) listing.tree with
    all | ⟨before, entry, after, order, ends, _⟩
  · exact all
  have member : entry ∈ listing.tree := by simp [order]
  rcases ends with ⟨path, asked, invalid⟩ | ⟨earlier, inBefore, collide⟩
  · obtain ⟨blob, inBranch, segments, begins, rfl⟩ :=
      loadable.entry_directory whole member asked
    exact (invalid (loadable.above inBranch begins).2).elim
  · obtain ⟨path, one, other, firstPuts, secondPuts, sameName⟩ := collide
    have earlierMember : earlier ∈ listing.tree := by simp [order, inBefore]
    obtain ⟨first, inBranch, _, firstPath, rfl, firstFile⟩ :=
      (loadable.entry_puts whole earlierMember).mp firstPuts
    obtain ⟨second, alsoIn, _, secondPath, samePath, secondFile⟩ :=
      (loadable.entry_puts whole member).mp secondPuts
    have sameParts := (loadable.above inBranch
      List.prefix_rfl).1.intercalate_injective
        (loadable.above alsoIn List.prefix_rfl).1 samePath
    have sameBlob := loadable.distinct first inBranch second alsoIn one other
      (congrArg (List.map (decodeSegment nameKey)) sameParts) firstFile
      secondFile sameName
    have samePlace : earlier.path = entry.path := by
      rw [← firstPath, sameBlob, secondPath]
    have nodup := whole.once
    rw [order, List.map_append, List.map_cons] at nodup
    have apart := List.disjoint_of_nodup_append nodup
      (List.mem_map_of_mem inBefore)
    exact (apart (samePlace ▸ List.mem_cons_self)).elim

theorem loads (whole : listing.Whole branch) :
    (buildFromTree (nameCipher nameKey) listing.tree).Of nameKey branch := by
  have reflects := loadable.reflects whole
  have decoded : ∀ blob ∈ branch.blobs, ∀ segments,
      segments <+: (components blob.path).dropLast →
        decodedPath (nameCipher nameKey) (['/'].intercalate segments) =
          segments.map (decodeSegment nameKey) := by
    intro blob inBranch segments begins
    exact decodedPath_intercalate (loadable.above inBranch begins).1
  have offered : ∀ {names file},
      (buildFromTree (nameCipher nameKey) listing.tree).HasFile names file →
        ∃ blob ∈ branch.blobs, blob.names nameKey = names ∧
          blob.file nameKey = some file := by
    intro names file has
    obtain ⟨entry, member, path, puts, named⟩ := reflects.file_offered has
    obtain ⟨blob, inBranch, _, _, rfl, isFile⟩ :=
      (loadable.entry_puts whole member).mp puts
    rw [decoded blob inBranch _ List.prefix_rfl] at named
    exact ⟨blob, inBranch, named, isFile⟩
  constructor
  · intro names
    rw [reflects.directory_iff]
    constructor
    · rintro (rfl | ⟨entry, member, path, ⟨directory, asked, ancestor, _⟩,
        named⟩)
      · exact .inl rfl
      · obtain ⟨blob, inBranch, segments, begins, rfl⟩ :=
          loadable.entry_directory whole member asked
        obtain ⟨before, shorter, rfl⟩ := (ancestor_intercalate
          (loadable.above inBranch begins).1).mp ancestor
        have start := shorter.trans begins
        rw [decoded blob inBranch _ start] at named
        exact .inr ⟨blob, inBranch, named ▸ start.map _⟩
    · rintro (rfl | ⟨blob, inBranch, begins⟩)
      · exact .inl rfl
      · obtain ⟨segments, start, rfl⟩ := List.prefix_map_iff.mp begins
        by_cases empty : segments = []
        · exact .inl (by rw [empty, List.map_nil])
        · obtain ⟨named, valid⟩ := loadable.above inBranch start
          have parts := components_intercalate named empty
          obtain ⟨entry, member, isTree, samePath⟩ :=
            (whole.directories (['/'].intercalate segments)).mpr
              ⟨blob, inBranch, by
                unfold Beneath
                rw [parts]
                exact start.trans (List.dropLast_prefix _), by
                intro same
                have short := start.length_le
                rw [← same, parts, List.length_dropLast] at short
                have longer := List.length_pos_of_ne_nil empty
                omega⟩
          refine .inr ⟨entry, member, _, ⟨_, ?_, .self, valid⟩,
            decoded blob inBranch segments start⟩
          rw [← samePath]
          simp only [TreeEntry.directory, isTree]
  · intro names file
    constructor
    · exact offered
    · rintro ⟨blob, inBranch, rfl, isFile⟩
      obtain ⟨entry, member, isBlob, samePath⟩ :=
        entry_of_blob (whole.blobs.complete whole.whole blob inBranch)
      have puts := (loadable.entry_puts whole member).mpr
        ⟨blob, inBranch, isBlob, samePath.symm, rfl, isFile⟩
      obtain ⟨kept, sameName, has⟩ := reflects.file_kept member
        ⟨_, puts, decoded blob inBranch _ List.prefix_rfl⟩
      obtain ⟨other, alsoIn, sameNames, isKept⟩ := offered has
      have sameBlob := loadable.distinct other alsoIn blob inBranch kept file
        sameNames isKept isFile sameName
      rw [sameBlob, isFile] at isKept
      cases isKept
      exact has

end GitTree.Loadable

end Whole

def belowBlobs (directory file : List Char) : List GitBlob :=
  [⟨directory ++ '/' :: file, "100644", "e69de29"⟩,
    ⟨directory ++ '/' :: GITKEEP, "100644", "e69de29"⟩]

def belowListing (directory file : List Char) : TreeListing :=
  ⟨[⟨.tree, directory, "040000", "4b825dc"⟩,
    ⟨.blob, directory ++ '/' :: GITKEEP, "100644", "e69de29"⟩,
    ⟨.blob, directory ++ '/' :: file, "100644", "e69de29"⟩], false⟩

section Below

variable {directory file : List Char}

theorem beneath_pair {path directory segment : List Char}
    (begins : components path <+: [directory, segment]) :
    path = directory ∨ components path = [directory, segment] := by
  obtain ⟨first, rest, shape⟩ :=
    List.exists_cons_of_ne_nil (components_ne_nil path)
  rw [shape, List.cons_prefix_cons] at begins
  obtain ⟨rfl, further⟩ := begins
  cases rest with
  | nil =>
      left
      rw [← intercalate_components path, shape, List.intercalate_singleton]
  | cons second rest =>
      rw [List.cons_prefix_cons, List.prefix_nil] at further
      obtain ⟨rfl, rfl⟩ := further
      exact .inr shape

theorem components_below (free : '/' ∉ directory) (fileFree : '/' ∉ file) :
    components (directory ++ '/' :: file) = [directory, file] := by
  have first : components directory = [directory] :=
    List.splitOn_eq_singleton free
  have second : components file = [file] := List.splitOn_eq_singleton fileFree
  rw [components_append, first, second]
  rfl

theorem belowBlobs_components (free : '/' ∉ directory)
    (fileFree : '/' ∉ file) {blob : GitBlob}
    (member : blob ∈ belowBlobs directory file) :
    ∃ last, components blob.path = [directory, last] := by
  simp only [belowBlobs, List.mem_cons, List.not_mem_nil, or_false] at member
  rcases member with rfl | rfl
  · exact ⟨file, components_below free fileFree⟩
  · exact ⟨GITKEEP, components_below free (by decide)⟩

theorem whole_below (free : '/' ∉ directory) (fileFree : '/' ∉ file)
    (other : file ≠ GITKEEP) {branch : GitTree}
    (blobs : branch.blobs.Perm (belowBlobs directory file)) :
    (belowListing directory file).Whole branch := by
  have shown : (belowListing directory file).blobs.Perm branch.blobs :=
    (List.reverse_perm (belowBlobs directory file)).trans blobs.symm
  constructor
  · constructor
    · intro blob
      exact shown.mem_iff.mp
    · intro _ blob
      exact shown.mem_iff.mpr
  · rfl
  · intro path
    simp only [blobs.mem_iff]
    constructor
    · rintro ⟨entry, member, isTree, rfl⟩
      simp only [belowListing, List.mem_cons, List.not_mem_nil, or_false]
        at member
      rcases member with rfl | rfl | rfl
      · refine ⟨_, List.mem_cons_self, beneath_iff.mpr (.inr ⟨file, rfl⟩), ?_⟩
        intro same
        simpa using congrArg List.length same
      · cases isTree
      · cases isTree
    · rintro ⟨blob, member, beneath, different⟩
      obtain ⟨last, parts⟩ := belowBlobs_components free fileFree member
      unfold Beneath at beneath
      rw [parts] at beneath
      rcases beneath_pair beneath with rfl | same
      · exact ⟨_, List.mem_cons_self, rfl, rfl⟩
      · exact (different (components_injective (same.trans parts.symm))).elim
  · have apart : GITKEEP ≠ file := Ne.symm other
    simp [belowListing, apart]

end Below

end Tgdcfs
