import Tgdcfs.Github.BackedRewrites
import Tgdcfs.Github.WholeListings
import Tgdcfs.Lib.Run

/-!
# The repository and the tree agree

In memory a directory is changed and the repository follows, one commit for
each change.  After any run of such calls a load of the branch gives the
directories and files that are in memory.
-/

namespace Tgdcfs

open Lib

/-- The same directories, and in each the same files with their messages. -/
structure LoadedTree.Agrees (tree : DirectoryTree) (loaded : LoadedTree) :
    Prop where
  directories : ∀ names,
    loaded.HasDirectory names ↔ ∃ id, tree.walk 0 names = some id
  files : ∀ names file, loaded.HasFile names file ↔
    ∃ id ref, tree.walk 0 names = some id ∧ tree.Lists id ref ∧
      file = ⟨ref.name, ref.messageId⟩

namespace GithubTree

variable {nameKey : Option PathNameKey} {state : GithubTree}
  {listing : TreeListing}

/-- A segment under which a ref may be stored stands for its file. -/
theorem segmentFile_form {ref : FileRef} {segment : List Char}
    (form : ref.FormOf nameKey segment) (plain : ref.Plain) :
    segmentFile nameKey segment = some ⟨ref.name, ref.messageId⟩ := by
  have reserved := form.reserved plain
  obtain ⟨encrypted, readable, rfl⟩ := form
  obtain ⟨_, value, short, number⟩ := plain
  rw [segmentFile, if_neg fun either => either.elim reserved.1 reserved.2,
    number, splitLast_refSegment, Option.bind_some, parseInt_toString short,
    Option.map_some]
  exact congrArg (fun name => some (LoadedFile.mk name _)) readable

/-- A blob lies in a directory in memory, and its file is one of its refs. -/
theorem Backed.blob (backed : state.Backed nameKey) {blob : GitBlob}
    (member : blob ∈ state.branch.blobs) :
    ∃ id segments last, components blob.path = segments ++ [last] ∧
      state.StoredAt nameKey id segments ∧ Named [last] ∧
      ∀ file, blob.file nameKey = some file →
        ∃ ref, state.tree.Lists id ref ∧ ref.FormOf nameKey last ∧
          file = ⟨ref.name, ref.messageId⟩ := by
  obtain ⟨id, segments, last, parts, stored, expected⟩ :=
    backed.sound _ ⟨blob, member, rfl⟩
  refine ⟨id, segments, last, parts, stored, ?_⟩
  rcases expected with rfl | rfl | ⟨ref, listed, form⟩
  · refine ⟨Named.single (by decide) (by decide), ?_⟩
    intro file isFile
    rw [GitBlob.file_eq (by decide) parts, segmentFile,
      if_pos (.inl rfl)] at isFile
    cases isFile
  · refine ⟨Named.single (by decide) (by decide), ?_⟩
    intro file isFile
    rw [GitBlob.file_eq (by decide) parts, segmentFile,
      if_pos (.inr rfl)] at isFile
    cases isFile
  · have plain := backed.plain id ref listed
    have named := form.named plain
    refine ⟨named, ?_⟩
    intro file isFile
    rw [GitBlob.file_eq (named last (by simp)).2 parts,
      segmentFile_form form plain] at isFile
    cases isFile
    exact ⟨ref, listed, form, rfl⟩

theorem Backed.loadable (backed : state.Backed nameKey) :
    state.branch.Loadable nameKey := by
  constructor
  · intro blob member
    obtain ⟨id, segments, last, parts, stored, named, _⟩ := backed.blob member
    rw [parts]
    exact (stored.named backed.wellFormed).append named
  · intro blob member name inside
    obtain ⟨id, segments, last, parts, stored, _⟩ := backed.blob member
    rw [GitBlob.names_eq parts] at inside
    obtain ⟨segment, above, rfl⟩ := List.mem_map.mp inside
    exact stored.valid backed.wellFormed backed.legible segment above
  · intro first firstIn second secondIn one other sameNames isOne isOther
      sameName
    obtain ⟨id, segments, last, parts, stored, _, files⟩ :=
      backed.blob firstIn
    obtain ⟨again, others, otherLast, otherParts, otherStored, _,
      otherFiles⟩ := backed.blob secondIn
    obtain ⟨ref, listed, form, rfl⟩ := files one isOne
    obtain ⟨otherRef, otherListed, otherForm, rfl⟩ := otherFiles other isOther
    -- The names lead to one directory, where the name is that of one ref.
    rw [GitBlob.names_eq parts, GitBlob.names_eq otherParts] at sameNames
    have walks := stored.walk backed.wellFormed backed.legible
    rw [sameNames, otherStored.walk backed.wellFormed backed.legible] at walks
    cases walks
    cases stored.unique backed.wellFormed otherStored
    have sameRef := backed.ref_of_name listed otherListed sameName
    subst sameRef
    have sameLast := backed.single id segments ref last otherLast stored listed
      form otherForm ⟨first, firstIn, parts⟩ ⟨second, secondIn, otherParts⟩
    have samePath : first.path = second.path := by
      apply components_injective
      rw [parts, otherParts, sameLast]
    apply state.branch.consistent first firstIn second secondIn
    left
    rw [samePath]
    exact List.prefix_rfl

theorem Backed.agrees (backed : state.Backed nameKey)
    (whole : listing.Whole state.branch) :
    (buildFromTree (nameCipher nameKey) listing.tree).Agrees state.tree := by
  have loads := backed.loadable.loads whole
  constructor
  · intro names
    rw [loads.directories]
    constructor
    · rintro (rfl | ⟨blob, member, begins⟩)
      · exact ⟨0, rfl⟩
      · obtain ⟨id, segments, last, parts, stored, _⟩ := backed.blob member
        rw [GitBlob.names_eq parts] at begins
        obtain ⟨above, shorter, rfl⟩ := List.prefix_map_iff.mp begins
        obtain ⟨parent, storedAbove⟩ := stored.of_prefix shorter
        exact ⟨parent, storedAbove.walk backed.wellFormed backed.legible⟩
    · rintro ⟨id, walks⟩
      obtain ⟨segments, stored, rfl⟩ :=
        StoredAt.of_walk backed.wellFormed backed.legible walks
      by_cases root : id = 0
      · subst root
        rw [stored.unique backed.wellFormed .root]
        exact .inl rfl
      · obtain ⟨blob, member, parts⟩ :=
          backed.placeholder id segments stored root
        refine .inr ⟨blob, member, ?_⟩
        rw [GitBlob.names_eq parts]
  · intro names file
    rw [loads.files]
    constructor
    · rintro ⟨blob, member, rfl, isFile⟩
      obtain ⟨id, segments, last, parts, stored, _, files⟩ :=
        backed.blob member
      obtain ⟨ref, listed, _, same⟩ := files file isFile
      rw [GitBlob.names_eq parts]
      exact ⟨id, ref, stored.walk backed.wellFormed backed.legible, listed,
        same⟩
    · rintro ⟨id, ref, walks, listed, rfl⟩
      obtain ⟨segments, stored, rfl⟩ :=
        StoredAt.of_walk backed.wellFormed backed.legible walks
      obtain ⟨segment, form, blob, member, parts⟩ :=
        backed.stored id segments ref stored listed
      have plain := backed.plain id ref listed
      refine ⟨blob, member, GitBlob.names_eq parts, ?_⟩
      rw [GitBlob.file_eq (form.named plain segment (by simp)).2 parts]
      exact segmentFile_form form plain

/-- What is relied on in a call.  GitHub may refuse any of it, except where a
file or a directory is deleted: there the calls succeed.  A file has a name
and a number that a path can carry, and a directory that is stored in plain
text is not given a name that looks encrypted, nor the path of a blob. -/
def Settles (nameKey : Option PathNameKey) (state : GithubTree) :
    GithubCall → Prop
  | .createDir github _ _ => github.Lawful
  | .createFileRef github _ file => github.Lawful ∧ file.Plain
  | .deleteFileRef github location file =>
      github.Lawful ∧ github.Deletes state.branch ∧
        state.tree.Lists location file
  | .relocateFileRef github source file _ newName =>
      github.Lawful ∧ (∀ branch, github.Deletes branch) ∧
        state.tree.Lists source file ∧
        FileRef.Plain
          { file with
            name := DirectoryTree.newNameOr newName file.name }
  | .moveTo github id newParent newName =>
      github.Lawful ∧ github.Lists state.branch ∧
        ∀ dir, state.tree.dirs.get? id = some dir →
          ReadableName nameKey (state.storedEncrypted id)
            (DirectoryTree.newNameOr newName dir.name) ∧
          ∀ blob ∈ state.branch.blobs, blob.path ≠ state.movedPath nameKey id
            newParent (DirectoryTree.newNameOr newName dir.name)
  | .delete github id =>
      github.Lawful ∧ github.Lists state.branch ∧ github.Succeeds ∧
        ∃ dir parent, state.tree.dirs.get? id = some dir ∧
          dir.parent = some parent
  | .saveStats github _ => github.Lawful

theorem githubStep_backed (nameKey : Option PathNameKey)
    (state : GithubTree) (call : GithubCall) (next : GithubTree)
    (backed : state.Backed nameKey) (settles : Settles nameKey state call)
    (step : githubStep nameKey state call = some next) :
    next.Backed nameKey := by
  cases call with
  | createDir github under name =>
      cases step
      exact backed.createDir settles under name
  | createFileRef github location file =>
      cases step
      exact backed.createFileRef settles.1 settles.2
  | deleteFileRef github location file =>
      cases step
      exact backed.deleteFileRef settles.1 settles.2.1 settles.2.2
  | relocateFileRef github source file target newName =>
      cases step
      obtain ⟨lawful, deletes, listed, plain⟩ := settles
      exact backed.relocateFileRef lawful deletes listed target plain
  | moveTo github id newParent newName =>
      cases step
      obtain ⟨lawful, lists, free⟩ := settles
      exact backed.moveTo lawful lists (fun dir found => (free dir found).1)
        fun dir found => (free dir found).2
  | delete github id =>
      cases step
      obtain ⟨lawful, lists, succeeds, dir, parent, found, isParent⟩ := settles
      exact backed.delete lawful lists succeeds found isParent
  | saveStats github changes =>
      cases step
      exact backed.saveStats settles changes

/-- An empty repository, with the root in memory. -/
def empty (nameKey : Option PathNameKey) : GithubTree :=
  ⟨LocatedTree.emptyRoot.tree, fun _ => nameKey.isSome, ⟨[], by simp⟩⟩

theorem empty_backed (nameKey : Option PathNameKey) :
    (empty nameKey).Backed nameKey := by
  have root : ∀ id dir, LocatedTree.emptyRoot.tree.dirs.get? id = some dir →
      id = 0 ∧ dir = ⟨"root".toList, none, [], []⟩ := by
    intro id dir found
    rw [LocatedTree.emptyRoot, Dict.get?_set] at found
    by_cases isRoot : id = 0
    · rw [if_pos isRoot] at found
      cases found
      exact ⟨isRoot, rfl⟩
    · rw [if_neg isRoot] at found
      cases found
  have noFiles : ∀ id file, ¬LocatedTree.emptyRoot.tree.Lists id file := by
    rintro id file ⟨dir, found, member⟩
    obtain ⟨rfl, rfl⟩ := root id dir found
    cases member
  have nothing : ∀ path, ¬(empty nameKey).branch.Holds path := by
    rintro path ⟨blob, member, _⟩
    cases member
  have wellFormed := LocatedTree.emptyRoot_orderly.wellFormed
  constructor
  · exact wellFormed
  · intro id parent name above
    obtain ⟨dir, found, isParent, _⟩ := DirectoryTree.up_eq_some above
    obtain ⟨rfl, rfl⟩ := root id dir found
    cases isParent
  · intro id file listed
    exact (noFiles id file listed).elim
  · intro id segments stored notRoot
    obtain ⟨dir, found⟩ := stored.found wellFormed
    exact (notRoot (root id dir found).1).elim
  · intro id segments file stored listed
    exact (noFiles id file listed).elim
  · intro id segments file first second stored listed
    exact (noFiles id file listed).elim
  · intro path held
    exact (nothing path held).elim

/-- After any run of calls on the directories a load of the branch gives the
directories and the files in memory, whichever calls GitHub refused. -/
theorem reload_agrees (nameKey : Option PathNameKey)
    {start finish : GithubTree} (backed : start.Backed nameKey)
    (reachable : ReachableWithin (githubStep nameKey) (Settles nameKey) start
      finish)
    {listing : TreeListing} (whole : listing.Whole finish.branch) :
    (buildFromTree (nameCipher nameKey) listing.tree).Agrees finish.tree :=
  (reachable.invariant (githubStep_backed nameKey) backed).agrees whole

/-- GitHub with the files of the branch; it refuses paths that clash. -/
def branchApi : ContentsApi :=
  { createFile := fun branch path =>
      let blobs := ⟨path, "100644", "e69de29"⟩ :: branch.blobs
      if consistent : ∀ first ∈ blobs, ∀ second ∈ blobs,
          Clash first.path second.path → first = second then
        .ok ⟨blobs, consistent⟩
      else .error (.status 422)
    getContents := fun branch path =>
      match branch.blobs.find? (·.path = path) with
      | some blob => .ok blob.sha
      | none => .error (.status 404)
    deleteFile := fun branch path _ =>
      if branch.blobs.any (·.path = path) then
        .ok ⟨branch.blobs.filter (·.path ≠ path), fun first left second kept =>
          branch.consistent first (List.mem_of_mem_filter left) second
            (List.mem_of_mem_filter kept)⟩
      else .error (.status 404) }

theorem branchApi_lawful : branchApi.Lawful := by
  constructor
  · intro branch path after creates
    refine ⟨⟨path, "100644", "e69de29"⟩, rfl, ?_⟩
    simp only [branchApi] at creates
    split at creates
    · cases creates
      intro other
      rw [List.mem_cons, or_comm]
    · cases creates
  · intro branch path sha after deletes
    simp only [branchApi] at deletes
    split at deletes
    · rename_i present
      cases deletes
      refine ⟨by simpa using present, ?_⟩
      intro other
      simp
    · cases deletes

/-- GitHub while nothing can be written. -/
def refusingApi : ContentsApi :=
  { branchApi with createFile := fun _ _ => .error (.status 502) }

theorem refusingApi_lawful : refusingApi.Lawful := by
  constructor
  · intro branch path after creates
    cases creates
  · exact branchApi_lawful.deleted

/-- The branch before and after the move. -/
def blobsBelow (directory : List Char) : List GitBlob :=
  [⟨directory ++ "/f.7".toList, "100644", "e69de29"⟩,
    ⟨directory ++ "/.gitkeep".toList, "100644", "e69de29"⟩]

/-- A directory with a file is renamed, and a second directory refused. -/
def renamedRun : List GithubCall :=
  [.createDir branchApi 0 ['a'],
    .createFileRef branchApi 1 ⟨7, ['f'], .empty, none⟩,
    .createDir refusingApi 0 ['c'],
    .moveTo (DirectoryRewrite.listingApi (blobsBelow ['a']) false) 1 0 ['b']]

def renamedListing : TreeListing :=
  ⟨[⟨.tree, ['b'], "040000", "4b825dc"⟩,
    ⟨.blob, "b/.gitkeep".toList, "100644", "e69de29"⟩,
    ⟨.blob, "b/f.7".toList, "100644", "e69de29"⟩], false⟩

theorem renamedListing_whole {branch : GitTree}
    (blobs : branch.blobs = blobsBelow ['b']) :
    renamedListing.Whole branch :=
  whole_below (by decide) (by decide) (by decide) (List.Perm.of_eq blobs)

/-- The renamed directory and its file are loaded, and no other. -/
theorem renamed_reload_agrees :
    ∃ finish, ReachableWithin (githubStep none) (Settles none) (empty none)
        finish ∧ renamedListing.Whole finish.branch ∧
      (buildFromTree (nameCipher none) renamedListing.tree).Agrees
        finish.tree ∧
      finish.tree.walk 0 [['b']] = some 1 := by
  have guarded : Guarded (githubStep none) (Settles none) (empty none)
      renamedRun := by
    refine ⟨branchApi_lawful, ?_⟩
    rintro _ ⟨⟩
    have short : 7 < 10 ^ maxDigits :=
      (by decide : 7 < 10 ^ 1).trans_le
        (Nat.pow_le_pow_right (by decide) (by decide))
    refine ⟨⟨branchApi_lawful, by decide, 7, short, rfl⟩, ?_⟩
    rintro _ ⟨⟩
    refine ⟨refusingApi_lawful, ?_⟩
    rintro _ ⟨⟩
    refine ⟨⟨DirectoryRewrite.listingApi_lawful _ _, ?_, ?_⟩, ?_⟩
    · rintro _ ⟨⟩
      exact ⟨⟨by decide +kernel, by decide +kernel⟩, rfl⟩
    · intro dir found
      have renamed : DirectoryTree.newNameOr ['b'] dir.name = ['b'] := rfl
      rw [renamed]
      exact ⟨by decide +kernel, by decide +kernel⟩
    · rintro _ ⟨⟩
      trivial
  have ends : (run (githubStep none) (empty none) renamedRun).map
      (fun state => (state.branch.blobs, state.tree.walk 0 [['b']])) =
        some (blobsBelow ['b'], some 1) := by
    decide +kernel
  obtain ⟨finish, finished, summary⟩ := Option.map_eq_some_iff.mp ends
  obtain ⟨blobs, walks⟩ := Prod.mk.inj summary
  have whole := renamedListing_whole blobs
  exact ⟨finish, ⟨renamedRun, guarded, finished⟩, whole,
    reload_agrees none (empty_backed none) ⟨renamedRun, guarded, finished⟩
      whole, walks⟩

end GithubTree

end Tgdcfs
