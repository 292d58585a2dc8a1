import Tgdcfs.Github.BackedDirectories

/-!
# Calls of the Contents API

A directory or a file is created with one blob, and a file deleted with one.
What the repository refuses does not change the tree in memory either.
-/

namespace Tgdcfs

open Lib

/-- A created file is one more blob, and a deleted file was there and is the
only one that goes. -/
structure ContentsApi.Lawful (github : ContentsApi) : Prop where
  created : ∀ branch path after, github.createFile branch path = .ok after →
    ∃ blob, blob.path = path ∧
      ∀ other, other ∈ after.blobs ↔ other ∈ branch.blobs ∨ other = blob
  deleted : ∀ branch path sha after,
    github.deleteFile branch path sha = .ok after →
      (∃ blob ∈ branch.blobs, blob.path = path) ∧
      ∀ other, other ∈ after.blobs ↔ other ∈ branch.blobs ∧ other.path ≠ path

/-- The calls that delete a file succeed where the file exists. -/
def ContentsApi.Deletes (github : ContentsApi) (branch : GitTree) : Prop :=
  ∀ blob ∈ branch.blobs, ∃ sha after,
    github.getContents branch blob.path = .ok sha ∧
      github.deleteFile branch blob.path sha = .ok after

namespace ContentsApi

variable {github : ContentsApi} {branch after : GitTree} {path : StoragePath}
  {segments : List (List Char)}

theorem Lawful.created_holds (lawful : github.Lawful)
    (creates : github.createFile branch path = .ok after) :
    after.Holds segments ↔
      branch.Holds segments ∨ segments = components path := by
  obtain ⟨blob, rfl, only⟩ := lawful.created branch path after creates
  constructor
  · rintro ⟨other, member, rfl⟩
    rcases (only other).mp member with before | rfl
    · exact .inl ⟨other, before, rfl⟩
    · exact .inr rfl
  · rintro (⟨other, before, rfl⟩ | rfl)
    · exact ⟨other, (only other).mpr (.inl before), rfl⟩
    · exact ⟨blob, (only blob).mpr (.inr rfl), rfl⟩

theorem Lawful.deleted_held (lawful : github.Lawful) {sha : String}
    (deletes : github.deleteFile branch path sha = .ok after) :
    branch.Holds (components path) := by
  obtain ⟨⟨blob, member, rfl⟩, _⟩ :=
    lawful.deleted branch path sha after deletes
  exact ⟨blob, member, rfl⟩

theorem Lawful.deleted_holds (lawful : github.Lawful) {sha : String}
    (deletes : github.deleteFile branch path sha = .ok after) :
    after.Holds segments ↔
      branch.Holds segments ∧ segments ≠ components path := by
  obtain ⟨_, only⟩ := lawful.deleted branch path sha after deletes
  constructor
  · rintro ⟨other, left, rfl⟩
    obtain ⟨before, different⟩ := (only other).mp left
    exact ⟨⟨other, before, rfl⟩,
      fun same => different (components_injective same)⟩
  · rintro ⟨⟨other, before, rfl⟩, different⟩
    refine ⟨other, (only other).mpr ⟨before, ?_⟩, rfl⟩
    intro same
    exact different (congrArg components same)

end ContentsApi

namespace GithubTree

open DirectoryTree

variable {nameKey : Option PathNameKey} {state : GithubTree}
  {github : ContentsApi}

/-- The segments of a path that is joined below a directory. -/
theorem Backed.components_joinPath (backed : state.Backed nameKey) {id : Nat}
    {segments more : List (List Char)}
    (stored : state.StoredAt nameKey id segments) (named : Named more)
    (below : more ≠ []) :
    components (joinPath (state.githubPath nameKey id :: more)) =
      segments ++ more := by
  rw [githubPath_eq backed.wellFormed stored]
  exact Tgdcfs.components_joinPath (stored.named backed.wellFormed) named
    below

theorem Backed.createDir (backed : state.Backed nameKey)
    (lawful : github.Lawful) (under : Nat) (name : Name) :
    (state.createDir nameKey github under name).1.Backed nameKey := by
  unfold GithubTree.createDir
  dsimp only
  cases creates : state.tree.createDir under state.tree.nextId name with
  | error error => exact backed
  | ok created =>
      have fresh := state.tree.nextId_fresh
      have rehung := createDir_rehung backed.wellFormed fresh creates
      obtain ⟨dir, found⟩ := rehung.above
      obtain ⟨above, stored⟩ :=
        StoredAt.of_get nameKey backed.wellFormed found
      have named : Named [storedForm nameKey true name, GITKEEP] :=
        (storedForm_named rehung.valid).append
          (.single (by decide) (by decide))
      dsimp only
      cases writes : github.createFile state.branch
          (joinPath [state.githubPath nameKey under,
            storedForm nameKey true name, GITKEEP]) with
      | error error => exact backed
      | ok branch =>
          refine backed.dirCreated rehung fresh stored ?_
          intro path
          rw [lawful.created_holds writes,
            backed.components_joinPath stored named (List.cons_ne_nil _ _)]

/-- What is left of a successful creation, for the deletion that may
follow. -/
theorem createFileRef_ok {location : Nat} {file : FileRef}
    {reached : GithubTree}
    (done : state.createFileRef nameKey github location file =
      (reached, .ok ())) :
    ∃ created, state.tree.createFileRef location file = .ok created ∧
      reached.tree = created := by
  unfold GithubTree.createFileRef at done
  cases creates : state.tree.createFileRef location file with
  | error error =>
      rw [creates] at done
      cases done
  | ok created =>
      rw [creates] at done
      dsimp only at done
      cases writes : github.createFile state.branch
          (joinPath [state.githubPath nameKey location,
            fileRefStorageName nameKey file.name file.messageId]) with
      | error error =>
          rw [writes] at done
          cases done
      | ok branch =>
          rw [writes] at done
          cases done
          exact ⟨created, rfl, rfl⟩

theorem Backed.createFileRef (backed : state.Backed nameKey)
    (lawful : github.Lawful) {location : Nat} {file : FileRef}
    (plain : file.Plain) :
    (state.createFileRef nameKey github location file).1.Backed nameKey := by
  unfold GithubTree.createFileRef
  cases creates : state.tree.createFileRef location file with
  | error error => exact backed
  | ok created =>
      obtain ⟨dir, found, _⟩ := DirectoryTree.createFileRef_ok creates
      obtain ⟨above, stored⟩ :=
        StoredAt.of_get nameKey backed.wellFormed found
      have form : file.FormOf nameKey _ := file.formOf_fileRefStorageName
      dsimp only
      cases writes : github.createFile state.branch
          (joinPath [state.githubPath nameKey location,
            fileRefStorageName nameKey file.name file.messageId]) with
      | error error => exact backed
      | ok branch =>
          refine backed.fileCreated stored creates plain form ?_
          intro path
          rw [lawful.created_holds writes, backed.components_joinPath stored
            (form.named plain) (List.cons_ne_nil _ _)]

section Delete

variable {id : Nat} {above : List (List Char)} {segment : List Char}
  {more : List (List Char)}

theorem Backed.deleteFirst_held (backed : state.Backed nameKey)
    (lawful : github.Lawful) (deletes : github.Deletes state.branch)
    (stored : state.StoredAt nameKey id above) (named : Named [segment])
    (held : state.branch.Holds (above ++ [segment])) :
    ∃ after, deleteFirst github state.branch (state.githubPath nameKey id)
        (segment :: more) = some after ∧
      ∀ path, after.Holds path ↔
        state.branch.Holds path ∧ path ≠ above ++ [segment] := by
  have parts := backed.components_joinPath stored named
    (List.cons_ne_nil _ _)
  obtain ⟨blob, member, same⟩ := held
  rw [← parts] at same
  have path := components_injective same
  obtain ⟨sha, after, answered, deleted⟩ := deletes blob member
  rw [path] at answered deleted
  refine ⟨after, ?_, ?_⟩
  · simp only [deleteFirst, answered, Except.bind, deleted]
  · intro other
    rw [lawful.deleted_holds deleted, parts]

theorem Backed.deleteFirst_missing (backed : state.Backed nameKey)
    (lawful : github.Lawful) (stored : state.StoredAt nameKey id above)
    (named : Named [segment])
    (missing : ¬state.branch.Holds (above ++ [segment])) :
    deleteFirst github state.branch (state.githubPath nameKey id)
        (segment :: more) =
      deleteFirst github state.branch (state.githubPath nameKey id) more := by
  have parts := backed.components_joinPath stored named
    (List.cons_ne_nil _ _)
  simp only [deleteFirst]
  generalize joinPath [state.githubPath nameKey id, segment] = path at parts
  cases answered : github.getContents state.branch path with
  | error error => rfl
  | ok sha =>
      cases deleted : github.deleteFile state.branch path sha with
      | error error => simp only [Except.bind, deleted]
      | ok after =>
          have held := lawful.deleted_held deleted
          rw [parts] at held
          exact (missing held).elim

theorem refCandidates_none (file : FileRef) :
    refCandidates none file =
      [fileRefStorageName none file.name file.messageId] := by
  simp [refCandidates, fileRefStorageName, storedForm, List.eraseDups_cons]

theorem refCandidates_some (key : PathNameKey) (file : FileRef) :
    refCandidates (some key) file =
      fileRefStorageName (some key) file.name file.messageId ::
        if refSegment file.name file.messageId =
            fileRefStorageName (some key) file.name file.messageId then []
        else [refSegment file.name file.messageId] := by
  simp only [refCandidates, Option.isSome_some, if_true, List.singleton_append,
    List.eraseDups_cons, List.filter_cons, List.filter_nil]
  split <;> simp_all [List.eraseDups_cons]

theorem Backed.deleteFirst_form (backed : state.Backed nameKey)
    (lawful : github.Lawful) (deletes : github.Deletes state.branch)
    (stored : state.StoredAt nameKey id above) {file : FileRef}
    (listed : state.tree.Lists id file) (form : file.FormOf nameKey segment)
    (held : state.branch.Holds (above ++ [segment])) :
    ∃ after, deleteFirst github state.branch (state.githubPath nameKey id)
        (refCandidates nameKey file) = some after ∧
      ∀ path, after.Holds path ↔
        state.branch.Holds path ∧ path ≠ above ++ [segment] := by
  have plain := backed.plain id file listed
  have named := form.named plain
  have written : file.FormOf nameKey _ := file.formOf_fileRefStorageName
  have candidates : ∃ rest, refCandidates nameKey file =
      fileRefStorageName nameKey file.name file.messageId :: rest ∧
        (segment ≠ fileRefStorageName nameKey file.name file.messageId →
          rest = [segment]) := by
    obtain ⟨encrypted, _, rfl⟩ := form
    cases nameKey with
    | none =>
        refine ⟨[], refCandidates_none file, ?_⟩
        intro different
        exact (different rfl).elim
    | some key =>
        refine ⟨_, refCandidates_some key file, ?_⟩
        intro different
        cases encrypted with
        | true => exact (different rfl).elim
        | false => exact if_neg different
  obtain ⟨rest, candidates, last⟩ := candidates
  rw [candidates]
  by_cases first : segment =
      fileRefStorageName nameKey file.name file.messageId
  · rw [← first]
    exact backed.deleteFirst_held lawful deletes stored named held
  · rw [backed.deleteFirst_missing lawful stored (written.named plain) ?_,
      last first]
    · exact backed.deleteFirst_held lawful deletes stored named held
    · intro other
      exact first (backed.single id above file _ _ stored listed form written
        held other)

theorem Backed.deleteFileRef (backed : state.Backed nameKey)
    (lawful : github.Lawful) (deletes : github.Deletes state.branch)
    {file : FileRef} (listed : state.tree.Lists id file) :
    (state.deleteFileRef nameKey github id file).Backed nameKey := by
  have known := listed
  obtain ⟨dir, found, _⟩ := known
  obtain ⟨above, stored⟩ := StoredAt.of_get nameKey backed.wellFormed found
  obtain ⟨segment, form, held⟩ := backed.stored id above file stored listed
  obtain ⟨after, deleted, holds⟩ := backed.deleteFirst_form lawful deletes
    stored listed form held
  unfold GithubTree.deleteFileRef
  rw [deleted, Option.getD_some]
  exact backed.fileDeleted stored listed form held holds

theorem Backed.relocateFileRef (backed : state.Backed nameKey)
    (lawful : github.Lawful) (deletes : ∀ branch, github.Deletes branch)
    {file : FileRef} (listed : state.tree.Lists id file) (target : Nat)
    {newName : Name}
    (plain : FileRef.Plain
      { file with name := newNameOr newName file.name }) :
    (state.relocateFileRef nameKey github id file target
      newName).1.Backed nameKey := by
  unfold GithubTree.relocateFileRef
  dsimp only
  by_cases stays : target = id ∧ newNameOr newName file.name = file.name
  · rw [if_pos stays]
    exact backed
  · rw [if_neg stays]
    have made : (state.createFileRef nameKey github target
        { file with name := newNameOr newName file.name }).1.Backed nameKey :=
      backed.createFileRef lawful plain
    generalize result : state.createFileRef nameKey github target
      { file with name := newNameOr newName file.name } = answer at made
    obtain ⟨reached, outcome⟩ := answer
    cases outcome with
    | error error => exact made
    | ok done =>
        obtain ⟨created, creates, same⟩ := createFileRef_ok result
        have stillListed : reached.tree.Lists id file := by
          rw [same, DirectoryTree.createFileRef_lists creates]
          exact .inl listed
        exact made.deleteFileRef lawful (deletes reached.branch) stillListed

end Delete

end GithubTree

end Tgdcfs
