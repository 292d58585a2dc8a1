import Tgdcfs.Core.Volume
import Tgdcfs.Github.Rewrite
import Tgdcfs.Github.StoragePaths

/-!
# The tree behind which the repository stands

`GithubDirectory` keeps the repository in step with the directories in
memory: every operation changes the tree in memory and makes its own commit.
What fails in GitHub is undone in memory or, for a deletion, only logged.
-/

namespace Tgdcfs

open Lib

/-- The Contents API, from the head of the branch to the one it leaves. -/
structure ContentsApi where
  createFile : GitTree → StoragePath → Except GithubError GitTree
  getContents : GitTree → StoragePath → Except GithubError String
  deleteFile : GitTree → StoragePath → String → Except GithubError GitTree

/-- A commit on top of the head; the reference is edited once an attempt. -/
structure StatsApi where
  createGitTree : GitTree → List (StoragePath × Option String) →
    Except GithubError GitTree
  createGitCommit : Except GithubError Unit
  editRef : Nat → Except GithubError Unit

inductive GithubFailure where
  | directory (error : DirectoryError)
  | github (error : GithubError)

/-- The directories in memory, which of them are stored under encrypted
names, and the head of the branch. -/
structure GithubTree where
  tree : DirectoryTree
  storedEncrypted : Nat → Bool
  branch : GitTree

/-- A name as the repository has it. -/
def storedForm (nameKey : Option PathNameKey) (encrypted : Bool)
    (name : Name) : List Char :=
  match nameKey with
  | none => name
  | some key => if encrypted then key.encryptPathName name else name

/-- The file name of a ref whose name is stored in this form. -/
def refSegment (stored : List Char) (messageId : Int) : List Char :=
  stored ++ '.' :: (toString messageId).toList

/-- `_file_ref_storage_name`. -/
def fileRefStorageName (nameKey : Option PathNameKey) (name : Name)
    (messageId : Int) : List Char :=
  refSegment (storedForm nameKey true name) messageId

namespace GithubTree

variable (nameKey : Option PathNameKey)

/-- `_github_path`, with `_storage_name` of each directory. -/
def githubPathWithin (state : GithubTree) : Nat → Nat → StoragePath
  | 0, _ => []
  | fuel + 1, id =>
      match state.tree.dirs.get? id with
      | none => []
      | some dir =>
          match dir.parent with
          | none => []
          | some parent =>
              joinPath [state.githubPathWithin fuel parent,
                storedForm nameKey (state.storedEncrypted id) dir.name]

def githubPath (state : GithubTree) (id : Nat) : StoragePath :=
  state.githubPathWithin nameKey state.tree.dirs.size id

/-- A new directory follows the configured key. -/
def createDir (github : ContentsApi) (state : GithubTree) (under : Nat)
    (name : Name) : GithubTree × Except GithubFailure Unit :=
  let id := state.tree.nextId
  match state.tree.createDir under id name with
  | .error error => (state, .error (.directory error))
  | .ok created =>
      match github.createFile state.branch
          (joinPath [state.githubPath nameKey under,
            storedForm nameKey true name, GITKEEP]) with
      | .error error => (state, .error (.github error))
      | .ok branch =>
          (⟨created, Function.update state.storedEncrypted id nameKey.isSome,
            branch⟩, .ok ())

def createFileRef (github : ContentsApi) (state : GithubTree)
    (location : Nat) (file : FileRef) :
    GithubTree × Except GithubFailure Unit :=
  match state.tree.createFileRef location file with
  | .error error => (state, .error (.directory error))
  | .ok created =>
      match github.createFile state.branch
          (joinPath [state.githubPath nameKey location,
            fileRefStorageName nameKey file.name file.messageId]) with
      | .error error => (state, .error (.github error))
      | .ok branch => ({ state with tree := created, branch }, .ok ())

/-- The first of the segments that can be deleted is. -/
def deleteFirst (github : ContentsApi) (branch : GitTree)
    (directory : StoragePath) : List (List Char) → Option GitTree
  | [] => none
  | segment :: segments =>
      let path := joinPath [directory, segment]
      match (github.getContents branch path).bind
          (github.deleteFile branch path) with
      | .ok after => some after
      | .error _ => deleteFirst github branch directory segments

/-- The names under which a ref may be stored, each once. -/
def refCandidates (file : FileRef) : List (List Char) :=
  ((if nameKey.isSome then
      [fileRefStorageName nameKey file.name file.messageId] else []) ++
    [refSegment file.name file.messageId]).eraseDups

/-- That no name could be deleted is only logged. -/
def deleteFileRef (github : ContentsApi) (state : GithubTree)
    (location : Nat) (file : FileRef) : GithubTree :=
  { state with
    tree := state.tree.deleteFileRef location file
    branch := (deleteFirst github state.branch
      (state.githubPath nameKey location)
      (refCandidates nameKey file)).getD state.branch }

/-- The new ref is made before the old one is dropped. -/
def relocateFileRef (github : ContentsApi) (state : GithubTree)
    (source : Nat) (file : FileRef) (target : Nat) (newName : Name) :
    GithubTree × Except GithubFailure Unit :=
  let name := DirectoryTree.newNameOr newName file.name
  if target = source ∧ name = file.name then (state, .ok ())
  else
    match state.createFileRef nameKey github target { file with name } with
    | (reached, .error error) => (reached, .error error)
    | (reached, .ok ()) =>
        (reached.deleteFileRef nameKey github source file, .ok ())

/-- Put a moved directory back to where it was. -/
def putBack (state : GithubTree) (moved : DirectoryTree)
    (id newParent : Nat) : DirectoryTree :=
  match state.tree.dirs.get? id with
  | none => moved
  | some dir =>
      match dir.parent with
      | none => moved
      | some oldParent => moved.rehang id newParent oldParent dir.name

def moveTo (github : GitDataApi) (state : GithubTree) (id newParent : Nat)
    (newName : Name) : GithubTree × Except GithubFailure Unit :=
  match state.tree.moveTo id newParent newName with
  | .error error => (state, .error (.directory error))
  | .ok moved =>
      let reached := { state with tree := moved }
      let oldPath := state.githubPath nameKey id
      let newPath := reached.githubPath nameKey id
      if oldPath = [] ∨ newPath = [] ∨ oldPath = newPath then
        (reached, .ok ())
      else
        match moveGithubDirectory github oldPath newPath with
        | .ok committed =>
            ({ reached with branch := committed.getD state.branch }, .ok ())
        | .error error =>
            ({ state with tree := state.putBack moved id newParent },
              .error (.github error))

/-- The root is cleared in memory only. -/
def delete (github : GitDataApi) (state : GithubTree) (id : Nat) :
    GithubTree :=
  let isRoot := ((state.tree.dirs.get? id).bind Directory.parent).isNone
  { state with
    tree := state.tree.delete id
    branch :=
      if isRoot then state.branch
      else (deleteGithubDirectory github
        (state.githubPath nameKey id)).getD state.branch }

def statsPath (state : GithubTree) (id : Nat) : StoragePath :=
  joinPath [state.githubPath nameKey id, STATS_FILE_NAME]

end GithubTree

def STATS_COMMIT_ATTEMPTS : Nat := 3

/-- `_commit_stats` with so many attempts left after the first ones. -/
def commitStatsFrom (github : StatsApi) (branch : GitTree)
    (writes : List (StoragePath × Option String)) :
    Nat → Except GithubError GitTree
  | 0 => .ok branch
  | left + 1 => do
      let tree ← github.createGitTree branch writes
      github.createGitCommit
      match github.editRef (STATS_COMMIT_ATTEMPTS - (left + 1)) with
      | .ok () => return tree
      | .error error =>
          if left = 0 then throw error
          else commitStatsFrom github branch writes left

namespace GithubTree

/-- The writing half of `save_stats`: the directories still in the tree, each
with its new content or none. -/
def saveStats (nameKey : Option PathNameKey) (github : StatsApi)
    (state : GithubTree) (changes : List (Nat × Option String)) :
    GithubTree × Except GithubFailure Unit :=
  let writes := (changes.filter fun change =>
    (state.tree.dirs.get? change.1).isSome).map fun change =>
      (state.statsPath nameKey change.1, change.2)
  if writes = [] then (state, .ok ())
  else
    match commitStatsFrom github state.branch writes
        STATS_COMMIT_ATTEMPTS with
    | .error error => (state, .error (.github error))
    | .ok branch => ({ state with branch }, .ok ())

end GithubTree

/-- What is called on the directories. -/
inductive GithubCall where
  | createDir (github : ContentsApi) (under : Nat) (name : Name)
  | createFileRef (github : ContentsApi) (location : Nat) (file : FileRef)
  | deleteFileRef (github : ContentsApi) (location : Nat) (file : FileRef)
  | relocateFileRef (github : ContentsApi) (source : Nat) (file : FileRef)
      (target : Nat) (newName : Name)
  | moveTo (github : GitDataApi) (id newParent : Nat) (newName : Name)
  | delete (github : GitDataApi) (id : Nat)
  | saveStats (github : StatsApi) (changes : List (Nat × Option String))

/-- The state after a call, whether it raised or not. -/
def githubStep (nameKey : Option PathNameKey) (state : GithubTree) :
    GithubCall → Option GithubTree
  | .createDir github under name =>
      some (state.createDir nameKey github under name).1
  | .createFileRef github location file =>
      some (state.createFileRef nameKey github location file).1
  | .deleteFileRef github location file =>
      some (state.deleteFileRef nameKey github location file)
  | .relocateFileRef github source file target newName =>
      some (state.relocateFileRef nameKey github source file target
        newName).1
  | .moveTo github id newParent newName =>
      some (state.moveTo nameKey github id newParent newName).1
  | .delete github id => some (state.delete nameKey github id)
  | .saveStats github changes =>
      some (state.saveStats nameKey github changes).1

end Tgdcfs
