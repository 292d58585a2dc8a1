import Tgdcfs.Core.Ops

/-!
# Operations whose stores may fail

`Ops` edits the tree in memory first and writes the metadata afterwards, and a
removal deletes messages after that.  An operation that raises may therefore
have changed the tree already; here it answers what it leaves beside what it
raises.  The answers of the stores are given.
-/

namespace Tgdcfs

open Lib

/-- The tree in memory and the messages that the stores hold.  A new directory
takes the node `nextDir` and a new descriptor the message `nextMessage`;
neither is given out twice.  A ref stands as reading its descriptor leaves
it. -/
structure Volume where
  tree : DirectoryTree
  stored : String × Int → Bool
  nextDir : Nat
  nextMessage : Int

inductive OpsFailure where
  | invalidPath (path : List Char)
  /-- A directory that is not there, or a step above the root. -/
  | unresolved (path : List Char)
  | doesNotExist (name : Name)
  | directory (failure : DirectoryError)
  | isNotEmpty (path : List Char)
  | notImplemented (message : String)
  | recursion
  /-- The listing cache has nothing above its root. -/
  | noParent
  /-- A store or the metadata repository raised. -/
  | stores

/-- What an operation leaves, and what it raises. -/
abbrev OpsAttempt := Volume × Option OpsFailure

/-- Whether the metadata is written after a removal, which messages are
deleted then, and whether all of that goes through. -/
structure RemovalAnswer where
  pushed : Bool
  deleted : List (String × Int)
  finished : Bool

/-- The mirrors and the store of the descriptor of a copy, unless reading,
copying or saving raises; the messages made for it, and those of them that
are left when it is given up. -/
structure CopyAnswer where
  saved : Option (Dict String Int × Option String)
  made : List (String × Int)
  left : List (String × Int)
  announced : Bool

/-- The answers during one request, those of copies by the directory and the
file copied. -/
structure StoreAnswers where
  removal : RemovalAnswer
  copy : Nat → FileRef → CopyAnswer
  pushed : Bool

namespace DirectoryTree

/-- The file that a path names, with its directory. -/
def fileAt (tree : DirectoryTree) (path : List Char) :
    Except OpsFailure (Nat × FileRef) :=
  if !validPath path then .error (.invalidPath path)
  else
    match tree.cd (dirname path) with
    | none => .error (.unresolved (dirname path))
    | some location =>
        match tree.findFileIn location (basename path) with
        | none => .error (.doesNotExist (basename path))
        | some file => .ok (location, file)

/-- The directory that a path names. -/
def dirAt (tree : DirectoryTree) (path : List Char) :
    Except OpsFailure Nat :=
  if !validPath path then .error (.invalidPath path)
  else
    match tree.cd (dirname path) with
    | none => .error (.unresolved (dirname path))
    | some above =>
        match tree.findDir above (basename path) with
        | none => .error (.doesNotExist (basename path))
        | some id => .ok id

def isEmptyDir (tree : DirectoryTree) (id : Nat) : Bool :=
  (tree.dirs.get? id).all fun dir =>
    dir.children.isEmpty && dir.files.isEmpty

/-- `delete`; a root is only cleared. -/
def delete (tree : DirectoryTree) (id : Nat) : DirectoryTree :=
  (tree.deleteDir id).getD
    { dirs := tree.dirs.modify id fun dir =>
        { dir with children := [], files := [] } }

end DirectoryTree

namespace Volume

def keep (volume : Volume) (messages : List (String × Int)) : Volume :=
  { volume with
    stored := fun message =>
      volume.stored message || messages.contains message }

def drop (volume : Volume) (messages : List (String × Int)) : Volume :=
  { volume with
    stored := fun message =>
      volume.stored message && !messages.contains message }

/-- Write the metadata, then delete the messages of what was removed. -/
def settleRemoval (volume : Volume) (answer : RemovalAnswer) : OpsAttempt :=
  if !answer.pushed then (volume, some .stores)
  else
    (volume.drop answer.deleted,
      if answer.finished then none else some .stores)

/-- Write the metadata. -/
def push (volume : Volume) (pushed : Bool) : OpsAttempt :=
  (volume, if pushed then none else some .stores)

/-- `FileApi.rm`. -/
def rm (volume : Volume) (location : Nat) (file : FileRef)
    (answer : RemovalAnswer) : OpsAttempt :=
  settleRemoval
    { volume with tree := volume.tree.deleteFileRef location file } answer

/-- `DirectoryApi.rm_dangerously`. -/
def rmDangerously (volume : Volume) (id : Nat) (answer : RemovalAnswer) :
    OpsAttempt :=
  settleRemoval { volume with tree := volume.tree.delete id } answer

def rmFile (path : List Char) (answer : RemovalAnswer) (volume : Volume) :
    OpsAttempt :=
  match volume.tree.fileAt path with
  | .error failure => (volume, some failure)
  | .ok (location, file) => volume.rm location file answer

def rmDir (path : List Char) (recursive : Bool) (answer : RemovalAnswer)
    (volume : Volume) : OpsAttempt :=
  match volume.tree.dirAt path with
  | .error failure => (volume, some failure)
  | .ok id =>
      if !recursive && !volume.tree.isEmptyDir id then
        (volume, some (.isNotEmpty (volume.tree.absolutePath id)))
      else volume.rmDangerously id answer

def mvFile (source target : List Char) (pushed : Bool) (volume : Volume) :
    OpsAttempt :=
  match volume.tree.fileAt source with
  | .error failure => (volume, some failure)
  | .ok (location, file) =>
      match volume.tree.cd (dirname target) with
      | none => (volume, some (.unresolved (dirname target)))
      | some under =>
          match volume.tree.relocateFileRef location file under
              (LocatedTree.targetName source target) with
          | .error failure => (volume, some (.directory failure))
          | .ok tree => push { volume with tree := tree } pushed

def mvDir (source target : List Char) (pushed : Bool) (volume : Volume) :
    OpsAttempt :=
  match volume.tree.dirAt source with
  | .error failure => (volume, some failure)
  | .ok id =>
      match volume.tree.cd (dirname target) with
      | none => (volume, some (.unresolved (dirname target)))
      | some under =>
          match volume.tree.moveTo id under
              (LocatedTree.targetName source target) with
          | .error failure => (volume, some (.directory failure))
          | .ok tree => push { volume with tree := tree } pushed

/-- `FileApi.copy`: the descriptor is read under the old name; what was made
for a copy that cannot be listed is discarded. -/
def copy (volume : Volume) (under : Nat) (file : FileRef) (name : Name)
    (answer : CopyAnswer) (pushed : Bool) : OpsAttempt :=
  if !validName file.name then
    (volume, some (.directory (.invalidName file.name)))
  else
    match answer.saved with
    | none => (volume.keep answer.left, some .stores)
    | some (mirrors, store) =>
        let saved := { volume with nextMessage := volume.nextMessage + 1 }
        match volume.tree.createFileRef under
            { messageId := volume.nextMessage
              name := DirectoryTree.newNameOr name file.name
              mirrors := mirrors
              store := store } with
        | .error failure =>
            (saved.keep answer.left, some (.directory failure))
        | .ok tree =>
            push ({ saved with tree := tree }.keep answer.made)
              (pushed && answer.announced)

def cpFile (source target : List Char) (answers : StoreAnswers)
    (volume : Volume) : OpsAttempt :=
  match volume.tree.fileAt source with
  | .error failure => (volume, some failure)
  | .ok (location, file) =>
      match volume.tree.cd (dirname target) with
      | none => (volume, some (.unresolved (dirname target)))
      | some under =>
          volume.copy under file (LocatedTree.targetName source target)
            (answers.copy location file) answers.pushed

/-- The files of the directory `source`, copied one by one; the metadata is
written at the end of the batch. -/
def copyFiles (under source : Nat) (answers : StoreAnswers) :
    Volume → List FileRef → OpsAttempt
  | volume, [] => (volume, none)
  | volume, file :: files =>
      match volume.copy under file [] (answers.copy source file) true with
      | (copied, some failure) => (copied, some failure)
      | (copied, none) => copyFiles under source answers copied files

/-- The directories of a list, copied one by one by `copyDir`. -/
def copyChildren (copyDir : Volume → Nat → Name → OpsAttempt) :
    Volume → List Nat → OpsAttempt
  | volume, [] => (volume, none)
  | volume, child :: children =>
      match volume.tree.dirs.get? child with
      | none => (volume, some (.unresolved []))
      | some dir =>
          match copyDir volume child dir.name with
          | (copied, some failure) => (copied, some failure)
          | (copied, none) => copyChildren copyDir copied children

/-- `_copy_dir_into`: the files first, then the directories. -/
def copyDirInto (answers : StoreAnswers) :
    Nat → Volume → Nat → Nat → Name → OpsAttempt
  | 0, volume, _, _, _ => (volume, some .recursion)
  | depth + 1, volume, source, under, name =>
      match volume.tree.createDir under volume.nextDir name with
      | .error failure => (volume, some (.directory failure))
      | .ok tree =>
          let copied := volume.nextDir
          let created :=
            { volume with tree := tree, nextDir := volume.nextDir + 1 }
          match tree.dirs.get? source with
          | none => (created, some (.unresolved []))
          | some dir =>
              match copyFiles copied source answers created dir.files with
              | (filled, some failure) => (filled, some failure)
              | (filled, none) =>
                  copyChildren
                    (fun current child childName =>
                      copyDirInto answers depth current child copied
                        childName)
                    filled dir.children

/-- `cp_dir`; whatever was copied is written at the end, also when copying
fails. -/
def cpDir (source target : List Char) (answers : StoreAnswers)
    (volume : Volume) : OpsAttempt :=
  match volume.tree.dirAt source with
  | .error failure => (volume, some failure)
  | .ok id =>
      match volume.tree.cd (dirname target) with
      | none => (volume, some (.unresolved (dirname target)))
      | some under =>
          if volume.tree.isAncestorOf id under then
            (volume, some (.invalidPath source))
          else
            let copied := copyDirInto answers (volume.tree.dirs.size + 1)
              volume id under (LocatedTree.targetName source target)
            (copied.1, copied.2.or (push copied.1 answers.pushed).2)

/-- `rm_file` finds its file. -/
def removesFile (path : List Char) (volume : Volume) : Bool :=
  (volume.tree.fileAt path).toBool

/-- `rm_dir` finds its directory and may remove it. -/
def removesDir (path : List Char) (recursive : Bool) (volume : Volume) :
    Bool :=
  (volume.tree.dirAt path).toOption.any fun id =>
    recursive || volume.tree.isEmptyDir id

/-- `mv_file` finds the file and a place elsewhere that no file has. -/
def movesFile (source target : List Char) (volume : Volume) : Bool :=
  (volume.tree.fileAt source).toOption.any fun found =>
    (volume.tree.cd (dirname target)).any fun under =>
      let name := DirectoryTree.newNameOr
        (LocatedTree.targetName source target) found.2.name
      (under ≠ found.1 || name ≠ found.2.name) &&
        (volume.tree.dirs.get? under).any fun dir =>
          DirectoryTree.findFiles dir name = []

/-- `mv_dir` finds the directory and a valid place elsewhere, not below the
directory itself, that no directory has. -/
def movesDir (source target : List Char) (volume : Volume) : Bool :=
  (volume.tree.dirAt source).toOption.any fun id =>
    (volume.tree.cd (dirname target)).any fun under =>
      (volume.tree.dirs.get? id).any fun dir =>
        let name := DirectoryTree.newNameOr
          (LocatedTree.targetName source target) dir.name
        (dir.parent ≠ some under || name ≠ dir.name) &&
          (dir.parent.isSome && validName name &&
            !volume.tree.isAncestorOf id under &&
              (volume.tree.dirs.get? under).any fun above =>
                volume.tree.findDirs above name = [])

/-- `cp_file` finds the file, copies its messages and finds a place that no
file has. -/
def copiesFile (source target : List Char) (answers : StoreAnswers)
    (volume : Volume) : Bool :=
  (volume.tree.fileAt source).toOption.any fun found =>
    (volume.tree.cd (dirname target)).any fun under =>
      validName found.2.name &&
        ((answers.copy found.1 found.2).saved.isSome &&
          (volume.tree.dirs.get? under).any fun dir =>
            DirectoryTree.findFiles dir (DirectoryTree.newNameOr
              (LocatedTree.targetName source target) found.2.name) = [])

/-- `cp_dir` finds the directory and a valid place, not below the directory
itself, that no directory has. -/
def copiesDir (source target : List Char) (volume : Volume) : Bool :=
  (volume.tree.dirAt source).toOption.any fun id =>
    (volume.tree.cd (dirname target)).any fun under =>
      !volume.tree.isAncestorOf id under &&
        (validName (LocatedTree.targetName source target) &&
          (volume.tree.dirs.get? under).any fun above =>
            volume.tree.findDirs above
              (LocatedTree.targetName source target) = [])

end Volume

end Tgdcfs
