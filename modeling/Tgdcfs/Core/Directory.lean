import Tgdcfs.Lib.Dict
import Tgdcfs.Lib.Rooted

/-!
# The directory tree

Directories are objects that point to their parent and list their children
and files; here they are nodes of a heap, the root being node `0`.  A file is
found by walking down the names of its path, and its path is read off by
climbing up the parents.
-/

namespace Tgdcfs

open Lib

abbrev Name := List Char

/-- The directory a file ref points back to is the one that lists it. -/
structure FileRef where
  messageId : Int
  name : Name
  mirrors : Dict String Int
  store : Option String
  deriving DecidableEq

structure Directory where
  name : Name
  parent : Option Nat
  children : List Nat
  files : List FileRef

/-- Append to and remove from the list of children. -/
def Directory.adopt (dir : Directory) (id : Nat) : Directory :=
  { dir with children := dir.children ++ [id] }

def Directory.disown (dir : Directory) (id : Nat) : Directory :=
  { dir with children := dir.children.erase id }

structure DirectoryTree where
  dirs : Dict Nat Directory

inductive DirectoryError where
  | alreadyExists (name : Name)
  | doesNotExist (name : Name)
  | invalidName (name : Name)
  | invalidPath (path : List Char)
  | technical (message : String)

/-- `validate_name`; the empty name has no first character to look at. -/
def validName : Name → Bool
  | [] => false
  | first :: rest => first ≠ '-' && '/' ∉ first :: rest

namespace DirectoryTree

def findDirs (tree : DirectoryTree) (dir : Directory) (name : Name) :
    List Nat :=
  dir.children.filter fun child =>
    (tree.dirs.get? child).map Directory.name = some name

def findFiles (dir : Directory) (name : Name) : List FileRef :=
  dir.files.filter fun file => file.name = name

/-- Climbing takes at most as many steps as there are directories. -/
def absolutePathWithin (tree : DirectoryTree) : Nat → Nat → List Char
  | 0, _ => []
  | fuel + 1, id =>
      match tree.dirs.get? id with
      | none => []
      | some dir =>
          match dir.parent with
          | none => []
          | some parent =>
              if dir.name = [] then tree.absolutePathWithin fuel parent
              else tree.absolutePathWithin fuel parent ++ '/' :: dir.name

def absolutePath (tree : DirectoryTree) (id : Nat) : List Char :=
  tree.absolutePathWithin tree.dirs.size id

/-- `file_path` of a file in the directory `id`. -/
def filePath (tree : DirectoryTree) (id : Nat) (file : FileRef) :
    List Char :=
  tree.absolutePath id ++ '/' :: file.name

/-- Follow directory names downwards. -/
def walk (tree : DirectoryTree) : Nat → List Name → Option Nat
  | id, [] => some id
  | id, name :: names =>
      match tree.dirs.get? id with
      | none => none
      | some dir =>
          match tree.findDirs dir name with
          | [] => none
          | child :: _ => walk tree child names

/-- `find_file` from the root. -/
def findFile (tree : DirectoryTree) (path : List Char) : Option FileRef :=
  let parts := (path.splitOn '/').filter (· ≠ [])
  match parts.getLast? with
  | none => none
  | some name =>
      match (tree.walk 0 parts.dropLast).bind tree.dirs.get? with
      | none => none
      | some dir => (findFiles dir name).head?

/-- Whether `id` is `other` or lies above it. -/
def isAncestorWithin (tree : DirectoryTree) (id : Nat) :
    Nat → Nat → Bool
  | 0, _ => false
  | fuel + 1, other =>
      other = id ||
        match (tree.dirs.get? other).bind Directory.parent with
        | none => false
        | some parent => tree.isAncestorWithin id fuel parent

def isAncestorOf (tree : DirectoryTree) (id other : Nat) : Bool :=
  tree.isAncestorWithin id (tree.dirs.size + 1) other

def createDir (tree : DirectoryTree) (under id : Nat) (name : Name) :
    Except DirectoryError DirectoryTree :=
  match tree.dirs.get? under with
  | none => .error (.doesNotExist name)
  | some dir =>
      if tree.findDirs dir name ≠ [] then .error (.alreadyExists name)
      else if !validName name then .error (.invalidName name)
      else
        .ok
          { dirs := (tree.dirs.set id
              { name := name
                parent := some under
                children := []
                files := [] }).modify under (Directory.adopt · id) }

/-- Assign the files of a directory. -/
def changeFiles (tree : DirectoryTree) (location : Nat)
    (change : List FileRef → List FileRef) : DirectoryTree :=
  { dirs := tree.dirs.modify location fun dir =>
      { dir with files := change dir.files } }

def createFileRef (tree : DirectoryTree) (location : Nat) (file : FileRef) :
    Except DirectoryError DirectoryTree :=
  match tree.dirs.get? location with
  | none => .error (.doesNotExist file.name)
  | some dir =>
      if findFiles dir file.name ≠ [] then .error (.alreadyExists file.name)
      else .ok (tree.changeFiles location (· ++ [file]))

def deleteFileRef (tree : DirectoryTree) (location : Nat)
    (file : FileRef) : DirectoryTree :=
  tree.changeFiles location (·.erase file)

/-- `new_name or name`. -/
def newNameOr (newName name : Name) : Name :=
  if newName = [] then name else newName

def relocateFileRef (tree : DirectoryTree) (source : Nat) (file : FileRef)
    (target : Nat) (newName : Name) : Except DirectoryError DirectoryTree :=
  let name := newNameOr newName file.name
  if target = source ∧ name = file.name then .ok tree
  else
    match tree.createFileRef target { file with name := name } with
    | .error failure => .error failure
    | .ok created => .ok (created.deleteFileRef source file)

def moveTo (tree : DirectoryTree) (id newParent : Nat) (newName : Name) :
    Except DirectoryError DirectoryTree :=
  match tree.dirs.get? id, tree.dirs.get? newParent with
  | some dir, some target =>
      match dir.parent with
      | none => .error (.technical "The root directory cannot be moved")
      | some oldParent =>
          let name := newNameOr newName dir.name
          if !validName name then .error (.invalidName name)
          else if newParent = oldParent ∧ name = dir.name then .ok tree
          else if tree.isAncestorOf id newParent then
            .error (.invalidPath (tree.absolutePath id))
          else if tree.findDirs target name ≠ [] then
            .error (.alreadyExists name)
          else
            let dropped :=
              tree.dirs.modify oldParent (Directory.disown · id)
            let renamed := dropped.modify id fun dir =>
              { dir with name := name, parent := some newParent }
            .ok
              { dirs := renamed.modify newParent (Directory.adopt · id) }
  | _, _ => .error (.doesNotExist newName)

/-- The parent of a directory and its name there. -/
def up (tree : DirectoryTree) (id : Nat) : Option (Nat × Name) :=
  (tree.dirs.get? id).bind fun dir =>
    dir.parent.map fun parent => (parent, dir.name)

structure WellFormed (tree : DirectoryTree) : Prop where
  root : ∃ dir, tree.dirs.get? 0 = some dir ∧ dir.parent = none
  hangs : ∀ id dir, tree.dirs.get? id = some dir →
    ∃ steps, Trail tree.up 0 steps id
  listed : ∀ id dir parent, tree.dirs.get? id = some dir →
    dir.parent = some parent →
      ∃ above, tree.dirs.get? parent = some above ∧ id ∈ above.children
  children : ∀ id dir child, tree.dirs.get? id = some dir →
    child ∈ dir.children →
      ∃ below, tree.dirs.get? child = some below ∧ below.parent = some id
  childrenNodup : ∀ id dir, tree.dirs.get? id = some dir →
    dir.children.Nodup
  named : ∀ id dir parent, tree.dirs.get? id = some dir →
    dir.parent = some parent → validName dir.name
  siblings : ∀ parent first second firstDir secondDir,
    tree.dirs.get? first = some firstDir →
    tree.dirs.get? second = some secondDir →
    firstDir.parent = some parent → secondDir.parent = some parent →
    firstDir.name = secondDir.name → first = second
  files : ∀ id dir, tree.dirs.get? id = some dir →
    (dir.files.map FileRef.name).Nodup

end DirectoryTree

end Tgdcfs
