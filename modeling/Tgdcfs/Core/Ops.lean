import Tgdcfs.Core.DirectoryMoves
import Tgdcfs.Lib.Run
import Tgdcfs.Lib.Text

/-!
# File operations on paths

`Ops` resolves path strings and edits the directory tree.  Names are checked
in different places: a directory against the directories beside it and by
`validate_name`, a new file against the files beside it and by the descriptor
that is written first, a moved or copied file against the files beside it
only.
-/

namespace Tgdcfs

open Lib

/-- `os.path.basename`. -/
def basename (path : List Char) : Name :=
  ((splitLast '/' path).map Prod.snd).getD path

/-- `os.path.dirname`; the slashes at its end go unless there is nothing
else. -/
def dirname (path : List Char) : List Char :=
  match splitLast '/' path with
  | none => []
  | some (before, _) =>
      if before.all (· = '/') then before ++ ['/']
      else (before.reverse.dropWhile (· = '/')).reverse

/-- `_validate_path`. -/
def validPath (path : List Char) : Bool :=
  path.head? = some '/' && path.getLast? ≠ some '/'

/-- Where the descriptor of a file was written. -/
structure DescriptorPlace where
  messageId : Int
  mirrors : Dict String Int
  store : Option String

def DescriptorPlace.refer (place : DescriptorPlace) (name : Name) : FileRef :=
  { messageId := place.messageId
    name := name
    mirrors := place.mirrors
    store := place.store }

/-- The directory tree with the `location` of its file refs; in a directory a
ref is told by its name. -/
structure LocatedTree where
  tree : DirectoryTree
  locations : Dict (Nat × Name) Nat

inductive OpsCall where
  | mkdir (path : List Char) (parents : Bool)
  | touch (path : List Char) (place : DescriptorPlace)
  | upload (remote : List Char) (place : DescriptorPlace)
  | cpFile (source target : List Char) (place : DescriptorPlace)
  /-- The recursion is followed to some depth. -/
  | cpDir (source target : List Char)
      (places : Nat → FileRef → DescriptorPlace) (depth : Nat)
  | mvFile (source target : List Char)
  | mvDir (source target : List Char)
  | rmFile (path : List Char)
  | rmDir (path : List Char) (recursive : Bool)

namespace DirectoryTree

/-- Follow the parts of a path; above the root there is nothing. -/
def cdFrom (tree : DirectoryTree) : Nat → List (List Char) → Option Nat
  | id, [] => some id
  | id, part :: parts =>
      if part = ['.', '.'] then
        ((tree.dirs.get? id).bind Directory.parent).bind fun parent =>
          cdFrom tree parent parts
      else if part = ['.'] ∨ part = [] then cdFrom tree id parts
      else
        ((tree.dirs.get? id).bind fun dir => (tree.findDirs dir part).head?)
          |>.bind fun child => cdFrom tree child parts

def cd (tree : DirectoryTree) (path : List Char) : Option Nat :=
  tree.cdFrom 0 (path.splitOn '/')

def findDir (tree : DirectoryTree) (id : Nat) (name : Name) : Option Nat :=
  (tree.dirs.get? id).bind fun dir => (tree.findDirs dir name).head?

def findFileIn (tree : DirectoryTree) (id : Nat) (name : Name) :
    Option FileRef :=
  (tree.dirs.get? id).bind fun dir => (findFiles dir name).head?

/-- A node for a new directory. -/
def nextId (tree : DirectoryTree) : Nat :=
  tree.dirs.keys.foldl max 0 + 1

/-- `delete` of a directory other than the root.  What hung below it is not
part of the tree any more. -/
def deleteDir (tree : DirectoryTree) (id : Nat) : Option DirectoryTree :=
  ((tree.dirs.get? id).bind Directory.parent).map fun parent =>
    { dirs := (tree.dirs.filterKeys fun other =>
        !tree.isAncestorOf id other).modify parent (Directory.disown · id) }

end DirectoryTree

namespace LocatedTree

def emptyRoot : LocatedTree :=
  { tree := ⟨Dict.empty.set 0 ⟨"root".toList, none, [], []⟩⟩
    locations := .empty }

/-- `DirectoryApi.create`, with the new directory. -/
def createDir (state : LocatedTree) (under : Nat) (name : Name) :
    Option (LocatedTree × Nat) :=
  match state.tree.createDir under state.tree.nextId name with
  | .error _ => none
  | .ok tree => some ({ state with tree := tree }, state.tree.nextId)

/-- `create_file_ref`. -/
def createFileRef (state : LocatedTree) (under : Nat) (file : FileRef) :
    Option LocatedTree :=
  match state.tree.createFileRef under file with
  | .error _ => none
  | .ok tree =>
      some
        { tree := tree
          locations := state.locations.set (under, file.name) under }

/-- `FileApi.upload`: the descriptor of a new file checks the name, an
existing ref is pointed to the descriptor. -/
def upload (state : LocatedTree) (under : Nat) (name : Name)
    (place : DescriptorPlace) : Option LocatedTree :=
  match state.tree.findFileIn under name with
  | some file =>
      if !validName file.name then none
      else
        some { state with
          tree := state.tree.changeFiles under fun files =>
            files.map fun other =>
              if other.name = name then place.refer name else other }
  | none =>
      if !validName name then none
      else state.createFileRef under (place.refer name)

/-- `FileApi.copy`: the descriptor is read under the old name. -/
def copy (state : LocatedTree) (under : Nat) (file : FileRef) (name : Name)
    (place : DescriptorPlace) : Option LocatedTree :=
  if !validName file.name then none
  else state.createFileRef under
    (place.refer (DirectoryTree.newNameOr name file.name))

/-- `FileApi.move`. -/
def move (state : LocatedTree) (source : Nat) (file : FileRef)
    (target : Nat) (newName : Name) : Option LocatedTree :=
  match state.tree.relocateFileRef source file target newName with
  | .error _ => none
  | .ok tree =>
      let name := DirectoryTree.newNameOr newName file.name
      if target = source ∧ name = file.name then some state
      else
        some
          { tree := tree
            locations := state.locations.set (target, name) target }

/-- The files of a directory, copied one by one. -/
def copyFiles (under : Nat) (places : FileRef → DescriptorPlace) :
    LocatedTree → List FileRef → Option LocatedTree
  | state, [] => some state
  | state, file :: files =>
      (state.copy under file [] (places file)).bind fun copied =>
        copyFiles under places copied files

/-- The directories of a list, copied one by one by `copy`. -/
def copyChildren (copy : LocatedTree → Nat → Name → Option LocatedTree) :
    LocatedTree → List Nat → Option LocatedTree
  | state, [] => some state
  | state, child :: children =>
      (state.tree.dirs.get? child).bind fun dir =>
        (copy state child dir.name).bind fun copied =>
          copyChildren copy copied children

/-- `_copy_dir_into`: the files first, then the directories. -/
def copyDirInto (places : Nat → FileRef → DescriptorPlace) :
    Nat → LocatedTree → Nat → Nat → Name → Option LocatedTree
  | 0, state, _, _, _ => some state
  | depth + 1, state, source, under, name =>
      (state.createDir under name).bind fun (created, copied) =>
        (created.tree.dirs.get? source).bind fun dir =>
          (copyFiles copied (places source) created dir.files).bind fun filled =>
            copyChildren
              (fun current child childName =>
                copyDirInto places depth current child copied childName)
              filled dir.children

/-- The loop of `mkdir` over the parents: missing ones are created. -/
def createParents : LocatedTree → Nat → List Name →
    Option (LocatedTree × Nat)
  | state, id, [] => some (state, id)
  | state, id, part :: parts =>
      match state.tree.findDir id part with
      | some child => createParents state child parts
      | none =>
          (state.createDir id part).bind fun (created, child) =>
            createParents created child parts

def mkdir (state : LocatedTree) (path : List Char) (parents : Bool) :
    Option LocatedTree :=
  if !validPath path then none
  else
    (state.tree.cd (dirname path)).bind fun start =>
      (if parents then
          state.createParents start
            ((dirname path).splitOn '/' |>.filter (· ≠ []))
        else some (state, start)).bind fun (reached, under) =>
          (reached.createDir under (basename path)).map Prod.fst

/-- `basename_to or basename_from`. -/
def targetName (source target : List Char) : Name :=
  DirectoryTree.newNameOr (basename target) (basename source)

/-- One call; `none` if it raises. -/
def step (state : LocatedTree) : OpsCall → Option LocatedTree
  | .mkdir path parents => state.mkdir path parents
  | .touch path place =>
      if !validPath path then none
      else
        (state.tree.cd (dirname path)).bind fun under =>
          if (state.tree.findFileIn under (basename path)).isSome then
            some state
          else state.upload under (basename path) place
  | .upload remote place =>
      if !validPath remote then none
      else
        (state.tree.cd (dirname remote)).bind fun under =>
          state.upload under (basename remote) place
  | .cpFile source target place =>
      if !validPath source then none
      else
        (state.tree.cd (dirname source)).bind fun from_ =>
          (state.tree.findFileIn from_ (basename source)).bind fun file =>
            (state.tree.cd (dirname target)).bind fun under =>
              state.copy under file (targetName source target) place
  | .cpDir source target places depth =>
      if !validPath source then none
      else
        (state.tree.cd (dirname source)).bind fun from_ =>
          (state.tree.findDir from_ (basename source)).bind fun copied =>
            (state.tree.cd (dirname target)).bind fun under =>
              if state.tree.isAncestorOf copied under then none
              else
                state.copyDirInto places depth copied under
                  (targetName source target)
  | .mvFile source target =>
      if !validPath source then none
      else
        (state.tree.cd (dirname source)).bind fun from_ =>
          (state.tree.findFileIn from_ (basename source)).bind fun file =>
            (state.tree.cd (dirname target)).bind fun under =>
              state.move from_ file under (targetName source target)
  | .mvDir source target =>
      if !validPath source then none
      else
        (state.tree.cd (dirname source)).bind fun from_ =>
          (state.tree.findDir from_ (basename source)).bind fun moved =>
            (state.tree.cd (dirname target)).bind fun under =>
              match state.tree.moveTo moved under
                  (targetName source target) with
              | .error _ => none
              | .ok tree => some { state with tree := tree }
  | .rmFile path =>
      if !validPath path then none
      else
        (state.tree.cd (dirname path)).bind fun from_ =>
          (state.tree.findFileIn from_ (basename path)).map fun file =>
            { state with tree := state.tree.deleteFileRef from_ file }
  | .rmDir path recursive =>
      if !validPath path then none
      else
        (state.tree.cd (dirname path)).bind fun from_ =>
          (state.tree.findDir from_ (basename path)).bind fun removed =>
            (state.tree.dirs.get? removed).bind fun dir =>
              if !recursive && (dir.children ≠ [] || dir.files ≠ []) then none
              else
                (state.tree.deleteDir removed).map fun tree =>
                  { state with tree := tree }

end LocatedTree

end Tgdcfs
