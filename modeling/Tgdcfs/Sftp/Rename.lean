import Tgdcfs.Core.Clients

/-!
# Renames over SFTP

A plain rename replaces nothing; `posix_rename` removes a file, or an empty
directory, that stands at the target before the source is moved.
-/

namespace Tgdcfs

open Lib

/-- The file system is not named at the virtual root. -/
structure ResolvedPath where
  clientName : Name
  relative : List Char

namespace ResolvedPath

def isRoot (path : ResolvedPath) : Bool := path.clientName = []

def isClientRoot (path : ResolvedPath) : Bool :=
  path.clientName ≠ [] && path.relative = ['/']

def asGlobal (path : ResolvedPath) : List Char :=
  if path.isRoot then ['/']
  else if path.relative = ['/'] then '/' :: path.clientName
  else '/' :: path.clientName ++ path.relative

end ResolvedPath

/-- The components that `posixpath.normpath` keeps of an absolute path. -/
def normalComponents (path : List Char) : List Name :=
  (path.splitOn '/').foldl (fun kept component =>
    if component = [] ∨ component = ['.'] then kept
    else if component = ['.', '.'] then kept.dropLast
    else kept ++ [component]) []

/-- `posixpath.normpath` of an absolute path; two leading slashes stay. -/
def normpath (path : List Char) : List Char :=
  (if "//".toList.isPrefixOf path && !"///".toList.isPrefixOf path then
      "//".toList
    else ['/']) ++
    List.intercalate ['/'] (normalComponents path)

/-- `normalize` of a decoded path. -/
def normalizePath (path : List Char) : List Char :=
  let decoded := path.map fun character =>
    if character = '\\' then '/' else character
  let normalized :=
    normpath (if decoded.head? = some '/' then decoded else '/' :: decoded)
  if normalized = "//".toList then ['/'] else normalized

/-- `resolve`. -/
def resolvePath (path : List Char) : ResolvedPath :=
  let normalized := normalizePath path
  if normalized = ['/'] then { clientName := [], relative := ['/'] }
  else
    let (clientName, subPath) := splitGlobalPath normalized
    let stripped := stripSlashes subPath
    { clientName := clientName
      relative := if stripped = [] then ['/'] else '/' :: stripped }

inductive RenameError where
  | permissionDenied (message : List Char)
  | failure (message : List Char)
  | opUnsupported (message : List Char)
  | noSuchFile (message : List Char)
  | fileAlreadyExists (message : List Char)
  | notADirectory (message : List Char)
  | fileIsADirectory (message : List Char)
  | dirNotEmpty (message : List Char)
  | ops (failure : OpsFailure)

/-- What is renamed within a file system, and whether the target is an
existing file or directory that goes first. -/
structure RenamePlan where
  clientName : Name
  source : List Char
  target : List Char
  sourceIsDir : Bool
  existing : Option Bool

namespace Volume

/-- `_dir` of a path. -/
def dirOf (volume : Volume) (path : ResolvedPath) : Option Nat :=
  if path.isClientRoot then some 0 else volume.tree.cd path.relative

/-- `_exists`; only a file that is not there is no error. -/
def existsFile (volume : Volume) (path : ResolvedPath) :
    Except OpsFailure Bool :=
  match volume.tree.fileAt path.relative with
  | .ok _ => .ok true
  | .error (.invalidPath invalid) => .error (.invalidPath invalid)
  | .error _ => .ok false

end Volume

/-- `_is_within`. -/
def isWithinSlashes (path other : List Char) : Bool :=
  path = other || (rstripSlashes other ++ ['/']).isPrefixOf path

/-- What `_remove_rename_target` refuses. -/
def renameTargetRefused (volume : Volume) (source target : ResolvedPath)
    (sourceIsDir targetIsDir : Bool) : Option RenameError :=
  if sourceIsDir && !targetIsDir then
    some (.notADirectory
      (target.asGlobal ++ " is not a directory".toList))
  else if !sourceIsDir && targetIsDir then
    some (.fileIsADirectory (target.asGlobal ++ " is a directory".toList))
  else if targetIsDir then
    if isWithinSlashes source.relative target.relative then
      some (.dirNotEmpty
        (target.asGlobal ++ " contains ".toList ++ source.asGlobal))
    else if !(volume.dirOf target).any volume.tree.isEmptyDir then
      some (.dirNotEmpty (target.asGlobal ++ " is not empty".toList))
    else none
  else none

/-- The checks of `_rename` in the file system of both paths; `none` if there
is nothing to do. -/
def renamePlanIn (volume : Volume) (source target : ResolvedPath)
    (overwrite : Bool) : Except RenameError (Option RenamePlan) := do
  let sourceIsDir := (volume.dirOf source).isSome
  if !sourceIsDir then
    let _ ← (volume.tree.fileAt source.relative).mapError .ops
  if source.relative = target.relative then return none
  if isWithinSlashes target.relative source.relative then
    throw (.failure
      (source.asGlobal ++ " cannot be moved into itself".toList))
  let targetIsDir := (volume.dirOf target).isSome
  let exists_ ←
    if targetIsDir then pure true
    else (volume.existsFile target).mapError .ops
  if exists_ then
    if !overwrite then
      throw (.fileAlreadyExists
        (target.asGlobal ++ " already exists".toList))
    if let some refused :=
        renameTargetRefused volume source target sourceIsDir targetIsDir then
      throw refused
  return some
    { clientName := source.clientName
      source := source.relative
      target := target.relative
      sourceIsDir := sourceIsDir
      existing := if exists_ then some targetIsDir else none }

namespace Clients

/-- The checks of `_rename`. -/
def renamePlan (clients : Clients) (readonly : Bool)
    (oldPath newPath : List Char) (overwrite : Bool) :
    Except RenameError (Option RenamePlan) := do
  if readonly then
    throw (.permissionDenied
      "You do not have permission to perform this action".toList)
  let source := resolvePath oldPath
  let target := resolvePath newPath
  if source.isRoot || source.isClientRoot then
    throw (.permissionDenied "Cannot rename a client root".toList)
  if target.isRoot || target.isClientRoot then
    throw (.failure "Cannot overwrite a client root".toList)
  if source.clientName ≠ target.clientName then
    throw (.opUnsupported
      "Moving between clients is not supported".toList)
  match clients.get? source.clientName with
  | none =>
      throw (.noSuchFile ("No such client: ".toList ++ source.clientName))
  | some volume => renamePlanIn volume source target overwrite

/-- Remove the existing target. -/
def clearTarget (clients : Clients) (answers : StoreAnswers)
    (plan : RenamePlan) (isDir : Bool) : Clients × Option OpsFailure :=
  if isDir then
    clients.run plan.clientName
      (Volume.rmDir plan.target false answers.removal)
  else
    clients.run plan.clientName (Volume.rmFile plan.target answers.removal)

/-- Move the source. -/
def moveSource (clients : Clients) (answers : StoreAnswers)
    (plan : RenamePlan) : Clients × Option OpsFailure :=
  if plan.sourceIsDir then
    clients.run plan.clientName
      (Volume.mvDir plan.source plan.target answers.pushed)
  else
    clients.run plan.clientName
      (Volume.mvFile plan.source plan.target answers.pushed)

/-- `_rename`, with what it raises. -/
def rename (clients : Clients) (answers : StoreAnswers) (readonly : Bool)
    (oldPath newPath : List Char) (overwrite : Bool) :
    Clients × Option RenameError :=
  match clients.renamePlan readonly oldPath newPath overwrite with
  | .error failure => (clients, some failure)
  | .ok none => (clients, none)
  | .ok (some plan) =>
      match plan.existing with
      | none =>
          let moved := clients.moveSource answers plan
          (moved.1, moved.2.map .ops)
      | some isDir =>
          match clients.clearTarget answers plan isDir with
          | (cleared, some failure) => (cleared, some (.ops failure))
          | (cleared, none) =>
              let moved := cleared.moveSource answers plan
              (moved.1, moved.2.map .ops)

/-- `posix_rename`. -/
def posixRename (clients : Clients) (answers : StoreAnswers)
    (readonly : Bool) (oldPath newPath : List Char) :
    Clients × Option RenameError :=
  clients.rename answers readonly oldPath newPath true

/-- Removing the target takes it away. -/
def clears (clients : Clients) (plan : RenamePlan) (isDir : Bool) : Bool :=
  clients.finds plan.clientName
    (if isDir then Volume.removesDir plan.target false
      else Volume.removesFile plan.target)

/-- Moving the source changes its place. -/
def movesSource (clients : Clients) (plan : RenamePlan) : Bool :=
  clients.finds plan.clientName
    (if plan.sourceIsDir then Volume.movesDir plan.source plan.target
      else Volume.movesFile plan.source plan.target)

/-- The rename is refused by a check or changes nothing behind them. -/
def renameHarmless (clients : Clients) (readonly : Bool)
    (oldPath newPath : List Char) (overwrite : Bool) : Bool :=
  match clients.renamePlan readonly oldPath newPath overwrite with
  | .error _ | .ok none => true
  | .ok (some plan) =>
      match plan.existing with
      | none => !clients.movesSource plan
      | some isDir => !clients.clears plan isDir

end Clients

end Tgdcfs
