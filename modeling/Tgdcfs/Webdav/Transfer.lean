import Tgdcfs.Core.Clients

/-!
# COPY and MOVE

The handler finds the source, the parent of the destination and whatever
stands at the destination.  It removes the latter before the source is moved
or copied, and the path that the source is moved to is not the one that the
destination was looked up by.
-/

namespace Tgdcfs

open Lib

/-- A folder keeps the path it was reached by and the directory found there. -/
inductive Member where
  | root
  | folder (clientName : Name) (path : List Char) (id : Nat)
  | resource (clientName : Name) (path : List Char)

namespace Member

def isFolder : Member → Bool
  | resource _ _ => false
  | root | folder _ _ _ => true

/-- `Folder.member` along the parts of a path.  A file wins over a directory
of its name, and an empty part ends the search. -/
def below (tree : DirectoryTree) (clientName : Name) :
    List Char → Nat → List Name → Except OpsFailure (Option Member)
  | path, id, [] => .ok (some (.folder clientName path id))
  | path, id, part :: parts =>
      if part = [] then .ok (some (.folder clientName path id))
      else
        match tree.dirs.get? id with
        | none => .ok none
        | some dir =>
            if dir.files.any (·.name = part) then
              .ok (some (.resource clientName (path ++ part)))
            else if tree.findDirs dir part ≠ [] then
              let subPath := path ++ part ++ ['/']
              match tree.cd subPath with
              | none => .error (.unresolved subPath)
              | some child => below tree clientName subPath child parts
            else .ok none

end Member

/-- `FSCache.reset_parent` of a path; the root has no parent. -/
def resetsParent (path : List Char) : Bool := stripSlashes path ≠ []

/-- An operation before which cached listings are reset. -/
def Volume.resetting (paths : List (List Char))
    (operation : Volume → OpsAttempt) (volume : Volume) : OpsAttempt :=
  if paths.all resetsParent then operation volume
  else (volume, some .noParent)

def Volume.ifReset (paths : List (List Char)) (takes : Volume → Bool)
    (volume : Volume) : Bool :=
  paths.all resetsParent && takes volume

namespace Clients

/-- `_get_member`. -/
def member (clients : Clients) (path : List Char) :
    Except OpsFailure (Option Member) :=
  if path = [] ∨ path = ['/'] then .ok (some .root)
  else
    let (clientName, subPath) := splitGlobalPath path
    match clients.get? clientName with
    | none => .ok none
    | some volume =>
        Member.below volume.tree clientName ['/'] 0
          ((lstripSlashes subPath).splitOn '/')

/-- `remove` of a member. -/
def removeMember (clients : Clients) (answers : StoreAnswers) :
    Member → Clients × Option OpsFailure
  | .root =>
      (clients,
        some (.notImplemented "RootFolder does not support removal"))
  | .folder clientName path _ =>
      clients.run clientName (Volume.resetting [path]
        (Volume.rmDir (rstripSlashes path) true answers.removal))
  | .resource clientName path =>
      clients.run clientName (Volume.resetting [path]
        (Volume.rmFile path answers.removal))

/-- `move_to` of a member. -/
def moveMember (clients : Clients) (answers : StoreAnswers)
    (destPath : List Char) : Member → Clients × Option OpsFailure
  | .root =>
      (clients, some (.notImplemented "RootFolder does not support moving"))
  | .folder clientName path _ =>
      let destination := stripWebdavPrefix destPath clientName
      clients.run clientName (Volume.resetting [path, destination]
        (Volume.mvDir (rstripSlashes path) (rstripSlashes destination)
          answers.pushed))
  | .resource clientName path =>
      let destination := stripWebdavPrefix destPath clientName
      clients.run clientName (Volume.resetting [path, destination]
        (Volume.mvFile path destination answers.pushed))

/-- `copy_to` of a member. -/
def copyMember (clients : Clients) (answers : StoreAnswers)
    (destPath : List Char) : Member → Clients × Option OpsFailure
  | .root =>
      (clients, some (.notImplemented "RootFolder does not support copying"))
  | .folder clientName path _ =>
      let destination := stripWebdavPrefix destPath clientName
      clients.run clientName (Volume.resetting [destination]
        (Volume.cpDir (rstripSlashes path) (rstripSlashes destination)
          answers))
  | .resource clientName path =>
      let destination := stripWebdavPrefix destPath clientName
      clients.run clientName (Volume.resetting [destination]
        (Volume.cpFile path destination answers))

end Clients

inductive TransferVerb where
  | copy
  | move
  deriving DecidableEq

def TransferVerb.text : TransferVerb → List Char
  | copy => "COPY".toList
  | move => "MOVE".toList

inductive HttpStatus where
  | created
  | noContent
  | badRequest
  | forbidden
  | notFound
  | conflict
  | preconditionFailed
  deriving DecidableEq

inductive TransferAnswer where
  | response (status : HttpStatus) (detail : List Char)
  | raised (failure : OpsFailure)
  | invalidUrl (destination : List Char)

/-- The headers are absent or hold some text. -/
structure TransferRequest where
  verb : TransferVerb
  path : List Char
  destination : Option (List Char)
  overwrite : Option (List Char)

/-- Where the application is mounted, and the path of a URL and percent
decoding as the library does them. -/
structure WebdavApp where
  basePath : List Char
  urlPath : List Char → Option (List Char)
  unquote : List Char → List Char

/-- What is moved or copied, what it replaces, and where it goes. -/
structure TransferPlan where
  member : Member
  existing : Option Member
  destPath : List Char

/-- `split_path`. -/
def splitPath (path : List Char) : List Char × List Char :=
  let inside := stripSlashes path
  (splitLast '/' inside).getD (['/'], inside)

/-- `is_within`. -/
def isWithin (path other : List Char) : Bool :=
  path = other || (other ++ ['/']).isPrefixOf path

def TransferAnswer.isError : TransferAnswer → Bool
  | response .created _ | response .noContent _ => false
  | response _ _ | raised _ | invalidUrl _ => true

/-- The client sent "Overwrite: F". -/
def TransferRequest.keepsExisting (request : TransferRequest) : Bool :=
  let value := request.overwrite.getD ['T']
  let stripped :=
    ((value.dropWhile isSpace).reverse.dropWhile isSpace).reverse
  stripped = ['F'] || stripped = ['f']

namespace WebdavApp

/-- `extract_path_from_destination`. -/
def extractPath (app : WebdavApp) (destination : List Char) :
    Except TransferAnswer (List Char) :=
  if "http://".toList.isPrefixOf destination ||
      "https://".toList.isPrefixOf destination then
    match app.urlPath destination with
    | none => .error (.invalidUrl destination)
    | some path => .ok (app.unquote path)
  else .ok (app.unquote destination)

/-- `mount_relative`. -/
def mountRelative (app : WebdavApp) (serverPath : List Char) : List Char :=
  let base := rstripSlashes app.basePath
  if base ≠ [] ∧ isWithin serverPath base then
    stripSlashes (serverPath.drop base.length)
  else stripSlashes serverPath

def find (clients : Clients) (path : List Char) :
    Except TransferAnswer (Option Member) :=
  (clients.member path).mapError .raised

/-- The checks of `transfer`, up to the removal of what is replaced. -/
def plan (app : WebdavApp) (clients : Clients) (request : TransferRequest) :
    Except TransferAnswer TransferPlan := do
  let destination := request.destination.getD []
  if destination = [] then
    throw (.response .badRequest
      ("Destination header is required for ".toList ++ request.verb.text ++
        ['.']))
  match ← find clients request.path with
  | none => throw (.response .notFound [])
  | some member =>
      let destPath ← app.extractPath destination
      let source := stripSlashes request.path
      let target := app.mountRelative destPath
      if source = target then
        throw (.response .forbidden
          "Source and destination are the same.".toList)
      if isWithin target source then
        let done := if request.verb = .move then "moved" else "copied"
        throw (.response .conflict
          (request.path ++ " cannot be ".toList ++ done.toList ++
            " into itself.".toList))
      if isWithin source target then
        throw (.response .conflict
          (request.path ++
            " cannot replace one of its own parents.".toList))
      let parentPath := (splitPath target).1
      if !(← find clients parentPath).any Member.isFolder then
        throw (.response .conflict
          ("Parent folder ".toList ++ parentPath ++
            " does not exist.".toList))
      let existing ← find clients target
      if existing.isSome && request.keepsExisting then
        throw (.response .preconditionFailed
          (target ++ " already exists.".toList))
      return { member := member, existing := existing, destPath := destPath }

end WebdavApp

namespace TransferPlan

/-- Move or copy the source. -/
def place (plan : TransferPlan) (verb : TransferVerb)
    (answers : StoreAnswers) (clients : Clients) :
    Clients × Option OpsFailure :=
  match verb with
  | .move => clients.moveMember answers plan.destPath plan.member
  | .copy => clients.copyMember answers plan.destPath plan.member

/-- The rest of `transfer`. -/
def perform (plan : TransferPlan) (verb : TransferVerb)
    (answers : StoreAnswers) (clients : Clients) :
    Clients × TransferAnswer :=
  match plan.existing with
  | none =>
      match plan.place verb answers clients with
      | (placed, some failure) => (placed, .raised failure)
      | (placed, none) => (placed, .response .created [])
  | some existing =>
      match clients.removeMember answers existing with
      | (removed, some failure) => (removed, .raised failure)
      | (removed, none) =>
          match plan.place verb answers removed with
          | (placed, some failure) => (placed, .raised failure)
          | (placed, none) => (placed, .response .noContent [])

end TransferPlan

def WebdavApp.transfer (app : WebdavApp) (answers : StoreAnswers)
    (request : TransferRequest) (clients : Clients) :
    Clients × TransferAnswer :=
  match app.plan clients request with
  | .error answer => (clients, answer)
  | .ok plan => plan.perform request.verb answers clients

namespace Clients

/-- Removing the member takes something away. -/
def removes (clients : Clients) : Member → Bool
  | .root => false
  | .folder clientName path _ =>
      clients.finds clientName (Volume.ifReset [path]
        (Volume.removesDir (rstripSlashes path) true))
  | .resource clientName path =>
      clients.finds clientName (Volume.ifReset [path]
        (Volume.removesFile path))

/-- Moving the member changes its place. -/
def moves (clients : Clients) (destPath : List Char) : Member → Bool
  | .root => false
  | .folder clientName path _ =>
      let destination := stripWebdavPrefix destPath clientName
      clients.finds clientName (Volume.ifReset [path, destination]
        (Volume.movesDir (rstripSlashes path) (rstripSlashes destination)))
  | .resource clientName path =>
      let destination := stripWebdavPrefix destPath clientName
      clients.finds clientName (Volume.ifReset [path, destination]
        (Volume.movesFile path destination))

/-- Copying the member makes a new entry. -/
def copies (clients : Clients) (answers : StoreAnswers)
    (destPath : List Char) : Member → Bool
  | .root => false
  | .folder clientName path _ =>
      let destination := stripWebdavPrefix destPath clientName
      clients.finds clientName (Volume.ifReset [destination]
        (Volume.copiesDir (rstripSlashes path) (rstripSlashes destination)))
  | .resource clientName path =>
      let destination := stripWebdavPrefix destPath clientName
      clients.finds clientName (Volume.ifReset [destination]
        (Volume.copiesFile path destination answers))

end Clients

/-- The source is moved or copied. -/
def TransferPlan.places (plan : TransferPlan) (verb : TransferVerb)
    (answers : StoreAnswers) (clients : Clients) : Bool :=
  match verb with
  | .move => clients.moves plan.destPath plan.member
  | .copy => clients.copies answers plan.destPath plan.member

/-- Nothing is there to be removed, or it is not found again; and with
nothing there the source is not moved or copied. -/
def TransferPlan.harmless (plan : TransferPlan) (verb : TransferVerb)
    (answers : StoreAnswers) (clients : Clients) : Bool :=
  match plan.existing with
  | none => !plan.places verb answers clients
  | some existing => !clients.removes existing

/-- The request is refused by a check or changes nothing behind them. -/
def WebdavApp.harmless (app : WebdavApp) (answers : StoreAnswers)
    (request : TransferRequest) (clients : Clients) : Bool :=
  match app.plan clients request with
  | .error _ => true
  | .ok plan => plan.harmless request.verb answers clients

end Tgdcfs
