import Tgdcfs.Core.FDRepository

/-!
# Writing versions into descriptors

`FileDescApi` over the descriptor repository: an upload becomes a version
that is added to what was read, and the whole descriptor is written back.
The texts of the primary store are explicit; what the mirror stores answer to
a write is given by the environment.
-/

namespace Tgdcfs

open Lib

structure SentFileMessage where
  messageId : Int
  size : Nat
  mirrors : Dict String Int := Dict.empty
  replicas : Dict String Replica := Dict.empty

namespace TGFSFileVersion

/-- A version whose bytes sit in the local cache, not yet in a store. -/
def pendingVersion (versionId : String) (size : Nat) (now : DateTime) :
    TGFSFileVersion :=
  { id := versionId, updatedAt := now, totalSize := size, pending := true }

def emptyVersion (versionId : String) (now : DateTime) : TGFSFileVersion :=
  { id := versionId, updatedAt := now }

def fromSentFileMessage (messages : List SentFileMessage)
    (versionId : String) (now : DateTime) : TGFSFileVersion :=
  let channels := (messages.flatMap fun message => message.mirrors.keys).dedup
  { id := versionId
    updatedAt := now
    messageIds := messages.map SentFileMessage.messageId
    partSizes := messages.map SentFileMessage.size
    mirrors := Dict.ofList (channels.map fun channel =>
      (channel, messages.map fun message =>
        (message.mirrors.get? channel).getD 0))
    replicas := Dict.ofList (messages.flatMap fun message =>
      message.replicas.items) }

end TGFSFileVersion

/-- What the content repository did with the bytes of an upload: staged them
in the local cache, sent them to the stores, or there were none. -/
inductive UploadResult where
  | staged (size : Nat)
  | sent (messages : List SentFileMessage)
  | empty

/-- `_new_version`, or the empty version for a message without bytes. -/
def UploadResult.version (upload : UploadResult) (versionId : String)
    (now : DateTime) : TGFSFileVersion :=
  match upload with
  | .staged size => .pendingVersion versionId size now
  | .sent messages => .fromSentFileMessage messages versionId now
  | .empty => .emptyVersion versionId now

/-- The outcome of editing a text message. -/
inductive TextEdit where
  | edited (messageId : Int)
  | notFound
  | raised

/-- What the mirror stores answer while a descriptor is written. -/
structure MirrorWrites where
  strict : Bool
  edit : String → Int → TextEdit
  send : String → Option Int

namespace MirrorWrites

def sendTo (writes : MirrorWrites) (storeKey : String)
    (ids : Dict String Int) : Option (Dict String Int) :=
  match writes.send storeKey with
  | some messageId => some (ids.set storeKey messageId)
  | none => if writes.strict then none else some ids

/-- Send or update the descriptor in one mirror store; `none` when a strict
group raises. -/
def writeTo (writes : MirrorWrites) (storeKey : String)
    (ids : Dict String Int) : Option (Dict String Int) :=
  match (ids.get? storeKey).filter (· ≠ 0) with
  | none => writes.sendTo storeKey ids
  | some messageId =>
      match writes.edit storeKey messageId with
      | .edited edited => some (ids.set storeKey edited)
      | .notFound => writes.sendTo storeKey ids
      | .raised => if writes.strict then none else some ids

/-- `mirror_fd` over the stores of the group. -/
def mirrorFd (writes : MirrorWrites) :
    List String → Dict String Int → Option (Dict String Int)
  | [], ids => some ids
  | storeKey :: rest, ids =>
      (writes.writeTo storeKey ids).bind (writes.mirrorFd rest)

end MirrorWrites

structure FDRepositoryResp where
  messageId : Int
  fd : TGFSFileDesc
  mirrors : Dict String Int
  store : String

inductive WriteError where
  | get (failure : GetError)
  | desc (failure : DescError)
  | format (failure : FormatError)
  | mirror

namespace FDRepository

/-- The text messages of the primary store. -/
abbrev Texts := Dict Int DescSerialized

/-- The descriptor message of a ref that can be edited in place. -/
def editable (repo : FDRepository) (texts : Texts) :
    Option FileRef → Option FileRef
  | none => none
  | some file =>
      if file.ownedBy repo.key ∧ texts.contains file.messageId then
        some file
      else none

/-- The mirror copies that a write starts from. -/
def existingMirrors (repo : FDRepository) (texts : Texts) :
    Option FileRef → Dict String Int
  | none => Dict.empty
  | some file =>
      if file.ownedBy repo.key then
        if texts.contains file.messageId then file.mirrors else Dict.empty
      else
        match file.store.filter (· ≠ "") with
        | none => file.mirrors
        | some owner => file.mirrors.setDefault owner file.messageId

/-- Write a descriptor: into its message when the primary has it, otherwise
into a new one, which gets the id `fresh`.  The primary is written before the
mirrors, whose failure raises in a strict group. -/
def save (repo : FDRepository) (texts : Texts) (desc : TGFSFileDesc)
    (file : Option FileRef) (fresh : Int) (writes : MirrorWrites) :
    Texts × Except WriteError FDRepositoryResp :=
  let stamped := repo.stamp desc
  match stamped.toDict with
  | .error failure => (texts, .error (.format failure))
  | .ok text =>
      let messageId := ((repo.editable texts file).map
        FileRef.messageId).getD fresh
      let existing := repo.existingMirrors texts file
      match (repo.mirrorKeys.map fun keys =>
          writes.mirrorFd keys existing).getD (some existing) with
      | none => (texts.set messageId text, .error .mirror)
      | some mirrors =>
          (texts.set messageId text, .ok
            { messageId := messageId
              fd := stamped
              mirrors := mirrors
              store := repo.key })

/-- The descriptor an operation starts from. -/
def start (repo : FDRepository) (answers : Answers) (name : Name)
    (now : DateTime) : Option FileRef → Except GetError TGFSFileDesc
  | none => .ok { name := name, createdAt := now }
  | some file => repo.get answers file false true now

def appendFileVersion (repo : FDRepository) (answers : Answers)
    (texts : Texts) (name : Name) (file : Option FileRef)
    (upload : UploadResult) (versionId : String) (now : DateTime)
    (fresh : Int) (writes : MirrorWrites) :
    Texts × Except WriteError FDRepositoryResp :=
  match repo.start answers name now file with
  | .error failure => (texts, .error (.get failure))
  | .ok desc =>
      match desc.addVersion (upload.version versionId now) with
      | .error failure => (texts, .error (.desc failure))
      | .ok added =>
          repo.save texts added (file.map (·.relocate repo.key)) fresh writes

/-- Re-date the latest version and write the descriptor back. -/
def setLastModified (repo : FDRepository) (answers : Answers)
    (texts : Texts) (file : FileRef) (instant now : DateTime)
    (fresh : Int) (writes : MirrorWrites) :
    Texts × Except WriteError FDRepositoryResp :=
  match repo.get answers file false true now with
  | .error failure => (texts, .error (.get failure))
  | .ok desc =>
      match desc.setLastModified instant with
      | .error failure => (texts, .error (.desc failure))
      | .ok dated =>
          repo.save texts dated (some (file.relocate repo.key)) fresh writes

def deleteFileVersion (repo : FDRepository) (answers : Answers)
    (texts : Texts) (file : FileRef) (versionId : String) (now : DateTime)
    (fresh : Int) (writes : MirrorWrites) :
    Texts × Except WriteError FDRepositoryResp :=
  match repo.get answers file false true now with
  | .error failure => (texts, .error (.get failure))
  | .ok desc =>
      match desc.deleteVersion versionId with
      | .error failure => (texts, .error (.desc failure))
      | .ok kept =>
          repo.save texts kept (some (file.relocate repo.key)) fresh writes

end FDRepository

end Tgdcfs
