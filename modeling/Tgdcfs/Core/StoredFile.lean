import Tgdcfs.Backends.DiscordUpload
import Tgdcfs.Core.Overwrite
import Tgdcfs.Upload.Partition

/-!
# A file and its bytes

The history of a file together with the bytes that its versions stand for:
those of the content messages and those that only the local cache holds.  An
upload takes the announced number of bytes off a stream, part by part, and
adds a version; the content of the file is that of the version which is
served when the descriptor is read back.
-/

namespace Tgdcfs

open Lib

def PART_SIZE_DEFAULT : Nat := 512 * 1024 * 4000
def PART_SIZE_PREMIUM : Nat := 512 * 1024 * 8000

/-- The kind of the primary store.  The configuration refuses a Discord store
whose largest attachment is not positive. -/
inductive PrimaryKind where
  | telegram (premiumUpload : Bool)
  | discord (maxPartBytes : Nat) (positive : 0 < maxPartBytes)

/-- The sizes of the parts that `upload` reads.  `_partition` announces a
whole part for a stream of no bytes. -/
def PrimaryKind.parts (kind : PrimaryKind) (size : Nat) : List Nat :=
  match kind with
  | .telegram premiumUpload =>
      let partSize :=
        if PART_SIZE_DEFAULT < size ∧ premiumUpload then PART_SIZE_PREMIUM
        else PART_SIZE_DEFAULT
      if size = 0 then [partSize] else partition size partSize
  | .discord maxPartBytes _ => planParts maxPartBytes size

/-- `FileMessageFromStream.new`. -/
def streamMessage (size : Nat) (chunks : List Bytes) : SourceMessage :=
  .stream
    { size := size
      offset := 0
      readSize := 0
      stream := chunks
      buffer := [] }

/-- Where the bytes of versions are. -/
structure Contents where
  messages : Dict Int Bytes
  cached : Dict String Bytes

/-- What the content repository does with an upload: it reads it into the
local cache, or sends it to the stores.  The environment says in which lengths
the bytes are asked for and how the parts are named. -/
inductive Intake where
  | staged (lengths : List Nat)
  | sent (lengths : List (List Nat)) (messages : List SentFileMessage)

namespace Contents

/-- The bytes of a version, if they are all there. -/
def bytes (contents : Contents) (repo : FDRepository)
    (version : TGFSFileVersion) : Option Bytes :=
  if version.pending then
    if repo.localVersions version.id then contents.cached.get? version.id
    else none
  else (version.messageIds.mapM contents.messages.get?).map List.flatten

/-- The size of the document that a store finds under an id. -/
def sizes (contents : Contents) : Lookup → Int → Nat := fun _ messageId =>
  ((contents.messages.get? messageId).getD []).length

/-- The parts arrive in the channel. -/
def deliver : List (SentFileMessage × Bytes) → Dict Int Bytes → Dict Int Bytes
  | [], messages => messages
  | (message, data) :: rest, messages =>
      (deliver rest messages).set message.messageId data

/-- Every byte of the plan is asked for once.  Staging is complete when the
cache holds the version, whose id is new; a store names each part by an id of
its own. -/
def Admits (contents : Contents) (repo : FDRepository) (kind : PrimaryKind)
    (size : Nat) (versionId : String) : Intake → Prop
  | .staged lengths =>
      lengths.sum = size ∧ repo.localVersions versionId = true ∧
        contents.cached.get? versionId = none
  | .sent lengths messages =>
      lengths.map List.sum = kind.parts size ∧
        messages.length = (kind.parts size).length ∧
        (messages.map SentFileMessage.messageId).Nodup ∧
        ∀ message ∈ messages,
          contents.messages.get? message.messageId = none

instance (contents : Contents) (repo : FDRepository) (kind : PrimaryKind)
    (size : Nat) (versionId : String) (intake : Intake) :
    Decidable (contents.Admits repo kind size versionId intake) :=
  match intake with
  | .staged _ => inferInstanceAs (Decidable (_ ∧ _ ∧ _))
  | .sent _ _ => inferInstanceAs (Decidable (_ ∧ _ ∧ _ ∧ _))

/-- `_new_version` for a stream of the announced size; `none` when the stream
ends before. -/
def receive (contents : Contents) (repo : FDRepository) (kind : PrimaryKind)
    (size : Nat) (chunks : List Bytes) (versionId : String)
    (intake : Intake) : Option (UploadResult × Contents) :=
  if ¬contents.Admits repo kind size versionId intake then none
  else
    match intake with
    | .staged lengths =>
        (uploadPart SourceMessage.operations lengths
          (streamMessage size chunks)).map fun (_, data) =>
            (.staged size,
              { messages := contents.messages
                cached := contents.cached.set versionId data })
    | .sent lengths messages =>
        (uploadSequential SourceMessage.operations
          ((kind.parts size).zip lengths) (streamMessage size chunks)).map
            fun parts =>
              let delivered := messages.zip parts
              (.sent (delivered.map fun (message, data) =>
                  { message with size := data.length }),
                { messages := deliver delivered contents.messages
                  cached := contents.cached })

end Contents

/-- What the environment adds when a descriptor is written. -/
structure DescriptorWrite where
  versionId : String
  now : DateTime
  fresh : Int
  writes : MirrorWrites

structure StoredFile where
  history : FileHistory
  contents : Contents

namespace StoredFile

def missing (state : StoredFile) : Bool := state.history.file.isNone

def append (state : StoredFile) (repo : FDRepository) (name : Name)
    (result : UploadResult) (contents : Contents) (write : DescriptorWrite) :
    Option StoredFile :=
  (state.history.append repo state.contents.sizes name result write.versionId
    write.now write.fresh write.writes).map fun (history, _) =>
      { history := history, contents := contents }

/-- `Ops.touch`: a missing file is made empty. -/
def touch (state : StoredFile) (repo : FDRepository) (name : Name)
    (write : DescriptorWrite) : Option StoredFile :=
  if state.missing then state.append repo name .empty state.contents write
  else some state

/-- `Ops.upload_from_stream`. -/
def uploadFromStream (state : StoredFile) (repo : FDRepository)
    (kind : PrimaryKind) (name : Name) (chunks : List Bytes) (size : Nat)
    (intake : Intake) (write : DescriptorWrite) : Option StoredFile :=
  (state.contents.receive repo kind size chunks write.versionId intake).bind
    fun (result, contents) => state.append repo name result contents write

/-- The bytes of the version that `get_latest_version` returns. -/
def latestBytes (state : StoredFile) (repo : FDRepository)
    (desc : TGFSFileDesc) : Option Bytes :=
  if desc.latestVersionId = INVALID_VERSION_ID then some []
  else desc.latestVersion?.bind (state.contents.bytes repo)

/-- What a client reads of the file. -/
def content (state : StoredFile) (repo : FDRepository) (now : DateTime) :
    Option Bytes :=
  state.history.file.bind fun file =>
    match repo.get (FDRepository.presentAnswers state.history.texts state.contents.sizes)
        file false true now with
    | .error _ => none
    | .ok desc => state.latestBytes repo desc

/-- The descriptor of the file, once there is one, is a message of the
primary, its versions are named, and the bytes of those that can be served are
there. -/
structure Sound (state : StoredFile) (repo : FDRepository) : Prop where
  described : FileHistory.Described repo state.history
  named : ∀ version ∈ state.history.recorded,
    version.id ≠ INVALID_VERSION_ID
  present : ∀ version ∈ state.history.recorded,
    repo.readable version = true →
      (state.contents.bytes repo version).isSome = true

end StoredFile

end Tgdcfs
