import Tgdcfs.Core.Descriptor

/-!
# The descriptor repository

Descriptors are text messages in the primary store with copies in the mirror
stores.  Reading one checks which of the recorded content messages still
exist, store by store; every call that asks a store is named by the place it
is made from, and its answer, or that it raises, is given by the environment.
-/

namespace Tgdcfs

open Lib

/-- What a store answers for one message id that exists. -/
structure StoredMessage where
  messageId : Int
  text : Option DescSerialized := none
  documentSize : Option Nat := none
  deriving DecidableEq

/-- The calls of `get_messages` that reading one descriptor makes. -/
inductive Lookup where
  | descriptor
  | descriptorMirror (storeKey : String)
  | parts
  | mirrorPart (versionId : String) (part : Nat) (storeKey : String)
  | replica (versionId : String) (storeKey : String)
  deriving DecidableEq, Repr

/-- The answer to each call; `none` when it raises. -/
abbrev Answers := Lookup → List Int → Option (List (Option StoredMessage))

inductive GetError where
  | unreachable
  | format (failure : FormatError)
  deriving DecidableEq, Repr

/-- The repository over one primary store; `mirrorKeys` lists the stores of
its mirror group, if it has one, and `localVersions` says which pending
versions the local cache holds in full.  The key of a store is made from its
prefix and channel, so it is a normalized one. -/
structure FDRepository where
  key : String
  mirrorKeys : Option (List String)
  localVersions : String → Bool
  key_normal : normalizeStoreKey key = key

theorem normalizeStoreKey_tg : normalizeStoreKey "tg:1" = "tg:1" := by
  decide

namespace FileRef

def ownedBy (file : FileRef) (storeKey : String) : Bool :=
  file.store.isNone || decide (file.store = some storeKey)

/-- Re-express the ref relative to a new primary store. -/
def relocate (file : FileRef) (primaryKey : String) : FileRef :=
  match file.store with
  | none => file
  | some owner =>
      if owner = primaryKey then file
      else
        let mirrors := file.mirrors.setDefault owner file.messageId
        match (mirrors.get? primaryKey).filter (0 < ·) with
        | some messageId =>
            { file with
              messageId := messageId
              mirrors := mirrors.erase primaryKey
              store := some primaryKey }
        | none => { file with mirrors := mirrors }

end FileRef

namespace FDRepository

def readableLocally (repo : FDRepository) (version : TGFSFileVersion) :
    Bool :=
  version.pending && repo.localVersions version.id

/-- `store_for(key) is not None`: the primary or a store of the group. -/
def storeFor (repo : FDRepository) (storeKey : String) : Bool :=
  match repo.mirrorKeys with
  | none => false
  | some keys => storeKey = repo.key || keys.contains storeKey

/-- The text among the answers to a call for one message. -/
def answeredText : Option (List (Option StoredMessage)) →
    Option DescSerialized
  | some (some message :: _) => message.text
  | _ => none

def mirrorText (repo : FDRepository) (answers : Answers) :
    List (String × Int) → Option DescSerialized
  | [] => none
  | (storeKey, messageId) :: rest =>
      if repo.storeFor storeKey then
        match answeredText
            (answers (.descriptorMirror storeKey) [messageId]) with
        | some text => some text
        | none => mirrorText repo answers rest
      else mirrorText repo answers rest

/-- Read the descriptor, falling back to mirror copies if needed. -/
def getFdText (repo : FDRepository) (answers : Answers) (file : FileRef) :
    Option DescSerialized :=
  let primary :=
    if file.ownedBy repo.key then
      answeredText (answers .descriptor [file.messageId])
    else none
  match primary with
  | some text => some text
  | none =>
      if repo.mirrorKeys.isNone then none
      else mirrorText repo answers file.mirrors.items

/-- The size of the document found for the first of the asked ids. -/
def answeredSize : Option (List (Option StoredMessage)) → Option Nat
  | some (some message :: _) => message.documentSize
  | _ => none

/-- `_lookup_mirror_parts` for the copies of one part, and the first size
that it finds. -/
def mirrorSize (repo : FDRepository) (answers : Answers)
    (version : TGFSFileVersion) (part : Nat) : Option Nat :=
  version.mirrors.items.findSome? fun item =>
    match item.2[part]? with
    | none => none
    | some messageId =>
        if 0 < messageId ∧ repo.storeFor item.1 then
          answeredSize (answers (.mirrorPart version.id part item.1)
            [messageId])
        else none

/-- The sizes of the parts; `none` when neither the primary nor a mirror has
one of them. -/
def layoutSizes (repo : FDRepository) (answers : Answers)
    (messages : Dict Int StoredMessage) (version : TGFSFileVersion) :
    List (Int × Nat) → Option (List Nat)
  | [] => some []
  | (messageId, part) :: rest =>
      let primary :=
        if version.ownedBy repo.key then
          (messages.get? messageId).bind StoredMessage.documentSize
        else none
      match primary.or (repo.mirrorSize answers version part) with
      | none => none
      | some size =>
          (layoutSizes repo answers messages version rest).map (size :: ·)

/-- The part sizes of a replica whose messages all exist. -/
def replicaSizes (repo : FDRepository) (answers : Answers)
    (versionId storeKey : String) (replica : Replica) : Option (List Nat) :=
  if repo.storeFor storeKey ∧ replica.messageIds ≠ [] then
    (answers (.replica versionId storeKey) replica.messageIds).bind
      fun messages => messages.mapM fun message =>
        message.bind StoredMessage.documentSize
  else none

/-- The replicas with the part sizes of the complete ones filled in. -/
def verifyReplicas (repo : FDRepository) (answers : Answers)
    (version : TGFSFileVersion) : Dict String Replica × Bool :=
  let sizes := fun (item : String × Replica) =>
    repo.replicaSizes answers version.id item.1 item.2
  (Dict.ofList (version.replicas.items.map fun item =>
      match sizes item with
      | some partSizes => (item.1, { item.2 with partSizes := partSizes })
      | none => item),
    version.replicas.items.any fun item => (sizes item).isSome)

/-- The check of one version that has message ids. -/
def validateVersion (repo : FDRepository) (answers : Answers)
    (messages : Dict Int StoredMessage) (version : TGFSFileVersion) :
    TGFSFileVersion :=
  match repo.layoutSizes answers messages version
      version.messageIds.zipIdx with
  | some sizes => { version with partSizes := sizes }
  | none =>
      let verified := repo.verifyReplicas answers version
      if verified.2 then
        { version with
          replicas := verified.1
          partSizes := []
          totalSize := INVALID_FILE_SIZE }
      else version.setInvalid

/-- Check the versions in order, up to the first valid one unless all are
asked for; also whether a valid one was found. -/
def validateVersions (repo : FDRepository) (answers : Answers)
    (messages : Dict Int StoredMessage) (includeAll : Bool) :
    List (String × TGFSFileVersion) →
      List (String × TGFSFileVersion) × Bool
  | [] => ([], false)
  | (key, version) :: rest =>
      if version.isValid then
        let checked := repo.validateVersion answers messages version
        if checked.isValid && !includeAll then ((key, checked) :: rest, true)
        else
          let tail := validateVersions repo answers messages includeAll rest
          ((key, checked) :: tail.1, checked.isValid || tail.2)
      else
        let tail := validateVersions repo answers messages includeAll rest
        ((key, version) :: tail.1, tail.2)

/-- Whether a version can be served here. -/
def readable (repo : FDRepository) (version : TGFSFileVersion) : Bool :=
  version.isValid || repo.readableLocally version

/-- Move the pointer off a version that cannot be served. -/
def pointAtReadable (repo : FDRepository) (desc : TGFSFileDesc)
    (hasValid : Bool) (now : DateTime) : TGFSFileDesc :=
  let values := desc.versions.values
  let served := (desc.versions.get? desc.latestVersionId).any repo.readable
  let pointed :=
    if served then desc
    else
      match values.filter repo.readable with
      | [] => desc
      | version :: rest =>
          { desc with latestVersionId :=
              (TGFSFileDesc.firstNewest version rest).id }
  if hasValid || values.any repo.readableLocally then pointed
  else { TGFSFileDesc.empty desc.name now with complete := desc.complete }

/-- The ids of the parts that the primary is asked for. -/
def primaryIds (repo : FDRepository) (desc : TGFSFileDesc) : List Int :=
  (desc.versions.values.filter fun version =>
    version.isValid && version.ownedBy repo.key).flatMap
      TGFSFileVersion.messageIds

def messageMap (messages : List (Option StoredMessage)) :
    Dict Int StoredMessage :=
  Dict.ofList (messages.filterMap id |>.map fun message =>
    (message.messageId, message))

theorem validateVersions_keys (repo : FDRepository) (answers : Answers)
    (messages : Dict Int StoredMessage) (includeAll : Bool)
    (items : List (String × TGFSFileVersion)) :
    (repo.validateVersions answers messages includeAll items).1.map Prod.fst =
      items.map Prod.fst := by
  induction items with
  | nil => rfl
  | cons item items induction =>
      obtain ⟨key, version⟩ := item
      unfold validateVersions
      split
      · dsimp only
        split
        · rfl
        · simp [induction]
      · simp [induction]

/-- The versions of a descriptor after the check. -/
def validated (repo : FDRepository) (answers : Answers)
    (messages : Dict Int StoredMessage) (includeAll : Bool)
    (versions : Dict String TGFSFileVersion) : Dict String TGFSFileVersion :=
  ⟨(repo.validateVersions answers messages includeAll versions.items).1, by
    rw [validateVersions_keys]
    exact versions.nodup⟩

def validateFv (repo : FDRepository) (answers : Answers)
    (includeAll : Bool) (now : DateTime) (desc : TGFSFileDesc) :
    Except GetError TGFSFileDesc :=
  let answer := answers .parts (repo.primaryIds desc)
  if answer.isNone && repo.mirrorKeys.isNone then .error .unreachable
  else
    let messages := messageMap (answer.getD [])
    .ok (repo.pointAtReadable
      { desc with
        versions := repo.validated answers messages includeAll desc.versions
        complete := desc.complete && answer.isSome }
      (repo.validateVersions answers messages includeAll
        desc.versions.items).2 now)

/-- Serve the descriptor as it is recorded, without asking the stores. -/
def trustRecorded (repo : FDRepository) (now : DateTime)
    (desc : TGFSFileDesc) : TGFSFileDesc :=
  repo.pointAtReadable
    { desc with
      versions := desc.versions.mapValues fun version =>
        if version.isValid ∧ version.size = INVALID_FILE_SIZE ∧
            0 ≤ version.recordedSize then
          { version with totalSize := version.recordedSize }
        else version }
    (desc.versions.values.any TGFSFileVersion.isValid) now

/-- Every version relative to the primary. -/
def relocateVersions (repo : FDRepository) (desc : TGFSFileDesc) :
    TGFSFileDesc :=
  { desc with
    versions := desc.versions.mapValues (·.relocate repo.key) }

/-- Read a descriptor; the ref is relocated on the way. -/
def get (repo : FDRepository) (answers : Answers) (file : FileRef)
    (includeAll validate : Bool) (now : DateTime) :
    Except GetError TGFSFileDesc :=
  match repo.getFdText answers (file.relocate repo.key) with
  | none => .ok { TGFSFileDesc.empty file.name now with complete := false }
  | some text =>
      match TGFSFileDesc.fromDict text file.name now with
      | .error failure => .error (.format failure)
      | .ok desc =>
          let relocated := repo.relocateVersions desc
          if validate then repo.validateFv answers includeAll now relocated
          else .ok (repo.trustRecorded now relocated)

/-- Versions without a store were written or duplicated into this one. -/
def stampVersion (key : String) (version : TGFSFileVersion) :
    TGFSFileVersion :=
  if version.store = none ∧ version.isValid then
    { version with store := some key }
  else version

/-- Record which store the versions' ids belong to. -/
def stamp (repo : FDRepository) (desc : TGFSFileDesc) : TGFSFileDesc :=
  { desc with versions := desc.versions.mapValues (stampVersion repo.key) }

end FDRepository

end Tgdcfs
