import Tgdcfs.Lib.Base64
import Tgdcfs.Lib.Dict
import Tgdcfs.Lib.Letters
import Tgdcfs.Upload.Message

/-!
# File versions

A version names the messages that hold its bytes: the parts in the store that
owns it, aligned copies of the parts in mirror stores, and replicas with a
layout of their own.  This module has the version, its stored form, and its
relocation when another store becomes the primary.  Instants are counted in
milliseconds, the precision of a stored version.
-/

namespace Tgdcfs

open Lib

/-- A point in time; an aware one knows its time zone and cannot be ordered
against a naive one. -/
structure DateTime where
  ms : Int
  aware : Bool := false
  deriving DecidableEq, Repr

namespace DateTime

def ts (instant : DateTime) : Int := instant.ms

/-- `left < right`; `none` when the comparison raises. -/
def before (left right : DateTime) : Option Bool :=
  if left.aware = right.aware then some (decide (left.ms < right.ms))
  else none

theorem before_eq_some {left right : DateTime} {earlier : Bool}
    (compared : left.before right = some earlier) :
    earlier = decide (left.ts < right.ts) := by
  unfold before at compared
  split at compared
  · exact (Option.some.inj compared).symm
  · cases compared

end DateTime

def FIRST_DAY_OF_EPOCH : DateTime := ⟨0, true⟩

def DEFAULT_PREFIX : List Char := ['t', 'g']
def KEY_SEPARATOR : Char := ':'

def makeStoreKey (family channel : List Char) : List Char :=
  family ++ KEY_SEPARATOR :: channel

/-- Split a key into prefix and channel, defaulting to Telegram. -/
def parseStoreKey (key : List Char) : List Char × List Char :=
  let family := key.takeWhile (· ≠ KEY_SEPARATOR)
  match key.dropWhile (· ≠ KEY_SEPARATOR) with
  | [] => (DEFAULT_PREFIX, key)
  | _ :: channel =>
      if family.isEmpty || !family.all isLetter then (DEFAULT_PREFIX, key)
      else (family, channel)

def normalizeStoreKey (key : String) : String :=
  let parsed := parseStoreKey key.toList
  String.ofList (makeStoreKey parsed.1 parsed.2)

/-- A copy of a whole version in one store, with that store's own part
layout; the part sizes may be unknown until the copy is verified. -/
structure Replica where
  messageIds : List Int
  partSizes : List Nat
  deriving DecidableEq, Repr

def Replica.size (replica : Replica) : Nat := replica.partSizes.sum

/-- Why a stored form cannot be written or read. -/
inductive FormatError where
  | structError
  | incorrectPadding
  | keyError (field : String)
  deriving DecidableEq, Repr

def COMPACT_IDS_THRESHOLD : Nat := 100

/-- `struct.pack(">Q", id)`. -/
def packId (id : Int) : Except FormatError Bytes :=
  if 0 ≤ id ∧ id < 2 ^ 64 then .ok (packUInt64 id.toNat)
  else .error .structError

/-- `struct.unpack(">Q", packed)`. -/
def unpackId (packed : Bytes) : Except FormatError Int :=
  if packed.length = 8 then
    .ok (packed.foldl (fun value byte => value * 256 + byte.toNat) 0 : Nat)
  else .error .structError

/-- Pack message ids as big-endian words, base64url without padding. -/
def encodeIds (ids : List Int) : Except FormatError (List Char) := do
  let packed ← ids.mapM packId
  return Base64.stripPadding (Base64.encode packed.flatten)

/-- Read the words of a packed list. -/
def unpackIds : Nat → Bytes → Except FormatError (List Int)
  | 0, _ => .ok []
  | count + 1, packed => do
      let id ← unpackId (packed.take 8)
      let rest ← unpackIds count (packed.drop 8)
      return id :: rest

def decodeIds (encoded : List Char) : Except FormatError (List Int) :=
  match Base64.decode (Base64.pad encoded) with
  | none => .error .incorrectPadding
  | some packed => unpackIds ((packed.length + 7) / 8) packed

structure ReplicaSerialized where
  m : List Int := []
  mb : Option (List Char) := none
  p : List Nat := []
  n : Nat := 0
  deriving DecidableEq, Repr

/-- Part sizes collapse when every part but the last has the same size. -/
def collapses (sizes : List Nat) : Bool :=
  decide (2 < sizes.length) &&
    sizes.dropLast.all (· = sizes.headD 0)

def replicaToDict (replica : Replica) :
    Except FormatError ReplicaSerialized := do
  let sizes := replica.partSizes
  let layout : ReplicaSerialized :=
    if collapses sizes then
      { p := [sizes.headD 0, sizes.getLastD 0], n := sizes.length }
    else { p := sizes }
  if COMPACT_IDS_THRESHOLD < replica.messageIds.length then
    let encoded ← encodeIds replica.messageIds
    return { layout with mb := some encoded }
  else return { layout with m := replica.messageIds }

def ReplicaSerialized.ids (data : ReplicaSerialized) :
    Except FormatError (List Int) :=
  match data.mb with
  | some encoded => decodeIds encoded
  | none => .ok data.m

def ReplicaSerialized.sizes (data : ReplicaSerialized) : List Nat :=
  match data.p with
  | [common, last] =>
      if 2 < data.n then List.replicate (data.n - 1) common ++ [last]
      else [common, last]
  | sizes => sizes

def replicaFromDict (data : ReplicaSerialized) :
    Except FormatError Replica := do
  let ids ← data.ids
  return { messageIds := ids, partSizes := data.sizes }

def EMPTY_FILE_MESSAGE : Int := -1
def INVALID_FILE_SIZE : Int := -1

/-- One version of a file.  `totalSize` is the size once it was summed up or
recorded, and `recordedSize` what the descriptor said when it was read. -/
structure TGFSFileVersion where
  id : String
  updatedAt : DateTime
  totalSize : Int := INVALID_FILE_SIZE
  messageIds : List Int := []
  partSizes : List Nat := []
  mirrors : Dict String (List Int) := Dict.empty
  replicas : Dict String Replica := Dict.empty
  store : Option String := none
  pending : Bool := false
  recordedSize : Int := INVALID_FILE_SIZE
  deriving DecidableEq

/-- The stored form.  Optional fields that are absent have the value that the
reader substitutes for them. -/
structure VersionSerialized where
  id : String
  updatedAt : Int := 0
  messageId : Option Int := none
  messageIds : Option (List Int) := none
  size : Int := INVALID_FILE_SIZE
  mirrors : Dict String (List Int) := Dict.empty
  replicas : Dict String ReplicaSerialized := Dict.empty
  store : Option String := none
  pending : Bool := false
  deriving DecidableEq

namespace TGFSFileVersion

def updatedAtTimestamp (version : TGFSFileVersion) : Int :=
  version.updatedAt.ts

/-- The total size; a verified replica knows it when no layout of the owner
is known. -/
def size (version : TGFSFileVersion) : Int :=
  if version.totalSize ≠ INVALID_FILE_SIZE then version.totalSize
  else if version.partSizes ≠ [] then (version.partSizes.sum : Nat)
  else
    match version.replicas.values.find? fun replica =>
        !replica.partSizes.isEmpty &&
          replica.partSizes.length == replica.messageIds.length with
    | some replica => (replica.size : Nat)
    | none => INVALID_FILE_SIZE

def isValid (version : TGFSFileVersion) : Bool :=
  !version.messageIds.isEmpty

/-- The items of a stored map under normalized keys; a later one wins. -/
def normalizeItems {α β : Type} (change : α → Except FormatError β)
    (dict : Dict String α) : Except FormatError (Dict String β) := do
  let items ← dict.items.mapM fun item => do
    let value ← change item.2
    return (normalizeStoreKey item.1, value)
  return Dict.ofList items

/-- The replicas in their stored form; the keys stay as they are. -/
def replicasToDict (replicas : Dict String Replica) :
    Except FormatError (Dict String ReplicaSerialized) := do
  let items ← replicas.items.mapM fun item => do
    let value ← replicaToDict item.2
    return (item.1, value)
  return Dict.ofList items

def toDict (version : TGFSFileVersion) :
    Except FormatError VersionSerialized := do
  let replicas ← replicasToDict version.replicas
  .ok
    { id := version.id
      updatedAt := version.updatedAtTimestamp
      messageIds := some version.messageIds
      size := version.size
      mirrors := version.mirrors
      replicas := replicas
      store := version.store.filter (· ≠ "")
      pending := version.pending }

/-- The message ids, also of the form with a single message. -/
def storedIds (data : VersionSerialized) : Except FormatError (List Int) :=
  match data.messageIds with
  | some ids => .ok ids
  | none =>
      match data.messageId with
      | none => .error (.keyError "messageId")
      | some id => .ok (if id = EMPTY_FILE_MESSAGE then [] else [id])

/-- The instant a stored timestamp stands for. -/
def storedInstant (timestamp : Int) : DateTime :=
  if 0 < timestamp then { ms := timestamp } else FIRST_DAY_OF_EPOCH

def fromDict (data : VersionSerialized) :
    Except FormatError TGFSFileVersion := do
  let messageIds ← storedIds data
  let mirrors ← normalizeItems .ok data.mirrors
  let replicas ← normalizeItems replicaFromDict data.replicas
  .ok
    { id := data.id
      updatedAt := storedInstant data.updatedAt
      totalSize := if data.pending then data.size else INVALID_FILE_SIZE
      messageIds := messageIds
      partSizes := []
      mirrors := mirrors
      replicas := replicas
      store := (data.store.filter (· ≠ "")).map normalizeStoreKey
      pending := data.pending
      recordedSize := data.size }

def setInvalid (version : TGFSFileVersion) : TGFSFileVersion :=
  { version with
    messageIds := []
    partSizes := []
    mirrors := Dict.empty
    replicas := Dict.empty
    totalSize := INVALID_FILE_SIZE }

/-- The primary store has the bytes: the version stops being pending. -/
def materialize (version : TGFSFileVersion) (store : String)
    (messageIds : List Int) (partSizes : List Nat) : TGFSFileVersion :=
  { version with
    messageIds := messageIds
    partSizes := partSizes
    store := some store
    pending := false
    totalSize := INVALID_FILE_SIZE }

/-- A mirror entry that covers every part of `messageIds`. -/
def aligned (ids messageIds : List Int) : Bool :=
  !ids.isEmpty && ids.length == messageIds.length && ids.all (0 < ·)

/-- Whether a store holds a complete copy of the version. -/
def hasCopyIn (version : TGFSFileVersion) (storeKey : String) : Bool :=
  (decide (version.store = some storeKey) && version.isValid) ||
    (version.mirrors.get? storeKey).any (aligned · version.messageIds) ||
    (version.replicas.get? storeKey).any fun replica =>
      !replica.messageIds.isEmpty

def ownedBy (version : TGFSFileVersion) (storeKey : String) : Bool :=
  version.store.isNone || decide (version.store = some storeKey)

/-- Aligned mirrors keep the layout they were aligned with as replicas. -/
def mirrorsToReplicas (oldIds : List Int) (partSizes : List Nat) :
    List (String × List Int) → Dict String Replica → Dict String Replica
  | [], replicas => replicas
  | (key, ids) :: rest, replicas =>
      mirrorsToReplicas oldIds partSizes rest
        (if ids.length = oldIds.length ∧ ids.all (0 < ·) then
          replicas.set key ⟨ids, partSizes⟩
        else replicas)

/-- The replica of the new primary becomes the layout of the version, and
what was aligned with the old one turns into replicas. -/
def adoptReplica (version : TGFSFileVersion) (owner primaryKey : String)
    (replica : Replica) : TGFSFileVersion :=
  let oldIds := (version.mirrors.get? owner).getD version.messageIds
  { version with
    messageIds := replica.messageIds
    partSizes := replica.partSizes
    totalSize := INVALID_FILE_SIZE
    mirrors := Dict.empty
    replicas := mirrorsToReplicas oldIds version.partSizes
      (version.mirrors.erase owner).items
      (version.replicas.set owner ⟨oldIds, version.partSizes⟩)
    store := some primaryKey }

/-- Re-express the version relative to a new primary store. -/
def relocate (version : TGFSFileVersion) (primaryKey : String) :
    TGFSFileVersion :=
  match version.store with
  | none => version
  | some owner =>
      if owner = primaryKey then version
      else
        let mirrors := version.mirrors.setDefault owner version.messageIds
        match (mirrors.get? primaryKey).filter
            (aligned · version.messageIds) with
        | some ids =>
            { version with
              messageIds := ids
              mirrors := mirrors.erase primaryKey
              store := some primaryKey }
        | none =>
            let kept : TGFSFileVersion :=
              { version with
                mirrors := mirrors
                replicas := version.replicas.erase primaryKey }
            match (version.replicas.get? primaryKey).filter
                fun replica => !replica.messageIds.isEmpty with
            | some replica => kept.adoptReplica owner primaryKey replica
            | none => kept

end TGFSFileVersion

end Tgdcfs
