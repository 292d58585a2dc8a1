import Mathlib.Data.List.Sort
import Tgdcfs.Core.Directory
import Tgdcfs.Core.Version

/-!
# File descriptors

A descriptor holds the versions of a file in the order in which they were
added and points at the latest one.  The pointer is not stored: it is derived
again from the dates and the order of the versions when the descriptor is
read back.
-/

namespace Tgdcfs

open Lib

def INVALID_VERSION_ID : String := ""

inductive DescError where
  | valueError
  | keyError (versionId : String)
  | typeError
  deriving DecidableEq, Repr

structure TGFSFileDesc where
  name : Name
  latestVersionId : String := INVALID_VERSION_ID
  createdAt : DateTime
  versions : Dict String TGFSFileVersion := Dict.empty
  complete : Bool := true
  deriving DecidableEq

structure DescSerialized where
  versions : List VersionSerialized
  deriving DecidableEq

namespace TGFSFileDesc

/-- `max(versions, key=updated_at_timestamp)`: the first of the newest. -/
def firstNewest : TGFSFileVersion → List TGFSFileVersion → TGFSFileVersion
  | best, [] => best
  | best, version :: rest =>
      if best.updatedAtTimestamp < version.updatedAtTimestamp then
        firstNewest version rest
      else firstNewest best rest

/-- The key of the newest version, of the one added last among equally dated
ones; the comparison of two instants may raise. -/
def lastNewest : String × TGFSFileVersion →
    List (String × TGFSFileVersion) → Except DescError String
  | best, [] => .ok best.1
  | best, item :: rest =>
      match item.2.updatedAt.before best.2.updatedAt with
      | none => .error .typeError
      | some true => lastNewest best rest
      | some false => lastNewest item rest

def empty (name : Name) (now : DateTime) : TGFSFileDesc :=
  { name := name, createdAt := now }

/-- Newest first; among equally dated versions the one added last. -/
def newer (left right : TGFSFileVersion × Nat) : Prop :=
  right.1.updatedAtTimestamp < left.1.updatedAtTimestamp ∨
    right.1.updatedAtTimestamp = left.1.updatedAtTimestamp ∧
      right.2 ≤ left.2

instance : DecidableRel newer := fun left right =>
  inferInstanceAs (Decidable
    (right.1.updatedAtTimestamp < left.1.updatedAtTimestamp ∨
      right.1.updatedAtTimestamp = left.1.updatedAtTimestamp ∧
        right.2 ≤ left.2))

/-- `get_versions(sort=True)`. -/
def sortedVersions (desc : TGFSFileDesc) : List TGFSFileVersion :=
  (desc.versions.values.zipIdx.insertionSort newer).map Prod.fst

def toDict (desc : TGFSFileDesc) : Except FormatError DescSerialized := do
  let versions ← desc.sortedVersions.mapM TGFSFileVersion.toDict
  return { versions := versions }

/-- The pointer that reading a descriptor derives. -/
def derivedLatest : List TGFSFileVersion → String
  | [] => INVALID_VERSION_ID
  | version :: rest => (firstNewest version rest).id

def fromDict (data : DescSerialized) (name : Name) (now : DateTime) :
    Except FormatError TGFSFileDesc := do
  let versions ← data.versions.mapM TGFSFileVersion.fromDict
  let keyed := Dict.ofList (versions.map fun version => (version.id, version))
  .ok
    { name := name
      latestVersionId := derivedLatest keyed.values
      createdAt := now
      versions := keyed }

/-- Whether a version added to a descriptor becomes the latest one. -/
def supersedes (desc : TGFSFileDesc) (version : TGFSFileVersion) :
    Except DescError Bool :=
  if desc.latestVersionId = INVALID_VERSION_ID then .ok true
  else
    match (desc.versions.set version.id version).get?
        desc.latestVersionId with
    | none => .error (.keyError desc.latestVersionId)
    | some latest =>
        match version.updatedAt.before latest.updatedAt with
        | none => .error .typeError
        | some earlier => .ok !earlier

def addVersion (desc : TGFSFileDesc) (version : TGFSFileVersion) :
    Except DescError TGFSFileDesc := do
  let latest ← desc.supersedes version
  match version.updatedAt.before desc.createdAt with
  | none => .error .typeError
  | some older =>
      .ok
        { desc with
          versions := desc.versions.set version.id version
          latestVersionId :=
            if latest then version.id else desc.latestVersionId
          createdAt := if older then version.updatedAt else desc.createdAt }

/-- Date the latest version, unless that would promote an older one. -/
def setLastModified (desc : TGFSFileDesc) (instant : DateTime) :
    Except DescError TGFSFileDesc :=
  if desc.latestVersionId = INVALID_VERSION_ID then .error .valueError
  else
    match desc.versions.get? desc.latestVersionId with
    | none => .error (.keyError desc.latestVersionId)
    | some latest =>
        let others := desc.versions.erase desc.latestVersionId
        if others.values.any fun version =>
            instant.ts ≤ version.updatedAtTimestamp then .error .valueError
        else
          .ok
            { desc with
              versions := desc.versions.set desc.latestVersionId
                { latest with updatedAt := instant }
              createdAt :=
                if instant.ts < desc.createdAt.ts then instant
                else desc.createdAt }

def deleteVersion (desc : TGFSFileDesc) (versionId : String) :
    Except DescError TGFSFileDesc :=
  if !desc.versions.contains versionId then .error .valueError
  else
    let versions := desc.versions.erase versionId
    if versionId ≠ desc.latestVersionId then
      .ok { desc with versions := versions }
    else
      match versions.items with
      | [] => .ok { desc with versions := versions, latestVersionId := "" }
      | item :: rest =>
          (lastNewest item rest).map fun latest =>
            { desc with versions := versions, latestVersionId := latest }

/-- `versions[latest_version_id]`. -/
def latestVersion? (desc : TGFSFileDesc) : Option TGFSFileVersion :=
  desc.versions.get? desc.latestVersionId

end TGFSFileDesc

end Tgdcfs
