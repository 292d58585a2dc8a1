import Tgdcfs.Core.FDRepository
import Tgdcfs.Core.Timestamps
import Tgdcfs.Lib.Traversals

/-!
# Stored dates as they are read

A stored timestamp goes through `datetime.fromtimestamp` when a descriptor is
read, and `ts` reads it off again.  A text with its timestamps converted so is
read exactly, and a date decides about nothing but the order of versions: the
rest of a read is the same.
-/

namespace Tgdcfs

open Lib

/-- The timestamp that is written for a version that records `timestamp`. -/
def rewrittenTimestamp (timestamp : Int) : Int :=
  ((readDate timestamp).map ts).getD 0

def VersionSerialized.dated (data : VersionSerialized) : VersionSerialized :=
  { data with updatedAt := rewrittenTimestamp data.updatedAt }

def DescSerialized.dated (text : DescSerialized) : DescSerialized :=
  { versions := text.versions.map VersionSerialized.dated }

def StoredMessage.dated (message : StoredMessage) : StoredMessage :=
  { message with text := message.text.map DescSerialized.dated }

/-- The answers of the stores with the dates of the descriptors as they are
read. -/
def Answers.dated (answers : Answers) : Answers
  | .descriptor, ids =>
      (answers .descriptor ids).map (List.map (Option.map StoredMessage.dated))
  | .descriptorMirror storeKey, ids =>
      (answers (.descriptorMirror storeKey) ids).map
        (List.map (Option.map StoredMessage.dated))
  | lookup, ids => answers lookup ids

def TGFSFileVersion.dated (version : TGFSFileVersion) : TGFSFileVersion :=
  { version with
    updatedAt :=
      storedInstant (rewrittenTimestamp version.updatedAtTimestamp) }

def TGFSFileDesc.dated (desc : TGFSFileDesc) : TGFSFileDesc :=
  { desc with
    versions := desc.versions.mapValues TGFSFileVersion.dated
    latestVersionId :=
      derivedLatest (desc.versions.values.map TGFSFileVersion.dated) }

theorem rewrittenTimestamp_nonneg (timestamp : Int) :
    0 ≤ rewrittenTimestamp timestamp := by
  unfold rewrittenTimestamp
  cases readDate timestamp with
  | none => exact le_rfl
  | some date => exact Int.natCast_nonneg _

theorem rewrittenTimestamp_stored (timestamp : Int) :
    rewrittenTimestamp (TGFSFileVersion.storedInstant timestamp).ts =
      rewrittenTimestamp timestamp := by
  unfold TGFSFileVersion.storedInstant
  split
  · rfl
  · rename_i early
    have none : readDate timestamp = none := if_neg early
    rw [rewrittenTimestamp, rewrittenTimestamp, none]
    rfl

theorem storedInstant_ts {timestamp : Int} (nonneg : 0 ≤ timestamp) :
    (TGFSFileVersion.storedInstant timestamp).ts = timestamp := by
  unfold TGFSFileVersion.storedInstant
  split
  · rfl
  · exact (le_antisymm (not_lt.mp ‹_›) nonneg).symm

namespace TGFSFileVersion

/-- A version that is not touched is dated as it was written. -/
theorem dated_updatedAtTimestamp (version : TGFSFileVersion) :
    version.dated.updatedAtTimestamp =
      rewrittenTimestamp version.updatedAtTimestamp :=
  storedInstant_ts (rewrittenTimestamp_nonneg _)

theorem fromDict_converted {data : VersionSerialized}
    {version : TGFSFileVersion} (read : fromDict data = .ok version) :
    fromDict data.dated = .ok version.dated := by
  obtain ⟨ids, foundIds, rest⟩ := bind_ok read
  obtain ⟨mirrors, foundMirrors, rest⟩ := bind_ok rest
  obtain ⟨replicas, foundReplicas, made⟩ := bind_ok rest
  cases made
  unfold fromDict
  rw [show storedIds data.dated = .ok ids from foundIds,
    show normalizeItems Except.ok data.dated.mirrors = .ok mirrors from
      foundMirrors,
    show normalizeItems replicaFromDict data.dated.replicas = .ok replicas
      from foundReplicas]
  unfold dated updatedAtTimestamp
  dsimp only
  rw [rewrittenTimestamp_stored]
  rfl

theorem relocate_dated (version : TGFSFileVersion) (key : String) :
    version.dated.relocate key = (version.relocate key).dated := by
  unfold relocate
  dsimp only [dated]
  split
  · rfl
  · split
    · rfl
    · split
      · rfl
      · split <;> rfl

end TGFSFileVersion

theorem TGFSFileDesc.fromDict_converted {text : DescSerialized} {name : Name}
    {now : DateTime} {desc : TGFSFileDesc}
    (read : fromDict text name now = .ok desc) :
    fromDict text.dated name now = .ok desc.dated := by
  obtain ⟨versions, found, made⟩ := bind_ok read
  cases made
  have changed := mapM_changed found VersionSerialized.dated
    TGFSFileVersion.dated fun _ _ => TGFSFileVersion.fromDict_converted
  have keyed : (versions.map TGFSFileVersion.dated).map
        (fun version => (version.id, version)) =
      (versions.map fun version => (version.id, version)).map
        fun item => (item.1, item.2.dated) := by
    rw [List.map_map, List.map_map]
    rfl
  unfold fromDict
  rw [show text.dated.versions = text.versions.map VersionSerialized.dated
    from rfl, changed]
  change Except.ok _ = Except.ok _
  rw [keyed, Dict.ofList_map, Dict.values_mapValues]
  rfl

namespace FDRepository

variable {repo : FDRepository} {answers : Answers}

theorem answeredText_dated
    (answer : Option (List (Option StoredMessage))) :
    answeredText (answer.map (List.map (Option.map StoredMessage.dated))) =
      (answeredText answer).map DescSerialized.dated := by
  rcases answer with _ | _ | ⟨_ | message, rest⟩
  · rfl
  · rfl
  · rfl
  · rfl

theorem mirrorText_dated (copies : List (String × Int)) :
    repo.mirrorText answers.dated copies =
      (repo.mirrorText answers copies).map DescSerialized.dated := by
  induction copies with
  | nil => rfl
  | cons copy copies induction =>
      obtain ⟨storeKey, messageId⟩ := copy
      unfold mirrorText
      split
      · rw [show answers.dated (.descriptorMirror storeKey) [messageId] =
            (answers (.descriptorMirror storeKey) [messageId]).map
              (List.map (Option.map StoredMessage.dated)) from rfl,
          answeredText_dated]
        cases answeredText
            (answers (.descriptorMirror storeKey) [messageId]) with
        | none => exact induction
        | some text => rfl
      · exact induction

theorem getFdText_dated (file : FileRef) :
    repo.getFdText answers.dated file =
      (repo.getFdText answers file).map DescSerialized.dated := by
  have primary : answeredText (answers.dated .descriptor [file.messageId]) =
      (answeredText (answers .descriptor [file.messageId])).map
        DescSerialized.dated := answeredText_dated _
  unfold getFdText
  dsimp only
  rw [primary, mirrorText_dated]
  by_cases owned : file.ownedBy repo.key
  · rw [if_pos owned, if_pos owned]
    cases answeredText (answers .descriptor [file.messageId]) with
    | none =>
        dsimp only [Option.map_none]
        split <;> rfl
    | some text => rfl
  · rw [if_neg owned, if_neg owned]
    dsimp only
    split <;> rfl

theorem layoutSizes_dated (messages : Dict Int StoredMessage)
    (version : TGFSFileVersion) (items : List (Int × Nat)) :
    repo.layoutSizes answers.dated messages version.dated items =
      repo.layoutSizes answers messages version items := by
  induction items with
  | nil => rfl
  | cons item items induction =>
      unfold layoutSizes
      rw [induction]
      rfl

theorem validateVersion_dated (messages : Dict Int StoredMessage)
    (version : TGFSFileVersion) :
    repo.validateVersion answers.dated messages version.dated =
      (repo.validateVersion answers messages version).dated := by
  unfold validateVersion
  rw [layoutSizes_dated]
  rw [show version.dated.messageIds = version.messageIds from rfl]
  cases repo.layoutSizes answers messages version
      version.messageIds.zipIdx with
  | some sizes => rfl
  | none =>
      dsimp only
      rw [show repo.verifyReplicas answers.dated version.dated =
        repo.verifyReplicas answers version from rfl]
      split <;> rfl

theorem relocateVersions_dated (recorded : TGFSFileDesc) :
    (repo.relocateVersions recorded.dated).versions =
      (repo.relocateVersions recorded).versions.mapValues
        TGFSFileVersion.dated := by
  unfold relocateVersions TGFSFileDesc.dated Dict.mapValues
  simp only [List.map_map, Function.comp_def,
    TGFSFileVersion.relocate_dated]

theorem primaryIds_dated (recorded : TGFSFileDesc) :
    repo.primaryIds (repo.relocateVersions recorded.dated) =
      repo.primaryIds (repo.relocateVersions recorded) := by
  unfold primaryIds
  rw [relocateVersions_dated, Dict.values_mapValues, List.filter_map,
    List.flatMap_map]
  rfl

end FDRepository

end Tgdcfs
