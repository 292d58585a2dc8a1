import Tgdcfs.Core.Serialization
import Tgdcfs.Core.StoreKeys
import Tgdcfs.Core.TimestampRounding

/-!
# The round trip of a version

Everything a descriptor records of a version is read back as it was written:
message ids, mirrors, replicas with their layouts, the store, and the size.
The date is the exception, since it passes through floating point.
-/

namespace Tgdcfs

open Lib

namespace TGFSFileVersion

/-- The date of a version, in the precision of `datetime`. -/
def localDate (version : TGFSFileVersion) : LocalTime :=
  .ofMillis version.updatedAt.ms.toNat

/-- `to_dict` of a version that is dated behind the epoch. -/
def toDictDated (version : TGFSFileVersion) :
    Except FormatError VersionSerialized := do
  let data ← version.toDict
  return { data with updatedAt := ts version.localDate }

/-- What another version has in common with a version that was written. -/
structure ReadBack (version other : TGFSFileVersion) : Prop where
  id : other.id = version.id
  messageIds : other.messageIds = version.messageIds
  pending : other.pending = version.pending
  mirrors : other.mirrors = version.mirrors
  replicas : other.replicas = version.replicas
  store : other.store = version.store
  size : version.pending → other.size = version.size
  recordedSize : other.recordedSize = version.size

/-- The version is written, and what is read is the same version. -/
def Lossless (version : TGFSFileVersion) : Prop :=
  ∃ data other, version.toDictDated = .ok data ∧
    fromDict data = .ok other ∧
      readDate data.updatedAt = some version.localDate ∧
        version.ReadBack other

/-- Ids are unsigned words and keys are normal. -/
structure Wellkept (version : TGFSFileVersion) : Prop where
  ids : ∀ replica ∈ version.replicas.values,
    ∀ id ∈ replica.messageIds, InRange id
  mirrors : ∀ item ∈ version.mirrors.items,
    normalizeStoreKey item.1 = item.1
  replicas : ∀ item ∈ version.replicas.items,
    normalizeStoreKey item.1 = item.1
  store : ∀ key, version.store = some key →
    key ≠ "" ∧ normalizeStoreKey key = key

variable {version : TGFSFileVersion}

theorem Wellkept.storable (wellkept : version.Wellkept) :
    version.Storable :=
  fun replica member _ => wellkept.ids replica member

theorem fromDict_dated (data : VersionSerialized) (timestamp : Int) :
    fromDict { data with updatedAt := timestamp } =
      (fromDict data).map fun read =>
        { read with updatedAt := storedInstant timestamp } := by
  unfold fromDict
  have ids : storedIds { data with updatedAt := timestamp } =
      storedIds data := rfl
  rw [ids]
  cases storedIds data with
  | error failure => rfl
  | ok messageIds =>
      cases normalizeItems .ok data.mirrors with
      | error failure => rfl
      | ok mirrors =>
          cases normalizeItems replicaFromDict data.replicas with
          | error failure => rfl
          | ok replicas => rfl

theorem toDictDated_ok (wellkept : version.Wellkept) :
    version.toDictDated =
      .ok { version.stored with updatedAt := ts version.localDate } := by
  rw [toDictDated, toDict_ok wellkept.storable]
  rfl

/-- An unknown size stays unknown without the sizes of the parts. -/
theorem size_of_unknown {other : TGFSFileVersion}
    (unknown : version.size = INVALID_FILE_SIZE)
    (total : other.totalSize = INVALID_FILE_SIZE)
    (parts : other.partSizes = [])
    (replicas : other.replicas = version.replicas) :
    other.size = INVALID_FILE_SIZE := by
  have unsized : version.totalSize = INVALID_FILE_SIZE := by
    by_contra known
    rw [size, if_pos known] at unknown
    exact known unknown
  rw [size, if_neg (not_not_intro total), if_neg (not_not_intro parts),
    replicas]
  rw [size, if_neg (not_not_intro unsized)] at unknown
  split at unknown
  · exact absurd unknown (by unfold INVALID_FILE_SIZE; omega)
  · exact unknown

theorem readBack_reread (wellkept : version.Wellkept) :
    version.ReadBack version.reread := by
  have mirrors : version.reread.mirrors = version.mirrors :=
    normalized_eq wellkept.mirrors
  have replicas : version.reread.replicas = version.replicas :=
    normalized_eq wellkept.replicas
  refine ⟨rfl, rfl, rfl, mirrors, replicas, ?_, ?_, rfl⟩
  · cases recorded : version.store with
    | none => simp [reread, recorded]
    | some key =>
        obtain ⟨nonempty, normal⟩ := wellkept.store key recorded
        simp [reread, recorded, nonempty, normal]
  · intro pending
    have total : version.reread.totalSize = version.size := if_pos pending
    by_cases known : version.size = INVALID_FILE_SIZE
    · rw [known]
      exact size_of_unknown known (total.trans known) rfl replicas
    · rw [size, total, if_pos known]

theorem lossless_iff_restored (wellkept : version.Wellkept) :
    version.Lossless ↔ version.localDate.Restored := by
  constructor
  · rintro ⟨data, other, written, _, dated, _⟩
    rw [toDictDated_ok wellkept] at written
    cases written
    exact dated
  · intro restored
    refine ⟨_, { version.reread with
      updatedAt := storedInstant (ts version.localDate) },
      toDictDated_ok wellkept, ?_, restored, ?_⟩
    · rw [fromDict_dated, fromDict_stored wellkept.storable]
      rfl
    · have same := readBack_reread wellkept
      exact ⟨same.id, same.messageIds, same.pending, same.mirrors,
        same.replicas, same.store, same.size, same.recordedSize⟩

/-- A version is read back as it was written exactly when its date is.  Up to
the year 2106 that is when `ts` does not lose a millisecond. -/
theorem serialization_lossless_iff (version : TGFSFileVersion)
    (wellkept : version.Wellkept) :
    (version.Lossless ↔ version.localDate.Restored) ∧
    (0 < version.updatedAt.ms → version.updatedAt.ms < 2 ^ 32 * 1000 →
      (version.Lossless ↔
        roundsBelow version.updatedAt.ms.toNat = false)) ∧
    (∀ key, normalizeStoreKey (normalizeStoreKey key) =
      normalizeStoreKey key) ∧
    (∀ family channel : List Char, family ≠ [] →
      family.all isLetter = true →
        normalizeStoreKey (String.ofList (makeStoreKey family channel)) =
          String.ofList (makeStoreKey family channel)) := by
  have lossless := lossless_iff_restored wellkept
  refine ⟨lossless, ?_, normalizeStoreKey_idem, fun family channel =>
    normalizeStoreKey_makeStoreKey channel⟩
  intro positive fits
  rw [lossless]
  exact LocalTime.restored_iff (by omega) (by omega)

/-- A version in a Telegram channel with a replica in a Discord channel. -/
def replicated (millis : Int) : TGFSFileVersion :=
  { id := "v"
    updatedAt := { ms := millis }
    messageIds := [3, 4]
    partSizes := [10, 4]
    mirrors := Dict.ofList [("tg:-2", [7, 0])]
    replicas := Dict.ofList [("dc:5", ⟨[11, 12, 13, 14], [4, 4, 4, 2]⟩)]
    store := some "tg:-1" }

theorem replicated_wellkept (millis : Int) :
    (replicated millis).Wellkept := by
  have mirrors : (replicated millis).mirrors.items = [("tg:-2", [7, 0])] :=
    rfl
  have replicas : (replicated millis).replicas.items =
      [("dc:5", ⟨[11, 12, 13, 14], [4, 4, 4, 2]⟩)] := rfl
  refine ⟨?_, ?_, ?_, ?_⟩
  · have values : (replicated millis).replicas.values =
        [⟨[11, 12, 13, 14], [4, 4, 4, 2]⟩] := rfl
    rw [values]
    decide
  · rw [mirrors]
    decide +kernel
  · rw [replicas]
    decide +kernel
  · intro key recorded
    cases recorded
    decide +kernel

theorem serialization_lossless_replicated :
    (replicated 1700000000123).Lossless :=
  (serialization_lossless_iff _ (replicated_wellkept _)).1.mpr
    (by decide +kernel)

/-- A date of February 2004 is read back a millisecond earlier. -/
theorem serialization_shifts_date :
    0 < (replicated 1075618422574).updatedAt.ms ∧
      (replicated 1075618422574).Wellkept ∧
        ¬(replicated 1075618422574).Lossless := by
  refine ⟨by decide, replicated_wellkept _, ?_⟩
  rintro ⟨data, other, written, _, dated, _⟩
  rw [toDictDated_ok (replicated_wellkept _)] at written
  cases written
  have shifted : ¬(replicated 1075618422574).localDate.Restored := by
    decide +kernel
  exact shifted dated

end TGFSFileVersion

end Tgdcfs
