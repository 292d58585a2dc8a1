import Tgdcfs.Core.Version
import Tgdcfs.Lib.Traversals

/-!
# Writing a version down and reading it back

A version can be written when the ids of its long replicas fit their packed
form.  Reading the stored form gives `reread`: the same ids and layouts under
normalized store keys, dated with the stored timestamp.
-/

namespace Tgdcfs

open Lib

theorem packUInt64_length (value : Nat) : (packUInt64 value).length = 8 := by
  simp [packUInt64]

theorem unpackId_packUInt64 {value : Nat} (small : value < 2 ^ 64) :
    unpackId (packUInt64 value) = .ok (value : Int) := by
  have digits : (packUInt64 value).foldl
      (fun total byte => total * 256 + byte.toNat) 0 = value := by
    simp only [packUInt64, List.range_succ, List.range_zero, List.nil_append,
      List.cons_append, List.map_cons, List.map_nil, List.foldl_cons,
      List.foldl_nil, UInt8.toNat_ofNat', Nat.reducePow, Nat.reduceSub]
    omega
  rw [unpackId, if_pos (packUInt64_length value), digits]

def InRange (id : Int) : Prop := 0 ≤ id ∧ id < 2 ^ 64

instance (id : Int) : Decidable (InRange id) :=
  inferInstanceAs (Decidable (0 ≤ id ∧ id < 2 ^ 64))

theorem packId_ok {id : Int} (inside : InRange id) :
    packId id = .ok (packUInt64 id.toNat) :=
  if_pos inside

theorem unpackId_pack {id : Int} (inside : InRange id) :
    unpackId (packUInt64 id.toNat) = .ok id := by
  have small : id.toNat < 2 ^ 64 := by
    have bound := inside.2
    omega
  rw [unpackId_packUInt64 small, Int.toNat_of_nonneg inside.1]

theorem unpackIds_pack (ids : List Int) (inside : ∀ id ∈ ids, InRange id) :
    unpackIds ids.length
      (ids.map fun id => packUInt64 id.toNat).flatten = .ok ids := by
  induction ids with
  | nil => rfl
  | cons id ids induction =>
      have head := unpackId_pack (inside id List.mem_cons_self)
      have tail := induction fun other member =>
        inside other (List.mem_cons_of_mem _ member)
      rw [List.map_cons, List.flatten_cons, List.length_cons, unpackIds,
        List.take_left' (packUInt64_length _),
        List.drop_left' (packUInt64_length _), head, tail]
      rfl

theorem flatten_pack_length (ids : List Int) :
    (ids.map fun id => packUInt64 id.toNat).flatten.length =
      8 * ids.length := by
  induction ids with
  | nil => rfl
  | cons id ids induction =>
      rw [List.map_cons, List.flatten_cons, List.length_append, induction,
        packUInt64_length, List.length_cons]
      omega

/-- The packed text of a list of ids. -/
def packedText (ids : List Int) : List Char :=
  Base64.symbols (ids.map fun id => packUInt64 id.toNat).flatten

theorem encodeIds_ok {ids : List Int} (inside : ∀ id ∈ ids, InRange id) :
    encodeIds ids = .ok (packedText ids) := by
  have packed : ids.mapM packId =
      .ok (ids.map fun id => packUInt64 id.toNat) :=
    mapM_ok _ fun id member => packId_ok (inside id member)
  rw [encodeIds, packed]
  exact congrArg Except.ok (Base64.stripPadding_pad
    (Base64.padding_not_mem_symbols _))

theorem encodeIds_error {ids : List Int} {id : Int} (member : id ∈ ids)
    (outside : ¬InRange id) : ∃ failure, encodeIds ids = .error failure := by
  obtain ⟨failure, fails⟩ := mapM_error packId member (if_neg outside)
  refine ⟨failure, ?_⟩
  rw [encodeIds, fails]
  rfl

theorem decodeIds_packedText {ids : List Int}
    (inside : ∀ id ∈ ids, InRange id) :
    decodeIds (packedText ids) = .ok ids := by
  have decoded : Base64.decode (Base64.pad (packedText ids)) =
      some (ids.map fun id => packUInt64 id.toNat).flatten :=
    Base64.decode_encode _
  have words : (8 * ids.length + 7) / 8 = ids.length := by omega
  simp only [decodeIds, decoded, flatten_pack_length, words]
  exact unpackIds_pack ids inside

/-- A long list of ids is written in packed form. -/
def Replica.Packable (replica : Replica) : Prop :=
  COMPACT_IDS_THRESHOLD < replica.messageIds.length →
    ∀ id ∈ replica.messageIds, InRange id

/-- The layout part of the stored form. -/
def storedLayout (sizes : List Nat) : ReplicaSerialized :=
  if collapses sizes then
    { p := [sizes.headD 0, sizes.getLastD 0], n := sizes.length }
  else { p := sizes }

def storedReplica (replica : Replica) : ReplicaSerialized :=
  if COMPACT_IDS_THRESHOLD < replica.messageIds.length then
    { storedLayout replica.partSizes with
      mb := some (packedText replica.messageIds) }
  else { storedLayout replica.partSizes with m := replica.messageIds }

variable {replica : Replica}

theorem replicaToDict_ok (packable : replica.Packable) :
    replicaToDict replica = .ok (storedReplica replica) := by
  unfold replicaToDict storedReplica storedLayout
  split
  · rename_i long
    rw [encodeIds_ok (packable long)]
    rfl
  · rfl

theorem replicaToDict_error (unpackable : ¬replica.Packable) :
    ∃ failure, replicaToDict replica = .error failure := by
  unfold Replica.Packable at unpackable
  push Not at unpackable
  obtain ⟨long, id, member, outside⟩ := unpackable
  obtain ⟨failure, fails⟩ := encodeIds_error member outside
  refine ⟨failure, ?_⟩
  unfold replicaToDict
  rw [if_pos long, fails]
  rfl

theorem collapsed_sizes {sizes : List Nat} (same : collapses sizes = true) :
    List.replicate (sizes.length - 1) (sizes.headD 0) ++
      [sizes.getLastD 0] = sizes := by
  simp only [collapses, Bool.and_eq_true, decide_eq_true_eq,
    List.all_eq_true] at same
  obtain ⟨long, equal⟩ := same
  have nonempty : sizes ≠ [] := by
    rintro rfl
    simp at long
  have front : sizes.dropLast =
      List.replicate (sizes.length - 1) (sizes.headD 0) := by
    rw [List.eq_replicate_iff]
    exact ⟨List.length_dropLast, equal⟩
  rw [← front, List.getLastD_eq_getLast?, List.getLast?_eq_getLast_of_ne_nil
    nonempty, Option.getD_some]
  exact List.dropLast_append_getLast nonempty

theorem sizes_storedLayout (sizes : List Nat) :
    (storedLayout sizes).sizes = sizes := by
  unfold storedLayout
  split
  · rename_i same
    have long : 2 < sizes.length := by
      simp only [collapses, Bool.and_eq_true, decide_eq_true_eq] at same
      exact same.1
    exact (if_pos long).trans (collapsed_sizes same)
  · unfold ReplicaSerialized.sizes
    split
    · rename_i common last pair
      rw [if_neg (show ¬2 < 0 by decide)]
      exact pair.symm
    · rfl

theorem replicaFromDict_stored (packable : replica.Packable) :
    replicaFromDict (storedReplica replica) = .ok replica := by
  have sizes : (storedReplica replica).sizes = replica.partSizes := by
    unfold storedReplica
    split
    · exact sizes_storedLayout replica.partSizes
    · exact sizes_storedLayout replica.partSizes
  have ids : (storedReplica replica).ids = .ok replica.messageIds := by
    unfold storedReplica
    split
    · rename_i long
      exact decodeIds_packedText (packable long)
    · unfold storedLayout ReplicaSerialized.ids
      split
      · rename_i packed
        split at packed <;> cases packed
      · rfl
  unfold replicaFromDict
  rw [ids, sizes]
  rfl

namespace TGFSFileVersion

/-- The version can be written down. -/
def Storable (version : TGFSFileVersion) : Prop :=
  ∀ replica ∈ version.replicas.values, replica.Packable

/-- The map that is read back: the same values under normalized keys. -/
def normalized {α : Type} (dict : Dict String α) : Dict String α :=
  Dict.ofList (dict.items.map fun item => (normalizeStoreKey item.1, item.2))

/-- What is read back of a version that was written down. -/
def reread (version : TGFSFileVersion) : TGFSFileVersion :=
  { id := version.id
    updatedAt := storedInstant version.updatedAtTimestamp
    totalSize := if version.pending then version.size else INVALID_FILE_SIZE
    messageIds := version.messageIds
    partSizes := []
    mirrors := normalized version.mirrors
    replicas := normalized version.replicas
    store := (version.store.filter (· ≠ "")).map normalizeStoreKey
    pending := version.pending
    recordedSize := version.size }

/-- The stored form of a version that can be written. -/
def stored (version : TGFSFileVersion) : VersionSerialized :=
  { id := version.id
    updatedAt := version.updatedAtTimestamp
    messageIds := some version.messageIds
    size := version.size
    mirrors := version.mirrors
    replicas := Dict.ofList (version.replicas.items.map fun item =>
      (item.1, storedReplica item.2))
    store := version.store.filter (· ≠ "")
    pending := version.pending }

variable {version : TGFSFileVersion}

theorem replica_of_item {item : String × Replica}
    (member : item ∈ version.replicas.items) :
    item.2 ∈ version.replicas.values :=
  List.mem_map.mpr ⟨item, member, rfl⟩

theorem toDict_ok (storable : version.Storable) :
    version.toDict = .ok version.stored := by
  have traversed : (version.replicas.items.mapM fun item => do
        let value ← replicaToDict item.2
        return (item.1, value)) =
      Except.ok (version.replicas.items.map fun item =>
        (item.1, storedReplica item.2)) := by
    apply mapM_ok
    intro item member
    rw [replicaToDict_ok (storable _ (replica_of_item member))]
    rfl
  unfold toDict replicasToDict
  rw [traversed]
  rfl

theorem toDict_error (unstorable : ¬version.Storable) :
    ∃ failure, version.toDict = .error failure := by
  unfold Storable at unstorable
  push Not at unstorable
  obtain ⟨replica, member, unpackable⟩ := unstorable
  obtain ⟨item, here, rfl⟩ := List.mem_map.mp member
  obtain ⟨reason, raises⟩ := replicaToDict_error unpackable
  obtain ⟨failure, fails⟩ := mapM_error (fun item => do
    let value ← replicaToDict item.2
    return (item.1, value)) here (by rw [raises]; rfl)
  refine ⟨failure, ?_⟩
  unfold toDict replicasToDict
  rw [fails]
  rfl

theorem fromDict_stored (storable : version.Storable) :
    fromDict version.stored = .ok version.reread := by
  have mirrors : normalizeItems Except.ok version.stored.mirrors =
      .ok (normalized version.mirrors) := by
    unfold normalizeItems
    rw [mapM_ok (fun item => (normalizeStoreKey item.1, item.2))]
    · rfl
    · intro item _
      rfl
  have items : version.stored.replicas.items =
      version.replicas.items.map fun item =>
        (item.1, storedReplica item.2) := by
    apply Dict.ofList_items
    rw [List.map_map]
    exact version.replicas.nodup
  have replicas : normalizeItems replicaFromDict version.stored.replicas =
      .ok (normalized version.replicas) := by
    unfold normalizeItems
    rw [items, List.mapM_map,
      mapM_ok (fun item => (normalizeStoreKey item.1, item.2))]
    · rfl
    · intro item member
      rw [Function.comp_apply,
        replicaFromDict_stored (storable _ (replica_of_item member))]
      rfl
  have store : (version.stored.store.filter (· ≠ "")).map normalizeStoreKey =
      (version.store.filter (· ≠ "")).map normalizeStoreKey := by
    unfold stored
    rw [Option.filter_filter]
    simp
  unfold fromDict
  rw [mirrors, replicas, store]
  rfl

theorem normalized_eq {α : Type} {dict : Dict String α}
    (normal : ∀ item ∈ dict.items, normalizeStoreKey item.1 = item.1) :
    normalized dict = dict := by
  have same : (dict.items.map fun item =>
      (normalizeStoreKey item.1, item.2)) = dict.items := by
    conv_rhs => rw [← List.map_id dict.items]
    apply List.map_congr_left
    intro item member
    rw [normal item member]
    rfl
  rw [normalized, same, Dict.ofList_self]

theorem reread_storable (storable : version.Storable) :
    version.reread.Storable := by
  intro replica member
  obtain ⟨item, found, rfl⟩ := List.mem_map.mp member
  obtain ⟨source, here, rfl⟩ :=
    List.mem_map.mp (Dict.mem_of_mem_ofList found)
  exact storable _ (List.mem_map.mpr ⟨source, here, rfl⟩)

end TGFSFileVersion

end Tgdcfs
