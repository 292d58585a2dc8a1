import Tgdcfs.Core.WriteBack
import Tgdcfs.Replication.Backfill

/-!
# What a backfill does to one version

The keys under which a version records its copies stay normal, so writing the
version down and reading it back loses none of them.  A version that the
backfill finished without a failure belongs to the primary and has a complete
copy in every mirror store, and neither the check of a later read nor a
recheck that finds everything takes a copy away.
-/

namespace Tgdcfs

open Lib

/-- Every key of the map is in the form in which keys are made. -/
def KeysNormal {α : Type} (dict : Dict String α) : Prop :=
  ∀ key value, dict.get? key = some value → normalizeStoreKey key = key

namespace KeysNormal

variable {α : Type} {dict : Dict String α}

theorem empty : KeysNormal (Dict.empty : Dict String α) := by
  intro key value found
  cases found

theorem set (normal : KeysNormal dict) {key : String}
    (made : normalizeStoreKey key = key) (value : α) :
    KeysNormal (dict.set key value) := by
  intro other found there
  rw [Dict.get?_set] at there
  split at there
  · rename_i same
    rw [same]
    exact made
  · exact normal other found there

theorem erase (normal : KeysNormal dict) (key : String) :
    KeysNormal (dict.erase key) := by
  intro other found there
  rw [Dict.get?_erase] at there
  split at there
  · cases there
  · exact normal other found there

theorem setDefault (normal : KeysNormal dict) {key : String}
    (made : normalizeStoreKey key = key) (value : α) :
    KeysNormal (dict.setDefault key value) := by
  intro other found there
  rw [Dict.get?_setDefault] at there
  split at there
  · rename_i same
    rw [same]
    exact made
  · exact normal other found there

theorem filterKeys (normal : KeysNormal dict) (test : String → Bool) :
    KeysNormal (dict.filterKeys test) := by
  intro other found there
  rw [Dict.get?_filterKeys] at there
  split at there
  · exact normal other found there
  · cases there

theorem normalized (normal : KeysNormal dict) :
    TGFSFileVersion.normalized dict = dict := by
  apply TGFSFileVersion.normalized_eq
  intro item member
  exact normal item.1 item.2 ((Dict.get?_eq_some_iff _ _ _).mpr member)

theorem of_normalized (same : TGFSFileVersion.normalized dict = dict) :
    KeysNormal dict := by
  intro key value found
  rw [← same] at found
  have listed := Dict.mem_of_mem_ofList
    ((Dict.get?_eq_some_iff _ _ _).mp found)
  obtain ⟨source, _, equal⟩ := List.mem_map.mp listed
  have named : normalizeStoreKey source.1 = key := congrArg Prod.fst equal
  rw [← named]
  exact normalizeStoreKey_idem source.1

end KeysNormal

namespace TGFSFileVersion

/-- The version records its store and its copies under normal keys. -/
structure Normal (version : TGFSFileVersion) : Prop where
  mirrors : KeysNormal version.mirrors
  replicas : KeysNormal version.replicas
  store : ∀ owner, version.store = some owner →
    normalizeStoreKey owner = owner

theorem fromDict_normal {data : VersionSerialized}
    {version : TGFSFileVersion} (read : fromDict data = .ok version) :
    version.Normal := by
  have recorded := fromDict_recorded read
  have made : version.store =
      (data.store.filter (· ≠ "")).map normalizeStoreKey := by
    obtain ⟨messageIds, _, rest⟩ := bind_ok read
    obtain ⟨mirrored, _, rest⟩ := bind_ok rest
    obtain ⟨replicated, _, made⟩ := bind_ok rest
    cases made
    rfl
  refine ⟨.of_normalized recorded.mirrors, .of_normalized recorded.replicas,
    ?_⟩
  intro owner stored
  rw [made] at stored
  obtain ⟨source, _, rfl⟩ := Option.map_eq_some_iff.mp stored
  exact normalizeStoreKey_idem source

variable {version : TGFSFileVersion} {key : String}

/-- Two versions record the same copies. -/
structure SameCopies (version other : TGFSFileVersion) : Prop where
  messageIds : other.messageIds = version.messageIds
  store : other.store = version.store
  pending : other.pending = version.pending
  copies : ∀ key, other.hasCopyIn key = version.hasCopyIn key

namespace SameCopies

theorem isValid {other : TGFSFileVersion} (same : SameCopies version other) :
    other.isValid = version.isValid := by
  rw [TGFSFileVersion.isValid, same.messageIds]
  rfl

theorem ownedBy {other : TGFSFileVersion} (same : SameCopies version other)
    (key : String) : other.ownedBy key = version.ownedBy key := by
  rw [TGFSFileVersion.ownedBy, same.store]
  rfl

end SameCopies

theorem normalizeStoreKey_ne_empty {owner : String}
    (made : normalizeStoreKey owner = owner) : owner ≠ "" := by
  rintro rfl
  revert made
  decide

theorem Normal.reread (normal : version.Normal) :
    SameCopies version version.reread ∧
      version.reread.replicas = version.replicas := by
  have store : (version.store.filter (· ≠ "")).map normalizeStoreKey =
      version.store := by
    cases stored : version.store with
    | none => rfl
    | some owner =>
        have made := normal.store owner stored
        have named := normalizeStoreKey_ne_empty made
        rw [Option.filter_some, if_pos (by simpa using named),
          Option.map_some, made]
  have mirrors := normal.mirrors.normalized
  have replicas := normal.replicas.normalized
  refine ⟨⟨rfl, store, rfl, ?_⟩, replicas⟩
  intro key
  unfold TGFSFileVersion.reread hasCopyIn
  dsimp only
  rw [store, mirrors, replicas]
  rfl

theorem Normal.relocate (normal : version.Normal)
    (made : normalizeStoreKey key = key) :
    (version.relocate key).Normal := by
  cases stored : version.store with
  | none =>
      have unchanged : version.relocate key = version := by
        simp [TGFSFileVersion.relocate, stored]
      rw [unchanged]
      exact normal
  | some owner =>
      have own := normal.store owner stored
      have remembered : KeysNormal (version.remembered owner) :=
        normal.mirrors.setDefault own version.messageIds
      have here : ∀ other, some key = some other →
          normalizeStoreKey other = other := by
        intro other same
        cases same
        exact made
      by_cases same : key = owner
      · have unchanged : version.relocate key = version := by
          simp [TGFSFileVersion.relocate, stored, same]
        rw [unchanged]
        exact normal
      · rcases version.relocate_cases stored same with
          ⟨ids, _, _, moved⟩ | ⟨replica, _, _, _, moved⟩ | ⟨_, _, moved⟩
        · rw [moved]
          exact ⟨remembered.erase key, normal.replicas, here⟩
        · rw [moved]
          refine ⟨KeysNormal.empty, ?_, here⟩
          intro other found there
          rcases mirrorsToReplicas_get _ _ _ _ _ _ there with
            ⟨ids, listed, _, _⟩ | before
          · exact (remembered.erase owner) other ids
              ((Dict.get?_eq_some_iff _ _ _).mpr listed)
          · exact ((normal.replicas.erase key).set own _) other found before
        · rw [moved]
          exact ⟨remembered, normal.replicas.erase key, normal.store⟩

/-- A version without content does not get content by a relocation to this
store. -/
def Inert (version : TGFSFileVersion) (key : String) : Prop :=
  version.isValid = false → version.ownedBy key = true ∨
    ∀ replica, version.replicas.get? key = some replica →
      replica.messageIds = []

theorem isValid_false_iff :
    version.isValid = false ↔ version.messageIds = [] := by
  simp [isValid]

theorem not_aligned_nil (ids : List Int) : aligned ids [] = false := by
  cases ids with
  | nil => rfl
  | cons id ids => simp [aligned]

theorem ownedBy_iff :
    version.ownedBy key = true ↔
      version.store = none ∨ version.store = some key := by
  simp [ownedBy, Option.isNone_iff_eq_none]

theorem relocate_inert (version : TGFSFileVersion) (key : String) :
    (version.relocate key).Inert key := by
  intro invalid
  have owned : version.ownedBy key = true →
      (version.relocate key).ownedBy key = true := by
    intro owned
    rw [relocate_owned owned]
    exact owned
  cases stored : version.store with
  | none => exact .inl (owned (ownedBy_iff.mpr (.inl stored)))
  | some owner =>
      by_cases same : key = owner
      · exact .inl (owned (ownedBy_iff.mpr (.inr (same ▸ stored))))
      · rw [isValid_false_iff] at invalid
        rcases version.relocate_cases stored same with
          ⟨ids, _, covers, moved⟩ | ⟨replica, _, nonempty, _, moved⟩ |
          ⟨_, _, moved⟩
        · rw [moved] at invalid
          exact absurd invalid (aligned_ne_nil covers)
        · rw [moved] at invalid
          exact absurd invalid nonempty
        · right
          intro replica found
          rw [moved, keptInPlace, Dict.get?_erase, if_pos rfl] at found
          cases found

theorem Inert.relocate (inert : version.Inert key)
    (invalid : version.isValid = false) :
    (version.relocate key).isValid = false := by
  have empty := isValid_false_iff.mp invalid
  rcases inert invalid with owned | noReplica
  · rw [relocate_owned owned]
    exact invalid
  · cases stored : version.store with
    | none =>
        rw [relocate_owned (ownedBy_iff.mpr (.inl stored))]
        exact invalid
    | some owner =>
        by_cases same : key = owner
        · rw [relocate_owned (ownedBy_iff.mpr (.inr (same ▸ stored)))]
          exact invalid
        · rcases version.relocate_cases stored same with
            ⟨ids, _, covers, _⟩ | ⟨replica, found, nonempty, _, _⟩ |
            ⟨_, _, moved⟩
          · rw [empty, not_aligned_nil] at covers
            cases covers
          · exact absurd (noReplica replica found) nonempty
          · rw [moved]
            exact invalid

theorem inert_of_isValid (valid : version.isValid = true) :
    version.Inert key := by
  intro invalid
  rw [valid] at invalid
  cases invalid

end TGFSFileVersion

namespace FDRepository

variable {repo : FDRepository} {answers : Answers}
  {messages : Dict Int StoredMessage} {version : TGFSFileVersion}

/-- A replica with its part sizes, when its messages all exist. -/
def verifiedReplica (repo : FDRepository) (answers : Answers)
    (version : TGFSFileVersion) (storeKey : String) (replica : Replica) :
    Replica :=
  (repo.replicaSizes answers version.id storeKey replica).elim replica
    fun partSizes => { replica with partSizes := partSizes }

theorem verifiedReplica_messageIds (storeKey : String) (replica : Replica) :
    (repo.verifiedReplica answers version storeKey replica).messageIds =
      replica.messageIds := by
  unfold verifiedReplica
  cases repo.replicaSizes answers version.id storeKey replica with
  | none => rfl
  | some partSizes => rfl

theorem verifyReplicas_replicas :
    (repo.verifyReplicas answers version).1 =
      version.replicas.mapItems (repo.verifiedReplica answers version) := by
  rw [← Dict.ofList_self (version.replicas.mapItems _)]
  unfold verifyReplicas Dict.mapItems
  dsimp only
  congr 1
  apply List.map_congr_left
  intro item _
  unfold verifiedReplica
  split <;> simp_all

theorem verifyReplicas_any (storeKey : String) :
    ((repo.verifyReplicas answers version).1.get? storeKey).any
        (fun replica => !replica.messageIds.isEmpty) =
      (version.replicas.get? storeKey).any
        fun replica => !replica.messageIds.isEmpty := by
  rw [verifyReplicas_replicas, Dict.get?_mapItems]
  cases version.replicas.get? storeKey with
  | none => rfl
  | some replica => simp [verifiedReplica_messageIds]

/-- A version that passes the check keeps its copies, and one that does not
has no content left. -/
theorem validateVersion_cases :
    TGFSFileVersion.SameCopies version
        (repo.validateVersion answers messages version) ∨
      repo.validateVersion answers messages version = version.setInvalid := by
  unfold validateVersion
  split
  · exact .inl ⟨rfl, rfl, rfl, fun _ => rfl⟩
  · dsimp only
    split
    · left
      refine ⟨rfl, rfl, rfl, ?_⟩
      intro key
      unfold TGFSFileVersion.hasCopyIn
      rw [verifyReplicas_any key]
      rfl
    · exact .inr rfl

theorem validateVersion_valid
    (valid : (repo.validateVersion answers messages version).isValid = true) :
    TGFSFileVersion.SameCopies version
      (repo.validateVersion answers messages version) := by
  rcases @validateVersion_cases repo answers messages version with
    same | invalid
  · exact same
  · rw [invalid] at valid
    cases valid

end FDRepository

/-- Every copy covers the version and stands under a normal key. -/
structure MirrorResult.Complete (result : MirrorResult)
    (version : TGFSFileVersion) : Prop where
  mirrors : ∀ item ∈ result.mirrors,
    TGFSFileVersion.aligned item.2 version.messageIds = true ∧
      normalizeStoreKey item.1 = item.1
  replicas : ∀ item ∈ result.replicas,
    item.2.messageIds ≠ [] ∧ normalizeStoreKey item.1 = item.1

namespace MirrorResult.Complete

variable {result : MirrorResult} {version : TGFSFileVersion} {key : String}

/-- No store loses its copy when the new ones are recorded. -/
theorem keeps (complete : result.Complete version)
    (copied : version.hasCopyIn key = true) :
    (result.applyTo version).hasCopyIn key = true := by
  simp only [TGFSFileVersion.hasCopyIn, Bool.or_eq_true] at copied ⊢
  rcases copied with (owned | mirrored) | replicated
  · exact .inl (.inl owned)
  · left
    right
    rcases Dict.get?_foldl_set result.mirrors version.mirrors key with
      ⟨ids, listed, found⟩ | ⟨_, same⟩
    · have now : (result.applyTo version).mirrors.get? key = some ids := found
      rw [now]
      exact (complete.mirrors _ listed).1
    · have kept : (result.applyTo version).mirrors.get? key =
          version.mirrors.get? key := same
      rw [kept]
      exact mirrored
  · right
    rcases Dict.get?_foldl_set result.replicas version.replicas key with
      ⟨replica, listed, found⟩ | ⟨_, same⟩
    · have now : (result.applyTo version).replicas.get? key =
          some replica := found
      rw [now]
      simpa using (complete.replicas _ listed).1
    · have kept : (result.applyTo version).replicas.get? key =
          version.replicas.get? key := same
      rw [kept]
      exact replicated

theorem adds (complete : result.Complete version)
    (made : key ∈ result.storeKeys) :
    (result.applyTo version).hasCopyIn key = true := by
  simp only [TGFSFileVersion.hasCopyIn, Bool.or_eq_true]
  rcases List.mem_append.mp made with mirrored | replicated
  · left
    right
    rcases Dict.get?_foldl_set result.mirrors version.mirrors key with
      ⟨ids, listed, found⟩ | ⟨absent, _⟩
    · have now : (result.applyTo version).mirrors.get? key = some ids := found
      rw [now]
      exact (complete.mirrors _ listed).1
    · exact absurd mirrored absent
  · right
    rcases Dict.get?_foldl_set result.replicas version.replicas key with
      ⟨replica, listed, found⟩ | ⟨absent, _⟩
    · have now : (result.applyTo version).replicas.get? key =
          some replica := found
      rw [now]
      simpa using (complete.replicas _ listed).1
    · exact absurd replicated absent

theorem normal (complete : result.Complete version)
    (normal : version.Normal) : (result.applyTo version).Normal := by
  refine ⟨?_, ?_, normal.store⟩
  · intro key ids found
    rcases Dict.get?_foldl_set result.mirrors version.mirrors key with
      ⟨others, listed, _⟩ | ⟨_, same⟩
    · exact (complete.mirrors _ listed).2
    · exact normal.mirrors key ids (same ▸ found)
  · intro key replica found
    rcases Dict.get?_foldl_set result.replicas version.replicas key with
      ⟨other, listed, _⟩ | ⟨_, same⟩
    · exact (complete.replicas _ listed).2
    · exact normal.replicas key replica (same ▸ found)

end MirrorResult.Complete

namespace BackfillClient

variable {client : BackfillClient} {answers : BackfillAnswers}
  {version : TGFSFileVersion}

theorem aligned_of_positive {ids messageIds : List Int}
    (nonempty : messageIds ≠ []) (length : ids.length = messageIds.length)
    (positive : ∀ id ∈ ids, 0 < id) :
    TGFSFileVersion.aligned ids messageIds = true := by
  have filled : ids ≠ [] := by
    rintro rfl
    exact nonempty (List.length_eq_zero_iff.mp length.symm)
  simpa [TGFSFileVersion.aligned, length, filled] using positive

theorem reuploadAll_spec {versionId target : String} {count : Nat}
    {ids : List Int}
    (done : reuploadAll answers versionId target count = some ids) :
    ids.length = count ∧ ∀ id ∈ ids, 0 < id := by
  have each := forall₂_of_mapM_some done
  constructor
  · rw [← each.length_eq, List.length_range]
  · intro id member
    obtain ⟨place, inside, rfl⟩ := List.getElem_of_mem member
    have part := each.get (i := place)
      (by rw [each.length_eq]; exact inside) inside
    obtain ⟨sent, _, same⟩ := Option.map_eq_some_iff.mp part
    change 0 < ids.get ⟨place, inside⟩
    rw [← same]
    exact sent.property

theorem copyTo_aligned {versionId target : String} {messageIds ids : List Int}
    (nonempty : messageIds ≠ [])
    (done : client.copyTo answers versionId target messageIds = some ids) :
    TGFSFileVersion.aligned ids messageIds = true := by
  have fallback : reuploadAll answers versionId target messageIds.length =
      some ids → TGFSFileVersion.aligned ids messageIds = true := by
    intro reuploaded
    obtain ⟨length, positive⟩ := reuploadAll_spec reuploaded
    exact aligned_of_positive nonempty length positive
  unfold copyTo at done
  rw [if_neg nonempty] at done
  dsimp only at done
  split at done
  · exact fallback done
  · cases answered : answers.serverCopy versionId target with
    | copied newId =>
        rw [answered] at done
        cases done
        apply aligned_of_positive nonempty
        · simp
        · intro id member
          obtain ⟨part, _, rfl⟩ := List.mem_map.mp member
          exact (newId part).property
    | raised =>
        rw [answered] at done
        dsimp only at done
        split at done
        · cases done
        · exact fallback done
    | unsupported =>
        rw [answered] at done
        dsimp only at done
        split at done
        · cases done
        · exact fallback done

theorem mirrorPartsInto_complete {wanted keys : List String}
    {known : Option (List Nat)} {result copies : MirrorResult}
    (content : version.messageIds ≠ [])
    (normal : ∀ key ∈ keys, normalizeStoreKey key = key)
    (complete : result.Complete version)
    (done : client.mirrorPartsInto answers version wanted keys known result =
      some copies) : copies.Complete version := by
  induction keys generalizing known result with
  | nil =>
      cases done
      exact complete
  | cons key rest induction =>
      have made := normal key List.mem_cons_self
      have later := fun other member =>
        normal other (List.mem_cons_of_mem key member)
      unfold mirrorPartsInto at done
      split at done
      · exact induction later complete done
      · dsimp only at done
        split at done
        · split at done
          · cases done
          · exact induction later complete done
        · rename_i sizes _
          split at done
          · rename_i extended copied
            refine induction later ?_ done
            split at copied
            · obtain ⟨ids, sent, rfl⟩ := Option.map_eq_some_iff.mp copied
              refine ⟨?_, complete.replicas⟩
              intro item member
              rcases List.mem_append.mp member with before | new
              · exact complete.mirrors item before
              · cases List.mem_singleton.mp new
                exact ⟨copyTo_aligned content sent, made⟩
            · obtain ⟨replica, sent, rfl⟩ := Option.map_eq_some_iff.mp copied
              refine ⟨complete.mirrors, ?_⟩
              intro item member
              rcases List.mem_append.mp member with before | new
              · exact complete.replicas item before
              · cases List.mem_singleton.mp new
                exact ⟨replica.property, made⟩
          · split at done
            · cases done
            · exact induction later complete done

theorem mirrorParts_complete {wanted : List String} {copies : MirrorResult}
    (done : client.mirrorParts answers version wanted = some copies) :
    copies.Complete version := by
  have nothing : MirrorResult.Complete {} version := by
    constructor
    · intro item member
      cases member
    · intro item member
      cases member
  unfold mirrorParts at done
  split at done
  · cases done
    exact nothing
  · rename_i content
    exact mirrorPartsInto_complete content client.keys_normal nothing done

/-- A version that was copied into the primary belongs to it. -/
theorem promoted_owned {owner : String} {sizes : List Nat}
    (stored : version.store = some owner) (other : client.repo.key ≠ owner)
    (owned : (client.promoted version sizes).2 = true) :
    (client.promoted version sizes).1.isValid = true := by
  have stays : ({ version with partSizes := sizes } :
      TGFSFileVersion).store = some owner := stored
  rcases TGFSFileVersion.relocate_cases stays other with
    ⟨ids, _, covers, moved⟩ | ⟨replica, _, nonempty, _, moved⟩ | ⟨_, _, moved⟩
  · have nonempty := TGFSFileVersion.aligned_ne_nil covers
    unfold promoted
    dsimp only
    rw [moved]
    simpa [TGFSFileVersion.isValid] using nonempty
  · unfold promoted
    dsimp only
    rw [moved]
    simpa [TGFSFileVersion.isValid, TGFSFileVersion.adoptReplica] using
      nonempty
  · unfold promoted at owned
    dsimp only at owned
    rw [moved, TGFSFileVersion.ownedBy_iff] at owned
    rcases owned with unowned | here
    · exact absurd (unowned.symm.trans stored) (by simp)
    · have same : some client.repo.key = some owner :=
        here.symm.trans stored
      exact absurd (Option.some.inj same) other

/-- What a copy into the primary leaves of a version. -/
structure Promotes (client : BackfillClient)
    (version moved : TGFSFileVersion) : Prop where
  id : moved.id = version.id
  pending : moved.pending = version.pending
  normal : version.Normal → moved.Normal
  owned : moved.ownedBy client.repo.key = true
  valid : moved.isValid = true

theorem promotes_promoted {base : TGFSFileVersion} {owner : String}
    {sizes : List Nat} (id : base.id = version.id)
    (pending : base.pending = version.pending)
    (normal : version.Normal → base.Normal)
    (stored : base.store = some owner) (other : client.repo.key ≠ owner)
    (owned : (client.promoted base sizes).2 = true) :
    Promotes client version (client.promoted base sizes).1 := by
  refine ⟨?_, ?_, ?_, owned, promoted_owned stored other owned⟩
  · rw [← id]
    exact TGFSFileVersion.relocate_id _
  · rw [← pending]
    exact TGFSFileVersion.relocate_pending _ _
  · intro before
    have here := normal before
    have sized : ({ base with partSizes := sizes } :
        TGFSFileVersion).Normal := ⟨here.mirrors, here.replicas, here.store⟩
    exact sized.relocate client.repo.key_normal

/-- The copy is recorded under the primary's key before the version is
relocated there. -/
theorem copyIntoPrimary_cases {copied : TGFSFileVersion × Bool}
    (foreign : version.ownedBy client.repo.key = false)
    (done : client.copyIntoPrimary answers version = some copied) :
    copied = (version, false) ∨
      ∃ base owner sizes, base.id = version.id ∧
        base.pending = version.pending ∧
        base.messageIds = version.messageIds ∧
        (version.Normal → base.Normal) ∧ base.store = some owner ∧
        client.repo.key ≠ owner ∧ copied = client.promoted base sizes := by
  have notOwned : ¬(version.store = none ∨
      version.store = some client.repo.key) := by
    rw [← TGFSFileVersion.ownedBy_iff, foreign]
    simp
  cases stored : version.store with
  | none => exact absurd (.inl stored) notOwned
  | some owner =>
      have other : client.repo.key ≠ owner := by
        rintro rfl
        exact notOwned (.inr stored)
      unfold copyIntoPrimary at done
      rw [stored] at done
      dsimp only at done
      rw [if_neg (Ne.symm other)] at done
      split at done
      · exact .inl (Option.some.inj done).symm
      · right
        split at done
        · cases done
        · split at done
          · obtain ⟨ids, _, same⟩ := Option.map_eq_some_iff.mp done
            refine ⟨{ version with
              mirrors := version.mirrors.set client.repo.key ids
              store := some owner }, owner, _,
              rfl, rfl, rfl, ?_, rfl, other, same.symm⟩
            intro normal
            exact ⟨normal.mirrors.set client.repo.key_normal ids,
              normal.replicas, stored ▸ normal.store⟩
          · obtain ⟨replica, _, same⟩ := Option.map_eq_some_iff.mp done
            refine ⟨{ version with
              replicas := version.replicas.set client.repo.key replica.val
              store := some owner }, owner, _,
              rfl, rfl, rfl, ?_, rfl, other, same.symm⟩
            intro normal
            exact ⟨normal.mirrors,
              normal.replicas.set client.repo.key_normal _,
              stored ▸ normal.store⟩

theorem copyIntoPrimary_promotes {moved : TGFSFileVersion}
    (foreign : version.ownedBy client.repo.key = false)
    (done : client.copyIntoPrimary answers version = some (moved, true)) :
    Promotes client version moved := by
  rcases copyIntoPrimary_cases foreign done with same |
    ⟨base, owner, sizes, id, pending, _, normal, stored, other, same⟩
  · cases same
  · have owned := congrArg Prod.snd same
    have whole : moved = _ := congrArg Prod.fst same
    rw [whole]
    exact promotes_promoted id pending normal stored other owned.symm

theorem verifyVersion_normal (normal : version.Normal) :
    (client.verifyVersion answers version).Normal :=
  ⟨normal.mirrors.filterKeys _, normal.replicas.filterKeys _, normal.store⟩

theorem hasCopyIn_of_verifyVersion {key : String}
    (copied : (client.verifyVersion answers version).hasCopyIn key = true) :
    version.hasCopyIn key = true := by
  simp only [TGFSFileVersion.hasCopyIn, Bool.or_eq_true] at copied ⊢
  rcases copied with (owned | mirrored) | replicated
  · exact .inl (.inl owned)
  · left
    right
    rw [verifyVersion, Dict.get?_filterKeys] at mirrored
    split at mirrored
    · exact mirrored
    · cases mirrored
  · right
    rw [verifyVersion, Dict.get?_filterKeys] at replicated
    split at replicated
    · exact replicated
    · cases replicated

/-- A recheck that finds every message takes no copy away. -/
theorem verifyVersion_intact
    (intact : ∀ versionId key ids,
      answers.recheck versionId key ids ≠ some false) :
    TGFSFileVersion.SameCopies version
      (client.verifyVersion answers version) := by
  have nothing : (recordedCopies version).filter
      (client.gone answers version) = [] := by
    rw [List.filter_eq_nil_iff]
    intro copy _
    unfold gone
    dsimp only
    split
    · simp
    · simp [intact]
  refine ⟨rfl, rfl, rfl, ?_⟩
  intro key
  unfold verifyVersion TGFSFileVersion.hasCopyIn
  dsimp only
  rw [nothing, Dict.get?_filterKeys, Dict.get?_filterKeys]
  rfl

end BackfillClient

end Tgdcfs
