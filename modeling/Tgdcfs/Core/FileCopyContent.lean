import Tgdcfs.Core.DeletionGarbage
import Tgdcfs.Core.DescriptorCycles
import Tgdcfs.Core.FileCopy

/-!
# What a copy holds

The duplicated messages are those of the primary under the ids that the read
of the source came with, so a version of the copy holds the bytes of the
stored version exactly when the primary holds them under these ids.  A
version that the primary owns has them there once the messages were
duplicated; a pending one has no ids yet, the ids of a version that another
store owns name other messages, and a version that the read did not find has
lost its ids.
-/

namespace Tgdcfs

open Lib

/-- `copy_within` duplicates messages of its own store: every new message has
the document of the one that it was made from. -/
def CopyCalls.Duplicates (calls : CopyCalls) (before after : ContentWorld)
    (primaryKey : String) : Prop :=
  ∀ ids newIds, calls.copyWithin ids = some newIds →
    List.Forall₂ (fun id newId => ∃ bytes,
      before.documents primaryKey id = some bytes ∧
        after.documents primaryKey newId = some bytes) ids newIds

/-- The primary holds the bytes of the version under the message ids it was
read with.  Nothing is asked of a version that the primary owns and that the
read found. -/
def TGFSFileVersion.Duplicable (version : TGFSFileVersion)
    (world : ContentWorld) (primaryKey : String) (read : TGFSFileVersion) :
    Prop :=
  read.messageIds ≠ version.messageIds ∨ version.pending = true ∨
      version.ownedBy primaryKey = false →
    version.denotes world primaryKey =
      joined (world.documents primaryKey) read.messageIds

/-- The latest versions of two lists stand at the same place. -/
def LatestAligned (versions : List TGFSFileVersion) (latest : String)
    (others : List TGFSFileVersion) (otherLatest : String) : Prop :=
  (versions = [] ∧ others = []) ∨
    ∃ (place : Nat) (version other : TGFSFileVersion),
      versions[place]? = some version ∧ version.id = latest ∧
      others[place]? = some other ∧ other.id = otherLatest

theorem LatestAligned.symm {versions others : List TGFSFileVersion}
    {latest otherLatest : String}
    (aligned : LatestAligned versions latest others otherLatest) :
    LatestAligned others otherLatest versions latest := by
  rcases aligned with ⟨none, noOther⟩ | ⟨place, version, other,
    versionAt, versionIs, otherAt, otherIs⟩
  · exact .inl ⟨noOther, none⟩
  · exact .inr ⟨place, other, version, otherAt, otherIs, versionAt,
      versionIs⟩

theorem LatestAligned.trans {versions middle others : List TGFSFileVersion}
    {latest between otherLatest : String}
    (distinct : (middle.map TGFSFileVersion.id).Nodup)
    (first : LatestAligned versions latest middle between)
    (second : LatestAligned middle between others otherLatest) :
    LatestAligned versions latest others otherLatest := by
  rcases first with ⟨none, rfl⟩ | ⟨place, version, here, versionAt,
    versionIs, hereAt, hereIs⟩
  · rcases second with ⟨_, noOther⟩ | ⟨place, here, _, hereAt, _⟩
    · exact .inl ⟨none, noOther⟩
    · cases hereAt
  · rcases second with ⟨rfl, _⟩ | ⟨later, there, other, thereAt, thereIs,
      otherAt, otherIs⟩
    · cases hereAt
    · have same : place = later := by
        have bound : place < (middle.map TGFSFileVersion.id).length := by
          rw [List.length_map]
          exact (List.getElem?_eq_some_iff.mp hereAt).1
        apply (List.getElem?_inj bound distinct).mp
        rw [List.getElem?_map, List.getElem?_map, hereAt, thereAt,
          Option.map_some, Option.map_some, hereIs, thereIs]
      subst same
      exact .inr ⟨place, version, other, versionAt, versionIs, otherAt,
        otherIs⟩

/-- Version by version the copy stands for the bytes of the source, and the
latest versions correspond. -/
structure SameContent (before after : ContentWorld) (primaryKey : String)
    (source copied : TGFSFileDesc) : Prop where
  versions : List.Forall₂ (fun version copy : TGFSFileVersion =>
    copy.denotes after primaryKey = version.denotes before primaryKey)
    source.sortedVersions copied.versions.values
  latest : LatestAligned source.sortedVersions source.latestVersionId
    copied.versions.values copied.latestVersionId

/-- The read that a copy starts from has every version of the stored
descriptor in a form that can be duplicated, and the same latest one. -/
structure ReadForCopy (world : ContentWorld) (primaryKey : String)
    (stored read : TGFSFileDesc) : Prop where
  versions : List.Forall₂ (fun version found : TGFSFileVersion =>
    version.Duplicable world primaryKey found)
    stored.sortedVersions read.sortedVersions
  latest : LatestAligned stored.sortedVersions stored.latestVersionId
    read.sortedVersions read.latestVersionId

theorem SameContent.maps {before after : ContentWorld} {primaryKey : String}
    {source copied : TGFSFileDesc}
    (same : SameContent before after primaryKey source copied) :
    copied.versions.values.map (·.denotes after primaryKey) =
      source.sortedVersions.map (·.denotes before primaryKey) := by
  have each := same.versions
  generalize source.sortedVersions = versions at each
  generalize copied.versions.values = copies at each
  induction each with
  | nil => rfl
  | cons equal _ induction =>
      rw [List.map_cons, List.map_cons, equal, induction]

/-- Every message is in the store. -/
def Present (documents : Int → Option Bytes) (ids : List Int) : Prop :=
  ∀ id ∈ ids, ∃ bytes, documents id = some bytes

private theorem mapM_zipIdx {documents : Int → Option Bytes}
    {part : Int × Nat → Option Bytes} {ids : List Int}
    (same : ∀ id place, id ∈ ids → part (id, place) = documents id)
    (start : Nat) :
    (ids.zipIdx start).mapM part = ids.mapM documents := by
  induction ids generalizing start with
  | nil => rfl
  | cons id ids induction =>
      rw [List.zipIdx_cons, List.mapM_cons, List.mapM_cons,
        same id start List.mem_cons_self,
        induction (fun other place member =>
          same other place (List.mem_cons_of_mem _ member)) (start + 1)]

private theorem mapM_present {documents : Int → Option Bytes}
    {ids : List Int} (present : Present documents ids) :
    ∃ all, ids.mapM documents = some all := by
  induction ids with
  | nil => exact ⟨[], rfl⟩
  | cons id ids induction =>
      obtain ⟨bytes, here⟩ := present id List.mem_cons_self
      obtain ⟨rest, later⟩ := induction fun other member =>
        present other (List.mem_cons_of_mem _ member)
      refine ⟨bytes :: rest, ?_⟩
      rw [List.mapM_cons, here, later]
      rfl

variable {world before after : ContentWorld} {primaryKey : String}

/-- A version that the primary owns and has stands for its messages. -/
theorem TGFSFileVersion.denotes_owned {version : TGFSFileVersion}
    (settled : version.pending = false)
    (owned : version.ownedBy primaryKey = true)
    (present : Present (world.documents primaryKey) version.messageIds) :
    version.denotes world primaryKey =
      joined (world.documents primaryKey) version.messageIds := by
  have parts : ∀ id place, id ∈ version.messageIds →
      version.partIn world primaryKey place id =
        world.documents primaryKey id := by
    intro id place member
    obtain ⟨bytes, here⟩ := present id member
    rw [partIn, if_pos owned, here, Option.some_or]
  have all : (version.messageIds.zipIdx.mapM fun entry =>
      version.partIn world primaryKey entry.2 entry.1) =
        version.messageIds.mapM (world.documents primaryKey) :=
    mapM_zipIdx parts 0
  obtain ⟨every, found⟩ := mapM_present present
  rw [denotes, if_neg (by simp [settled]), joined, all, found]
  rfl

private theorem joined_duplicates {ids newIds : List Int}
    (duplicated : List.Forall₂ (fun id newId => ∃ bytes,
      before.documents primaryKey id = some bytes ∧
        after.documents primaryKey newId = some bytes) ids newIds) :
    joined (after.documents primaryKey) newIds =
        joined (before.documents primaryKey) ids ∧
      Present (before.documents primaryKey) ids ∧
      Present (after.documents primaryKey) newIds := by
  have same : newIds.mapM (after.documents primaryKey) =
      ids.mapM (before.documents primaryKey) := by
    induction duplicated with
    | nil => rfl
    | cons pair _ induction =>
        obtain ⟨bytes, old, new⟩ := pair
        rw [List.mapM_cons, List.mapM_cons, old, new, induction]
  refine ⟨by rw [joined, joined, same], ?_, ?_⟩
  · clear same
    induction duplicated with
    | nil =>
        intro id member
        cases member
    | cons pair _ induction =>
        obtain ⟨bytes, old, _⟩ := pair
        intro id member
        rcases List.mem_cons.mp member with rfl | later
        · exact ⟨bytes, old⟩
        · exact induction id later
  · clear same
    induction duplicated with
    | nil =>
        intro id member
        cases member
    | cons pair _ induction =>
        obtain ⟨bytes, _, new⟩ := pair
        intro id member
        rcases List.mem_cons.mp member with rfl | later
        · exact ⟨bytes, new⟩
        · exact induction id later

namespace FileApi

variable {api : FileApi} {calls : CopyCalls}

/-- The copies take their ids and messages in the order of the versions. -/
def Copies (api : FileApi) (calls : CopyCalls) :
    List TGFSFileVersion → Nat → List Int → List TGFSFileVersion → Prop
  | [], _, _, copies => copies = []
  | version :: versions, count, newParts, copies =>
      ∃ copy rest, copies = copy :: rest ∧
        copy.id = calls.newVersionId count ∧
        copy.messageIds = newParts.take version.messageIds.length ∧
        copy.store = some api.repo.key ∧ copy.pending = false ∧
        Copies api calls versions (count + 1)
          (newParts.drop version.messageIds.length) rest

theorem copiedVersion_some {version copy : TGFSFileVersion}
    {versionId : String} {ids : List Int}
    (copied : api.copiedVersion calls version versionId ids = some copy) :
    copy.id = versionId ∧ copy.messageIds = ids ∧
      copy.store = some api.repo.key ∧ copy.pending = false := by
  unfold copiedVersion at copied
  dsimp only at copied
  split at copied
  · obtain ⟨copies, _, rfl⟩ := Option.map_eq_some_iff.mp copied
    exact ⟨rfl, rfl, rfl, rfl⟩
  · cases copied
    exact ⟨rfl, rfl, rfl, rfl⟩

variable {versions : List TGFSFileVersion} {count : Nat} {newParts : List Int}

/-- The loop appends the copies to what the descriptor has. -/
theorem duplicateFrom_ok {desc copied : TGFSFileDesc}
    (duplicated : api.duplicateFrom calls versions count newParts desc =
      .ok copied)
    (fresh : ∀ later, count ≤ later →
      desc.versions.get? (calls.newVersionId later) = none) :
    ∃ copies, Copies api calls versions count newParts copies ∧
      copied.versions.values = desc.versions.values ++ copies := by
  induction versions generalizing count newParts desc with
  | nil =>
      cases duplicated
      exact ⟨[], rfl, (List.append_nil _).symm⟩
  | cons version versions induction =>
      rw [duplicateFrom] at duplicated
      split at duplicated
      · cases duplicated
      · rename_i copy made
        obtain ⟨named, ids, store, settled⟩ := copiedVersion_some made
        split at duplicated
        · cases duplicated
        · rename_i added add
          obtain ⟨_, _, stored, _⟩ := TGFSFileDesc.addVersion_ok add
          have absent : desc.versions.get? copy.id = none := by
            rw [named]
            exact fresh count (Nat.le_refl count)
          have later_fresh : ∀ later, count + 1 ≤ later →
              added.versions.get? (calls.newVersionId later) = none := by
            intro later ahead
            rw [stored, Dict.get?_set, if_neg]
            · exact fresh later (Nat.le_of_succ_le ahead)
            · rw [named]
              intro same
              have equal := calls.distinct same
              omega
          obtain ⟨rest, copies, values⟩ := induction duplicated later_fresh
          refine ⟨copy :: rest,
            ⟨copy, rest, rfl, named, ids, store, settled, copies⟩, ?_⟩
          rw [values, stored, Dict.values_set_of_absent _ _ absent,
            List.append_assoc, List.singleton_append]

private theorem forall₂_through {α β γ : Type*} {first : α → β → Prop}
    {second : β → γ → Prop} {both : α → γ → Prop} {left : List α}
    {middle : List β} {right : List γ}
    (one : List.Forall₂ first left middle)
    (other : List.Forall₂ second middle right)
    (combine : ∀ item between image, first item between →
      second between image → both item image) :
    List.Forall₂ both left right := by
  induction one generalizing right with
  | nil =>
      cases other
      exact .nil
  | cons here _ induction =>
      cases other with
      | cons there rest =>
          exact .cons (combine _ _ _ here there) (induction rest)

variable {copies : List TGFSFileVersion}

/-- Each copy stands for what the primary holds under the ids of its
original. -/
theorem Copies.denote (made : Copies api calls versions count newParts copies)
    (duplicated : List.Forall₂ (fun id newId => ∃ bytes,
      before.documents api.repo.key id = some bytes ∧
        after.documents api.repo.key newId = some bytes)
      (versions.flatMap TGFSFileVersion.messageIds) newParts) :
    List.Forall₂ (fun version copy : TGFSFileVersion =>
      copy.denotes after api.repo.key =
          joined (before.documents api.repo.key) version.messageIds ∧
        Present (before.documents api.repo.key) version.messageIds)
      versions copies := by
  induction versions generalizing count newParts copies with
  | nil =>
      cases made
      exact .nil
  | cons version versions induction =>
      obtain ⟨copy, rest, rfl, _, ids, store, settled, more⟩ := made
      have here := List.forall₂_take version.messageIds.length duplicated
      have later := List.forall₂_drop version.messageIds.length duplicated
      rw [List.flatMap_cons, List.take_left] at here
      rw [List.flatMap_cons, List.drop_left] at later
      obtain ⟨same, old, new⟩ := joined_duplicates here
      rw [← ids] at same new
      refine .cons ⟨?_, old⟩ (induction more later)
      rw [TGFSFileVersion.denotes_owned settled
        (by simp [TGFSFileVersion.ownedBy, store]) new, same]

theorem Copies.getElem?_id
    (made : Copies api calls versions count newParts copies) {place : Nat}
    {version : TGFSFileVersion} (there : versions[place]? = some version) :
    ∃ copy, copies[place]? = some copy ∧
      copy.id = calls.newVersionId (count + place) := by
  induction versions generalizing count newParts copies place with
  | nil => cases there
  | cons first versions induction =>
      obtain ⟨copy, rest, rfl, named, _, _, _, more⟩ := made
      cases place with
      | zero => exact ⟨copy, rfl, named⟩
      | succ place =>
          obtain ⟨found, here, id⟩ := induction more there
          refine ⟨found, here, ?_⟩
          rw [id]
          congr 1
          omega

theorem Copies.ids (made : Copies api calls versions count newParts copies) :
    copies.map TGFSFileVersion.id =
      (List.range' count versions.length).map calls.newVersionId := by
  induction versions generalizing count newParts copies with
  | nil =>
      cases made
      rfl
  | cons version versions induction =>
      obtain ⟨copy, rest, rfl, named, _, _, _, more⟩ := made
      rw [List.map_cons, named, induction more, List.length_cons,
        List.range'_succ, List.map_cons]

end FileApi

/-- The versions are filed under their ids, and the pointer is one of
them. -/
structure Pointed (desc : TGFSFileDesc) : Prop where
  keyed : desc.Keyed
  latest : desc.versions.values = [] ∨
    ∃ version ∈ desc.versions.values, version.id = desc.latestVersionId

theorem Pointed.mapped {desc : TGFSFileDesc}
    (pointed : Pointed desc) {versions : Dict String TGFSFileVersion}
    (keys : versions.keys = desc.versions.keys)
    (ids : ∀ item ∈ versions.items, item.2.id = item.1)
    {complete : Bool} :
    Pointed { desc with versions := versions, complete := complete } := by
  refine ⟨ids, ?_⟩
  rcases pointed.latest with empty | ⟨version, member, latest⟩
  · left
    have unmapped : versions.keys = [] := by
      rw [keys, ← pointed.keyed.ids, empty]
      rfl
    have items : versions.items = [] := List.map_eq_nil_iff.mp unmapped
    change versions.items.map Prod.snd = []
    rw [items]
    rfl
  · right
    have listed : version.id ∈ versions.keys := by
      rw [keys, ← pointed.keyed.ids]
      exact List.mem_map.mpr ⟨version, member, rfl⟩
    obtain ⟨item, there, same⟩ := List.mem_map.mp listed
    exact ⟨item.2, List.mem_map.mpr ⟨item, there, rfl⟩, by
      rw [ids item there, same, latest]⟩

theorem TGFSFileVersion.relocate_id (version : TGFSFileVersion) :
    (version.relocate primaryKey).id = version.id := by
  cases recorded : version.store with
  | none => simp [relocate, recorded]
  | some owner =>
      by_cases own : owner = primaryKey
      · simp [relocate, recorded, own]
      · rcases version.relocate_cases recorded (Ne.symm own) with
          ⟨_, _, _, moved⟩ | ⟨_, _, _, _, moved⟩ | ⟨_, _, moved⟩
        · rw [moved]
        · rw [moved]
          rfl
        · rw [moved]
          rfl

theorem Pointed.relocated {desc : TGFSFileDesc} (pointed : Pointed desc)
    (repo : FDRepository) : Pointed (repo.relocateVersions desc) := by
  apply Pointed.mapped pointed
  · change List.map Prod.fst (List.map _ _) = List.map Prod.fst _
    rw [List.map_map]
    rfl
  · intro item member
    obtain ⟨original, stored, rfl⟩ := List.mem_map.mp member
    dsimp only
    rw [TGFSFileVersion.relocate_id]
    exact pointed.keyed original stored

theorem TGFSFileDesc.firstNewest_mem (best : TGFSFileVersion)
    (rest : List TGFSFileVersion) : firstNewest best rest ∈ best :: rest := by
  induction rest generalizing best with
  | nil => exact List.mem_cons_self
  | cons version rest induction =>
      rw [firstNewest]
      split
      · exact List.mem_cons_of_mem _ (induction version)
      · rcases List.mem_cons.mp (induction best) with same | later
        · rw [same]
          exact List.mem_cons_self
        · exact List.mem_cons_of_mem _ (List.mem_cons_of_mem _ later)

namespace FDRepository

variable {repo : FDRepository} {answers : Answers}

theorem validateVersion_id (messages : Dict Int StoredMessage)
    (version : TGFSFileVersion) :
    (repo.validateVersion answers messages version).id = version.id := by
  unfold validateVersion
  split
  · rfl
  · dsimp only
    split
    · rfl
    · rfl

variable {desc : TGFSFileDesc}

theorem fromDict_pointed {text : DescSerialized} {name : Name} {now : DateTime}
    (decoded : TGFSFileDesc.fromDict text name now = .ok desc) :
    Pointed desc := by
  obtain ⟨versions, _, made⟩ := bind_ok decoded
  cases made
  constructor
  · intro item member
    obtain ⟨version, _, same⟩ :=
      List.mem_map.mp (Dict.mem_of_mem_ofList member)
    rw [← same]
  · dsimp only
    cases values : (Dict.ofList (versions.map fun version =>
        (version.id, version))).values with
    | nil => exact .inl rfl
    | cons version rest =>
        exact .inr ⟨_, TGFSFileDesc.firstNewest_mem version rest, rfl⟩

theorem pointAtReadable_pointed (pointed : Pointed desc) (hasValid : Bool)
    (now : DateTime) : Pointed (repo.pointAtReadable desc hasValid now) := by
  unfold pointAtReadable
  dsimp only
  split
  · split
    · exact pointed
    · split
      · exact pointed
      · rename_i version rest candidates
        have chosen := TGFSFileDesc.firstNewest_mem version rest
        rw [← candidates] at chosen
        exact ⟨pointed.keyed, .inr ⟨_, (List.mem_filter.mp chosen).1, rfl⟩⟩
  · refine ⟨?_, .inl rfl⟩
    intro item member
    cases member

theorem get_pointed {file : FileRef} {includeAll : Bool} {now : DateTime}
    (got : repo.get answers file includeAll true now = .ok desc) :
    Pointed desc := by
  unfold get at got
  split at got
  · cases got
    refine ⟨?_, .inl rfl⟩
    intro item member
    cases member
  · split at got
    · cases got
    · rename_i recorded decoded
      dsimp only at got
      rw [if_pos rfl] at got
      unfold validateFv at got
      dsimp only at got
      split at got
      · cases got
      · cases got
        apply pointAtReadable_pointed
        have relocated := (fromDict_pointed decoded).relocated repo
        apply Pointed.mapped relocated
        · exact validateVersions_keys _ _ _ _ _
        · intro item member
          obtain ⟨before, there, same⟩ := mem_validateVersions member
          have id := relocated.keyed _ there
          rcases same with same | same
          · rw [same]
            exact id
          · rw [same, validateVersion_id]
            exact id

end FDRepository

namespace FileApi

variable {api : FileApi} {calls : CopyCalls} {now : DateTime}
  {source copied : TGFSFileDesc}

/-- A duplicated descriptor has one copy for each version, in the stored
order, and points at the copy of the latest one. -/
theorem duplicateVersions_ok (pointed : Pointed source)
    (duplicated : api.duplicateVersions calls now source = .ok copied) :
    ∃ newParts,
      calls.copyWithin (source.sortedVersions.flatMap
        TGFSFileVersion.messageIds) = some newParts ∧
      Copies api calls source.sortedVersions 0 newParts
        copied.versions.values ∧
      LatestAligned source.sortedVersions source.latestVersionId
        copied.versions.values copied.latestVersionId := by
  unfold duplicateVersions at duplicated
  dsimp only at duplicated
  split at duplicated
  · cases duplicated
  · rename_i newParts copies
    obtain ⟨built, loop, rfl⟩ := ok_of_map duplicated
    have fresh : ∀ later, 0 ≤ later →
        (Dict.empty : Dict String TGFSFileVersion).get?
          (calls.newVersionId later) = none := fun _ _ => rfl
    obtain ⟨made, each, values⟩ := duplicateFrom_ok loop fresh
    have same : built.versions.values = made := values
    refine ⟨newParts, copies, same ▸ each, ?_⟩
    rcases pointed.latest with empty | ⟨version, member, latest⟩
    · have versionless : source.sortedVersions = [] := by
        have perm := source.sortedVersions_perm
        rw [empty] at perm
        exact perm.eq_nil
      left
      rw [versionless] at each
      exact ⟨versionless, same.trans each⟩
    · right
      have listed := source.sortedVersions_perm.mem_iff.mpr member
      obtain ⟨place, there⟩ := List.mem_iff_getElem?.mp listed
      obtain ⟨copy, here, id⟩ := each.getElem?_id there
      rw [Nat.zero_add] at id
      refine ⟨place, version, copy, there, latest, ?_, ?_⟩
      · rw [same]
        exact here
      · have items : (newVersionIds calls source.sortedVersions).items =
            source.sortedVersions.zipIdx.map fun entry =>
              (entry.1.id, calls.newVersionId entry.2) := by
          apply Dict.ofList_items
          rw [List.map_map]
          have ids : (Prod.fst ∘ fun entry : TGFSFileVersion × Nat =>
              (entry.1.id, calls.newVersionId entry.2)) =
              TGFSFileVersion.id ∘ Prod.fst := rfl
          rw [ids, ← List.map_map, List.zipIdx_map_fst]
          exact pointed.keyed.sorted_nodup
        have found : (newVersionIds calls source.sortedVersions).get?
            source.latestVersionId = some (calls.newVersionId place) := by
          rw [Dict.get?_eq_some_iff, items]
          apply List.mem_map.mpr
          refine ⟨(version, place), ?_, by rw [latest]⟩
          exact List.mem_zipIdx_iff_getElem?.mpr there
        have kept : (some (calls.newVersionId place)).filter (· ≠ "") =
            some (calls.newVersionId place) := by
          rw [Option.filter_eq_some_iff]
          exact ⟨rfl, by simpa using calls.named place⟩
        dsimp only
        rw [found, kept, id]
        rfl

theorem prepareCopy_ok {answers : Answers} {texts : FDRepository.Texts}
    {tree : DirectoryTree} {location : Nat} {file : FileRef} {name : Name}
    {state : CopyState} {prepared : PreparedCopy}
    (ready : api.prepareCopy calls answers texts tree location file name
      now = (state, .ok prepared)) :
    api.repo.get answers file true true now = .ok prepared.source ∧
      (∃ copied, api.duplicateVersions calls now prepared.source =
          .ok copied ∧
        prepared.resp.fd = api.repo.stamp copied) ∧
      tree.createFileRef location prepared.file = .ok prepared.tree := by
  unfold prepareCopy at ready
  split at ready
  · cases ready
  · rename_i source got
    split at ready
    · cases ready
    · rename_i copied duplicated
      split at ready
      · cases ready
      · rename_i written resp saved
        dsimp only at ready
        split at ready
        · cases ready
        · rename_i grown created
          cases ready
          refine ⟨got, ⟨copied, duplicated, ?_⟩, created⟩
          have wrote := congrArg Prod.snd saved
          unfold FDRepository.save at wrote
          dsimp only at wrote
          split at wrote
          · cases wrote
          · split at wrote
            · cases wrote
            · cases wrote
              rfl

theorem stamp_copies {versions : List TGFSFileVersion} {count : Nat}
    {newParts : List Int} {copies : List TGFSFileVersion}
    (made : Copies api calls versions count newParts copies) :
    copies.map (FDRepository.stampVersion api.repo.key) = copies := by
  induction versions generalizing count newParts copies with
  | nil =>
      cases made
      rfl
  | cons version versions induction =>
      obtain ⟨copy, rest, rfl, _, _, store, _, more⟩ := made
      rw [List.map_cons, induction more, FDRepository.stampVersion,
        if_neg (by simp [store])]

theorem createFileRef_ne {tree grown : DirectoryTree} {location : Nat}
    {file : FileRef}
    (created : tree.createFileRef location file = .ok grown) :
    grown ≠ tree := by
  unfold DirectoryTree.createFileRef at created
  split at created
  · cases created
  · rename_i dir found
    split at created
    · cases created
    · cases created
      intro same
      have files := congrArg (fun tree : DirectoryTree =>
        (tree.dirs.get? location).map fun dir => dir.files.length) same
      simp [DirectoryTree.changeFiles, Dict.get?_modify, found] at files

/-- A copy that returns has the content of the stored descriptor; one that
raises leaves the tree alone. -/
def CopyCorrect (api : FileApi) (text : DescSerialized) (file : FileRef)
    (now : DateTime) (before after : ContentWorld) (tree : DirectoryTree)
    (result : CopyResult) : Prop :=
  match result.outcome with
  | .ok (_, copied) =>
      ∃ stored, TGFSFileDesc.fromDict text file.name now = .ok stored ∧
        SameContent before after api.repo.key
          (api.repo.relocateVersions stored) copied
  | .error _ => result.tree = tree

/-- The copies have the content of the stored versions exactly when the read
had them. -/
theorem sameContent_iff {stored read copied : TGFSFileDesc}
    {newParts : List Int} (pointed : Pointed read)
    (made : Copies api calls read.sortedVersions 0 newParts
      copied.versions.values)
    (latest : LatestAligned read.sortedVersions read.latestVersionId
      copied.versions.values copied.latestVersionId)
    (duplicated : List.Forall₂ (fun id newId => ∃ bytes,
      before.documents api.repo.key id = some bytes ∧
        after.documents api.repo.key newId = some bytes)
      (read.sortedVersions.flatMap TGFSFileVersion.messageIds) newParts) :
    SameContent before after api.repo.key stored copied ↔
      ReadForCopy before api.repo.key stored read := by
  have each := made.denote duplicated
  constructor
  · intro same
    constructor
    · refine forall₂_through same.versions each.flip ?_
      intro version copy found equal held _
      rw [← equal]
      exact held.1
    · apply same.latest.trans _ latest.symm
      rw [made.ids]
      exact List.Nodup.map calls.distinct List.nodup_range'
  · intro whole
    constructor
    · refine forall₂_through whole.versions each ?_
      intro version found copy duplicable held
      rw [held.1]
      by_cases settled : found.messageIds ≠ version.messageIds ∨
          version.pending = true ∨ version.ownedBy api.repo.key = false
      · exact (duplicable settled).symm
      · simp only [not_or, ne_eq, not_not, Bool.not_eq_true,
          Bool.not_eq_false] at settled
        obtain ⟨ids, sent, owned⟩ := settled
        have present := held.2
        rw [ids] at present ⊢
        exact (version.denotes_owned sent owned present).symm
    · exact whole.latest.trans pointed.keyed.sorted_nodup latest

/-- A copy that fails before its ref is in the tree is correct.  Otherwise it
is exactly when nothing raises after the ref was added and the read had all
stored versions, with the bytes of every version that is pending, belongs to
another store or was read without its ids in the primary. -/
theorem copy_correct_iff (api : FileApi) (calls : CopyCalls)
    (answers : Answers) (texts : FDRepository.Texts) (tree : DirectoryTree)
    (location : Nat) (text : DescSerialized) (file : FileRef) (name : Name)
    (now : DateTime) (before after : ContentWorld)
    (duplicates : calls.Duplicates before after api.repo.key) :
    (∀ state failure,
      api.prepareCopy calls answers texts tree location file name now =
          (state, .error failure) →
        CopyCorrect api text file now before after tree
          (api.copy calls answers texts tree location file name now)) ∧
    (∀ state prepared,
      api.prepareCopy calls answers texts tree location file name now =
          (state, .ok prepared) →
        (CopyCorrect api text file now before after tree
            (api.copy calls answers texts tree location file name now) ↔
          (∃ stored read,
            TGFSFileDesc.fromDict text file.name now = .ok stored ∧
            api.repo.get answers file true true now = .ok read ∧
            ReadForCopy before api.repo.key
              (api.repo.relocateVersions stored) read) ∧
            calls.finishes = true)) := by
  constructor
  · intro state failure refused
    unfold copy
    rw [refused]
    rfl
  · intro state prepared ready
    obtain ⟨got, ⟨copied, duplicated, stamped⟩, created⟩ :=
      prepareCopy_ok ready
    have pointed := FDRepository.get_pointed got
    obtain ⟨newParts, asked, made, latest⟩ :=
      duplicateVersions_ok pointed duplicated
    have values : prepared.resp.fd.versions.values =
        copied.versions.values := by
      rw [stamped, FDRepository.stamp, Dict.values_mapValues]
      exact stamp_copies made
    have pointer : prepared.resp.fd.latestVersionId =
        copied.latestVersionId := by
      rw [stamped]
      rfl
    rw [← values] at made latest
    rw [← pointer] at latest
    unfold copy
    rw [ready]
    by_cases finishes : calls.finishes = true
    · simp only [finishes, and_true]
      have content : ∀ stored,
          SameContent before after api.repo.key stored prepared.resp.fd ↔
            ReadForCopy before api.repo.key stored prepared.source :=
        fun _ => sameContent_iff pointed made latest (duplicates _ _ asked)
      constructor
      · rintro ⟨stored, decoded, same⟩
        exact ⟨stored, _, decoded, got, (content _).mp same⟩
      · rintro ⟨stored, read, decoded, again, whole⟩
        cases got.symm.trans again
        exact ⟨stored, decoded, (content _).mpr whole⟩
    · simp only [if_neg finishes]
      constructor
      · intro unchanged
        exact (createFileRef_ne created unchanged).elim
      · rintro ⟨_, finished⟩
        exact (finishes finished).elim

/-- A read that found all versions under their ids has them, as long as the
primary holds the bytes of those that are pending or belong to another
store. -/
theorem ReadForCopy.of_found {stored read : TGFSFileDesc}
    (pointed : Pointed stored)
    (found : read.sortedVersions.map (fun version =>
        (version.id, version.messageIds)) =
      stored.sortedVersions.map fun version =>
        (version.id, version.messageIds))
    (latest : read.latestVersionId = stored.latestVersionId)
    (bytes : ∀ version ∈ stored.sortedVersions,
      version.Duplicable world primaryKey version) :
    ReadForCopy world primaryKey stored read := by
  have pairs : List.Forall₂ (fun version other : TGFSFileVersion =>
      (version.id, version.messageIds) = (other.id, other.messageIds))
      stored.sortedVersions read.sortedVersions := by
    rw [← List.forall₂_map_right_iff, found, List.forall₂_map_right_iff,
      List.forall₂_same]
    exact fun _ _ => rfl
  constructor
  · refine ((List.forall₂_and_left _ _).mpr ⟨bytes, pairs⟩).imp ?_
    rintro version other ⟨duplicable, same⟩
    unfold TGFSFileVersion.Duplicable at duplicable ⊢
    rwa [← (Prod.mk.inj same).2]
  · rcases pointed.latest with empty | ⟨version, member, isLatest⟩
    · have none : stored.sortedVersions = [] := by
        have perm := stored.sortedVersions_perm
        rw [empty] at perm
        exact perm.eq_nil
      rw [none, List.forall₂_nil_left_iff] at pairs
      exact .inl ⟨none, pairs⟩
    · have listed := stored.sortedVersions_perm.mem_iff.mpr member
      obtain ⟨place, here⟩ := List.mem_iff_getElem?.mp listed
      have there := congrArg (·[place]?) found
      rw [List.getElem?_map, List.getElem?_map, here] at there
      obtain ⟨other, otherHere, same⟩ := Option.map_eq_some_iff.mp there
      refine .inr ⟨place, version, other, here, isLatest, otherHere, ?_⟩
      rw [latest, (Prod.mk.inj same).1, isLatest]

def copyingApi : FileApi where
  repo :=
    { key := "tg:1"
      mirrorKeys := some ["tg:0"]
      localVersions := fun _ => false
      key_normal := normalizeStoreKey_tg }
  deletes := fun _ => false
  deletes_named := rfl

/-- The messages 12 and 10 are duplicated as 13 and 11. -/
def copyingCalls : CopyCalls where
  copyWithin := fun ids => if ids = [12, 10] then some [13, 11] else none
  mirrorParts := fun _ _ => some (Dict.empty, Dict.empty)
  inlineMirroring := false
  newVersionId := fun count => String.ofList (List.replicate (count + 1) 'c')
  fresh := 20
  writes := { strict := false, edit := fun _ _ => .raised, send := fun _ => none }
  finishes := true
  distinct := by
    intro left right same
    have lengths := congrArg (fun name => name.toList.length) same
    simpa using lengths
  named := by
    intro count empty
    have lengths := congrArg (fun name => name.toList.length) empty
    simp at lengths

/-- Two versions, the older one of which belongs to the given store. -/
def copyingText (store : String) : DescSerialized :=
  { versions :=
      [{ id := "w"
         updatedAt := 7
         messageIds := some [12]
         size := 1
         store := some "tg:1" },
       { id := "v"
         updatedAt := 5
         messageIds := some [10]
         size := 1
         store := some store }] }

/-- Every message is there, in every store. -/
def copyingAnswers (store : String) : Answers
  | .descriptor, ids => some (ids.map fun id =>
      some { messageId := id, text := some (copyingText store) })
  | _, ids => some (ids.map fun id =>
      some { messageId := id, documentSize := some 1 })

/-- The message 10 of the former primary has other bytes than that of the
primary, whose duplicate is 11. -/
def copyingWorld : ContentWorld where
  documents := fun store id =>
    if store = "tg:1" ∧ (id = 10 ∨ id = 11) then some [9]
    else if store = "tg:1" ∧ (id = 12 ∨ id = 13) then some [7]
    else if store = "tg:0" ∧ id = 10 then some [1]
    else none
  cached := fun _ => none

def copyingTree : DirectoryTree :=
  ⟨Dict.empty.set 0 ⟨['r', 'o', 'o', 't'], none, [], []⟩⟩

def copyingFile : FileRef := ⟨1, ['a'], Dict.empty, some "tg:1"⟩

def copyingResult (store : String) : CopyResult :=
  copyingApi.copy copyingCalls (copyingAnswers store) Dict.empty copyingTree
    0 copyingFile ['b'] ⟨9, false⟩

theorem copyingCalls_duplicates :
    copyingCalls.Duplicates copyingWorld copyingWorld "tg:1" := by
  intro ids newIds asked
  simp only [copyingCalls] at asked
  split at asked
  · rename_i same
    cases asked
    rw [same]
    exact .cons ⟨[7], rfl, rfl⟩ (.cons ⟨[9], rfl, rfl⟩ .nil)
  · cases asked

theorem copy_correct_iff_owned :
    (copyingResult "tg:1").outcome.isOk = true ∧
      CopyCorrect copyingApi (copyingText "tg:1") copyingFile ⟨9, false⟩
        copyingWorld copyingWorld copyingTree (copyingResult "tg:1") := by
  refine ⟨by decide, ?_⟩
  cases decoded : TGFSFileDesc.fromDict (copyingText "tg:1")
      copyingFile.name ⟨9, false⟩ with
  | error failure => cases decoded
  | ok stored =>
      have recorded : (TGFSFileDesc.fromDict (copyingText "tg:1")
          copyingFile.name ⟨9, false⟩).toOption.map (fun desc =>
            (copyingApi.repo.relocateVersions desc).latestVersionId) =
              some "w" ∧
          (TGFSFileDesc.fromDict (copyingText "tg:1") copyingFile.name
            ⟨9, false⟩).toOption.map (fun desc =>
              (copyingApi.repo.relocateVersions desc).sortedVersions.map
                fun version => (version.id, version.messageIds)) =
              some [("w", [12]), ("v", [10])] ∧
          (TGFSFileDesc.fromDict (copyingText "tg:1") copyingFile.name
            ⟨9, false⟩).toOption.all (fun desc =>
              (copyingApi.repo.relocateVersions desc).sortedVersions.all
                fun version => !version.pending && version.ownedBy "tg:1") =
              true := by decide
      rw [decoded] at recorded
      have read : (copyingApi.prepareCopy copyingCalls
          (copyingAnswers "tg:1") Dict.empty copyingTree 0 copyingFile ['b']
          ⟨9, false⟩).2.toOption.map (fun prepared =>
            (prepared.source.latestVersionId,
              prepared.source.sortedVersions.map fun version =>
                (version.id, version.messageIds))) =
          some ("w", [("w", [12]), ("v", [10])]) := by decide
      rcases ready : copyingApi.prepareCopy copyingCalls
        (copyingAnswers "tg:1") Dict.empty copyingTree 0 copyingFile ['b']
        ⟨9, false⟩ with ⟨state, failure | prepared⟩
      · rw [ready] at read
        cases read
      · rw [ready] at read
        obtain ⟨latest, versions⟩ := Prod.mk.inj (Option.some.inj read)
        apply ((copy_correct_iff copyingApi copyingCalls
          (copyingAnswers "tg:1") Dict.empty copyingTree 0
          (copyingText "tg:1") copyingFile ['b'] ⟨9, false⟩ copyingWorld
          copyingWorld copyingCalls_duplicates).2 state prepared ready).mpr
        refine ⟨⟨stored, _, decoded, (prepareCopy_ok ready).1, ?_⟩, rfl⟩
        apply ReadForCopy.of_found
        · exact (FDRepository.fromDict_pointed decoded).relocated _
        · exact versions.trans (Option.some.inj recorded.2.1).symm
        · exact latest.trans (Option.some.inj recorded.1).symm
        · intro version member foreign
          have owned := List.all_eq_true.mp recorded.2.2 version member
          have key : copyingApi.repo.key = "tg:1" := rfl
          simp_all

/-- The version belongs to the former primary, and the copy gets the message
with the same number in the primary. -/
theorem copy_of_foreign_ids :
    ¬∀ (api : FileApi) (calls : CopyCalls) (answers : Answers)
        (texts : FDRepository.Texts) (tree : DirectoryTree) (location : Nat)
        (text : DescSerialized) (file : FileRef) (name : Name)
        (now : DateTime) (before after : ContentWorld),
      api.repo.getFdText answers (file.relocate api.repo.key) = some text →
      calls.Duplicates before after api.repo.key →
        CopyCorrect api text file now before after tree
          (api.copy calls answers texts tree location file name now) := by
  intro correct
  have same := correct copyingApi copyingCalls (copyingAnswers "tg:0")
    Dict.empty copyingTree 0 (copyingText "tg:0") copyingFile ['b']
    ⟨9, false⟩ copyingWorld copyingWorld rfl copyingCalls_duplicates
  change CopyCorrect copyingApi (copyingText "tg:0") copyingFile
    ⟨9, false⟩ copyingWorld copyingWorld copyingTree
    (copyingResult "tg:0") at same
  have copied : ((copyingResult "tg:0").outcome.toOption.map fun made =>
      made.2.versions.values.map fun version =>
        version.denotes copyingWorld "tg:1") =
          some [some [7], some [9]] := by decide
  have original : ((TGFSFileDesc.fromDict (copyingText "tg:0")
      copyingFile.name ⟨9, false⟩).toOption.map fun stored =>
        (copyingApi.repo.relocateVersions stored).sortedVersions.map
          fun version => version.denotes copyingWorld "tg:1") =
            some [some [7], some [1]] := by decide
  unfold CopyCorrect at same
  cases outcome : (copyingResult "tg:0").outcome with
  | error failure =>
      rw [outcome] at copied
      cases copied
  | ok made =>
      rw [outcome] at copied same
      obtain ⟨stored, decoded, content⟩ := same
      rw [decoded] at original
      have denoted : made.2.versions.values.map (fun version =>
          version.denotes copyingWorld "tg:1") = [some [7], some [9]] :=
        Option.some.inj copied
      have meant : (copyingApi.repo.relocateVersions
          stored).sortedVersions.map (fun version =>
            version.denotes copyingWorld "tg:1") = [some [7], some [1]] :=
        Option.some.inj original
      have equal := denoted.symm.trans (content.maps.trans meant)
      cases equal

end FileApi

end Tgdcfs
