import Tgdcfs.Core.DescriptorCycles
import Tgdcfs.Core.FileDescApi

/-!
# What is served after an overwrite

A file is built from uploads and from calls that date its latest version,
while every store answers and every content message is there.  The descriptor
then serves the first readable version in the stored order, so an appended
version is served exactly when it has content and no readable version is
dated after it.
-/

namespace Tgdcfs

open Lib

namespace TGFSFileDesc

variable {desc : TGFSFileDesc}

/-- The first version in the stored order that passes a test. -/
def firstServed (desc : TGFSFileDesc) (test : TGFSFileVersion → Bool) :
    String :=
  ((desc.sortedVersions.find? test).map TGFSFileVersion.id).getD
    INVALID_VERSION_ID

variable {test : TGFSFileVersion → Bool} {version : TGFSFileVersion}

/-- A version that comes first among those that pass a test is dated no
earlier than any of them. -/
theorem firstServed_newest
    (found : desc.sortedVersions.find? test = some version) :
    test version = true ∧ version ∈ desc.versions.values ∧
      ∀ other ∈ desc.versions.values, test other = true →
        other.updatedAtTimestamp ≤ version.updatedAtTimestamp := by
  obtain ⟨passes, before, after, sorted, fail⟩ :=
    List.find?_eq_some_iff_append.mp found
  have perm := desc.sortedVersions_perm
  have pairwise := desc.sortedVersions_pairwise
  refine ⟨passes, perm.mem_iff.mp (by rw [sorted]; simp), ?_⟩
  intro other member passesToo
  have listed := perm.mem_iff.mpr member
  rw [sorted] at listed pairwise
  rcases List.mem_append.mp listed with early | late
  · have fails := fail other early
    rw [passesToo] at fails
    cases fails
  · rcases List.mem_cons.mp late with rfl | behind
    · exact le_rfl
    · exact (List.pairwise_cons.mp
        (List.pairwise_append.mp pairwise).2.1).1 other behind

/-- Of the versions that pass a test one comes first when none added before
it is dated after it and those added after it are dated before it. -/
theorem find?_sortedVersions {front back : List TGFSFileVersion}
    (values : desc.versions.values = front ++ version :: back)
    (passes : test version = true)
    (newest : ∀ other ∈ front, test other = true →
      other.updatedAtTimestamp ≤ version.updatedAtTimestamp)
    (newestBehind : ∀ other ∈ back, test other = true →
      other.updatedAtTimestamp < version.updatedAtTimestamp) :
    desc.sortedVersions.find? test = some version := by
  unfold sortedVersions
  rw [List.find?_map]
  have pairwise := List.pairwise_insertionSort newer
    desc.versions.values.zipIdx
  have mem_iff : ∀ item : TGFSFileVersion × Nat,
      item ∈ desc.versions.values.zipIdx.insertionSort newer ↔
        desc.versions.values[item.2]? = some item.1 := by
    intro item
    rw [List.mem_insertionSort, List.mem_zipIdx_iff_getElem?]
  have last : desc.versions.values[front.length]? = some version := by
    rw [values, List.getElem?_append_right le_rfl]
    simp
  cases found : (desc.versions.values.zipIdx.insertionSort newer).find?
      (test ∘ Prod.fst) with
  | none =>
      have fails := List.find?_eq_none.mp found (version, front.length)
        ((mem_iff _).mpr last)
      exact absurd passes (by simpa using fails)
  | some first =>
      obtain ⟨firstPasses, before, after, sorted, fail⟩ :=
        List.find?_eq_some_iff_append.mp found
      have here : desc.versions.values[first.2]? = some first.1 :=
        (mem_iff first).mp (by rw [sorted]; simp)
      have listed := (mem_iff (version, front.length)).mpr last
      rw [sorted] at listed pairwise
      have precedes : newer first (version, front.length) := by
        rcases List.mem_append.mp listed with early | late
        · have fails := fail _ early
          rw [Function.comp_apply, passes] at fails
          cases fails
        · rcases List.mem_cons.mp late with same | behind
          · rw [same]
            exact .inr ⟨rfl, le_rfl⟩
          · exact (List.pairwise_cons.mp
              (List.pairwise_append.mp pairwise).2.1).1 _ behind
      simp only [newer] at precedes
      rw [Option.map_some]
      rcases Nat.lt_trichotomy first.2 front.length with before | atIt | after
      · rw [values, List.getElem?_append_left before] at here
        have older := newest first.1 (List.mem_of_getElem? here) firstPasses
        omega
      · rw [atIt, last] at here
        exact here.symm
      · obtain ⟨place, reached⟩ : ∃ place, first.2 = front.length + 1 + place :=
          ⟨first.2 - (front.length + 1), by omega⟩
        rw [values, List.getElem?_append_right (by omega), reached,
          show front.length + 1 + place - front.length = place + 1 by omega,
          List.getElem?_cons_succ] at here
        have older := newestBehind first.1 (List.mem_of_getElem? here)
          firstPasses
        omega

/-- Of the versions that pass a test the one added last comes first when
none of them is dated after it. -/
theorem firstServed_last {front : List TGFSFileVersion}
    (values : desc.versions.values = front ++ [version])
    (passes : test version = true)
    (newest : ∀ other ∈ front, test other = true →
      other.updatedAtTimestamp ≤ version.updatedAtTimestamp) :
    desc.sortedVersions.find? test = some version := by
  apply find?_sortedVersions values passes newest
  intro other member
  cases member

end TGFSFileDesc

/-- A version apart from the sizes of its parts. -/
def TGFSFileVersion.unsized (version : TGFSFileVersion) : TGFSFileVersion :=
  { version with partSizes := [] }

namespace FDRepository

variable {repo : FDRepository}

/-- A content message that is there. -/
def presentMessage (size : Int → Nat) (messageId : Int) : StoredMessage :=
  { messageId := messageId, documentSize := some (size messageId) }

/-- Every store answers, the primary with the texts it holds, and every
content message is there. -/
def presentAnswers (texts : Texts) (sizes : Lookup → Int → Nat) : Answers
  | .descriptor, ids => some (ids.map fun messageId =>
      (texts.get? messageId).map fun text =>
        { messageId := messageId, text := some text })
  | lookup, ids => some (ids.map fun messageId =>
      some (presentMessage (sizes lookup) messageId))

theorem messageMap_present (size : Int → Nat) (ids : List Int)
    {messageId : Int} (asked : messageId ∈ ids) :
    ((messageMap (ids.map fun messageId =>
        some (presentMessage size messageId))).get? messageId).bind
      StoredMessage.documentSize = some (size messageId) := by
  have pairs : ((ids.map fun messageId =>
        some (presentMessage size messageId)).filterMap id).map
          (fun message => (message.messageId, message)) =
      ids.map fun messageId =>
        (messageId, presentMessage size messageId) := by
    simp [List.filterMap_map, presentMessage]
  unfold messageMap
  rw [pairs, Dict.get?_ofList_map ids _ asked]
  rfl

variable {messages : Dict Int StoredMessage} {version : TGFSFileVersion}

theorem layoutSizes_found (answers : Answers)
    (owned : version.ownedBy repo.key = true) (size : Int → Nat)
    (items : List (Int × Nat))
    (found : ∀ item ∈ items,
      (messages.get? item.1).bind StoredMessage.documentSize =
        some (size item.1)) :
    repo.layoutSizes answers messages version items =
      some (items.map fun item => size item.1) := by
  induction items with
  | nil => rfl
  | cons item items induction =>
      obtain ⟨messageId, part⟩ := item
      have head := found (messageId, part) List.mem_cons_self
      have tail := induction fun other member =>
        found other (List.mem_cons_of_mem _ member)
      rw [layoutSizes, if_pos owned, head, tail]
      rfl

theorem validateVersion_found (answers : Answers)
    (owned : version.ownedBy repo.key = true) (size : Int → Nat)
    (found : ∀ id ∈ version.messageIds,
      (messages.get? id).bind StoredMessage.documentSize = some (size id)) :
    repo.validateVersion answers messages version =
      { version with partSizes := version.messageIds.map size } := by
  have layout := layoutSizes_found answers owned size
    version.messageIds.zipIdx (by
      intro item member
      exact found item.1 (List.fst_mem_of_mem_zipIdx member))
  have sizes : (version.messageIds.zipIdx.map fun item => size item.1) =
      version.messageIds.map size := by
    rw [← List.zipIdx_map_fst 0 version.messageIds, List.map_map,
      List.zipIdx_map_fst]
    rfl
  unfold validateVersion
  rw [layout, sizes]

/-- The check changes nothing but part sizes while every message is there. -/
theorem validateVersions_found (answers : Answers) (size : Int → Nat)
    (items : List (String × TGFSFileVersion))
    (found : ∀ item ∈ items, item.2.isValid = true →
      item.2.ownedBy repo.key = true ∧ ∀ id ∈ item.2.messageIds,
        (messages.get? id).bind StoredMessage.documentSize =
          some (size id)) :
    (repo.validateVersions answers messages false items).1.map
        (fun item => (item.1, item.2.unsized)) =
      items.map (fun item => (item.1, item.2.unsized)) ∧
    (repo.validateVersions answers messages false items).2 =
      items.any fun item => item.2.isValid := by
  induction items with
  | nil => exact ⟨rfl, rfl⟩
  | cons item items induction =>
      obtain ⟨key, version⟩ := item
      have tail := induction fun other member =>
        found other (List.mem_cons_of_mem _ member)
      unfold validateVersions
      split
      · rename_i valid
        obtain ⟨owned, parts⟩ := found (key, version) List.mem_cons_self valid
        have checked := validateVersion_found answers owned size parts
        have stillValid : ({ version with
            partSizes := version.messageIds.map size } :
              TGFSFileVersion).isValid = true := valid
        rw [checked]
        simp only [stillValid, Bool.not_false, Bool.and_self, if_true]
        refine ⟨rfl, ?_⟩
        simp [valid]
      · rename_i invalid
        simp only [List.map_cons, List.any_cons, tail]
        simp [invalid]

variable {desc : TGFSFileDesc}

/-- In a descriptor that lists its versions newest first and points at the
first one, the pointer moves to the first readable version. -/
theorem pointAtReadable_sorted (repo : FDRepository) (keyed : desc.Keyed)
    (sorted : desc.versions.values.Pairwise fun left right =>
      right.updatedAtTimestamp ≤ left.updatedAtTimestamp)
    (pointer : desc.latestVersionId =
      (desc.versions.values.head?.map TGFSFileVersion.id).getD
        INVALID_VERSION_ID) (now : DateTime) :
    let result := repo.pointAtReadable desc
      (desc.versions.values.any TGFSFileVersion.isValid) now
    result.latestVersionId =
        ((desc.versions.values.find? repo.readable).map
          TGFSFileVersion.id).getD INVALID_VERSION_ID ∧
      result.versions =
        if desc.versions.values.any repo.readable then desc.versions
        else Dict.empty := by
  have usable : (desc.versions.values.any TGFSFileVersion.isValid ||
      desc.versions.values.any repo.readableLocally) =
        desc.versions.values.any repo.readable := by
    rw [Bool.eq_iff_iff]
    simp only [Bool.or_eq_true, List.any_eq_true, readable]
    constructor
    · rintro (⟨version, member, valid⟩ | ⟨version, member, local_⟩)
      · exact ⟨version, member, .inl valid⟩
      · exact ⟨version, member, .inr local_⟩
    · rintro ⟨version, member, valid | local_⟩
      · exact .inl ⟨version, member, valid⟩
      · exact .inr ⟨version, member, local_⟩
  intro result
  by_cases none : desc.versions.values.any repo.readable = true
  · rw [none, if_pos rfl]
    by_cases served : (desc.versions.get? desc.latestVersionId).any
        repo.readable = true
    · have shown : result = desc := by
        simp only [result, pointAtReadable, usable, none, served, if_true]
      rw [shown]
      refine ⟨?_, rfl⟩
      cases values : desc.versions.values with
      | nil =>
          rw [values] at none
          cases none
      | cons head rest =>
          have latest : desc.latestVersionId = head.id := by
            rw [pointer, values]
            rfl
          rw [latest, keyed.get?_id (by rw [values]; simp)] at served
          have first : (head :: rest).find? repo.readable = some head :=
            List.find?_cons_of_pos served
          rw [first, latest]
          rfl
    · rw [← List.head?_filter]
      cases candidates : desc.versions.values.filter repo.readable with
      | nil =>
          obtain ⟨version, member, readable⟩ := List.any_eq_true.mp none
          have listed := List.mem_filter.mpr ⟨member, readable⟩
          rw [candidates] at listed
          cases listed
      | cons version rest =>
          have ordered := sorted.filter repo.readable
          rw [candidates, List.pairwise_cons] at ordered
          have shown : result = { desc with latestVersionId :=
              (TGFSFileDesc.firstNewest version rest).id } := by
            simp only [result, pointAtReadable, usable, none, if_neg served,
              candidates, if_true]
          rw [shown]
          refine ⟨?_, rfl⟩
          rw [TGFSFileDesc.firstNewest_of_sorted version rest ordered.1]
          rfl
  · have nothing : desc.versions.values.any repo.readable = false := by
      simpa using none
    have hidden : result = { TGFSFileDesc.empty desc.name now with
        complete := desc.complete } := by
      change (if _ then _ else _) = _
      rw [usable, nothing]
      rfl
    have absent : desc.versions.values.find? repo.readable = Option.none := by
      rw [List.find?_eq_none]
      simpa using nothing
    rw [hidden, absent, nothing]
    exact ⟨rfl, rfl⟩

theorem key_ne_empty (repo : FDRepository) : repo.key ≠ "" := by
  intro blank
  have normal := repo.key_normal
  rw [blank] at normal
  revert normal
  decide

/-- The ids of every version belong to the primary; a version without ids may
have no store recorded. -/
def Homed (repo : FDRepository) (version : TGFSFileVersion) : Prop :=
  version.store = some repo.key ∨
    version.store = none ∧ version.isValid = false

theorem Homed.reread (homed : repo.Homed version) :
    repo.Homed version.reread := by
  rcases homed with owned | ⟨unowned, invalid⟩
  · left
    change ((version.store.filter (· ≠ "")).map normalizeStoreKey) = _
    rw [owned, Option.filter_some, if_pos (by simpa using repo.key_ne_empty),
      Option.map_some, repo.key_normal]
  · right
    refine ⟨?_, invalid⟩
    change ((version.store.filter (· ≠ "")).map normalizeStoreKey) = _
    rw [unowned]
    rfl

theorem Homed.relocate (homed : repo.Homed version) :
    version.relocate repo.key = version := by
  rcases homed with owned | ⟨unowned, _⟩
  · simp [TGFSFileVersion.relocate, owned]
  · simp [TGFSFileVersion.relocate, unowned]

theorem Homed.ownedBy (homed : repo.Homed version) :
    version.ownedBy repo.key = true := by
  rcases homed with owned | ⟨unowned, _⟩
  · simp [TGFSFileVersion.ownedBy, owned]
  · simp [TGFSFileVersion.ownedBy, unowned]

/-- Two descriptors list the same versions apart from the sizes of their
parts. -/
def SameVersions (left right : TGFSFileDesc) : Prop :=
  left.versions.items.map (fun item => (item.1, item.2.unsized)) =
    right.versions.items.map (fun item => (item.1, item.2.unsized))

variable {left right : TGFSFileDesc}

theorem SameVersions.values (same : SameVersions left right) :
    left.versions.values.map TGFSFileVersion.unsized =
      right.versions.values.map TGFSFileVersion.unsized := by
  have mapped := congrArg (List.map Prod.snd) same
  simpa [Dict.values, List.map_map, Function.comp_def] using mapped

theorem SameVersions.keyed (same : SameVersions left right)
    (keyed : right.Keyed) : left.Keyed := by
  intro item member
  have listed : (item.1, item.2.unsized) ∈ right.versions.items.map
      (fun item => (item.1, item.2.unsized)) := by
    rw [← same]
    exact List.mem_map.mpr ⟨item, member, rfl⟩
  obtain ⟨source, here, equal⟩ := List.mem_map.mp listed
  obtain ⟨key, version⟩ := Prod.mk.injEq _ _ _ _ ▸ equal
  have ids : source.2.unsized.id = item.2.unsized.id :=
    congrArg TGFSFileVersion.id version
  change item.2.unsized.id = _
  rw [← ids, ← key]
  exact keyed source here

/-- What does not look at part sizes cannot tell the descriptors apart. -/
theorem SameVersions.map {α : Type} (same : SameVersions left right)
    (look : TGFSFileVersion → α)
    (blind : ∀ version, look version.unsized = look version) :
    left.versions.values.map look = right.versions.values.map look := by
  have mapped := congrArg (List.map look) same.values
  simpa [List.map_map, Function.comp_def, blind] using mapped

/-- A ref whose descriptor is a message of the primary with this text. -/
structure Describes (repo : FDRepository) (texts : Texts) (file : FileRef)
    (desc : TGFSFileDesc) : Prop where
  keyed : desc.Keyed
  storable : desc.Storable
  homed : ∀ version ∈ desc.versions.values, repo.Homed version
  owned : file.store = some repo.key
  text : texts.get? file.messageId = some desc.stored

theorem Describes.reread_homed {texts : Texts} {file : FileRef}
    (describes : repo.Describes texts file desc) (now : DateTime) :
    ∀ version ∈ (desc.reread now).versions.values, repo.Homed version := by
  intro version member
  rw [TGFSFileDesc.reread_values describes.keyed] at member
  obtain ⟨source, sorted, rfl⟩ := List.mem_map.mp member
  exact (describes.homed source
    (desc.sortedVersions_perm.mem_iff.mp sorted)).reread

/-- The check of a descriptor that was read back changes only part sizes. -/
theorem validated_same (texts : Texts) (sizes : Lookup → Int → Nat)
    (homed : ∀ version ∈ desc.versions.values, repo.Homed version) :
    let messages := messageMap ((repo.primaryIds desc).map fun messageId =>
      some (presentMessage (sizes .parts) messageId))
    let checked : TGFSFileDesc := { desc with
      versions := repo.validated (presentAnswers texts sizes) messages false
        desc.versions }
    SameVersions checked desc ∧
      (repo.validateVersions (presentAnswers texts sizes) messages false
          desc.versions.items).2 =
        checked.versions.values.any TGFSFileVersion.isValid := by
  intro messages checked
  have parts : ∀ item ∈ desc.versions.items, item.2.isValid = true →
      item.2.ownedBy repo.key = true ∧ ∀ messageId ∈ item.2.messageIds,
        (messages.get? messageId).bind StoredMessage.documentSize =
          some (sizes .parts messageId) := by
    intro item member valid
    have value : item.2 ∈ desc.versions.values :=
      List.mem_map.mpr ⟨item, member, rfl⟩
    have owned := (homed item.2 value).ownedBy
    refine ⟨owned, ?_⟩
    intro messageId part
    apply messageMap_present
    refine List.mem_flatMap.mpr ⟨item.2, ?_, part⟩
    exact List.mem_filter.mpr ⟨value, by simp [valid, owned]⟩
  have found := validateVersions_found (presentAnswers texts sizes)
    (sizes .parts) desc.versions.items parts
  have same : SameVersions checked desc := found.1
  refine ⟨same, found.2.trans ?_⟩
  have any := congrArg (List.any · id)
    (same.map TGFSFileVersion.isValid fun _ => rfl)
  simpa [Dict.values, List.any_map, Function.comp_def] using any.symm

/-- What a search finds is determined by the outcomes of its test. -/
theorem find_by_tests {α β : Type} (test : α → Bool) (look : α → β)
    (items : List α) :
    (items.find? test).map look =
      ((items.map fun item => (test item, look item)).find? Prod.fst).map
        Prod.snd := by
  rw [List.find?_map, Option.map_map]
  rfl

/-- The check of a descriptor that lists its versions newest first. -/
theorem validateFv_present (keyed : desc.Keyed)
    (homed : ∀ version ∈ desc.versions.values, repo.Homed version)
    (sorted : desc.versions.values.Pairwise fun left right =>
      right.updatedAtTimestamp ≤ left.updatedAtTimestamp)
    (pointer : desc.latestVersionId =
      (desc.versions.values.head?.map TGFSFileVersion.id).getD
        INVALID_VERSION_ID) (texts : Texts) (sizes : Lookup → Int → Nat)
    (now : DateTime) :
    ∃ served,
      repo.validateFv (presentAnswers texts sizes) false now desc =
        .ok served ∧
      served.latestVersionId =
        ((desc.versions.values.find? repo.readable).map
          TGFSFileVersion.id).getD INVALID_VERSION_ID ∧
      served.versions.items.map (fun item => (item.1, item.2.unsized)) =
        if desc.versions.values.any repo.readable then
          desc.versions.items.map fun item => (item.1, item.2.unsized)
        else [] := by
  obtain ⟨same, valid⟩ := validated_same texts sizes homed
  let checked : TGFSFileDesc := { desc with
    versions := repo.validated (presentAnswers texts sizes)
      (messageMap ((repo.primaryIds desc).map fun messageId =>
        some (presentMessage (sizes .parts) messageId))) false desc.versions
    complete := desc.complete && true }
  change SameVersions checked desc at same
  have stamps := same.map TGFSFileVersion.updatedAtTimestamp fun _ => rfl
  have ids := same.map TGFSFileVersion.id fun _ => rfl
  have tests := same.map (fun version => (repo.readable version, version.id))
    fun _ => rfl
  have checkedSorted : checked.versions.values.Pairwise fun left right =>
      right.updatedAtTimestamp ≤ left.updatedAtTimestamp := by
    have ordered := (List.pairwise_map (f := TGFSFileVersion.updatedAtTimestamp)
      (R := fun left right => right ≤ left)).mpr sorted
    rw [← stamps] at ordered
    exact List.pairwise_map.mp ordered
  have checkedPointer : checked.latestVersionId =
      (checked.versions.values.head?.map TGFSFileVersion.id).getD
        INVALID_VERSION_ID := by
    rw [← List.head?_map, ids, List.head?_map]
    exact pointer
  obtain ⟨latest, versions⟩ := pointAtReadable_sorted repo
    (same.keyed keyed) checkedSorted checkedPointer now
  refine ⟨repo.pointAtReadable checked
    (checked.versions.values.any TGFSFileVersion.isValid) now, ?_, ?_, ?_⟩
  · rw [← valid]
    rfl
  · rw [latest, find_by_tests, tests, ← find_by_tests]
  · have any : checked.versions.values.any repo.readable =
        desc.versions.values.any repo.readable := by
      have mapped := congrArg (List.any · Prod.fst) tests
      simpa [List.any_map, Function.comp_def] using mapped
    rw [versions, any]
    split
    · exact same
    · rfl

/-- What reading a descriptor serves while every message is there: its
versions as they are read back, pointing at the first readable one, or none
when no version is readable. -/
theorem get_present {texts : Texts} {file : FileRef}
    (describes : repo.Describes texts file desc) (sizes : Lookup → Int → Nat)
    (now : DateTime) :
    ∃ served,
      repo.get (presentAnswers texts sizes) file false true now =
        .ok served ∧
      served.latestVersionId = desc.firstServed repo.readable ∧
      served.versions.items.map (fun item => (item.1, item.2.unsized)) =
        if desc.versions.values.any repo.readable then
          desc.sortedVersions.map fun version => (version.id, version.reread)
        else [] := by
  have relocated : file.relocate repo.key = file := by
    simp [FileRef.relocate, describes.owned]
  have owned : file.ownedBy repo.key = true := by
    simp [FileRef.ownedBy, describes.owned]
  have text : repo.getFdText (presentAnswers texts sizes) file =
      some desc.stored := by
    unfold getFdText
    rw [if_pos owned]
    simp only [presentAnswers, List.map_cons, List.map_nil, describes.text,
      Option.map_some, answeredText]
  let base : TGFSFileDesc := { desc.reread now with name := file.name }
  have read : TGFSFileDesc.fromDict desc.stored file.name now = .ok base :=
    TGFSFileDesc.fromDict_stored describes.keyed describes.storable file.name
      now
  have values : base.versions.values =
      desc.sortedVersions.map TGFSFileVersion.reread :=
    TGFSFileDesc.reread_values describes.keyed now
  have homed : ∀ version ∈ base.versions.values, repo.Homed version :=
    describes.reread_homed now
  have still : repo.relocateVersions base = base := by
    unfold relocateVersions
    rw [Dict.mapValues_eq_self]
    intro version member
    exact (homed version member).relocate
  have result : repo.get (presentAnswers texts sizes) file false true now =
      repo.validateFv (presentAnswers texts sizes) false now base := by
    unfold get
    rw [relocated, text]
    simp only [read]
    rw [still]
    rfl
  have sorted : base.versions.values.Pairwise fun left right =>
      right.updatedAtTimestamp ≤ left.updatedAtTimestamp := by
    rw [values, List.pairwise_map]
    apply desc.sortedVersions_pairwise.imp
    intro left right ordered
    have leftStamp := TGFSFileDesc.storedStamp_eq left
    have rightStamp := TGFSFileDesc.storedStamp_eq right
    unfold TGFSFileDesc.storedStamp at leftStamp rightStamp
    omega
  have pointer : base.latestVersionId =
      (base.versions.values.head?.map TGFSFileVersion.id).getD
        INVALID_VERSION_ID := by
    rw [values, List.head?_map, Option.map_map]
    rfl
  have keyed : base.Keyed := TGFSFileDesc.reread_keyed describes.keyed now
  obtain ⟨served, checked, latest, versions⟩ := validateFv_present keyed
    homed sorted pointer texts sizes now
  refine ⟨served, result.trans checked, ?_, ?_⟩
  · rw [latest, values, List.find?_map, Option.map_map]
    rfl
  · have any : base.versions.values.any repo.readable =
        desc.versions.values.any repo.readable := by
      rw [values, List.any_map, Bool.eq_iff_iff]
      simp only [List.any_eq_true, desc.sortedVersions_perm.mem_iff]
      rfl
    have items : base.versions.items =
        desc.sortedVersions.map fun version =>
          (version.id, version.reread) :=
      TGFSFileDesc.reread_items describes.keyed now
    rw [versions, any, items, List.map_map]
    rfl

theorem served_source {served : TGFSFileDesc}
    (versions : served.versions.items.map
        (fun item => (item.1, item.2.unsized)) =
      if desc.versions.values.any repo.readable then
        desc.sortedVersions.map fun version => (version.id, version.reread)
      else []) :
    ∀ item ∈ served.versions.items, ∃ source ∈ desc.versions.values,
      item.1 = source.id ∧ item.2.unsized = source.reread := by
  intro item member
  have listed := List.mem_map_of_mem
    (f := fun item : String × TGFSFileVersion => (item.1, item.2.unsized))
    member
  rw [versions] at listed
  split at listed
  · obtain ⟨source, sorted, equal⟩ := List.mem_map.mp listed
    obtain ⟨key, version⟩ := Prod.mk.injEq _ _ _ _ ▸ equal
    exact ⟨source, desc.sortedVersions_perm.mem_iff.mp sorted, key.symm,
      version.symm⟩
  · cases listed

/-- A descriptor that can be written to the primary and described there. -/
structure Writable (repo : FDRepository) (desc : TGFSFileDesc) : Prop where
  keyed : desc.Keyed
  homed : ∀ version ∈ desc.versions.values,
    version.store = some repo.key ∨ version.store = none

theorem stampVersion_homed
    (homed : version.store = some repo.key ∨ version.store = none) :
    repo.Homed (stampVersion repo.key version) := by
  unfold stampVersion
  split
  · exact .inl rfl
  · rename_i settled
    rcases homed with owned | unowned
    · exact .inl owned
    · right
      refine ⟨unowned, ?_⟩
      simpa [unowned] using settled

theorem stampVersion_id (key : String) (version : TGFSFileVersion) :
    (stampVersion key version).id = version.id := by
  unfold stampVersion
  split <;> rfl

theorem Writable.save (writable : repo.Writable desc) {texts after : Texts}
    {file : Option FileRef} {fresh : Int} {writes : MirrorWrites}
    {response : FDRepositoryResp} (name : Name)
    (saved : repo.save texts desc file fresh writes =
      (after, .ok response)) :
    response.fd = repo.stamp desc ∧
      repo.Describes after
        { messageId := response.messageId, name := name,
          mirrors := response.mirrors, store := some response.store }
        (repo.stamp desc) := by
  have keyed : (repo.stamp desc).Keyed := by
    intro item member
    obtain ⟨source, here, rfl⟩ := List.mem_map.mp member
    exact (stampVersion_id repo.key source.2).trans
      (writable.keyed source here)
  have homed : ∀ version ∈ (repo.stamp desc).versions.values,
      repo.Homed version := by
    intro version member
    have stamped : (repo.stamp desc).versions.values =
        desc.versions.values.map (stampVersion repo.key) :=
      Dict.values_mapValues _ _
    rw [stamped] at member
    obtain ⟨source, here, rfl⟩ := List.mem_map.mp member
    exact stampVersion_homed (writable.homed source here)
  unfold FDRepository.save at saved
  dsimp only at saved
  by_cases storable : (repo.stamp desc).Storable
  · rw [TGFSFileDesc.toDict_ok storable] at saved
    dsimp only at saved
    split at saved
    · cases saved
    · cases saved
      refine ⟨rfl, keyed, storable, homed, rfl, ?_⟩
      rw [Dict.get?_set, if_pos rfl]
  · obtain ⟨failure, fails⟩ := TGFSFileDesc.toDict_error storable
    rw [fails] at saved
    cases saved

end FDRepository

/-- A file of one primary store: its ref, once it was uploaded, and the text
messages of the store. -/
structure FileHistory where
  file : Option FileRef
  texts : FDRepository.Texts

inductive FileAction where
  | upload (result : UploadResult) (versionId : String) (now : DateTime)
      (fresh : Int) (writes : MirrorWrites)
  | date (instant now : DateTime) (fresh : Int) (writes : MirrorWrites)

namespace FileHistory

open FDRepository

def synced (name : Name) (response : FDRepositoryResp) : FileRef :=
  { messageId := response.messageId
    name := name
    mirrors := response.mirrors
    store := some response.store }

/-- The versions that the stored text of the file records. -/
def recorded (state : FileHistory) : List TGFSFileVersion :=
  match state.file.bind fun file => state.texts.get? file.messageId with
  | none => []
  | some text =>
      match TGFSFileDesc.fromDict text [] ⟨0, false⟩ with
      | .error _ => []
      | .ok desc => desc.versions.values

/-- An upload under a new version id. -/
def append (repo : FDRepository) (sizes : Lookup → Int → Nat) (name : Name)
    (state : FileHistory) (result : UploadResult) (versionId : String)
    (now : DateTime) (fresh : Int) (writes : MirrorWrites) :
    Option (FileHistory × FDRepositoryResp) :=
  if versionId = INVALID_VERSION_ID ∨
      versionId ∈ state.recorded.map TGFSFileVersion.id then none
  else
    match repo.appendFileVersion (presentAnswers state.texts sizes)
        state.texts name state.file result versionId now fresh writes with
    | (texts, .ok response) =>
        some (⟨some (synced name response), texts⟩, response)
    | (_, .error _) => none

/-- The steps of a file; one that raises is not taken. -/
def step (repo : FDRepository) (sizes : Lookup → Int → Nat) (name : Name)
    (state : FileHistory) : FileAction → Option FileHistory
  | .upload result versionId now fresh writes =>
      (state.append repo sizes name result versionId now fresh writes).map
        Prod.fst
  | .date instant now fresh writes =>
      state.file.bind fun file =>
        match repo.setLastModified (presentAnswers state.texts sizes)
            state.texts file instant now fresh writes with
        | (texts, .ok response) =>
            some ⟨some (synced name response), texts⟩
        | (_, .error _) => none

/-- The file is described by a message of the primary, once it exists. -/
def Described (repo : FDRepository) (state : FileHistory) : Prop :=
  state.file = none ∨ ∃ file desc, state.file = some file ∧
    repo.Describes state.texts file desc

variable {repo : FDRepository} {state : FileHistory}

variable {desc : TGFSFileDesc}

theorem recorded_of_describes {file : FileRef} (here : state.file = some file)
    (describes : repo.Describes state.texts file desc) :
    state.recorded = desc.sortedVersions.map TGFSFileVersion.reread := by
  unfold recorded
  rw [here, Option.bind_some, describes.text]
  simp only [TGFSFileDesc.fromDict_stored describes.keyed describes.storable]
  exact TGFSFileDesc.reread_values describes.keyed _

/-- What an operation starts from: what is readable of the recorded versions
is there, and the pointer is at the newest of it. -/
structure StartsFrom (repo : FDRepository) (state : FileHistory)
    (desc : TGFSFileDesc) : Prop where
  writable : repo.Writable desc
  recorded : ∀ version ∈ desc.versions.values,
    version.unsized ∈ state.recorded
  readable : ∀ version ∈ state.recorded, repo.readable version = true →
    ∃ served ∈ desc.versions.values, served.unsized = version
  pointer : (desc.latestVersionId = INVALID_VERSION_ID ∧
      ∀ version ∈ state.recorded, repo.readable version = false) ∨
    ∃ latest ∈ desc.versions.values, latest.id = desc.latestVersionId ∧
      repo.readable latest = true ∧
      ∀ version ∈ state.recorded, repo.readable version = true →
        version.updatedAtTimestamp ≤ latest.updatedAtTimestamp

theorem startsFrom_get {file : FileRef} (here : state.file = some file)
    (describes : repo.Describes state.texts file desc)
    (sizes : Lookup → Int → Nat) (now : DateTime) :
    ∃ served,
      repo.get (presentAnswers state.texts sizes) file false true now =
        .ok served ∧ StartsFrom repo state served := by
  have stored := recorded_of_describes here describes
  obtain ⟨served, read, latest, versions⟩ :=
    get_present describes sizes now
  have source := served_source versions
  have keyed : served.Keyed := by
    intro item member
    obtain ⟨version, _, key, same⟩ := source item member
    have ids : item.2.unsized.id = version.reread.id :=
      congrArg TGFSFileVersion.id same
    rw [key]
    exact ids
  have homed : ∀ version ∈ served.versions.values,
      version.store = some repo.key ∨ version.store = none := by
    intro version member
    obtain ⟨item, listed, rfl⟩ := List.mem_map.mp member
    obtain ⟨version, stored, _, same⟩ := source item listed
    have stores : item.2.unsized.store = version.reread.store :=
      congrArg TGFSFileVersion.store same
    change item.2.unsized.store = _ ∨ item.2.unsized.store = _
    rw [stores]
    exact (describes.homed version stored).reread.imp_right And.left
  have readable : ∀ version ∈ state.recorded, repo.readable version = true →
      ∃ copy ∈ served.versions.values, copy.unsized = version := by
    intro version member readable
    rw [stored] at member
    obtain ⟨origin, sorted, rfl⟩ := List.mem_map.mp member
    have usable : desc.versions.values.any repo.readable = true :=
      List.any_eq_true.mpr ⟨origin,
        desc.sortedVersions_perm.mem_iff.mp sorted, readable⟩
    rw [usable, if_pos rfl] at versions
    have listed := List.mem_map_of_mem
      (f := fun version : TGFSFileVersion => (version.id, version.reread))
      sorted
    rw [← versions] at listed
    obtain ⟨item, there, equal⟩ := List.mem_map.mp listed
    exact ⟨item.2, List.mem_map_of_mem there, congrArg Prod.snd equal⟩
  refine ⟨served, read, ⟨keyed, homed⟩, ?_, readable, ?_⟩
  · intro version member
    obtain ⟨item, listed, rfl⟩ := List.mem_map.mp member
    obtain ⟨version, there, _, same⟩ := source item listed
    rw [stored, same]
    exact List.mem_map_of_mem (desc.sortedVersions_perm.mem_iff.mpr there)
  · unfold TGFSFileDesc.firstServed at latest
    cases found : desc.sortedVersions.find? repo.readable with
    | none =>
        left
        rw [found] at latest
        refine ⟨latest, ?_⟩
        intro version member
        rw [stored] at member
        obtain ⟨origin, sorted, rfl⟩ := List.mem_map.mp member
        have fails := List.find?_eq_none.mp found origin sorted
        change repo.readable origin = false
        simpa using fails
    | some first =>
        right
        rw [found] at latest
        obtain ⟨passes, member, newest⟩ :=
          TGFSFileDesc.firstServed_newest found
        obtain ⟨copy, there, same⟩ := readable first.reread
          (by
            rw [stored]
            exact List.mem_map_of_mem
              (desc.sortedVersions_perm.mem_iff.mpr member)) passes
        have ids : copy.unsized.id = first.reread.id :=
          congrArg TGFSFileVersion.id same
        have tests : repo.readable copy.unsized =
            repo.readable first.reread := congrArg repo.readable same
        have stamps : copy.unsized.updatedAtTimestamp =
            TGFSFileDesc.storedStamp first :=
          congrArg TGFSFileVersion.updatedAtTimestamp same
        refine ⟨copy, there, ids.trans latest.symm, tests.trans passes, ?_⟩
        intro version recorded passesToo
        rw [stored] at recorded
        obtain ⟨origin, sorted, rfl⟩ := List.mem_map.mp recorded
        have older := newest origin
          (desc.sortedVersions_perm.mem_iff.mp sorted) passesToo
        change TGFSFileDesc.storedStamp origin ≤
          copy.unsized.updatedAtTimestamp
        rw [stamps, TGFSFileDesc.storedStamp_eq, TGFSFileDesc.storedStamp_eq]
        omega

theorem startsFrom (described : Described repo state)
    (sizes : Lookup → Int → Nat) (name : Name) (now : DateTime) :
    ∃ desc,
      repo.start (presentAnswers state.texts sizes) name now state.file =
        .ok desc ∧ StartsFrom repo state desc := by
  rcases described with absent | ⟨file, desc, here, describes⟩
  · have nothing : state.recorded = [] := by
      rw [recorded, absent]
      rfl
    refine ⟨{ name := name, createdAt := now }, by rw [absent]; rfl,
      ⟨?_, ?_⟩, ?_, ?_, .inl ⟨rfl, ?_⟩⟩
    · intro item member
      cases member
    · intro version member
      cases member
    · intro version member
      cases member
    · intro version member
      rw [nothing] at member
      cases member
    · intro version member
      rw [nothing] at member
      cases member
  · rw [here]
    exact startsFrom_get here describes sizes now

theorem version_id (result : UploadResult) (versionId : String)
    (now : DateTime) : (result.version versionId now).id = versionId := by
  cases result <;> rfl

theorem version_updatedAt (result : UploadResult) (versionId : String)
    (now : DateTime) : (result.version versionId now).updatedAt = now := by
  cases result <;> rfl

theorem version_store (result : UploadResult) (versionId : String)
    (now : DateTime) : (result.version versionId now).store = none := by
  cases result <;> rfl

theorem Writable.addVersion {added : TGFSFileDesc}
    (writable : repo.Writable desc) {version : TGFSFileVersion}
    (unowned : version.store = none)
    (appended : desc.addVersion version = .ok added) :
    repo.Writable added := by
  obtain ⟨_, _, versions, _⟩ := TGFSFileDesc.addVersion_ok appended
  refine ⟨writable.keyed.step
    (show TGFSFileDesc.descStep desc (.add version) = some added by
      rw [TGFSFileDesc.descStep, appended]; rfl), ?_⟩
  intro other member
  obtain ⟨item, listed, rfl⟩ := List.mem_map.mp member
  rw [versions, Dict.mem_items_set] at listed
  rcases listed with rfl | ⟨old, _⟩
  · exact .inr unowned
  · exact writable.homed item.2 (List.mem_map_of_mem old)

theorem Writable.setLastModified {changed : TGFSFileDesc}
    (writable : repo.Writable desc) {instant : DateTime}
    (dated : desc.setLastModified instant = .ok changed) :
    repo.Writable changed := by
  obtain ⟨latest, found, _, versions, _⟩ :=
    TGFSFileDesc.setLastModified_ok dated
  refine ⟨writable.keyed.step
    (show TGFSFileDesc.descStep desc (.date instant) = some changed by
      rw [TGFSFileDesc.descStep, dated]; rfl), ?_⟩
  intro other member
  obtain ⟨item, listed, rfl⟩ := List.mem_map.mp member
  rw [versions, Dict.mem_items_set] at listed
  rcases listed with rfl | ⟨old, _⟩
  · exact writable.homed latest (List.mem_map.mpr
      ⟨_, (Dict.get?_eq_some_iff _ _ _).mp found, rfl⟩)
  · exact writable.homed item.2 (List.mem_map_of_mem old)

theorem StartsFrom.fresh (starts : StartsFrom repo state desc)
    {versionId : String}
    (new : versionId ∉ state.recorded.map TGFSFileVersion.id) :
    desc.versions.get? versionId = none := by
  cases found : desc.versions.get? versionId with
  | none => rfl
  | some version =>
      have here := (Dict.get?_eq_some_iff _ _ _).mp found
      have value : version ∈ desc.versions.values :=
        List.mem_map.mpr ⟨_, here, rfl⟩
      refine absurd (List.mem_map.mpr
        ⟨version.unsized, starts.recorded version value, ?_⟩) new
      exact starts.writable.keyed _ here

theorem append_spec (described : Described repo state)
    {sizes : Lookup → Int → Nat} {name : Name} {result : UploadResult}
    {versionId : String} {now : DateTime} {fresh : Int}
    {writes : MirrorWrites} {after : FileHistory}
    {response : FDRepositoryResp}
    (appended : state.append repo sizes name result versionId now fresh
      writes = some (after, response)) :
    ∃ desc added,
      repo.start (presentAnswers state.texts sizes) name now state.file =
        .ok desc ∧
      StartsFrom repo state desc ∧
      desc.addVersion (result.version versionId now) = .ok added ∧
      repo.Writable added ∧
      versionId ≠ INVALID_VERSION_ID ∧
      desc.versions.get? versionId = none ∧
      response.fd = repo.stamp added ∧
      after.file = some (synced name response) ∧
      repo.Describes after.texts (synced name response)
        (repo.stamp added) := by
  obtain ⟨desc, start, starts⟩ := startsFrom described sizes name now
  unfold append at appended
  split at appended
  · cases appended
  · rename_i new
    rw [not_or] at new
    unfold appendFileVersion at appended
    rw [start] at appended
    dsimp only at appended
    cases added : desc.addVersion (result.version versionId now) with
    | error failure =>
        rw [added] at appended
        cases appended
    | ok written =>
        rw [added] at appended
        dsimp only at appended
        have writable := Writable.addVersion starts.writable
          (version_store result versionId now) added
        split at appended
        · rename_i texts resp saved
          cases appended
          obtain ⟨fd, describes⟩ := writable.save name saved
          exact ⟨desc, written, start, starts, added, writable, new.1,
            starts.fresh new.2, fd, rfl, describes⟩
        · cases appended

theorem readable_stampVersion (repo : FDRepository)
    (version : TGFSFileVersion) :
    repo.readable (stampVersion repo.key version) = repo.readable version := by
  unfold stampVersion
  split <;> rfl

theorem stampVersion_updatedAt (key : String) (version : TGFSFileVersion) :
    (stampVersion key version).updatedAt = version.updatedAt := by
  unfold stampVersion
  split <;> rfl

/-- The version that was added last is served exactly when it is readable and
no readable version is dated after it. -/
theorem firstServed_stamped {added : TGFSFileDesc}
    (writable : repo.Writable added) {front : List TGFSFileVersion}
    {version : TGFSFileVersion}
    (values : added.versions.values = front ++ [version])
    (named : version.id ≠ INVALID_VERSION_ID) :
    (repo.stamp added).firstServed repo.readable = version.id ↔
      repo.readable version = true ∧
        ∀ other ∈ front, repo.readable other = true →
          other.updatedAtTimestamp ≤ version.updatedAtTimestamp := by
  have stamped : (repo.stamp added).versions.values =
      front.map (stampVersion repo.key) ++ [stampVersion repo.key version] := by
    change (added.versions.mapValues _).values = _
    rw [Dict.values_mapValues, values, List.map_append]
    rfl
  have stamps : ∀ other : TGFSFileVersion,
      (stampVersion repo.key other).updatedAtTimestamp =
        other.updatedAtTimestamp := fun other => by
    unfold TGFSFileVersion.updatedAtTimestamp
    rw [stampVersion_updatedAt]
  constructor
  · intro served
    unfold TGFSFileDesc.firstServed at served
    cases found : (repo.stamp added).sortedVersions.find? repo.readable with
    | none =>
        rw [found] at served
        exact absurd served.symm named
    | some first =>
        rw [found] at served
        obtain ⟨passes, member, newest⟩ :=
          TGFSFileDesc.firstServed_newest found
        have keyed : (repo.stamp added).Keyed := by
          intro item listed
          obtain ⟨source, here, rfl⟩ := List.mem_map.mp listed
          exact (stampVersion_id repo.key source.2).trans
            (writable.keyed source here)
        have same : first = stampVersion repo.key version := by
          apply keyed.eq_of_id member
          · rw [stamped]
            simp
          · exact served.trans (stampVersion_id repo.key version).symm
        rw [same] at passes newest
        rw [readable_stampVersion] at passes
        refine ⟨passes, ?_⟩
        intro other member readable
        have older := newest (stampVersion repo.key other)
          (by rw [stamped]; simp [List.mem_map_of_mem member])
          (by rw [readable_stampVersion]; exact readable)
        rw [stamps, stamps] at older
        exact older
  · rintro ⟨passes, newest⟩
    have found : (repo.stamp added).sortedVersions.find? repo.readable =
        some (stampVersion repo.key version) := by
      apply TGFSFileDesc.firstServed_last stamped
      · rw [readable_stampVersion]
        exact passes
      · intro other member readable
        obtain ⟨source, here, rfl⟩ := List.mem_map.mp member
        rw [readable_stampVersion] at readable
        rw [stamps, stamps]
        exact newest source here readable
    unfold TGFSFileDesc.firstServed
    rw [found]
    exact stampVersion_id repo.key version

theorem Described.step (described : Described repo state)
    {sizes : Lookup → Int → Nat} {name : Name} {action : FileAction}
    {after : FileHistory}
    (taken : state.step repo sizes name action = some after) :
    Described repo after := by
  cases action with
  | upload result versionId now fresh writes =>
      obtain ⟨⟨next, response⟩, appended, rfl⟩ :=
        Option.map_eq_some_iff.mp taken
      obtain ⟨_, added, _, _, _, _, _, _, _, file, describes⟩ :=
        append_spec described appended
      exact .inr ⟨_, _, file, describes⟩
  | date instant now fresh writes =>
      obtain ⟨file, here, dated⟩ := Option.bind_eq_some_iff.mp taken
      rcases described with absent | ⟨other, desc, there, describes⟩
      · rw [absent] at here
        cases here
      · cases there.symm.trans here
        obtain ⟨served, read, starts⟩ :=
          startsFrom_get here describes sizes now
        unfold FDRepository.setLastModified at dated
        rw [read] at dated
        dsimp only at dated
        cases redated : served.setLastModified instant with
        | error failure =>
            rw [redated] at dated
            cases dated
        | ok changed =>
            rw [redated] at dated
            dsimp only at dated
            split at dated
            · rename_i texts response saved
              cases dated
              have writable := Writable.setLastModified starts.writable
                redated
              obtain ⟨_, described⟩ := writable.save name saved
              exact .inr ⟨_, _, rfl, described⟩
            · cases dated

/-- A primary without mirrors and without a local cache. -/
def alone : FDRepository :=
  { key := "tg:1"
    mirrorKeys := none
    localVersions := fun _ => false
    key_normal := normalizeStoreKey_tg }

def noMirrors : MirrorWrites :=
  { strict := false, edit := fun _ _ => .notFound, send := fun _ => none }

/-- An upload of one message. -/
def oneMessage (versionId : String) (messageId now : Int) : FileAction :=
  .upload (.sent [{ messageId := messageId, size := 1 }]) versionId
    ⟨now, false⟩ 9 noMirrors

end FileHistory

end Tgdcfs
