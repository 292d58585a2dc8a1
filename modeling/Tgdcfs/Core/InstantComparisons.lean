import Tgdcfs.Core.FileCopyContent

/-!
# Comparing the dates of a stored descriptor

A version without a positive date is read as dated at the epoch, an aware
instant; every other instant is naive.  Operations that order instants raise
where one of each kind meet.  This module says for which stored descriptors
that happens, operation by operation.
-/

namespace Tgdcfs

open Lib

namespace DateTime

theorem before_eq_none_iff (left right : DateTime) :
    left.before right = none ↔ left.aware ≠ right.aware := by
  unfold before
  split
  · rename_i same
    simp [same]
  · rename_i different
    simp [different]

theorem before_of_same {left right : DateTime}
    (same : left.aware = right.aware) :
    left.before right = some (decide (left.ts < right.ts)) :=
  if_pos same

end DateTime

/-- A version of a descriptor that was read: naive if and only if its date is
positive. -/
def TGFSFileVersion.Read (version : TGFSFileVersion) : Prop :=
  version.updatedAt.aware = false ↔ 0 < version.updatedAtTimestamp

theorem fromDict_read {data : VersionSerialized} {version : TGFSFileVersion}
    (read : TGFSFileVersion.fromDict data = .ok version) : version.Read := by
  have instant : version.updatedAt =
      TGFSFileVersion.storedInstant data.updatedAt := by
    obtain ⟨messageIds, _, rest⟩ := bind_ok read
    obtain ⟨kept, _, rest⟩ := bind_ok rest
    obtain ⟨copies, _, made⟩ := bind_ok rest
    cases made
    rfl
  unfold TGFSFileVersion.Read TGFSFileVersion.updatedAtTimestamp
  rw [instant, TGFSFileVersion.storedInstant]
  split
  · rename_i dated
    simp [DateTime.ts, dated]
  · simp [FIRST_DAY_OF_EPOCH, DateTime.ts]

namespace TGFSFileDesc

variable {desc : TGFSFileDesc}

/-- What reading a descriptor gives. -/
structure Loaded (desc : TGFSFileDesc) : Prop where
  pointed : Pointed desc
  read : ∀ version ∈ desc.versions.values, version.Read
  created : desc.createdAt.aware = false
  pointer : desc.latestVersionId = derivedLatest desc.versions.values

theorem firstNewest_le (best : TGFSFileVersion)
    (rest : List TGFSFileVersion) :
    ∀ version ∈ best :: rest, version.updatedAtTimestamp ≤
      (firstNewest best rest).updatedAtTimestamp := by
  induction rest generalizing best with
  | nil => simp [firstNewest]
  | cons next rest induction =>
      intro version member
      rw [firstNewest]
      split
      · rename_i older
        have top := induction next
        rcases List.mem_cons.mp member with rfl | later
        · have first := top next List.mem_cons_self
          omega
        · exact top version later
      · rename_i newer
        have top := induction best
        rcases List.mem_cons.mp member with rfl | later
        · exact top _ List.mem_cons_self
        · rcases List.mem_cons.mp later with rfl | behind
          · have first := top best List.mem_cons_self
            omega
          · exact top version (List.mem_cons_of_mem best behind)

theorem fromDict_loaded {data : DescSerialized} {name : Name} {now : Int}
    (read : fromDict data name ⟨now, false⟩ = .ok desc) : desc.Loaded := by
  have pointed := FDRepository.fromDict_pointed read
  obtain ⟨parsed, versions, made⟩ := bind_ok read
  cases made
  refine ⟨pointed, ?_, rfl, rfl⟩
  intro version member
  obtain ⟨item, listed, rfl⟩ := List.mem_map.mp member
  obtain ⟨source, given, same⟩ :=
    List.mem_map.mp (Dict.mem_of_mem_ofList listed)
  subst same
  obtain ⟨stored, _, answer⟩ := mem_of_mapM_ok versions given
  exact fromDict_read answer

theorem Loaded.latest (loaded : desc.Loaded)
    (valid : desc.latestVersionId ≠ INVALID_VERSION_ID) :
    ∃ latest, desc.versions.get? desc.latestVersionId = some latest ∧
      ∀ version ∈ desc.versions.values,
        version.updatedAtTimestamp ≤ latest.updatedAtTimestamp := by
  have pointer := loaded.pointer
  cases values : desc.versions.values with
  | nil =>
      rw [values] at pointer
      exact (valid pointer).elim
  | cons first rest =>
      rw [values] at pointer
      have chosen := firstNewest_mem first rest
      rw [← values] at chosen
      refine ⟨_, ?_, firstNewest_le first rest⟩
      rw [pointer]
      exact Keyed.get?_id loaded.pointed.keyed chosen

/-- The pointer leads to a version with a naive date, if to any. -/
def NaivePointer (desc : TGFSFileDesc) : Prop :=
  desc.latestVersionId = INVALID_VERSION_ID ∨
    ∃ latest, desc.versions.get? desc.latestVersionId = some latest ∧
      latest.updatedAt.aware = false

variable {version : TGFSFileVersion}

theorem addVersion_of_supersedes {latest older : Bool}
    (decided : desc.supersedes version = .ok latest)
    (compared : version.updatedAt.before desc.createdAt = some older) :
    desc.addVersion version = .ok
      { desc with
        versions := desc.versions.set version.id version
        latestVersionId :=
          if latest then version.id else desc.latestVersionId
        createdAt := if older then version.updatedAt else desc.createdAt } := by
  unfold addVersion
  rw [decided, compared]
  rfl

theorem addVersion_naive (created : desc.createdAt.aware = false)
    (naive : version.updatedAt.aware = false) (pointer : desc.NaivePointer) :
    ∃ added, desc.addVersion version = .ok added ∧
      added.createdAt.aware = false ∧ added.NaivePointer := by
  have older := DateTime.before_of_same (naive.trans created.symm)
  have inserted : (desc.versions.set version.id version).get? version.id =
      some version := by rw [Dict.get?_set, if_pos rfl]
  have decides : ∃ latest, desc.supersedes version = .ok latest ∧
      (latest = false → ∃ old,
        (desc.versions.set version.id version).get? desc.latestVersionId =
          some old ∧ old.updatedAt.aware = false) := by
    unfold supersedes
    split
    · exact ⟨true, rfl, fun no => nomatch no⟩
    · rename_i valid
      obtain ⟨old, found, oldNaive⟩ := pointer.resolve_left valid
      have present : ∃ current,
          (desc.versions.set version.id version).get? desc.latestVersionId =
            some current ∧ current.updatedAt.aware = false := by
        rw [Dict.get?_set]
        split
        · exact ⟨version, rfl, naive⟩
        · exact ⟨old, found, oldNaive⟩
      obtain ⟨current, here, currentNaive⟩ := present
      rw [here]
      dsimp only
      rw [DateTime.before_of_same (naive.trans currentNaive.symm)]
      exact ⟨_, rfl, fun _ => ⟨current, rfl, currentNaive⟩⟩
  obtain ⟨latest, decided, kept⟩ := decides
  refine ⟨_, addVersion_of_supersedes decided older, ?_, ?_⟩
  · dsimp only
    split
    · exact naive
    · exact created
  · right
    cases latest with
    | true => exact ⟨version, inserted, naive⟩
    | false => exact kept rfl

/-- An aware version raises at the latest where it meets the creation
date. -/
theorem addVersion_aware (created : desc.createdAt.aware = false)
    (aware : version.updatedAt.aware = true) (pointer : desc.NaivePointer) :
    desc.addVersion version = .error .typeError := by
  have raises : version.updatedAt.before desc.createdAt = none := by
    rw [DateTime.before_eq_none_iff, aware, created]
    exact Bool.noConfusion
  have decides : desc.supersedes version = .error .typeError ∨
      ∃ latest, desc.supersedes version = .ok latest := by
    unfold supersedes
    split
    · exact .inr ⟨true, rfl⟩
    · rename_i valid
      obtain ⟨old, found, _⟩ := pointer.resolve_left valid
      have present : ∃ current,
          (desc.versions.set version.id version).get? desc.latestVersionId =
            some current := by
        rw [Dict.get?_set]
        split
        · exact ⟨version, rfl⟩
        · exact ⟨old, found⟩
      obtain ⟨current, here⟩ := present
      rw [here]
      dsimp only
      split
      · exact .inl rfl
      · exact .inr ⟨_, rfl⟩
  unfold addVersion
  rcases decides with failure | ⟨latest, decided⟩
  · rw [failure]
    rfl
  · rw [decided, raises]
    rfl

theorem Loaded.dated (loaded : desc.Loaded)
    (member : version ∈ desc.versions.values) :
    version.updatedAt.aware = false ↔ 0 < version.updatedAtTimestamp :=
  loaded.read version member

theorem Loaded.addVersion_iff (loaded : desc.Loaded)
    (naive : version.updatedAt.aware = false)
    (fresh : desc.versions.contains version.id = false) :
    desc.addVersion version ≠ .error .typeError ↔
      desc.latestVersionId = INVALID_VERSION_ID ∨
        ∃ old ∈ desc.versions.values, 0 < old.updatedAtTimestamp := by
  constructor
  · intro accepted
    by_contra undated
    rw [not_or] at undated
    obtain ⟨valid, none⟩ := undated
    obtain ⟨latest, found, _⟩ := loaded.latest valid
    apply accepted
    have listed := (Dict.mem_values_iff _ latest).mpr ⟨_, found⟩
    have aware : latest.updatedAt.aware = true := by
      rw [← Bool.not_eq_false, loaded.dated listed]
      exact fun dated => none ⟨latest, listed, dated⟩
    have other : desc.latestVersionId ≠ version.id := by
      intro same
      rw [Dict.contains, ← same, found] at fresh
      cases fresh
    have raises : version.updatedAt.before latest.updatedAt = Option.none := by
      rw [DateTime.before_eq_none_iff, naive, aware]
      exact Bool.noConfusion
    have failure : desc.supersedes version = .error .typeError := by
      unfold supersedes
      rw [if_neg valid, Dict.get?_set, if_neg other, found]
      dsimp only
      rw [raises]
    unfold addVersion
    rw [failure]
    rfl
  · intro dated
    have pointer : desc.NaivePointer := by
      rcases dated with invalid | ⟨old, member, positive⟩
      · exact .inl invalid
      · by_cases valid : desc.latestVersionId = INVALID_VERSION_ID
        · exact .inl valid
        · obtain ⟨latest, found, newest⟩ := loaded.latest valid
          refine .inr ⟨latest, found, ?_⟩
          have listed := (Dict.mem_values_iff _ latest).mpr ⟨_, found⟩
          rw [loaded.dated listed]
          exact positive.trans_le (newest old member)
    obtain ⟨added, ok, _⟩ := addVersion_naive loaded.created naive pointer
    rw [ok]
    simp

theorem lastNewest_typeError_iff (best : String × TGFSFileVersion)
    (rest : List (String × TGFSFileVersion)) :
    lastNewest best rest = .error .typeError ↔
      ∃ item ∈ rest, item.2.updatedAt.aware ≠ best.2.updatedAt.aware := by
  induction rest generalizing best with
  | nil => simp [lastNewest]
  | cons item rest induction =>
      rw [lastNewest]
      split
      · rename_i raises
        rw [DateTime.before_eq_none_iff] at raises
        exact iff_of_true rfl ⟨item, List.mem_cons_self, raises⟩
      · rename_i compared
        have same : item.2.updatedAt.aware = best.2.updatedAt.aware := by
          by_contra different
          rw [(DateTime.before_eq_none_iff _ _).mpr different] at compared
          cases compared
        simp [induction, same]
      · rename_i compared
        have same : item.2.updatedAt.aware = best.2.updatedAt.aware := by
          by_contra different
          rw [(DateTime.before_eq_none_iff _ _).mpr different] at compared
          cases compared
        simp [induction, same]

/-- Two values differ if and only if one differs from the first. -/
theorem differ_iff {α β : Type} (look : α → β) (first : α) (rest : List α) :
    (∃ left ∈ first :: rest, ∃ right ∈ first :: rest,
      look left ≠ look right) ↔ ∃ item ∈ rest, look item ≠ look first := by
  constructor
  · rintro ⟨left, inLeft, right, inRight, different⟩
    by_contra same
    have alike : ∀ item ∈ first :: rest, look item = look first := by
      intro item member
      rcases List.mem_cons.mp member with rfl | later
      · rfl
      · by_contra other
        exact same ⟨item, later, other⟩
    exact different ((alike left inLeft).trans (alike right inRight).symm)
  · rintro ⟨item, member, different⟩
    exact ⟨item, List.mem_cons_of_mem first member, first,
      List.mem_cons_self, different⟩

/-- The versions that are left have dates of both kinds. -/
def Mixed (versions : List TGFSFileVersion) : Prop :=
  ∃ left ∈ versions, ∃ right ∈ versions,
    left.updatedAt.aware ≠ right.updatedAt.aware

theorem deleteVersion_typeError_iff (versionId : String) :
    desc.deleteVersion versionId = .error .typeError ↔
      desc.versions.contains versionId ∧
        versionId = desc.latestVersionId ∧
          Mixed (desc.versions.erase versionId).values := by
  unfold deleteVersion
  cases listed : desc.versions.contains versionId with
  | false => simp
  | true =>
      rw [Bool.not_true, if_neg Bool.false_ne_true]
      by_cases latest : versionId = desc.latestVersionId
      · rw [if_neg fun different => different latest]
        cases items : (desc.versions.erase versionId).items with
        | nil => simp [items, Dict.values, Mixed]
        | cons item rest =>
            have mixed : Mixed (desc.versions.erase versionId).values ↔
                lastNewest item rest = .error .typeError := by
              rw [lastNewest_typeError_iff, Mixed, Dict.values, items,
                List.map_cons, differ_iff]
              simp only [List.mem_map, exists_exists_and_eq_and]
            rw [mixed]
            dsimp only
            cases lastNewest item rest with
            | error failure => simp [Except.map, latest]
            | ok key => simp [Except.map]
      · rw [if_pos latest]
        simp [latest]

theorem Loaded.deleteVersion_iff (loaded : desc.Loaded)
    (versionId : String) :
    desc.deleteVersion versionId ≠ .error .typeError ↔
      (desc.versions.contains versionId →
        versionId = desc.latestVersionId →
          (∀ version ∈ (desc.versions.erase versionId).values,
            0 < version.updatedAtTimestamp) ∨
          ∀ version ∈ (desc.versions.erase versionId).values,
            ¬0 < version.updatedAtTimestamp) := by
  rw [Ne, deleteVersion_typeError_iff, not_and, not_and]
  have kept : ∀ version ∈ (desc.versions.erase versionId).values,
      (version.updatedAt.aware = false ↔
        0 < version.updatedAtTimestamp) := by
    intro version member
    obtain ⟨key, found⟩ := (Dict.mem_values_iff _ version).mp member
    exact loaded.dated ((Dict.mem_values_iff _ version).mpr
      ⟨key, Dict.get?_of_erase found⟩)
  apply forall_congr'
  intro listed
  apply forall_congr'
  intro latest
  constructor
  · intro unmixed
    by_contra neither
    rw [not_or] at neither
    obtain ⟨dateless, others⟩ := neither
    push Not at dateless others
    obtain ⟨left, inLeft, undated⟩ := dateless
    obtain ⟨right, inRight, dated⟩ := others
    apply unmixed
    refine ⟨left, inLeft, right, inRight, ?_⟩
    intro same
    have naive := (kept right inRight).mpr dated
    rw [← same, kept left inLeft] at naive
    exact naive.not_ge undated
  · rintro uniform ⟨left, inLeft, right, inRight, different⟩
    apply different
    rcases uniform with dated | undated
    · rw [(kept left inLeft).mpr (dated left inLeft),
        (kept right inRight).mpr (dated right inRight)]
    · have first := mt (kept left inLeft).mp (undated left inLeft)
      have second := mt (kept right inRight).mp (undated right inRight)
      rw [Bool.not_eq_false] at first second
      rw [first, second]

theorem setLastModified_ne_typeError (instant : DateTime) :
    desc.setLastModified instant ≠ .error .typeError := by
  unfold setLastModified
  split
  · simp
  · split
    · simp
    · dsimp only
      split
      · simp
      · simp

end TGFSFileDesc

namespace FileApi

open TGFSFileDesc

variable {api : FileApi} {calls : CopyCalls} {desc : TGFSFileDesc}

theorem copiedVersion_updatedAt {version copy : TGFSFileVersion}
    {versionId : String} {ids : List Int}
    (copied : api.copiedVersion calls version versionId ids = some copy) :
    copy.updatedAt = version.updatedAt := by
  unfold copiedVersion at copied
  dsimp only at copied
  split at copied
  · obtain ⟨copies, _, rfl⟩ := Option.map_eq_some_iff.mp copied
    rfl
  · cases copied
    rfl

theorem duplicateFrom_naive {versions : List TGFSFileVersion} {count : Nat}
    {newParts : List Int} (created : desc.createdAt.aware = false)
    (pointer : desc.NaivePointer)
    (naive : ∀ version ∈ versions, version.updatedAt.aware = false) :
    api.duplicateFrom calls versions count newParts desc ≠
      .error (.desc .typeError) := by
  induction versions generalizing count newParts desc with
  | nil => simp [duplicateFrom]
  | cons version versions induction =>
      rw [duplicateFrom]
      split
      · simp
      · rename_i copy made
        have copyNaive : copy.updatedAt.aware = false := by
          rw [copiedVersion_updatedAt made]
          exact naive version List.mem_cons_self
        obtain ⟨added, ok, addedCreated, addedPointer⟩ :=
          addVersion_naive created copyNaive pointer
        rw [ok]
        apply induction addedCreated addedPointer
        intro other member
        exact naive other (List.mem_cons_of_mem version member)

/-- Calls that always answer and mirror nothing. -/
def plainCalls : CopyCalls :=
  { copyingCalls with copyWithin := some }

theorem copiedVersion_plain (api : FileApi) (version : TGFSFileVersion)
    (versionId : String) (ids : List Int) :
    ∃ copy, api.copiedVersion plainCalls version versionId ids =
      some copy := by
  unfold copiedVersion
  dsimp only
  rw [if_neg fun mirrored => Bool.false_ne_true mirrored.2.1]
  exact ⟨_, rfl⟩

theorem duplicateFrom_aware {versions : List TGFSFileVersion} {count : Nat}
    {newParts : List Int} (created : desc.createdAt.aware = false)
    (pointer : desc.NaivePointer) {undated : TGFSFileVersion}
    (member : undated ∈ versions) (aware : undated.updatedAt.aware = true) :
    api.duplicateFrom plainCalls versions count newParts desc =
      .error (.desc .typeError) := by
  induction versions generalizing count newParts desc with
  | nil => cases member
  | cons version versions induction =>
      obtain ⟨copy, made⟩ := copiedVersion_plain api version
        (plainCalls.newVersionId count)
        (newParts.take version.messageIds.length)
      rw [duplicateFrom, made]
      dsimp only
      have same := copiedVersion_updatedAt made
      cases kind : version.updatedAt.aware with
      | true =>
          rw [← same] at kind
          rw [addVersion_aware created kind pointer]
      | false =>
          rw [← same] at kind
          obtain ⟨added, ok, addedCreated, addedPointer⟩ :=
            addVersion_naive created kind pointer
          rw [ok]
          apply induction addedCreated addedPointer
          rcases List.mem_cons.mp member with rfl | later
          · rw [← same, kind] at aware
            cases aware
          · exact later

theorem duplicateVersions_iff (loaded : desc.Loaded) (now : Int) :
    (∀ calls, api.duplicateVersions calls ⟨now, false⟩ desc ≠
      .error (.desc .typeError)) ↔
        ∀ version ∈ desc.versions.values, 0 < version.updatedAtTimestamp := by
  have sorted := desc.sortedVersions_perm
  constructor
  · intro accepted version member
    by_contra undated
    have aware : version.updatedAt.aware = true := by
      rw [← Bool.not_eq_false, loaded.dated member]
      exact undated
    apply accepted plainCalls
    unfold duplicateVersions
    change Except.map _ (api.duplicateFrom plainCalls desc.sortedVersions 0
      _ _) = _
    rw [duplicateFrom_aware rfl (.inl rfl) (sorted.mem_iff.mpr member) aware]
    rfl
  · intro dated calls failure
    unfold duplicateVersions at failure
    dsimp only at failure
    split at failure
    · cases failure
    · rename_i newParts _
      have naive : ∀ version ∈ desc.sortedVersions,
          version.updatedAt.aware = false := by
        intro version member
        have listed := sorted.mem_iff.mp member
        exact (loaded.dated listed).mpr (dated version listed)
      have raisesNot : api.duplicateFrom calls desc.sortedVersions 0
          newParts { name := desc.name, createdAt := ⟨now, false⟩ } ≠
            .error (.desc .typeError) :=
        duplicateFrom_naive rfl (.inl rfl) naive
      revert failure
      cases outcome : api.duplicateFrom calls desc.sortedVersions 0 newParts
          { name := desc.name, createdAt := ⟨now, false⟩ } with
      | ok copied =>
          intro same
          cases same
      | error failure =>
          intro same
          cases same
          exact raisesNot outcome

/-- Operation by operation, the stored descriptors on which nothing raises
because two instants cannot be ordered.  A new version is dated naively, as
the creation date of a descriptor that was read is. -/
theorem operations_order_instants (data : DescSerialized) (name : Name)
    (now : Int) (desc : TGFSFileDesc)
    (read : fromDict data name ⟨now, false⟩ = .ok desc) :
    (∀ version : TGFSFileVersion, version.updatedAt.aware = false →
      desc.versions.contains version.id = false →
        (desc.addVersion version ≠ .error .typeError ↔
          desc.latestVersionId = INVALID_VERSION_ID ∨
            ∃ old ∈ desc.versions.values, 0 < old.updatedAtTimestamp)) ∧
    (∀ versionId,
      desc.deleteVersion versionId ≠ .error .typeError ↔
        (desc.versions.contains versionId →
          versionId = desc.latestVersionId →
            (∀ version ∈ (desc.versions.erase versionId).values,
              0 < version.updatedAtTimestamp) ∨
            ∀ version ∈ (desc.versions.erase versionId).values,
              ¬0 < version.updatedAtTimestamp)) ∧
    (∀ instant, desc.setLastModified instant ≠ .error .typeError) ∧
    ∀ (api : FileApi) (later : Int),
      (∀ calls, api.duplicateVersions calls ⟨later, false⟩ desc ≠
        .error (.desc .typeError)) ↔
          ∀ version ∈ desc.versions.values,
            0 < version.updatedAtTimestamp := by
  have loaded := fromDict_loaded read
  refine ⟨?_, loaded.deleteVersion_iff, setLastModified_ne_typeError, ?_⟩
  · intro version naive fresh
    exact loaded.addVersion_iff naive fresh
  · intro api later
    exact duplicateVersions_iff loaded later

/-- Versions with the given dates. -/
def datedText (dates : List (String × Int)) : DescSerialized :=
  { versions := dates.map fun date =>
      { id := date.1, updatedAt := date.2, messageIds := some [1] } }

/-- The operations on a descriptor with two positive dates. -/
theorem operations_order_instants_dated :
    ∃ desc, fromDict (datedText [("v", 5), ("w", 7)]) ['a'] ⟨9, false⟩ =
        .ok desc ∧
      desc.addVersion { id := "x", updatedAt := ⟨8, false⟩ } ≠
        .error .typeError ∧
      desc.deleteVersion "w" ≠ .error .typeError ∧
      copyingApi.duplicateVersions copyingCalls ⟨9, false⟩ desc ≠
        .error (.desc .typeError) := by
  refine ⟨_, rfl, ?_, ?_, ?_⟩
  · apply ((operations_order_instants (datedText [("v", 5), ("w", 7)]) ['a']
      9 _ rfl).1 _ rfl (by decide +kernel)).mpr
    right
    decide +kernel
  · apply ((operations_order_instants (datedText [("v", 5), ("w", 7)]) ['a']
      9 _ rfl).2.1 "w").mpr
    intro _ _
    left
    decide +kernel
  · apply ((operations_order_instants (datedText [("v", 5), ("w", 7)]) ['a']
      9 _ rfl).2.2.2 copyingApi 9).mpr
    decide +kernel

/-- A version without a date stops a new version when it is alone, the
deletion of the latest version when two dated ones are beside it, and every
copy. -/
theorem undated_version_raises :
    (∃ desc, fromDict (datedText [("v", 0)]) ['a'] ⟨9, false⟩ = .ok desc ∧
      desc.addVersion { id := "x", updatedAt := ⟨8, false⟩ } =
        .error .typeError ∧
      copyingApi.duplicateVersions plainCalls ⟨9, false⟩ desc =
        .error (.desc .typeError)) ∧
    ∃ desc, fromDict (datedText [("u", 0), ("v", 5), ("w", 7)]) ['a']
        ⟨9, false⟩ = .ok desc ∧
      desc.deleteVersion "w" = .error .typeError :=
  ⟨⟨_, rfl, rfl, rfl⟩, _, rfl, rfl⟩

end FileApi

end Tgdcfs
