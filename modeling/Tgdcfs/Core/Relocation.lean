import Tgdcfs.Core.Version

/-!
# Relocation keeps every copy

When another store becomes the primary, the ids of a version move between the
parts, the aligned mirrors and the replicas.  Over any sequence of primaries
no store loses its copy, no store is given ids it did not have, and a store
that holds a copy owns the version once it is the primary.
-/

namespace Tgdcfs.TGFSFileVersion

open Lib

variable {version : TGFSFileVersion} {owner key : String}

/-- A list of ids that is recorded for a store, in any of the three places. -/
def Records (version : TGFSFileVersion) (key : String) (ids : List Int) :
    Prop :=
  (version.store = some key ∧ ids = version.messageIds) ∨
    version.mirrors.get? key = some ids ∨
    ∃ replica, version.replicas.get? key = some replica ∧
      ids = replica.messageIds

/-- A complete copy of the version in a store, with its part layout. -/
def HoldsCopy (version : TGFSFileVersion) (key : String) (ids : List Int)
    (sizes : List Nat) : Prop :=
  (version.store = some key ∧ ids = version.messageIds ∧ ids ≠ [] ∧
      sizes = version.partSizes) ∨
    (version.mirrors.get? key = some ids ∧
      aligned ids version.messageIds = true ∧ sizes = version.partSizes) ∨
    ∃ replica, version.replicas.get? key = some replica ∧
      ids = replica.messageIds ∧ ids ≠ [] ∧ sizes = replica.partSizes

theorem hasCopyIn_iff (version : TGFSFileVersion) (key : String) :
    version.hasCopyIn key = true ↔
      ∃ ids sizes, version.HoldsCopy key ids sizes := by
  unfold hasCopyIn HoldsCopy isValid
  simp only [Bool.or_eq_true, Bool.and_eq_true, decide_eq_true_eq,
    Bool.not_eq_true', List.isEmpty_eq_false_iff, Option.any_eq_true]
  constructor
  · rintro ((⟨owned, valid⟩ | ⟨ids, found, covers⟩) | ⟨replica, found, filled⟩)
    · exact ⟨_, _, .inl ⟨owned, rfl, valid, rfl⟩⟩
    · exact ⟨ids, _, .inr (.inl ⟨found, covers, rfl⟩)⟩
    · exact ⟨_, _, .inr (.inr ⟨replica, found, rfl, filled, rfl⟩)⟩
  · rintro ⟨ids, sizes, ⟨owned, rfl, valid, _⟩ | ⟨found, covers, _⟩ |
      ⟨replica, found, rfl, filled, _⟩⟩
    · exact .inl (.inl ⟨owned, valid⟩)
    · exact .inl (.inr ⟨ids, found, covers⟩)
    · exact .inr ⟨replica, found, filled⟩

variable {ids : List Int}

theorem aligned_ne_nil {messageIds : List Int}
    (covers : aligned ids messageIds = true) : ids ≠ [] := by
  rintro rfl
  simp [aligned] at covers

theorem aligned_congr {messageIds others : List Int}
    (length : messageIds.length = others.length) :
    aligned ids messageIds = aligned ids others := by
  simp [aligned, length]

/-- What is found among the replicas afterwards was a complete aligned mirror
or was there before. -/
theorem mirrorsToReplicas_get (oldIds : List Int) (sizes : List Nat)
    (items : List (String × List Int)) (replicas : Dict String Replica)
    (key : String) (replica : Replica)
    (found : (mirrorsToReplicas oldIds sizes items replicas).get? key =
      some replica) :
    (∃ ids, (key, ids) ∈ items ∧ ids.length = oldIds.length ∧
      replica = ⟨ids, sizes⟩) ∨ replicas.get? key = some replica := by
  induction items generalizing replicas with
  | nil => exact .inr found
  | cons item items induction =>
      obtain ⟨itemKey, ids⟩ := item
      rcases induction _ found with ⟨others, member, length, rfl⟩ | before
      · exact .inl ⟨others, List.mem_cons_of_mem _ member, length, rfl⟩
      · split at before
        · rename_i complete
          rw [Dict.get?_set] at before
          split at before
          · rename_i same
            subst same
            refine .inl ⟨ids, List.mem_cons_self, complete.1, ?_⟩
            exact (Option.some.inj before).symm
          · exact .inr before
        · exact .inr before

theorem mirrorsToReplicas_copy {oldIds : List Int} (nonempty : oldIds ≠ [])
    (sizes : List Nat) (items : List (String × List Int))
    (replicas : Dict String Replica) (key : String)
    (there : (∃ replica, replicas.get? key = some replica ∧
        replica.messageIds ≠ []) ∨
      ∃ ids, (key, ids) ∈ items ∧ ids.length = oldIds.length ∧
        ids.all (0 < ·) = true) :
    ∃ replica,
      (mirrorsToReplicas oldIds sizes items replicas).get? key =
        some replica ∧ replica.messageIds ≠ [] := by
  induction items generalizing replicas with
  | nil =>
      rcases there with there | ⟨_, member, _⟩
      · exact there
      · cases member
  | cons item items induction =>
      obtain ⟨itemKey, ids⟩ := item
      have whole : ids.length = oldIds.length → ids ≠ [] := by
        rintro length rfl
        exact nonempty (List.length_eq_zero_iff.mp length.symm)
      apply induction
      rcases there with there | ⟨others, member, complete⟩
      · left
        split
        · rename_i complete
          rw [Dict.get?_set]
          split
          · exact ⟨_, rfl, whole complete.1⟩
          · exact there
        · exact there
      · rcases List.mem_cons.mp member with same | member
        · cases same
          left
          rw [if_pos complete, Dict.get?_set, if_pos rfl]
          exact ⟨_, rfl, whole complete.1⟩
        · exact .inr ⟨others, member, complete⟩

/-- The ids of the old owner are found among the mirrors as well. -/
def remembered (version : TGFSFileVersion) (owner : String) :
    Dict String (List Int) :=
  version.mirrors.setDefault owner version.messageIds

/-- What is left when the new primary has no complete copy. -/
def keptInPlace (version : TGFSFileVersion) (owner key : String) :
    TGFSFileVersion :=
  { version with
    mirrors := version.remembered owner
    replicas := version.replicas.erase key }

variable {key : String}

theorem remembered_get (version : TGFSFileVersion) {owner : String}
    (other : key ≠ owner) :
    (version.remembered owner).get? key = version.mirrors.get? key := by
  rw [remembered, Dict.get?_setDefault, if_neg other]

theorem relocate_cases (recorded : version.store = some owner)
    (other : key ≠ owner) :
    (∃ ids, version.mirrors.get? key = some ids ∧
      aligned ids version.messageIds = true ∧
      version.relocate key =
        { version with
          messageIds := ids
          mirrors := (version.remembered owner).erase key
          store := some key }) ∨
    (∃ replica, version.replicas.get? key = some replica ∧
      replica.messageIds ≠ [] ∧
      (∀ ids, version.mirrors.get? key = some ids →
        aligned ids version.messageIds = false) ∧
      version.relocate key =
        (version.keptInPlace owner key).adoptReplica owner key replica) ∨
    ((∀ ids, version.mirrors.get? key = some ids →
        aligned ids version.messageIds = false) ∧
      (∀ replica, version.replicas.get? key = some replica →
        replica.messageIds = []) ∧
      version.relocate key = version.keptInPlace owner key) := by
  have apart : owner ≠ key := Ne.symm other
  cases covered : (version.mirrors.get? key).filter
      (aligned · version.messageIds) with
  | some ids =>
      obtain ⟨found, covers⟩ := Option.filter_eq_some_iff.mp covered
      rw [← version.remembered_get other] at covered
      refine .inl ⟨ids, found, covers, ?_⟩
      unfold remembered at covered ⊢
      simp only [relocate, recorded, if_neg apart, covered]
  | none =>
      have uncovered : ∀ ids, version.mirrors.get? key = some ids →
          aligned ids version.messageIds = false := by
        intro ids found
        simpa [found] using covered
      rw [← version.remembered_get other] at covered
      cases adopted : (version.replicas.get? key).filter
          fun replica => !replica.messageIds.isEmpty with
      | some replica =>
          obtain ⟨found, nonempty⟩ := Option.filter_eq_some_iff.mp adopted
          refine .inr (.inl ⟨replica, found, by simpa using nonempty,
            uncovered, ?_⟩)
          unfold keptInPlace remembered at *
          simp only [relocate, recorded, if_neg apart, covered, adopted]
      | none =>
          refine .inr (.inr ⟨uncovered, ?_, ?_⟩)
          · intro replica found
            simpa [found] using adopted
          · unfold keptInPlace remembered at *
            simp only [relocate, recorded, if_neg apart, covered, adopted]

/-- The versions that relocation meets: the mirror entry of the owner repeats
the parts, and ids that are no message ids occur only once every mirror has
been turned into a replica. -/
structure Relocatable (version : TGFSFileVersion) (owner : String) :
    Prop where
  recorded : version.store = some owner
  nonempty : version.messageIds ≠ []
  own : ∀ ids, version.mirrors.get? owner = some ids →
    ids = version.messageIds
  positive : (∀ id ∈ version.messageIds, 0 < id) ∨
    ∀ key ids, version.mirrors.get? key = some ids → key = owner

namespace Relocatable

variable (relocatable : version.Relocatable owner)
include relocatable

theorem remembered_own :
    (version.remembered owner).get? owner = some version.messageIds := by
  rw [remembered, Dict.get?_setDefault, if_pos rfl]
  cases found : version.mirrors.get? owner with
  | none => rfl
  | some ids => rw [relocatable.own ids found, Option.getD_some]

theorem remembered_records {ids : List Int}
    (found : (version.remembered owner).get? key = some ids) :
    version.Records key ids := by
  by_cases same : key = owner
  · subst same
    rw [relocatable.remembered_own] at found
    exact .inl ⟨relocatable.recorded, (Option.some.inj found).symm⟩
  · rw [version.remembered_get same] at found
    exact .inr (.inl found)

/-- A complete mirror can only be there while the parts are message ids. -/
theorem positive_of_aligned (other : key ≠ owner) {ids : List Int}
    (found : version.mirrors.get? key = some ids) :
    ∀ id ∈ version.messageIds, 0 < id := by
  rcases relocatable.positive with positive | onlyOwn
  · exact positive
  · exact absurd (onlyOwn key ids found) other

theorem aligned_self (positive : ∀ id ∈ version.messageIds, 0 < id)
    {others : List Int} (length : version.messageIds.length = others.length) :
    aligned version.messageIds others = true := by
  simpa [aligned, length, relocatable.nonempty] using positive

end Relocatable

variable {other : String}

variable (relocatable : version.Relocatable owner)
include relocatable

/-- Adopting a replica keeps the copies of the other stores. -/
theorem adoptReplica_get (replica : Replica) (different : other ≠ key)
    {found : Replica}
    (there : ((version.keptInPlace owner key).adoptReplica owner key
      replica).replicas.get? other = some found) :
    (∃ ids, (version.remembered owner).get? other = some ids ∧
        ids.length = version.messageIds.length ∧
        found = ⟨ids, version.partSizes⟩) ∨
      version.replicas.get? other = some found := by
  have oldIds := relocatable.remembered_own
  simp only [adoptReplica, keptInPlace, oldIds, Option.getD_some] at there
  rcases mirrorsToReplicas_get _ _ _ _ _ _ there with
    ⟨ids, member, length, equal⟩ | before
  · have kept := ((version.remembered owner).mem_items_erase owner _).mp member
    refine .inl ⟨ids, ?_, length, equal⟩
    exact (Dict.get?_eq_some_iff _ _ _).mpr kept.1
  · rw [Dict.get?_set] at before
    split at before
    · rename_i same
      subst same
      exact .inl ⟨_, oldIds, rfl, (Option.some.inj before).symm⟩
    · rw [Dict.get?_erase, if_neg different] at before
      exact .inr before

theorem adoptReplica_copy (replica : Replica) (different : other ≠ key)
    (copied : version.hasCopyIn other = true) :
    ∃ copy, ((version.keptInPlace owner key).adoptReplica owner key
        replica).replicas.get? other = some copy ∧ copy.messageIds ≠ [] := by
  have oldIds := relocatable.remembered_own
  obtain ⟨ids, sizes, holds⟩ := (version.hasCopyIn_iff other).mp copied
  simp only [adoptReplica, keptInPlace, oldIds, Option.getD_some]
  apply mirrorsToReplicas_copy relocatable.nonempty
  by_cases same : other = owner
  · left
    rw [Dict.get?_set, if_pos same]
    exact ⟨_, rfl, relocatable.nonempty⟩
  · rcases holds with ⟨owned, _⟩ | ⟨found, covers, _⟩ |
      ⟨copy, found, equal, nonempty, _⟩
    · exact absurd (Option.some.inj (owned.symm.trans relocatable.recorded))
        same
    · right
      simp only [aligned, Bool.and_eq_true, beq_iff_eq] at covers
      refine ⟨ids, ?_, covers.1.2, covers.2⟩
      rw [Dict.mem_items_erase, ← Dict.get?_eq_some_iff,
        version.remembered_get same]
      exact ⟨found, same⟩
    · left
      rw [Dict.get?_set, if_neg same, Dict.get?_erase, if_neg different]
      exact ⟨copy, found, equal ▸ nonempty⟩

/-- One relocation leads to another version that can be relocated. -/
theorem Relocatable.relocate (key : String) :
    ∃ next, (version.relocate key).Relocatable next := by
  by_cases same : key = owner
  · refine ⟨owner, ?_⟩
    rw [TGFSFileVersion.relocate, relocatable.recorded]
    simpa [same] using relocatable
  · rcases relocate_cases relocatable.recorded same with
      ⟨ids, found, covers, moved⟩ | ⟨replica, _, nonempty, _, moved⟩ |
      ⟨_, _, moved⟩
    · refine ⟨key, ?_⟩
      rw [moved]
      have positive : ∀ id ∈ ids, 0 < id := by
        simp only [aligned, Bool.and_eq_true] at covers
        simpa using covers.2
      refine ⟨rfl, aligned_ne_nil covers, ?_, .inl positive⟩
      intro others still
      rw [Dict.get?_erase, if_pos rfl] at still
      cases still
    · refine ⟨key, ?_⟩
      rw [moved]
      have noMirrors : ∀ (other : String) (ids : List Int),
          ¬(Dict.empty : Dict String (List Int)).get? other = some ids := by
        intro other ids found
        cases found
      refine ⟨rfl, nonempty, ?_, .inr ?_⟩
      · intro ids found
        exact absurd found (noMirrors key ids)
      · intro other ids found
        exact absurd found (noMirrors other ids)
    · refine ⟨owner, ?_⟩
      rw [moved]
      refine ⟨relocatable.recorded, relocatable.nonempty, ?_, ?_⟩
      · intro ids found
        exact Option.some.inj (found.symm.trans relocatable.remembered_own)
      · rcases relocatable.positive with positive | onlyOwn
        · exact .inl positive
        · right
          intro other ids found
          by_contra different
          rw [keptInPlace, version.remembered_get different] at found
          exact different (onlyOwn other ids found)

/-- A relocation records nothing for a store that was not recorded for it. -/
theorem Relocatable.relocate_records
    (records : (version.relocate key).Records other ids) :
    version.Records other ids := by
  by_cases same : key = owner
  · rw [TGFSFileVersion.relocate, relocatable.recorded] at records
    simpa [same] using records
  · rcases relocate_cases relocatable.recorded same with
      ⟨moved, found, _, equal⟩ | ⟨replica, found, _, _, equal⟩ |
      ⟨_, _, equal⟩
    · rw [equal] at records
      rcases records with ⟨owned, rfl⟩ | mirrored | replicated
      · cases owned
        exact .inr (.inl found)
      · rw [Dict.get?_erase] at mirrored
        split at mirrored
        · cases mirrored
        · exact relocatable.remembered_records mirrored
      · exact .inr (.inr replicated)
    · rw [equal] at records
      rcases records with ⟨owned, rfl⟩ | mirrored | ⟨copy, there, rfl⟩
      · cases owned
        exact .inr (.inr ⟨replica, found, rfl⟩)
      · cases mirrored
      · by_cases primary : other = key
        · subst primary
          have oldIds := relocatable.remembered_own
          simp only [adoptReplica, keptInPlace, oldIds,
            Option.getD_some] at there
          rcases mirrorsToReplicas_get _ _ _ _ _ _ there with
            ⟨ids, member, _, rfl⟩ | before
          · have kept := ((version.remembered owner).mem_items_erase owner
              _).mp member
            exact relocatable.remembered_records
              ((Dict.get?_eq_some_iff _ _ _).mpr kept.1)
          · rw [Dict.get?_set, if_neg same, Dict.get?_erase,
              if_pos rfl] at before
            cases before
        · rcases adoptReplica_get relocatable replica primary there with
            ⟨ids, mirrored, _, rfl⟩ | before
          · exact relocatable.remembered_records mirrored
          · exact .inr (.inr ⟨copy, before, rfl⟩)
    · rw [equal] at records
      rcases records with owned | mirrored | ⟨copy, there, rfl⟩
      · exact .inl owned
      · exact relocatable.remembered_records mirrored
      · rw [keptInPlace, Dict.get?_erase] at there
        split at there
        · cases there
        · exact .inr (.inr ⟨copy, there, rfl⟩)

theorem Relocatable.relocate_hasCopyIn
    (copied : version.hasCopyIn other = true) :
    (version.relocate key).hasCopyIn other = true := by
  by_cases same : key = owner
  · rw [TGFSFileVersion.relocate, relocatable.recorded]
    simpa [same] using copied
  · rw [hasCopyIn_iff]
    obtain ⟨ids, sizes, copy⟩ := (version.hasCopyIn_iff other).mp copied
    rcases relocate_cases relocatable.recorded same with
      ⟨moved, found, covers, equal⟩ | ⟨replica, found, nonempty, _, equal⟩ |
      ⟨uncovered, empty, equal⟩
    · rw [equal]
      have length : version.messageIds.length = moved.length := by
        simp only [aligned, Bool.and_eq_true, beq_iff_eq] at covers
        exact covers.1.2.symm
      by_cases primary : other = key
      · exact ⟨moved, _, .inl ⟨by rw [primary], rfl, aligned_ne_nil covers,
          rfl⟩⟩
      · rcases copy with ⟨owned, rfl, _, rfl⟩ | ⟨mirrored, aligns, rfl⟩ |
          replicated
        · have mine : other = owner :=
            Option.some.inj (owned.symm.trans relocatable.recorded)
          refine ⟨version.messageIds, _, .inr (.inl ⟨?_, ?_, rfl⟩)⟩
          · rw [Dict.get?_erase, if_neg primary, mine,
              relocatable.remembered_own]
          · exact relocatable.aligned_self
              (relocatable.positive_of_aligned same found) length
        · refine ⟨ids, _, .inr (.inl ⟨?_, ?_, rfl⟩)⟩
          · rw [Dict.get?_erase, if_neg primary]
            by_cases mine : other = owner
            · subst mine
              rw [relocatable.remembered_own, relocatable.own ids mirrored]
            · rw [version.remembered_get mine]
              exact mirrored
          · rw [← aligned_congr length]
            exact aligns
        · exact ⟨ids, sizes, .inr (.inr replicated)⟩
    · rw [equal]
      by_cases primary : other = key
      · exact ⟨_, _, .inl ⟨by rw [primary]; rfl, rfl, nonempty, rfl⟩⟩
      · obtain ⟨after, still, filled⟩ :=
          adoptReplica_copy relocatable replica primary copied
        exact ⟨_, _, .inr (.inr ⟨after, still, rfl, filled, rfl⟩)⟩
    · rw [equal]
      rcases copy with owned | ⟨mirrored, aligns, rfl⟩ |
        ⟨copy, replicated, rfl, filled, rfl⟩
      · exact ⟨ids, sizes, .inl owned⟩
      · refine ⟨ids, _, .inr (.inl ⟨?_, aligns, rfl⟩)⟩
        by_cases mine : other = owner
        · subst mine
          rw [keptInPlace, relocatable.remembered_own,
            relocatable.own ids mirrored]
        · rw [keptInPlace, version.remembered_get mine]
          exact mirrored
      · refine ⟨_, _, .inr (.inr ⟨copy, ?_, rfl, filled, rfl⟩)⟩
        have different : other ≠ key := by
          rintro rfl
          exact filled (empty copy replicated)
        rw [keptInPlace, Dict.get?_erase, if_neg different]
        exact replicated

/-- A store with a complete copy owns the version once it is the primary. -/
theorem Relocatable.relocate_owns (copied : version.hasCopyIn key = true) :
    (version.relocate key).store = some key ∧
      version.HoldsCopy key (version.relocate key).messageIds
        (version.relocate key).partSizes := by
  by_cases same : key = owner
  · subst same
    have unchanged : version.relocate key = version := by
      simp [TGFSFileVersion.relocate, relocatable.recorded]
    rw [unchanged]
    exact ⟨relocatable.recorded,
      .inl ⟨relocatable.recorded, rfl, relocatable.nonempty, rfl⟩⟩
  · rcases relocate_cases relocatable.recorded same with
      ⟨ids, found, covers, equal⟩ | ⟨replica, found, nonempty, _, equal⟩ |
      ⟨uncovered, empty, equal⟩
    · rw [equal]
      exact ⟨rfl, .inr (.inl ⟨found, covers, rfl⟩)⟩
    · rw [equal]
      exact ⟨rfl, .inr (.inr ⟨replica, found, rfl, nonempty, rfl⟩)⟩
    · obtain ⟨ids, sizes, owned | ⟨found, covers, _⟩ |
        ⟨replica, found, rfl, nonempty, _⟩⟩ := (version.hasCopyIn_iff
          key).mp copied
      · exact absurd (Option.some.inj (owned.1.symm.trans
          relocatable.recorded)) same
      · rw [uncovered ids found] at covers
        cases covers
      · exact absurd (empty replica found) nonempty

theorem Relocatable.relocate_idem (key : String) :
    (version.relocate key).relocate key = version.relocate key := by
  have stays : ∀ moved : TGFSFileVersion, moved.store = some key →
      moved.relocate key = moved := by
    intro moved owned
    simp [TGFSFileVersion.relocate, owned]
  by_cases copied : version.hasCopyIn key = true
  · exact stays _ (relocatable.relocate_owns copied).1
  · by_cases same : key = owner
    · subst same
      rw [stays version relocatable.recorded]
      exact stays version relocatable.recorded
    · rcases relocate_cases relocatable.recorded same with
        ⟨ids, found, covers, equal⟩ | ⟨replica, found, nonempty, _, equal⟩ |
        ⟨uncovered, empty, equal⟩
      · exact absurd ((version.hasCopyIn_iff key).mpr
          ⟨ids, _, .inr (.inl ⟨found, covers, rfl⟩)⟩) copied
      · exact absurd ((version.hasCopyIn_iff key).mpr
          ⟨_, _, .inr (.inr ⟨replica, found, rfl, nonempty, rfl⟩)⟩) copied
      · have stored : (version.keptInPlace owner key).store = some owner :=
          relocatable.recorded
        have twice : (version.keptInPlace owner key).keptInPlace owner key =
            version.keptInPlace owner key := by
          have there : (version.remembered owner).contains owner = true := by
            rw [Dict.contains, relocatable.remembered_own]
            rfl
          have gone : (version.replicas.erase key).get? key = none := by
            rw [Dict.get?_erase, if_pos rfl]
          simp only [keptInPlace, remembered] at there ⊢
          rw [Dict.setDefault, if_pos there, Dict.erase_of_absent _ _ gone]
        rw [equal]
        rcases relocate_cases stored same with
          ⟨ids, found, covers, _⟩ | ⟨replica, found, _, _, _⟩ | ⟨_, _, again⟩
        · rw [keptInPlace, version.remembered_get same] at found
          rw [keptInPlace, uncovered ids found] at covers
          cases covers
        · rw [keptInPlace, Dict.get?_erase, if_pos rfl] at found
          cases found
        · rw [again, twice]

theorem Relocatable.foldl (keys : List String) :
    ∃ next, (keys.foldl TGFSFileVersion.relocate version).Relocatable
      next := by
  induction keys generalizing version owner with
  | nil => exact ⟨owner, relocatable⟩
  | cons key keys induction =>
      obtain ⟨next, moved⟩ := relocatable.relocate key
      exact induction moved

theorem Relocatable.foldl_hasCopyIn (keys : List String)
    (copied : version.hasCopyIn other = true) :
    (keys.foldl TGFSFileVersion.relocate version).hasCopyIn other =
      true := by
  induction keys generalizing version owner with
  | nil => exact copied
  | cons key keys induction =>
      obtain ⟨next, moved⟩ := relocatable.relocate key
      exact induction moved (relocatable.relocate_hasCopyIn copied)

theorem Relocatable.foldl_records (keys : List String)
    (records : (keys.foldl TGFSFileVersion.relocate version).Records other
      ids) : version.Records other ids := by
  induction keys generalizing version owner with
  | nil => exact records
  | cons key keys induction =>
      obtain ⟨next, moved⟩ := relocatable.relocate key
      exact relocatable.relocate_records (induction moved records)

omit relocatable

/-- Over any sequence of primaries a version loses no copy: what a store had
at any point it still has later, under ids that were recorded for it then;
relocating twice to one primary changes nothing more; and a primary with a
complete copy owns the version with the ids and the layout of that copy. -/
theorem relocations_lose_no_copy (version : TGFSFileVersion) (owner : String)
    (recorded : version.store = some owner)
    (nonempty : version.messageIds ≠ [])
    (positive : ∀ id ∈ version.messageIds, 0 < id)
    (own : ∀ ids, version.mirrors.get? owner = some ids →
      ids = version.messageIds)
    (earlier later : List String) :
    let before := earlier.foldl relocate version
    let after := later.foldl relocate before
    (∀ key, before.hasCopyIn key = true → after.hasCopyIn key = true) ∧
    (∀ key ids, after.Records key ids → before.Records key ids) ∧
    (∀ key, (before.relocate key).relocate key = before.relocate key) ∧
    ∀ key, before.hasCopyIn key = true →
      (before.relocate key).ownedBy key = true ∧
      before.HoldsCopy key (before.relocate key).messageIds
        (before.relocate key).partSizes := by
  intro before after
  have start : version.Relocatable owner :=
    ⟨recorded, nonempty, own, .inl positive⟩
  obtain ⟨next, reached⟩ := start.foldl earlier
  refine ⟨?_, ?_, ?_, ?_⟩
  · intro key copied
    exact reached.foldl_hasCopyIn later copied
  · intro key ids records
    exact reached.foldl_records later records
  · intro key
    exact reached.relocate_idem key
  · intro key copied
    obtain ⟨owned, layout⟩ := reached.relocate_owns copied
    have owns : (before.relocate key).ownedBy key = true := by
      rw [ownedBy, owned]
      simp
    exact ⟨owns, layout⟩

/-- Two parts with an aligned mirror and a replica in one message. -/
def copiedTwice : TGFSFileVersion :=
  { id := "v"
    updatedAt := ⟨1, false⟩
    messageIds := [5, 6]
    partSizes := [1, 1]
    mirrors := Dict.ofList [("tg:2", [7, 8])]
    replicas := Dict.ofList [("dc:3", ⟨[9], [2]⟩)]
    store := some "tg:1" }

theorem relocations_lose_no_copy_copiedTwice :
    ((copiedTwice.relocate "dc:3").relocate "tg:2").hasCopyIn "tg:1" = true ∧
      ((copiedTwice.relocate "dc:3").relocate "tg:2").ownedBy "tg:2" =
        true := by
  have absent : copiedTwice.mirrors.get? "tg:1" = none := by decide
  have kept := relocations_lose_no_copy copiedTwice "tg:1" rfl (by decide)
    (by decide) (by simp [absent]) ["dc:3"]
  exact ⟨(kept ["tg:2"]).1 "tg:1" (by decide),
    ((kept []).2.2.2 "tg:2" (by decide)).1⟩

end Tgdcfs.TGFSFileVersion
