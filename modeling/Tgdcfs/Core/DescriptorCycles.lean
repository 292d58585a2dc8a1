import Tgdcfs.Core.Descriptor
import Tgdcfs.Core.Serialization
import Tgdcfs.Lib.Run

/-!
# The latest version over storage cycles

Writing a descriptor lists its versions newest first, equally dated ones in
the reverse of their order, and reading it takes the first of the newest for
the latest one.  Each cycle so turns the order of equally dated versions
around: the pointer survives every number of cycles exactly when no other
version is dated like the latest one.
-/

namespace Tgdcfs.TGFSFileDesc

open Lib

variable {desc : TGFSFileDesc}

/-- Every version is filed under its own id. -/
def Keyed (desc : TGFSFileDesc) : Prop :=
  ∀ item ∈ desc.versions.items, item.2.id = item.1

/-- The descriptor can be written down. -/
def Storable (desc : TGFSFileDesc) : Prop :=
  ∀ version ∈ desc.versions.values, version.Storable

/-- The timestamp under which a version is read back. -/
def storedStamp (version : TGFSFileVersion) : Int :=
  version.reread.updatedAtTimestamp

theorem storedStamp_eq (version : TGFSFileVersion) :
    storedStamp version = max version.updatedAtTimestamp 0 := by
  unfold storedStamp TGFSFileVersion.reread TGFSFileVersion.storedInstant
    TGFSFileVersion.updatedAtTimestamp DateTime.ts
  by_cases positive : 0 < version.updatedAt.ms
  · simp only [if_pos positive]
    omega
  · simp only [if_neg positive, FIRST_DAY_OF_EPOCH]
    omega

theorem storedStamp_reread (version : TGFSFileVersion) :
    storedStamp version.reread = storedStamp version := by
  rw [storedStamp_eq version.reread]
  have nonnegative := storedStamp_eq version
  unfold storedStamp at nonnegative ⊢
  omega

instance : IsTrans (TGFSFileVersion × Nat) newer where
  trans := by
    unfold newer
    intro first second third
    omega

instance : Std.Total newer where
  total := by
    unfold newer
    intro first second
    omega

theorem sortedVersions_perm (desc : TGFSFileDesc) :
    desc.sortedVersions.Perm desc.versions.values := by
  have sorted := (List.perm_insertionSort newer
    desc.versions.values.zipIdx).map Prod.fst
  rwa [List.zipIdx_map_fst] at sorted

theorem sortedVersions_pairwise (desc : TGFSFileDesc) :
    desc.sortedVersions.Pairwise fun left right =>
      right.updatedAtTimestamp ≤ left.updatedAtTimestamp := by
  have sorted := List.pairwise_insertionSort newer
    desc.versions.values.zipIdx
  unfold sortedVersions
  rw [List.pairwise_map]
  apply sorted.imp
  intro left right newer
  unfold TGFSFileDesc.newer at newer
  omega

/-- The first of the sorted versions and its place among the others. -/
theorem sortedVersions_head {first : TGFSFileVersion}
    {rest : List TGFSFileVersion}
    (sorted : desc.sortedVersions = first :: rest) :
    ∃ place, desc.versions.values[place]? = some first ∧
      ∀ other version, desc.versions.values[other]? = some version →
        newer (first, place) (version, other) := by
  unfold sortedVersions at sorted
  obtain ⟨head, tail, listed, rfl, _⟩ := List.map_eq_cons_iff.mp sorted
  have pairwise := List.pairwise_insertionSort newer
    desc.versions.values.zipIdx
  rw [listed, List.pairwise_cons] at pairwise
  have mem_iff : ∀ item : TGFSFileVersion × Nat,
      item ∈ head :: tail ↔ desc.versions.values[item.2]? = some item.1 := by
    intro item
    rw [← listed, List.mem_insertionSort, List.mem_zipIdx_iff_getElem?]
  refine ⟨head.2, (mem_iff head).mp List.mem_cons_self, ?_⟩
  intro other version found
  rcases List.mem_cons.mp ((mem_iff (version, other)).mpr found) with
    same | member
  · rw [same]
    exact .inr ⟨rfl, le_rfl⟩
  · exact pairwise.1 _ member

/-- In a list that is sorted newest first the first one is the newest. -/
theorem firstNewest_of_sorted (best : TGFSFileVersion)
    (rest : List TGFSFileVersion)
    (sorted : ∀ version ∈ rest,
      version.updatedAtTimestamp ≤ best.updatedAtTimestamp) :
    firstNewest best rest = best := by
  induction rest with
  | nil => rfl
  | cons version rest induction =>
      have older := sorted version List.mem_cons_self
      rw [firstNewest, if_neg (by omega)]
      exact induction fun other member =>
        sorted other (List.mem_cons_of_mem _ member)

theorem Keyed.ids (keyed : desc.Keyed) :
    desc.versions.values.map TGFSFileVersion.id = desc.versions.keys := by
  unfold Dict.values Dict.keys
  rw [List.map_map]
  exact List.map_congr_left fun item member => keyed item member

theorem Keyed.nodup (keyed : desc.Keyed) :
    (desc.versions.values.map TGFSFileVersion.id).Nodup := by
  rw [keyed.ids]
  exact desc.versions.nodup

variable {version : TGFSFileVersion}

theorem Keyed.get?_id (keyed : desc.Keyed)
    (member : version ∈ desc.versions.values) :
    desc.versions.get? version.id = some version := by
  obtain ⟨item, here, rfl⟩ := List.mem_map.mp member
  rw [Dict.get?_eq_some_iff, keyed item here]
  exact here

theorem Keyed.sorted_nodup (keyed : desc.Keyed) :
    (desc.sortedVersions.map TGFSFileVersion.id).Nodup :=
  (desc.sortedVersions_perm.map _).nodup_iff.mpr keyed.nodup

/-- Write the descriptor down and read it back. -/
def reload (desc : TGFSFileDesc) (now : DateTime) :
    Except FormatError TGFSFileDesc := do
  let data ← desc.toDict
  fromDict data desc.name now

/-- What is read back of a descriptor that was written down. -/
def reread (desc : TGFSFileDesc) (now : DateTime) : TGFSFileDesc :=
  { name := desc.name
    latestVersionId := (desc.sortedVersions.head?.map
      TGFSFileVersion.id).getD INVALID_VERSION_ID
    createdAt := now
    versions := Dict.ofList (desc.sortedVersions.map fun version =>
      (version.id, version.reread)) }

theorem reread_items (keyed : desc.Keyed) (now : DateTime) :
    (desc.reread now).versions.items =
      desc.sortedVersions.map fun version =>
        (version.id, version.reread) := by
  apply Dict.ofList_items
  rw [List.map_map]
  exact keyed.sorted_nodup

theorem reread_values (keyed : desc.Keyed) (now : DateTime) :
    (desc.reread now).versions.values =
      desc.sortedVersions.map TGFSFileVersion.reread := by
  unfold Dict.values
  rw [reread_items keyed, List.map_map]
  rfl

theorem reread_keyed (keyed : desc.Keyed) (now : DateTime) :
    (desc.reread now).Keyed := by
  intro item member
  rw [reread_items keyed] at member
  obtain ⟨version, _, rfl⟩ := List.mem_map.mp member
  rfl

theorem reread_storable (keyed : desc.Keyed) (storable : desc.Storable)
    (now : DateTime) : (desc.reread now).Storable := by
  intro version member
  rw [reread_values keyed] at member
  obtain ⟨source, sorted, rfl⟩ := List.mem_map.mp member
  exact TGFSFileVersion.reread_storable
    (storable source (desc.sortedVersions_perm.mem_iff.mp sorted))

theorem derivedLatest_reread (desc : TGFSFileDesc) :
    derivedLatest (desc.sortedVersions.map TGFSFileVersion.reread) =
      (desc.sortedVersions.head?.map TGFSFileVersion.id).getD
        INVALID_VERSION_ID := by
  have pairwise := desc.sortedVersions_pairwise
  cases sorted : desc.sortedVersions with
  | nil => rfl
  | cons first rest =>
      rw [sorted, List.pairwise_cons] at pairwise
      rw [List.map_cons, derivedLatest, firstNewest_of_sorted]
      · rfl
      · intro version member
        obtain ⟨source, here, rfl⟩ := List.mem_map.mp member
        have older := pairwise.1 source here
        have left := storedStamp_eq source
        have right := storedStamp_eq first
        unfold storedStamp at left right
        omega

/-- The stored form of a descriptor that can be written. -/
def stored (desc : TGFSFileDesc) : DescSerialized :=
  ⟨desc.sortedVersions.map TGFSFileVersion.stored⟩

theorem Storable.sorted (storable : desc.Storable) :
    ∀ version ∈ desc.sortedVersions, version.Storable :=
  fun version member =>
    storable version (desc.sortedVersions_perm.mem_iff.mp member)

theorem toDict_ok (storable : desc.Storable) :
    desc.toDict = .ok desc.stored := by
  have written : desc.sortedVersions.mapM TGFSFileVersion.toDict =
      .ok (desc.sortedVersions.map TGFSFileVersion.stored) :=
    mapM_ok _ fun version member =>
      TGFSFileVersion.toDict_ok (storable.sorted version member)
  unfold toDict
  rw [written]
  rfl

theorem fromDict_stored (keyed : desc.Keyed) (storable : desc.Storable)
    (name : Name) (now : DateTime) :
    fromDict desc.stored name now =
      .ok { desc.reread now with name := name } := by
  have read : (desc.sortedVersions.map TGFSFileVersion.stored).mapM
      TGFSFileVersion.fromDict =
        .ok (desc.sortedVersions.map TGFSFileVersion.reread) := by
    rw [List.mapM_map]
    exact mapM_ok _ fun version member =>
      TGFSFileVersion.fromDict_stored (storable.sorted version member)
  have keyedItems : Dict.ofList ((desc.sortedVersions.map
        TGFSFileVersion.reread).map fun version => (version.id, version)) =
      (desc.reread now).versions := by
    rw [List.map_map]
    rfl
  unfold fromDict stored
  rw [read]
  change Except.ok _ = _
  rw [keyedItems, reread_values keyed, derivedLatest_reread]
  rfl

theorem reload_ok (keyed : desc.Keyed) (storable : desc.Storable)
    (now : DateTime) : desc.reload now = .ok (desc.reread now) := by
  unfold reload
  rw [toDict_ok storable]
  exact fromDict_stored keyed storable desc.name now

theorem toDict_error (unstorable : ¬desc.Storable) :
    ∃ failure, desc.toDict = .error failure := by
  unfold Storable at unstorable
  push Not at unstorable
  obtain ⟨version, member, bad⟩ := unstorable
  obtain ⟨reason, raises⟩ := TGFSFileVersion.toDict_error bad
  obtain ⟨failure, fails⟩ := mapM_error TGFSFileVersion.toDict
    (desc.sortedVersions_perm.mem_iff.mpr member) raises
  refine ⟨failure, ?_⟩
  unfold toDict
  rw [fails]
  rfl

theorem reload_error (unstorable : ¬desc.Storable) (now : DateTime) :
    ∃ failure, desc.reload now = .error failure := by
  obtain ⟨failure, fails⟩ := toDict_error unstorable
  refine ⟨failure, ?_⟩
  unfold reload
  rw [fails]
  rfl

/-- One cycle at each of the given instants. -/
def reloads : List DateTime → TGFSFileDesc → Except FormatError TGFSFileDesc
  | [], desc => .ok desc
  | now :: later, desc => do
      let next ← desc.reload now
      reloads later next

/-- The pointer is the same after any number of cycles. -/
def StablePointer (desc : TGFSFileDesc) : Prop :=
  ∀ instants later, reloads instants desc = .ok later →
    later.latestVersionId = desc.latestVersionId

/-- The latest version is dated, as stored, after every other one; a
descriptor without versions points at none. -/
def NewestAlone (desc : TGFSFileDesc) : Prop :=
  (desc.versions.values = [] ∧ desc.latestVersionId = INVALID_VERSION_ID) ∨
    ∃ latest ∈ desc.versions.values, latest.id = desc.latestVersionId ∧
      ∀ other ∈ desc.versions.values, other.id ≠ latest.id →
        storedStamp other < storedStamp latest

theorem Keyed.eq_of_id (keyed : desc.Keyed) {left right : TGFSFileVersion}
    (leftMember : left ∈ desc.versions.values)
    (rightMember : right ∈ desc.versions.values)
    (same : left.id = right.id) : left = right :=
  List.inj_on_of_nodup_map keyed.nodup leftMember rightMember same

/-- A version dated after all others is the one listed first. -/
theorem NewestAlone.reread (keyed : desc.Keyed) (alone : desc.NewestAlone)
    (now : DateTime) :
    (desc.reread now).latestVersionId = desc.latestVersionId ∧
      (desc.reread now).NewestAlone := by
  rcases alone with ⟨none, pointer⟩ | ⟨latest, member, pointer, newest⟩
  · have sorted : desc.sortedVersions = [] := by
      have perm := desc.sortedVersions_perm
      rw [none] at perm
      exact perm.eq_nil
    have same : (desc.reread now).latestVersionId =
        desc.latestVersionId := by
      rw [TGFSFileDesc.reread, sorted, pointer]
      rfl
    refine ⟨same, .inl ⟨?_, same.trans pointer⟩⟩
    rw [reread_values keyed, sorted]
    rfl
  · have first : ∃ rest, desc.sortedVersions = latest :: rest := by
      cases sorted : desc.sortedVersions with
      | nil =>
          have found := desc.sortedVersions_perm.mem_iff.mpr member
          rw [sorted] at found
          cases found
      | cons head rest =>
          obtain ⟨place, here, after⟩ := sortedVersions_head sorted
          obtain ⟨other, there⟩ := List.mem_iff_getElem?.mp member
          have precedes := after other latest there
          have headMember := List.mem_of_getElem? here
          refine ⟨rest, ?_⟩
          by_cases same : head.id = latest.id
          · rw [keyed.eq_of_id headMember member same]
          · have later := newest head headMember same
            rw [storedStamp_eq, storedStamp_eq] at later
            simp only [newer] at precedes
            omega
    obtain ⟨rest, sorted⟩ := first
    have same : (desc.reread now).latestVersionId =
        desc.latestVersionId := by
      rw [TGFSFileDesc.reread, sorted, ← pointer]
      rfl
    refine ⟨same, .inr ⟨latest.reread, ?_, pointer.trans same.symm, ?_⟩⟩
    · rw [reread_values keyed, sorted]
      exact List.mem_cons_self
    · intro other found different
      rw [reread_values keyed] at found
      obtain ⟨source, here, rfl⟩ := List.mem_map.mp found
      rw [storedStamp_reread, storedStamp_reread]
      exact newest source (desc.sortedVersions_perm.mem_iff.mp here)
        different

theorem NewestAlone.stable (keyed : desc.Keyed) (storable : desc.Storable)
    (alone : desc.NewestAlone) : desc.StablePointer := by
  intro instants
  induction instants generalizing desc with
  | nil =>
      intro later finished
      cases finished
      rfl
  | cons now instants induction =>
      intro later finished
      rw [reloads, reload_ok keyed storable] at finished
      obtain ⟨same, still⟩ := alone.reread keyed now
      rw [← same]
      exact induction (reread_keyed keyed now)
        (reread_storable keyed storable now) still later finished

/-- Two cycles move the pointer away from a version that is dated like
another one. -/
theorem newestAlone_of_stable (keyed : desc.Keyed)
    (storable : desc.Storable) (stable : desc.StablePointer) :
    desc.NewestAlone := by
  have first := stable [⟨0, false⟩] (desc.reread ⟨0, false⟩)
    (by rw [reloads, reload_ok keyed storable]; rfl)
  have second := stable [⟨0, false⟩, ⟨0, false⟩]
    ((desc.reread ⟨0, false⟩).reread ⟨0, false⟩) (by
      rw [reloads, reload_ok keyed storable]
      change reloads _ _ = _
      rw [reloads, reload_ok (reread_keyed keyed _)
        (reread_storable keyed storable _)]
      rfl)
  have values := reread_values keyed ⟨0, false⟩
  cases sorted : desc.sortedVersions with
  | nil =>
      have perm := desc.sortedVersions_perm
      rw [sorted] at perm
      rw [TGFSFileDesc.reread, sorted] at first
      exact .inl ⟨perm.symm.eq_nil, first.symm⟩
  | cons head rest =>
      rw [sorted] at values
      have pointer : head.id = desc.latestVersionId := by
        rw [TGFSFileDesc.reread, sorted] at first
        exact first
      have member : head ∈ desc.versions.values :=
        desc.sortedVersions_perm.mem_iff.mp (by rw [sorted]; simp)
      refine .inr ⟨head, member, pointer, ?_⟩
      intro other found different
      -- `other` stands behind `head` and is dated no later; if it is dated
      -- alike, the second cycle lists it before `head`
      have listed : other ∈ rest := by
        have here := desc.sortedVersions_perm.mem_iff.mpr found
        rw [sorted] at here
        rcases List.mem_cons.mp here with rfl | behind
        · exact absurd rfl different
        · exact behind
      have pairwise := desc.sortedVersions_pairwise
      rw [sorted, List.pairwise_cons] at pairwise
      have older := pairwise.1 other listed
      have headStamp := storedStamp_eq head
      have otherStamp := storedStamp_eq other
      by_contra tied
      have equal : other.reread.updatedAtTimestamp =
          head.reread.updatedAtTimestamp := by
        unfold storedStamp at headStamp otherStamp tied
        omega
      cases again : (desc.reread ⟨0, false⟩).sortedVersions with
      | nil =>
          have perm := (desc.reread ⟨0, false⟩).sortedVersions_perm
          rw [again, values] at perm
          cases perm.symm.eq_nil
      | cons front tail =>
          obtain ⟨place, here, after⟩ := sortedVersions_head again
          rw [values] at here
          have same : front.id = head.id := by
            rw [TGFSFileDesc.reread, again] at second
            exact second.trans pointer.symm
          obtain ⟨index, there⟩ := List.mem_iff_getElem?.mp listed
          have precedes := after (index + 1) other.reread (by
            rw [values, List.map_cons, List.getElem?_cons_succ,
              List.getElem?_map, there]
            rfl)
          have nodup := (reread_keyed keyed ⟨0, false⟩).nodup
          rw [values, List.map_cons, List.map_cons, List.nodup_cons] at nodup
          cases place with
          | zero =>
              have frontIs : head.reread = front := Option.some.inj here
              rw [← frontIs] at precedes
              simp only [newer] at precedes
              omega
          | succ place =>
              rw [List.map_cons, List.getElem?_cons_succ] at here
              apply nodup.1
              exact List.mem_map.mpr
                ⟨front, List.mem_of_getElem? here, same⟩

inductive DescAction where
  | add (version : TGFSFileVersion)
  | date (instant : DateTime)
  | delete (versionId : String)
  | reload (now : DateTime)

/-- The steps of a descriptor; one that raises is not taken. -/
def descStep (desc : TGFSFileDesc) : DescAction → Option TGFSFileDesc
  | .add version => (desc.addVersion version).toOption
  | .date instant => (desc.setLastModified instant).toOption
  | .delete versionId => (desc.deleteVersion versionId).toOption
  | .reload now => (desc.reload now).toOption

theorem supersedes_ok {latest : Bool}
    (compared : desc.supersedes version = .ok latest) :
    (desc.latestVersionId = INVALID_VERSION_ID ∧ latest = true) ∨
      ∃ old, (desc.versions.set version.id version).get?
          desc.latestVersionId = some old ∧
        latest = decide (old.updatedAtTimestamp ≤
          version.updatedAtTimestamp) := by
  unfold supersedes at compared
  split at compared
  · rename_i invalid
    exact .inl ⟨invalid, (Except.ok.inj compared).symm⟩
  · split at compared
    · cases compared
    · rename_i old found
      split at compared
      · cases compared
      · rename_i earlier decided
        cases compared
        refine .inr ⟨old, found, ?_⟩
        rw [DateTime.before_eq_some decided, ← decide_not]
        exact decide_eq_decide.mpr Int.not_lt

variable {after : TGFSFileDesc}

theorem addVersion_ok (added : desc.addVersion version = .ok after) :
    ∃ latest, desc.supersedes version = .ok latest ∧
      after.versions = desc.versions.set version.id version ∧
      after.latestVersionId =
        if latest then version.id else desc.latestVersionId := by
  obtain ⟨latest, compared, made⟩ := bind_ok added
  split at made
  · cases made
  · cases made
    exact ⟨latest, compared, rfl, rfl⟩

theorem setLastModified_ok {instant : DateTime}
    (dated : desc.setLastModified instant = .ok after) :
    ∃ latest, desc.versions.get? desc.latestVersionId = some latest ∧
      (∀ other ∈ (desc.versions.erase desc.latestVersionId).values,
        other.updatedAtTimestamp < instant.ts) ∧
      after.versions = desc.versions.set desc.latestVersionId
        { latest with updatedAt := instant } ∧
      after.latestVersionId = desc.latestVersionId := by
  unfold setLastModified at dated
  split at dated
  · cases dated
  · split at dated
    · cases dated
    · rename_i latest found
      by_cases blocked : ((desc.versions.erase
          desc.latestVersionId).values.any fun version =>
            instant.ts ≤ version.updatedAtTimestamp) = true
      · simp only [if_pos blocked] at dated
        cases dated
      · simp only [if_neg blocked] at dated
        cases dated
        refine ⟨latest, found, ?_, rfl, rfl⟩
        simpa using blocked

/-- The version that a deletion points at: dated no earlier than any other. -/
theorem lastNewest_ok {best : String × TGFSFileVersion}
    {rest : List (String × TGFSFileVersion)} {key : String}
    (found : lastNewest best rest = .ok key) :
    ∃ item ∈ best :: rest, item.1 = key ∧
      ∀ other ∈ best :: rest,
        other.2.updatedAtTimestamp ≤ item.2.updatedAtTimestamp := by
  induction rest generalizing best with
  | nil =>
      cases found
      exact ⟨best, List.mem_cons_self, rfl, by simp⟩
  | cons item rest induction =>
      rw [lastNewest] at found
      split at found
      · cases found
      · rename_i compared
        have order : item.2.updatedAtTimestamp <
            best.2.updatedAtTimestamp :=
          of_decide_eq_true (DateTime.before_eq_some compared).symm
        obtain ⟨winner, member, rfl, newest⟩ := induction found
        refine ⟨winner, ?_, rfl, ?_⟩
        · rcases List.mem_cons.mp member with rfl | later
          · exact List.mem_cons_self
          · simp [later]
        · intro other here
          rcases List.mem_cons.mp here with rfl | behind
          · exact newest _ List.mem_cons_self
          · rcases List.mem_cons.mp behind with rfl | later
            · have top := newest best List.mem_cons_self
              omega
            · exact newest other (List.mem_cons_of_mem _ later)
      · rename_i compared
        have order : ¬item.2.updatedAtTimestamp <
            best.2.updatedAtTimestamp :=
          of_decide_eq_false (DateTime.before_eq_some compared).symm
        obtain ⟨winner, member, rfl, newest⟩ := induction found
        refine ⟨winner, List.mem_cons_of_mem _ member, rfl, ?_⟩
        intro other here
        rcases List.mem_cons.mp here with rfl | behind
        · have top := newest item List.mem_cons_self
          omega
        · exact newest other behind

theorem deleteVersion_ok {versionId : String}
    (deleted : desc.deleteVersion versionId = .ok after) :
    after.versions = desc.versions.erase versionId ∧
      ((versionId ≠ desc.latestVersionId ∧
          after.latestVersionId = desc.latestVersionId) ∨
        (after.versions.items = [] ∧
          after.latestVersionId = INVALID_VERSION_ID) ∨
        ∃ item ∈ after.versions.items, item.1 = after.latestVersionId ∧
          ∀ other ∈ after.versions.items,
            other.2.updatedAtTimestamp ≤ item.2.updatedAtTimestamp) := by
  unfold deleteVersion at deleted
  split at deleted
  · cases deleted
  · split at deleted
    · rename_i different
      cases deleted
      exact ⟨rfl, .inl ⟨different, rfl⟩⟩
    · dsimp only at deleted
      split at deleted
      · rename_i none
        cases deleted
        exact ⟨rfl, .inr (.inl ⟨none, rfl⟩)⟩
      · rename_i item rest items
        cases chosen : lastNewest item rest with
        | error failure =>
            rw [chosen] at deleted
            cases deleted
        | ok latest =>
            rw [chosen] at deleted
            cases deleted
            refine ⟨rfl, .inr (.inr ?_)⟩
            simp only [items]
            exact lastNewest_ok chosen

theorem reload_eq_ok {now : DateTime} (keyed : desc.Keyed)
    (reloaded : desc.reload now = .ok after) :
    desc.Storable ∧ after = desc.reread now := by
  by_cases storable : desc.Storable
  · rw [reload_ok keyed storable] at reloaded
    exact ⟨storable, (Except.ok.inj reloaded).symm⟩
  · obtain ⟨failure, fails⟩ := reload_error storable now
    rw [fails] at reloaded
    cases reloaded

theorem ok_of_toOption {ε α : Type} {result : Except ε α} {value : α}
    (present : result.toOption = some value) : result = .ok value := by
  cases result with
  | error failure => cases present
  | ok other =>
      cases present
      rfl

theorem Keyed.step {action : DescAction} (keyed : desc.Keyed)
    (taken : descStep desc action = some after) : after.Keyed := by
  cases action with
  | add version =>
      obtain ⟨_, _, versions, _⟩ := addVersion_ok (ok_of_toOption taken)
      intro item member
      rw [versions, Dict.mem_items_set] at member
      rcases member with rfl | ⟨old, _⟩
      · rfl
      · exact keyed item old
  | date instant =>
      obtain ⟨latest, found, _, versions, _⟩ :=
        setLastModified_ok (ok_of_toOption taken)
      intro item member
      rw [versions, Dict.mem_items_set] at member
      rcases member with rfl | ⟨old, _⟩
      · exact keyed (_, latest) ((Dict.get?_eq_some_iff _ _ _).mp found)
      · exact keyed item old
  | delete versionId =>
      obtain ⟨versions, _⟩ := deleteVersion_ok (ok_of_toOption taken)
      intro item member
      rw [versions, Dict.mem_items_erase] at member
      exact keyed item member.1
  | reload now =>
      obtain ⟨_, rfl⟩ := reload_eq_ok keyed (ok_of_toOption taken)
      exact reread_keyed keyed now

theorem empty_keyed (name : Name) (now : DateTime) :
    (empty name now).Keyed := by
  intro item member
  cases member

/-- A version is added under an id of its own with a date no other version
has, and the latest version is dated after the epoch. -/
def DatedApart (desc : TGFSFileDesc) : DescAction → Prop
  | .add version =>
      version.id ≠ INVALID_VERSION_ID ∧
        desc.versions.get? version.id = none ∧
        0 < version.updatedAtTimestamp ∧
        ∀ item ∈ desc.versions.items,
          item.2.updatedAtTimestamp ≠ version.updatedAtTimestamp
  | .date instant => 0 < instant.ts
  | .delete _ | .reload _ => True

instance : ∀ action, Decidable (desc.DatedApart action)
  | .add _ => inferInstanceAs (Decidable (_ ∧ _))
  | .date _ => inferInstanceAs (Decidable (_ < _))
  | .delete _ | .reload _ => .isTrue trivial

/-- No two versions share a date, and the pointer is at the newest one. -/
structure Spread (desc : TGFSFileDesc) : Prop where
  keyed : desc.Keyed
  named : ∀ item ∈ desc.versions.items, item.1 ≠ INVALID_VERSION_ID
  dated : ∀ item ∈ desc.versions.items, 0 < item.2.updatedAtTimestamp
  apart : ∀ left ∈ desc.versions.items, ∀ right ∈ desc.versions.items,
    left.2.updatedAtTimestamp = right.2.updatedAtTimestamp →
      left.1 = right.1
  pointer : (desc.versions.items = [] ∧
      desc.latestVersionId = INVALID_VERSION_ID) ∨
    ∃ latest ∈ desc.versions.items, latest.1 = desc.latestVersionId ∧
      ∀ other ∈ desc.versions.items,
        other.2.updatedAtTimestamp ≤ latest.2.updatedAtTimestamp

namespace Spread

theorem newestAlone (spread : desc.Spread) : desc.NewestAlone := by
  rcases spread.pointer with ⟨none, pointer⟩ | ⟨latest, member, key, newest⟩
  · exact .inl ⟨by simp [Dict.values, none], pointer⟩
  · refine .inr ⟨latest.2, List.mem_map.mpr ⟨latest, member, rfl⟩,
      (spread.keyed latest member).trans key, ?_⟩
    intro other found different
    obtain ⟨item, here, rfl⟩ := List.mem_map.mp found
    have older := newest item here
    have positive := spread.dated latest member
    have distinct : item.2.updatedAtTimestamp ≠
        latest.2.updatedAtTimestamp := by
      intro tied
      apply different
      rw [spread.keyed item here, spread.keyed latest member]
      exact spread.apart item here latest member tied
    rw [storedStamp_eq, storedStamp_eq]
    omega

variable {after : TGFSFileDesc}

theorem addVersion (spread : desc.Spread) {version : TGFSFileVersion}
    (allowed : desc.DatedApart (.add version))
    (added : desc.addVersion version = .ok after) : after.Spread := by
  obtain ⟨named, fresh, positive, different⟩ := allowed
  obtain ⟨latest, compared, versions, pointer⟩ := addVersion_ok added
  have keyed : after.Keyed := spread.keyed.step
    (show descStep desc (.add version) = some after by
      rw [descStep, added]; rfl)
  have items : ∀ item, item ∈ after.versions.items →
      item = (version.id, version) ∨ item ∈ desc.versions.items := by
    intro item member
    rw [versions, Dict.mem_items_set] at member
    exact member.imp_right And.left
  have kept : ∀ item ∈ desc.versions.items, item ∈ after.versions.items := by
    intro item member
    rw [versions, Dict.mem_items_set]
    refine .inr ⟨member, ?_⟩
    intro same
    have found := (Dict.get?_eq_some_iff desc.versions item.1 item.2).mpr
      member
    rw [same, fresh] at found
    cases found
  have here : (version.id, version) ∈ after.versions.items := by
    rw [versions, Dict.mem_items_set]
    exact .inl rfl
  refine ⟨keyed, ?_, ?_, ?_, .inr ?_⟩
  · intro item member
    rcases items item member with rfl | old
    · exact named
    · exact spread.named item old
  · intro item member
    rcases items item member with rfl | old
    · exact positive
    · exact spread.dated item old
  · intro left leftMember right rightMember tied
    rcases items left leftMember with rfl | leftOld
    · rcases items right rightMember with rfl | rightOld
      · rfl
      · exact absurd tied.symm (different right rightOld)
    · rcases items right rightMember with rfl | rightOld
      · exact absurd tied (different left leftOld)
      · exact spread.apart left leftOld right rightOld tied
  · rcases spread.pointer with ⟨none, invalid⟩ | ⟨last, member, key, newest⟩
    · have only : latest = true := by
        rw [supersedes, if_pos invalid] at compared
        exact (Except.ok.inj compared).symm
      refine ⟨_, here, by rw [pointer, only]; rfl, ?_⟩
      intro other found
      rcases items other found with rfl | old
      · exact le_rfl
      · rw [none] at old
        cases old
    · rcases supersedes_ok compared with ⟨invalid, _⟩ | ⟨old, found, order⟩
      · exact absurd (key.trans invalid) (spread.named last member)
      · have same : old = last.2 := by
          rw [← versions, ← key] at found
          have there := (Dict.get?_eq_some_iff after.versions last.1
            last.2).mpr (kept last member)
          exact Option.some.inj (found.symm.trans there)
        by_cases later : last.2.updatedAtTimestamp ≤
            version.updatedAtTimestamp
        · have promoted : latest = true := by simp [order, same, later]
          refine ⟨_, here, by rw [pointer, promoted]; rfl, ?_⟩
          intro other present
          rcases items other present with rfl | old
          · exact le_rfl
          · exact (newest other old).trans later
        · have stays : latest = false := by simp [order, same, later]
          refine ⟨last, kept last member, ?_, ?_⟩
          · rw [pointer, stays, key]
            rfl
          · intro other present
            rcases items other present with rfl | old
            · exact (Int.not_le.mp later).le
            · exact newest other old

theorem setLastModified (spread : desc.Spread) {instant : DateTime}
    (allowed : desc.DatedApart (.date instant))
    (dated : desc.setLastModified instant = .ok after) : after.Spread := by
  obtain ⟨latest, found, newest, versions, pointer⟩ :=
    setLastModified_ok dated
  have keyed : after.Keyed := spread.keyed.step
    (show descStep desc (.date instant) = some after by
      rw [descStep, dated]; rfl)
  have there := (Dict.get?_eq_some_iff _ _ _).mp found
  have items : ∀ item, item ∈ after.versions.items →
      item = (desc.latestVersionId, { latest with updatedAt := instant }) ∨
        item ∈ desc.versions.items ∧ item.1 ≠ desc.latestVersionId ∧
          item.2.updatedAtTimestamp < instant.ts := by
    intro item member
    rw [versions, Dict.mem_items_set] at member
    rcases member with rfl | ⟨old, different⟩
    · exact .inl rfl
    · refine .inr ⟨old, different, newest item.2 ?_⟩
      exact List.mem_map.mpr
        ⟨item, (Dict.mem_items_erase _ _ _).mpr ⟨old, different⟩, rfl⟩
  refine ⟨keyed, ?_, ?_, ?_, .inr ?_⟩
  · intro item member
    rcases items item member with rfl | ⟨old, _⟩
    · exact spread.named (_, latest) there
    · exact spread.named item old
  · intro item member
    rcases items item member with rfl | ⟨old, _⟩
    · exact allowed
    · exact spread.dated item old
  · intro left leftMember right rightMember tied
    rcases items left leftMember with rfl | ⟨leftOld, _, leftEarlier⟩
    · rcases items right rightMember with rfl | ⟨_, _, rightEarlier⟩
      · rfl
      · exact absurd tied rightEarlier.ne'
    · rcases items right rightMember with rfl | ⟨rightOld, _, _⟩
      · exact absurd tied leftEarlier.ne
      · exact spread.apart left leftOld right rightOld tied
  · refine ⟨(desc.latestVersionId, { latest with updatedAt := instant }),
      ?_, pointer.symm, ?_⟩
    · rw [versions, Dict.mem_items_set]
      exact .inl rfl
    · intro other member
      rcases items other member with rfl | ⟨_, _, earlier⟩
      · exact le_rfl
      · exact earlier.le

theorem deleteVersion (spread : desc.Spread) {versionId : String}
    (deleted : desc.deleteVersion versionId = .ok after) : after.Spread := by
  obtain ⟨versions, pointer⟩ := deleteVersion_ok deleted
  have keyed : after.Keyed := spread.keyed.step
    (show descStep desc (.delete versionId) = some after by
      rw [descStep, deleted]; rfl)
  have items : ∀ item, item ∈ after.versions.items →
      item ∈ desc.versions.items := by
    intro item member
    rw [versions, Dict.mem_items_erase] at member
    exact member.1
  refine ⟨keyed, fun item member => spread.named item (items item member),
    fun item member => spread.dated item (items item member),
    fun left leftMember right rightMember =>
      spread.apart left (items left leftMember) right
        (items right rightMember), ?_⟩
  rcases pointer with ⟨different, same⟩ | none | chosen
  · rcases spread.pointer with ⟨none, invalid⟩ | ⟨last, member, key, newest⟩
    · refine .inl ⟨?_, same.trans invalid⟩
      rw [List.eq_nil_iff_forall_not_mem]
      intro item member
      have old := items item member
      rw [none] at old
      cases old
    · refine .inr ⟨last, ?_, key.trans same.symm, fun other present =>
        newest other (items other present)⟩
      rw [versions, Dict.mem_items_erase]
      exact ⟨member, fun equal => different (equal.symm.trans key)⟩
  · exact .inl none
  · exact .inr chosen

theorem reload (spread : desc.Spread) (now : DateTime) :
    (desc.reread now).Spread := by
  have items : ∀ item, item ∈ (desc.reread now).versions.items →
      ∃ source ∈ desc.versions.items, item.1 = source.1 ∧
        item.2.updatedAtTimestamp = source.2.updatedAtTimestamp := by
    intro item member
    rw [reread_items spread.keyed] at member
    obtain ⟨version, sorted, rfl⟩ := List.mem_map.mp member
    obtain ⟨source, here, rfl⟩ := List.mem_map.mp
      (desc.sortedVersions_perm.mem_iff.mp sorted)
    refine ⟨source, here, spread.keyed source here, ?_⟩
    have positive := spread.dated source here
    have stamp : source.2.reread.updatedAtTimestamp = _ :=
      storedStamp_eq source.2
    change source.2.reread.updatedAtTimestamp = _
    omega
  have keyed := reread_keyed spread.keyed now
  have dated : ∀ item ∈ (desc.reread now).versions.items,
      0 < item.2.updatedAtTimestamp := by
    intro item member
    obtain ⟨source, here, _, stamp⟩ := items item member
    have positive := spread.dated source here
    omega
  refine ⟨keyed, ?_, dated, ?_, ?_⟩
  · intro item member
    obtain ⟨source, here, key, _⟩ := items item member
    exact key ▸ spread.named source here
  · intro left leftMember right rightMember tied
    obtain ⟨first, firstHere, firstKey, firstStamp⟩ := items left leftMember
    obtain ⟨second, secondHere, secondKey, secondStamp⟩ :=
      items right rightMember
    rw [firstKey, secondKey]
    apply spread.apart first firstHere second secondHere
    omega
  · rcases (spread.newestAlone.reread spread.keyed now).2 with
      ⟨none, invalid⟩ | ⟨latest, member, pointer, newest⟩
    · exact .inl ⟨List.map_eq_nil_iff.mp none, invalid⟩
    · obtain ⟨item, here, rfl⟩ := List.mem_map.mp member
      refine .inr ⟨item, here, (keyed item here).symm.trans pointer, ?_⟩
      intro other present
      by_cases same : other.2.id = item.2.id
      · rw [keyed.eq_of_id (List.mem_map.mpr ⟨other, present, rfl⟩) member
          same]
      · have earlier := newest other.2
          (List.mem_map.mpr ⟨other, present, rfl⟩) same
        have positive := dated item here
        rw [storedStamp_eq, storedStamp_eq] at earlier
        omega

theorem empty (name : Name) (now : DateTime) : (empty name now).Spread := by
  have none : ∀ item, item ∉ (TGFSFileDesc.empty name now).versions.items :=
    fun item member => by cases member
  exact ⟨empty_keyed name now, fun item member => absurd member (none item),
    fun item member => absurd member (none item),
    fun item member => absurd member (none item), .inl ⟨rfl, rfl⟩⟩

theorem step (spread : desc.Spread) {action : DescAction}
    (allowed : desc.DatedApart action)
    (taken : descStep desc action = some after) : after.Spread := by
  cases action with
  | add version => exact spread.addVersion allowed (ok_of_toOption taken)
  | date instant =>
      exact spread.setLastModified allowed (ok_of_toOption taken)
  | delete versionId => exact spread.deleteVersion (ok_of_toOption taken)
  | reload now =>
      obtain ⟨_, rfl⟩ := reload_eq_ok spread.keyed (ok_of_toOption taken)
      exact spread.reload now

end Spread

theorem stablePointer_iff (keyed : desc.Keyed) :
    desc.StablePointer ↔ (desc.Storable → desc.NewestAlone) := by
  constructor
  · intro stable storable
    exact newestAlone_of_stable keyed storable stable
  · intro alone
    by_cases storable : desc.Storable
    · exact (alone storable).stable keyed storable
    · intro instants later finished
      cases instants with
      | nil =>
          cases finished
          rfl
      | cons now instants =>
          obtain ⟨failure, fails⟩ := reload_error storable now
          rw [reloads, fails] at finished
          cases finished

/-- For every history of a descriptor, the latest version is the same after
any number of cycles exactly when the descriptor cannot be written or no other
version is dated, as stored, like it.  This is so in every history that dates
its versions apart. -/
theorem latest_survives_cycles (name : Name) (now : DateTime) :
    (∀ desc, Reachable descStep (empty name now) desc →
      (desc.StablePointer ↔ (desc.Storable → desc.NewestAlone))) ∧
    ∀ desc, ReachableWithin descStep DatedApart (empty name now) desc →
      desc.StablePointer := by
  constructor
  · intro desc reached
    have keyed : desc.Keyed := reached.invariant
      (fun _ _ _ keyed taken => keyed.step taken) (empty_keyed name now)
    exact stablePointer_iff keyed
  · intro desc reached
    have kept : ∀ (before : TGFSFileDesc) action after, before.Spread →
        before.DatedApart action → descStep before action = some after →
          after.Spread := by
      intro before action after spread allowed taken
      exact spread.step allowed taken
    have spread : desc.Spread := reached.invariant kept (.empty name now)
    exact (stablePointer_iff spread.keyed).mpr fun _ => spread.newestAlone

/-- Three versions, the last added dated between the others. -/
def between : List TGFSFileVersion :=
  [{ id := "a", updatedAt := ⟨5, false⟩ },
    { id := "b", updatedAt := ⟨7, false⟩ },
    { id := "c", updatedAt := ⟨6, false⟩ }]

theorem latest_survives_cycles_one :
    ∃ desc, ReachableWithin descStep DatedApart (empty ['f'] ⟨9, false⟩) desc ∧
      desc.versions.values = between.drop 1 ∧ desc.latestVersionId = "b" ∧
        desc.StablePointer := by
  have reached : ReachableWithin descStep DatedApart
      (empty ['f'] ⟨9, false⟩)
      { name := ['f']
        latestVersionId := "b"
        createdAt := ⟨5, false⟩
        versions := Dict.ofList ((between.drop 1).map fun version =>
          (version.id, version)) } :=
    ⟨between.map .add ++ [.delete "a"], by decide, by decide⟩
  exact ⟨_, reached, rfl, rfl, (latest_survives_cycles _ _).2 _ reached⟩

/-- Two versions of the same millisecond. -/
def twins : List TGFSFileVersion :=
  [{ id := "a", updatedAt := ⟨5, false⟩, messageIds := [1] },
    { id := "b", updatedAt := ⟨5, false⟩, messageIds := [2] }]

theorem latest_flips_between_twins :
    ∃ desc, Reachable descStep (empty ['f'] ⟨9, false⟩) desc ∧
      ¬desc.StablePointer := by
  have reached : run descStep (empty ['f'] ⟨9, false⟩)
      (twins.map DescAction.add) = some
        { name := ['f']
          latestVersionId := "b"
          createdAt := ⟨5, false⟩
          versions := Dict.ofList (twins.map fun version =>
            (version.id, version)) } := by decide
  refine ⟨_, ⟨_, reached⟩, ?_⟩
  intro stable
  have flipped := stable [⟨6, false⟩, ⟨7, false⟩]
    { name := ['f']
      latestVersionId := "a"
      createdAt := ⟨7, false⟩
      versions := Dict.ofList (twins.map fun version =>
        (version.id, { version with
          recordedSize := INVALID_FILE_SIZE })) } (by decide)
  exact absurd flipped (by decide)

end Tgdcfs.TGFSFileDesc
