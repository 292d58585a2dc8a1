import Tgdcfs.Core.Deletion
import Tgdcfs.Core.RangeMap

/-!
# What a removal may delete

Every message that a removal deletes was recorded, in the store it is deleted
from, by one of the files removed.  Whether a file that stays needs it hangs
on the check for shared descriptors: a message in common must come with a
descriptor number in common.
-/

namespace Tgdcfs

open Lib

namespace Collected

variable {primaryKey : String} {message : String × Int}

theorem holds_foldl {ρ : Type*} {add : Collected → ρ → Collected}
    {adds : ρ → Prop}
    (each : ∀ collected entry,
      (add collected entry).holds primaryKey message = true ↔
        collected.holds primaryKey message = true ∨ adds entry)
    (entries : List ρ) (collected : Collected) :
    (entries.foldl add collected).holds primaryKey message = true ↔
      collected.holds primaryKey message = true ∨
        ∃ entry ∈ entries, adds entry := by
  induction entries generalizing collected with
  | nil => simp
  | cons entry entries induction =>
      rw [List.foldl_cons, induction, each, or_assoc]
      simp only [List.mem_cons, exists_eq_or_imp]

theorem holds_addIds (collected : Collected) (ids : List Int) :
    (collected.addIds ids).holds primaryKey message = true ↔
      collected.holds primaryKey message = true ∨
        (primaryKey = message.1 ∧ message.2 ∈ ids) := by
  simp only [holds, addIds, Bool.or_eq_true, Bool.and_eq_true,
    decide_eq_true_eq, List.contains_iff_mem, List.mem_append]
  constructor
  · rintro (⟨here, old | new⟩ | elsewhere)
    · exact .inl (.inl ⟨here, old⟩)
    · exact .inr ⟨here.symm, new⟩
    · exact .inl (.inr elsewhere)
  · rintro ((⟨here, old⟩ | elsewhere) | ⟨here, new⟩)
    · exact .inl ⟨here, .inl old⟩
    · exact .inr elsewhere
    · exact .inl ⟨here.symm, .inr new⟩

theorem holds_addMirrorIds (collected : Collected) (storeKey : String)
    (ids : List Int) :
    (collected.addMirrorIds storeKey ids).holds primaryKey message = true ↔
      collected.holds primaryKey message = true ∨
        (storeKey = message.1 ∧ message.2 ∈ ids) := by
  simp only [holds, addMirrorIds, extend, Dict.get?_set, Bool.or_eq_true]
  by_cases same : message.1 = storeKey
  · subst same
    cases known : collected.mirrorIds.get? message.1 with
    | none => simp
    | some old => simp [or_assoc]
  · rw [if_neg same]
    simp [Ne.symm same]

theorem holds_addOwned (collected : Collected) (owned : Bool)
    (store : Option String) (ids : List Int) :
    (collected.addOwned owned store ids).holds primaryKey message = true ↔
      collected.holds primaryKey message = true ∨
        (ownerOf primaryKey owned store = some message.1 ∧
          message.2 ∈ ids) := by
  unfold addOwned ownerOf
  cases owned with
  | true =>
      rw [if_pos rfl, if_pos rfl, holds_addIds, Option.some.injEq]
  | false =>
      rw [if_neg Bool.false_ne_true, if_neg Bool.false_ne_true]
      cases store.filter (· ≠ "") with
      | none => simp
      | some owner =>
          rw [holds_addMirrorIds, Option.some.injEq]

theorem holds_collectRefIds (file : FileRef) (collected : Collected) :
    (collected.collectRefIds primaryKey file).holds primaryKey message =
        true ↔
      collected.holds primaryKey message = true ∨
        file.Mentions primaryKey message := by
  have own : (if 0 < file.messageId then
      collected.addOwned (file.ownedBy primaryKey) file.store
        [file.messageId] else collected).holds primaryKey message = true ↔
      collected.holds primaryKey message = true ∨
        (0 < message.2 ∧ ownerOf primaryKey (file.ownedBy primaryKey)
          file.store = some message.1 ∧ file.messageId = message.2) := by
    by_cases positive : 0 < file.messageId
    · rw [if_pos positive, holds_addOwned, List.mem_singleton]
      constructor
      · rintro (old | ⟨owner, same⟩)
        · exact .inl old
        · exact .inr ⟨by omega, owner, same.symm⟩
      · rintro (old | ⟨_, owner, same⟩)
        · exact .inl old
        · exact .inr ⟨owner, same.symm⟩
    · rw [if_neg positive]
      constructor
      · exact .inl
      · rintro (old | ⟨larger, _, same⟩)
        · exact old
        · omega
  have each : ∀ (collected : Collected) (item : String × Int),
      (if 0 < item.2 then collected.addMirrorIds item.1 [item.2]
        else collected).holds primaryKey message = true ↔
        collected.holds primaryKey message = true ∨
          (0 < message.2 ∧ item = message) := by
    intro collected item
    by_cases positive : 0 < item.2
    · rw [if_pos positive, holds_addMirrorIds, List.mem_singleton]
      constructor
      · rintro (old | ⟨store, id⟩)
        · exact .inl old
        · exact .inr ⟨by omega, Prod.ext store id.symm⟩
      · rintro (old | ⟨_, rfl⟩)
        · exact .inl old
        · exact .inr ⟨rfl, rfl⟩
    · rw [if_neg positive]
      constructor
      · exact .inl
      · rintro (old | ⟨larger, rfl⟩)
        · exact old
        · exact (positive larger).elim
  rw [collectRefIds]
  rw [holds_foldl each, own, or_assoc, FileRef.Mentions]
  have mirror : (∃ item ∈ file.mirrors.items, 0 < message.2 ∧
      item = message) ↔
      0 < message.2 ∧ file.mirrors.get? message.1 = some message.2 := by
    rw [Dict.get?_eq_some_iff]
    constructor
    · rintro ⟨item, member, positive, rfl⟩
      exact ⟨positive, member⟩
    · rintro ⟨positive, member⟩
      exact ⟨message, member, positive, rfl⟩
  rw [mirror, ← and_or_left]

theorem holds_collectVersionIds (version : TGFSFileVersion)
    (collected : Collected) :
    (collected.collectVersionIds primaryKey version).holds primaryKey
        message = true ↔
      collected.holds primaryKey message = true ∨
        version.Mentions primaryKey message := by
  have listed : ∀ ids : List Int, message.2 ∈ ids.filter (0 < ·) ↔
      0 < message.2 ∧ message.2 ∈ ids := by
    intro ids
    simp [and_comm]
  have mirrored : ∀ (collected : Collected) (item : String × List Int),
      (collected.addMirrorIds item.1 (item.2.filter (0 < ·))).holds
          primaryKey message = true ↔
        collected.holds primaryKey message = true ∨
          (0 < message.2 ∧ item.1 = message.1 ∧ message.2 ∈ item.2) := by
    intro collected item
    rw [holds_addMirrorIds, listed, and_left_comm]
  have replicated : ∀ (collected : Collected) (item : String × Replica),
      (if item.1 = primaryKey then
          collected.addIds (item.2.messageIds.filter (0 < ·))
        else collected.addMirrorIds item.1
          (item.2.messageIds.filter (0 < ·))).holds primaryKey message =
          true ↔
        collected.holds primaryKey message = true ∨
          (0 < message.2 ∧ item.1 = message.1 ∧
            message.2 ∈ item.2.messageIds) := by
    intro collected item
    by_cases primary : item.1 = primaryKey
    · rw [if_pos primary, holds_addIds, listed, and_left_comm, primary]
    · rw [if_neg primary, holds_addMirrorIds, listed, and_left_comm]
  rw [collectVersionIds]
  dsimp only
  rw [holds_foldl replicated, holds_foldl mirrored, holds_addOwned, listed,
    TGFSFileVersion.Mentions, or_assoc, or_assoc]
  have mirrors : (∃ item ∈ version.mirrors.items, 0 < message.2 ∧
      item.1 = message.1 ∧ message.2 ∈ item.2) ↔
      0 < message.2 ∧ ∃ ids, version.mirrors.get? message.1 = some ids ∧
        message.2 ∈ ids := by
    constructor
    · rintro ⟨⟨store, ids⟩, member, positive, rfl, inside⟩
      exact ⟨positive, ids, (Dict.get?_eq_some_iff _ _ _).mpr member,
        inside⟩
    · rintro ⟨positive, ids, found, inside⟩
      exact ⟨(message.1, ids), (Dict.get?_eq_some_iff _ _ _).mp found,
        positive, rfl, inside⟩
  have replicas : (∃ item ∈ version.replicas.items, 0 < message.2 ∧
      item.1 = message.1 ∧ message.2 ∈ item.2.messageIds) ↔
      0 < message.2 ∧ ∃ replica,
        version.replicas.get? message.1 = some replica ∧
          message.2 ∈ replica.messageIds := by
    constructor
    · rintro ⟨⟨store, replica⟩, member, positive, rfl, inside⟩
      exact ⟨positive, replica, (Dict.get?_eq_some_iff _ _ _).mpr member,
        inside⟩
    · rintro ⟨positive, replica, found, inside⟩
      exact ⟨(message.1, replica), (Dict.get?_eq_some_iff _ _ _).mp found,
        positive, rfl, inside⟩
  rw [mirrors, replicas, and_left_comm, ← and_or_left, ← and_or_left]

end Collected

namespace FileApi

variable {api : FileApi} {answers : Answers} {now : DateTime}
  {file : FileRef} {message : String × Int}

/-- The message is named by the relocated ref or by the descriptor as it is
read. -/
def Reads (api : FileApi) (answers : Answers) (now : DateTime)
    (file : FileRef) (message : String × Int) : Prop :=
  (file.relocate api.repo.key).Mentions api.repo.key message ∨
    ∃ desc, api.repo.get answers file false true now = .ok desc ∧
      desc.Mentions api.repo.key message

theorem holds_empty : ({} : Collected).holds api.repo.key message = false := by
  simp [Collected.holds, Dict.get?, Dict.empty]

theorem holds_collectAll (collected : Collected) :
    (api.collectAll answers now file collected).holds api.repo.key message =
        true ↔
      collected.holds api.repo.key message = true ∨
        api.Reads answers now file message := by
  rw [collectAll, Reads]
  cases api.repo.get answers file false true now with
  | error failure =>
      rw [Collected.holds_collectRefIds]
      simp
  | ok desc =>
      have each : ∀ (collected : Collected) (version : TGFSFileVersion),
          (collected.collectVersionIds api.repo.key version).holds
              api.repo.key message = true ↔
            collected.holds api.repo.key message = true ∨
              version.Mentions api.repo.key message :=
        fun collected version =>
          Collected.holds_collectVersionIds version collected
      dsimp only
      rw [Collected.holds_foldl each, Collected.holds_collectRefIds,
        or_assoc]
      simp only [TGFSFileDesc.Mentions, Except.ok.injEq, exists_eq_left']

/-- What a removal collects are the messages of the files whose descriptor
number no other file has. -/
theorem holds_collectDeletable (answers : Nat → Answers)
    (files : List FileRef) (removing : List Nat) :
    (api.collectDeletable answers now files removing).holds api.repo.key
        message = true ↔
      ∃ place ∈ removing, ∃ file, files[place]? = some file ∧
        file.messageId ∉ descriptorsElsewhere files removing ∧
          api.Reads (answers place) now file message := by
  have whole : (api.collectDeletable answers now files removing).holds
      api.repo.key message = true ↔
        ({} : Collected).holds api.repo.key message = true ∨
          ∃ place ∈ removing, ∃ file, files[place]? = some file ∧
            file.messageId ∉ descriptorsElsewhere files removing ∧
              api.Reads (answers place) now file message := by
    apply Collected.holds_foldl
    intro collected place
    cases files[place]? with
    | none => simp
    | some file =>
        by_cases shared : file.messageId ∈
            descriptorsElsewhere files removing
        · simp [shared]
        · simp [shared, holds_collectAll]
  rw [whole, holds_empty]
  simp

theorem holds_collectVersion (versionId : String) :
    (api.collectVersion answers now file versionId).holds api.repo.key
        message = true ↔
      ∃ desc version, api.repo.get answers file false true now = .ok desc ∧
        desc.versions.get? versionId = some version ∧
          version.Mentions api.repo.key message := by
  rw [collectVersion]
  cases api.repo.get answers file false true now with
  | error failure => simp [holds_empty]
  | ok desc =>
      dsimp only
      cases found : desc.versions.get? versionId with
      | none => simp [holds_empty, found]
      | some version =>
          rw [Collected.holds_collectVersionIds, holds_empty]
          simp [found]

end FileApi

variable {primaryKey : String} {message : String × Int}

/-- A relocated ref names no message that it did not name before. -/
theorem FileRef.mentions_of_relocate {file : FileRef}
    (named : message.1 ≠ "")
    (mentions : (file.relocate primaryKey).Mentions primaryKey message) :
    file.Mentions primaryKey message := by
  unfold FileRef.relocate at mentions
  cases recorded : file.store with
  | none =>
      rw [recorded] at mentions
      exact mentions
  | some owner =>
      rw [recorded] at mentions
      dsimp only at mentions
      by_cases same : owner = primaryKey
      · rw [if_pos same] at mentions
        exact mentions
      · rw [if_neg same] at mentions
        have foreign : file.ownedBy primaryKey = false := by
          simp [FileRef.ownedBy, recorded, same]
        have kept : ∀ storeKey id,
            (file.mirrors.setDefault owner file.messageId).get? storeKey =
              some id →
            (owner = storeKey ∧ file.messageId = id) ∨
              file.mirrors.get? storeKey = some id := by
          intro storeKey id found
          rw [Dict.get?_setDefault] at found
          split at found
          · rename_i here
            cases old : file.mirrors.get? owner with
            | none =>
                rw [old] at found
                exact .inl ⟨here.symm, Option.some.inj found⟩
            | some other =>
                rw [old] at found
                rw [here, old]
                exact .inr found
          · exact .inr found
        have before : ∀ id, 0 < id →
            (file.mirrors.setDefault owner file.messageId).get? message.1 =
              some id → message.2 = id →
            file.Mentions primaryKey message := by
          intro id positive found same_
          refine ⟨same_ ▸ positive, ?_⟩
          rcases kept _ _ found with ⟨here, id_⟩ | mirror
          · left
            rw [foreign, ownerOf, if_neg Bool.false_ne_true, recorded]
            subst here
            exact ⟨by simp [named], by rw [same_, id_]⟩
          · exact .inr (same_ ▸ mirror)
        split at mentions
        · rename_i id promoted
          obtain ⟨found, positive⟩ := Option.filter_eq_some_iff.mp promoted
          obtain ⟨larger, own | mirror⟩ := mentions
          · obtain ⟨owner_, id_⟩ := own
            have primary : primaryKey = message.1 := by
              simpa [ownerOf, FileRef.ownedBy] using owner_
            rw [primary] at found
            exact before id (by simpa using positive) found id_.symm
          · have there : (file.mirrors.setDefault owner
                file.messageId).get? message.1 = some message.2 := by
              have erased := mirror
              dsimp only at erased
              rw [Dict.get?_erase] at erased
              split at erased
              · cases erased
              · exact erased
            exact before message.2 larger there rfl
        · obtain ⟨larger, own | mirror⟩ := mentions
          · refine ⟨larger, .inl ?_⟩
            simpa [FileRef.ownedBy, recorded] using own
          · exact before message.2 larger mirror rfl

namespace TGFSFileVersion

variable {version : TGFSFileVersion}

/-- The ids remembered for the owner are its own or were recorded there. -/
theorem mentions_of_remembered {owner : String}
    (recorded : version.store = some owner) (foreign : owner ≠ primaryKey)
    (named : message.1 ≠ "") (positive : 0 < message.2) {ids : List Int}
    (found : (version.remembered owner).get? message.1 = some ids)
    (inside : message.2 ∈ ids) : version.Mentions primaryKey message := by
  rw [remembered, Dict.get?_setDefault] at found
  split at found
  · rename_i here
    cases old : version.mirrors.get? owner with
    | none =>
        rw [old] at found
        cases found
        refine ⟨positive, .inl ⟨?_, inside⟩⟩
        simp [ownerOf, ownedBy, recorded, foreign, here ▸ named, here]
    | some others =>
        rw [old] at found
        cases found
        exact ⟨positive, .inr (.inl ⟨_, here ▸ old, inside⟩)⟩
  · exact ⟨positive, .inr (.inl ⟨ids, found, inside⟩)⟩

/-- A relocated version names no message that it did not name before. -/
theorem mentions_of_relocate (named : message.1 ≠ "")
    (mentions : (version.relocate primaryKey).Mentions primaryKey message) :
    version.Mentions primaryKey message := by
  cases recorded : version.store with
  | none =>
      have same : version.relocate primaryKey = version := by
        simp [relocate, recorded]
      rw [same] at mentions
      exact mentions
  | some owner =>
      by_cases own : owner = primaryKey
      · have same : version.relocate primaryKey = version := by
          simp [relocate, recorded, own]
        rw [same] at mentions
        exact mentions
      · have remembers : 0 < message.2 → ∀ ids,
            (version.remembered owner).get? message.1 = some ids →
            message.2 ∈ ids → version.Mentions primaryKey message :=
          fun positive ids found inside =>
            mentions_of_remembered recorded own named positive found inside
        rcases version.relocate_cases recorded (Ne.symm own) with
          ⟨ids, found, _, moved⟩ | ⟨replica, found, _, _, moved⟩ |
            ⟨_, _, moved⟩
        · rw [moved] at mentions
          obtain ⟨positive, ⟨owner_, inside⟩ | ⟨others, mirror, inside⟩ |
            ⟨other, listed, inside⟩⟩ := mentions
          · have primary : primaryKey = message.1 := by
              simpa [ownerOf, ownedBy] using owner_
            exact ⟨positive, .inr (.inl ⟨ids, primary ▸ found, inside⟩)⟩
          · dsimp only at mirror
            rw [Dict.get?_erase] at mirror
            split at mirror
            · cases mirror
            · exact remembers positive others mirror inside
          · exact ⟨positive, .inr (.inr ⟨other, listed, inside⟩)⟩
        · rw [moved] at mentions
          obtain ⟨positive, ⟨owner_, inside⟩ | ⟨others, mirror, inside⟩ |
            ⟨other, listed, inside⟩⟩ := mentions
          · have primary : primaryKey = message.1 := by
              simpa [ownerOf, ownedBy, adoptReplica] using owner_
            exact ⟨positive, .inr (.inr ⟨replica, primary ▸ found, inside⟩)⟩
          · cases mirror
          · have remembered_ : (version.remembered owner).get? owner =
                some ((version.mirrors.get? owner).getD
                  version.messageIds) := by
              rw [remembered, Dict.get?_setDefault, if_pos rfl]
            simp only [adoptReplica, keptInPlace, remembered_,
              Option.getD_some] at listed
            rcases mirrorsToReplicas_get _ _ _ _ _ _ listed with
              ⟨ids, member, _, rfl⟩ | before
            · have kept := (Dict.mem_items_erase _ owner _).mp member
              exact remembers positive ids
                ((Dict.get?_eq_some_iff _ _ _).mpr kept.1) inside
            · rw [Dict.get?_set] at before
              split at before
              · rename_i here
                cases before
                exact remembers positive _ (here ▸ remembered_) inside
              · rw [Dict.get?_erase] at before
                split at before
                · cases before
                · exact ⟨positive, .inr (.inr ⟨other, before, inside⟩)⟩
        · rw [moved] at mentions
          obtain ⟨positive, ⟨owner_, inside⟩ | ⟨others, mirror, inside⟩ |
            ⟨other, listed, inside⟩⟩ := mentions
          · exact ⟨positive, .inl ⟨owner_, inside⟩⟩
          · exact remembers positive others mirror inside
          · dsimp only [keptInPlace] at listed
            rw [Dict.get?_erase] at listed
            split at listed
            · cases listed
            · exact ⟨positive, .inr (.inr ⟨other, listed, inside⟩)⟩

theorem Mentions.congr {other : TGFSFileVersion}
    (mentions : version.Mentions primaryKey message)
    (store : version.store = other.store)
    (ids : ∀ id ∈ version.messageIds, id ∈ other.messageIds)
    (mirrors : version.mirrors = other.mirrors)
    (replicas : ∀ key replica, version.replicas.get? key = some replica →
      ∃ before, other.replicas.get? key = some before ∧
        before.messageIds = replica.messageIds) :
    other.Mentions primaryKey message := by
  obtain ⟨positive, ⟨owner, inside⟩ | ⟨known, mirror, inside⟩ |
    ⟨replica, listed, inside⟩⟩ := mentions
  · refine ⟨positive, .inl ⟨?_, ids _ inside⟩⟩
    rw [ownedBy, store] at owner
    exact owner
  · exact ⟨positive, .inr (.inl ⟨known, mirrors ▸ mirror, inside⟩)⟩
  · obtain ⟨before, there, same⟩ := replicas _ _ listed
    exact ⟨positive, .inr (.inr ⟨before, there, same ▸ inside⟩)⟩

end TGFSFileVersion

namespace FDRepository

variable {repo : FDRepository} {answers : Answers}
  {messages : Dict Int StoredMessage}

variable {version : TGFSFileVersion}

theorem verifyReplicas_get {storeKey : String} {replica : Replica}
    (found : (repo.verifyReplicas answers version).1.get? storeKey =
      some replica) :
    ∃ before, version.replicas.get? storeKey = some before ∧
      before.messageIds = replica.messageIds := by
  have listed := Dict.mem_of_mem_ofList
    ((Dict.get?_eq_some_iff _ _ _).mp found)
  obtain ⟨item, member, same⟩ := List.mem_map.mp listed
  have there := (Dict.get?_eq_some_iff version.replicas item.1 item.2).mpr
    member
  split at same
  · cases same
    exact ⟨item.2, there, rfl⟩
  · cases same
    exact ⟨_, there, rfl⟩

theorem mentions_of_validateVersion
    (mentions : (repo.validateVersion answers messages version).Mentions
      primaryKey message) : version.Mentions primaryKey message := by
  unfold validateVersion at mentions
  split at mentions
  · exact mentions.congr rfl (fun _ inside => inside) rfl
      (fun _ replica found => ⟨replica, found, rfl⟩)
  · dsimp only at mentions
    split at mentions
    · exact mentions.congr rfl (fun _ inside => inside) rfl
        (fun _ _ found => verifyReplicas_get found)
    · obtain ⟨_, ⟨_, inside⟩ | ⟨_, mirror, _⟩ | ⟨_, listed, _⟩⟩ := mentions
      · cases inside
      · cases mirror
      · cases listed

theorem mem_validateVersions {includeAll : Bool}
    {items : List (String × TGFSFileVersion)}
    {item : String × TGFSFileVersion}
    (member : item ∈
      (repo.validateVersions answers messages includeAll items).1) :
    ∃ before, (item.1, before) ∈ items ∧
      (item.2 = before ∨
        item.2 = repo.validateVersion answers messages before) := by
  induction items with
  | nil => cases member
  | cons first items induction =>
      obtain ⟨key, version⟩ := first
      have later : item ∈
          (repo.validateVersions answers messages includeAll items).1 →
          ∃ before, (item.1, before) ∈ (key, version) :: items ∧
            (item.2 = before ∨
              item.2 = repo.validateVersion answers messages before) := by
        intro there
        obtain ⟨before, listed, same⟩ := induction there
        exact ⟨before, List.mem_cons_of_mem _ listed, same⟩
      unfold validateVersions at member
      split at member
      · dsimp only at member
        split at member
        · rcases List.mem_cons.mp member with rfl | unchecked
          · exact ⟨version, List.mem_cons_self, .inr rfl⟩
          · exact ⟨item.2, List.mem_cons_of_mem _ unchecked, .inl rfl⟩
        · rcases List.mem_cons.mp member with rfl | there
          · exact ⟨version, List.mem_cons_self, .inr rfl⟩
          · exact later there
      · rcases List.mem_cons.mp member with rfl | there
        · exact ⟨version, List.mem_cons_self, .inl rfl⟩
        · exact later there

variable {desc : TGFSFileDesc}

theorem mentions_of_pointAtReadable {hasValid : Bool} {now : DateTime}
    (mentions : (repo.pointAtReadable desc hasValid now).Mentions primaryKey
      message) : desc.Mentions primaryKey message := by
  obtain ⟨version, member, names⟩ := mentions
  refine ⟨version, ?_, names⟩
  unfold pointAtReadable at member
  dsimp only at member
  split at member
  · split at member
    · exact member
    · split at member
      · exact member
      · exact member
  · cases member

/-- A descriptor that was read names no message beyond those in its text. -/
theorem mentions_of_get {file : FileRef} {now : DateTime}
    (named : message.1 ≠ "")
    (got : repo.get answers file false true now = .ok desc)
    (mentions : desc.Mentions primaryKey message)
    (own : primaryKey = repo.key) :
    ∃ text recorded,
      repo.getFdText answers (file.relocate repo.key) = some text ∧
      TGFSFileDesc.fromDict text file.name now = .ok recorded ∧
        recorded.Mentions primaryKey message := by
  unfold get at got
  split at got
  · cases got
    obtain ⟨version, member, _⟩ := mentions
    cases member
  · rename_i text found
    split at got
    · cases got
    · rename_i recorded decoded
      dsimp only at got
      rw [if_pos rfl] at got
      unfold validateFv at got
      dsimp only at got
      split at got
      · cases got
      · cases got
        refine ⟨text, recorded, found, decoded, ?_⟩
        obtain ⟨version, member, names⟩ :=
          mentions_of_pointAtReadable mentions
        obtain ⟨item, listed, rfl⟩ := List.mem_map.mp member
        obtain ⟨before, there, same⟩ := mem_validateVersions listed
        have relocated : before.Mentions primaryKey message := by
          rcases same with same | same
          · exact same ▸ names
          · rw [same] at names
            exact mentions_of_validateVersion names
        obtain ⟨original, stored, moved⟩ := List.mem_map.mp there
        have moved_ : original.2.relocate repo.key = before :=
          congrArg Prod.snd moved
        rw [← moved_, ← own] at relocated
        exact ⟨original.2, List.mem_map.mpr ⟨original, stored, rfl⟩,
          TGFSFileVersion.mentions_of_relocate named relocated⟩

/-- Stamping a version with the primary adds and removes no message. -/
theorem mentions_stampVersion :
    (stampVersion primaryKey version).Mentions primaryKey message ↔
      version.Mentions primaryKey message := by
  unfold stampVersion
  split
  · rename_i bare
    have owner : ownerOf primaryKey
        (TGFSFileVersion.ownedBy { version with store := some primaryKey }
          primaryKey) (some primaryKey) =
        ownerOf primaryKey (version.ownedBy primaryKey) version.store := by
      simp [ownerOf, TGFSFileVersion.ownedBy, bare.1]
    simp only [TGFSFileVersion.Mentions, owner]
  · exact Iff.rfl

theorem mentions_stamp (own : primaryKey = repo.key) :
    (repo.stamp desc).Mentions primaryKey message ↔
      desc.Mentions primaryKey message := by
  subst own
  simp only [TGFSFileDesc.Mentions, stamp, Dict.values_mapValues,
    List.mem_map, exists_exists_and_eq_and, mentions_stampVersion]

end FDRepository

namespace FileApi

variable {api : FileApi} {answers : Answers} {now : DateTime}
  {file : FileRef} {message : String × Int}

/-- The message is recorded by the ref or in the text of its descriptor. -/
def Records (api : FileApi) (answers : Answers) (now : DateTime)
    (file : FileRef) (message : String × Int) : Prop :=
  file.Mentions api.repo.key message ∨
    ∃ text recorded,
      api.repo.getFdText answers (file.relocate api.repo.key) = some text ∧
      TGFSFileDesc.fromDict text file.name now = .ok recorded ∧
        recorded.Mentions api.repo.key message

/-- A file with its descriptor, if it has one, needs the message. -/
def References (api : FileApi) (file : FileRef)
    (described : Option TGFSFileDesc) (message : String × Int) : Prop :=
  file.Mentions api.repo.key message ∨
    ∃ desc, described = some desc ∧ desc.Mentions api.repo.key message

/-- Some file of the tree, apart from the given places, needs the message. -/
def NeededElsewhere (api : FileApi) (files : List FileRef)
    (described : Nat → Option TGFSFileDesc) (removing : List Nat)
    (message : String × Int) : Prop :=
  ∃ place file, place ∉ removing ∧ files[place]? = some file ∧
    api.References file (described place) message

instance : (described : Option TGFSFileDesc) →
    Decidable (api.References file described message)
  | none =>
      decidable_of_iff (file.Mentions api.repo.key message)
        (by simp [References])
  | some desc =>
      decidable_of_iff (file.Mentions api.repo.key message ∨
        desc.Mentions api.repo.key message) (by simp [References])

instance (files : List FileRef) (described : Nat → Option TGFSFileDesc)
    (removing : List Nat) :
    Decidable (api.NeededElsewhere files described removing message) :=
  decidable_of_iff (∃ entry ∈ files.zipIdx, entry.2 ∉ removing ∧
      api.References entry.1 (described entry.2) message) (by
    simp only [NeededElsewhere, List.mem_zipIdx_iff_getElem?, Prod.exists]
    constructor
    · rintro ⟨file, place, there, outside, references⟩
      exact ⟨place, file, outside, there, references⟩
    · rintro ⟨place, file, outside, there, references⟩
      exact ⟨file, place, there, outside, references⟩)

theorem deleted_iff {collected : Collected} :
    api.deleted collected message = true ↔
      collected.holds api.repo.key message = true ∧
        api.deletes message.1 = true := by
  rw [deleted, Bool.and_eq_true]

theorem named_of_deletes (deletes : api.deletes message.1 = true) :
    message.1 ≠ "" := by
  intro empty
  rw [empty, api.deletes_named] at deletes
  cases deletes

theorem Reads.records (reads : api.Reads answers now file message)
    (named : message.1 ≠ "") : api.Records answers now file message := by
  rcases reads with mentions | ⟨desc, got, mentions⟩
  · exact .inl (FileRef.mentions_of_relocate named mentions)
  · exact .inr (FDRepository.mentions_of_get named got mentions rfl)

/-- The file of the tree after one of its versions was removed. -/
def synced (file : FileRef) (resp : FDRepositoryResp) : FileRef :=
  { file with
    messageId := resp.messageId
    mirrors := resp.mirrors
    store := some resp.store }

/-- What is left of a descriptor after a version was removed from it. -/
theorem rmVersion_ok {later : Answers} {texts written : FDRepository.Texts}
    {versionId : String} {fresh : Int} {writes : MirrorWrites}
    {resp : FDRepositoryResp} {collected : Collected}
    (removed : api.rmVersion answers later texts file versionId now fresh
      writes = (written, .ok (resp, collected))) :
    collected = api.collectVersion answers now file versionId ∧
      ∃ desc, api.repo.get later (file.relocate api.repo.key) false true
          now = .ok desc ∧
        ∀ message, resp.fd.Mentions api.repo.key message ↔
          ∃ item ∈ desc.versions.items, item.1 ≠ versionId ∧
            item.2.Mentions api.repo.key message := by
  have outcome := congrArg Prod.snd removed
  obtain ⟨answer, wrote, same⟩ := ok_of_map outcome
  cases same
  refine ⟨rfl, ?_⟩
  unfold FDRepository.deleteFileVersion at wrote
  split at wrote
  · cases wrote
  · rename_i desc got
    split at wrote
    · cases wrote
    · rename_i kept dropped
      refine ⟨desc, got, ?_⟩
      have versions : kept.versions = desc.versions.erase versionId := by
        unfold TGFSFileDesc.deleteVersion at dropped
        split at dropped
        · cases dropped
        · dsimp only at dropped
          split at dropped
          · cases dropped
            rfl
          · split at dropped
            · cases dropped
              rfl
            · obtain ⟨latest, _, rfl⟩ := ok_of_map dropped
              rfl
      have stamped : resp.fd = api.repo.stamp kept := by
        unfold FDRepository.save at wrote
        dsimp only at wrote
        split at wrote
        · cases wrote
        · split at wrote
          · cases wrote
          · cases wrote
            rfl
      intro message
      rw [stamped, FDRepository.mentions_stamp rfl, TGFSFileDesc.Mentions,
        versions]
      constructor
      · rintro ⟨version, member, names⟩
        obtain ⟨item, listed, rfl⟩ := List.mem_map.mp member
        have old := (Dict.mem_items_erase _ versionId item).mp listed
        exact ⟨item, old.1, old.2, names⟩
      · rintro ⟨item, listed, other, names⟩
        exact ⟨item.2, List.mem_map.mpr ⟨item,
          (Dict.mem_items_erase _ versionId item).mpr ⟨listed, other⟩,
          rfl⟩, names⟩

def importingApi : FileApi where
  repo :=
    { key := "tg:1"
      mirrorKeys := none
      localVersions := fun _ => false
      key_normal := normalizeStoreKey_tg }
  deletes := fun storeKey => storeKey = "tg:1"
  deletes_named := by decide

/-- Two files made from the message 10; their descriptors are 1 and 2. -/
def importedFiles : List FileRef :=
  [⟨1, ['a'], Dict.empty, some "tg:1"⟩, ⟨2, ['b'], Dict.empty, some "tg:1"⟩]

def importedText : DescSerialized :=
  { versions :=
      [{ id := "v"
         updatedAt := 5
         messageIds := some [10]
         size := 3
         store := some "tg:1" }] }

/-- Every message is there. -/
def importedAnswers : Answers
  | .descriptor, ids => some (ids.map fun id =>
      some { messageId := id, text := some importedText })
  | _, ids => some (ids.map fun id =>
      some { messageId := id, documentSize := some 3 })

/-- The descriptors of the files as they are read. -/
def importedDescriptor (place : Nat) : Option TGFSFileDesc :=
  importedFiles[place]?.bind fun file =>
    (importingApi.repo.get importedAnswers file false true ⟨9, false⟩).toOption

/-- Message 1 describes a file with the contents 10 and 11; message 2 one with
the content 20, under two names. -/
def linkedFiles : List FileRef :=
  [⟨1, ['a'], Dict.empty, some "tg:1"⟩, ⟨2, ['b'], Dict.empty, some "tg:1"⟩,
    ⟨2, ['c'], Dict.empty, some "tg:1"⟩]

def linkedText (id : Int) : DescSerialized :=
  { versions := (if id = 1 then [("v", 10), ("w", 11)] else [("x", 20)]).map
      fun entry =>
        { id := entry.1
          updatedAt := 5
          messageIds := some [entry.2]
          size := 3
          store := some "tg:1" } }

def linkedAnswers : Answers
  | .descriptor, ids => some (ids.map fun id =>
      some { messageId := id, text := some (linkedText id) })
  | _, ids => some (ids.map fun id =>
      some { messageId := id, documentSize := some 3 })

def linkedDescriptor (place : Nat) : Option TGFSFileDesc :=
  linkedFiles[place]?.bind fun file =>
    (importingApi.repo.get linkedAnswers file false true ⟨9, false⟩).toOption

theorem Collected.holds_ids {ids : List Int} {key : String}
    (holds : ({ ids := ids } : Collected).holds key message = true) :
    message.1 = key ∧ message.2 ∈ ids := by
  simpa [Collected.holds, Dict.get?, Dict.empty] using holds

/-- The version with the content 10 is removed. -/
def removeFirst : FDRepository.Texts ×
    Except WriteError (FDRepositoryResp × Collected) :=
  importingApi.rmVersion linkedAnswers linkedAnswers
    (Dict.empty.set 1 (linkedText 1)) ⟨1, ['a'], Dict.empty, some "tg:1"⟩ "v"
    ⟨9, false⟩ 30
    { strict := false, edit := fun _ _ => .notFound, send := fun _ => none }

end FileApi

end Tgdcfs
