import Tgdcfs.Replication.BackfillVersions

/-!
# What a version keeps

A descriptor is read, changed in memory and written back as a whole, so a
version passes through many states on the way.  Every state keeps what the
one before it recorded: content stays content, and of a version of the
primary the message ids and the complete copies stay as they are.
-/

namespace Tgdcfs

open Lib

namespace TGFSFileVersion

variable {key : String} {version middle kept : TGFSFileVersion}

/-- What a later state of a version keeps.  A pending version has its ids
still to come, and a version of a former primary gets its copies after it
was copied into this one. -/
structure Retained (key : String) (version kept : TGFSFileVersion) :
    Prop where
  pending : version.pending = false → kept.pending = false
  content : version.pending = false → version.isValid = true →
    kept.isValid = true
  owned : version.ownedBy key = true → kept.ownedBy key = true
  messageIds : version.ownedBy key = true → version.pending = false →
    version.isValid = true → kept.messageIds = version.messageIds
  mirrors : version.ownedBy key = true → version.pending = false →
    ∀ storeKey ids, version.mirrors.get? storeKey = some ids →
      aligned ids version.messageIds = true →
        kept.mirrors.get? storeKey = some ids
  replicas : version.ownedBy key = true →
    ∀ storeKey replica, version.replicas.get? storeKey = some replica →
      replica.messageIds ≠ [] →
        ∃ other, kept.replicas.get? storeKey = some other ∧
          other.messageIds = replica.messageIds

theorem isValid_of_aligned {ids : List Int}
    (covers : aligned ids version.messageIds = true) :
    version.isValid = true := by
  cases valid : version.isValid with
  | true => rfl
  | false =>
      rw [isValid_false_iff.mp valid, not_aligned_nil] at covers
      cases covers

namespace Retained

theorem of_same (pending : kept.pending = version.pending)
    (messageIds : kept.messageIds = version.messageIds)
    (store : kept.store = version.store)
    (mirrors : kept.mirrors = version.mirrors)
    (replicas : kept.replicas = version.replicas) :
    Retained key version kept := by
  refine ⟨?_, ?_, ?_, fun _ _ _ => messageIds, ?_, ?_⟩
  · intro settled
    rw [pending]
    exact settled
  · intro _ valid
    rw [isValid, messageIds]
    exact valid
  · intro owned
    rw [ownedBy, store]
    exact owned
  · intro _ _ storeKey ids found _
    rw [mirrors]
    exact found
  · intro _ storeKey replica found _
    rw [replicas]
    exact ⟨replica, found, rfl⟩

theorem of_foreign
    (foreign : version.ownedBy key = false)
    (pending : version.pending = false → kept.pending = false)
    (content : version.isValid = true → kept.isValid = true) :
    Retained key version kept := by
  have never : ∀ {P : Prop}, version.ownedBy key = true → P := by
    intro P owned
    rw [foreign] at owned
    cases owned
  exact ⟨pending, fun _ valid => content valid, never, never, never, never⟩

theorem refl (version : TGFSFileVersion) : Retained key version version :=
  of_same rfl rfl rfl rfl rfl

theorem trans (first : Retained key version middle)
    (second : Retained key middle kept) : Retained key version kept := by
  have settles := fun settled => first.pending settled
  refine ⟨fun settled => second.pending (settles settled), ?_,
    fun owned => second.owned (first.owned owned), ?_, ?_, ?_⟩
  · intro settled valid
    exact second.content (settles settled) (first.content settled valid)
  · intro owned settled valid
    rw [second.messageIds (first.owned owned) (settles settled)
      (first.content settled valid)]
    exact first.messageIds owned settled valid
  · intro owned settled storeKey ids found covers
    have same := first.messageIds owned settled (isValid_of_aligned covers)
    refine second.mirrors (first.owned owned) (settles settled) storeKey ids
      (first.mirrors owned settled storeKey ids found covers) ?_
    rw [same]
    exact covers
  · intro owned storeKey replica found nonempty
    obtain ⟨other, there, same⟩ :=
      first.replicas owned storeKey replica found nonempty
    obtain ⟨last, here, equal⟩ := second.replicas (first.owned owned)
      storeKey other there (same ▸ nonempty)
    exact ⟨last, here, equal.trans same⟩

end Retained

theorem relocate_isValid (valid : version.isValid = true) (key : String) :
    (version.relocate key).isValid = true := by
  cases stored : version.store with
  | none =>
      rw [relocate_owned (ownedBy_iff.mpr (.inl stored))]
      exact valid
  | some owner =>
      by_cases same : key = owner
      · rw [relocate_owned (ownedBy_iff.mpr (.inr (same ▸ stored)))]
        exact valid
      · rcases version.relocate_cases stored same with
          ⟨ids, _, covers, moved⟩ | ⟨replica, _, nonempty, _, moved⟩ |
          ⟨_, _, moved⟩
        · rw [moved]
          simpa [isValid] using aligned_ne_nil covers
        · rw [moved]
          simpa [isValid, adoptReplica] using nonempty
        · rw [moved]
          exact valid

theorem retained_relocate (version : TGFSFileVersion) (key : String) :
    Retained key version (version.relocate key) := by
  cases owned : version.ownedBy key with
  | true =>
      rw [relocate_owned owned]
      exact .refl version
  | false =>
      refine .of_foreign owned ?_ fun valid => relocate_isValid valid key
      intro settled
      rw [relocate_pending]
      exact settled

end TGFSFileVersion

/-- Every version records its store and its copies under normal keys. -/
def TGFSFileDesc.AllNormal (desc : TGFSFileDesc) : Prop :=
  ∀ versionId version, desc.versions.get? versionId = some version →
    version.Normal

namespace FDRepository

variable {repo : FDRepository} {answers : Answers}
  {messages : Dict Int StoredMessage} {version : TGFSFileVersion}

/-- Some store has the content of a version: the parts are found one by one
in the primary or in line with it, or a replica is complete. -/
def located (repo : FDRepository) (answers : Answers)
    (messages : Dict Int StoredMessage) (version : TGFSFileVersion) : Bool :=
  (repo.layoutSizes answers messages version
      version.messageIds.zipIdx).isSome ||
    (repo.verifyReplicas answers version).2

theorem validateVersion_messageIds
    (found : repo.located answers messages version = true) :
    (repo.validateVersion answers messages version).messageIds =
      version.messageIds := by
  unfold validateVersion
  cases sizes : repo.layoutSizes answers messages version
      version.messageIds.zipIdx with
  | some partSizes => rfl
  | none =>
      have verified : (repo.verifyReplicas answers version).2 = true := by
        simpa [located, sizes] using found
      dsimp only
      rw [if_pos verified]

theorem retained_validateVersion
    (found : repo.located answers messages version = true) :
    TGFSFileVersion.Retained repo.key version
      (repo.validateVersion answers messages version) := by
  unfold validateVersion
  cases sizes : repo.layoutSizes answers messages version
      version.messageIds.zipIdx with
  | some partSizes => exact .of_same rfl rfl rfl rfl rfl
  | none =>
      have verified : (repo.verifyReplicas answers version).2 = true := by
        simpa [located, sizes] using found
      dsimp only
      rw [if_pos verified]
      refine ⟨id, fun _ valid => valid, id, fun _ _ _ => rfl,
        fun _ _ _ _ there _ => there, ?_⟩
      intro _ storeKey replica there _
      refine ⟨repo.verifiedReplica answers version storeKey replica, ?_,
        verifiedReplica_messageIds storeKey replica⟩
      rw [verifyReplicas_replicas, Dict.get?_mapItems, there,
        Option.map_some]

/-- The versions whose content a read asks for: all of them, or the first
alone while the stores have that one. -/
def asked (includeAll : Bool) (items : List (String × TGFSFileVersion)) :
    List TGFSFileVersion :=
  let contents := (items.map Prod.snd).filter TGFSFileVersion.isValid
  if includeAll then contents else contents.take 1

variable {includeAll : Bool} {versionId : String}

theorem asked_cons_invalid (invalid : ¬version.isValid = true)
    (rest : List (String × TGFSFileVersion)) :
    asked includeAll ((versionId, version) :: rest) =
      asked includeAll rest := by
  simp [asked, invalid]

theorem mem_asked_cons (valid : version.isValid = true)
    (rest : List (String × TGFSFileVersion)) :
    version ∈ asked includeAll ((versionId, version) :: rest) := by
  cases includeAll <;> simp [asked, valid]

theorem mem_asked_of_rest {other : TGFSFileVersion}
    {rest : List (String × TGFSFileVersion)} (member : other ∈ asked true rest)
    : other ∈ asked true ((versionId, version) :: rest) := by
  unfold asked at member ⊢
  dsimp only at member ⊢
  rw [if_pos rfl] at member ⊢
  rw [List.map_cons, List.filter_cons]
  split
  · exact List.mem_cons_of_mem version member
  · exact member

/-- Checking versions that the stores have keeps what they record. -/
theorem mem_validateVersions_located {items : List (String × TGFSFileVersion)}
    (found : ∀ version ∈ asked includeAll items,
      repo.located answers messages version = true)
    {item : String × TGFSFileVersion}
    (member : item ∈
      (repo.validateVersions answers messages includeAll items).1) :
    ∃ before, (item.1, before) ∈ items ∧
      (item.2 = before ∨
        item.2 = repo.validateVersion answers messages before ∧
          before.isValid = true ∧
          repo.located answers messages before = true) := by
  induction items with
  | nil => cases member
  | cons first rest induction =>
      obtain ⟨versionId, version⟩ := first
      have later : (∀ version ∈ asked includeAll rest,
            repo.located answers messages version = true) →
          item ∈ (repo.validateVersions answers messages includeAll rest).1 →
            ∃ before, (item.1, before) ∈ (versionId, version) :: rest ∧
              (item.2 = before ∨
                item.2 = repo.validateVersion answers messages before ∧
                  before.isValid = true ∧
                  repo.located answers messages before = true) := by
        intro all there
        obtain ⟨before, listed, same⟩ := induction all there
        exact ⟨before, List.mem_cons_of_mem _ listed, same⟩
      unfold validateVersions at member
      by_cases valid : version.isValid = true
      · have here := found version (mem_asked_cons valid rest)
        have stays : (repo.validateVersion answers messages version).isValid =
            true := by
          rw [TGFSFileVersion.isValid, validateVersion_messageIds here]
          exact valid
        rw [if_pos valid] at member
        dsimp only at member
        cases includeAll with
        | false =>
            rw [if_pos (by simp [stays])] at member
            rcases List.mem_cons.mp member with rfl | unchecked
            · exact ⟨version, List.mem_cons_self, .inr ⟨rfl, valid, here⟩⟩
            · exact ⟨item.2, List.mem_cons_of_mem _ unchecked, .inl rfl⟩
        | true =>
            rw [if_neg (by simp)] at member
            rcases List.mem_cons.mp member with rfl | there
            · exact ⟨version, List.mem_cons_self, .inr ⟨rfl, valid, here⟩⟩
            · apply later _ there
              intro other listed
              exact found other (mem_asked_of_rest listed)
      · rw [if_neg valid] at member
        rw [asked_cons_invalid valid] at found
        rcases List.mem_cons.mp member with rfl | there
        · exact ⟨version, List.mem_cons_self, .inl rfl⟩
        · exact later found there

/-- The check of a read finds every version that it asks the stores for, and
can serve one if the descriptor has any. -/
def readsWhole (repo : FDRepository) (answers : Answers) (includeAll : Bool)
    (desc : TGFSFileDesc) : Bool :=
  (asked includeAll desc.versions.items).all (repo.located answers
    (messageMap ((answers .parts (repo.primaryIds desc)).getD []))) &&
  (desc.versions.items.isEmpty || desc.versions.values.any repo.readable)

theorem exists_asked {items : List (String × TGFSFileVersion)}
    {item : String × TGFSFileVersion} (member : item ∈ items)
    (valid : item.2.isValid = true) :
    ∃ other ∈ items, other.2 ∈ asked includeAll items ∧
      other.2.isValid = true := by
  induction items with
  | nil => cases member
  | cons first rest induction =>
      obtain ⟨versionId, version⟩ := first
      by_cases content : version.isValid = true
      · exact ⟨_, List.mem_cons_self, mem_asked_cons content rest, content⟩
      · rcases List.mem_cons.mp member with rfl | later
        · exact absurd valid content
        · obtain ⟨other, listed, isAsked, isContent⟩ := induction later
          rw [asked_cons_invalid content]
          exact ⟨other, List.mem_cons_of_mem _ listed, isAsked, isContent⟩

theorem validateVersion_normal (normal : version.Normal) :
    (repo.validateVersion answers messages version).Normal := by
  unfold validateVersion
  split
  · exact ⟨normal.mirrors, normal.replicas, normal.store⟩
  · dsimp only
    split
    · refine ⟨normal.mirrors, ?_, normal.store⟩
      intro storeKey replica found
      rw [verifyReplicas_replicas, Dict.get?_mapItems] at found
      obtain ⟨before, there, _⟩ := Option.map_eq_some_iff.mp found
      exact normal.replicas storeKey before there
    · exact ⟨.empty, .empty, normal.store⟩

variable {now : DateTime}

theorem pointAtReadable_get? {desc : TGFSFileDesc} {hasValid : Bool}
    (found : (repo.pointAtReadable desc hasValid now).versions.get?
      versionId = some version) :
    desc.versions.get? versionId = some version := by
  unfold pointAtReadable at found
  dsimp only at found
  split at found
  · split at found
    · exact found
    · split at found
      · exact found
      · exact found
  · cases found

/-- A descriptor with a version that can be served comes with its versions
from the check. -/
theorem validated_any_readable {desc : TGFSFileDesc}
    (whole : repo.readsWhole answers includeAll desc = true)
    (filled : desc.versions.items ≠ []) :
    ((repo.validateVersions answers
        (messageMap ((answers .parts (repo.primaryIds desc)).getD []))
        includeAll desc.versions.items).2 ||
      (repo.validated answers
        (messageMap ((answers .parts (repo.primaryIds desc)).getD []))
        includeAll desc.versions).values.any repo.readableLocally) = true := by
  obtain ⟨all, nothing | shows⟩ := by
    simpa only [readsWhole, Bool.and_eq_true, List.all_eq_true,
      Bool.or_eq_true] using whole
  · exact absurd (List.isEmpty_iff.mp nothing) filled
  obtain ⟨shown, listed, isReadable⟩ := List.any_eq_true.mp shows
  obtain ⟨item, there, rfl⟩ := List.mem_map.mp listed
  rw [Bool.or_eq_true]
  rw [readable, Bool.or_eq_true] at isReadable
  rcases isReadable with valid | inCache
  · left
    obtain ⟨other, member, isAsked, content⟩ :=
      @exists_asked includeAll _ _ there valid
    apply validateVersions_succeeds member content
    rw [TGFSFileVersion.isValid,
      validateVersion_messageIds (all _ isAsked)]
    exact content
  · right
    obtain ⟨checked, found, same⟩ := repo.validated_get? answers
      (messageMap ((answers .parts (repo.primaryIds desc)).getD []))
      includeAll ((Dict.get?_eq_some_iff _ _ _).mpr there)
    refine List.any_eq_true.mpr ⟨checked, List.mem_map.mpr
      ⟨_, (Dict.get?_eq_some_iff _ _ _).mp found, rfl⟩, ?_⟩
    have unmoved : checked.pending = item.2.pending ∧
        checked.id = item.2.id := by
      rcases same with same | same
      · rw [same]
        exact ⟨rfl, rfl⟩
      · rw [same, validateVersion_pending, validateVersion_id]
        exact ⟨rfl, rfl⟩
    rw [readableLocally, unmoved.1, unmoved.2]
    exact inCache

variable {file : FileRef} {text : DescSerialized}
  {recorded served : TGFSFileDesc}

/-- Every version comes relocated from a read that finds the versions, and a
checked one was found. -/
theorem get_located
    (read : repo.getFdText answers (file.relocate repo.key) = some text)
    (parsed : TGFSFileDesc.fromDict text file.name now = .ok recorded)
    (whole : repo.readsWhole answers includeAll
      (repo.relocateVersions recorded) = true)
    (got : repo.get answers file includeAll true now = .ok served)
    {version : TGFSFileVersion}
    (found : recorded.versions.get? versionId = some version) :
    ∃ messages kept, served.versions.get? versionId = some kept ∧
      (kept = version.relocate repo.key ∨
        kept = repo.validateVersion answers messages
            (version.relocate repo.key) ∧
          (version.relocate repo.key).isValid = true ∧
          repo.located answers messages (version.relocate repo.key) =
            true) := by
  have moved : (repo.relocateVersions recorded).versions.get? versionId =
      some (version.relocate repo.key) := by
    rw [relocateVersions, Dict.get?_mapValues, found, Option.map_some]
  have listed := (Dict.get?_eq_some_iff _ _ _).mp moved
  have filled : (repo.relocateVersions recorded).versions.items ≠ [] :=
    List.ne_nil_of_mem listed
  unfold get at got
  rw [read] at got
  dsimp only at got
  rw [parsed] at got
  dsimp only at got
  rw [if_pos rfl, validateFv] at got
  dsimp only at got
  split at got
  · cases got
  cases got
  rw [pointAtReadable_versions (validated_any_readable whole filled)]
  obtain ⟨kept, there, _⟩ := repo.validated_get? answers
    (messageMap ((answers .parts
      (repo.primaryIds (repo.relocateVersions recorded))).getD []))
    includeAll moved
  refine ⟨messageMap ((answers .parts
    (repo.primaryIds (repo.relocateVersions recorded))).getD []), kept,
    there, ?_⟩
  have all := (Bool.and_eq_true_iff.mp whole).1
  rw [List.all_eq_true] at all
  obtain ⟨before, member, same⟩ := mem_validateVersions_located all
    ((Dict.get?_eq_some_iff _ _ _).mp there)
  have known := (Dict.get?_eq_some_iff _ _ _).mpr member
  have equal : before = version.relocate repo.key :=
    Option.some.inj (known.symm.trans moved)
  rw [← equal]
  exact same

/-- Every version comes with what it records from a read that finds the
versions. -/
theorem get_retained
    (read : repo.getFdText answers (file.relocate repo.key) = some text)
    (parsed : TGFSFileDesc.fromDict text file.name now = .ok recorded)
    (whole : repo.readsWhole answers includeAll
      (repo.relocateVersions recorded) = true)
    (got : repo.get answers file includeAll true now = .ok served)
    {version : TGFSFileVersion}
    (found : recorded.versions.get? versionId = some version) :
    ∃ kept, served.versions.get? versionId = some kept ∧
      TGFSFileVersion.Retained repo.key version kept := by
  obtain ⟨messages, kept, there, same⟩ :=
    get_located read parsed whole got found
  refine ⟨kept, there, ?_⟩
  have relocated := TGFSFileVersion.retained_relocate version repo.key
  rcases same with rfl | ⟨rfl, _, isLocated⟩
  · exact relocated
  · exact relocated.trans (retained_validateVersion isLocated)

theorem get_recorded
    (read : repo.getFdText answers (file.relocate repo.key) = some text)
    (parsed : TGFSFileDesc.fromDict text file.name now = .ok recorded)
    (got : repo.get answers file includeAll true now = .ok served)
    {kept : TGFSFileVersion}
    (found : served.versions.get? versionId = some kept) :
    ∃ version, recorded.versions.get? versionId = some version := by
  unfold get at got
  rw [read] at got
  dsimp only at got
  rw [parsed] at got
  dsimp only at got
  rw [if_pos rfl, validateFv] at got
  dsimp only at got
  split at got
  · cases got
  · cases got
    have checked := pointAtReadable_get? found
    obtain ⟨before, member, _⟩ := mem_validateVersions
      ((Dict.get?_eq_some_iff _ _ _).mp checked)
    obtain ⟨item, listed, moved⟩ := List.mem_map.mp member
    cases moved
    exact ⟨item.2, (Dict.get?_eq_some_iff _ _ _).mpr listed⟩

/-- Whatever a read finds, the keys of the copies it hands out are normal. -/
theorem get_normal
    (got : repo.get answers file includeAll true now = .ok served) :
    served.AllNormal := by
  have nothing : ∀ name complete, TGFSFileDesc.AllNormal
      { TGFSFileDesc.empty name now with complete := complete } := by
    intro name complete versionId version found
    cases found
  unfold get at got
  split at got
  · cases got
    exact nothing _ _
  · split at got
    · cases got
    · rename_i recorded parsed
      dsimp only at got
      rw [if_pos rfl, validateFv] at got
      dsimp only at got
      split at got
      · cases got
      · cases got
        intro versionId version found
        obtain ⟨before, member, same⟩ := mem_validateVersions
          ((Dict.get?_eq_some_iff _ _ _).mp (pointAtReadable_get? found))
        obtain ⟨item, listed, moved⟩ := List.mem_map.mp member
        cases moved
        obtain ⟨data, made⟩ := TGFSFileDesc.mem_fromDict parsed listed
        have normal : (item.2.relocate repo.key).Normal :=
          (TGFSFileVersion.fromDict_normal made).relocate repo.key_normal
        dsimp only at same
        rcases same with rfl | rfl
        · exact normal
        · exact validateVersion_normal normal

end FDRepository

namespace TGFSFileVersion

variable {key : String} {version : TGFSFileVersion}

theorem Normal.retained_reread (normal : version.Normal) (key : String) :
    Retained key version version.reread ∧
      Retained key version.reread version := by
  have store := normal.reread.1.store
  have mirrors : version.reread.mirrors = version.mirrors :=
    normal.mirrors.normalized
  have replicas := normal.reread.2
  exact ⟨.of_same rfl rfl store mirrors replicas,
    .of_same rfl rfl store.symm mirrors.symm replicas.symm⟩

theorem stampVersion_cases (key : String) (version : TGFSFileVersion) :
    version.store = none ∧ FDRepository.stampVersion key version =
        { version with store := some key } ∨
      FDRepository.stampVersion key version = version := by
  unfold FDRepository.stampVersion
  split
  · rename_i unstamped
    exact .inl ⟨unstamped.1, rfl⟩
  · exact .inr rfl

theorem retained_stampVersion (key : String) (version : TGFSFileVersion) :
    Retained key version (FDRepository.stampVersion key version) := by
  rcases stampVersion_cases key version with ⟨_, stamped⟩ | same
  · rw [stamped]
    exact ⟨fun settled => settled, fun _ valid => valid,
      fun _ => ownedBy_iff.mpr (.inr rfl),
      fun _ _ _ => rfl, fun _ _ _ _ found _ => found,
      fun _ _ replica found _ => ⟨replica, found, rfl⟩⟩
  · rw [same]
    exact .refl version

theorem Normal.stampVersion (normal : version.Normal)
    (made : normalizeStoreKey key = key) :
    (FDRepository.stampVersion key version).Normal := by
  rcases stampVersion_cases key version with ⟨_, stamped⟩ | same
  · rw [stamped]
    refine ⟨normal.mirrors, normal.replicas, ?_⟩
    intro owner stored
    cases stored
    exact made
  · rw [same]
    exact normal

theorem hasCopyIn_of_mirror {storeKey : String} {ids : List Int}
    (found : version.mirrors.get? storeKey = some ids)
    (covers : aligned ids version.messageIds = true) :
    version.hasCopyIn storeKey = true := by
  simp [hasCopyIn, found, covers]

theorem hasCopyIn_of_replica {storeKey : String} {replica : Replica}
    (found : version.replicas.get? storeKey = some replica)
    (nonempty : replica.messageIds ≠ []) :
    version.hasCopyIn storeKey = true := by
  simp [hasCopyIn, found, nonempty]

end TGFSFileVersion

theorem MirrorResult.retained_applyTo {result : MirrorResult}
    {version : TGFSFileVersion} (key : String)
    (absent : ∀ storeKey ∈ result.storeKeys,
      version.hasCopyIn storeKey = false) :
    TGFSFileVersion.Retained key version (result.applyTo version) := by
  refine ⟨id, fun _ valid => valid, id, fun _ _ _ => rfl, ?_, ?_⟩
  · intro _ _ storeKey ids found covers
    rcases Dict.get?_foldl_set result.mirrors version.mirrors storeKey with
      ⟨others, listed, _⟩ | ⟨_, same⟩
    · have missing := absent storeKey (List.mem_append_left _
        (List.mem_map.mpr ⟨_, listed, rfl⟩))
      rw [TGFSFileVersion.hasCopyIn_of_mirror found covers] at missing
      cases missing
    · exact same.trans found
  · intro _ storeKey replica found nonempty
    rcases Dict.get?_foldl_set result.replicas version.replicas storeKey with
      ⟨other, listed, _⟩ | ⟨_, same⟩
    · have missing := absent storeKey (List.mem_append_right _
        (List.mem_map.mpr ⟨_, listed, rfl⟩))
      rw [TGFSFileVersion.hasCopyIn_of_replica found nonempty] at missing
      cases missing
    · exact ⟨replica, same.trans found, rfl⟩

namespace BackfillClient

variable {client : BackfillClient} {answers : BackfillAnswers}
  {version : TGFSFileVersion}

theorem mirrorPartsInto_wanted {wanted keys : List String}
    {known : Option (List Nat)} {result copies : MirrorResult}
    (before : ∀ key ∈ result.storeKeys, key ∈ wanted)
    (done : client.mirrorPartsInto answers version wanted keys known result =
      some copies) : ∀ key ∈ copies.storeKeys, key ∈ wanted := by
  induction keys generalizing known result with
  | nil =>
      cases done
      exact before
  | cons key rest induction =>
      unfold mirrorPartsInto at done
      split at done
      · exact induction before done
      · rename_i skipped
        have isWanted : key ∈ wanted := by
          simp only [Bool.or_eq_true, Bool.not_eq_true',
            decide_eq_true_eq, not_or, Bool.not_eq_false] at skipped
          exact List.contains_iff_mem.mp skipped.1
        dsimp only at done
        split at done
        · split at done
          · cases done
          · exact induction before done
        · split at done
          · rename_i extended copied
            apply induction _ done
            intro other member
            split at copied
            · obtain ⟨ids, _, rfl⟩ := Option.map_eq_some_iff.mp copied
              simp only [MirrorResult.storeKeys, List.map_append,
                List.map_cons, List.map_nil, List.mem_append,
                List.mem_singleton] at member
              rcases member with (old | rfl) | old
              · exact before other (List.mem_append_left _ old)
              · exact isWanted
              · exact before other (List.mem_append_right _ old)
            · obtain ⟨replica, _, rfl⟩ := Option.map_eq_some_iff.mp copied
              simp only [MirrorResult.storeKeys, List.map_append,
                List.map_cons, List.map_nil, List.mem_append,
                List.mem_singleton] at member
              rcases member with old | old | rfl
              · exact before other (List.mem_append_left _ old)
              · exact before other (List.mem_append_right _ old)
              · exact isWanted
          · split at done
            · cases done
            · exact induction before done

theorem mirrorParts_wanted {wanted : List String} {copies : MirrorResult}
    (done : client.mirrorParts answers version wanted = some copies) :
    ∀ key ∈ copies.storeKeys, key ∈ wanted := by
  unfold mirrorParts at done
  split at done
  · cases done
    intro key member
    cases member
  · apply mirrorPartsInto_wanted _ done
    intro key member
    cases member

/-- Whether or not the primary owns the version after the copy, it is still
the version that it was. -/
theorem copyIntoPrimary_retained {copied : TGFSFileVersion × Bool}
    (foreign : version.ownedBy client.repo.key = false)
    (done : client.copyIntoPrimary answers version = some copied) :
    TGFSFileVersion.Retained client.repo.key version copied.1 ∧
      copied.1.id = version.id ∧ (version.Normal → copied.1.Normal) := by
  rcases copyIntoPrimary_cases foreign done with rfl |
    ⟨base, owner, sizes, id, pending, messageIds, normal, _, _, rfl⟩
  · exact ⟨.refl version, rfl, fun normal => normal⟩
  · refine ⟨.of_foreign foreign ?_ ?_, ?_, ?_⟩
    · intro settled
      rw [← pending] at settled
      unfold promoted
      dsimp only
      rw [TGFSFileVersion.relocate_pending]
      exact settled
    · intro valid
      apply TGFSFileVersion.relocate_isValid
      rw [TGFSFileVersion.isValid] at valid ⊢
      rw [← messageIds] at valid
      exact valid
    · rw [← id]
      exact TGFSFileVersion.relocate_id _
    · intro before
      have here := normal before
      have sized : ({ base with partSizes := sizes } :
          TGFSFileVersion).Normal := ⟨here.mirrors, here.replicas, here.store⟩
      exact sized.relocate client.repo.key_normal

end BackfillClient

end Tgdcfs
