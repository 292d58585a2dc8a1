import Tgdcfs.Core.DatedTexts
import Tgdcfs.Core.FileCopyContent
import Tgdcfs.Core.Overwrite
import Tgdcfs.Core.StoreKeys

/-!
# Writing a descriptor back

An operation on one version reads the whole descriptor, changes it and writes
all of it.  The read checks the versions up to the first one that is valid,
and the sizes that are written are those the versions have then; the dates go
through `datetime` and back, and a descriptor that has nothing readable is
read as an empty one.
-/

namespace Tgdcfs

open Lib

/-- The versions at the end of a backfill: pending ones whose bytes are lost
are deleted, and copied ones stand in their new state. -/
def TGFSFileDesc.backfilled (desc : TGFSFileDesc)
    (copied : Dict String TGFSFileVersion) (lost : List String) :
    TGFSFileDesc :=
  { desc with
    versions := (desc.versions.filterKeys (!lost.contains ·)).mapItems
      fun versionId version =>
        match copied.get? versionId with
        | none => version
        | some copy =>
            { copy with id := version.id, updatedAt := version.updatedAt } }

inductive WriteBack where
  | append (upload : UploadResult) (versionId : String)
  | setLastModified (instant : DateTime)
  | deleteVersion (versionId : String)
  | backfill (copied : Dict String TGFSFileVersion) (lost : List String)

namespace WriteBack

/-- Only a backfill asks for all versions to be checked. -/
def includeAll : WriteBack → Bool
  | backfill _ _ => true
  | append _ _ | setLastModified _ | deleteVersion _ => false

/-- The version is added, re-dated, deleted or copied. -/
def Touches (served : TGFSFileDesc) (versionId : String) : WriteBack → Prop
  | append _ added => versionId = added
  | setLastModified _ => versionId = served.latestVersionId
  | deleteVersion deleted => versionId = deleted
  | backfill copied lost => copied.contains versionId ∨ versionId ∈ lost

/-- The texts after the operation, and what it answers; a backfill that reads
no version commits nothing. -/
def perform (repo : FDRepository) (answers : Answers) (texts :
    FDRepository.Texts) (file : FileRef) (now : DateTime) (fresh : Int)
    (writes : MirrorWrites) :
    WriteBack →
      FDRepository.Texts × Option (Except WriteError FDRepositoryResp)
  | append upload versionId =>
      let done := repo.appendFileVersion answers texts file.name (some file)
        upload versionId now fresh writes
      (done.1, some done.2)
  | setLastModified instant =>
      let done := repo.setLastModified answers texts file instant now fresh
        writes
      (done.1, some done.2)
  | deleteVersion versionId =>
      let done := repo.deleteFileVersion answers texts file versionId now
        fresh writes
      (done.1, some done.2)
  | backfill copied lost =>
      match repo.get answers file true true now with
      | .error failure => (texts, some (.error (.get failure)))
      | .ok desc =>
          if desc.versions.items.isEmpty then (texts, none)
          else
            let done := repo.save texts (desc.backfilled copied lost)
              (some (file.relocate repo.key)) fresh writes
            (done.1, some done.2)

end WriteBack

/-- The size that a complete replica knows. -/
def TGFSFileVersion.replicaSize (version : TGFSFileVersion) : Int :=
  match version.replicas.values.find? fun replica =>
      !replica.partSizes.isEmpty &&
        replica.partSizes.length == replica.messageIds.length with
  | some replica => (replica.size : Nat)
  | none => INVALID_FILE_SIZE

/-- The recorded size is the one that is known after a read which found parts
of `sizes`: that of a pending version is kept in memory, and one without
parts has the size of a replica. -/
def TGFSFileVersion.SizeKnown (version : TGFSFileVersion)
    (sizes : List Nat) : Prop :=
  if version.pending ∧ version.recordedSize ≠ INVALID_FILE_SIZE then True
  else if sizes ≠ [] then version.recordedSize = (sizes.sum : Nat)
  else version.recordedSize = version.replicaSize

/-- The record of a version is the same but for the store, which a version
with content gets when it has none; the date comes out of a conversion and
back, and the size is the recorded one where that is known. -/
structure TGFSFileVersion.SameRecord (key : String) (sizes : List Nat)
    (version kept : TGFSFileVersion) : Prop where
  id : kept.id = version.id
  timestamp : kept.updatedAtTimestamp =
    rewrittenTimestamp version.updatedAtTimestamp
  messageIds : kept.messageIds = version.messageIds
  mirrors : kept.mirrors = version.mirrors
  replicas : kept.replicas = version.replicas
  pending : kept.pending = version.pending
  store : kept.store =
    if version.store = none ∧ version.isValid then some key
    else version.store
  size : version.SizeKnown sizes →
    kept.recordedSize = version.recordedSize

namespace FDRepository

/-- The first version whose content the read finds. -/
def firstFound (repo : FDRepository) (answers : Answers)
    (messages : Dict Int StoredMessage)
    (items : List (String × TGFSFileVersion)) : Option String :=
  (items.find? fun item =>
    item.2.isValid &&
      (repo.validateVersion answers messages item.2).isValid).map Prod.fst

def documentSize (messages : Dict Int StoredMessage) (messageId : Int) :
    Nat :=
  ((messages.get? messageId).bind StoredMessage.documentSize).getD 0

/-- The part sizes that a version of the primary has after a read: those of
its messages when the read checks it. -/
def readSizes (repo : FDRepository) (answers : Answers) (includeAll : Bool)
    (recorded : TGFSFileDesc) (versionId : String)
    (version : TGFSFileVersion) : List Nat :=
  let relocated := repo.relocateVersions recorded
  let messages := messageMap
    ((answers .parts (repo.primaryIds relocated)).getD [])
  if includeAll ∨
      repo.firstFound answers messages relocated.versions.items =
        some versionId then
    version.messageIds.map (documentSize messages)
  else []

end FDRepository

namespace TGFSFileVersion

/-- The version is as it is read from a text. -/
structure Recorded (version : TGFSFileVersion) : Prop where
  updatedAt : storedInstant version.updatedAtTimestamp = version.updatedAt
  mirrors : normalized version.mirrors = version.mirrors
  replicas : normalized version.replicas = version.replicas
  partSizes : version.partSizes = []
  totalSize : version.totalSize =
    if version.pending then version.recordedSize else INVALID_FILE_SIZE

theorem storedInstant_idem (timestamp : Int) :
    storedInstant (storedInstant timestamp).ts = storedInstant timestamp := by
  unfold storedInstant
  split
  · rename_i positive
    rw [DateTime.ts, if_pos positive]
  · rfl

theorem normalizeItems_normalized {α β : Type}
    {change : α → Except FormatError β} {dict : Dict String α}
    {read : Dict String β} (done : normalizeItems change dict = .ok read) :
    normalized read = read := by
  apply normalized_eq
  intro item member
  obtain ⟨found, items, made⟩ := bind_ok done
  cases made
  obtain ⟨source, _, made⟩ :=
    mem_of_mapM_ok items (Dict.mem_of_mem_ofList member)
  obtain ⟨value, _, made⟩ := bind_ok made
  cases made
  exact normalizeStoreKey_idem source.1

theorem fromDict_recorded {data : VersionSerialized}
    {version : TGFSFileVersion} (read : fromDict data = .ok version) :
    version.Recorded := by
  obtain ⟨messageIds, _, rest⟩ := bind_ok read
  obtain ⟨mirrored, mirrors, rest⟩ := bind_ok rest
  obtain ⟨replicated, replicas, made⟩ := bind_ok rest
  cases made
  exact ⟨storedInstant_idem data.updatedAt, normalizeItems_normalized mirrors,
    normalizeItems_normalized replicas, rfl, rfl⟩

/-- A recorded size that is known is the size of the version. -/
theorem Recorded.size_eq {version : TGFSFileVersion}
    (recorded : version.Recorded) {sizes : List Nat}
    (known : version.SizeKnown sizes) :
    ({ version with partSizes := sizes } : TGFSFileVersion).size =
      version.recordedSize := by
  unfold TGFSFileVersion.size
  unfold SizeKnown at known
  dsimp only
  rw [recorded.totalSize]
  by_cases kept : version.pending ∧ version.recordedSize ≠ INVALID_FILE_SIZE
  · rw [if_pos kept.1, if_pos kept.2]
  · rw [if_neg kept] at known
    have untold : (if version.pending then version.recordedSize
        else INVALID_FILE_SIZE) = INVALID_FILE_SIZE := by
      split
      · rename_i pending
        exact not_not.mp fun told => kept ⟨pending, told⟩
      · rfl
    rw [untold, if_neg (not_not.mpr rfl)]
    by_cases parts : sizes ≠ []
    · rw [if_pos parts] at known ⊢
      exact known.symm
    · rw [if_neg parts] at known ⊢
      exact known.symm

/-- What is written of a version of the primary and read again. -/
theorem Recorded.sameRecord {repo : FDRepository}
    {version : TGFSFileVersion} (recorded : version.Recorded)
    (owned : version.ownedBy repo.key) (sizes : List Nat) :
    version.SameRecord repo.key sizes (FDRepository.stampVersion repo.key
      { version.dated with partSizes := sizes }).reread := by
  have dated := version.dated_updatedAtTimestamp
  have timestamp :
      (storedInstant version.dated.updatedAtTimestamp).ts =
        rewrittenTimestamp version.updatedAtTimestamp := by
    rw [dated]
    exact storedInstant_ts (rewrittenTimestamp_nonneg _)
  have key : ((some repo.key).filter (· ≠ "")).map normalizeStoreKey =
      some repo.key := by
    rw [Option.filter_some, if_pos (by simpa using repo.key_ne_empty),
      Option.map_some, repo.key_normal]
  have stamps : FDRepository.stampVersion repo.key
      { version.dated with partSizes := sizes } =
        if version.store = none ∧ version.isValid then
          { version.dated with partSizes := sizes, store := some repo.key }
        else { version.dated with partSizes := sizes } := rfl
  rw [stamps]
  by_cases stamped : version.store = none ∧ version.isValid
  · rw [if_pos stamped]
    refine ⟨rfl, timestamp, rfl, recorded.mirrors,
      recorded.replicas, rfl, ?_, recorded.size_eq⟩
    rw [if_pos stamped]
    exact key
  · rw [if_neg stamped]
    refine ⟨rfl, timestamp, rfl, recorded.mirrors,
      recorded.replicas, rfl, ?_, recorded.size_eq⟩
    rw [if_neg stamped]
    simp only [ownedBy, Bool.or_eq_true, Option.isNone_iff_eq_none,
      decide_eq_true_eq] at owned
    rcases owned with unowned | owned
    · change (version.store.filter (· ≠ "")).map normalizeStoreKey = _
      rw [unowned]
      rfl
    · change (version.store.filter (· ≠ "")).map normalizeStoreKey = _
      rw [owned]
      exact key

end TGFSFileVersion

namespace TGFSFileDesc

theorem mem_fromDict {text : DescSerialized} {name : Name}
    {now : DateTime} {desc : TGFSFileDesc}
    (read : fromDict text name now = .ok desc)
    {item : String × TGFSFileVersion} (member : item ∈ desc.versions.items) :
    ∃ data, TGFSFileVersion.fromDict data = .ok item.2 := by
  obtain ⟨found, versions, made⟩ := bind_ok read
  cases made
  obtain ⟨version, listed, rfl⟩ :=
    List.mem_map.mp (Dict.mem_of_mem_ofList member)
  obtain ⟨data, _, made⟩ := mem_of_mapM_ok versions listed
  exact ⟨data, made⟩

theorem fromDict_recorded {text : DescSerialized} {name : Name}
    {now : DateTime} {desc : TGFSFileDesc}
    (read : fromDict text name now = .ok desc) :
    ∀ item ∈ desc.versions.items, item.2.Recorded := by
  intro item member
  obtain ⟨data, made⟩ := mem_fromDict read member
  exact TGFSFileVersion.fromDict_recorded made

end TGFSFileDesc

theorem TGFSFileVersion.relocate_owned {version : TGFSFileVersion}
    {key : String} (owned : version.ownedBy key) :
    version.relocate key = version := by
  simp only [ownedBy, Bool.or_eq_true, Option.isNone_iff_eq_none,
    decide_eq_true_eq] at owned
  rcases owned with unowned | owned
  · simp [relocate, unowned]
  · simp [relocate, owned]

theorem TGFSFileVersion.relocate_pending (version : TGFSFileVersion)
    (key : String) : (version.relocate key).pending = version.pending := by
  unfold relocate
  split
  · rfl
  · split
    · rfl
    · dsimp only
      split
      · rfl
      · split <;> rfl

namespace FDRepository

variable {repo : FDRepository} {answers : Answers}

/-- Every version with content belongs to the primary, which answers and has
its messages. -/
def ContentPresent (repo : FDRepository) (answers : Answers)
    (recorded : TGFSFileDesc) : Prop :=
  ∃ messages,
    answers .parts (repo.primaryIds (repo.relocateVersions recorded)) =
      some messages ∧
    ∀ version ∈ recorded.versions.values, version.isValid →
      version.ownedBy repo.key ∧ ∀ messageId ∈ version.messageIds,
        (((messageMap messages).get? messageId).bind
          StoredMessage.documentSize).isSome

variable {messages : Dict Int StoredMessage} {version : TGFSFileVersion}

theorem validateVersion_present (owned : version.ownedBy repo.key)
    (present : ∀ messageId ∈ version.messageIds,
      ((messages.get? messageId).bind StoredMessage.documentSize).isSome) :
    repo.validateVersion answers messages version =
      { version with
        partSizes := version.messageIds.map (documentSize messages) } := by
  apply validateVersion_found answers owned (documentSize messages)
  intro messageId member
  obtain ⟨size, found⟩ :=
    Option.isSome_iff_exists.mp (present messageId member)
  rw [documentSize, found]
  rfl

theorem validateVersion_pending (messages : Dict Int StoredMessage)
    (version : TGFSFileVersion) :
    (repo.validateVersion answers messages version).pending =
      version.pending := by
  unfold validateVersion
  split
  · rfl
  · dsimp only
    split <;> rfl

/-- A version that stays valid is enough for the check to succeed. -/
theorem validateVersions_succeeds {includeAll : Bool}
    {items : List (String × TGFSFileVersion)} {item : String × TGFSFileVersion}
    (member : item ∈ items) (valid : item.2.isValid)
    (stays : (repo.validateVersion answers messages item.2).isValid) :
    (repo.validateVersions answers messages includeAll items).2 = true := by
  induction items with
  | nil => cases member
  | cons first items induction =>
      obtain ⟨key, version⟩ := first
      unfold validateVersions
      split
      · dsimp only
        split
        · rfl
        · rcases List.mem_cons.mp member with rfl | later
          · simp only [stays, Bool.true_or]
          · simp only [induction later, Bool.or_true]
      · rename_i invalid
        rcases List.mem_cons.mp member with rfl | later
        · exact absurd valid invalid
        · exact induction later

/-- A version whose content is there is checked when all are asked for or it
is the first one found. -/
theorem validateVersions_entry (includeAll : Bool)
    {items : List (String × TGFSFileVersion)}
    (distinct : (items.map Prod.fst).Nodup)
    {item : String × TGFSFileVersion} (member : item ∈ items)
    (valid : item.2.isValid)
    (stays : (repo.validateVersion answers messages item.2).isValid) :
    (item.1,
      if includeAll ∨ repo.firstFound answers messages items = some item.1 then
        repo.validateVersion answers messages item.2
      else item.2) ∈
        (repo.validateVersions answers messages includeAll items).1 := by
  induction items with
  | nil => cases member
  | cons first rest induction =>
      obtain ⟨key, version⟩ := first
      obtain ⟨apart, distinct⟩ := List.nodup_cons.mp distinct
      have other : item ∈ rest → key ≠ item.1 := fun later same =>
        apart (List.mem_map.mpr ⟨item, later, same.symm⟩)
      unfold validateVersions firstFound
      rw [List.find?_cons]
      by_cases content : version.isValid
      · rw [if_pos content]
        dsimp only
        by_cases found :
            (repo.validateVersion answers messages version).isValid
        · rw [content, found, Bool.and_self]
          dsimp only [Option.map_some]
          rcases List.mem_cons.mp member with rfl | later
          · rw [if_pos (Or.inr rfl)]
            split
            · exact List.mem_cons_self
            · exact List.mem_cons_self
          · cases includeAll with
            | true =>
                exact List.mem_cons_of_mem _ (by
                  simpa using induction distinct later)
            | false =>
                have passed : ¬(false = true ∨ some key = some item.1) := by
                  simpa using other later
                rw [if_neg passed]
                exact List.mem_cons_of_mem _ later
        · rcases List.mem_cons.mp member with rfl | later
          · exact absurd stays found
          · rw [Bool.not_eq_true] at found
            rw [content, found]
            exact List.mem_cons_of_mem _ (induction distinct later)
      · rcases List.mem_cons.mp member with rfl | later
        · exact absurd valid content
        · rw [Bool.not_eq_true] at content
          rw [content]
          exact List.mem_cons_of_mem _ (induction distinct later)

theorem validated_get? (repo : FDRepository) (answers : Answers)
    (messages : Dict Int StoredMessage) (includeAll : Bool)
    {versions : Dict String TGFSFileVersion} {versionId : String}
    (found : versions.get? versionId = some version) :
    ∃ checked, (repo.validated answers messages includeAll versions).get?
        versionId = some checked ∧
      (checked = version ∨
        checked = repo.validateVersion answers messages version) := by
  have listed : versionId ∈
      (repo.validated answers messages includeAll versions).keys := by
    change versionId ∈ (repo.validateVersions answers messages includeAll
      versions.items).1.map Prod.fst
    rw [validateVersions_keys]
    exact List.mem_map.mpr
      ⟨_, (Dict.get?_eq_some_iff _ _ _).mp found, rfl⟩
  obtain ⟨item, there, rfl⟩ := List.mem_map.mp listed
  refine ⟨item.2, (Dict.get?_eq_some_iff _ _ _).mpr there, ?_⟩
  obtain ⟨before, listedBefore, same⟩ := mem_validateVersions there
  have known := (Dict.get?_eq_some_iff _ _ _).mpr listedBefore
  rw [found] at known
  cases known
  exact same

variable {desc : TGFSFileDesc}

theorem pointAtReadable_versions {hasValid : Bool}
    (usable : hasValid || desc.versions.values.any repo.readableLocally)
    (now : DateTime) :
    (repo.pointAtReadable desc hasValid now).versions = desc.versions := by
  unfold pointAtReadable
  dsimp only
  rw [if_pos usable]
  split
  · rfl
  · split <;> rfl

section Served

variable {file : FileRef} {includeAll : Bool} {now : DateTime}
  {text : DescSerialized} {recorded served : TGFSFileDesc}

theorem get_checked
    (read : repo.getFdText answers (file.relocate repo.key) = some text)
    (parsed : TGFSFileDesc.fromDict text file.name now = .ok recorded)
    {found : List (Option StoredMessage)}
    (answer : answers .parts
      (repo.primaryIds (repo.relocateVersions recorded)) = some found)
    (got : repo.get answers file includeAll true now = .ok served) :
    ∃ complete, served = repo.pointAtReadable
      { repo.relocateVersions recorded with
        versions := repo.validated answers (messageMap found) includeAll
          (repo.relocateVersions recorded).versions
        complete := complete }
      (repo.validateVersions answers (messageMap found) includeAll
        (repo.relocateVersions recorded).versions.items).2 now := by
  unfold get at got
  rw [read] at got
  dsimp only at got
  rw [parsed] at got
  dsimp only at got
  rw [if_pos rfl, validateFv] at got
  dsimp only at got
  rw [answer, Option.isNone_some, Bool.false_and,
    if_neg Bool.false_ne_true, Option.getD_some] at got
  cases got
  exact ⟨_, rfl⟩

theorem relocated_get? (repo : FDRepository) {versionId : String}
    (found : recorded.versions.get? versionId = some version) :
    (repo.relocateVersions recorded).versions.get? versionId =
      some (version.relocate repo.key) := by
  rw [relocateVersions, Dict.get?_mapValues, found, Option.map_some]

theorem checked_present (answers : Answers)
    {found : List (Option StoredMessage)}
    (parts : ∀ version ∈ recorded.versions.values, version.isValid →
      version.ownedBy repo.key ∧ ∀ messageId ∈ version.messageIds,
        (((messageMap found).get? messageId).bind
          StoredMessage.documentSize).isSome)
    {versionId : String}
    (listed : recorded.versions.get? versionId = some version)
    (owned : version.ownedBy repo.key) :
    repo.validateVersion answers (messageMap found) version =
      { version with
        partSizes :=
          version.messageIds.map (documentSize (messageMap found)) } := by
  apply validateVersion_present owned
  intro messageId member
  refine (parts version ((Dict.mem_values_iff _ _).mpr ⟨_, listed⟩) ?_).2
    messageId member
  rw [TGFSFileVersion.isValid, Bool.not_eq_true', List.isEmpty_eq_false_iff]
  exact List.ne_nil_of_mem member

/-- A version that can be read here is still one after the check. -/
theorem checked_readable {found : List (Option StoredMessage)}
    (parts : ∀ version ∈ recorded.versions.values, version.isValid →
      version.ownedBy repo.key ∧ ∀ messageId ∈ version.messageIds,
        (((messageMap found).get? messageId).bind
          StoredMessage.documentSize).isSome)
    (readable : ∃ version ∈ recorded.versions.values,
      repo.readable version) :
    ((repo.validateVersions answers (messageMap found) includeAll
        (repo.relocateVersions recorded).versions.items).2 ||
      (repo.validated answers (messageMap found) includeAll
        (repo.relocateVersions recorded).versions).values.any
          repo.readableLocally) = true := by
  obtain ⟨version, listed, isReadable⟩ := readable
  obtain ⟨versionId, known⟩ := (Dict.mem_values_iff _ _).mp listed
  have moved := repo.relocated_get? known
  rw [Bool.or_eq_true]
  rw [FDRepository.readable, Bool.or_eq_true] at isReadable
  rcases isReadable with valid | held
  · left
    have owned := (parts version listed valid).1
    rw [TGFSFileVersion.relocate_owned owned] at moved
    apply validateVersions_succeeds
      ((Dict.get?_eq_some_iff _ _ _).mp moved) valid
    rw [checked_present answers parts known owned]
    exact valid
  · right
    obtain ⟨checked, foundChecked, same⟩ := repo.validated_get? answers
      (messageMap found) includeAll moved
    refine List.any_eq_true.mpr
      ⟨checked, (Dict.mem_values_iff _ _).mpr ⟨_, foundChecked⟩, ?_⟩
    have unmoved : checked.pending = version.pending ∧
        checked.id = version.id := by
      rcases same with same | same
      · rw [same, TGFSFileVersion.relocate_pending,
          TGFSFileVersion.relocate_id]
        exact ⟨rfl, rfl⟩
      · rw [same, validateVersion_pending, validateVersion_id,
          TGFSFileVersion.relocate_pending, TGFSFileVersion.relocate_id]
        exact ⟨rfl, rfl⟩
    rw [readableLocally, unmoved.1, unmoved.2]
    exact held

/-- The versions of the primary come as they were recorded, with the sizes of
their parts where the read has checked them. -/
theorem get_served
    (read : repo.getFdText answers (file.relocate repo.key) = some text)
    (parsed : TGFSFileDesc.fromDict text file.name now = .ok recorded)
    (present : repo.ContentPresent answers recorded)
    (readable : ∃ version ∈ recorded.versions.values,
      repo.readable version)
    (got : repo.get answers file includeAll true now = .ok served)
    {versionId : String}
    (found : recorded.versions.get? versionId = some version)
    (owned : version.ownedBy repo.key) :
    served.versions.get? versionId =
      some { version with
        partSizes := repo.readSizes answers includeAll recorded versionId
          version } := by
  obtain ⟨messages, answer, parts⟩ := present
  obtain ⟨complete, rfl⟩ := get_checked read parsed answer got
  rw [pointAtReadable_versions (checked_readable parts readable)]
  have moved := repo.relocated_get? found
  rw [TGFSFileVersion.relocate_owned owned] at moved
  have sized := checked_present answers parts found owned
  have unsized := (TGFSFileDesc.fromDict_recorded parsed _
    ((Dict.get?_eq_some_iff _ _ _).mp found)).partSizes
  dsimp only at unsized
  unfold readSizes
  dsimp only
  rw [answer, Option.getD_some]
  by_cases valid : version.isValid
  · have entry := validateVersions_entry includeAll
      (repo.relocateVersions recorded).versions.nodup
      ((Dict.get?_eq_some_iff _ _ _).mp moved) valid (by
        rw [sized]
        exact valid)
    refine (Dict.get?_eq_some_iff _ _ _).mpr ?_
    rw [sized] at entry
    split at entry
    · rename_i asked
      rw [if_pos asked]
      exact entry
    · rename_i passed
      rw [if_neg passed, ← unsized]
      exact entry
  · have nothing : version.messageIds = [] := by
      simpa [TGFSFileVersion.isValid] using valid
    obtain ⟨checked, foundChecked, same⟩ := repo.validated_get? answers
      (messageMap messages) includeAll moved
    have noSizes : version.messageIds.map
        (documentSize (messageMap messages)) = [] := by
      rw [nothing]
      rfl
    rw [foundChecked]
    rw [sized, noSizes] at same
    have noParts : (if includeAll = true ∨
        repo.firstFound answers (messageMap messages)
          (repo.relocateVersions recorded).versions.items =
            some versionId then
          version.messageIds.map (documentSize (messageMap messages))
        else []) = [] := by
      rw [noSizes]
      exact ite_self []
    rw [noParts]
    rcases same with same | same
    · rw [same, ← unsized]
    · rw [same]

theorem ContentPresent.dated (present : repo.ContentPresent answers recorded) :
    repo.ContentPresent answers.dated recorded.dated := by
  obtain ⟨messages, answer, parts⟩ := present
  refine ⟨messages, ?_, ?_⟩
  · rw [primaryIds_dated]
    exact answer
  · intro version member valid
    rw [TGFSFileDesc.dated, Dict.values_mapValues] at member
    obtain ⟨source, listed, rfl⟩ := List.mem_map.mp member
    exact parts source listed valid

theorem readSizes_dated (versionId : String) (version : TGFSFileVersion) :
    repo.readSizes answers.dated includeAll recorded.dated versionId
        version.dated =
      repo.readSizes answers includeAll recorded versionId version := by
  have first : ∀ messages : Dict Int StoredMessage,
      repo.firstFound answers.dated messages
          (repo.relocateVersions recorded.dated).versions.items =
        repo.firstFound answers messages
          (repo.relocateVersions recorded).versions.items := by
    intro messages
    rw [relocateVersions_dated]
    unfold firstFound Dict.mapValues
    rw [List.find?_map, Option.map_map]
    simp only [Function.comp_def, validateVersion_dated]
    rfl
  unfold readSizes
  dsimp only
  rw [primaryIds_dated, first]
  rfl

end Served

/-- While every store answers for every content message, the versions only
have to belong to the primary. -/
theorem contentPresent_presentAnswers {recorded : TGFSFileDesc}
    (owned : ∀ version ∈ recorded.versions.values,
      version.ownedBy repo.key) (texts : Texts)
    (sizes : Lookup → Int → Nat) :
    repo.ContentPresent (presentAnswers texts sizes) recorded := by
  refine ⟨_, rfl, ?_⟩
  intro version member valid
  refine ⟨owned version member, ?_⟩
  intro messageId part
  rw [messageMap_present (sizes .parts)]
  · rfl
  · refine List.mem_flatMap.mpr ⟨version, ?_, part⟩
    refine List.mem_filter.mpr ⟨?_, by simp [valid, owned version member]⟩
    rw [relocateVersions, Dict.values_mapValues]
    exact List.mem_map.mpr
      ⟨version, member, TGFSFileVersion.relocate_owned (owned version member)⟩

theorem stamp_keyed (keyed : desc.Keyed) : (repo.stamp desc).Keyed := by
  intro item member
  obtain ⟨source, there, rfl⟩ := List.mem_map.mp member
  dsimp only
  rw [← keyed source there, stampVersion]
  split <;> rfl

/-- The stored form of a stamped descriptor reads as its versions. -/
theorem fromDict_stamped (keyed : desc.Keyed)
    (storable : (repo.stamp desc).Storable) (name : Name) (now : DateTime) :
    ∃ rewritten,
      TGFSFileDesc.fromDict (repo.stamp desc).stored name now =
        .ok rewritten ∧
      ∀ versionId, rewritten.versions.get? versionId =
        (desc.versions.get? versionId).map fun version =>
          (stampVersion repo.key version).reread := by
  have stampedKeyed : (repo.stamp desc).Keyed := stamp_keyed keyed
  refine ⟨_, TGFSFileDesc.fromDict_stored stampedKeyed storable name now, ?_⟩
  intro versionId
  apply Option.ext
  intro found
  dsimp only
  rw [Dict.get?_eq_some_iff, TGFSFileDesc.reread_items stampedKeyed,
    List.mem_map, Option.map_eq_some_iff]
  constructor
  · rintro ⟨stamped, sorted, same⟩
    obtain ⟨rfl, rfl⟩ := Prod.mk.inj same
    obtain ⟨item, listed, rfl⟩ := List.mem_map.mp
      ((repo.stamp desc).sortedVersions_perm.mem_iff.mp sorted)
    obtain ⟨source, there, rfl⟩ := List.mem_map.mp listed
    refine ⟨source.2, ?_, rfl⟩
    rw [Dict.get?_eq_some_iff, stampedKeyed _ listed]
    exact there
  · rintro ⟨version, there, rfl⟩
    have stamped : (repo.stamp desc).versions.get? versionId =
        some (stampVersion repo.key version) := by
      rw [stamp, Dict.get?_mapValues, there, Option.map_some]
    have listed := (Dict.get?_eq_some_iff _ _ _).mp stamped
    have isKey := stampedKeyed _ listed
    dsimp only at isKey
    refine ⟨stampVersion repo.key version, ?_, by rw [isKey]⟩
    exact (repo.stamp desc).sortedVersions_perm.mem_iff.mpr
      (List.mem_map.mpr ⟨_, listed, rfl⟩)

/-- Writing a descriptor stores a text that reads as its stamped versions, or
stores nothing. -/
theorem save_spec {texts : Texts} (keyed : desc.Keyed) (file : Option FileRef)
    (fresh : Int) (writes : MirrorWrites) :
    (repo.save texts desc file fresh writes).1 = texts ∨
      ∃ messageId text,
        (repo.save texts desc file fresh writes).1 =
          texts.set messageId text ∧
        ∀ name now, ∃ rewritten,
          TGFSFileDesc.fromDict text name now = .ok rewritten ∧
          ∀ versionId version, desc.versions.get? versionId = some version →
            rewritten.versions.get? versionId =
              some (stampVersion repo.key version).reread := by
  by_cases storable : (repo.stamp desc).Storable
  · right
    have written := TGFSFileDesc.toDict_ok storable
    refine ⟨((repo.editable texts file).map FileRef.messageId).getD fresh,
      (repo.stamp desc).stored, ?_, ?_⟩
    · unfold save
      dsimp only
      rw [written]
      dsimp only
      split <;> rfl
    · intro name now
      obtain ⟨rewritten, read, versions⟩ :=
        fromDict_stamped keyed storable name now
      refine ⟨rewritten, read, ?_⟩
      intro versionId version found
      rw [versions, found, Option.map_some]
  · left
    obtain ⟨failure, fails⟩ := TGFSFileDesc.toDict_error storable
    unfold save
    dsimp only
    rw [fails]

end FDRepository

namespace WriteBack

variable {repo : FDRepository} {answers : Answers}
  {texts : FDRepository.Texts} {file : FileRef} {now : DateTime}
  {fresh : Int} {writes : MirrorWrites} {served : TGFSFileDesc}

theorem backfilled_keyed (keyed : served.Keyed)
    (copied : Dict String TGFSFileVersion) (lost : List String) :
    (served.backfilled copied lost).Keyed := by
  intro item member
  obtain ⟨source, there, rfl⟩ := List.mem_map.mp member
  have listed := keyed source (List.mem_of_mem_filter there)
  dsimp only
  split
  · exact listed
  · exact listed

/-- The texts are as they were, or what was read is stored with changes to the
versions that are touched. -/
def Stores (repo : FDRepository) (texts : FDRepository.Texts)
    (file : FileRef) (fresh : Int) (writes : MirrorWrites)
    (served : TGFSFileDesc) (touched : String → Prop)
    (after : FDRepository.Texts) : Prop :=
  after = texts ∨ ∃ changed : TGFSFileDesc, changed.Keyed ∧
    after = (repo.save texts changed (some (file.relocate repo.key)) fresh
      writes).1 ∧
    ∀ versionId, ¬touched versionId →
      changed.versions.get? versionId = served.versions.get? versionId

theorem append_stores (keyed : served.Keyed) {upload : UploadResult}
    {added : String}
    (got : repo.get answers file false true now = .ok served) :
    Stores repo texts file fresh writes served (· = added)
      (repo.appendFileVersion answers texts file.name (some file) upload
        added now fresh writes).1 := by
  have named : (upload.version added now).id = added := by
    cases upload <;> rfl
  rw [FDRepository.appendFileVersion, FDRepository.start, got]
  dsimp only
  cases adds : served.addVersion (upload.version added now) with
  | error failure => exact .inl rfl
  | ok changed =>
      obtain ⟨_, _, versions, _⟩ := TGFSFileDesc.addVersion_ok adds
      refine .inr ⟨changed, ?_, rfl, ?_⟩
      · intro item member
        rw [versions, Dict.mem_items_set] at member
        rcases member with rfl | ⟨old, _⟩
        · rfl
        · exact keyed item old
      · intro versionId untouched
        rw [versions, Dict.get?_set, named]
        exact if_neg untouched

theorem setLastModified_stores (keyed : served.Keyed) {instant : DateTime}
    (got : repo.get answers file false true now = .ok served) :
    Stores repo texts file fresh writes served (· = served.latestVersionId)
      (repo.setLastModified answers texts file instant now fresh
        writes).1 := by
  rw [FDRepository.setLastModified, got]
  dsimp only
  cases dates : served.setLastModified instant with
  | error failure => exact .inl rfl
  | ok changed =>
      obtain ⟨latest, found, _, versions, _⟩ :=
        TGFSFileDesc.setLastModified_ok dates
      refine .inr ⟨changed, ?_, rfl, ?_⟩
      · intro item member
        rw [versions, Dict.mem_items_set] at member
        rcases member with rfl | ⟨old, _⟩
        · exact keyed (_, latest) ((Dict.get?_eq_some_iff _ _ _).mp found)
        · exact keyed item old
      · intro versionId untouched
        rw [versions, Dict.get?_set]
        exact if_neg untouched

theorem deleteVersion_stores (keyed : served.Keyed) {deleted : String}
    (got : repo.get answers file false true now = .ok served) :
    Stores repo texts file fresh writes served (· = deleted)
      (repo.deleteFileVersion answers texts file deleted now fresh
        writes).1 := by
  rw [FDRepository.deleteFileVersion, got]
  dsimp only
  cases deletes : served.deleteVersion deleted with
  | error failure => exact .inl rfl
  | ok changed =>
      obtain ⟨versions, _⟩ := TGFSFileDesc.deleteVersion_ok deletes
      refine .inr ⟨changed, ?_, rfl, ?_⟩
      · intro item member
        rw [versions, Dict.mem_items_erase] at member
        exact keyed item member.1
      · intro versionId untouched
        rw [versions, Dict.get?_erase]
        exact if_neg untouched

theorem backfill_stores (keyed : served.Keyed)
    {copied : Dict String TGFSFileVersion} {lost : List String}
    (got : repo.get answers file true true now = .ok served) :
    Stores repo texts file fresh writes served
      (fun versionId => copied.contains versionId ∨ versionId ∈ lost)
      ((backfill copied lost).perform repo answers texts file now fresh
        writes).1 := by
  rw [perform, got]
  dsimp only
  split
  · exact .inl rfl
  · refine .inr ⟨_, backfilled_keyed keyed copied lost, rfl, ?_⟩
    intro versionId untouched
    rw [not_or] at untouched
    have notCopied : copied.get? versionId = none := by
      by_contra there
      exact untouched.1 (Option.isSome_iff_ne_none.mpr there)
    rw [TGFSFileDesc.backfilled, Dict.get?_mapItems, Dict.get?_filterKeys]
    simp [notCopied, untouched.2]

theorem perform_stores (op : WriteBack)
    (got : repo.get answers file op.includeAll true now = .ok served) :
    Stores repo texts file fresh writes served (op.Touches served)
      (op.perform repo answers texts file now fresh writes).1 := by
  have keyed := (FDRepository.get_pointed got).keyed
  cases op with
  | append upload added => exact append_stores keyed got
  | setLastModified instant => exact setLastModified_stores keyed got
  | deleteVersion deleted => exact deleteVersion_stores keyed got
  | backfill copied lost => exact backfill_stores keyed got

/-- Nothing is stored, or a text that reads back every version of the primary
that is not touched as it was recorded. -/
def RecordsKept (repo : FDRepository) (before after : FDRepository.Texts)
    (recorded : TGFSFileDesc)
    (sizes : String → TGFSFileVersion → List Nat)
    (touched : String → Prop) : Prop :=
  after = before ∨ ∃ messageId written,
    after = before.set messageId written ∧
    ∀ name now, ∃ rewritten,
      TGFSFileDesc.fromDict written name now = .ok rewritten ∧
      ∀ versionId version,
        recorded.versions.get? versionId = some version →
        version.ownedBy repo.key → ¬touched versionId →
        ∃ kept, rewritten.versions.get? versionId = some kept ∧
          version.SameRecord repo.key (sizes versionId version) kept

def fileOf (messageId : Int) : FileRef :=
  { messageId := messageId
    name := ['f']
    mirrors := .empty
    store := some "tg:1" }

def twoAndEmpty : FDRepository.Texts :=
  (Dict.empty.set 9
    { versions :=
        [{ id := "b", updatedAt := 20, messageIds := some [2], size := 1 },
          { id := "a", updatedAt := 10, messageIds := some [1],
            size := 1 }] }).set 8
    { versions := [{ id := "e", updatedAt := 10, messageIds := some [] }] }

def threeFiles : FDRepository.Texts :=
  twoAndEmpty.set 7
    { versions :=
        [{ id := "u", updatedAt := 1075618422574, messageIds := some [3] }] }

/-- One byte in each message. -/
def oneByteEach (texts : FDRepository.Texts) : Answers :=
  FDRepository.presentAnswers texts fun _ _ => 1

def readVersion (texts : FDRepository.Texts) (messageId : Int)
    (versionId : String) : Option TGFSFileVersion :=
  (texts.get? messageId).bind fun text =>
    (TGFSFileDesc.fromDict text ['f'] ⟨0, false⟩).toOption.bind fun desc =>
      desc.versions.get? versionId

def performed (op : WriteBack) (messageId : Int) : FDRepository.Texts :=
  (op.perform FileHistory.alone (oneByteEach threeFiles).dated threeFiles
    (fileOf messageId) ⟨40, false⟩ 10 FileHistory.noMirrors).1

def dating : WriteBack := setLastModified ⟨30, false⟩

end WriteBack

end Tgdcfs
