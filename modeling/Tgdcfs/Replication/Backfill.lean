import Tgdcfs.Core.Config
import Tgdcfs.Core.FileDescApi

/-!
# Backfilling one file

The unit of work of the replication queue and of the backfill task: pending
versions leave the local cache, versions of a former primary get a copy in
the current one, every mirror store gets a copy of every version, and the
descriptor that records the copies is written to all stores.  Every call that
reaches a store is answered, or raises, as the environment says; the answers
about one version are given by its id and by the store that is asked.
-/

namespace Tgdcfs

open Lib

/-- The id of a message that a store took. -/
abbrev SentId := { id : Int // 0 < id }

/-- A replica that a store took; an upload is at least one message. -/
abbrev SentReplica := { replica : Replica // replica.messageIds ≠ [] }

/-- The outcome of `copy_from`; the new ids are aligned with the parts. -/
inductive ServerCopy where
  | raised
  | unsupported
  | copied (newId : Nat → SentId)

/-- A file system with its primary and its mirror group.  The mirrors are
distinct, none of them is the primary, and their keys are made from prefix
and channel. -/
structure BackfillClient where
  repo : FDRepository
  mode : MirrorMode
  strict : Bool
  backend : String → String
  maxPartBytes : String → Nat
  keys_normal : ∀ key ∈ repo.mirrorKeys.getD [],
    normalizeStoreKey key = key
  keys_distinct : (repo.mirrorKeys.getD []).Nodup
  primary_apart : repo.key ∉ repo.mirrorKeys.getD []

/-- The outcome of editing a descriptor in a mirror store. -/
inductive DescriptorEdit where
  | edited (messageId : SentId)
  | notFound
  | raised

/-- What the stores answer while a descriptor is saved: whether the primary
takes it, the id it gives a new message, and the mirrors. -/
structure SaveAnswers where
  accepted : Bool
  fresh : Int
  edit : String → Int → DescriptorEdit
  send : String → Option SentId

def SaveAnswers.writes (answers : SaveAnswers) (strict : Bool) :
    MirrorWrites where
  strict := strict
  edit storeKey messageId :=
    match answers.edit storeKey messageId with
    | .edited edited => .edited edited.val
    | .notFound => .notFound
    | .raised => .raised
  send storeKey := (answers.send storeKey).map Subtype.val

/-- The answers to one backfill of one file; `none` when a call raises.  A
recheck asks for the messages of a recorded copy and answers whether they are
all there, and `cached` is the size of a pending version that the local cache
holds. -/
structure BackfillAnswers where
  lookups : Answers
  recheck : String → String → List Int → Option Bool
  cached : String → Option Nat
  planParts : Nat → List Nat
  uploadPrimary : String → Option (List (Int × Nat))
  replicateLocal : String → String → Option SentReplica
  partSizes : String → String → Option (List Nat)
  serverCopy : String → String → ServerCopy
  reupload : String → String → Nat → Option SentId
  replicate : String → String → Option SentReplica
  distributed : SaveAnswers
  committed : SaveAnswers

/-- The descriptor texts of the primary and of the other stores, and the ref
of the file. -/
structure BackfillState where
  texts : FDRepository.Texts
  mirrorTexts : String → FDRepository.Texts
  file : FileRef

inductive BackfillFailure where
  | replicate (versionId storeKey : String)
  | uploadPrimary (versionId : String)
  | copyIntoPrimary (versionId : String)
  | mirror (versionId : String) (storeKeys : List String)
  deriving DecidableEq, Repr

structure BackfillReport where
  versionsChecked : Nat := 0
  versionsMirrored : Nat := 0
  versionsPromoted : Nat := 0
  versionsDistributed : Nat := 0
  fdsMirrored : Nat := 0
  failures : List BackfillFailure := []
  deriving DecidableEq, Repr

/-- A descriptor text that was saved, with what the mirrors recorded and held
before and what they answered. -/
structure DescriptorSave where
  text : DescSerialized
  existing : Dict String Int
  mirrorTexts : String → FDRepository.Texts
  writes : MirrorWrites

/-- A backfill under way.  `text` is the descriptor text that was read or
saved last, and `copies` are the copies that were attempted, by version and
store. -/
structure Backfilling where
  state : BackfillState
  desc : TGFSFileDesc
  text : Option DescSerialized := none
  report : BackfillReport := {}
  copies : List (String × String) := []
  saves : List DescriptorSave := []

namespace Backfilling

def failed (run : Backfilling) (failure : BackfillFailure) : Backfilling :=
  { run with report :=
      { run.report with failures := run.report.failures ++ [failure] } }

def attempted (run : Backfilling) (versionId : String)
    (storeKeys : List String) : Backfilling :=
  { run with
    copies := run.copies ++ storeKeys.map fun storeKey =>
      (versionId, storeKey) }

/-- The version object is shared with the descriptor. -/
def setVersion (run : Backfilling) (version : TGFSFileVersion) :
    Backfilling :=
  { run with desc :=
      { run.desc with
        versions := run.desc.versions.set version.id version } }

end Backfilling

namespace MirrorWrites

/-- The message of a store that has the text after `writeTo`, if it took
it. -/
def writtenTo (writes : MirrorWrites) (storeKey : String)
    (ids : Dict String Int) : Option Int :=
  match (ids.get? storeKey).filter (· ≠ 0) with
  | none => writes.send storeKey
  | some messageId =>
      match writes.edit storeKey messageId with
      | .edited edited => some edited
      | .notFound => writes.send storeKey
      | .raised => none

/-- The texts of the mirror stores after `mirrorFd`, which stops at the first
store whose failure raises. -/
def mirroredTexts (writes : MirrorWrites) (text : DescSerialized) :
    List String → Dict String Int → (String → FDRepository.Texts) →
      String → FDRepository.Texts
  | [], _, texts => texts
  | storeKey :: rest, ids, texts =>
      let after := match writes.writtenTo storeKey ids with
        | none => texts
        | some messageId => fun other =>
            if other = storeKey then (texts other).set messageId text
            else texts other
      match writes.writeTo storeKey ids with
      | none => after
      | some written => writes.mirroredTexts text rest written after

end MirrorWrites

/-- Copies made by one `mirror_parts` call, per store key. -/
structure MirrorResult where
  mirrors : List (String × List Int) := []
  replicas : List (String × Replica) := []

namespace MirrorResult

def storeKeys (result : MirrorResult) : List String :=
  result.mirrors.map Prod.fst ++ result.replicas.map Prod.fst

def applyTo (result : MirrorResult) (version : TGFSFileVersion) :
    TGFSFileVersion :=
  { version with
    mirrors := result.mirrors.foldl
      (fun mirrors item => mirrors.set item.1 item.2) version.mirrors
    replicas := result.replicas.foldl
      (fun replicas item => replicas.set item.1 item.2) version.replicas }

end MirrorResult

namespace BackfillClient

variable (client : BackfillClient)

def mirrorKeys : List String := client.repo.mirrorKeys.getD []

/-- Mirror stores that hold no complete copy of the version. -/
def missingStores (version : TGFSFileVersion) : List String :=
  client.mirrorKeys.filter fun key => !version.hasCopyIn key

/-- Whether every source part fits one message of the target. -/
def fitsAligned (target source : String) (partSizes : List Nat) : Bool :=
  client.backend target = client.backend source ||
    decide (partSizes.foldl max 0 ≤ client.maxPartBytes target)

/-- Whether a store gets a replica rather than an aligned copy of parts of
these sizes from the primary. -/
def needsReplica (target : String) (partSizes : List Nat) : Bool :=
  !client.fitsAligned target client.repo.key partSizes

/-- Re-upload the parts one by one. -/
def reuploadAll (answers : BackfillAnswers) (versionId target : String)
    (count : Nat) : Option (List Int) :=
  (List.range count).mapM fun part =>
    (answers.reupload versionId target part).map Subtype.val

/-- Aligned copy of the parts of a version into a store, per mode. -/
def copyTo (answers : BackfillAnswers) (versionId target : String)
    (messageIds : List Int) : Option (List Int) :=
  if messageIds = [] then some []
  else
    let fallback := reuploadAll answers versionId target messageIds.length
    if client.mode = .reupload then fallback
    else
      match answers.serverCopy versionId target with
      | .copied newId =>
          some ((List.range messageIds.length).map fun part =>
            (newId part).val)
      | .raised | .unsupported =>
          if client.mode = .forward then none else fallback

/-- The copies of the parts in the wanted stores, store by store; sizes that
were looked up for one store serve those that follow.  `none` when a strict
group raises. -/
def mirrorPartsInto (answers : BackfillAnswers) (version : TGFSFileVersion)
    (wanted : List String) :
    List String → Option (List Nat) → MirrorResult → Option MirrorResult
  | [], _, result => some result
  | key :: rest, known, result =>
      if !wanted.contains key || key = client.repo.key then
        mirrorPartsInto answers version wanted rest known result
      else
        let sizes :=
          match known with
          | some sizes =>
              if sizes.length = version.messageIds.length then some sizes
              else answers.partSizes version.id key
          | none => answers.partSizes version.id key
        match sizes with
        | none =>
            if client.strict then none
            else mirrorPartsInto answers version wanted rest known result
        | some sizes =>
            let copied : Option MirrorResult :=
              if client.fitsAligned key client.repo.key sizes then
                (client.copyTo answers version.id key
                  version.messageIds).map fun ids =>
                    { result with mirrors := result.mirrors ++ [(key, ids)] }
              else
                (answers.replicate version.id key).map fun replica =>
                  { result with
                    replicas := result.replicas ++ [(key, replica.val)] }
            match copied with
            | some result =>
                mirrorPartsInto answers version wanted rest (some sizes)
                  result
            | none =>
                if client.strict then none
                else
                  mirrorPartsInto answers version wanted rest (some sizes)
                    result

/-- Copy the parts of a version of the primary into the wanted stores. -/
def mirrorParts (answers : BackfillAnswers) (version : TGFSFileVersion)
    (wanted : List String) : Option MirrorResult :=
  if version.messageIds = [] then some {}
  else
    client.mirrorPartsInto answers version wanted client.mirrorKeys
      (if version.partSizes = [] then none else some version.partSizes) {}

/-- The version with its new copy in the primary, which becomes its primary
layout, and whether the primary owns it now. -/
def promoted (version : TGFSFileVersion) (sizes : List Nat) :
    TGFSFileVersion × Bool :=
  let moved := { version with partSizes := sizes }.relocate client.repo.key
  (moved, moved.ownedBy client.repo.key)

/-- Copy a version that lives in a former primary into the current one;
`none` when a call raises. -/
def copyIntoPrimary (answers : BackfillAnswers)
    (version : TGFSFileVersion) : Option (TGFSFileVersion × Bool) :=
  match version.store with
  | none => some (version, true)
  | some owner =>
      if owner = client.repo.key then some (version, true)
      else if !client.repo.storeFor owner then some (version, false)
      else
        let sizes :=
          if version.partSizes.length = version.messageIds.length then
            some version.partSizes
          else answers.partSizes version.id client.repo.key
        match sizes with
        | none => none
        | some sizes =>
            if client.fitsAligned client.repo.key owner sizes then
              (client.copyTo answers version.id client.repo.key
                version.messageIds).map fun ids =>
                  client.promoted
                    { version with
                      mirrors := version.mirrors.set client.repo.key ids }
                    sizes
            else
              (answers.replicate version.id client.repo.key).map
                fun replica =>
                  client.promoted
                    { version with
                      replicas := version.replicas.set client.repo.key
                        replica.val } sizes

/-- The copies that the version records, in the order of the recheck. -/
def recordedCopies (version : TGFSFileVersion) : List (String × List Int) :=
  version.mirrors.items ++ version.replicas.items.map fun item =>
    (item.1, item.2.messageIds)

/-- Whether the recheck finds a message of a recorded copy gone. -/
def gone (answers : BackfillAnswers) (version : TGFSFileVersion)
    (copy : String × List Int) : Bool :=
  let ids := copy.2.filter (0 < ·)
  if version.store = some copy.1 ∨ !client.repo.storeFor copy.1 ∨ ids = []
  then false
  else decide (answers.recheck version.id copy.1 ids = some false)

/-- Drop the mirror entries of a version whose copies no longer exist. -/
def verifyVersion (answers : BackfillAnswers) (version : TGFSFileVersion) :
    TGFSFileVersion :=
  let lost := (recordedCopies version).filter (client.gone answers version)
  { version with
    mirrors := version.mirrors.filterKeys
      (!(lost.map Prod.fst).contains ·)
    replicas := version.replicas.filterKeys
      (!(lost.map Prod.fst).contains ·) }

def verifyMirrors (answers : BackfillAnswers) (desc : TGFSFileDesc) :
    TGFSFileDesc :=
  { desc with
    versions := desc.versions.mapValues fun version =>
      if version.isValid then client.verifyVersion answers version
      else version }

/-- `fd_repo.save` and `_sync_ref`. -/
def saveDescriptor (answers : SaveAnswers) (run : Backfilling) :
    Except Backfilling Backfilling :=
  let stamped := client.repo.stamp run.desc
  match stamped.toDict with
  | .error _ => .error { run with desc := stamped }
  | .ok text =>
      if !answers.accepted then .error { run with desc := stamped }
      else
        let writes := answers.writes client.strict
        let existing := client.repo.existingMirrors run.state.texts
          (some run.state.file)
        let done := client.repo.save run.state.texts run.desc
          (some run.state.file) answers.fresh writes
        let stored : Backfilling :=
          { run with
            state :=
              { run.state with
                texts := done.1
                mirrorTexts := writes.mirroredTexts text client.mirrorKeys
                  existing run.state.mirrorTexts }
            desc := stamped
            text := some text
            saves := run.saves ++
              [⟨text, existing, run.state.mirrorTexts, writes⟩] }
        match done.2 with
        | .error _ => .error stored
        | .ok resp =>
            .ok { stored with state :=
              { stored.state with file :=
                { run.state.file with
                  messageId := resp.messageId
                  mirrors := resp.mirrors
                  store := some resp.store } } }

/-- Fill the replicas of a pending version from the local cache. -/
def replicatePending (answers : BackfillAnswers) :
    List String → TGFSFileVersion → Backfilling →
      TGFSFileVersion × Backfilling × Bool
  | [], version, run => (version, run, false)
  | key :: rest, version, run =>
      match answers.replicateLocal version.id key with
      | none =>
          replicatePending answers rest version
            (run.failed (.replicate version.id key))
      | some replica =>
          let done := replicatePending answers rest
            { version with
              replicas := version.replicas.set key replica.val } run
          (done.1, done.2.1, true)

/-- Move a write-back upload from the local cache into the stores; also
whether the descriptor changed. -/
def distributePending (answers : BackfillAnswers)
    (version : TGFSFileVersion) (run : Backfilling) :
    Except Backfilling (Backfilling × Bool) :=
  match answers.cached version.id with
  | none =>
      match run.desc.deleteVersion version.id with
      | .error _ => .error run
      | .ok desc => .ok ({ run with desc := desc }, true)
  | some size =>
      let planned := answers.planParts size
      let targets := client.mirrorKeys.filter fun key =>
        client.needsReplica key planned && !version.hasCopyIn key
      let done := replicatePending answers targets version
        (run.attempted version.id (client.repo.key :: targets))
      match answers.uploadPrimary version.id with
      | none =>
          .ok ((done.2.1.failed (.uploadPrimary version.id)).setVersion
            done.1, done.2.2)
      | some sent =>
          let run := done.2.1.setVersion
            (done.1.materialize client.repo.key (sent.map Prod.fst)
              (sent.map Prod.snd))
          .ok ({ run with report :=
            { run.report with
              versionsDistributed := run.report.versionsDistributed + 1 } },
            true)

def distributeAll (answers : BackfillAnswers) :
    List TGFSFileVersion → Backfilling →
      Except Backfilling (Backfilling × Bool)
  | [], run => .ok (run, false)
  | version :: rest, run => do
      let (run, changed) ← client.distributePending answers version run
      let (run, later) ← distributeAll answers rest run
      return (run, changed || later)

/-- The version and its copies before the mirrors are filled: a version of a
former primary is copied into the current one first. -/
def promote (answers : BackfillAnswers) (version : TGFSFileVersion)
    (run : Backfilling) : TGFSFileVersion × Backfilling × Bool :=
  if version.ownedBy client.repo.key then (version, run, false)
  else
    let run := run.attempted version.id [client.repo.key]
    match client.copyIntoPrimary answers version with
    | none => (version, run.failed (.copyIntoPrimary version.id), false)
    | some (moved, false) =>
        (moved, run.failed (.copyIntoPrimary version.id), false)
    | some (moved, true) =>
        (moved, { run with report :=
          { run.report with
            versionsPromoted := run.report.versionsPromoted + 1 } }, true)

/-- Give one version its copies; also whether it changed. -/
def mirrorVersion (answers : BackfillAnswers) (version : TGFSFileVersion)
    (run : Backfilling) : Except Backfilling (Backfilling × Bool) :=
  let checked := { run with report :=
    { run.report with versionsChecked := run.report.versionsChecked + 1 } }
  let (version, run, changed) := client.promote answers version checked
  let missing := client.missingStores version
  if missing = [] || !version.ownedBy client.repo.key then
    .ok (run.setVersion version, changed)
  else
    let run := run.attempted version.id missing
    match client.mirrorParts answers version missing with
    | none => .error (run.setVersion version)
    | some copies =>
        let stillMissing := missing.filter (!copies.storeKeys.contains ·)
        let run := run.setVersion (copies.applyTo version)
        let run :=
          if copies.storeKeys = [] then run
          else { run with report :=
            { run.report with
              versionsMirrored := run.report.versionsMirrored + 1 } }
        let run :=
          if stillMissing = [] then run
          else run.failed (.mirror version.id stillMissing)
        .ok (run, changed || copies.storeKeys ≠ [])

def mirrorVersions (answers : BackfillAnswers) :
    List TGFSFileVersion → Backfilling →
      Except Backfilling (Backfilling × Bool)
  | [], run => .ok (run, false)
  | version :: rest, run => do
      let (run, changed) ← client.mirrorVersion answers version run
      let (run, later) ← mirrorVersions answers rest run
      return (run, changed || later)

/-- Mirror stores for which the ref records no descriptor. -/
def fdMissing (file : FileRef) : List String :=
  client.mirrorKeys.filter fun key =>
    !(file.mirrors.get? key).any (0 < ·)

/-- Bring the copies of every version and of the descriptor up to date. -/
def replicateFile (answers : BackfillAnswers) (verify : Bool)
    (run : Backfilling) : Except Backfilling Backfilling :=
  if client.repo.mirrorKeys = none then .ok run
  else do
    let run :=
      if verify then
        { run with desc := client.verifyMirrors answers run.desc }
      else run
    let (run, changed) ← client.mirrorVersions answers
      (run.desc.versions.values.filter TGFSFileVersion.isValid) run
    let missing := client.fdMissing run.state.file
    if changed || missing ≠ [] then do
      let run ← client.saveDescriptor answers.committed run
      if missing = [] then return run
      else return { run with report :=
        { run.report with fdsMirrored := run.report.fdsMirrored + 1 } }
    else return run

/-- Bring one file's copies up to date; an error when the call raises. -/
def backfillFile (answers : BackfillAnswers) (verify : Bool) (now : DateTime)
    (before : BackfillState) : Except Backfilling Backfilling :=
  let state := { before with file := before.file.relocate client.repo.key }
  let nothing : Backfilling :=
    { state := state, desc := TGFSFileDesc.empty state.file.name now }
  match client.repo.get answers.lookups before.file true true now with
  | .error _ => .error nothing
  | .ok desc =>
      -- Never save an unreadable descriptor back.
      if desc.versions.items.isEmpty then .ok { nothing with desc := desc }
      else do
        let run : Backfilling :=
          { state := state
            desc := desc
            text := client.repo.getFdText answers.lookups state.file }
        let pending := desc.versions.values.filter TGFSFileVersion.pending
        let (run, distributed) ← client.distributeAll answers pending run
        let run ←
          if distributed then
            client.saveDescriptor answers.distributed run
          else .ok run
        client.replicateFile answers verify run

end BackfillClient

end Tgdcfs
