import Tgdcfs.Lib.Run
import Tgdcfs.Replication.BackfillDescriptor

/-!
# Writers of one descriptor

Uploads, re-dating, deletions and backfills of one file read its descriptor,
wait on the stores and write the whole descriptor back; nothing orders them.
A read and a write are steps of their own here, and a writer keeps what it
read in between.  The state also remembers what was stored: the versions that
were there or were appended, the versions as they stood after an append or a
commit of a backfill, and the versions that were deleted.
-/

namespace Tgdcfs

open Lib

/-- The operations of a client on the descriptor of an existing file. -/
inductive ApiWrite where
  | append (versionId : String)
  | setLastModified (instant : DateTime)
  | deleteVersion (versionId : String)

/-- What the operation makes of the descriptor it read; an upload has ended
by then. -/
def ApiWrite.change (upload : UploadResult) (now : DateTime)
    (desc : TGFSFileDesc) : ApiWrite → Except DescError TGFSFileDesc
  | append versionId => desc.addVersion (upload.version versionId now)
  | setLastModified instant => desc.setLastModified instant
  | deleteVersion versionId => desc.deleteVersion versionId

inductive DescriptorOp where
  | client (write : ApiWrite)
  | backfill (verify : Bool)

namespace DescriptorOp

/-- Only a backfill asks for all versions to be checked. -/
def includeAll : DescriptorOp → Bool
  | client _ => false
  | backfill _ => true

/-- The operation stores versions or copies that were not there before. -/
def adds : DescriptorOp → Bool
  | client (.append _) | backfill _ => true
  | client (.setLastModified _) | client (.deleteVersion _) => false

def appended : DescriptorOp → List String
  | client (.append versionId) => [versionId]
  | client _ | backfill _ => []

/-- The versions that the operation answers for once it has stored them. -/
def records (versions : Dict String TGFSFileVersion) :
    DescriptorOp → List (String × TGFSFileVersion)
  | client (.append versionId) =>
      versions.items.filter fun item => item.1 = versionId
  | client _ => []
  | backfill _ => versions.items

def deleted (lost : List String) : DescriptorOp → List String
  | client (.deleteVersion versionId) => [versionId]
  | client _ => []
  | backfill _ => lost

end DescriptorOp

inductive WriterStage where
  | waiting
  | serving (desc : TGFSFileDesc)
  | backfilling (run : Backfilling)
  | distributed (run : Backfilling)
  | finished
  | failed

/-- The descriptor that a writer holds. -/
def WriterStage.desc? : WriterStage → Option TGFSFileDesc
  | serving desc => some desc
  | backfilling run | distributed run => some run.desc
  | waiting | finished | failed => none

/-- Where a writer stands once its call has returned or raised. -/
def WriterStage.after (next : Backfilling → WriterStage) :
    Except Backfilling Backfilling → WriterStage
  | .ok run => next run
  | .error _ => .failed

/-- A writer; `lacking` is set when its descriptor may not have all that is
stored: its read did not find everything, or another writer has added
something since. -/
structure DescriptorWriter where
  op : DescriptorOp
  stage : WriterStage := .waiting
  lacking : Bool := false

/-- The stores and the file ref, the writers, and what was stored so far. -/
structure DescriptorState where
  shared : BackfillState
  writers : List DescriptorWriter
  commits : Nat := 0
  expected : List String
  recorded : List (String × TGFSFileVersion)
  deleted : List String := []

inductive DescriptorAction where
  | read (writer : Nat) (lookups : Answers) (now : DateTime)
  | write (writer : Nat) (upload : UploadResult) (now : DateTime)
      (answers : SaveAnswers)
  | distribute (writer : Nat) (answers : BackfillAnswers)
  | replicate (writer : Nat) (answers : BackfillAnswers)

def DescriptorAction.writer : DescriptorAction → Nat
  | read writer _ _ | write writer _ _ _ | distribute writer _ |
    replicate writer _ => writer

/-- The primary answers with the text that was written last. -/
def storedAnswers (texts : FDRepository.Texts) (lookups : Answers) : Answers
  | .descriptor, ids => some (ids.map fun messageId =>
      (texts.get? messageId).map fun text =>
        { messageId := messageId, text := some text })
  | lookup, ids => lookups lookup ids

namespace DescriptorState

/-- All writers are about to start. -/
def start (shared : BackfillState) (ops : List DescriptorOp) :
    DescriptorState where
  shared := shared
  writers := ops.map fun op => { op := op }
  expected := shared.versions.keys
  recorded := shared.versions.items

def setWriter (state : DescriptorState) (place : Nat)
    (writer : DescriptorWriter) : DescriptorState :=
  { state with writers := state.writers.set place writer }

/-- Whether a read finds all that it asks the stores for. -/
def readsWhole (client : BackfillClient) (state : DescriptorState)
    (op : DescriptorOp) (lookups : Answers) (now : DateTime) : Bool :=
  match state.shared.texts.get? state.shared.file.messageId with
  | none => false
  | some text =>
      match TGFSFileDesc.fromDict text state.shared.file.name now with
      | .error _ => false
      | .ok recorded => client.repo.readsWhole
          (storedAnswers state.shared.texts lookups) op.includeAll
          (client.repo.relocateVersions recorded)

/-- A writer comes back from a call that may have stored a descriptor.  Those
that read before lack what it added. -/
def committed (state : DescriptorState) (place : Nat)
    (writer : DescriptorWriter) (before : Backfilling) (lost : List String)
    (result : Except Backfilling Backfilling)
    (next : Backfilling → WriterStage) : DescriptorState :=
  let after := Backfilling.outcome result
  let returned := { writer with stage := WriterStage.after next result }
  if after.saves.length = before.saves.length then
    { state with
      shared := after.state
      writers := state.writers.set place returned }
  else
    { shared := after.state
      writers := ((state.writers.map fun other =>
        { other with lacking := other.lacking || writer.op.adds }).set place
          returned)
      commits := state.commits + 1
      expected := state.expected ++ writer.op.appended
      recorded := state.recorded ++ writer.op.records after.state.versions
      deleted := state.deleted ++ writer.op.deleted lost }

/-- `StoreFDRepository.get` for a writer, which relocates the ref. -/
def reads (client : BackfillClient) (state : DescriptorState) (place : Nat)
    (op : DescriptorOp) (lookups : Answers) (now : DateTime) :
    DescriptorState :=
  let answers := storedAnswers state.shared.texts lookups
  let shared := { state.shared with
    file := state.shared.file.relocate client.repo.key }
  let stage : WriterStage :=
    match client.repo.get answers state.shared.file op.includeAll true now with
    | .error _ => .failed
    | .ok desc =>
        match op with
        | .client _ => .serving desc
        | .backfill _ =>
            if desc.versions.items.isEmpty then .finished
            else .backfilling
              { state := shared
                desc := desc
                text := client.repo.getFdText answers shared.file }
  { state with shared := shared }.setWriter place
    { op := op
      stage := stage
      lacking := !state.readsWhole client op lookups now }

end DescriptorState

/-- One step of one writer; the others stand still. -/
def descriptorStep (client : BackfillClient) (state : DescriptorState) :
    DescriptorAction → Option DescriptorState
  | .read place lookups now =>
      match state.writers[place]? with
      | some ⟨op, .waiting, _⟩ =>
          some (state.reads client place op lookups now)
      | _ => none
  | .write place upload now answers =>
      match state.writers[place]? with
      | some ⟨.client write, .serving desc, lacking⟩ =>
          let writer : DescriptorWriter :=
            ⟨.client write, .serving desc, lacking⟩
          match write.change upload now desc with
          | .error _ =>
              some (state.setWriter place { writer with stage := .failed })
          | .ok changed =>
              let before : Backfilling :=
                { state := state.shared, desc := changed }
              some (state.committed place writer before []
                (client.saveDescriptor answers before) fun _ => .finished)
      | _ => none
  | .distribute place answers =>
      match state.writers[place]? with
      | some ⟨.backfill verify, .backfilling run, lacking⟩ =>
          let before := { run with state := state.shared }
          some (state.committed place
            ⟨.backfill verify, .backfilling run, lacking⟩ before
            (BackfillClient.lostVersions answers run.desc)
            (client.distribute answers before) .distributed)
      | _ => none
  | .replicate place answers =>
      match state.writers[place]? with
      | some ⟨.backfill verify, .distributed run, lacking⟩ =>
          let before := { run with state := state.shared }
          some (state.committed place
            ⟨.backfill verify, .distributed run, lacking⟩ before []
            (client.replicateFile answers verify before) fun _ => .finished)
      | _ => none

/-- A version that was recorded is still among these, with what it
recorded. -/
def RetainedIn (key : String) (versions : Dict String TGFSFileVersion)
    (item : String × TGFSFileVersion) : Prop :=
  ∃ kept, versions.get? item.1 = some kept ∧
    TGFSFileVersion.Retained key item.2 kept

/-- The same in memory, where the copies have normal keys. -/
def HeldIn (key : String) (versions : Dict String TGFSFileVersion)
    (item : String × TGFSFileVersion) : Prop :=
  ∃ kept, versions.get? item.1 = some kept ∧
    TGFSFileVersion.Retained key item.2 kept ∧ kept.Normal

namespace DescriptorState

/-- The stored descriptor has every version that was there at the start or
was appended, and every version has what an append or a commit of a backfill
recorded of it, unless it was deleted. -/
structure NothingLost (client : BackfillClient) (state : DescriptorState) :
    Prop where
  versions : ∀ versionId ∈ state.expected, versionId ∉ state.deleted →
    state.shared.versions.contains versionId = true
  records : ∀ item ∈ state.recorded, item.1 ∉ state.deleted →
    RetainedIn client.repo.key state.shared.versions item

/-- What every writer keeps going: it knows all that is stored unless it is
marked as lacking some. -/
structure Consistent (client : BackfillClient) (state : DescriptorState) :
    Prop where
  primary : state.shared.InPrimary client
  records : ∀ item ∈ state.recorded, item.1 ∉ state.deleted →
    RetainedIn client.repo.key state.shared.versions item
  listed : ∀ versionId ∈ state.expected, ∃ version,
    (versionId, version) ∈ state.recorded
  inHand : ∀ writer ∈ state.writers, ∀ desc,
    writer.stage.desc? = some desc → desc.Keyed ∧ desc.AllNormal ∧
      (writer.lacking = false → ∀ item ∈ state.recorded,
        item.1 ∉ state.deleted →
          RetainedIn client.repo.key desc.versions item)

variable {client : BackfillClient} {state : DescriptorState}

theorem Consistent.nothingLost (consistent : state.Consistent client) :
    state.NothingLost client := by
  refine ⟨?_, consistent.records⟩
  intro versionId member stays
  obtain ⟨version, listed⟩ := consistent.listed versionId member
  obtain ⟨kept, found, _⟩ := consistent.records _ listed stays
  rw [Dict.contains, found]
  rfl

theorem start_consistent {shared : BackfillState}
    (primary : shared.InPrimary client) (ops : List DescriptorOp) :
    (start shared ops).Consistent client := by
  refine ⟨primary, ?_, ?_, ?_⟩
  · intro item member _
    exact ⟨item.2, (Dict.get?_eq_some_iff _ _ _).mpr member, .refl item.2⟩
  · intro versionId member
    obtain ⟨item, listed, rfl⟩ := List.mem_map.mp member
    exact ⟨item.2, listed⟩
  · intro writer member desc holds
    obtain ⟨op, _, rfl⟩ := List.mem_map.mp member
    cases holds

end DescriptorState

theorem TGFSFileDesc.fromDict_versions {text : DescSerialized}
    {name other : Name} {now later : DateTime} {desc : TGFSFileDesc}
    (read : fromDict text name now = .ok desc) :
    ∃ again, fromDict text other later = .ok again ∧
      again.versions = desc.versions := by
  obtain ⟨found, versions, made⟩ := bind_ok read
  cases made
  unfold fromDict
  rw [versions]
  exact ⟨_, rfl, rfl⟩

theorem FileRef.relocate_owned {file : FileRef} {key : String}
    (owned : file.ownedBy key = true) : file.relocate key = file := by
  unfold ownedBy at owned
  unfold relocate
  cases stored : file.store with
  | none => rfl
  | some owner =>
      rw [stored] at owned
      have same : owner = key := by simpa using owned
      exact if_pos same

namespace DescriptorState

variable {client : BackfillClient} {state : DescriptorState}

variable {lookups : Answers}

theorem getFdText_stored {shared : BackfillState} {text : DescSerialized}
    (primary : shared.InPrimary client)
    (stored : shared.texts.get? shared.file.messageId = some text) :
    client.repo.getFdText (storedAnswers shared.texts lookups)
      (shared.file.relocate client.repo.key) = some text := by
  rw [FileRef.relocate_owned primary.owned]
  unfold FDRepository.getFdText
  dsimp only
  rw [if_pos primary.owned]
  simp [storedAnswers, FDRepository.answeredText, stored]

variable {op : DescriptorOp} {now : DateTime} {item : String × TGFSFileVersion}

/-- A read that finds everything has all that is recorded. -/
theorem reads_retained {served : TGFSFileDesc}
    (primary : state.shared.InPrimary client)
    (whole : state.readsWhole client op lookups now = true)
    (got : client.repo.get (storedAnswers state.shared.texts lookups)
      state.shared.file op.includeAll true now = .ok served)
    (retained : RetainedIn client.repo.key state.shared.versions item) :
    RetainedIn client.repo.key served.versions item := by
  unfold readsWhole at whole
  cases stored : state.shared.texts.get? state.shared.file.messageId with
  | none =>
      rw [stored] at whole
      cases whole
  | some text =>
      rw [stored] at whole
      dsimp only at whole
      cases parsed : TGFSFileDesc.fromDict text state.shared.file.name now with
      | error failure =>
          rw [parsed] at whole
          cases whole
      | ok recorded =>
          rw [parsed] at whole
          dsimp only at whole
          obtain ⟨again, read, same⟩ := @TGFSFileDesc.fromDict_versions text
            state.shared.file.name state.shared.file.name now ⟨0, false⟩
            recorded parsed
          obtain ⟨version, found, keeps⟩ := retained
          rw [BackfillState.versions_of_stored stored read, same] at found
          obtain ⟨kept, there, again⟩ := FDRepository.get_retained
            (getFdText_stored primary stored) parsed whole got found
          exact ⟨kept, there, keeps.trans again⟩

variable {place : Nat}

theorem reads_shared (primary : state.shared.InPrimary client) :
    (state.reads client place op lookups now).shared = state.shared := by
  unfold reads
  dsimp only [setWriter]
  rw [FileRef.relocate_owned primary.owned]

theorem Consistent.reads (consistent : state.Consistent client)
    (place : Nat) (op : DescriptorOp) (lookups : Answers) (now : DateTime) :
    (state.reads client place op lookups now).Consistent client := by
  have same := @reads_shared client state lookups op now place
    consistent.primary
  refine ⟨same.symm ▸ consistent.primary, ?_, consistent.listed, ?_⟩
  · intro item member stays
    rw [same]
    exact consistent.records item member stays
  · intro writer member desc holds
    rcases List.mem_or_eq_of_mem_set member with other | rfl
    · exact consistent.inHand writer other desc holds
    · have served : client.repo.get
          (storedAnswers state.shared.texts lookups) state.shared.file
          op.includeAll true now = .ok desc := by
        cases got : client.repo.get (storedAnswers state.shared.texts lookups)
            state.shared.file op.includeAll true now with
        | error failure =>
            rw [got] at holds
            cases holds
        | ok found =>
            rw [got] at holds
            cases op with
            | client write =>
                cases holds
                rfl
            | backfill verify =>
                dsimp only at holds
                split at holds
                · cases holds
                · cases holds
                  rfl
      refine ⟨(FDRepository.get_pointed served).keyed,
        FDRepository.get_normal served, ?_⟩
      intro whole item listed stays
      exact reads_retained consistent.primary (by simpa using whole) served
        (consistent.records item listed stays)

theorem retainedIn_committed {run after : Backfilling}
    (committed : BackfillClient.Committed client run after)
    (held : HeldIn client.repo.key run.desc.versions item) :
    RetainedIn client.repo.key after.state.versions item := by
  obtain ⟨version, found, retained, normal⟩ := held
  refine ⟨(FDRepository.stampVersion client.repo.key version).reread, ?_, ?_⟩
  · rw [committed.versions, found, Option.map_some]
  · exact (retained.trans (TGFSFileVersion.retained_stampVersion _ _)).trans
      ((normal.stampVersion client.repo.key_normal).retained_reread _).1

variable {lost : String → Prop} {before : Backfilling}

theorem heldIn_carried {after : Backfilling}
    (carries : Backfilling.Carries client.repo.key lost before after)
    (stays : ¬lost item.1)
    (held : HeldIn client.repo.key before.desc.versions item) :
    HeldIn client.repo.key after.desc.versions item := by
  obtain ⟨version, found, retained, normal⟩ := held
  obtain ⟨kept, there, again, still⟩ :=
    carries.versions item.1 version found stays
  exact ⟨kept, there, retained.trans again, still normal⟩

/-- What the operation adds to the record is in the text it stored. -/
theorem mem_records {versions : Dict String TGFSFileVersion}
    (member : item ∈ op.records versions) : item ∈ versions.items := by
  cases op with
  | client write =>
      cases write with
      | append versionId => exact List.mem_of_mem_filter member
      | setLastModified instant => cases member
      | deleteVersion versionId => cases member
  | backfill verify => exact member

theorem mem_records_appended {versions : Dict String TGFSFileVersion}
    (appended : item.1 ∈ op.appended) (member : item ∈ versions.items) :
    item ∈ op.records versions := by
  cases op with
  | client write =>
      cases write with
      | append versionId =>
          have same : item.1 = versionId := List.mem_singleton.mp appended
          exact List.mem_filter.mpr ⟨member, by simp [same]⟩
      | setLastModified instant => cases appended
      | deleteVersion versionId => cases appended
  | backfill verify => cases appended

theorem records_of_not_adds (adds : op.adds = false)
    (versions : Dict String TGFSFileVersion) : op.records versions = [] := by
  cases op with
  | client write =>
      cases write with
      | append versionId => cases adds
      | setLastModified instant => rfl
      | deleteVersion versionId => rfl
  | backfill verify => cases adds

theorem Consistent.uncommitted
    {writer returned :
    DescriptorWriter} (consistent : state.Consistent client)
    (found : state.writers[place]? = some writer)
    (lacking : returned.lacking = writer.lacking)
    (holds : ∀ desc, returned.stage.desc? = some desc →
      ∃ before after, writer.stage.desc? = some before.desc ∧
        desc = after.desc ∧
        Backfilling.Carries client.repo.key (fun _ => False) before after) :
    (state.setWriter place returned).Consistent client := by
  refine ⟨consistent.primary, consistent.records, consistent.listed, ?_⟩
  intro other member desc inHand
  rcases List.mem_or_eq_of_mem_set member with there | rfl
  · exact consistent.inHand other there desc inHand
  · obtain ⟨before, after, held, rfl, carries⟩ := holds desc inHand
    obtain ⟨keyed, normal, knows⟩ := consistent.inHand writer
      (List.mem_of_getElem? found) before.desc held
    refine ⟨carries.keyed keyed, carries.normal normal, ?_⟩
    intro whole item listed stays
    obtain ⟨version, there, retained⟩ :=
      knows (lacking ▸ whole) item listed stays
    obtain ⟨kept, here, again, _⟩ :=
      carries.versions item.1 version there id
    exact ⟨kept, here, retained.trans again⟩

/-- A writer that stored what it held, which was all that is recorded. -/
theorem Consistent.stored {writer returned : DescriptorWriter}
    {after : Backfilling} {gone : List String}
    (consistent : state.Consistent client)
    (shared : before.state = state.shared) (keyed : before.desc.Keyed)
    {middle : Backfilling}
    (carries : Backfilling.Carries client.repo.key lost before middle)
    (committed : BackfillClient.Committed client middle after)
    (held : ∀ item ∈ state.recorded,
      item.1 ∉ state.deleted ++ writer.op.deleted gone →
        HeldIn client.repo.key before.desc.versions item ∧ ¬lost item.1)
    (appends : ∀ versionId ∈ writer.op.appended, ∃ version,
      before.desc.versions.get? versionId = some version ∧ ¬lost versionId)
    (holds : ∀ desc, returned.stage.desc? = some desc →
      desc = after.desc ∧ before.desc.AllNormal) :
    DescriptorState.Consistent client
      { shared := after.state
        writers := ((state.writers.map fun other =>
          { other with lacking := other.lacking || writer.op.adds }).set place
            returned)
        commits := state.commits + 1
        expected := state.expected ++ writer.op.appended
        recorded := state.recorded ++ writer.op.records after.state.versions
        deleted := state.deleted ++ writer.op.deleted gone } := by
  have primary : middle.state.InPrimary client := by
    rw [carries.state, shared]
    exact consistent.primary
  have here : ∀ item ∈ writer.op.records after.state.versions,
      after.state.versions.get? item.1 = some item.2 := fun item member =>
    (Dict.get?_eq_some_iff _ _ _).mpr (mem_records member)
  have carried : ∀ item ∈ state.recorded,
      item.1 ∉ state.deleted ++ writer.op.deleted gone →
        HeldIn client.repo.key middle.desc.versions item := by
    intro item member stays
    obtain ⟨inMemory, notLost⟩ := held item member stays
    exact heldIn_carried carries notLost inMemory
  refine ⟨committed.stays.primary primary, ?_, ?_, ?_⟩
  · intro item member stays
    rcases List.mem_append.mp member with old | new
    · exact retainedIn_committed committed (carried item old stays)
    · exact ⟨item.2, here item new, .refl item.2⟩
  · intro versionId member
    rcases List.mem_append.mp member with old | new
    · obtain ⟨version, listed⟩ := consistent.listed versionId old
      exact ⟨version, List.mem_append_left _ listed⟩
    · obtain ⟨version, there, notLost⟩ := appends versionId new
      obtain ⟨kept, carriedOn, _⟩ :=
        carries.versions versionId version there notLost
      have stored := committed.versions versionId
      rw [carriedOn, Option.map_some, Dict.get?_eq_some_iff] at stored
      exact ⟨_, List.mem_append_right _ (mem_records_appended new stored)⟩
  · intro other member desc inHand
    rcases List.mem_or_eq_of_mem_set member with there | rfl
    · obtain ⟨known, listed, rfl⟩ := List.mem_map.mp there
      obtain ⟨otherKeyed, normal, knows⟩ :=
        consistent.inHand known listed desc inHand
      refine ⟨otherKeyed, normal, ?_⟩
      intro whole item isRecorded stays
      obtain ⟨notLacking, quiet⟩ := Bool.or_eq_false_iff.mp whole
      rw [records_of_not_adds quiet, List.append_nil] at isRecorded
      exact knows notLacking item isRecorded fun inOld =>
        stays (List.mem_append_left _ inOld)
    · obtain ⟨rfl, normal⟩ := holds desc inHand
      rw [committed.desc]
      have middleNormal := carries.normal normal
      have stamped : ∀ versionId version,
          middle.desc.versions.get? versionId = some version →
            (client.repo.stamp middle.desc).versions.get? versionId =
              some (FDRepository.stampVersion client.repo.key version) := by
        intro versionId version found
        rw [FDRepository.stamp, Dict.get?_mapValues, found, Option.map_some]
      refine ⟨FDRepository.stamp_keyed (carries.keyed keyed), ?_, ?_⟩
      · intro versionId version found
        rw [FDRepository.stamp, Dict.get?_mapValues] at found
        obtain ⟨source, there, rfl⟩ := Option.map_eq_some_iff.mp found
        exact (middleNormal versionId source there).stampVersion
          client.repo.key_normal
      · intro _ item isRecorded stays
        rcases List.mem_append.mp isRecorded with old | new
        · obtain ⟨kept, there, retained, _⟩ := carried item old stays
          exact ⟨_, stamped item.1 kept there,
            retained.trans (TGFSFileVersion.retained_stampVersion _ _)⟩
        · have stored := here item new
          rw [committed.versions] at stored
          obtain ⟨source, there, same⟩ := Option.map_eq_some_iff.mp stored
          refine ⟨_, stamped item.1 source there, ?_⟩
          rw [← same]
          exact (((middleNormal item.1 source there).stampVersion
            client.repo.key_normal).retained_reread _).2

variable {upload : UploadResult} {changed : TGFSFileDesc}

theorem change_heldIn {write : ApiWrite} {desc : TGFSFileDesc} {key : String}
    (normal : desc.AllNormal)
    (changes : write.change upload now desc = .ok changed)
    (unused : item.1 ∉ (DescriptorOp.client write).appended)
    (stays : item.1 ∉ (DescriptorOp.client write).deleted [])
    (retained : RetainedIn key desc.versions item) :
    HeldIn key changed.versions item := by
  obtain ⟨kept, found, keeps⟩ := retained
  have wellKept := normal item.1 kept found
  cases write with
  | append versionId =>
      obtain ⟨_, _, versions, _⟩ := TGFSFileDesc.addVersion_ok changes
      have named : (upload.version versionId now).id = versionId := by
        cases upload <;> rfl
      refine ⟨kept, ?_, keeps, wellKept⟩
      rw [versions, Dict.get?_set, named, if_neg]
      · exact found
      · intro same
        exact unused (List.mem_singleton.mpr same)
  | setLastModified instant =>
      obtain ⟨latest, there, _, versions, _⟩ :=
        TGFSFileDesc.setLastModified_ok changes
      by_cases same : item.1 = desc.latestVersionId
      · rw [← same, found] at there
        cases there
        refine ⟨{ kept with updatedAt := instant }, ?_,
          keeps.trans (.of_same rfl rfl rfl rfl rfl),
          ⟨wellKept.mirrors, wellKept.replicas, wellKept.store⟩⟩
        rw [versions, Dict.get?_set, if_pos same]
      · refine ⟨kept, ?_, keeps, wellKept⟩
        rw [versions, Dict.get?_set, if_neg same]
        exact found
  | deleteVersion versionId =>
      obtain ⟨versions, _⟩ := TGFSFileDesc.deleteVersion_ok changes
      refine ⟨kept, ?_, keeps, wellKept⟩
      rw [versions, Dict.get?_erase, if_neg]
      · exact found
      · intro same
        exact stays (List.mem_singleton.mpr same)

theorem change_keyed {write : ApiWrite} {desc : TGFSFileDesc}
    (keyed : desc.Keyed) (changes : write.change upload now desc = .ok changed)
    : changed.Keyed := by
  intro item member
  cases write with
  | append versionId =>
      obtain ⟨_, _, versions, _⟩ := TGFSFileDesc.addVersion_ok changes
      rw [versions, Dict.mem_items_set] at member
      rcases member with rfl | ⟨old, _⟩
      · rfl
      · exact keyed item old
  | setLastModified instant =>
      obtain ⟨latest, found, _, versions, _⟩ :=
        TGFSFileDesc.setLastModified_ok changes
      rw [versions, Dict.mem_items_set] at member
      rcases member with rfl | ⟨old, _⟩
      · exact keyed (_, latest) ((Dict.get?_eq_some_iff _ _ _).mp found)
      · exact keyed item old
  | deleteVersion versionId =>
      obtain ⟨versions, _⟩ := TGFSFileDesc.deleteVersion_ok changes
      rw [versions, Dict.mem_items_erase] at member
      exact keyed item member.1

theorem change_appends {write : ApiWrite} {desc : TGFSFileDesc}
    (changes : write.change upload now desc = .ok changed) :
    ∀ versionId ∈ (DescriptorOp.client write).appended, ∃ version,
      changed.versions.get? versionId = some version := by
  intro versionId member
  cases write with
  | append added =>
      have same : versionId = added := List.mem_singleton.mp member
      obtain ⟨_, _, versions, _⟩ := TGFSFileDesc.addVersion_ok changes
      have named : (upload.version added now).id = added := by
        cases upload <;> rfl
      refine ⟨upload.version added now, ?_⟩
      rw [versions, Dict.get?_set, named, if_pos same]
  | setLastModified instant => cases member
  | deleteVersion deleted => cases member

/-- A writer that comes back from a call leaves everything consistent, when
it held all that is recorded in case it stored something. -/
theorem Consistent.committed {writer : DescriptorWriter} {gone : List String}
    {result : Except Backfilling Backfilling}
    {next : Backfilling → WriterStage} (consistent : state.Consistent client)
    (found : state.writers[place]? = some writer)
    (shared : before.state = state.shared) (keyed : before.desc.Keyed)
    (commits : BackfillClient.Commits client lost before result)
    (held : state.commits <
        (state.committed place writer before gone result next).commits →
      (∀ item ∈ state.recorded,
        item.1 ∉ state.deleted ++ writer.op.deleted gone →
          HeldIn client.repo.key before.desc.versions item ∧ ¬lost item.1) ∧
      ∀ versionId ∈ writer.op.appended, ∃ version,
        before.desc.versions.get? versionId = some version ∧ ¬lost versionId)
    (goesOn : ∀ run desc, result = .ok run → (next run).desc? = some desc →
      desc = run.desc ∧ before.desc.AllNormal ∧ (run.saves = before.saves →
        writer.stage.desc? = some before.desc ∧
          Backfilling.Carries client.repo.key (fun _ => False) before run)) :
    (state.committed place writer before gone result next).Consistent
      client := by
  rcases commits with ⟨same, saves⟩ | ⟨middle, carries, committed⟩
  · have unchanged : state.committed place writer before gone result next =
        state.setWriter place
          { writer with stage := WriterStage.after next result } := by
      unfold DescriptorState.committed
      dsimp only
      rw [if_pos (congrArg List.length saves), same, shared]
      rfl
    rw [unchanged]
    refine consistent.uncommitted found ?_ ?_
    · rfl
    intro desc holds
    cases result with
    | error failed => cases holds
    | ok run =>
        obtain ⟨rfl, _, stays⟩ := goesOn run desc rfl holds
        obtain ⟨inHand, carries⟩ := stays saves
        exact ⟨before, run, inHand, rfl, carries⟩
  · have longer : (Backfilling.outcome result).saves.length ≠
        before.saves.length := by
      rw [committed.saves, carries.saves]
      exact Nat.succ_ne_self _
    have stored : state.committed place writer before gone result next = _ :=
      if_neg longer
    rw [stored] at held ⊢
    obtain ⟨all, appends⟩ := held (Nat.lt_succ_self _)
    apply consistent.stored shared keyed carries committed all appends
    intro desc holds
    cases result with
    | error failed => cases holds
    | ok run =>
        obtain ⟨same, normal, _⟩ := goesOn run desc rfl holds
        exact ⟨same, normal⟩

end DescriptorState

variable {client : BackfillClient}

/-- What a step that stores a descriptor needs: its writer lacks nothing that
is stored, an uploaded version has an id of its own, and a recheck finds
every copy. -/
def DescriptorAction.Sound (client : BackfillClient)
    (state : DescriptorState) (writer : DescriptorWriter) :
    DescriptorAction → Prop
  | .replicate _ answers => writer.lacking = false ∧
      ∀ verify run, writer.op = .backfill verify →
        writer.stage = .distributed run →
          client.Intact answers verify run.desc
  | _ => writer.lacking = false ∧
      ∀ versionId ∈ writer.op.appended,
        versionId ∉ state.recorded.map Prod.fst

/-- Every writer that stores a descriptor holds all that is stored. -/
def Undisturbed (client : BackfillClient) (state : DescriptorState)
    (action : DescriptorAction) : Prop :=
  ∀ after, descriptorStep client state action = some after →
    state.commits < after.commits →
      ∀ writer, state.writers[action.writer]? = some writer →
        action.Sound client state writer

namespace DescriptorState

variable {client : BackfillClient} {state after : DescriptorState}
  {place : Nat}

theorem Consistent.write_step {upload : UploadResult} {now : DateTime}
    {answers : SaveAnswers} (consistent : state.Consistent client)
    (undisturbed : Undisturbed client state
      (.write place upload now answers))
    (taken : descriptorStep client state (.write place upload now answers) =
      some after) : after.Consistent client := by
  have stepped := taken
  unfold descriptorStep at taken
  dsimp only at taken
  split at taken
  · rename_i write desc lacking found
    obtain ⟨keyed, normal, knows⟩ := consistent.inHand _
      (List.mem_of_getElem? found) desc rfl
    cases changes : write.change upload now desc with
    | error failure =>
        rw [changes] at taken
        cases taken
        refine consistent.uncommitted found ?_ ?_
        · rfl
        · intro held holds
          cases holds
    | ok changed =>
        rw [changes] at taken
        cases taken
        let before : Backfilling := { state := state.shared, desc := changed }
        have commits : BackfillClient.Commits client (fun _ => False) before
            (client.saveDescriptor answers before) :=
          BackfillClient.commits_saveDescriptor (.of_desc rfl rfl rfl)
            answers consistent.primary (change_keyed keyed changes)
        refine consistent.committed found ?_ (change_keyed keyed changes)
          commits ?_ ?_
        · rfl
        · intro stored
          obtain ⟨whole, unused⟩ := undisturbed _ stepped stored _ found
          constructor
          · intro item member stays
            rw [List.mem_append, not_or] at stays
            refine ⟨?_, id⟩
            apply change_heldIn normal changes _ stays.2
              (knows whole item member stays.1)
            intro isNew
            exact unused item.1 isNew (List.mem_map.mpr ⟨item, member, rfl⟩)
          · intro versionId member
            obtain ⟨version, there⟩ := change_appends changes versionId member
            exact ⟨version, there, id⟩
        · intro run held _ holds
          cases holds
  · cases taken

theorem Consistent.distribute_step {answers : BackfillAnswers}
    (consistent : state.Consistent client)
    (undisturbed : Undisturbed client state (.distribute place answers))
    (taken : descriptorStep client state (.distribute place answers) =
      some after) : after.Consistent client := by
  have stepped := taken
  unfold descriptorStep at taken
  dsimp only at taken
  split at taken
  · rename_i verify run lacking found
    obtain ⟨keyed, normal, knows⟩ := consistent.inHand _
      (List.mem_of_getElem? found) run.desc rfl
    cases taken
    have commits := @BackfillClient.distribute_commits client answers
      { run with state := state.shared } consistent.primary keyed
    refine consistent.committed found ?_ keyed commits ?_ ?_
    · rfl
    · intro stored
      obtain ⟨whole, _⟩ := undisturbed _ stepped stored _ found
      constructor
      · intro item member stays
        rw [List.mem_append, not_or] at stays
        obtain ⟨kept, there, retained⟩ := knows whole item member stays.1
        exact ⟨⟨kept, there, retained, normal item.1 kept there⟩, stays.2⟩
      · intro versionId member
        cases member
    · intro last held done holds
      cases holds
      refine ⟨rfl, normal, ?_⟩
      intro saves
      exact ⟨rfl, BackfillClient.distribute_uncommitted consistent.primary
        keyed done saves⟩
  · cases taken

theorem Consistent.replicate_step {answers : BackfillAnswers}
    (consistent : state.Consistent client)
    (undisturbed : Undisturbed client state (.replicate place answers))
    (taken : descriptorStep client state (.replicate place answers) =
      some after) : after.Consistent client := by
  have stepped := taken
  unfold descriptorStep at taken
  dsimp only at taken
  split at taken
  · rename_i verify run lacking found
    obtain ⟨keyed, normal, knows⟩ := consistent.inHand _
      (List.mem_of_getElem? found) run.desc rfl
    cases taken
    have commits := @BackfillClient.replicateFile_commits client answers
      verify { run with state := state.shared } consistent.primary keyed
    refine consistent.committed found ?_ keyed commits ?_ ?_
    · rfl
    · intro stored
      obtain ⟨whole, intact⟩ := undisturbed _ stepped stored _ found
      constructor
      · intro item member stays
        rw [List.mem_append, not_or] at stays
        refine ⟨?_, not_not.mpr (intact verify run rfl rfl)⟩
        obtain ⟨kept, there, retained⟩ := knows whole item member stays.1
        exact ⟨kept, there, retained, normal item.1 kept there⟩
      · intro versionId member
        cases member
    · intro last held done holds
      cases holds
  · cases taken

theorem Consistent.step {action : DescriptorAction}
    (consistent : state.Consistent client)
    (undisturbed : Undisturbed client state action)
    (taken : descriptorStep client state action = some after) :
    after.Consistent client := by
  cases action with
  | read place lookups now =>
      unfold descriptorStep at taken
      dsimp only at taken
      split at taken
      · cases taken
        exact consistent.reads _ _ _ _
      · cases taken
  | write place upload now answers =>
      exact consistent.write_step undisturbed taken
  | distribute place answers =>
      exact consistent.distribute_step undisturbed taken
  | replicate place answers =>
      exact consistent.replicate_step undisturbed taken

end DescriptorState

def loneClient : BackfillClient where
  repo := FileHistory.alone
  mode := .auto
  strict := false
  backend _ := "tg"
  maxPartBytes _ := 0
  keys_normal := by
    intro key member
    cases member
  keys_distinct := List.nodup_nil
  primary_apart := List.not_mem_nil

def twoVersions : BackfillState where
  texts := WriteBack.twoAndEmpty
  mirrorTexts _ := Dict.empty
  file := WriteBack.fileOf 9

def takesAll : SaveAnswers where
  accepted := true
  fresh := 10
  edit _ _ := .raised
  send _ := none

/-- The reads and writes of the two writers. -/
def twoWriters : List DescriptorOp :=
  [.client (.append "n"), .client (.setLastModified ⟨50, false⟩)]

def readBy (writer : Nat) : DescriptorAction :=
  .read writer (fun _ ids => some (ids.map fun messageId =>
    some { messageId := messageId, documentSize := some 1 })) ⟨40, false⟩

def writeBy (writer : Nat) : DescriptorAction :=
  .write writer (.sent [{ messageId := 3, size := 1 }]) ⟨40, false⟩ takesAll

theorem read_undisturbed (client : BackfillClient) (state : DescriptorState)
    (writer : Nat) (lookups : Answers) (now : DateTime) :
    Undisturbed client state (.read writer lookups now) := by
  intro after taken stored
  unfold descriptorStep at taken
  dsimp only at taken
  split at taken
  · cases taken
    exact absurd stored (Nat.lt_irrefl _)
  · cases taken

theorem write_undisturbed {state : DescriptorState} {place : Nat}
    (holds : state.writers[place]?.all (fun writer =>
      !writer.lacking && writer.op.appended.all fun versionId =>
        !(state.recorded.map Prod.fst).contains versionId) = true)
    (upload : UploadResult) (now : DateTime) (answers : SaveAnswers) :
    Undisturbed client state (.write place upload now answers) := by
  intro _ _ _ writer found
  rw [show state.writers[place]? = some writer from found] at holds
  simpa [DescriptorAction.Sound] using holds

-- The re-dating reads before the upload writes, and writes after it.
example : (run (descriptorStep loneClient) (.start twoVersions twoWriters)
      [readBy 0, readBy 1, writeBy 0, writeBy 1]).map (fun state =>
        (state.expected.contains "n", state.deleted.contains "n",
          state.shared.versions.keys)) =
    some (true, false, ["b", "a"]) := by
  decide

end Tgdcfs
