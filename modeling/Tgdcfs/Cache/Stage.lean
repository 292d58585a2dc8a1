import Tgdcfs.Cache.PendingReads
import Tgdcfs.Cache.Writers

/-!
# Staging a whole upload

`stage` writes an upload into the cache and acknowledges it before any store
has the bytes.  The call is a task among the others: it waits for the source,
for the disk, and for its handle to close.  The writer ends the staging of the
entry with the last byte it writes, or when it is closed with its handle
open; a version of no bytes is never written and has no handle.
-/

namespace Tgdcfs

open Lib

variable {content : String → List UInt8} {config : CacheConfig}

/-- Where a call of `stage` is.  In `leaving` it closes the source, to raise
again afterwards or not; in `closing` the writer waits for its handle. -/
inductive StagePhase where
  | idle
  | opening
  | reading
  | writing (chunk : List UInt8)
  | finishing
  | aborting (raises : Bool)
  | leaving (raises : Bool)
  | closing
  | refused
  | returned (size : Nat)
  | raised
  deriving DecidableEq, Repr

/-- `writer` is the position of the writer that the cache handed out. -/
structure StageCall where
  fs : String
  versionId : String
  size : Nat
  remaining : Nat := 0
  writer : Nat := 0
  phase : StagePhase := .idle
  deriving DecidableEq, Repr

structure StagingState where
  shared : DiskState
  call : StageCall

/-- What the environment decides for the call: the answers of the source and
of the disk, and when it is interrupted. -/
inductive StageAction where
  | other (action : DiskAction)
  | start (now pinnedAt : Int) (free : FreeSpace)
      (refused : Option FileKind)
  | opened
  | openFails
  | read (chunk : List UInt8)
  | interrupted
  | written
  | writeFails (landed : Nat)
  | finished
  | aborted
  | left (raises : Bool)
  | closed

namespace StagingState

/-- A step of the call on the cache. -/
def perform (config : CacheConfig) (now : StagingState)
    (action : CacheAction) (call : StageCall) : Option StagingState :=
  (diskStep config now.shared (.perform action)).map
    fun shared => ⟨shared, call⟩

/-- What `stage` does once the writer is closed. -/
def conclude (config : CacheConfig) (now : StagingState) :
    Option StagingState := do
  let writer ← now.shared.state.writers[now.call.writer]?
  if writer.failed || decide (0 < now.call.remaining) then
    now.perform config (.remove now.call.versionId)
      { now.call with phase := .raised }
  else some ⟨now.shared,
    { now.call with phase := .returned now.call.size }⟩

/-- The entry is opened and pinned before the source is. -/
def start (config : CacheConfig) (now : StagingState)
    (instant pinnedAt : Int) (free : FreeSpace)
    (refused : Option FileKind) : Option StagingState := do
  let opened ← diskStep config now.shared (.perform (.openStaging
    now.call.fs now.call.versionId now.call.size instant free refused))
  match (now.shared.state.cache.openStaging config now.call.fs
      now.call.versionId now.call.size instant free refused).2 with
  | none => some ⟨opened, { now.call with phase := .refused }⟩
  | some _ =>
      perform config ⟨opened, now.call⟩ (.pin now.call.versionId pinnedAt)
        { now.call with
          remaining := now.call.size
          writer := now.shared.state.writers.length
          phase := .opening }

/-- `write` of a chunk that has reached the disk. -/
def written (config : CacheConfig) (now : StagingState)
    (chunk : List UInt8) : Option StagingState := do
  let shared ← diskStep config now.shared
    (.perform (.write now.call.writer chunk))
  let moved ← shared.state.writers[now.call.writer]?
  some ⟨shared,
    { now.call with
      remaining := now.call.remaining - chunk.length
      phase :=
        if moved.failed then .leaving false
        else if moved.finishing then .finishing
        else .reading }⟩

/-- The source is closed: the writer is. -/
def close (config : CacheConfig) (now : StagingState) :
    Option StagingState := do
  let shared ← diskStep config now.shared
    (.perform (.close now.call.writer))
  let moved ← shared.state.writers[now.call.writer]?
  if moved.finishing || moved.aborting then
    some ⟨shared, { now.call with phase := .closing }⟩
  else conclude config ⟨shared, now.call⟩

/-- The handle of a writer that was closed is closed. -/
def closed (config : CacheConfig) (now : StagingState) :
    Option StagingState := do
  let writer ← now.shared.state.writers[now.call.writer]?
  let shared ← diskStep config now.shared
    (.perform (if writer.finishing then .finish now.call.writer
      else .endAbort now.call.writer))
  conclude config ⟨shared, now.call⟩

end StagingState

def stageStep (config : CacheConfig) (now : StagingState)
    (action : StageAction) : Option StagingState :=
  let call := now.call
  match action, call.phase with
  -- A process that stops takes the call with it.
  | .other (.crash _ _ _), _ => none
  | .other action, _ =>
      (diskStep config now.shared action).map fun shared => ⟨shared, call⟩
  | .start instant pinnedAt free refused, .idle =>
      now.start config instant pinnedAt free refused
  | .opened, .opening =>
      some { now with call := { call with phase := .reading } }
  | .openFails, .opening =>
      some { now with call := { call with phase := .raised } }
  | .read chunk, .reading =>
      if 0 < call.remaining then
        some
          { now with
            call :=
              { call with
                phase :=
                  if chunk.isEmpty then .leaving false
                  else .writing chunk } }
      else none
  | .interrupted, .reading =>
      if 0 < call.remaining then
        now.perform config (.abort call.writer)
          { call with phase := .aborting true }
      else none
  | .interrupted, .writing _ | .interrupted, .finishing =>
      now.perform config (.abort call.writer)
        { call with phase := .aborting true }
  | .written, .writing chunk => now.written config chunk
  | .writeFails landed, .writing chunk =>
      now.perform config (.writeFailed call.writer chunk landed)
        { call with
          remaining := call.remaining - chunk.length
          phase := .aborting false }
  | .finished, .finishing =>
      now.perform config (.finish call.writer) { call with phase := .reading }
  | .aborted, .aborting raises =>
      now.perform config (.endAbort call.writer)
        { call with phase := .leaving raises }
  | .left raises, .reading =>
      if 0 < call.remaining then none
      else if raises then
        some { now with call := { call with phase := .raised } }
      else now.close config
  | .left raises, .leaving earlier =>
      if raises || earlier then
        some { now with call := { call with phase := .raised } }
      else now.close config
  | .closed, .closing => now.closed config
  | _, _ => none

/-- The source delivers the bytes of the version, in chunks of any size, and
no more than were declared. -/
def StageAction.Honest (content : String → List UInt8) (now : StagingState) :
    StageAction → Prop
  | .other action => action.Honest content now.shared
  | .read chunk => chunk.length ≤ now.call.remaining ∧
      chunk <+: (content now.call.versionId).drop
        (now.call.size - now.call.remaining)
  | _ => True

def DiskAction.Moves (position : Nat) : DiskAction → Prop
  | .perform action | .crash action _ _ => action.Moves position
  | _ => False

/-- While the call has an entry, no other task lets go of it, and none uses
its writer. -/
def StageAction.LeavesAlone (config : CacheConfig) (now : StagingState) :
    StageAction → Prop
  | .other action => now.call.phase ≠ .idle →
      ¬action.LetsGo config now.shared now.call.versionId ∧
        ¬action.Moves now.call.writer
  | _ => True

/-- What an acknowledgement promises: the version is complete, and its
consumers find it until something lets go of it. -/
def Acknowledged (config : CacheConfig) (content : String → List UInt8)
    (now : DiskState) (versionId : String) (size : Nat) : Prop :=
  now.state.cache.complete versionId = true ∧
    ∀ (reads : List LocalRead) (actions : List ReadingAction)
      (later : ReadingState),
      (∀ read ∈ reads, read.versionId ≠ versionId) →
      Guarded (readingStep config)
        (fun state action => action.Honest content state ∧
          ¬action.LetsGo config state versionId) ⟨now, reads⟩ actions →
      run (readingStep config) ⟨now, reads⟩ actions = some later →
        later.shared.state.cache.Serves versionId size ∧
        ∀ read ∈ later.reads, read.versionId = versionId →
          read.Delivers later.shared.disk (content versionId)

/-- The entry is staged until its writer has finished, and for ever if there
is nothing to write. -/
structure Progress (now : StagingState) (writer : StagingWriter)
    (entry : CacheEntry) : Prop where
  here : now.shared.state.writers[now.call.writer]? = some writer
  named : writer.versionId = now.call.versionId
  sized : writer.size = now.call.size
  found : now.shared.state.cache.entry now.call.versionId = some entry
  same : entry.uid = writer.uid
  pinned : 0 < entry.pins
  intact : writer.failed = false
  position : writer.offset + now.call.remaining = now.call.size
  opened : writer.fdOpen = true →
    writer.offset < writer.size ∨ writer.finishing = true
  idle : writer.aborting = false
  staged : entry.writing = decide (writer.offset < writer.size ∨
    writer.finishing = true ∨ writer.size = 0)

variable {now : StagingState}

theorem Progress.rephase {writer : StagingWriter} {entry : CacheEntry}
    (progress : Progress now writer entry) (phase : StagePhase) :
    Progress ⟨now.shared, { now.call with phase := phase }⟩ writer entry :=
  ⟨progress.here, progress.named, progress.sized, progress.found,
    progress.same, progress.pinned, progress.intact, progress.position,
    progress.opened, progress.idle, progress.staged⟩

/-- The call will not return. -/
def Doomed (now : StagingState) : Prop :=
  ∃ writer, now.shared.state.writers[now.call.writer]? = some writer ∧
    (writer.failed = true ∨ 0 < now.call.remaining)

theorem Doomed.rephase (doomed : Doomed now) (phase : StagePhase) :
    Doomed ⟨now.shared, { now.call with phase := phase }⟩ :=
  doomed

/-- What is known in each phase. -/
def StagePhase.Sound (content : String → List UInt8) (now : StagingState) :
    StagePhase → Prop
  | .idle | .refused | .raised => True
  | .opening | .reading => ∃ writer entry, Progress now writer entry ∧
      writer.finishing = false
  | .writing chunk => ∃ writer entry, Progress now writer entry ∧
      writer.finishing = false ∧ chunk.isEmpty = false ∧
      chunk <+: (content writer.versionId).drop writer.offset ∧
      chunk.length ≤ now.call.remaining
  | .finishing => ∃ writer entry, Progress now writer entry ∧
      writer.finishing = true ∧ now.call.remaining = 0 ∧ 0 < now.call.size
  | .aborting raises | .leaving raises => raises = true ∨ Doomed now
  | .closing => Doomed now
  | .returned size => ∃ writer entry, Progress now writer entry ∧
      writer.finishing = false ∧ now.call.remaining = 0 ∧
      size = now.call.size

structure StageInvariant (config : CacheConfig)
    (content : String → List UInt8) (now : StagingState) : Prop where
  shared : DiskInvariant config content now.shared
  apart : now.shared.state.Apart
  phase : now.call.phase.Sound content now

section Others

variable {now : StagingState} {shared : DiskState} {writer : StagingWriter}
  {entry : CacheEntry}

/-- An operation that is not the end of the writer keeps its entry. -/
theorem Progress.kept (progress : Progress now writer entry)
    (invariant : CacheInvariant config now.shared.state)
    {action : CacheAction}
    (taken : cacheStep config now.shared.state action = some shared.state)
    (holds : ¬action.LetsGo config now.shared.state now.call.versionId)
    (unfinished : action.ended now.shared.state ≠ some writer.uid) :
    ∃ later, shared.state.cache.entry now.call.versionId = some later ∧
      later.uid = writer.uid ∧ 0 < later.pins ∧
      later.writing = entry.writing := by
  rw [← progress.same] at unfinished ⊢
  exact cacheStep_staged invariant taken holds progress.found
    progress.pinned unfinished

theorem Progress.unfinished (progress : Progress now writer entry)
    (apart : now.shared.state.Apart) {action : CacheAction}
    (unmoved : ¬action.Moves now.call.writer) :
    action.ended now.shared.state ≠ some writer.uid := by
  intro ends
  cases action with
  | finish position =>
      obtain ⟨other, there, same⟩ := Option.map_eq_some_iff.mp ends
      exact unmoved (apart.position_eq there progress.here same)
  | _ => cases ends

theorem Progress.other (progress : Progress now writer entry)
    (invariant : CacheInvariant config now.shared.state)
    (apart : now.shared.state.Apart) {action : DiskAction}
    (survives : ∀ operation count mtime,
      action ≠ .crash operation count mtime)
    (moved : diskStep config now.shared action = some shared)
    (holds : ¬action.LetsGo config now.shared now.call.versionId)
    (unmoved : ¬action.Moves now.call.writer) :
    ∃ later, Progress ⟨shared, now.call⟩ writer later := by
  rcases diskStep_state moved with same | ⟨operation, rfl, operated⟩ |
    ⟨operation, count, mtime, crashed, _⟩
  · refine ⟨entry, ?_, progress.named, progress.sized, ?_, progress.same,
      progress.pinned, progress.intact, progress.position, progress.opened,
      progress.idle, progress.staged⟩
    · rw [same]
      exact progress.here
    · rw [same]
      exact progress.found
  · obtain ⟨later, found, same, pinned, flag⟩ := progress.kept invariant
      operated holds (progress.unfinished apart unmoved)
    exact ⟨later, cacheStep_writerAt progress.here unmoved operated,
      progress.named, progress.sized, found, same, pinned, progress.intact,
      progress.position, progress.opened, progress.idle,
      flag.trans progress.staged⟩
  · exact absurd crashed (survives operation count mtime)

theorem Doomed.other (doomed : Doomed now) {action : DiskAction}
    (survives : ∀ operation count mtime,
      action ≠ .crash operation count mtime)
    (moved : diskStep config now.shared action = some shared)
    (unmoved : ¬action.Moves now.call.writer) :
    Doomed ⟨shared, now.call⟩ := by
  obtain ⟨writer, here, hopeless⟩ := doomed
  rcases diskStep_state moved with same | ⟨operation, rfl, operated⟩ |
    ⟨operation, count, mtime, crashed, _⟩
  · refine ⟨writer, ?_, hopeless⟩
    rw [same]
    exact here
  · exact ⟨writer, cacheStep_writerAt here unmoved operated, hopeless⟩
  · exact absurd crashed (survives operation count mtime)

/-- What is known of a phase stays known while others move. -/
theorem StagePhase.Sound.other {phase : StagePhase}
    (sound : phase.Sound content now)
    (progressed : phase ≠ .idle → ∀ writer entry,
      Progress now writer entry →
        ∃ later, Progress ⟨shared, now.call⟩ writer later)
    (doomed : phase ≠ .idle → Doomed now → Doomed ⟨shared, now.call⟩) :
    phase.Sound content ⟨shared, now.call⟩ := by
  cases phase with
  | idle | refused | raised => trivial
  | opening | reading | writing chunk | finishing | returned size =>
      obtain ⟨writer, entry, progress, rest⟩ := sound
      obtain ⟨later, kept⟩ := progressed (by simp) writer entry progress
      exact ⟨writer, later, kept, rest⟩
  | aborting raises | leaving raises =>
      exact sound.imp_right (doomed (by simp))
  | closing => exact doomed (by simp) sound

end Others

section Own

variable {now later : StagingState} {shared : DiskState}
  {writer : StagingWriter} {entry : CacheEntry}

variable {action : CacheAction}

theorem DiskInvariant.performed {before : DiskState}
    (invariant : DiskInvariant config content before)
    (apart : before.state.Apart)
    (taken : diskStep config before (.perform action) = some shared)
    (honest : action.Honest content before.state) :
    DiskInvariant config content shared ∧ shared.state.Apart := by
  have faithful : (DiskAction.perform action).Honest content before := honest
  exact ⟨invariant.step faithful taken,
    diskStep_apart invariant.budget apart taken⟩

/-- The writer that `open_staging` hands out, and its entry. -/
theorem openStaging_filed {cache : LocalCache} {fs versionId : String}
    {size : Nat} {instant : Int} {free : FreeSpace}
    {refused : Option FileKind}
    (opened : (cache.openStaging config fs versionId size instant free
      refused).2 = some writer) :
    ∃ entry, (cache.openStaging config fs versionId size instant free
        refused).1.entry versionId = some entry ∧
      writer = ⟨entry.uid, versionId, size, entry.blockSize, 0, false, false,
        false, false⟩ ∧ entry.writing = true := by
  unfold LocalCache.openStaging at opened ⊢
  split at opened
  · cases opened
  · rename_i accepted
    rw [if_neg accepted]
    dsimp only at opened ⊢
    split at opened
    · cases opened
    · rename_i fitting
      rw [if_neg fitting]
      dsimp only at opened ⊢
      obtain ⟨entry, admitted, rfl⟩ := Option.map_eq_some_iff.mp opened
      obtain ⟨filed, named, staging, sized⟩ :=
        CacheInvariant.admitEntry_filed admitted
      refine ⟨entry, filed, ?_, staging⟩
      rw [named, sized, Int.toNat_natCast]

theorem pin_entry {cache : LocalCache} {versionId : String}
    (found : cache.entry versionId = some entry) (instant : Int) :
    ∃ pinned, (cache.pin versionId instant).entry versionId = some pinned ∧
      pinned.uid = entry.uid ∧ 0 < pinned.pins ∧
      pinned.writing = entry.writing := by
  refine ⟨{ entry with
      pinnedAt := if entry.pins = 0 then instant else entry.pinnedAt
      pins := entry.pins + 1 }, ?_, rfl, Nat.succ_pos _, rfl⟩
  have placed := cache.update_entry versionId entry.uid
    (fun entry =>
      { entry with
        pinnedAt := if entry.pins = 0 then instant else entry.pinnedAt
        pins := entry.pins + 1 }) versionId
  rw [if_pos rfl, found, Option.map_some, if_pos rfl] at placed
  unfold LocalCache.pin
  rw [found]
  exact placed

theorem StageInvariant.start (invariant : StageInvariant config content now)
    {instant pinnedAt : Int} {free : FreeSpace} {refused : Option FileKind}
    (taken : now.start config instant pinnedAt free refused = some later) :
    StageInvariant config content later := by
  unfold StagingState.start at taken
  obtain ⟨opened, moved, rest⟩ := Option.bind_eq_some_iff.mp taken
  obtain ⟨shared, apart⟩ :=
    invariant.shared.performed invariant.apart moved trivial
  cases handed : (now.shared.state.cache.openStaging config now.call.fs
      now.call.versionId now.call.size instant free refused).2 with
  | none =>
      rw [handed] at rest
      cases rest
      exact ⟨shared, apart, trivial⟩
  | some writer =>
      rw [handed] at rest
      obtain ⟨pinned, pins, done⟩ := Option.map_eq_some_iff.mp rest
      cases done
      obtain ⟨entry, filed, made, staging⟩ := openStaging_filed handed
      have operated := Option.some.inj (diskStep_perform moved)
      have again := Option.some.inj (diskStep_perform pins)
      have writers : pinned.state.writers =
          now.shared.state.writers ++ [writer] := by
        rw [← again, CacheState.withCache, ← operated, handed]
        rfl
      have found : opened.state.cache.entry now.call.versionId =
          some entry := by
        rw [← operated]
        exact filed
      obtain ⟨after, afterFound, same, pins_, flag⟩ :=
        pin_entry found pinnedAt
      have final := shared.performed apart pins trivial
      refine ⟨final.1, final.2, writer, after, ?_, ?_⟩
      · refine ⟨?_, ?_, ?_, ?_, ?_, pins_, ?_, ?_, ?_, ?_, ?_⟩
        · rw [writers, List.getElem?_append_right (Nat.le_refl _),
            Nat.sub_self]
          rfl
        · rw [made]
        · rw [made]
        · rw [← again]
          exact afterFound
        · rw [same, made]
        · rw [made]
        · rw [made]
          exact Nat.zero_add _
        · rw [made]
          intro impossible
          cases impossible
        · rw [made]
        · rw [flag, staging, made]
          simp
          omega
      · rw [made]

theorem StagingWriter.write_moves (cache : LocalCache) {data : List UInt8}
    (intact : writer.failed = false) (filled : data.isEmpty = false) :
    (writer.write cache data).1 =
      { writer with
        offset := writer.offset + data.length
        fdOpen := true
        finishing := decide (writer.size ≤ writer.offset + data.length) } := by
  rw [StagingWriter.write, intact, filled, if_neg (by simp)]

/-- The bytes of a chunk carry the writer to the next phase. -/
theorem StageInvariant.written (invariant : StageInvariant config content now)
    {chunk : List UInt8} (phase : now.call.phase = .writing chunk)
    (taken : now.written config chunk = some later) :
    StageInvariant config content later := by
  have sound := invariant.phase
  rw [phase] at sound
  obtain ⟨writer, entry, progress, unfinished, filled, honest, short⟩ := sound
  unfold StagingState.written at taken
  obtain ⟨shared, moved, rest⟩ := Option.bind_eq_some_iff.mp taken
  obtain ⟨moved_, here, done⟩ := Option.bind_eq_some_iff.mp rest
  cases done
  have operated := diskStep_perform moved
  obtain ⟨kept, keptFound, same, pinned, flag⟩ := progress.kept
    invariant.shared.budget operated (fun impossible => impossible)
    fun impossible => by cases impossible
  have final := invariant.shared.performed invariant.apart moved (by
    intro other there _
    rw [progress.here] at there
    cases there
    exact honest)
  have becomes : moved_ =
      { writer with
        offset := writer.offset + chunk.length
        fdOpen := true
        finishing :=
          decide (writer.size ≤ writer.offset + chunk.length) } := by
    obtain ⟨other, there, next⟩ := Option.bind_eq_some_iff.mp operated
    rw [progress.here] at there
    cases there
    rw [← Option.some.inj next, CacheState.withWriter,
      List.getElem?_set_self
        (List.getElem?_eq_some_iff.mp progress.here).1,
      StagingWriter.write_moves _ progress.intact filled] at here
    exact (Option.some.inj here).symm
  have positive : 0 < chunk.length := by
    cases chunk with
    | nil => cases filled
    | cons byte rest => exact Nat.succ_pos _
  have position := progress.position
  have sized := progress.sized
  have after : Progress ⟨shared,
      { now.call with
        remaining := now.call.remaining - chunk.length }⟩ moved_ kept := by
    rw [becomes] at here ⊢
    refine ⟨here, progress.named, progress.sized, keptFound, same, pinned,
      progress.intact, ?_, ?_, progress.idle, ?_⟩
    · dsimp only
      omega
    · intro _
      simp only [decide_eq_true_eq]
      omega
    · rw [flag, progress.staged]
      simp only [decide_eq_true_eq, unfinished]
      rw [decide_eq_decide]
      omega
  refine ⟨final.1, final.2, ?_⟩
  dsimp only
  rw [if_neg (by rw [after.intact]; exact Bool.false_ne_true)]
  split
  · rename_i finishing
    refine ⟨moved_, kept, after.rephase .finishing, finishing, ?_, ?_⟩
    · rw [becomes] at finishing
      simp only [decide_eq_true_eq] at finishing
      dsimp only
      omega
    · dsimp only
      omega
  · rename_i going
    exact ⟨moved_, kept, after.rephase .reading, by simpa using going⟩

theorem StageInvariant.finished (invariant : StageInvariant config content now)
    (phase : now.call.phase = .finishing)
    (taken : now.perform config (.finish now.call.writer)
      { now.call with phase := .reading } = some later) :
    StageInvariant config content later := by
  have sound := invariant.phase
  rw [phase] at sound
  obtain ⟨writer, entry, progress, finishing, all, positive⟩ := sound
  obtain ⟨shared, moved, done⟩ := Option.map_eq_some_iff.mp taken
  cases done
  have operated := diskStep_perform moved
  have final := invariant.shared.performed invariant.apart moved trivial
  have stays : ¬(CacheAction.finish now.call.writer).LetsGo config
      now.shared.state now.call.versionId := fun impossible => impossible
  obtain ⟨kept, keptFound, keeps⟩ := cacheStep_keepsPinned
    invariant.shared.budget.keyed stays operated entry progress.found
    progress.pinned
  obtain ⟨other, there, next⟩ := Option.bind_eq_some_iff.mp operated
  rw [progress.here] at there
  cases there
  rw [if_pos finishing] at next
  have state := Option.some.inj next
  have settled : kept.writing = false := by
    have placed := now.shared.state.cache.update_entry writer.versionId
      writer.uid (fun entry => { entry with writing := false })
      now.call.versionId
    rw [if_pos progress.named.symm, progress.found, Option.map_some,
      if_pos progress.same] at placed
    rw [← state] at keptFound
    exact congrArg CacheEntry.writing
      (Option.some.inj (keptFound.symm.trans placed))
  have position := progress.position
  have sized := progress.sized
  refine ⟨final.1, final.2, { writer with fdOpen := false, finishing := false },
    kept, ?_, rfl⟩
  refine ⟨?_, progress.named, progress.sized, keptFound,
    keeps.uid.trans progress.same, keeps.pinned, progress.intact,
    progress.position, ?_, progress.idle, ?_⟩
  · rw [← state, CacheState.withWriter]
    exact List.getElem?_set_self
      (List.getElem?_eq_some_iff.mp progress.here).1
  · intro impossible
    cases impossible
  · rw [settled]
    symm
    simp only [decide_eq_false_iff_not]
    simp
    omega

/-- A call that is doomed raises, and one that has written everything
returns. -/
theorem StageInvariant.concluded (shared : DiskInvariant config content
      now.shared) (apart : now.shared.state.Apart)
    (outcome : Doomed now ∨ ∃ writer entry, Progress now writer entry ∧
      writer.finishing = false ∧ now.call.remaining = 0)
    (taken : now.conclude config = some later) :
    StageInvariant config content later := by
  unfold StagingState.conclude at taken
  obtain ⟨writer, here, rest⟩ := Option.bind_eq_some_iff.mp taken
  split at rest
  · obtain ⟨removed, moved, done⟩ := Option.map_eq_some_iff.mp rest
    cases done
    have final := shared.performed apart moved trivial
    exact ⟨final.1, final.2, trivial⟩
  · rename_i succeeds
    cases rest
    simp only [Bool.or_eq_true, decide_eq_true_eq, not_or] at succeeds
    refine ⟨shared, apart, ?_⟩
    rcases outcome with ⟨other, there, hopeless⟩ |
      ⟨other, entry, progress, unfinished, all⟩
    · rw [here] at there
      cases there
      exact absurd hopeless (not_or.mpr succeeds)
    · exact ⟨other, entry, progress.rephase _, unfinished, all, rfl⟩

theorem Doomed.moved (doomed : Doomed now)
    (operated : cacheStep config now.shared.state action =
      some shared.state)
    (keeps : ∀ writer moved, now.shared.state.writers[now.call.writer]? =
        some writer →
      shared.state.writers[now.call.writer]? = some moved →
        writer.failed = true → moved.failed = true) :
    Doomed ⟨shared, now.call⟩ := by
  obtain ⟨writer, here, hopeless⟩ := doomed
  have inside := (List.getElem?_eq_some_iff.mp here).1
  have still : now.call.writer < shared.state.writers.length := by
    rcases cacheStep_writers operated with
      ⟨_, _, _, _, _, _, writers⟩ | ⟨_, writers, _⟩
    · rw [writers, List.length_set]
      exact inside
    · rw [writers, List.length_append]
      omega
  refine ⟨_, List.getElem?_eq_getElem still, hopeless.imp_left ?_⟩
  exact keeps writer _ here (List.getElem?_eq_getElem still)

theorem StagingWriter.close_of_written (intact : writer.failed = false)
    (all : writer.size ≤ writer.offset) (unopened : writer.fdOpen = false) :
    writer.close = writer := by
  rw [StagingWriter.close, intact, unopened, if_neg Bool.false_ne_true,
    if_pos all, if_neg Bool.false_ne_true]

theorem StageInvariant.close (invariant : DiskInvariant config content
      now.shared) (apart : now.shared.state.Apart)
    (outcome : Doomed now ∨ ∃ writer entry, Progress now writer entry ∧
      writer.finishing = false ∧ now.call.remaining = 0)
    (taken : now.close config = some later) :
    StageInvariant config content later := by
  unfold StagingState.close at taken
  obtain ⟨shared, moved, rest⟩ := Option.bind_eq_some_iff.mp taken
  obtain ⟨moved_, here, done⟩ := Option.bind_eq_some_iff.mp rest
  have operated := diskStep_perform moved
  have final := invariant.performed apart moved trivial
  obtain ⟨writer, was, next⟩ := Option.bind_eq_some_iff.mp operated
  have closes : moved_ = writer.close := by
    rw [← Option.some.inj next, CacheState.withWriter,
      List.getElem?_set_self (List.getElem?_eq_some_iff.mp was).1] at here
    exact (Option.some.inj here).symm
  rcases outcome with doomed | ⟨writer', entry, progress, unfinished, all⟩
  · have still : Doomed ⟨shared, now.call⟩ := by
      refine doomed.moved operated ?_
      intro before after beforeHere afterHere failed
      rw [was] at beforeHere
      cases beforeHere
      rw [here] at afterHere
      cases afterHere
      rw [closes, StagingWriter.close, if_pos failed]
      exact failed
    split at done
    · cases done
      exact ⟨final.1, final.2, still.rephase .closing⟩
    · exact concluded final.1 final.2 (.inl still) done
  · rw [progress.here] at was
    cases was
    have position := progress.position
    have sized := progress.sized
    have unopened : writer.fdOpen = false := by
      rw [← Bool.not_eq_true]
      intro opened
      rcases progress.opened opened with short | finishing
      · omega
      · rw [unfinished] at finishing
        cases finishing
    have same : moved_ = writer := closes.trans
      (StagingWriter.close_of_written progress.intact (by omega) unopened)
    rw [same] at here done
    rw [unfinished, progress.idle, if_neg (by simp)] at done
    obtain ⟨kept, keptFound, sameUid, pinned, flag⟩ :=
      progress.kept invariant.budget operated
        (fun impossible => impossible) fun impossible => by cases impossible
    have after : Progress ⟨shared, now.call⟩ writer kept :=
      ⟨here, progress.named, progress.sized, keptFound, sameUid, pinned,
        progress.intact, progress.position, progress.opened, progress.idle,
        flag.trans progress.staged⟩
    exact concluded final.1 final.2
      (.inr ⟨writer, kept, after, unfinished, all⟩) done

theorem StageInvariant.closed (invariant : DiskInvariant config content
      now.shared) (apart : now.shared.state.Apart) (doomed : Doomed now)
    (taken : now.closed config = some later) :
    StageInvariant config content later := by
  unfold StagingState.closed at taken
  obtain ⟨writer, here, rest⟩ := Option.bind_eq_some_iff.mp taken
  obtain ⟨shared, moved, done⟩ := Option.bind_eq_some_iff.mp rest
  have operated := diskStep_perform moved
  have final := invariant.performed apart moved (by split <;> trivial)
  refine concluded final.1 final.2 (.inl ?_) done
  refine doomed.moved operated ?_
  intro before after beforeHere afterHere failed
  rw [here] at beforeHere
  cases beforeHere
  have inside := (List.getElem?_eq_some_iff.mp here).1
  by_cases finishing : writer.finishing = true
  · rw [if_pos finishing] at operated
    obtain ⟨other, there, next⟩ := Option.bind_eq_some_iff.mp operated
    rw [here] at there
    cases there
    rw [if_pos finishing] at next
    rw [← Option.some.inj next, CacheState.withWriter,
      List.getElem?_set_self inside] at afterHere
    rw [← Option.some.inj afterHere]
    exact failed
  · rw [if_neg finishing] at operated
    obtain ⟨other, there, next⟩ := Option.bind_eq_some_iff.mp operated
    rw [here] at there
    cases there
    split at next
    · rw [← Option.some.inj next, CacheState.withWriter,
        List.getElem?_set_self inside] at afterHere
      rw [← Option.some.inj afterHere]
      exact failed
    · cases next

variable (invariant : StageInvariant config content now)
include invariant

theorem StageInvariant.aborted {call : StageCall}
    (taken : now.perform config action call = some later)
    (honest : action.Honest content now.shared.state)
    (phase : ∀ shared, diskStep config now.shared (.perform action) =
      some shared → call.phase.Sound content ⟨shared, call⟩) :
    StageInvariant config content later := by
  obtain ⟨shared, moved, done⟩ := Option.map_eq_some_iff.mp taken
  cases done
  have final :=
    invariant.shared.performed invariant.apart moved honest
  exact ⟨final.1, final.2, phase shared moved⟩

theorem StageInvariant.other {action : DiskAction}
    (survives : ∀ operation count mtime,
      action ≠ .crash operation count mtime) {shared : DiskState}
    (moved : diskStep config now.shared action = some shared)
    (honest : action.Honest content now.shared)
    (alone : StageAction.LeavesAlone config now (.other action)) :
    StageInvariant config content ⟨shared, now.call⟩ := by
  refine ⟨invariant.shared.step honest moved,
    diskStep_apart invariant.shared.budget invariant.apart moved,
    invariant.phase.other ?_ ?_⟩
  · intro started writer entry progress
    exact progress.other invariant.shared.budget invariant.apart survives
      moved (alone started).1 (alone started).2
  · intro started doomed
    exact doomed.other survives moved (alone started).2

theorem StageInvariant.opened (phase : now.call.phase = .opening) :
    StageInvariant config content
      { now with call := { now.call with phase := .reading } } := by
  have sound := invariant.phase
  rw [phase] at sound
  obtain ⟨writer, entry, progress, unfinished⟩ := sound
  exact ⟨invariant.shared, invariant.apart, writer, entry,
    progress.rephase .reading, unfinished⟩

theorem StageInvariant.raised :
    StageInvariant config content
      { now with call := { now.call with phase := .raised } } :=
  ⟨invariant.shared, invariant.apart, trivial⟩

theorem StageInvariant.read (phase : now.call.phase = .reading)
    {chunk : List UInt8}
    (honest : StageAction.Honest content now (.read chunk))
    (more : 0 < now.call.remaining) :
    StageInvariant config content
      { now with
        call :=
          { now.call with
            phase :=
              if chunk.isEmpty then .leaving false
              else .writing chunk } } := by
  have sound := invariant.phase
  rw [phase] at sound
  obtain ⟨writer, entry, progress, unfinished⟩ := sound
  refine ⟨invariant.shared, invariant.apart, ?_⟩
  dsimp only
  split
  · exact .inr ⟨writer, progress.here, .inr more⟩
  · rename_i nonempty
    have position := progress.position
    have offset : now.call.size - now.call.remaining =
        writer.offset := by omega
    refine ⟨writer, entry, progress.rephase _, unfinished,
      by simpa using nonempty, ?_, honest.1⟩
    rw [progress.named, ← offset]
    exact honest.2

/-- A write that fails leaves the writer failed before the abort. -/
theorem StageInvariant.writeFails {chunk : List UInt8}
    (phase : now.call.phase = .writing chunk) {landed : Nat}
    (taken : now.perform config (.writeFailed now.call.writer chunk landed)
      { now.call with
        remaining := now.call.remaining - chunk.length
        phase := .aborting false } = some later) :
    StageInvariant config content later := by
  have sound := invariant.phase
  rw [phase] at sound
  obtain ⟨writer, entry, progress, _, nonempty, fragment, _⟩ := sound
  refine invariant.aborted taken ?_ ?_
  · intro other there _
    rw [progress.here] at there
    cases there
    exact fragment
  · intro shared moved
    obtain ⟨other, there, next⟩ :=
      Option.bind_eq_some_iff.mp (diskStep_perform moved)
    rw [progress.here] at there
    cases there
    refine .inr ⟨(writer.writeFailed now.shared.state.cache chunk
      landed).1, ?_, .inl ?_⟩
    · rw [← Option.some.inj next, CacheState.withWriter]
      exact List.getElem?_set_self
        (List.getElem?_eq_some_iff.mp progress.here).1
    · rw [StagingWriter.writeFailed, progress.intact, nonempty,
        if_neg (by simp)]
      rfl

theorem StageInvariant.abortEnds {raises : Bool}
    (phase : now.call.phase = .aborting raises)
    (taken : now.perform config (.endAbort now.call.writer)
      { now.call with phase := .leaving raises } = some later) :
    StageInvariant config content later := by
  have sound := invariant.phase
  rw [phase] at sound
  refine invariant.aborted taken trivial ?_
  intro shared moved
  refine sound.imp_right fun doomed => ?_
  have still : Doomed ⟨shared, now.call⟩ := by
    refine doomed.moved (diskStep_perform moved) ?_
    intro before after here there failed
    obtain ⟨other, was, next⟩ :=
      Option.bind_eq_some_iff.mp (diskStep_perform moved)
    rw [here] at was
    cases was
    split at next
    · rw [← Option.some.inj next, CacheState.withWriter,
        List.getElem?_set_self
          (List.getElem?_eq_some_iff.mp here).1] at there
      rw [← Option.some.inj there]
      exact failed
    · cases next
  exact still.rephase _

/-- Every step of the call, and of the tasks beside it, keeps the invariant;
the cases are those of `stageStep` that take a step. -/
theorem StageInvariant.step {action : StageAction}
    (honest : action.Honest content now)
    (alone : action.LeavesAlone config now)
    (taken : stageStep config now action = some later) :
    StageInvariant config content later := by
  have sound := invariant.phase
  unfold stageStep at taken
  dsimp only at taken
  split at taken
  · cases taken
  · rename_i action survives
    obtain ⟨shared, moved, rfl⟩ := Option.map_eq_some_iff.mp taken
    exact invariant.other (fun _ _ _ => survives _ _ _) moved honest alone
  · exact invariant.start taken
  · rename_i phase
    cases taken
    exact invariant.opened phase
  · cases taken
    exact invariant.raised
  · rename_i phase
    split at taken
    · cases taken
      exact invariant.read phase honest ‹_›
    · cases taken
  · split at taken
    · exact invariant.aborted taken trivial fun _ _ => .inl rfl
    · cases taken
  · exact invariant.aborted taken trivial fun _ _ => .inl rfl
  · exact invariant.aborted taken trivial fun _ _ => .inl rfl
  · rename_i phase
    exact invariant.written phase taken
  · rename_i phase
    exact invariant.writeFails phase taken
  · rename_i phase
    exact invariant.finished phase taken
  · rename_i phase
    exact invariant.abortEnds phase taken
  · rename_i phase
    rw [phase] at sound
    split at taken
    · cases taken
    · split at taken
      · cases taken
        exact invariant.raised
      · obtain ⟨writer, entry, progress, unfinished⟩ := sound
        exact .close invariant.shared invariant.apart
          (.inr ⟨writer, entry, progress, unfinished, by omega⟩) taken
  · rename_i phase
    rw [phase] at sound
    split at taken
    · cases taken
      exact invariant.raised
    · rename_i quiet
      have doomed : Doomed now := by
        refine sound.resolve_left fun raised => quiet ?_
        rw [raised, Bool.or_true]
      exact .close invariant.shared invariant.apart (.inl doomed) taken
  · rename_i phase
    rw [phase] at sound
    exact .closed invariant.shared invariant.apart sound taken
  · cases taken

end Own

theorem CacheEntry.Whole.isComplete {entry : CacheEntry}
    (whole : entry.Whole) : entry.isComplete = true := by
  refine isComplete_iff.mpr (.inr fun index inside => ?_)
  by_contra missing
  have positive := blockLength_pos inside
  have counted : entry.blockLength index ≤
      entry.missingBytes (List.range entry.blocks) := by
    apply List.le_sum_of_mem
    refine List.mem_map.mpr ⟨index, List.mem_range.mpr inside, ?_⟩
    rw [if_neg missing]
  rw [CacheEntry.Whole] at whole
  omega

/-- The entry of a call that has returned is complete, unless the version
has no bytes: then it is staged for ever. -/
theorem StageInvariant.returned {size : Nat}
    (invariant : StageInvariant config content now)
    (phase : now.call.phase = .returned size) :
    if 0 < size then
      now.shared.state.cache.HoldsVersion now.call.versionId size
    else now.shared.state.cache.complete now.call.versionId = false := by
  have sound := invariant.phase
  rw [phase] at sound
  obtain ⟨writer, entry, progress, unfinished, all, rfl⟩ := sound
  have position := progress.position
  have sized := progress.sized
  have staged := progress.staged
  have found := progress.found
  split
  · rename_i positive
    have settled : entry.writing = false := by
      rw [staged, decide_eq_false_iff_not]
      simp only [unfinished, Bool.false_eq_true, false_or]
      omega
    have fits := invariant.shared.budget.writers writer
      (List.mem_of_getElem? progress.here)
    rw [← progress.named] at found
    have matches_ := fits.2 entry found progress.same
    rw [progress.named] at found
    exact ⟨entry, found, matches_.size.trans sized, progress.pinned, settled,
      (matches_.settled settled).isComplete⟩
  · rename_i nothing
    have staging : entry.writing = true := by
      rw [staged, decide_eq_true_eq]
      omega
    simp [LocalCache.complete, found, staging]

/-- An acknowledged upload is readable and distributable exactly when it has
bytes. -/
theorem stage_acknowledged_iff (config : CacheConfig)
    (content : String → List UInt8) {start now : StagingState}
    (reached : ReachableWithin (diskStep config) (DiskAction.Honest content)
      DiskState.initial start.shared)
    (called : start.call.phase = .idle) {actions : List StageAction}
    (allowed : Guarded (stageStep config)
      (fun state action => action.Honest content state ∧
        action.LeavesAlone config state) start actions)
    (ran : run (stageStep config) start actions = some now) {size : Nat}
    (acknowledged : now.call.phase = .returned size) :
    Acknowledged config content now.shared now.call.versionId size ↔
      0 < size := by
  have initial : StageInvariant config content start :=
    ⟨.reachable reached, apart_reachable reached, called ▸ trivial⟩
  have invariant : StageInvariant config content now :=
    run_invariant (fun _ _ _ invariant allowed taken =>
      invariant.step allowed.1 allowed.2 taken) initial allowed ran
  have outcome := invariant.returned acknowledged
  split at outcome
  · rename_i positive
    refine ⟨fun _ => positive, fun _ => ⟨outcome.complete, ?_⟩⟩
    intro reads further later unread kept went
    exact pending_served positive invariant.shared outcome unread kept went
  · rename_i nothing
    refine ⟨fun promised => ?_, fun positive => absurd positive nothing⟩
    have complete := promised.1
    rw [outcome] at complete
    cases complete

/-- A call before its first step. -/
def stageCall (size : Nat) : StagingState :=
  ⟨DiskState.initial, { fs := "fs", versionId := "v", size := size }⟩

def kilobyteBlocks : CacheConfig :=
  ⟨true, 1, 4, 0, 1, true, 0, 0, 100, Nat.one_pos⟩

/-- Three blocks in two chunks. -/
def twoChunks : List StageAction :=
  [.start 0 0 (fun _ => none) none, .opened, .read (List.replicate 1500 7),
    .other (.openHandle 0), .written, .read (List.replicate 1000 7),
    .written, .finished, .left false]

theorem honest_replicate {state : StagingState} {count : Nat}
    (fits : count ≤ state.call.remaining)
    (started : state.call.remaining ≤ state.call.size)
    (whole : state.call.size ≤ 2500) :
    StageAction.Honest (fun _ => List.replicate 2500 7) state
      (.read (List.replicate count 7)) := by
  refine ⟨List.length_replicate.trans_le fits, ?_⟩
  rw [List.drop_replicate, List.prefix_replicate_iff, List.length_replicate]
  exact ⟨by omega, rfl⟩

set_option maxRecDepth 8000 in
theorem stage_acknowledged_blocks :
    ∃ now entry, run (stageStep kilobyteBlocks) (stageCall 2500) twoChunks =
        some now ∧
      now.shared.state.cache.entry "v" = some entry ∧
      entry.present = [true, true, true] ∧
      Acknowledged kilobyteBlocks (fun _ => List.replicate 2500 7) now.shared
        now.call.versionId 2500 := by
  have allowed : Guarded (stageStep kilobyteBlocks)
      (fun state action =>
        action.Honest (fun _ => List.replicate 2500 7) state ∧
          action.LeavesAlone kilobyteBlocks state) (stageCall 2500)
      twoChunks := by
    iterate 2
      refine ⟨⟨trivial, trivial⟩, ?_⟩
      rintro _ ⟨⟩
    refine ⟨⟨honest_replicate (by decide) (by decide) (by decide),
      trivial⟩, ?_⟩
    rintro _ ⟨⟩
    refine ⟨⟨trivial, fun _ => ⟨fun let_ => let_, fun moves => moves⟩⟩, ?_⟩
    rintro _ ⟨⟩
    refine ⟨⟨trivial, trivial⟩, ?_⟩
    rintro _ ⟨⟩
    have left : 2500 - (List.replicate 1500 (7 : UInt8)).length = 1000 := by
      rw [List.length_replicate]
    refine ⟨⟨honest_replicate left.ge (left.trans_le (by decide))
      (by decide), trivial⟩, ?_⟩
    rintro _ ⟨⟩
    iterate 2
      refine ⟨⟨trivial, trivial⟩, ?_⟩
      rintro _ ⟨⟩
    exact ⟨⟨trivial, trivial⟩, fun _ _ => trivial⟩
  have start : ReachableWithin (diskStep kilobyteBlocks)
      (DiskAction.Honest fun _ => List.replicate 2500 7) DiskState.initial
      (stageCall 2500).shared :=
    ⟨[], trivial, rfl⟩
  have acknowledged := @stage_acknowledged_iff _ _ _ _ start rfl _ allowed
    rfl 2500 rfl
  exact ⟨_, _, rfl, rfl, rfl, acknowledged.mpr (by decide)⟩

/-- An upload of no bytes is acknowledged and then found by nobody. -/
theorem empty_upload_acknowledged :
    ¬∀ (config : CacheConfig) (content : String → List UInt8)
      (start now : StagingState) (actions : List StageAction) (size : Nat),
      ReachableWithin (diskStep config) (DiskAction.Honest content)
        DiskState.initial start.shared →
      start.call.phase = .idle →
      Guarded (stageStep config)
        (fun state action => action.Honest content state ∧
          action.LeavesAlone config state) start actions →
      run (stageStep config) start actions = some now →
      now.call.phase = .returned size →
        Acknowledged config content now.shared now.call.versionId size := by
  intro always
  have allowed : Guarded (stageStep kilobyteBlocks)
      (fun state action => action.Honest (fun _ => []) state ∧
        action.LeavesAlone kilobyteBlocks state) (stageCall 0)
      [.start 0 0 (fun _ => none) none, .opened, .left false] := by
    iterate 2
      refine ⟨⟨trivial, trivial⟩, ?_⟩
      rintro _ ⟨⟩
    exact ⟨⟨trivial, trivial⟩, fun _ _ => trivial⟩
  have returns : ∃ now, run (stageStep kilobyteBlocks) (stageCall 0)
      [.start 0 0 (fun _ => none) none, .opened, .left false] = some now ∧
      now.call.phase = .returned 0 ∧
      now.shared.state.cache.complete now.call.versionId = false :=
    ⟨_, rfl, rfl, rfl⟩
  obtain ⟨now, ran, returned, incomplete⟩ := returns
  have promised := always _ _ _ now _ 0 ⟨[], trivial, rfl⟩ rfl allowed ran
    returned
  have complete := promised.1
  rw [incomplete] at complete
  cases complete

end Tgdcfs
