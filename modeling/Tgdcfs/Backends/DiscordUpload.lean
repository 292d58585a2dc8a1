import Tgdcfs.Core.FileDescApi
import Tgdcfs.Lib.Lists
import Tgdcfs.Lib.Run
import Tgdcfs.Upload.Tee

/-!
# Uploads to a Discord store

`DiscordStore.upload` reads its message part by part, each part under an
upload slot, and hands part and slot to a task of its own.  One step of the
model leads an upload, or one of its tasks, from one await to the next; the
slots and the channel are shared by all uploads of the store.
-/

namespace Tgdcfs

open Lib

/-- `IStore.plan_parts` of a store whose largest part has `maxPartBytes`. -/
def planParts (maxPartBytes : Nat) (size : Int) : List Nat :=
  if size ≤ 0 then [0]
  else
    let parts := (size.toNat + maxPartBytes - 1) / maxPartBytes
    List.replicate (parts - 1) maxPartBytes ++
      [size.toNat - (parts - 1) * maxPartBytes]

/-- How far the task of one part is.  `skipped` is a task that was cancelled
before its first step. -/
inductive PartState where
  | scheduled
  | running
  | sent (messageId : Int)
  | failed
  | cancelled
  | skipped
  deriving DecidableEq, Repr

/-- A task of `_send_part_with_slot`. -/
structure PartTask where
  name : String
  data : List UInt8
  state : PartState := .scheduled
  cancelRequested : Bool := false
  deriving DecidableEq, Repr

namespace PartTask

def running (task : PartTask) : Bool :=
  match task.state with
  | .running => true
  | _ => false

/-- The task holds a slot that it has not taken over yet, and never will if
it was skipped. -/
def unstarted (task : PartTask) : Bool :=
  match task.state with
  | .scheduled => true
  | .skipped => true
  | _ => false

def done (task : PartTask) : Bool :=
  match task.state with
  | .scheduled => false
  | .running => false
  | _ => true

/-- `task.cancel()`, which does nothing to a task that is done. -/
def cancel (task : PartTask) : PartTask :=
  { task with cancelRequested := task.cancelRequested || !task.done }

def result (task : PartTask) : Option SentFileMessage :=
  match task.state with
  | .sent messageId => some { messageId := messageId, size := task.data.length }
  | _ => none

end PartTask

inductive DiscordOutcome where
  | sent (messages : List SentFileMessage)
  | raised

/-- The await at which an upload is suspended.  In `reading`, `data` is what
`_read_part` has buffered, and `yielding` says that it awaits `sleep(0)`.
The two `gather` calls remember that the upload was cancelled there. -/
inductive DiscordPhase where
  | opening
  | acquiring
  | reading (data : List UInt8) (yielding : Bool)
  | gathering (cancelled : Bool)
  | cleaning (cancelled : Bool)
  | closing (outcome : DiscordOutcome)
  | ended (outcome : DiscordOutcome)

/-- One call of `upload`.  The source has delivered `source` up to `unread`;
`acquired` and `released` count what the call and its tasks did with the
slots. -/
structure DiscordUpload where
  fileName : String
  size : Int
  source : List UInt8
  unread : List UInt8
  remaining : Int
  tasks : List PartTask := []
  unstarted : Nat := 0
  phase : DiscordPhase := .opening
  acquired : Nat := 0
  released : Nat := 0

/-- What the uploads of a store share: the free upload slots, and the
documents in the channel with their names. -/
structure DiscordShared where
  uploadSlots : Nat
  documents : Dict Int (String × List UInt8)

/-- The steps of one upload; the tasks are named by their position. -/
inductive DiscordUploadAction where
  | opened
  | openFails
  | acquire
  | read (length : Nat)
  | readFails
  | resume
  | startPart (part : Nat)
  | sendPart (part : Nat) (messageId : Int)
  | partFails (part : Nat)
  | partCancelled (part : Nat)
  | gathered
  | cleaned
  | closed
  | closeFails
  | cancel
  deriving DecidableEq, Repr

def DiscordShared.release (shared : DiscordShared) (count : Nat) :
    DiscordShared :=
  { shared with uploadSlots := shared.uploadSlots + count }

namespace DiscordUpload

def begin (fileName : String) (size : Int) (source : List UInt8) :
    DiscordUpload :=
  { fileName := fileName
    size := size
    source := source
    unread := source
    remaining := size }

/-- The largest number of bytes the next part may have. -/
def limit (maxPartBytes : Nat) (upload : DiscordUpload) : Int :=
  if 0 ≤ upload.size then min maxPartBytes upload.remaining
  else maxPartBytes

def partName (upload : DiscordUpload) : String :=
  "[part" ++ toString (upload.tasks.length + 1) ++ "]" ++ upload.fileName

def enter (upload : DiscordUpload) (phase : DiscordPhase) : DiscordUpload :=
  { upload with phase := phase }

def release (upload : DiscordUpload) (count : Nat) : DiscordUpload :=
  { upload with released := upload.released + count }

def setTask (upload : DiscordUpload) (part : Nat) (task : PartTask) :
    DiscordUpload :=
  { upload with tasks := upload.tasks.set part task }

def cancelTasks (upload : DiscordUpload) : DiscordUpload :=
  { upload with tasks := upload.tasks.map PartTask.cancel }

/-- The handler of `upload` up to its await. -/
def clean (upload : DiscordUpload) : DiscordUpload :=
  upload.cancelTasks.enter (.cleaning false)

/-- A part was read: its task takes over the slot. -/
def addPart (maxPartBytes : Nat) (upload : DiscordUpload)
    (data : List UInt8) : DiscordUpload :=
  let remaining := upload.remaining - data.length
  { upload with
    tasks := upload.tasks ++ [{ name := upload.partName, data := data }]
    unstarted := upload.unstarted + 1
    remaining := remaining
    phase :=
      if (0 ≤ upload.size ∧ remaining ≤ 0) ∨ data.length < maxPartBytes then
        .gathering false
      else .acquiring }

/-- `upload` from the return of `_read_part` to its next await. -/
def partRead (maxPartBytes : Nat) (shared : DiscordShared)
    (upload : DiscordUpload) (data : List UInt8) :
    DiscordUpload × DiscordShared :=
  if data = [] ∧ upload.tasks ≠ [] then
    ((upload.release 1).enter (.gathering false), shared.release 1)
  else (upload.addPart maxPartBytes data, shared)

/-- The slot is free: read the part, or send an empty one. -/
def acquire (maxPartBytes : Nat) (shared : DiscordShared)
    (upload : DiscordUpload) : Option (DiscordUpload × DiscordShared) :=
  match upload.phase with
  | .acquiring =>
      if shared.uploadSlots = 0 then none
      else
        let held := { upload with acquired := upload.acquired + 1 }
        let left := { shared with uploadSlots := shared.uploadSlots - 1 }
        if 0 < upload.limit maxPartBytes then
          some (held.enter (.reading [] false), left)
        else some (held.partRead maxPartBytes left [])
  | _ => none

/-- `file_msg.read` delivers `length` bytes, none only when there are no
more. -/
def read (maxPartBytes : Nat) (shared : DiscordShared)
    (upload : DiscordUpload) (length : Nat) :
    Option (DiscordUpload × DiscordShared) :=
  match upload.phase with
  | .reading data false =>
      let asked := min (readChunk : Int)
        (upload.limit maxPartBytes - data.length)
      if (length : Int) ≤ asked ∧ length ≤ upload.unread.length ∧
          (length = 0 → upload.unread = []) then
        if length = 0 then some (upload.partRead maxPartBytes shared data)
        else
          some ({ upload with
            unread := upload.unread.drop length
            phase := .reading (data ++ upload.unread.take length) true },
            shared)
      else none
  | _ => none

/-- `_read_part` after `sleep(0)`. -/
def resume (maxPartBytes : Nat) (shared : DiscordShared)
    (upload : DiscordUpload) : Option (DiscordUpload × DiscordShared) :=
  match upload.phase with
  | .reading data true =>
      if (data.length : Int) < upload.limit maxPartBytes then
        some (upload.enter (.reading data false), shared)
      else some (upload.partRead maxPartBytes shared data)
  | _ => none

/-- The read, or the upload itself while it reads, comes to an end. -/
def abandonPart (shared : DiscordShared) (upload : DiscordUpload) :
    DiscordUpload × DiscordShared :=
  ((upload.release 1).clean, shared.release 1)

def readFails (shared : DiscordShared) (upload : DiscordUpload) :
    Option (DiscordUpload × DiscordShared) :=
  match upload.phase with
  | .reading _ false => some (upload.abandonPart shared)
  | _ => none

/-- The first step of a task.  A task that was cancelled before does not run
at all. -/
def startPart (shared : DiscordShared) (upload : DiscordUpload)
    (part : Nat) : Option (DiscordUpload × DiscordShared) := do
  let task ← upload.tasks[part]?
  if task.state ≠ .scheduled then none
  else if task.cancelRequested then
    some (upload.setTask part { task with state := .skipped }, shared)
  else
    some ({ upload.setTask part { task with state := .running } with
      unstarted := upload.unstarted - 1 }, shared)

/-- A task that runs comes to an end and releases its slot. -/
def endPart (shared : DiscordShared) (upload : DiscordUpload) (part : Nat)
    (state : PartTask → Option PartState) :
    Option (DiscordUpload × DiscordShared) := do
  let task ← upload.tasks[part]?
  if task.state ≠ .running then none
  else
    let ended ← state task
    some ((upload.setTask part { task with state := ended }).release 1,
      shared.release 1)

/-- The part arrives in the channel under a message id of its own. -/
def sendPart (shared : DiscordShared) (upload : DiscordUpload) (part : Nat)
    (messageId : Int) : Option (DiscordUpload × DiscordShared) := do
  let task ← upload.tasks[part]?
  if (shared.documents.get? messageId).isSome then none
  else
    upload.endPart
      { shared with
        documents := shared.documents.set messageId (task.name, task.data) }
      part fun _ => some (.sent messageId)

def partFails (shared : DiscordShared) (upload : DiscordUpload)
    (part : Nat) : Option (DiscordUpload × DiscordShared) :=
  upload.endPart shared part fun _ => some .failed

def partCancelled (shared : DiscordShared) (upload : DiscordUpload)
    (part : Nat) : Option (DiscordUpload × DiscordShared) :=
  upload.endPart shared part fun task =>
    if task.cancelRequested then some .cancelled else none

/-- The first `gather` returns when every part was sent, and raises when one
was not, or when the upload was cancelled and its tasks are done. -/
def gathered (shared : DiscordShared) (upload : DiscordUpload) :
    Option (DiscordUpload × DiscordShared) :=
  match upload.phase with
  | .gathering cancelled =>
      match upload.tasks.mapM PartTask.result with
      | some messages =>
          if cancelled then some (upload.clean, shared)
          else some (upload.enter (.closing (.sent messages)), shared)
      | none =>
          if upload.tasks.any fun task =>
              task.done && task.result.isNone then
            some (upload.clean, shared)
          else none
  | _ => none

/-- The second `gather` returns when all tasks are done; then the slots of
the tasks that never ran are released, unless the upload was cancelled
there. -/
def cleaned (shared : DiscordShared) (upload : DiscordUpload) :
    Option (DiscordUpload × DiscordShared) :=
  match upload.phase with
  | .cleaning cancelled =>
      if !upload.tasks.all PartTask.done then none
      else if cancelled then some (upload.enter (.closing .raised), shared)
      else
        some ((upload.release upload.unstarted).enter (.closing .raised),
          shared.release upload.unstarted)
  | _ => none

/-- The upload is cancelled at the await where it is suspended. -/
def cancel (shared : DiscordShared) (upload : DiscordUpload) :
    Option (DiscordUpload × DiscordShared) :=
  match upload.phase with
  | .opening => some (upload.enter (.ended .raised), shared)
  | .acquiring => some (upload.clean, shared)
  | .reading _ _ => some (upload.abandonPart shared)
  | .gathering _ =>
      some (upload.cancelTasks.enter (.gathering true), shared)
  | .cleaning _ =>
      some (upload.cancelTasks.enter (.cleaning true), shared)
  | .closing _ => some (upload.enter (.ended .raised), shared)
  | .ended _ => none

def opened (shared : DiscordShared) (upload : DiscordUpload)
    (phase : DiscordPhase) : Option (DiscordUpload × DiscordShared) :=
  match upload.phase with
  | .opening => some (upload.enter phase, shared)
  | _ => none

def closed (shared : DiscordShared) (upload : DiscordUpload)
    (raises : Bool) : Option (DiscordUpload × DiscordShared) :=
  match upload.phase with
  | .closing outcome =>
      some (upload.enter (.ended (if raises then .raised else outcome)),
        shared)
  | _ => none

def step (maxPartBytes : Nat) (shared : DiscordShared)
    (upload : DiscordUpload) :
    DiscordUploadAction → Option (DiscordUpload × DiscordShared)
  | .opened => upload.opened shared .acquiring
  | .openFails => upload.opened shared (.ended .raised)
  | .acquire => upload.acquire maxPartBytes shared
  | .read length => upload.read maxPartBytes shared length
  | .readFails => upload.readFails shared
  | .resume => upload.resume maxPartBytes shared
  | .startPart part => upload.startPart shared part
  | .sendPart part messageId => upload.sendPart shared part messageId
  | .partFails part => upload.partFails shared part
  | .partCancelled part => upload.partCancelled shared part
  | .gathered => upload.gathered shared
  | .cleaned => upload.cleaned shared
  | .closed => upload.closed shared false
  | .closeFails => upload.closed shared true
  | .cancel => upload.cancel shared

end DiscordUpload

structure DiscordUploads where
  shared : DiscordShared
  uploads : List DiscordUpload

/-- A step of one of the uploads, or a document that somebody else posts. -/
inductive DiscordStoreAction where
  | upload (position : Nat) (action : DiscordUploadAction)
  | post (messageId : Int) (name : String) (data : List UInt8)
  deriving DecidableEq, Repr

def discordStep (maxPartBytes : Nat) (state : DiscordUploads) :
    DiscordStoreAction → Option DiscordUploads
  | .upload position action => do
      let upload ← state.uploads[position]?
      let (later, shared) ← upload.step maxPartBytes state.shared action
      some ⟨shared, state.uploads.set position later⟩
  | .post messageId name data =>
      if (state.shared.documents.get? messageId).isSome then none
      else
        some { state with
          shared := { state.shared with
            documents := state.shared.documents.set messageId
              (name, data) } }

/-- Uploads of the given files, none of them begun. -/
def DiscordUploads.initial (slots : Nat)
    (documents : Dict Int (String × List UInt8))
    (files : List (String × List UInt8)) : DiscordUploads :=
  ⟨⟨slots, documents⟩, files.map fun file =>
    DiscordUpload.begin file.1 file.2.length file.2⟩

end Tgdcfs
