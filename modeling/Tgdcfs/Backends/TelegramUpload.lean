import Tgdcfs.Core.FileDescApi
import Tgdcfs.Lib.Run

/-!
# Chunked uploads to Telegram

`FileUploader.upload` starts workers that take part indexes from a queue, read
the next chunk of the message under a lock, and save the chunk as the part
they took.  One step of the model leads a worker, or the upload itself, from
one await to the next.  A lock is handed over in the order in which it was
asked for, and a worker asks for it in the same step in which it takes its
index.
-/

namespace Tgdcfs

/-- `is_big_file`. -/
def isBigFile (size : Nat) : Bool := 10 * 1024 * 1024 < size

/-- The configured numbers of workers, which have to be positive. -/
structure WorkersConfig where
  small : Nat
  big : Nat
  small_pos : 0 < small
  big_pos : 0 < big

def MAX_PART_ATTEMPTS : Nat := 5

structure FileChunk where
  content : List UInt8
  filePart : Nat
  deriving DecidableEq, Repr

/-- Where a worker is suspended: it asks whether its task was cancelled, it
waits for the lock, it reads under the lock, it awaits a `save_file_part`
call or the delay before the next one, or it reports its progress. -/
inductive UploadWorker where
  | checking
  | locking (part : Nat)
  | reading (part : Nat)
  | saving (chunk : FileChunk) (attempt : Nat)
  | retrying (chunk : FileChunk) (attempt : Nat)
  | reporting
  | exited (finished : Bool)
  | raised
  deriving DecidableEq, Repr

inductive FileUploadOutcome where
  | returned (size : Nat)
  | raised
  deriving DecidableEq, Repr

/-- An upload under way.  `lock` lists the worker that has `_lock` and those
that wait for it; `accepted` are the chunks that Telegram has, in the order in
which they came. -/
structure FileUploader where
  fileSize : Nat
  chunkSize : Nat
  tracked : Bool
  partIndexes : List Nat
  readSize : Nat
  lock : List Nat
  unread : List UInt8
  accepted : List FileChunk
  workers : List UploadWorker
  outcome : Option FileUploadOutcome
  deriving DecidableEq, Repr

inductive FileUploadAction where
  | check (worker : Nat) (cancelled : Bool)
  | lock (worker : Nat)
  | read (worker length : Nat)
  | readFails (worker : Nat)
  | save (worker : Nat)
  | saveFails (worker : Nat) (stored : Bool)
  | retry (worker : Nat)
  | report (worker : Nat)
  | returns
  | raises
  | interrupt
  deriving DecidableEq, Repr

namespace FileUploader

def totalParts (uploader : FileUploader) : Nat :=
  (uploader.fileSize + uploader.chunkSize - 1) / uploader.chunkSize

/-- The state of `upload` once its workers are created. -/
def start (config : WorkersConfig) (fileSize chunkSize : Nat)
    (tracked : Bool) (source : List UInt8) : FileUploader :=
  { fileSize := fileSize
    chunkSize := chunkSize
    tracked := tracked
    partIndexes := List.range ((fileSize + chunkSize - 1) / chunkSize)
    readSize := 0
    lock := []
    unread := source
    accepted := []
    workers := List.replicate
      (if isBigFile fileSize then config.big else config.small) .checking
    outcome := none }

def setWorker (uploader : FileUploader) (worker : Nat)
    (state : UploadWorker) : FileUploader :=
  { uploader with workers := uploader.workers.set worker state }

def doneReading (uploader : FileUploader) : Bool :=
  uploader.fileSize ≤ uploader.readSize

def sizeToRead (uploader : FileUploader) : Nat :=
  min (uploader.fileSize - uploader.readSize) uploader.chunkSize

/-- The loop of a worker from the answer of `_cancelled` to its next await:
it exits, or takes an index and asks for the lock. -/
def check (uploader : FileUploader) (worker : Nat) (cancelled : Bool) :
    Option FileUploader :=
  match uploader.workers[worker]? with
  | some .checking =>
      if cancelled then
        if uploader.tracked then
          some (uploader.setWorker worker (.exited false))
        else none
      else
        match uploader.partIndexes with
        | [] => some (uploader.setWorker worker (.exited true))
        | part :: partIndexes =>
            some { uploader.setWorker worker (.locking part) with
              partIndexes := partIndexes
              lock := uploader.lock ++ [worker] }
  | _ => none

/-- A worker gets the lock, which it gives back at once when all bytes have
been read. -/
def acquire (uploader : FileUploader) (worker : Nat) :
    Option FileUploader :=
  match uploader.workers[worker]?, uploader.lock with
  | some (.locking part), holder :: waiting =>
      if holder ≠ worker then none
      else if uploader.doneReading then
        some { uploader.setWorker worker .checking with lock := waiting }
      else some (uploader.setWorker worker (.reading part))
  | _, _ => none

/-- The source delivers `length` bytes, at most those it was asked for; they
count as all of them. -/
def read (uploader : FileUploader) (worker length : Nat) :
    Option FileUploader :=
  match uploader.workers[worker]?, uploader.lock with
  | some (.reading part), holder :: waiting =>
      if holder ≠ worker then none
      else if uploader.sizeToRead < length ∨
          uploader.unread.length < length then none
      else
        some { uploader.setWorker worker
            (.saving ⟨uploader.unread.take length, part⟩ 1) with
          readSize := uploader.readSize + uploader.sizeToRead
          unread := uploader.unread.drop length
          lock := waiting }
  | _, _ => none

def readFails (uploader : FileUploader) (worker : Nat) :
    Option FileUploader :=
  match uploader.workers[worker]?, uploader.lock with
  | some (.reading _), holder :: waiting =>
      if holder ≠ worker then none
      else some { uploader.setWorker worker .raised with lock := waiting }
  | _, _ => none

def save (uploader : FileUploader) (worker : Nat) : Option FileUploader :=
  match uploader.workers[worker]? with
  | some (.saving chunk _) =>
      some { uploader.setWorker worker .reporting with
        accepted := uploader.accepted ++ [chunk] }
  | _ => none

/-- A call that fails may have stored the chunk nevertheless. -/
def saveFails (uploader : FileUploader) (worker : Nat) (stored : Bool) :
    Option FileUploader :=
  match uploader.workers[worker]? with
  | some (.saving chunk attempt) =>
      some { uploader.setWorker worker
          (if attempt = MAX_PART_ATTEMPTS then .raised
            else .retrying chunk attempt) with
        accepted := uploader.accepted ++ if stored then [chunk] else [] }
  | _ => none

def retry (uploader : FileUploader) (worker : Nat) : Option FileUploader :=
  match uploader.workers[worker]? with
  | some (.retrying chunk attempt) =>
      some (uploader.setWorker worker (.saving chunk (attempt + 1)))
  | _ => none

def report (uploader : FileUploader) (worker : Nat) : Option FileUploader :=
  match uploader.workers[worker]? with
  | some .reporting => some (uploader.setWorker worker .checking)
  | _ => none

/-- `gather` returns when all workers have exited, whatever they returned. -/
def returns (uploader : FileUploader) : Option FileUploader :=
  if uploader.workers.all fun worker =>
      match worker with
      | .exited _ => true
      | _ => false then
    some { uploader with outcome := some (.returned uploader.fileSize) }
  else none

/-- `gather` raises when a worker has; the other workers are cancelled. -/
def raises (uploader : FileUploader) : Option FileUploader :=
  if .raised ∈ uploader.workers then
    some { uploader with outcome := some .raised }
  else none

/-- `interrupt` is a cancellation of the call itself. -/
def step (uploader : FileUploader) (action : FileUploadAction) :
    Option FileUploader :=
  if uploader.outcome.isSome then none
  else
    match action with
    | .check worker cancelled => uploader.check worker cancelled
    | .lock worker => uploader.acquire worker
    | .read worker length => uploader.read worker length
    | .readFails worker => uploader.readFails worker
    | .save worker => uploader.save worker
    | .saveFails worker stored => uploader.saveFails worker stored
    | .retry worker => uploader.retry worker
    | .report worker => uploader.report worker
    | .returns => uploader.returns
    | .raises => uploader.raises
    | .interrupt => some { uploader with outcome := some .raised }

end FileUploader

end Tgdcfs
