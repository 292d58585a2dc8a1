import Tgdcfs.Backends.TelegramUpload
import Tgdcfs.Lib.Lists

/-!
# What the parts of a Telegram upload hold

The workers that wait for the lock hold consecutive part indexes in the order
in which they get it, so every chunk is read under its own index, as long as
the source delivers what it is asked for.  A worker that finds its task
cancelled exits, and the upload returns as if the file were complete.
-/

namespace Tgdcfs

open Lib

namespace FileUploader

/-- What a step of an upload without outcome can do. -/
inductive Moves (uploader : FileUploader) :
    FileUploadAction → FileUploader → Prop where
  | cancelled {worker : Nat}
      (here : uploader.workers[worker]? = some .checking) :
      Moves uploader (.check worker true)
        (uploader.setWorker worker (.exited false))
  | finished {worker : Nat}
      (here : uploader.workers[worker]? = some .checking)
      (empty : uploader.partIndexes = []) :
      Moves uploader (.check worker false)
        (uploader.setWorker worker (.exited true))
  | took {worker part : Nat} {partIndexes : List Nat}
      (here : uploader.workers[worker]? = some .checking)
      (queued : uploader.partIndexes = part :: partIndexes) :
      Moves uploader (.check worker false)
        { uploader.setWorker worker (.locking part) with
          partIndexes := partIndexes
          lock := uploader.lock ++ [worker] }
  | skipped {worker part : Nat} {waiting : List Nat}
      (here : uploader.workers[worker]? = some (.locking part))
      (first : uploader.lock = worker :: waiting)
      (done : uploader.fileSize ≤ uploader.readSize) :
      Moves uploader (.lock worker)
        { uploader.setWorker worker .checking with lock := waiting }
  | locked {worker part : Nat} {waiting : List Nat}
      (here : uploader.workers[worker]? = some (.locking part))
      (first : uploader.lock = worker :: waiting) :
      Moves uploader (.lock worker)
        (uploader.setWorker worker (.reading part))
  | read {worker part length : Nat} {waiting : List Nat}
      (here : uploader.workers[worker]? = some (.reading part))
      (first : uploader.lock = worker :: waiting) :
      Moves uploader (.read worker length)
        { uploader.setWorker worker
            (.saving ⟨uploader.unread.take length, part⟩ 1) with
          readSize := uploader.readSize + uploader.sizeToRead
          unread := uploader.unread.drop length
          lock := waiting }
  | readFailed {worker part : Nat} {waiting : List Nat}
      (here : uploader.workers[worker]? = some (.reading part)) :
      Moves uploader (.readFails worker)
        { uploader.setWorker worker .raised with lock := waiting }
  | saved {worker : Nat} {chunk : FileChunk} {attempt : Nat}
      (here : uploader.workers[worker]? = some (.saving chunk attempt)) :
      Moves uploader (.save worker)
        { uploader.setWorker worker .reporting with
          accepted := uploader.accepted ++ [chunk] }
  | gaveUp {worker : Nat} {chunk : FileChunk} {attempt : Nat}
      {stored : Bool} {accepted : List FileChunk}
      (here : uploader.workers[worker]? = some (.saving chunk attempt)) :
      Moves uploader (.saveFails worker stored)
        { uploader.setWorker worker .raised with accepted := accepted }
  | delayed {worker : Nat} {chunk : FileChunk} {attempt : Nat}
      {stored : Bool}
      (here : uploader.workers[worker]? = some (.saving chunk attempt)) :
      Moves uploader (.saveFails worker stored)
        { uploader.setWorker worker (.retrying chunk attempt) with
          accepted := uploader.accepted ++ if stored then [chunk] else [] }
  | retried {worker : Nat} {chunk : FileChunk} {attempt : Nat}
      (here : uploader.workers[worker]? = some (.retrying chunk attempt)) :
      Moves uploader (.retry worker)
        (uploader.setWorker worker (.saving chunk (attempt + 1)))
  | reported {worker : Nat}
      (here : uploader.workers[worker]? = some .reporting) :
      Moves uploader (.report worker) (uploader.setWorker worker .checking)
  | returned
      (exited : ∀ worker ∈ uploader.workers,
        ∃ finished, worker = .exited finished) :
      Moves uploader .returns
        { uploader with outcome := some (.returned uploader.fileSize) }
  | raised {action : FileUploadAction} :
      Moves uploader action { uploader with outcome := some .raised }

variable {next : FileUploader} {action : FileUploadAction}

theorem moves {uploader : FileUploader}
    (taken : uploader.step action = some next) :
    uploader.outcome = none ∧ uploader.Moves action next := by
  unfold step at taken
  split at taken
  · cases taken
  · rename_i running
    refine ⟨by simpa using running, ?_⟩
    cases action with
    | check worker cancelled =>
        simp only [check] at taken
        split at taken
        · rename_i here
          split at taken
          · rename_i told
            subst told
            split at taken
            · cases taken
              exact .cancelled here
            · cases taken
          · rename_i untold
            rw [Bool.not_eq_true] at untold
            subst untold
            split at taken
            · rename_i empty
              cases taken
              exact .finished here empty
            · rename_i part partIndexes queued
              cases taken
              exact .took here queued
        · cases taken
    | lock worker =>
        simp only [acquire] at taken
        split at taken
        · rename_i part holder waiting here first
          split at taken
          · cases taken
          · rename_i same
            obtain rfl := not_not.mp same
            split at taken
            · rename_i done
              cases taken
              exact .skipped here first (of_decide_eq_true done)
            · cases taken
              exact .locked here first
        · cases taken
    | read worker length =>
        simp only [read] at taken
        split at taken
        · rename_i part holder waiting here first
          split at taken
          · cases taken
          · rename_i same
            obtain rfl := not_not.mp same
            split at taken
            · cases taken
            · cases taken
              exact .read here first
        · cases taken
    | readFails worker =>
        simp only [readFails] at taken
        split at taken
        · rename_i part holder waiting here first
          split at taken
          · cases taken
          · cases taken
            exact .readFailed here
        · cases taken
    | save worker =>
        simp only [save] at taken
        split at taken
        · rename_i chunk attempt here
          cases taken
          exact .saved here
        · cases taken
    | saveFails worker stored =>
        simp only [saveFails] at taken
        split at taken
        · rename_i chunk attempt here
          by_cases last : attempt = MAX_PART_ATTEMPTS
          · rw [if_pos last] at taken
            cases taken
            exact .gaveUp here
          · rw [if_neg last] at taken
            cases taken
            exact .delayed here
        · cases taken
    | retry worker =>
        simp only [retry] at taken
        split at taken
        · rename_i chunk attempt here
          cases taken
          exact .retried here
        · cases taken
    | report worker =>
        simp only [report] at taken
        split at taken
        · rename_i here
          cases taken
          exact .reported here
        · cases taken
    | returns =>
        simp only [returns] at taken
        split at taken
        · rename_i all
          cases taken
          apply Moves.returned
          intro worker member
          have exited := List.all_eq_true.mp all worker member
          split at exited
          · rename_i finished
            exact ⟨finished, rfl⟩
          · cases exited
        · cases taken
    | raises =>
        simp only [raises] at taken
        split at taken
        · cases taken
          exact .raised
        · cases taken
    | interrupt =>
        cases taken
        exact .raised

/-- The bytes of the message that belong to a part. -/
def chunkBytes (source : List UInt8) (fileSize chunkSize part : Nat) :
    List UInt8 :=
  (source.drop (part * chunkSize)).take
    (min ((part + 1) * chunkSize) fileSize - part * chunkSize)

/-- The chunk is what the message has under its index. -/
structure Belongs (source : List UInt8) (uploader : FileUploader)
    (chunk : FileChunk) : Prop where
  filePart : chunk.filePart < uploader.totalParts
  content : chunk.content = chunkBytes source uploader.fileSize
    uploader.chunkSize chunk.filePart

/-- The index of a worker that waits for the lock or has it. -/
def lockedPart : UploadWorker → Option Nat
  | .locking part => some part
  | .reading part => some part
  | _ => none

/-- The chunk that a worker has read and not yet saved. -/
def unsaved : UploadWorker → Option FileChunk
  | .saving chunk _ => some chunk
  | .retrying chunk _ => some chunk
  | _ => none

/-- `reads` chunks have been read, and the next ones belong to the workers at
the lock in their order. -/
structure Paired (source : List UInt8) (reads : Nat)
    (uploader : FileUploader) : Prop where
  positive : 0 < uploader.chunkSize
  crew : uploader.workers ≠ []
  within : reads + uploader.lock.length ≤ uploader.totalParts
  queue : uploader.partIndexes =
    List.range' (reads + uploader.lock.length)
      (uploader.totalParts - (reads + uploader.lock.length))
  waiting : ∀ (position worker : Nat),
    uploader.lock[position]? = some worker →
      ∃ state, uploader.workers[worker]? = some state ∧
        lockedPart state = some (reads + position)
  nodup : uploader.lock.Nodup
  readSize : uploader.readSize =
    min (reads * uploader.chunkSize) uploader.fileSize
  unread : uploader.unread = source.drop uploader.readSize
  chunks : ∀ worker ∈ uploader.workers, ∀ chunk,
    unsaved worker = some chunk → Belongs source uploader chunk
  accepted : ∀ chunk ∈ uploader.accepted, Belongs source uploader chunk
  covered : ∀ part < reads,
    (∃ chunk ∈ uploader.accepted, chunk.filePart = part) ∨
      ∃ worker ∈ uploader.workers, ∃ chunk,
        unsaved worker = some chunk ∧ chunk.filePart = part
  exited : ∀ finished, .exited finished ∈ uploader.workers →
    uploader.partIndexes = []

/-- No worker is told that its task is cancelled while indexes are queued,
and the source delivers all the bytes it is asked for. -/
def Delivers (uploader : FileUploader) : FileUploadAction → Prop
  | .check _ true => uploader.partIndexes = []
  | .read _ length => length = uploader.sizeToRead
  | _ => True

variable {source : List UInt8} {reads : Nat} {uploader : FileUploader}

theorem Belongs.later {chunk : FileChunk} {later : FileUploader}
    (belongs : Belongs source uploader chunk)
    (fileSize : later.fileSize = uploader.fileSize)
    (chunkSize : later.chunkSize = uploader.chunkSize) :
    Belongs source later chunk := by
  constructor
  · rw [totalParts, fileSize, chunkSize]
    exact belongs.filePart
  · rw [fileSize, chunkSize]
    exact belongs.content

/-- An index that was taken belongs to bytes of the message. -/
theorem lt_of_lt_totalParts {part : Nat}
    (positive : 0 < uploader.chunkSize)
    (inside : part < uploader.totalParts) :
    part * uploader.chunkSize < uploader.fileSize := by
  have covered := (Nat.lt_div_iff_mul_lt positive).mp inside
  omega

variable {worker : Nat}

variable (paired : Paired source reads uploader)
include paired

/-- A worker changes its state and keeps its place at the lock, if it has
one. -/
theorem Paired.setWorker {old new : UploadWorker} {accepted : List FileChunk}
    (here : uploader.workers[worker]? = some old)
    (place : lockedPart old = none ∨ lockedPart new = lockedPart old)
    (fresh : ∀ chunk, unsaved new = some chunk → unsaved old = some chunk)
    (kept : ∀ chunk, unsaved old = some chunk →
      unsaved new = some chunk ∨ chunk ∈ accepted)
    (more : ∀ chunk ∈ uploader.accepted, chunk ∈ accepted)
    (known : ∀ chunk ∈ accepted,
      chunk ∈ uploader.accepted ∨ unsaved old = some chunk)
    (ends : ∀ finished, new = .exited finished →
      uploader.partIndexes = []) :
    Paired source reads
      { uploader.setWorker worker new with accepted := accepted } := by
  have inside : old ∈ uploader.workers := List.mem_of_getElem? here
  have bound : worker < uploader.workers.length :=
    (List.getElem?_eq_some_iff.mp here).1
  have placed : new ∈ uploader.workers.set worker new :=
    List.mem_set bound new
  refine ⟨paired.positive, ?_, paired.within, paired.queue, ?_, paired.nodup,
    paired.readSize, paired.unread, ?_, ?_, ?_, ?_⟩
  · exact List.ne_nil_of_mem placed
  · intro position other first
    obtain ⟨state, there, locked⟩ := paired.waiting position other first
    by_cases same : worker = other
    · subst same
      rw [here, Option.some.injEq] at there
      subst there
      refine ⟨new, List.getElem?_set_self bound, ?_⟩
      rcases place with outside | stays
      · rw [outside] at locked
        cases locked
      · exact stays.trans locked
    · exact ⟨state, (List.getElem?_set_ne same).trans there, locked⟩
  · intro other member chunk holds
    rcases List.mem_or_eq_of_mem_set member with older | rfl
    · exact (paired.chunks other older chunk holds).later rfl rfl
    · exact (paired.chunks old inside chunk (fresh chunk holds)).later rfl rfl
  · intro chunk member
    rcases known chunk member with before | holds
    · exact (paired.accepted chunk before).later rfl rfl
    · exact (paired.chunks old inside chunk holds).later rfl rfl
  · intro part below
    rcases paired.covered part below with
      ⟨chunk, member, same⟩ | ⟨other, member, chunk, holds, same⟩
    · exact .inl ⟨chunk, more chunk member, same⟩
    · by_cases moved : other = old
      · subst moved
        rcases kept chunk holds with still | stored
        · exact .inr ⟨new, placed, chunk, still, same⟩
        · exact .inl ⟨chunk, stored, same⟩
      · exact .inr ⟨other, mem_set_of_ne here member moved, chunk, holds,
          same⟩
  · intro finished member
    rcases List.mem_or_eq_of_mem_set member with older | same
    · exact paired.exited finished older
    · exact ends finished same.symm

theorem Paired.setState {old new : UploadWorker}
    (here : uploader.workers[worker]? = some old)
    (place : lockedPart old = none ∨ lockedPart new = lockedPart old)
    (same : unsaved new = unsaved old)
    (ends : ∀ finished, new = .exited finished →
      uploader.partIndexes = []) :
    Paired source reads (uploader.setWorker worker new) := by
  apply paired.setWorker here place
  · intro chunk holds
    exact same ▸ holds
  · intro chunk holds
    exact .inl (same ▸ holds)
  · exact fun _ member => member
  · exact fun _ member => .inl member
  · exact ends

theorem Paired.not_mem_lock {state : UploadWorker}
    (here : uploader.workers[worker]? = some state)
    (outside : lockedPart state = none) : worker ∉ uploader.lock := by
  intro member
  obtain ⟨position, found⟩ := List.getElem?_of_mem member
  obtain ⟨other, there, locked⟩ := paired.waiting position worker found
  cases here.symm.trans there
  rw [outside] at locked
  cases locked

theorem Paired.enqueue {part : Nat} {partIndexes : List Nat}
    (queued : uploader.partIndexes = part :: partIndexes)
    (absent : worker ∉ uploader.lock)
    (holds : ∃ state, uploader.workers[worker]? = some state ∧
      lockedPart state = some part) :
    Paired source reads
      { uploader with
        partIndexes := partIndexes
        lock := uploader.lock ++ [worker] } := by
  have queue := paired.queue
  have length := congrArg List.length queue
  rw [queued, List.length_cons, List.length_range'] at length
  obtain ⟨more, split⟩ : ∃ more, uploader.totalParts -
      (reads + uploader.lock.length) = more + 1 := ⟨_, length.symm⟩
  rw [queued, split, List.range'_succ, List.cons.injEq] at queue
  obtain ⟨rfl, rest⟩ := queue
  refine ⟨paired.positive, paired.crew, ?_, ?_, ?_, ?_, paired.readSize,
    paired.unread, ?_, ?_, paired.covered, ?_⟩
  · rw [List.length_append, List.length_singleton]
    change _ ≤ uploader.totalParts
    omega
  · rw [List.length_append, List.length_singleton]
    change partIndexes = List.range' _ (uploader.totalParts - _)
    have fewer : uploader.totalParts - (reads + (uploader.lock.length + 1)) =
        more := by omega
    rw [fewer, rest, Nat.add_assoc]
  · intro position other found
    change (uploader.lock ++ [worker])[position]? = some other at found
    by_cases earlier : position < uploader.lock.length
    · rw [List.getElem?_append_left earlier] at found
      exact paired.waiting position other found
    · rw [List.getElem?_append_right (not_lt.mp earlier),
        List.getElem?_singleton] at found
      split at found
      · rename_i last
        cases found
        obtain ⟨state, there, locked⟩ := holds
        have same : position = uploader.lock.length := by omega
        exact ⟨state, there, same ▸ locked⟩
      · cases found
  · change (uploader.lock ++ [worker]).Nodup
    exact paired.nodup.append (List.nodup_singleton worker)
      (List.disjoint_singleton.mpr absent)
  · intro other member chunk unsaved_
    exact (paired.chunks other member chunk unsaved_).later rfl rfl
  · intro chunk member
    exact (paired.accepted chunk member).later rfl rfl
  · intro finished member
    have empty := paired.exited finished member
    rw [queued] at empty
    cases empty

/-- The worker that has the lock reads the chunk of its index. -/
theorem Paired.read {part : Nat} {waiting : List Nat}
    (here : uploader.workers[worker]? = some (.reading part))
    (first : uploader.lock = worker :: waiting) :
    Paired source (reads + 1)
      { uploader.setWorker worker
          (.saving ⟨uploader.unread.take uploader.sizeToRead, part⟩ 1) with
        readSize := uploader.readSize + uploader.sizeToRead
        unread := uploader.unread.drop uploader.sizeToRead
        lock := waiting } := by
  have inside : .reading part ∈ uploader.workers :=
    List.mem_of_getElem? here
  have bound : worker < uploader.workers.length :=
    (List.getElem?_eq_some_iff.mp here).1
  obtain ⟨state, known, locked⟩ := paired.waiting 0 worker (by simp [first])
  cases here.symm.trans known
  obtain rfl : part = reads := by simpa [lockedPart] using locked
  have within := paired.within
  rw [first, List.length_cons] at within
  have below := lt_of_lt_totalParts paired.positive
    (show part < uploader.totalParts by omega)
  have readSize : uploader.readSize = part * uploader.chunkSize := by
    rw [paired.readSize, Nat.min_eq_left below.le]
  have step : (part + 1) * uploader.chunkSize =
      part * uploader.chunkSize + uploader.chunkSize := Nat.succ_mul _ _
  have chunk : Belongs source uploader
      ⟨uploader.unread.take uploader.sizeToRead, part⟩ := by
    constructor
    · change part < uploader.totalParts
      omega
    · change uploader.unread.take _ =
        chunkBytes source uploader.fileSize uploader.chunkSize part
      rw [paired.unread, readSize, chunkBytes]
      congr 1
      rw [sizeToRead, readSize]
      omega
  refine ⟨paired.positive, ?_, ?_, ?_, ?_, ?_, ?_, ?_, ?_, ?_, ?_, ?_⟩
  · exact List.ne_nil_of_mem (List.mem_set bound _)
  · change part + 1 + waiting.length ≤ uploader.totalParts
    omega
  · have queue := paired.queue
    rw [first, List.length_cons] at queue
    change uploader.partIndexes = List.range' (part + 1 + waiting.length)
      (uploader.totalParts - (part + 1 + waiting.length))
    rw [queue]
    congr 1
    · omega
    · omega
  · intro position other found
    obtain ⟨state, standing, ahead⟩ :=
      paired.waiting (position + 1) other (by simpa [first] using found)
    have different : worker ≠ other := by
      have nodup := paired.nodup
      rw [first, List.nodup_cons] at nodup
      rintro rfl
      exact nodup.1 (List.mem_of_getElem? found)
    refine ⟨state, (List.getElem?_set_ne different).trans standing, ?_⟩
    rw [ahead]
    congr 1
    omega
  · have nodup := paired.nodup
    rw [first, List.nodup_cons] at nodup
    exact nodup.2
  · change uploader.readSize + uploader.sizeToRead =
      min ((part + 1) * uploader.chunkSize) uploader.fileSize
    rw [sizeToRead, readSize]
    omega
  · change uploader.unread.drop uploader.sizeToRead =
      source.drop (uploader.readSize + uploader.sizeToRead)
    rw [paired.unread, List.drop_drop]
  · intro other member held holds
    rcases List.mem_or_eq_of_mem_set member with older | rfl
    · exact (paired.chunks other older held holds).later rfl rfl
    · cases holds
      exact chunk.later rfl rfl
  · intro held member
    exact (paired.accepted held member).later rfl rfl
  · intro other earlier
    by_cases last : other = part
    · subst last
      exact .inr ⟨_, List.mem_set bound _, _, rfl, rfl⟩
    · rcases paired.covered other (by omega) with
        stored | ⟨carrier, member, held, holds, same⟩
      · exact .inl stored
      · refine .inr ⟨carrier, mem_set_of_ne here member ?_, held, holds,
          same⟩
        rintro rfl
        cases holds
  · intro finished member
    rcases List.mem_or_eq_of_mem_set member with older | same
    · exact paired.exited finished older
    · cases same

omit paired

/-- Telegram has every part, and each holds its bytes of the message. -/
structure Complete (source : List UInt8) (uploader : FileUploader) :
    Prop where
  every : ∀ part < uploader.totalParts,
    ∃ chunk ∈ uploader.accepted, chunk.filePart = part
  belongs : ∀ chunk ∈ uploader.accepted, Belongs source uploader chunk

/-- An upload whose workers have not raised pairs indexes and bytes, and is
complete when it returns. -/
def Sound (source : List UInt8) (uploader : FileUploader) : Prop :=
  match uploader.outcome with
  | none => .raised ∈ uploader.workers ∨
      ∃ reads, Paired source reads uploader
  | some (.returned size) => size = uploader.fileSize ∧
      Complete source uploader
  | some .raised => True

theorem Paired.complete (paired : Paired source reads uploader)
    (exited : ∀ worker ∈ uploader.workers,
      ∃ finished, worker = .exited finished) :
    Complete source uploader := by
  obtain ⟨worker, member⟩ := List.exists_mem_of_ne_nil _ paired.crew
  obtain ⟨finished, rfl⟩ := exited worker member
  have empty := paired.exited finished member
  have unlocked : uploader.lock = [] := by
    cases lock : uploader.lock with
    | nil => rfl
    | cons holder waiting =>
        obtain ⟨state, there, locked⟩ :=
          paired.waiting 0 holder (by simp [lock])
        obtain ⟨ended, rfl⟩ := exited state (List.mem_of_getElem? there)
        cases locked
  have all : reads = uploader.totalParts := by
    have length := congrArg List.length paired.queue
    have within := paired.within
    rw [empty, unlocked, List.length_range'] at length
    rw [unlocked] at within
    simp only [List.length_nil] at length within
    omega
  refine ⟨?_, paired.accepted⟩
  intro part inside
  rcases paired.covered part (all ▸ inside) with
    stored | ⟨carrier, there, chunk, holds, _⟩
  · exact stored
  · obtain ⟨ended, rfl⟩ := exited carrier there
    cases holds

theorem raised_mem (failed : .raised ∈ uploader.workers)
    (moved : uploader.Moves action next) : .raised ∈ next.workers := by
  cases moved with
  | returned exited => exact failed
  | raised => exact failed
  | cancelled here => exact mem_set_of_ne here failed nofun
  | finished here empty => exact mem_set_of_ne here failed nofun
  | took here queued => exact mem_set_of_ne here failed nofun
  | skipped here first done => exact mem_set_of_ne here failed nofun
  | locked here first => exact mem_set_of_ne here failed nofun
  | read here first => exact mem_set_of_ne here failed nofun
  | readFailed here => exact mem_set_of_ne here failed nofun
  | saved here => exact mem_set_of_ne here failed nofun
  | gaveUp here => exact mem_set_of_ne here failed nofun
  | delayed here => exact mem_set_of_ne here failed nofun
  | retried here => exact mem_set_of_ne here failed nofun
  | reported here => exact mem_set_of_ne here failed nofun

theorem Sound.of_running (running : uploader.outcome = none)
    (state : .raised ∈ uploader.workers ∨
      ∃ reads, Paired source reads uploader) : Sound source uploader := by
  unfold Sound
  rw [running]
  exact state

theorem Paired.step (paired : Paired source reads uploader)
    (running : uploader.outcome = none) (delivers : uploader.Delivers action)
    (moved : uploader.Moves action next) : Sound source next := by
  cases moved with
  | cancelled here =>
      refine Sound.of_running running ?_
      exact .inr ⟨reads, paired.setState here (.inl rfl) rfl
        fun _ _ => delivers⟩
  | finished here empty =>
      refine Sound.of_running running ?_
      exact .inr ⟨reads, paired.setState here (.inl rfl) rfl
        fun _ _ => empty⟩
  | @took worker part partIndexes here queued =>
      have bound : worker < uploader.workers.length :=
        (List.getElem?_eq_some_iff.mp here).1
      have taken : Paired source reads
          (uploader.setWorker worker (.locking part)) :=
        paired.setState here (.inl rfl) rfl nofun
      refine Sound.of_running running ?_
      exact .inr ⟨reads, taken.enqueue queued
        (paired.not_mem_lock here rfl)
        ⟨_, List.getElem?_set_self bound, rfl⟩⟩
  | @skipped worker part waiting here first done =>
      -- an index that is left is an index of bytes that are left
      have within := paired.within
      rw [first, List.length_cons] at within
      have below := lt_of_lt_totalParts paired.positive
        (show reads < uploader.totalParts by omega)
      have readSize := paired.readSize
      omega
  | locked here first =>
      refine Sound.of_running running ?_
      exact .inr ⟨reads, paired.setState here (.inr rfl) rfl nofun⟩
  | read here first =>
      obtain rfl : _ = uploader.sizeToRead := delivers
      refine Sound.of_running running ?_
      exact .inr ⟨reads + 1, paired.read here first⟩
  | readFailed here =>
      refine Sound.of_running running ?_
      exact .inl (List.mem_set (List.getElem?_eq_some_iff.mp here).1 _)
  | gaveUp here =>
      refine Sound.of_running running ?_
      exact .inl (List.mem_set (List.getElem?_eq_some_iff.mp here).1 _)
  | @saved worker chunk attempt here =>
      refine Sound.of_running running ?_
      refine .inr ⟨reads, paired.setWorker here (.inl rfl) ?_ ?_ ?_ ?_ ?_⟩
      · nofun
      · rintro other ⟨⟩
        exact .inr (List.mem_append_right _ List.mem_cons_self)
      · intro other member
        exact List.mem_append_left _ member
      · intro other member
        rcases List.mem_append.mp member with older | new
        · exact .inl older
        · cases List.mem_singleton.mp new
          exact .inr rfl
      · nofun
  | @delayed worker chunk attempt stored here =>
      refine Sound.of_running running ?_
      refine .inr ⟨reads, paired.setWorker here (.inl rfl) ?_ ?_ ?_ ?_ ?_⟩
      · exact fun _ holds => holds
      · exact fun _ holds => .inl holds
      · intro other member
        exact List.mem_append_left _ member
      · intro other member
        rcases List.mem_append.mp member with older | new
        · exact .inl older
        · split at new
          · cases List.mem_singleton.mp new
            exact .inr rfl
          · cases new
      · nofun
  | retried here =>
      refine Sound.of_running running ?_
      exact .inr ⟨reads, paired.setState here (.inl rfl) rfl nofun⟩
  | reported here =>
      refine Sound.of_running running ?_
      exact .inr ⟨reads, paired.setState here (.inl rfl) rfl nofun⟩
  | returned exited =>
      have complete := paired.complete exited
      exact ⟨rfl, complete.every, fun chunk member =>
        (complete.belongs chunk member).later rfl rfl⟩
  | raised => exact trivial

theorem Paired.start (config : WorkersConfig) (fileSize : Nat)
    {chunkSize : Nat} (positive : 0 < chunkSize) (tracked : Bool)
    (source : List UInt8) :
    Paired source 0 (.start config fileSize chunkSize tracked source) := by
  have checking : ∀ worker ∈
      (FileUploader.start config fileSize chunkSize tracked source).workers,
        worker = .checking :=
    fun worker member => (List.mem_replicate.mp member).2
  refine ⟨positive, ?_, Nat.zero_le _, ?_, nofun, List.nodup_nil, ?_, rfl,
    ?_, nofun, nofun, ?_⟩
  · have small := config.small_pos
    have more := config.big_pos
    simp only [FileUploader.start, ne_eq, List.replicate_eq_nil_iff]
    split <;> omega
  · exact List.range_eq_range'
  · simp [FileUploader.start]
  · intro worker member chunk holds
    rw [checking worker member] at holds
    cases holds
  · intro finished member
    cases checking _ member

theorem Sound.step (sound : Sound source uploader)
    (delivers : uploader.Delivers action)
    (taken : uploader.step action = some next) : Sound source next := by
  obtain ⟨running, moved⟩ := moves taken
  unfold Sound at sound
  rw [running] at sound
  rcases sound with failed | ⟨reads, paired⟩
  · have still := raised_mem failed moved
    cases moved with
    | returned exited =>
        obtain ⟨finished, impossible⟩ := exited .raised failed
        cases impossible
    | raised => exact trivial
    | _ => exact .of_running running (.inl still)
  · exact paired.step running delivers moved

theorem sizes_step (taken : uploader.step action = some next) :
    next.fileSize = uploader.fileSize ∧
      next.chunkSize = uploader.chunkSize := by
  obtain ⟨_, moved⟩ := moves taken
  cases moved <;> exact ⟨rfl, rfl⟩

/-- An upload that returns reports the whole size, and Telegram has every part
with the bytes of the message that belong to it, in every run in which no
worker is told that the task is cancelled while indexes are queued and the
source delivers all the bytes it is asked for. -/
theorem chunked_upload_exact (config : WorkersConfig)
    (fileSize chunkSize : Nat) (positive : 0 < chunkSize) (tracked : Bool)
    (source : List UInt8) (uploader : FileUploader)
    (reached : ReachableWithin step Delivers
      (.start config fileSize chunkSize tracked source) uploader)
    (size : Nat) (returned : uploader.outcome = some (.returned size)) :
    size = fileSize ∧
      ∀ part < (fileSize + chunkSize - 1) / chunkSize,
        (∃ chunk ∈ uploader.accepted, chunk.filePart = part) ∧
        ∀ chunk ∈ uploader.accepted, chunk.filePart = part →
          chunk.content = chunkBytes source fileSize chunkSize part := by
  have sound : Sound source uploader :=
    reached.invariant
      (fun _ _ _ sound delivers taken => sound.step delivers taken)
      (.of_running rfl
        (.inr ⟨0, .start config fileSize positive tracked source⟩))
  have sizes : uploader.fileSize = fileSize ∧
      uploader.chunkSize = chunkSize := by
    apply reached.invariant
    · intro before action after same delivers taken
      obtain ⟨fileSizes, chunkSizes⟩ := sizes_step taken
      exact ⟨fileSizes.trans same.1, chunkSizes.trans same.2⟩
    · exact ⟨rfl, rfl⟩
  unfold Sound at sound
  rw [returned] at sound
  obtain ⟨whole, complete⟩ := sound
  have every := complete.every
  rw [totalParts, sizes.1, sizes.2] at every
  refine ⟨whole.trans sizes.1, ?_⟩
  intro part inside
  refine ⟨every part inside, ?_⟩
  rintro chunk member rfl
  have content := (complete.belongs chunk member).content
  rwa [sizes.1, sizes.2] at content

/-- Two workers save the parts of a file in the opposite order, one of them
at the second attempt. -/
theorem chunked_upload_exact_overtaking :
    ∃ uploader, ReachableWithin step Delivers
        (.start ⟨2, 8, by decide, by decide⟩ 3 2 true [1, 2, 3]) uploader ∧
      uploader.outcome = some (.returned 3) ∧
      uploader.accepted = [⟨[3], 1⟩, ⟨[1, 2], 0⟩] ∧
      ∀ part < 2, (∃ chunk ∈ uploader.accepted, chunk.filePart = part) ∧
        ∀ chunk ∈ uploader.accepted, chunk.filePart = part →
          chunk.content = chunkBytes [1, 2, 3] 3 2 part := by
  have guarded : Guarded step Delivers
      (.start ⟨2, 8, by decide, by decide⟩ 3 2 true [1, 2, 3])
      [.check 1 false, .check 0 false, .lock 1, .read 1 2, .lock 0,
        .read 0 1, .saveFails 1 false, .save 0, .retry 1, .save 1,
        .report 0, .report 1, .check 0 false, .check 1 true, .returns] := by
    iterate 15
      refine ⟨by trivial, ?_⟩
      rintro _ ⟨⟩
    trivial
  have reached : ReachableWithin step Delivers
      (.start ⟨2, 8, by decide, by decide⟩ 3 2 true [1, 2, 3]) _ :=
    ⟨_, guarded, rfl⟩
  exact ⟨_, reached, rfl, rfl, (chunked_upload_exact _ 3 2 (by decide) true
    [1, 2, 3] _ reached 3 rfl).2⟩

/-- A task that is cancelled before its first part, and a source that ends
early: both uploads return the whole size. -/
theorem incomplete_uploads_return :
    (∃ uploader, run step
        (.start ⟨1, 8, by decide, by decide⟩ 3 2 true [1, 2, 3])
        [.check 0 true, .returns] = some uploader ∧
      uploader.outcome = some (.returned 3) ∧ uploader.accepted = []) ∧
    ∃ uploader, run step
        (.start ⟨1, 8, by decide, by decide⟩ 3 2 false [1, 2, 3])
        [.check 0 false, .lock 0, .read 0 2, .save 0, .report 0,
          .check 0 false, .lock 0, .read 0 0, .save 0, .report 0,
          .check 0 false, .returns] = some uploader ∧
      uploader.outcome = some (.returned 3) ∧
      uploader.accepted = [⟨[1, 2], 0⟩, ⟨[], 1⟩] ∧
      chunkBytes [1, 2, 3] 3 2 1 = [3] :=
  ⟨⟨_, rfl, rfl, rfl⟩, _, rfl, rfl, rfl, rfl⟩

end FileUploader

end Tgdcfs
