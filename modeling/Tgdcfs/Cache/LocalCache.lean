import Mathlib.Data.List.Sort
import Tgdcfs.Cache.Entry
import Tgdcfs.Lib.Dict

/-!
# The local cache

The operations of `LocalCache` and `StagingWriter` between two suspension
points.  Every operation is a function of the cache and of what the disk and
the clock answer: `free` lists the results of the successive queries for the
free bytes, and a `FileKind` names the file whose creation the disk refuses.
The file-system steps an operation issues are appended to `issued` in order.
-/

namespace Tgdcfs

open Lib

/-- The two files behind an entry. -/
inductive FileKind where
  | data
  | map
  deriving DecidableEq, Repr

/-- A positioned write addresses the file by its path, or by the handle that
was opened for one particular entry. -/
inductive DataTarget where
  | path (versionId : String)
  | handle (uid : Nat)
  deriving DecidableEq, Repr

/-- What the index records of an entry. -/
structure IndexRecord where
  versionId : String
  fs : String
  size : Nat
  blockSize : Nat
  lastAccess : Int
  pins : Nat
  pinnedAt : Int
  writing : Bool
  deriving DecidableEq, Repr

/-- The file-system steps of the cache, each atomic. -/
inductive DiskStep where
  | createData (uid : Nat) (versionId : String) (size : Nat)
  | createMap (versionId : String) (present : List Bool)
  | writeData (target : DataTarget) (offset : Nat) (data : List UInt8)
  | writeMap (versionId : String) (index : Nat)
  | unlink (versionId : String) (kind : FileKind)
  | replaceIndex (records : List IndexRecord)
  deriving DecidableEq, Repr

structure LocalCache where
  entries : Dict String CacheEntry
  nextUid : Nat
  issued : List DiskStep

/-- Answers of the successive free-space queries of one operation. -/
abbrev FreeSpace := Nat → Option Nat

/-- Which limits an admission hits once nothing is left to evict, and what
holds the room. -/
structure Shortfall where
  overBytes : Bool
  overFiles : Bool
  overDisk : Bool
  pinned : Nat
  pinnedBytes : Nat
  busy : Nat
  busyBytes : Nat
  deriving DecidableEq, Repr

structure SweepReport where
  orphans : Nat
  released : Nat
  expired : Nat
  evicted : Nat
  deriving DecidableEq, Repr

/-- A sequential writer into one entry.  `finishing` and `aborting` record
that the writer is suspended while its file handle closes. -/
structure StagingWriter where
  uid : Nat
  versionId : String
  size : Nat
  blockSize : Nat
  offset : Nat := 0
  fdOpen : Bool := false
  failed : Bool := false
  finishing : Bool := false
  aborting : Bool := false
  deriving DecidableEq, Repr

/-- A `write_blocks` call that has claimed its bytes and is suspended while
they travel to the disk. -/
structure Fill where
  uid : Nat
  versionId : String
  begin_ : Nat
  data : List UInt8
  blocks : List Nat
  added : Nat
  deriving DecidableEq, Repr

/-- A pin this old with nothing queued is released by the sweep. -/
def STALE_PIN : Int := 24 * 3600 * 1000000

def indexRecord (entry : CacheEntry) : IndexRecord :=
  { versionId := entry.versionId
    fs := entry.fs
    size := entry.size
    blockSize := entry.blockSize
    lastAccess := entry.lastAccess
    pins := entry.pins
    pinnedAt := entry.pinnedAt
    writing := entry.writing }

namespace LocalCache

def empty : LocalCache := ⟨Dict.empty, 0, []⟩

def issue (cache : LocalCache) (steps : List DiskStep) : LocalCache :=
  { cache with issued := cache.issued ++ steps }

def saveIndex (cache : LocalCache) : LocalCache :=
  cache.issue [.replaceIndex (cache.entries.values.map indexRecord)]

def entry (cache : LocalCache) (versionId : String) : Option CacheEntry :=
  cache.entries.get? versionId

def complete (cache : LocalCache) (versionId : String) : Bool :=
  match cache.entry versionId with
  | none => false
  | some entry => !entry.writing && entry.isComplete

def usedBytes (cache : LocalCache) : Nat :=
  cache.entries.weight CacheEntry.chargedBytes

/-- Mutate one particular entry object; an object the cache has dropped is
not reachable from it any more. -/
def update (cache : LocalCache) (versionId : String) (uid : Nat)
    (change : CacheEntry → CacheEntry) : LocalCache :=
  { cache with
    entries := cache.entries.modify versionId fun entry =>
      if entry.uid = uid then change entry else entry }

def unlink (cache : LocalCache) (versionId : String) : LocalCache :=
  cache.issue [.unlink versionId .data, .unlink versionId .map]

/-- Forget an entry and delete its files, leaving the index to the caller. -/
def drop (cache : LocalCache) (versionId : String) : LocalCache × Bool :=
  match cache.entries.get? versionId with
  | none => (cache, false)
  | some _ =>
      (({ cache with entries := cache.entries.erase versionId }).unlink
        versionId, true)

def remove (cache : LocalCache) (versionId : String) : LocalCache :=
  let result := cache.drop versionId
  if result.2 then result.1.saveIndex else result.1

def dropAll (cache : LocalCache) (versionIds : List String) : LocalCache :=
  versionIds.foldl (fun cache versionId => (cache.drop versionId).1) cache

def removeMany (cache : LocalCache) (versionIds : List String) :
    LocalCache :=
  let dropped := cache.dropAll versionIds
  if versionIds.any cache.entries.contains then dropped.saveIndex
  else dropped

/-- The evictable entries, the one read longest ago last. -/
def lruOrder (cache : LocalCache) (keep : Option Nat) : List CacheEntry :=
  (cache.entries.values.filter fun entry =>
    entry.evictable && decide (keep ≠ some entry.uid)).insertionSort
      fun left right => right.lastAccess ≤ left.lastAccess

/-- Drop a victim without writing the index; the bytes it was charged. -/
def evict (cache : LocalCache) (victim : CacheEntry) : LocalCache × Nat :=
  ((cache.drop victim.versionId).1, victim.chargedBytes)

def fits (config : CacheConfig) (size : Nat) : Bool :=
  config.maxFileSizeBytes == 0 || size ≤ config.maxFileSizeBytes

def shortfall (cache : LocalCache) (overBytes overFiles overDisk : Bool)
    (keep : Option Nat) : Shortfall :=
  let pinned := cache.entries.values.filter fun entry => 0 < entry.pins
  let busy := cache.entries.values.filter fun entry =>
    entry.pins == 0 && (!entry.evictable || decide (keep = some entry.uid))
  { overBytes := overBytes
    overFiles := overFiles
    overDisk := overDisk
    pinned := pinned.length
    pinnedBytes := (pinned.map CacheEntry.chargedBytes).sum
    busy := busy.length
    busyBytes := (busy.map CacheEntry.chargedBytes).sum }

/-- The result of an eviction run: the cache, how many entries went, and why
the bytes still do not fit. -/
structure Room where
  cache : LocalCache
  evicted : Nat
  refused : Option Shortfall

def overBytes (config : CacheConfig) (used size : Nat) : Bool :=
  config.maxSizeBytes != 0 && decide (config.maxSizeBytes < used + size)

def overFiles (config : CacheConfig) (newEntry : Bool)
    (cache : LocalCache) : Bool :=
  newEntry && config.maxFiles != 0 &&
    decide (config.maxFiles < cache.entries.size + 1)

/-- Whether the bytes would eat into `min_free`; an unknown amount of free
space never does. -/
def overDisk (config : CacheConfig) (free : Option Nat) (size : Nat) :
    Bool :=
  config.minFreeBytes != 0 &&
    free.any fun bytes => decide (bytes < config.minFreeBytes + size)

/-- The loop of `_make_room` over the victims in the order in which they are
popped, with `used` kept as a running total. -/
def makeRoomLoop (config : CacheConfig) (size : Nat) (newEntry : Bool)
    (keep : Option Nat) (free : FreeSpace) :
    List CacheEntry → Nat → Nat → LocalCache → Room
  | [], evicted, used, cache =>
      let bytes := overBytes config used size
      let files := overFiles config newEntry cache
      let disk := overDisk config (free evicted) size
      if !bytes && !files && !disk then ⟨cache, evicted, none⟩
      else ⟨cache, evicted, some (cache.shortfall bytes files disk keep)⟩
  | victim :: victims, evicted, used, cache =>
      if !overBytes config used size && !overFiles config newEntry cache &&
          !overDisk config (free evicted) size then
        ⟨cache, evicted, none⟩
      else
        let result := cache.evict victim
        makeRoomLoop config size newEntry keep free victims
          (evicted + 1) (used - result.2) result.1

/-- Evict unpinned entries, oldest first, until `size` more bytes fit. -/
def makeRoom (config : CacheConfig) (cache : LocalCache) (size : Nat)
    (newEntry : Bool) (keep : Option Nat) (free : FreeSpace) :
    LocalCache × Option Shortfall :=
  let room := makeRoomLoop config size newEntry keep free
    (cache.lruOrder keep).reverse 0 cache.usedBytes cache
  (if room.evicted = 0 then room.cache else room.cache.saveIndex,
    room.refused)

/-- An empty entry under the configured block size. -/
def newEntry (config : CacheConfig) (cache : LocalCache) (fs : String)
    (versionId : String) (size : Nat) (now : Int) (writing : Bool) :
    CacheEntry :=
  { uid := cache.nextUid
    versionId := versionId
    fs := fs
    size := size
    blockSize := config.blockBytes
    present := List.replicate (blocksFor size config.blockBytes) false
    lastAccess := now
    writing := writing
    blockSize_pos := config.blockBytes_pos
    present_length := by simp }

/-- Create the data file and the map; `false` when the disk refuses. -/
def createFiles (cache : LocalCache) (entry : CacheEntry)
    (refused : Option FileKind) : LocalCache × Bool :=
  let data := DiskStep.createData entry.uid entry.versionId entry.size
  let map := DiskStep.createMap entry.versionId entry.present
  match refused with
  | none => (cache.issue [data, map], true)
  | some .data => (cache.unlink entry.versionId, false)
  | some .map => ((cache.issue [data]).unlink entry.versionId, false)

/-- The admission that `open_staging` and `reserve` share: drop what is
cached under the id, make room for `charge` bytes and one entry, create the
files and record the entry. -/
def admitEntry (config : CacheConfig) (cache : LocalCache) (fs : String)
    (versionId : String) (size charge : Nat) (now : Int) (writing : Bool)
    (free : FreeSpace) (refused : Option FileKind) :
    LocalCache × Option CacheEntry :=
  let room := makeRoom config cache charge true none free
  match room.2 with
  | some _ => (room.1, none)
  | none =>
      let fresh := newEntry config room.1 fs versionId size now writing
      let created := room.1.createFiles fresh refused
      if created.2 then
        (({ created.1 with
            entries := created.1.entries.set versionId fresh
            nextUid := created.1.nextUid + 1 } : LocalCache).saveIndex,
          some fresh)
      else (created.1, none)

/-- Drop what is cached under the id before it is cached again. -/
def removeExisting (cache : LocalCache) (versionId : String) : LocalCache :=
  if cache.entries.contains versionId then cache.remove versionId else cache

def openStaging (config : CacheConfig) (cache : LocalCache) (fs : String)
    (versionId : String) (size : Int) (now : Int) (free : FreeSpace)
    (refused : Option FileKind) : LocalCache × Option StagingWriter :=
  if !config.enabled || decide (size < 0) then (cache, none)
  else
    let cleared := cache.removeExisting versionId
    if !fits config size.toNat then (cleared, none)
    else
      let result := admitEntry config cleared fs versionId size.toNat size.toNat
        now true free refused
      (result.1, result.2.map fun entry =>
        { uid := entry.uid
          versionId := entry.versionId
          size := entry.size
          blockSize := entry.blockSize })

def reserve (config : CacheConfig) (cache : LocalCache) (fs : String)
    (versionId : String) (size : Int) (now : Int) (free : FreeSpace)
    (refused : Option FileKind) : LocalCache × Option CacheEntry :=
  if !config.enabled || decide (size < 0) then (cache, none)
  else
    admitEntry config (cache.removeExisting versionId) fs versionId size.toNat 0
      now false free refused

/-- Mark blocks of an entry, unless it was evicted while the bytes were on
their way. -/
def markPresent (cache : LocalCache) (versionId : String) (uid : Nat)
    (indices : List Nat) : LocalCache :=
  match cache.entry versionId with
  | none => cache
  | some entry =>
      if entry.uid ≠ uid then cache
      else
        let changed := indices.filter fun index => !entry.presentAt index
        (cache.update versionId uid fun entry => entry.mark changed).issue
          (changed.map (DiskStep.writeMap versionId))

/-- The blocks that `length` bytes from `begin` cover completely. -/
def coveredBlocks (entry : CacheEntry) (begin_ length : Nat) : List Nat :=
  let first := begin_ / entry.blockSize
  let last :=
    if entry.size ≤ begin_ + length then entry.blocks
    else (begin_ + length) / entry.blockSize
  List.range' first (last - first)

/-- `write_blocks` up to its suspension: claim the missing bytes. -/
def claimBlocks (config : CacheConfig) (cache : LocalCache)
    (versionId : String) (begin_ : Nat) (data : List UInt8)
    (free : FreeSpace) : LocalCache × Option Fill :=
  match cache.entry versionId with
  | none => (cache, none)
  | some entry =>
      if entry.writing || data.isEmpty then (cache, none)
      else if begin_ % entry.blockSize ≠ 0 ∨
          entry.size < begin_ + data.length then (cache, none)
      else
        let blocks := coveredBlocks entry begin_ data.length
        if blocks.isEmpty then (cache, none)
        else
          let added := entry.missingBytes blocks
          let room :=
            if added = 0 then (cache, none)
            else makeRoom config cache added false (some entry.uid) free
          match room.2 with
          | some _ => (room.1, none)
          | none =>
              (room.1.update versionId entry.uid fun entry =>
                entry.withInflight (entry.inflight + added),
                some
                  { uid := entry.uid
                    versionId := versionId
                    begin_ := begin_
                    data := data
                    blocks := blocks
                    added := added })

def returnClaim (cache : LocalCache) (fill : Fill) : LocalCache :=
  cache.update fill.versionId fill.uid fun entry =>
    entry.withInflight (entry.inflight - fill.added)

/-- `write_blocks` after its bytes reached the disk. -/
def commitBlocks (cache : LocalCache) (fill : Fill) (now : Int) :
    LocalCache :=
  let written := cache.issue
    [.writeData (.path fill.versionId) fill.begin_ fill.data]
  let marked := (written.returnClaim fill).markPresent fill.versionId
    fill.uid fill.blocks
  marked.update fill.versionId fill.uid fun entry =>
    { entry with lastAccess := now }

/-- `write_blocks` after the disk failed; `written` bytes had landed. -/
def failBlocks (cache : LocalCache) (fill : Fill) (written : Nat) :
    LocalCache :=
  let partly := cache.issue
    [.writeData (.path fill.versionId) fill.begin_ (fill.data.take written)]
  (partly.returnClaim fill).remove fill.versionId

def pin (cache : LocalCache) (versionId : String) (now : Int) : LocalCache :=
  match cache.entry versionId with
  | none => cache
  | some entry =>
      (cache.update versionId entry.uid fun entry =>
        { entry with
          pinnedAt := if entry.pins = 0 then now else entry.pinnedAt
          pins := entry.pins + 1 }).saveIndex

def unpin (cache : LocalCache) (versionId : String) : LocalCache :=
  match cache.entry versionId with
  | none => cache
  | some entry =>
      cache.update versionId entry.uid fun entry =>
        { entry with pins := entry.pins - 1 }

/-- The mirrors are done with a version: unpin it, and drop it unless the
entry is kept for reads. -/
def release (config : CacheConfig) (cache : LocalCache)
    (versionId : String) : LocalCache :=
  match cache.entry versionId with
  | none => cache
  | some entry =>
      let unpinned := cache.update versionId entry.uid fun entry =>
        { entry with pins := 0, pinnedAt := 0 }
      if config.keepForReads then unpinned.saveIndex
      else unpinned.remove versionId

/-- Drop every entry no mirror is waiting for; returns how many. -/
def evictUnpinned (cache : LocalCache) : LocalCache × Nat :=
  let victims := (cache.entries.values.filter CacheEntry.evictable).map
    CacheEntry.versionId
  (cache.removeMany victims, victims.length)

/-- Remove the listed files no entry refers to. -/
def sweepOrphans (cache : LocalCache) (listing : List (String × FileKind)) :
    LocalCache × Nat :=
  let orphans := listing.filter fun file =>
    !cache.entries.contains file.1
  (cache.issue (orphans.map fun file => .unlink file.1 file.2),
    orphans.length)

def stalePin (queueEmpty : String → Bool) (now : Int)
    (entry : CacheEntry) : Bool :=
  decide (0 < entry.pins) && !entry.writing &&
    decide (STALE_PIN ≤ now - entry.pinnedAt) && queueEmpty entry.fs

def releaseStale (config : CacheConfig) (queueEmpty : String → Bool)
    (now : Int) (cache : LocalCache) : LocalCache × Nat :=
  let stale := cache.entries.values.filter (stalePin queueEmpty now)
  (stale.foldl (fun cache entry => cache.release config entry.versionId)
    cache, stale.length)

def expire (config : CacheConfig) (now : Int) (cache : LocalCache) :
    LocalCache × Nat :=
  if config.maxAge = 0 then (cache, 0)
  else
    let expired := cache.entries.values.filter fun entry =>
      entry.evictable && decide (config.maxAge ≤ now - entry.lastAccess)
    (expired.foldl (fun cache entry => (cache.evict entry).1) cache,
      expired.length)

/-- Evict down to the target; the victims that are left and how many went. -/
def evictToTarget (target : Nat) :
    List CacheEntry → Nat → LocalCache → List CacheEntry × LocalCache × Nat
  | [], _, cache => ([], cache, 0)
  | victim :: victims, used, cache =>
      if used ≤ target then (victim :: victims, cache, 0)
      else
        let result := cache.evict victim
        let rest := evictToTarget target victims (used - result.2) result.1
        (rest.1, rest.2.1, rest.2.2 + 1)

/-- Evict until the disk has its headroom again. -/
def evictForDisk (config : CacheConfig) (free : FreeSpace) :
    List CacheEntry → Nat → LocalCache → LocalCache × Nat
  | [], _, cache => (cache, 0)
  | victim :: victims, round, cache =>
      if config.minFreeBytes = 0 then (cache, 0)
      else
        match free round with
        | none => (cache, 0)
        | some bytes =>
            if config.minFreeBytes ≤ bytes then (cache, 0)
            else
              let rest := evictForDisk config free victims (round + 1)
                (cache.evict victim).1
              (rest.1, rest.2 + 1)

/-- The expiry and the two eviction passes of a sweep. -/
def sweepEvictions (config : CacheConfig) (now : Int) (free : FreeSpace)
    (cache : LocalCache) : LocalCache × Nat × Nat :=
  let expired := expire config now cache
  let victims := (expired.1.lruOrder none).reverse
  let toTarget :=
    match config.targetBytes with
    | none => (victims, expired.1, 0)
    | some target => evictToTarget target victims expired.1.usedBytes
        expired.1
  let forDisk := evictForDisk config free toTarget.1 0 toTarget.2.1
  (forDisk.1, expired.2, toTarget.2.2 + forDisk.2)

def sweep (config : CacheConfig) (cache : LocalCache)
    (listing : List (String × FileKind)) (queueEmpty : String → Bool)
    (now : Int) (free : FreeSpace) : LocalCache × SweepReport :=
  let orphans := cache.sweepOrphans listing
  let released := releaseStale config queueEmpty now orphans.1
  let evictions := sweepEvictions config now free released.1
  (evictions.1.saveIndex,
    { orphans := orphans.2
      released := released.2
      expired := evictions.2.1
      evicted := evictions.2.2 })

end LocalCache

namespace StagingWriter

def blocks (writer : StagingWriter) : Nat :=
  blocksFor writer.size writer.blockSize

/-- `abort` up to the close of the file handle. -/
def beginAbort (writer : StagingWriter) : StagingWriter :=
  { writer with failed := true, aborting := true }

/-- `abort` once the handle is closed: drop the entry. -/
def endAbort (writer : StagingWriter) (cache : LocalCache) :
    StagingWriter × LocalCache :=
  ({ writer with fdOpen := false, aborting := false },
    (cache.update writer.versionId writer.uid fun entry =>
      { entry with writing := false }).remove writer.versionId)

/-- `_finish` once the handle is closed: the whole version is on disk. -/
def finish (writer : StagingWriter) (cache : LocalCache) :
    StagingWriter × LocalCache :=
  ({ writer with fdOpen := false, finishing := false },
    (cache.update writer.versionId writer.uid fun entry =>
      { entry with writing := false }).saveIndex)

/-- `write` after its bytes reached the disk, up to `_finish`. -/
def write (writer : StagingWriter) (cache : LocalCache)
    (data : List UInt8) : StagingWriter × LocalCache :=
  if writer.failed || data.isEmpty then (writer, cache)
  else
    let offset := writer.offset + data.length
    let written := cache.issue
      [.writeData (.handle writer.uid) writer.offset data]
    let done :=
      if writer.size ≤ offset then writer.blocks
      else offset / writer.blockSize
    ({ writer with
        offset := offset
        fdOpen := true
        finishing := decide (writer.size ≤ offset) },
      written.markPresent writer.versionId writer.uid (List.range done))

/-- `write` after the disk failed; `written` bytes had landed. -/
def writeFailed (writer : StagingWriter) (cache : LocalCache)
    (data : List UInt8) (written : Nat) : StagingWriter × LocalCache :=
  if writer.failed || data.isEmpty then (writer, cache)
  else
    let landed := data.take written
    (({ writer with
        offset := writer.offset + landed.length } : StagingWriter).beginAbort,
      cache.issue [.writeData (.handle writer.uid) writer.offset landed])

/-- `close`: the source is exhausted; a short write is discarded. -/
def close (writer : StagingWriter) : StagingWriter :=
  if writer.failed then writer
  else if writer.size ≤ writer.offset then
    if writer.fdOpen then { writer with finishing := true } else writer
  else writer.beginAbort

end StagingWriter

end Tgdcfs
