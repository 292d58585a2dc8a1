import Mathlib.Data.Prod.Lex
import Mathlib.Order.WellFounded
import Tgdcfs.Backends.ChunkCache
import Tgdcfs.Core.PrefetchingChain
import Tgdcfs.Lib.Blocks
import Tgdcfs.Lib.Run

/-!
# Downloads through the chunk cache

`_cached_download` serves a range from cached blocks and fetches runs of
missing ones.  The stream of a run is cut back into blocks, which are filed and
clipped to the range.  Read-ahead tasks fetch the blocks behind a request.
Downloads, read-ahead and evictions share one cache and take turns wherever
one of them waits.
-/

namespace Tgdcfs

open Lib

variable {ε : Type*}

/-- `block_range`: the first index, and the one behind the last. -/
def blockRange (begin_ : Nat) (end_ : Int) (blockSize : Nat) : Nat × Nat :=
  (begin_ / blockSize, (end_ / blockSize + 1).toNat)

def blockBounds (index blockSize totalSize : Nat) : Nat × Int :=
  (index * blockSize,
    (min (index * blockSize + blockSize) totalSize : Nat) - 1)

def blockLength (index blockSize totalSize : Nat) : Nat :=
  let (begin_, end_) := blockBounds index blockSize totalSize
  (max 0 (end_ - begin_ + 1)).toNat

/-- Where `_fetch_blocks` waits: for the uncached download to answer, for its
next chunk, or for whoever takes the blocks. -/
inductive FetchPhase (ε : Type*) where
  | opening
  | awaiting (chunks : List Bytes) (error : Option ε)
  | cutting (chunks : List Bytes) (error : Option ε)
  | ended
  | raised (error : ε)

structure BlockFetch (ε : Type*) where
  channel : Int
  messageId : Int
  size : Nat
  blockSize : Nat
  index : Nat
  last : Nat
  buffer : Bytes
  phase : FetchPhase ε

namespace BlockFetch

def start (channel messageId : Int) (first last size blockSize : Nat) :
    BlockFetch ε :=
  { channel := channel
    messageId := messageId
    size := size
    blockSize := blockSize
    index := first
    last := last
    buffer := []
    phase := .opening }

/-- The range asked of `_download_uncached`. -/
def request (fetch : BlockFetch ε) : Nat × Int :=
  ((blockBounds fetch.index fetch.blockSize fetch.size).1,
    (blockBounds fetch.last fetch.blockSize fetch.size).2)

/-- `_download_uncached` answers with a stream, or raises. -/
def answered (fetch : BlockFetch ε) : Except ε (ByteStream ε) → BlockFetch ε
  | .ok stream =>
      { fetch with phase := .awaiting stream.chunks stream.error }
  | .error error => { fetch with phase := .raised error }

/-- The generator up to its next wait or `yield (index, data, complete)`. -/
def next (fetch : BlockFetch ε) :
    BlockFetch ε × Option (Nat × Bytes × Bool) :=
  match fetch.phase with
  | .awaiting (chunk :: chunks) error =>
      ({ fetch with
          buffer := fetch.buffer ++ chunk
          phase := .cutting chunks error }, none)
  | .awaiting [] (some error) => ({ fetch with phase := .raised error }, none)
  | .awaiting [] none =>
      ({ fetch with phase := .ended },
        if fetch.index ≤ fetch.last ∧ fetch.buffer ≠ [] then
          some (fetch.index, fetch.buffer, false)
        else none)
  | .cutting chunks error =>
      let expected := blockLength fetch.index fetch.blockSize fetch.size
      if fetch.index ≤ fetch.last ∧ expected ≤ fetch.buffer.length then
        ({ fetch with
            index := fetch.index + 1
            buffer := fetch.buffer.drop expected },
          some (fetch.index, fetch.buffer.take expected, true))
      else ({ fetch with phase := .awaiting chunks error }, none)
  | .opening | .ended | .raised _ => (fetch, none)

end BlockFetch

/-- Where `_cached_download` stands: in front of a block, in the fetch of a
run, or behind its end. -/
inductive DownloadPhase (ε : Type*) where
  | atIndex (index : Nat)
  | inRun (runEnd : Nat) (fetch : BlockFetch ε)
  | finished
  | closed
  | raised (error : ε)

structure CachedDownload (ε : Type*) where
  channel : Int
  messageId : Int
  begin_ : Nat
  end_ : Int
  size : Nat
  blockSize : Nat
  phase : DownloadPhase ε
  output : List Bytes

/-- `_slice`: the part of one block that falls inside the requested range. -/
def sliceBlock (block : Bytes) (index blockSize begin_ : Nat) (end_ : Int) :
    Bytes :=
  let blockBegin := index * blockSize
  let start := begin_ - blockBegin
  let stop := min (block.length : Int) (end_ - blockBegin + 1)
  if (start : Int) < stop then (block.take stop.toNat).drop start else []

/-- The end of a run of missing blocks: the walk over at most `left` more. -/
def runEndFrom (held : Nat → Bool) : Nat → Nat → Nat
  | 0, runEnd => runEnd
  | left + 1, runEnd =>
      if held (runEnd + 1) then runEnd else runEndFrom held left (runEnd + 1)

namespace CachedDownload

/-- `blocks`. -/
def blocks (download : CachedDownload ε) : Nat × Nat :=
  blockRange download.begin_ (min download.end_ ((download.size : Int) - 1))
    download.blockSize

def start (channel messageId : Int) (begin_ : Nat) (end_ : Int)
    (size blockSize : Nat) : CachedDownload ε :=
  { channel := channel
    messageId := messageId
    begin_ := begin_
    end_ := end_
    size := size
    blockSize := blockSize
    phase := .atIndex
      (blockRange begin_ (min end_ ((size : Int) - 1)) blockSize).1
    output := [] }

def key (download : CachedDownload ε) (index : Nat) : BlockKey :=
  (download.channel, download.messageId, index)

def yield (download : CachedDownload ε) (block : Bytes) (index : Nat)
    (phase : DownloadPhase ε) : CachedDownload ε :=
  { download with
    phase := phase
    output := download.output ++
      [sliceBlock block index download.blockSize download.begin_
        download.end_] }

/-- The body of the loop over `_fetch_blocks`. -/
def takeBlock (download : CachedDownload ε) (runEnd : Nat)
    (fetched : BlockFetch ε × Option (Nat × Bytes × Bool))
    (cache : ChunkCache) : ChunkCache × CachedDownload ε :=
  match fetched with
  | (fetch, none) => (cache, { download with phase := .inRun runEnd fetch })
  | (fetch, some (position, block, complete)) =>
      (if complete then cache.put (download.key position) block else cache,
        download.yield block position (.inRun runEnd fetch))

/-- The generator up to its next wait or `yield`; `none` while it waits for
the uncached download, and behind its end. -/
def resume (download : CachedDownload ε) (cache : ChunkCache) :
    Option (ChunkCache × CachedDownload ε) :=
  match download.phase with
  | .atIndex index =>
      if download.blocks.2 ≤ index then
        some (cache, { download with phase := .finished })
      else
        match cache.get (download.key index) with
        | (cache, some cached) =>
            some (cache, download.yield cached index (.atIndex (index + 1)))
        | (cache, none) =>
            let runEnd := runEndFrom
              (fun index => cache.contains (download.key index))
              (download.blocks.2 - (index + 1)) index
            some (cache,
              { download with
                phase := .inRun runEnd
                  (.start download.channel download.messageId index runEnd
                    download.size download.blockSize) })
  | .inRun runEnd fetch =>
      match fetch.phase with
      | .opening => none
      | .ended =>
          some (cache, { download with phase := .atIndex (runEnd + 1) })
      | .raised error => some (cache, { download with phase := .raised error })
      | .awaiting .. | .cutting .. =>
          some (download.takeBlock runEnd fetch.next cache)
  | .finished | .closed | .raised _ => none

def answered (download : CachedDownload ε)
    (answer : Except ε (ByteStream ε)) : Option (CachedDownload ε) :=
  match download.phase with
  | .inRun runEnd fetch =>
      match fetch.phase with
      | .opening =>
          some { download with phase := .inRun runEnd (fetch.answered answer) }
      | _ => none
  | _ => none

/-- The consumer goes away. -/
def close (download : CachedDownload ε) : Option (CachedDownload ε) :=
  match download.phase with
  | .atIndex _ | .inRun .. => some { download with phase := .closed }
  | .finished | .closed | .raised _ => none

end CachedDownload

def MAX_READAHEAD_TASKS : Nat := 4

/-- The `key` of `__readahead`, with the channel of the store it belongs
to: `(channel, message_id, first, last)`. -/
abbrev ReadAheadKey := Int × Int × Nat × Nat

structure ReadAheadTask (ε : Type*) where
  key : ReadAheadKey
  fetch : BlockFetch ε
  done : Bool

/-- What the configuration and the channels fix. -/
structure DownloadSetting where
  blockSize : Nat
  readahead : Nat
  content : Int → Int → Bytes

structure DownloadSystem (ε : Type*) where
  cache : ChunkCache
  downloads : List (CachedDownload ε)
  readahead : List ReadAheadKey
  tasks : List (ReadAheadTask ε)

/-- `downloadCached` is `_download_cached` behind its wait for the size, which
may be unknown; `cachedDownload` starts the generator alone. -/
inductive DownloadAction (ε : Type*) where
  | downloadCached (channel messageId begin_ end_ : Int) (sizeKnown : Bool)
  | cachedDownload (channel messageId : Int) (begin_ : Nat) (end_ : Int)
  | resume (position : Nat)
  | answer (position : Nat) (answer : Except ε (ByteStream ε))
  | close (position : Nat)
  | taskResume (position : Nat)
  | taskAnswer (position : Nat) (answer : Except ε (ByteStream ε))
  | invalidate (channel messageId : Int)
  | clear

namespace DownloadSystem

/-- `_schedule_readahead`. -/
def scheduleReadahead (setting : DownloadSetting)
    (channel messageId : Int) (afterBlock size : Nat)
    (system : DownloadSystem ε) : DownloadSystem ε :=
  let running := system.readahead.filter fun key => key.1 = channel
  if setting.readahead < 1 ∨ MAX_READAHEAD_TASKS ≤ running.length then system
  else
    let lastBlock := (size - 1) / setting.blockSize
    let stop := min (afterBlock + setting.readahead) lastBlock + 1
    let wanted := (List.range' (afterBlock + 1)
      (stop - (afterBlock + 1))).filter fun index =>
        !system.cache.contains (channel, messageId, index)
    match wanted.head?, wanted.getLast? with
    | some first, some last =>
        let key := (channel, messageId, first, last)
        if key ∈ system.readahead then system
        else
          { system with
            readahead := system.readahead ++ [key]
            tasks := system.tasks ++
              [{ key := key
                 fetch := .start channel messageId first last size
                  setting.blockSize
                 done := false }] }
    | _, _ => system

def addDownload (download : CachedDownload ε) (system : DownloadSystem ε) :
    DownloadSystem ε :=
  { system with downloads := system.downloads ++ [download] }

/-- `_download_cached` from the answer of `_document_size` on; with the size
of the response. -/
def downloadCached (setting : DownloadSetting) (size : Option Nat)
    (channel messageId begin_ end_ : Int) (system : DownloadSystem ε) :
    Option (DownloadSystem ε × Int) :=
  if ¬system.cache.enabled ∨ begin_ < 0 then none
  else
    match size with
    | none => none
    | some size =>
        if size = 0 ∨ (size : Int) ≤ begin_ then none
        else
          let end_ := if end_ < 0 ∨ (size : Int) - 1 < end_ then
            (size : Int) - 1 else end_
          if end_ < begin_ then none
          else
            some ((system.scheduleReadahead setting channel messageId
              (end_.toNat / setting.blockSize) size).addDownload
                (.start channel messageId begin_.toNat end_ size
                  setting.blockSize), end_ - begin_ + 1)

def setDownload (position : Nat) (download : CachedDownload ε)
    (cache : ChunkCache) (system : DownloadSystem ε) : DownloadSystem ε :=
  { system with
    cache := cache
    downloads := system.downloads.set position download }

def setTask (position : Nat) (task : ReadAheadTask ε) (cache : ChunkCache)
    (system : DownloadSystem ε) : DownloadSystem ε :=
  { system with
    cache := cache
    tasks := system.tasks.set position task }

/-- The `finally` of a read-ahead task. -/
def discard (position : Nat) (task : ReadAheadTask ε)
    (system : DownloadSystem ε) : DownloadSystem ε :=
  { system.setTask position { task with done := true } system.cache with
    readahead := system.readahead.filter (· ≠ task.key) }

/-- The loop of a read-ahead task; what it raises is only logged. -/
def resumeTask (position : Nat) (task : ReadAheadTask ε)
    (system : DownloadSystem ε) : Option (DownloadSystem ε) :=
  match task.fetch.phase with
  | .opening => none
  | .ended | .raised _ => some (system.discard position task)
  | .awaiting .. | .cutting .. =>
      let (fetch, yielded) := task.fetch.next
      let cache := match yielded with
        | some (index, block, true) =>
            system.cache.put (task.key.1, task.key.2.1, index) block
        | _ => system.cache
      some (system.setTask position { task with fetch := fetch } cache)

def step (setting : DownloadSetting) (system : DownloadSystem ε) :
    DownloadAction ε → Option (DownloadSystem ε)
  | .downloadCached channel messageId begin_ end_ sizeKnown =>
      let size := if sizeKnown then
        some (setting.content channel messageId).length else none
      (system.downloadCached setting size channel messageId begin_
        end_).map Prod.fst
  | .cachedDownload channel messageId begin_ end_ =>
      some (system.addDownload (.start channel messageId begin_ end_
        (setting.content channel messageId).length setting.blockSize))
  | .resume position =>
      system.downloads[position]?.bind fun download =>
        (download.resume system.cache).map fun (cache, download) =>
          system.setDownload position download cache
  | .answer position answer =>
      system.downloads[position]?.bind fun download =>
        (download.answered answer).map fun download =>
          system.setDownload position download system.cache
  | .close position =>
      system.downloads[position]?.bind fun download =>
        download.close.map fun download =>
          system.setDownload position download system.cache
  | .taskResume position =>
      system.tasks[position]?.bind fun task =>
        if task.done then none else system.resumeTask position task
  | .taskAnswer position answer =>
      system.tasks[position]?.bind fun task =>
        match task.fetch.phase with
        | .opening =>
            if task.done then none
            else some (system.setTask position
              { task with fetch := task.fetch.answered answer } system.cache)
        | _ => none
  | .invalidate channel messageId =>
      some { system with cache := system.cache.invalidate channel messageId }
  | .clear => some { system with cache := system.cache.clear }

end DownloadSystem

end Tgdcfs
