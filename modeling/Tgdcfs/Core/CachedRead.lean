import Tgdcfs.Cache.Growth
import Tgdcfs.Core.Layouts

/-!
# Reading through the local cache

`_stream_through_cache` looks at the entry of a version once, when the stream
starts, and then follows what was missing at that moment: gaps come from the
disk, runs come from the stores and are filed block by block.  Every time it
waits for the disk, a store or its consumer, the other tasks that share the
cache go on.
-/

namespace Tgdcfs

open Lib

def READ_CHUNK : Nat := 1024 * 1024

/-- A read of `[begin, end]`; `content` is what the version consists of. -/
structure ReadRequest where
  versionId : String
  scope : String
  content : List UInt8
  layouts : List Layout
  begin_ : Nat
  end_ : Nat
  admits : Bool

inductive CacheReadError where
  | notCached
  | noFile
  | shortRead
  | stores
  deriving DecidableEq

/-- A run that is being fetched.  `block` collects what was received from
`blockBegin` on and `ended` says that its last block is on its way. -/
structure Fetch where
  stream : LayoutStream
  runEnd : Nat
  blockSize : Nat
  block : List UInt8
  blockBegin : Nat
  rest : List (Nat × Nat)
  ended : Bool

/-- Where the reader waits: for the stores outside the cache, for the disk in
`LocalCache.read`, for the stores in `_fetch_run`, or for the disk in
`write_blocks`. -/
inductive ReadPhase where
  | idle
  | plain (stream : LayoutStream)
  | reading (offset stop blockSize : Nat) (rest : List (Nat × Nat))
  | fetching (fetch : Fetch)
  | filling (fetch : Fetch) (fill : Fill)
  | done
  | failed (error : CacheReadError)

structure CachedRead where
  tasks : CacheState
  phase : ReadPhase
  output : List UInt8

/-- The steps of the reader, and those of the other tasks. -/
inductive CacheReadAction where
  | other (action : CacheAction)
  | start (now : Int) (free : FreeSpace) (refused : Option FileKind)
  | pread (holes : Nat → UInt8)
  | chunk (count : Nat)
  | layoutFails
  | store (free : FreeSpace)
  | stored (now : Int)
  | storeFailed (written : Nat) (now : Int)
  | finish (now : Int) (free : FreeSpace)

/-- The bytes of the data file: a block on disk holds the bytes of the
version, anything may stand in the others. -/
def preadBytes (entry : CacheEntry) (content : List UInt8)
    (holes : Nat → UInt8) (offset length : Nat) : List UInt8 :=
  (List.range' offset (min length (entry.size - offset))).map fun index =>
    if entry.presentAt (index / entry.blockSize) then content.getD index 0
    else holes index

/-- The requested bytes of a chunk that was received at `position`. -/
def clip (begin_ end_ position : Nat) (chunk : List UInt8) : List UInt8 :=
  let lo := max position begin_
  let hi := min (position + chunk.length) (end_ + 1)
  (chunk.drop (lo - position)).take (hi - lo)

namespace ReadRequest

variable (request : ReadRequest)

/-- The size of the first layout. -/
def size : Nat := (request.layouts.head?.map Layout.size).getD 0

/-- The whole range from the stores. -/
def openPlain : ReadPhase :=
  match LayoutStream.openNext request.content request.begin_ request.end_
      request.layouts with
  | none => .failed .stores
  | some stream => .plain stream

def openFetch (blockSize runBegin runEnd : Nat) (rest : List (Nat × Nat)) :
    ReadPhase :=
  match LayoutStream.openNext request.content runBegin runEnd
      request.layouts with
  | none => .failed .stores
  | some stream =>
      .fetching
        { stream := stream
          runEnd := runEnd
          blockSize := blockSize
          block := []
          blockBegin := runBegin
          rest := rest
          ended := false }

/-- `LocalCache.read` up to its first wait. -/
def openRead (cache : LocalCache) (now : Int)
    (blockSize position stop : Nat) (rest : List (Nat × Nat)) :
    LocalCache × ReadPhase :=
  match cache.entry request.versionId with
  | none => (cache, .failed .notCached)
  | some entry =>
      let last := if entry.size ≤ stop then entry.size - 1 else stop
      if entry.hasRange position last then
        (cache.update request.versionId entry.uid fun entry =>
            { entry with lastAccess := now },
          .reading position last blockSize rest)
      else (cache, .failed .notCached)

/-- The loop over the missing runs, from `position` on. -/
def follow (cache : LocalCache) (now : Int) (blockSize position : Nat) :
    List (Nat × Nat) → LocalCache × ReadPhase
  | [] =>
      if position ≤ request.end_ then
        request.openRead cache now blockSize position request.end_ []
      else (cache, .done)
  | (runBegin, runEnd) :: rest =>
      if position < runBegin then
        request.openRead cache now blockSize position (runBegin - 1)
          ((runBegin, runEnd) :: rest)
      else (cache, request.openFetch blockSize runBegin runEnd rest)

/-- The gap is read: the run after it is next. -/
def resume (blockSize : Nat) : List (Nat × Nat) → ReadPhase
  | [] => .done
  | (runBegin, runEnd) :: rest =>
      request.openFetch blockSize runBegin runEnd rest

/-- The run is fetched: the gap after it is next. -/
def afterRun (cache : LocalCache) (now : Int) (fetch : Fetch) :
    LocalCache × ReadPhase :=
  request.follow cache now fetch.blockSize
    (min fetch.runEnd request.end_ + 1) fetch.rest

/-- A task that caches the version knows its size. -/
def sizes : CacheAction → Bool
  | .openStaging _ versionId size _ _ _
  | .reserve _ versionId size _ _ _ =>
      versionId ≠ request.versionId || size = request.content.length
  | _ => true

end ReadRequest

namespace CachedRead

variable (config : CacheConfig) (request : ReadRequest)

def move (state : CachedRead) (result : LocalCache × ReadPhase) :
    CachedRead :=
  { state with
    tasks := state.tasks.withCache result.1
    phase := result.2 }

def start (state : CachedRead) (now : Int) (free : FreeSpace)
    (refused : Option FileKind) : CachedRead :=
  let follow := fun (cache : LocalCache) (entry : CacheEntry) =>
    request.follow cache now entry.blockSize request.begin_
      (entry.missingRuns request.begin_ request.end_)
  match state.tasks.cache.entry request.versionId with
  | some entry => state.move (follow state.tasks.cache entry)
  | none =>
      if request.admits then
        let result := state.tasks.cache.reserve config request.scope
          request.versionId request.size now free refused
        match result.2 with
        | some entry => state.move (follow result.1 entry)
        | none => state.move (result.1, request.openPlain)
      else state.move (state.tasks.cache, request.openPlain)

def pread (state : CachedRead) (holes : Nat → UInt8)
    (offset stop blockSize : Nat) (rest : List (Nat × Nat)) : CachedRead :=
  match state.tasks.cache.entry request.versionId with
  | none => { state with phase := .failed .noFile }
  | some entry =>
      let chunk := preadBytes entry request.content holes offset
        (min READ_CHUNK (stop + 1 - offset))
      if chunk.isEmpty then { state with phase := .failed .shortRead }
      else
        { state with
          output := state.output ++ chunk
          phase :=
            if offset + chunk.length ≤ stop then
              .reading (offset + chunk.length) stop blockSize rest
            else request.resume blockSize rest }

/-- `write_blocks` up to its wait; without a wait the reader goes on. -/
def claim (state : CachedRead) (fetch : Fetch) (begin_ : Nat)
    (data : List UInt8) (free : FreeSpace) (now : Int) : CachedRead :=
  let result := state.tasks.cache.claimBlocks config request.versionId begin_
    data free
  match result.2 with
  | some fill => state.move (result.1, .filling fetch fill)
  | none =>
      if fetch.ended then state.move (request.afterRun result.1 now fetch)
      else state.move (result.1, .fetching fetch)

/-- `write_blocks` has returned. -/
def continue_ (state : CachedRead) (fetch : Fetch) (cache : LocalCache)
    (now : Int) : CachedRead :=
  if fetch.ended then state.move (request.afterRun cache now fetch)
  else state.move (cache, .fetching fetch)

def step (state : CachedRead) (action : CacheReadAction) : Option CachedRead :=
  match action, state.phase with
  | .other action, _ =>
      if request.sizes action then
        (cacheStep config state.tasks action).map fun tasks =>
          { state with tasks := tasks }
      else none
  | .start now free refused, .idle =>
      some (state.start config request now free refused)
  | .pread holes, .reading offset stop blockSize rest =>
      some (state.pread request holes offset stop blockSize rest)
  | .chunk count, .plain stream =>
      if 0 < count ∧ count ≤ stream.remaining.length then
        some
          { state with
            output := state.output ++ stream.remaining.take count
            phase := .plain (stream.take count) }
      else none
  | .chunk count, .fetching fetch =>
      if 0 < count ∧ count ≤ fetch.stream.remaining.length ∧
          fetch.block.length < fetch.blockSize then
        let chunk := fetch.stream.remaining.take count
        some
          { state with
            output := state.output ++
              clip request.begin_ request.end_ fetch.stream.position chunk
            phase := .fetching
              { fetch with
                stream := fetch.stream.take count
                block := fetch.block ++ chunk } }
      else none
  | .layoutFails, .plain stream =>
      some
        { state with
          phase :=
            match stream.failOver request.content with
            | none => .failed .stores
            | some next => .plain next }
  | .layoutFails, .fetching fetch =>
      if fetch.block.length < fetch.blockSize then
        some
          { state with
            phase :=
              match fetch.stream.failOver request.content with
              | none => .failed .stores
              | some next => .fetching { fetch with stream := next } }
      else none
  | .store free, .fetching fetch =>
      if fetch.blockSize ≤ fetch.block.length then
        some (state.claim config request
          { fetch with
            block := fetch.block.drop fetch.blockSize
            blockBegin := fetch.blockBegin + fetch.blockSize }
          fetch.blockBegin (fetch.block.take fetch.blockSize) free 0)
      else none
  | .stored now, .filling fetch fill =>
      some (state.continue_ request fetch
        (state.tasks.cache.commitBlocks fill now) now)
  | .storeFailed written now, .filling fetch fill =>
      some (state.continue_ request fetch
        (state.tasks.cache.failBlocks fill written) now)
  | .finish _ _, .plain stream =>
      if stream.ended then some { state with phase := .done } else none
  | .finish now free, .fetching fetch =>
      if fetch.stream.ended ∧ fetch.block.length < fetch.blockSize then
        if fetch.block ≠ [] ∧ fetch.runEnd < fetch.stream.position then
          some (state.claim config request
            { fetch with block := [], ended := true } fetch.blockBegin
            fetch.block free now)
        else
          some (state.move (request.afterRun state.tasks.cache now fetch))
      else none
  | _, _ => none

end CachedRead

end Tgdcfs
