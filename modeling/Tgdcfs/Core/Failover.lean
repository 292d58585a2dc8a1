import Mathlib.Data.List.Sort
import Tgdcfs.Core.Layouts
import Tgdcfs.Core.PrefetchingChain
import Tgdcfs.Core.Version
import Tgdcfs.Lib.Run

/-!
# Reads that fail over

A version is readable from the messages of its owner, from aligned mirrors
part by part, and from replicas with a layout of their own.  A read resumes
at two levels: within a part the next candidate goes on at the byte where the
previous one stopped, and the next layout goes on when a part has run out of
candidates.  The parts of one layout are read by a prefetching chain.

Every download of a read is a request of its own.  A function from requests
to answers stands for the failures of one read.
-/

namespace Tgdcfs

open Lib

def PART_PREFETCH_CONCURRENCY : Nat := 2

/-- The mirror stores of a reader, and whether the primary was marked dead. -/
structure MirrorReads where
  keys : List String
  primaryDead : Bool
  deriving DecidableEq, Repr

/-- The part of the content repository that reads go through. -/
structure ContentReader where
  storeKey : String
  group : Option MirrorReads
  readPreference : List String
  deriving DecidableEq, Repr

namespace ContentReader

/-- `MirrorGroup.store_for`: a mirror, or the primary itself. -/
def storeFor (reader : ContentReader) (group : MirrorReads) (key : String) :
    Option String :=
  if key = reader.storeKey ∨ key ∈ group.keys then some key else none

/-- The place of a store in the read preference, or behind all of them. -/
def preferenceRank (reader : ContentReader) (key : String) : Nat :=
  reader.readPreference.idxOf key

/-- The aligned mirrors that have a message for a part. -/
def mirrorSources (reader : ContentReader) (group : MirrorReads)
    (version : TGFSFileVersion) (part : Nat) : List (String × Int) :=
  version.mirrors.items.filterMap fun entry =>
    (reader.storeFor group entry.1).bind fun store =>
      entry.2[part]?.bind fun messageId =>
        if 0 < messageId then some (store, messageId) else none

/-- The candidates for one part of the primary layout. -/
def partSources (reader : ContentReader) (version : TGFSFileVersion)
    (part : Nat) (messageId : Int) : List (String × Int) :=
  let own :=
    if version.ownedBy reader.storeKey ∧ 0 < messageId then
      [(reader.storeKey, messageId)]
    else []
  let sources :=
    match reader.group with
    | none => own
    | some group =>
        let all := own ++ reader.mirrorSources group version part
        if group.primaryDead ∧ 1 < all.length then
          all.drop 1 ++ all.take 1
        else all
  sources.insertionSort fun left right =>
    reader.preferenceRank left.1 ≤ reader.preferenceRank right.1

def primaryLayout (reader : ContentReader) (version : TGFSFileVersion) :
    List Layout :=
  if version.messageIds ≠ [] ∧
      version.partSizes.length = version.messageIds.length then
    [{ partSizes := version.partSizes
       candidates := version.messageIds.zipIdx.map fun entry =>
         reader.partSources version entry.2 entry.1
       label := "primary" }]
  else []

def replicaLayouts (reader : ContentReader) (version : TGFSFileVersion) :
    List Layout :=
  match reader.group with
  | none => []
  | some group =>
      version.replicas.items.filterMap fun entry =>
        (reader.storeFor group entry.1).bind fun store =>
          if entry.2.messageIds ≠ [] ∧
              entry.2.partSizes.length = entry.2.messageIds.length then
            some
              { partSizes := entry.2.partSizes
                candidates := entry.2.messageIds.map fun messageId =>
                  [(store, messageId)]
                label := "replica " ++ entry.1 }
          else none

/-- The best rank among the stores of a layout. -/
def layoutRank (reader : ContentReader) (layout : Layout) : Nat :=
  ((layout.candidates.flatten.map fun source =>
    reader.preferenceRank source.1).min?).getD reader.readPreference.length

/-- `_layouts`: every layout a read can be served from, in order of
preference. -/
def layouts (reader : ContentReader) (version : TGFSFileVersion) :
    List Layout :=
  (reader.primaryLayout version ++
    reader.replicaLayouts version).insertionSort fun left right =>
      reader.layoutRank left ≤ reader.layoutRank right

end ContentReader

/-- One download of a read: the layout, part and candidate it is made for,
and the inclusive range it asks the store for. -/
structure Request where
  layout : Nat
  part : Nat
  candidate : Nat
  store : String
  messageId : Int
  begin_ : Nat
  end_ : Nat
  deriving DecidableEq, Repr

inductive FailoverError where
  | download (message : String)
  | noSource (part : Nat) (label : String)
  | range (error : RangeError)
  | indexError
  deriving DecidableEq, Repr

/-- `_download_part` from one candidate on: a failure goes on with the next
candidate after the bytes already served. -/
def downloadPart (answers : Request → ByteStream String) (index : Nat)
    (label : String) (part begin_ end_ : Nat) :
    List (String × Int) → Nat → Nat → Option FailoverError →
      ByteStream FailoverError
  | [], _, _, lastError =>
      ⟨[], some (lastError.getD (.noSource part label))⟩
  | (store, messageId) :: sources, candidate, served, _ =>
      let download := answers
        { layout := index
          part := part
          candidate := candidate
          store := store
          messageId := messageId
          begin_ := begin_ + served
          end_ := end_ }
      match download.error with
      | none => ⟨download.chunks, none⟩
      | some message =>
          let later := downloadPart answers index label part begin_ end_
            sources (candidate + 1)
            (served + download.chunks.flatten.length)
            (some (.download message))
          ⟨download.chunks ++ later.chunks, later.error⟩

/-- The stream of one part of a layout. -/
def Layout.downloadRange (answers : Request → ByteStream String)
    (index : Nat) (layout : Layout) (range : PartRange) :
    ByteStream FailoverError :=
  match layout.candidates[range.part]? with
  | none => ⟨[], some .indexError⟩
  | some sources =>
      downloadPart answers index layout.label range.part range.begin_
        range.end_ sources 0 0 none

/-- `_stream_layout`: the range is mapped at once, the parts are read by the
chain. -/
def streamLayout (answers : Request → ByteStream String) (index : Nat)
    (layout : Layout) (begin_ end_ : Int) :
    Except RangeError (PrefetchingChain FailoverError) :=
  (mapRange layout.messageIds layout.partSizes layout.size begin_ end_).map
    fun ranges =>
      PrefetchingChain.start
        (ranges.map (layout.downloadRange answers index))
        PART_PREFETCH_CONCURRENCY DEFAULT_QUEUE_DEPTH

/-- A read uses one layout, with the place and the layouts that follow. -/
inductive StreamPhase where
  | reading (chain : PrefetchingChain FailoverError) (following : Nat)
      (untried : List Layout)
  | ended
  | raised (error : FailoverError)
  deriving DecidableEq

/-- `_stream_layouts` with `read_parallel` off; `emitted` is what the caller
got so far. -/
structure FailoverStream where
  begin_ : Int
  end_ : Int
  served : Nat := 0
  emitted : List UInt8 := []
  phase : StreamPhase
  deriving DecidableEq

inductive StreamLabel where
  | pump (segment : Nat)
  | consume
  deriving DecidableEq, Repr

namespace FailoverStream

/-- Go on with the first layout that maps what is left of the range. -/
def openNext (answers : Request → ByteStream String) (begin_ end_ : Int) :
    Nat → List Layout → Option FailoverError → StreamPhase
  | _, [], none => .ended
  | _, [], some error => .raised error
  | index, layout :: rest, _ =>
      match streamLayout answers index layout begin_ end_ with
      | .error error =>
          openNext answers begin_ end_ (index + 1) rest (some (.range error))
      | .ok chain => .reading chain (index + 1) rest

def start (answers : Request → ByteStream String) (layouts : List Layout)
    (begin_ end_ : Int) : FailoverStream :=
  { begin_ := begin_
    end_ := end_
    phase :=
      if layouts = [] then .raised .indexError
      else openNext answers begin_ end_ 0 layouts none }

/-- What the consumer does with an answer of the chain. -/
def receive (answers : Request → ByteStream String)
    (stream : FailoverStream) (following : Nat) (untried : List Layout) :
    ChainAnswer FailoverError → FailoverStream
  | .yielded bytes chain =>
      { stream with
        served := stream.served + bytes.length
        emitted := stream.emitted ++ bytes
        phase := .reading chain following untried }
  | .advanced chain =>
      { stream with phase := .reading chain following untried }
  | .raised error =>
      { stream with
        phase := openNext answers (stream.begin_ + stream.served)
          stream.end_ following untried (some error) }
  | .ended => { stream with phase := .ended }

def step (answers : Request → ByteStream String) (stream : FailoverStream) :
    StreamLabel → Option FailoverStream
  | .pump segment =>
      match stream.phase with
      | .reading chain following untried =>
          (chain.pump segment).map fun chain =>
            { stream with phase := .reading chain following untried }
      | _ => none
  | .consume =>
      match stream.phase with
      | .reading chain following untried =>
          chain.get.map (stream.receive answers following untried)
      | _ => none

end FailoverStream

end Tgdcfs
