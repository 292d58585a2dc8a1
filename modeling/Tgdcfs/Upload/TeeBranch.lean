import Tgdcfs.Lib.Run
import Tgdcfs.Upload.Message

/-!
# One branch of a tee

A branch is a bounded queue of chunks between the reads of the primary and
the upload of one mirror.  Its condition variable is modelled with the
notifications: a task that waits goes on only after it was notified, and looks
at its condition again.  The lock of the condition is never held across an
await, so every turn between two awaits is one step.
-/

namespace Tgdcfs

open Lib

structure TeeBranch where
  capacity : Nat
  chunks : List Bytes
  buffered : Nat
  eof : Bool
  detached : Bool

namespace TeeBranch

def new (capacity : Nat) : TeeBranch := ⟨max 1 capacity, [], 0, false, false⟩

/-- The loop condition of `feed`. -/
def FeedWaits (branch : TeeBranch) (data : Bytes) : Prop :=
  branch.buffered ≠ 0 ∧ branch.capacity < branch.buffered + data.length ∧
    branch.detached = false

instance (branch : TeeBranch) (data : Bytes) :
    Decidable (branch.FeedWaits data) :=
  inferInstanceAs (Decidable (_ ∧ _ ∧ _))

/-- The loop condition of `stream`. -/
def StreamWaits (branch : TeeBranch) : Prop :=
  branch.chunks = [] ∧ branch.eof = false ∧ branch.detached = false

instance (branch : TeeBranch) : Decidable branch.StreamWaits :=
  inferInstanceAs (Decidable (_ ∧ _ ∧ _))

def enqueue (branch : TeeBranch) (data : Bytes) : TeeBranch :=
  { branch with
    chunks := branch.chunks ++ [data]
    buffered := branch.buffered + data.length }

def finish (branch : TeeBranch) : TeeBranch := { branch with eof := true }

def detach (branch : TeeBranch) : TeeBranch :=
  { branch with
    detached := true
    chunks := []
    buffered := 0 }

end TeeBranch

/-- Where the producer is: outside of `feed`, or in its wait. -/
inductive TeeProducer where
  | idle
  | waiting (data : Bytes) (notified : Bool)

/-- Where the consumer is: at a `yield`, in the wait of `stream`, or behind
the end of the generator. -/
inductive TeeConsumer where
  | idle
  | waiting (notified : Bool)
  | ended
  | failed
  | closed

/-- The bytes of a chunk that waits to be queued. -/
def TeeProducer.pending : TeeProducer → Bytes
  | idle => []
  | waiting data _ => data

/-- A branch with its two tasks.  `fed` are the chunks that `feed` was called
with, `delivered` those that `stream` yielded, and `finished` is what had been
fed when `finish` was first called. -/
structure TeeStream where
  branch : TeeBranch
  producer : TeeProducer
  consumer : TeeConsumer
  fed : List Bytes
  delivered : List Bytes
  finished : Option Bytes

inductive TeeStreamAction where
  | feed (data : Bytes)
  | finish
  | detach
  | wakeProducer
  /-- The consumer asks for the next chunk. -/
  | next
  | wakeConsumer
  /-- `aclose` of the generator. -/
  | close

namespace TeeStream

def new (capacity : Nat) : TeeStream :=
  ⟨.new capacity, .idle, .idle, [], [], none⟩

def notifyAll (stream : TeeStream) : TeeStream :=
  { stream with
    producer :=
      match stream.producer with
      | .idle => .idle
      | .waiting data _ => .waiting data true
    consumer :=
      match stream.consumer with
      | .waiting _ => .waiting true
      | other => other }

/-- `feed` from its loop on. -/
def feedTurn (stream : TeeStream) (data : Bytes) : TeeStream :=
  if stream.branch.FeedWaits data then
    { stream with producer := .waiting data false }
  else if stream.branch.detached then { stream with producer := .idle }
  else
    notifyAll { stream with
      branch := stream.branch.enqueue data
      producer := .idle }

def feed (stream : TeeStream) (data : Bytes) : TeeStream :=
  let called := { stream with fed := stream.fed ++ [data] }
  if data = [] ∨ stream.branch.detached then called
  else called.feedTurn data

def finish (stream : TeeStream) : TeeStream :=
  notifyAll { stream with
    branch := stream.branch.finish
    finished := some (stream.finished.getD stream.fed.flatten) }

def detach (stream : TeeStream) : TeeStream :=
  notifyAll { stream with branch := stream.branch.detach }

/-- One turn of the loop of `stream`. -/
def streamTurn (stream : TeeStream) : TeeStream :=
  if stream.branch.StreamWaits then
    { stream with consumer := .waiting false }
  else if stream.branch.detached then { stream with consumer := .failed }
  else
    match stream.branch.chunks with
    | [] => { stream with consumer := .ended }
    | data :: chunks =>
        notifyAll { stream with
          branch := { stream.branch with
            chunks := chunks
            buffered := stream.branch.buffered - data.length }
          consumer := .idle
          delivered := stream.delivered ++ [data] }

def close (stream : TeeStream) : TeeStream :=
  { stream with
    consumer :=
      match stream.consumer with
      | .idle | .waiting _ => .closed
      | other => other }

/-- There is one producer: it calls `feed` and `finish` one after the
other. -/
def step (stream : TeeStream) : TeeStreamAction → Option TeeStream
  | .feed data =>
      match stream.producer with
      | .idle => some (stream.feed data)
      | .waiting _ _ => none
  | .finish =>
      match stream.producer with
      | .idle => some stream.finish
      | .waiting _ _ => none
  | .detach => some stream.detach
  | .wakeProducer =>
      match stream.producer with
      | .waiting data true => some (stream.feedTurn data)
      | _ => none
  | .next =>
      match stream.consumer with
      | .idle => some stream.streamTurn
      | _ => none
  | .wakeConsumer =>
      match stream.consumer with
      | .waiting true => some stream.streamTurn
      | _ => none
  | .close => some stream.close

/-- The length of the longest chunk. -/
def longestChunk (chunks : List Bytes) : Nat :=
  (chunks.map List.length).foldr max 0

/-- The bytes are delivered in order, all that were fed before `finish` when
the stream ends, and no more than fit are held.  Whoever waits without having
been notified has to wait.  A branch that was detached holds nothing and lets
its producer go on; if the stream had not ended, its consumer gets an error
and never an end. -/
structure Faithful (stream : TeeStream) : Prop where
  in_order : stream.delivered.flatten <+: stream.fed.flatten
  whole : stream.consumer = .ended → ∃ fed, stream.finished = some fed ∧
    fed <+: stream.delivered.flatten ∧
      (stream.fed.flatten = fed → stream.delivered.flatten = fed)
  bounded : stream.branch.buffered ≤
    max stream.branch.capacity (longestChunk stream.fed)
  producer_waits : ∀ data, stream.producer = .waiting data false →
    stream.branch.FeedWaits data
  consumer_waits : stream.consumer = .waiting false →
    stream.branch.StreamWaits
  empty : stream.branch.detached = true → stream.branch.buffered = 0
  not_blocked : stream.branch.detached = true →
    (∀ data called, stream.step (.feed data) = some called →
      called.producer = .idle) ∧
    ∀ data notified, stream.producer = .waiting data notified →
      ∃ woken, stream.step .wakeProducer = some woken ∧
        woken.producer = .idle
  raises : stream.branch.detached = true → stream.consumer = .idle →
    ∃ failed, stream.step .next = some failed ∧ failed.consumer = .failed
  raises_waiting : stream.branch.detached = true → ∀ notified,
    stream.consumer = .waiting notified →
      ∃ failed, stream.step .wakeConsumer = some failed ∧
        failed.consumer = .failed
  stays : stream.branch.detached = true → ∀ actions later,
    run step stream actions = some later →
      later.branch.detached = true ∧
        later.delivered = stream.delivered ∧
        (stream.consumer ≠ .ended → later.consumer ≠ .ended)

end TeeStream

end Tgdcfs
