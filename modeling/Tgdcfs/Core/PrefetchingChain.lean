import Mathlib.Tactic.Common
import Tgdcfs.Lib.Lists

/-!
# The prefetching chain

`prefetching_chain` concatenates byte streams and reads several of them ahead
of the caller.  Every running source has a pump that drains it into a bounded
queue; the consumer takes items from the queue of the current source only.
What ended a source travels through its queue, so that an error surfaces
where the bytes of the source belong.

The outcome of a chain is what it still delivers and the error after it.  No
pump and no opening of a window changes it.
-/

namespace Tgdcfs

open Lib

variable {ε : Type*}

/-- A byte stream to its end: its chunks, and the error it raises then. -/
structure ByteStream (ε : Type*) where
  chunks : List (List UInt8)
  error : Option ε
  deriving DecidableEq, Repr

/-- What a pump puts into its queue. -/
inductive ChainItem (ε : Type*) where
  | chunk (bytes : List UInt8)
  | finished (error : Option ε)
  deriving DecidableEq, Repr

def ByteStream.items (source : ByteStream ε) : List (ChainItem ε) :=
  source.chunks.map .chunk ++ [.finished source.error]

/-- A source being read: what waits in its queue, and what its pump has
still to put there. -/
structure Segment (ε : Type*) where
  queue : List (ChainItem ε)
  pending : List (ChainItem ε)
  deriving DecidableEq, Repr

/-- A chain from its current source on: the segments of the window and the
sources behind it. -/
structure PrefetchingChain (ε : Type*) where
  concurrency : Nat
  queueDepth : Nat
  segments : List (Segment ε)
  waiting : List (ByteStream ε)
  deriving DecidableEq, Repr

def DEFAULT_QUEUE_DEPTH : Nat := 2

/-- The bytes up to the first end marker, and the error it carries. -/
def itemsOutcome : List (ChainItem ε) → List UInt8 × Option ε
  | [] => ([], none)
  | .chunk bytes :: rest =>
      (bytes ++ (itemsOutcome rest).1, (itemsOutcome rest).2)
  | .finished error :: _ => ([], error)

/-- One outcome after the other, up to the first error. -/
def joinOutcomes :
    List (List UInt8 × Option ε) → List UInt8 × Option ε
  | [] => ([], none)
  | (bytes, some error) :: _ => (bytes, some error)
  | (bytes, none) :: rest =>
      (bytes ++ (joinOutcomes rest).1, (joinOutcomes rest).2)

def ByteStream.outcome (source : ByteStream ε) : List UInt8 × Option ε :=
  (source.chunks.flatten, source.error)

namespace Segment

def start (source : ByteStream ε) : Segment ε := ⟨[], source.items⟩

/-- Everything the segment still has to deliver. -/
def rest (segment : Segment ε) : List (ChainItem ε) :=
  segment.queue ++ segment.pending

def outcome (segment : Segment ε) : List UInt8 × Option ε :=
  itemsOutcome segment.rest

/-- `_pump`: the next item goes into the queue when there is room. -/
def pump (depth : Nat) (segment : Segment ε) : Option (Segment ε) :=
  match segment.pending with
  | [] => none
  | item :: later =>
      if segment.queue.length < depth then
        some ⟨segment.queue ++ [item], later⟩
      else none

/-- Items count twice until they are in the queue. -/
def work (segment : Segment ε) : Nat :=
  segment.queue.length + 2 * segment.pending.length

end Segment

namespace PrefetchingChain

/-- `start_window`: keep the next `concurrency` sources running. -/
def startWindow (chain : PrefetchingChain ε) : PrefetchingChain ε :=
  let room := chain.concurrency - chain.segments.length
  { chain with
    segments := chain.segments ++ (chain.waiting.take room).map Segment.start
    waiting := chain.waiting.drop room }

/-- `prefetching_chain` up to its first suspension. -/
def start (sources : List (ByteStream ε)) (concurrency queueDepth : Nat) :
    PrefetchingChain ε :=
  startWindow
    { concurrency := max 1 concurrency
      queueDepth := max 1 queueDepth
      segments := []
      waiting := sources }

/-- The pump of one segment makes a step. -/
def pump (chain : PrefetchingChain ε) (index : Nat) :
    Option (PrefetchingChain ε) :=
  (chain.segments[index]?.bind (Segment.pump chain.queueDepth)).map
    fun segment => { chain with segments := chain.segments.set index segment }

end PrefetchingChain

/-- What the consumer gets from a chain. -/
inductive ChainAnswer (ε : Type*) where
  | yielded (bytes : List UInt8) (chain : PrefetchingChain ε)
  | advanced (chain : PrefetchingChain ε)
  | raised (error : ε)
  | ended

namespace PrefetchingChain

/-- The consumer takes one item; `none` while the queue is empty. -/
def get (chain : PrefetchingChain ε) : Option (ChainAnswer ε) :=
  match chain.segments with
  | [] => some .ended
  | segment :: later =>
      match segment.queue with
      | [] => none
      | .chunk bytes :: queue =>
          some (.yielded bytes
            { chain with segments := ⟨queue, segment.pending⟩ :: later })
      | .finished none :: _ =>
          some (.advanced (startWindow { chain with segments := later }))
      | .finished (some error) :: _ => some (.raised error)

/-- What the chain still delivers, and the error it raises then. -/
def outcome (chain : PrefetchingChain ε) : List UInt8 × Option ε :=
  joinOutcomes
    (chain.segments.map Segment.outcome ++
      chain.waiting.map ByteStream.outcome)

def sourceWork (source : ByteStream ε) : Nat := (Segment.start source).work

/-- How many steps are left at most. -/
def work (chain : PrefetchingChain ε) : Nat :=
  (chain.segments.map fun segment => segment.work + 1).sum +
    (chain.waiting.map fun source => sourceWork source + 1).sum

/-- Every segment has its end marker ahead, and sources wait only behind an
open window. -/
structure WellFormed (chain : PrefetchingChain ε) : Prop where
  room : 0 < chain.concurrency
  depth : 0 < chain.queueDepth
  marked : ∀ segment ∈ chain.segments,
    ∃ error, ChainItem.finished error ∈ segment.rest
  windowed : chain.segments = [] → chain.waiting = []

end PrefetchingChain

theorem itemsOutcome_items (source : ByteStream ε) :
    itemsOutcome source.items = source.outcome := by
  rw [ByteStream.items, ByteStream.outcome]
  induction source.chunks with
  | nil => rfl
  | cons bytes rest induction =>
      rw [List.map_cons, List.cons_append, itemsOutcome, induction]
      rfl

namespace Segment

theorem start_outcome (source : ByteStream ε) :
    (start source).outcome = source.outcome :=
  itemsOutcome_items source

theorem start_marked (source : ByteStream ε) :
    ∃ error, ChainItem.finished error ∈ (start source).rest :=
  ⟨source.error, List.mem_append_right _ (List.mem_append_right _
    List.mem_cons_self)⟩

/-- A pump moves one item and changes nothing of what is to come. -/
theorem pump_some {depth : Nat} {segment next : Segment ε}
    (moved : segment.pump depth = some next) :
    next.rest = segment.rest ∧ next.work < segment.work := by
  unfold pump at moved
  split at moved
  · cases moved
  · rename_i item later left
    split at moved
    · cases moved
      constructor
      · simp [rest, left]
      · simp only [work, left, List.length_append, List.length_cons,
          List.length_nil]
        omega
    · cases moved

/-- A segment with an empty queue has something to put there. -/
theorem pump_ready {depth : Nat} {segment : Segment ε} (room : 0 < depth)
    (empty : segment.queue = [])
    (marked : ∃ error, ChainItem.finished error ∈ segment.rest) :
    ∃ next, segment.pump depth = some next := by
  obtain ⟨error, ahead⟩ := marked
  rw [rest, empty, List.nil_append] at ahead
  cases left : segment.pending with
  | nil =>
      rw [left] at ahead
      cases ahead
  | cons item later =>
      refine ⟨⟨segment.queue ++ [item], later⟩, ?_⟩
      simp [pump, left, empty, room]

end Segment

namespace PrefetchingChain

variable {chain next : PrefetchingChain ε}

theorem startWindow_outcome (chain : PrefetchingChain ε) :
    chain.startWindow.outcome = chain.outcome := by
  simp only [outcome, startWindow, List.map_append, List.map_map,
    List.append_assoc]
  congr 2
  have started : Segment.outcome ∘ Segment.start =
      (ByteStream.outcome : ByteStream ε → _) :=
    funext Segment.start_outcome
  rw [started, ← List.map_append, List.take_append_drop]

theorem startWindow_work (chain : PrefetchingChain ε) :
    chain.startWindow.work = chain.work := by
  simp only [work, startWindow, List.map_append, List.map_map,
    List.sum_append, Nat.add_assoc]
  congr 1
  have split_ := congrArg
    (fun sources => (List.map (fun source =>
      sourceWork source + 1) sources).sum)
    (List.take_append_drop (chain.concurrency - chain.segments.length)
      chain.waiting)
  simp only [List.map_append, List.sum_append] at split_
  exact split_

theorem startWindow_wellFormed (room : 0 < chain.concurrency)
    (depth : 0 < chain.queueDepth)
    (marked : ∀ segment ∈ chain.segments,
      ∃ error, ChainItem.finished error ∈ segment.rest) :
    chain.startWindow.WellFormed := by
  refine ⟨room, depth, ?_, ?_⟩
  · intro segment member
    rcases List.mem_append.mp member with running | started
    · exact marked segment running
    · obtain ⟨source, _, rfl⟩ := List.mem_map.mp started
      exact Segment.start_marked source
  · intro closed
    obtain ⟨idle, empty⟩ := List.append_eq_nil_iff.mp closed
    have open_ : 0 < chain.concurrency - chain.segments.length := by
      rw [idle]
      exact room
    change chain.waiting.drop _ = []
    cases left : chain.waiting with
    | nil => exact List.drop_nil
    | cons source later =>
        rw [left] at empty
        obtain ⟨count, same⟩ := Nat.exists_eq_succ_of_ne_zero
          (Nat.ne_of_gt open_)
        rw [same] at empty
        cases empty

theorem start_wellFormed (sources : List (ByteStream ε))
    (concurrency queueDepth : Nat) :
    (start sources concurrency queueDepth).WellFormed := by
  apply startWindow_wellFormed
  · exact Nat.lt_of_lt_of_le Nat.zero_lt_one (Nat.le_max_left _ _)
  · exact Nat.lt_of_lt_of_le Nat.zero_lt_one (Nat.le_max_left _ _)
  · intro segment member
    cases member

theorem start_outcome (sources : List (ByteStream ε))
    (concurrency queueDepth : Nat) :
    (start sources concurrency queueDepth).outcome =
      joinOutcomes (sources.map ByteStream.outcome) :=
  startWindow_outcome _

/-- A pump changes neither the outcome nor the shape, and makes progress. -/
theorem pump_some {index : Nat} (wellFormed : chain.WellFormed)
    (moved : chain.pump index = some next) :
    next.outcome = chain.outcome ∧ next.WellFormed ∧
      next.work < chain.work := by
  obtain ⟨segment, put, rfl⟩ := Option.map_eq_some_iff.mp moved
  obtain ⟨old, found, put⟩ := Option.bind_eq_some_iff.mp put
  obtain ⟨same, less⟩ := Segment.pump_some put
  refine ⟨?_, ⟨wellFormed.room, wellFormed.depth, ?_, ?_⟩, ?_⟩
  · simp only [outcome]
    rw [map_set_of_eq Segment.outcome found (congrArg itemsOutcome same)]
  · intro other member
    rcases List.mem_or_eq_of_mem_set member with running | rfl
    · exact wellFormed.marked other running
    · rw [same]
      exact wellFormed.marked old (List.mem_of_getElem? found)
  · intro empty
    apply wellFormed.windowed
    simpa using empty
  · simp only [work]
    apply Nat.add_lt_add_right
    exact sum_map_set_lt (fun segment : Segment ε => segment.work + 1) found
      (Nat.add_lt_add_right less 1)

/-- A chunk that is handed out is the next part of the outcome. -/
theorem get_yielded {bytes : List UInt8} (wellFormed : chain.WellFormed)
    (taken : chain.get = some (.yielded bytes next)) :
    chain.outcome = (bytes ++ next.outcome.1, next.outcome.2) ∧
      next.WellFormed ∧ next.work < chain.work := by
  unfold get at taken
  split at taken
  · cases taken
  · rename_i segment later running
    split at taken
    · cases taken
    · rename_i chunk queue front
      cases taken
      refine ⟨?_, ⟨wellFormed.room, wellFormed.depth, ?_, ?_⟩, ?_⟩
      · simp only [outcome, running, List.map_cons, List.cons_append]
        simp only [Segment.outcome, Segment.rest, front, List.cons_append,
          itemsOutcome]
        cases itemsOutcome (queue ++ segment.pending) with
        | mk delivered error =>
            cases error with
            | none => simp [joinOutcomes]
            | some error => simp [joinOutcomes]
      · intro other member
        rcases List.mem_cons.mp member with rfl | behind
        · obtain ⟨error, ahead⟩ := wellFormed.marked segment
            (running ▸ List.mem_cons_self)
          refine ⟨error, ?_⟩
          rw [Segment.rest, front, List.cons_append] at ahead
          rcases List.mem_cons.mp ahead with first | rest
          · cases first
          · exact rest
        · exact wellFormed.marked other
            (running ▸ List.mem_cons_of_mem _ behind)
      · intro empty
        cases empty
      · simp only [work, running, List.map_cons, List.sum_cons,
          Segment.work, front, List.length_cons]
        omega
    · cases taken
    · cases taken

/-- Going on with the next source changes nothing of what is to come. -/
theorem get_advanced (wellFormed : chain.WellFormed)
    (taken : chain.get = some (.advanced next)) :
    next.outcome = chain.outcome ∧ next.WellFormed ∧
      next.work < chain.work := by
  unfold get at taken
  split at taken
  · cases taken
  · rename_i segment later running
    split at taken
    · cases taken
    · cases taken
    · rename_i queue front
      cases taken
      refine ⟨?_, ?_, ?_⟩
      · rw [startWindow_outcome]
        simp only [outcome, running, List.map_cons, List.cons_append]
        simp only [Segment.outcome, Segment.rest, front, List.cons_append,
          itemsOutcome, joinOutcomes, List.nil_append]
      · apply startWindow_wellFormed
        · exact wellFormed.room
        · exact wellFormed.depth
        · intro other behind
          exact wellFormed.marked other
            (running ▸ List.mem_cons_of_mem _ behind)
      · rw [startWindow_work]
        simp only [work, running, List.map_cons, List.sum_cons]
        omega
    · cases taken

theorem get_raised {error : ε} (taken : chain.get = some (.raised error)) :
    chain.outcome = ([], some error) := by
  unfold get at taken
  split at taken
  · cases taken
  · rename_i segment later running
    split at taken
    · cases taken
    · cases taken
    · cases taken
    · rename_i failure queue front
      cases taken
      simp only [outcome, running, List.map_cons, List.cons_append]
      simp only [Segment.outcome, Segment.rest, front, List.cons_append,
        itemsOutcome, joinOutcomes]

theorem get_ended (wellFormed : chain.WellFormed)
    (taken : chain.get = some .ended) : chain.outcome = ([], none) := by
  unfold get at taken
  split at taken
  · rename_i idle
    simp [outcome, idle, wellFormed.windowed idle, joinOutcomes]
  · split at taken
    · cases taken
    · cases taken
    · cases taken
    · cases taken

/-- The consumer waits only while a pump has something for it. -/
theorem get_none (wellFormed : chain.WellFormed)
    (waits : chain.get = none) : ∃ next, chain.pump 0 = some next := by
  unfold get at waits
  split at waits
  · cases waits
  · rename_i segment later running
    split at waits
    · rename_i empty
      obtain ⟨next, put⟩ := Segment.pump_ready wellFormed.depth empty
        (wellFormed.marked segment (running ▸ List.mem_cons_self))
      refine ⟨{ chain with segments := chain.segments.set 0 next }, ?_⟩
      simp [pump, running, put]
    · cases waits
    · cases waits
    · cases waits

end PrefetchingChain

end Tgdcfs
