import Mathlib.Data.List.Sort
import Tgdcfs.Core.RangeMap
import Tgdcfs.Lib.Dict
import Tgdcfs.Lib.Run

/-!
# Multi-source reads

`MultiSourceRead` shares one read between several stores.  A task runs
without interruption between two suspension points, so a step of the model
is one such stretch: a worker takes a piece, parks or leaves; a worker whose
download ended files or re-queues its piece; the consumer emits, parks or
ends.  Parked tasks run again only after a notification.  The label of a
step carries the scheduler's choice and the answers of the store.
-/

namespace Tgdcfs

open Lib

/-- Consecutive failures after which a store stops taking pieces. -/
def BENCH_AFTER : Nat := 2

def DEFAULT_SLOTS : Nat := 2

/-- One store's complete copy of a version, with the store's layout. -/
structure StoreView where
  key : String
  messageIds : List Int
  partSizes : List Nat
  slots : Nat := DEFAULT_SLOTS
  deriving DecidableEq, Repr

structure Piece where
  index : Nat
  begin_ : Int
  end_ : Int
  tried : List String := []
  deriving DecidableEq, Repr

/-- The errors a read ends with: the range no store can serve, or the piece
at which every worker had left. -/
inductive ReadError where
  | noStoreCanServe (begin_ end_ : Int)
  | everyStoreGaveUp (piece : Nat)
  deriving DecidableEq, Repr

/-- The arguments of a read; it is refused without a store. -/
structure ReadPlan where
  views : List StoreView
  size : Int
  begin_ : Int
  end_ : Int
  pieceSize : Nat
  window : Nat
  views_ne : views ≠ []

namespace ReadPlan

def step (plan : ReadPlan) : Nat := max 1 plan.pieceSize

/-- The length of `range(begin, end + 1, max(1, piece_size))`. -/
def pieceCount (plan : ReadPlan) : Nat :=
  ((plan.end_ + 1 - plan.begin_ + plan.step - 1) / plan.step).toNat

def piece (plan : ReadPlan) (index : Nat) : Piece :=
  let begin_ := plan.begin_ + index * plan.step
  { index := index
    begin_ := begin_
    end_ := min (begin_ + plan.pieceSize - 1) plan.end_ }

def pieces (plan : ReadPlan) : List Piece :=
  (List.range plan.pieceCount).map plan.piece

/-- How far ahead of the next piece to emit a piece may be claimed. -/
def reach (plan : ReadPlan) : Nat := max 1 plan.window

@[simp] theorem pieces_length (plan : ReadPlan) :
    plan.pieces.length = plan.pieceCount := by
  simp [pieces]

end ReadPlan

inductive WorkerPhase where
  | ready
  | waiting
  | fetching (piece : Piece)
  | done
  deriving DecidableEq, Repr

structure Worker where
  view : StoreView
  phase : WorkerPhase
  deriving DecidableEq, Repr

namespace Worker

/-- What a notification does to a worker. -/
def wake (worker : Worker) : Worker :=
  match worker.phase with
  | .waiting => ⟨worker.view, .ready⟩
  | _ => worker

/-- Whether the worker is fetching the piece with this index. -/
def holds (index : Nat) (worker : Worker) : Bool :=
  match worker.phase with
  | .fetching piece => piece.index == index
  | _ => false

/-- What a cancellation leaves of a worker. -/
def cancel (worker : Worker) : Worker := ⟨worker.view, .done⟩

end Worker

inductive ConsumerPhase where
  | ready
  | waiting
  | finished
  | raised (error : ReadError)
  deriving DecidableEq, Repr

def ConsumerPhase.wake : ConsumerPhase → ConsumerPhase
  | .waiting => .ready
  | phase => phase

/-- The state of one read.  `emitted` records what the consumer was handed,
with the index of the piece. -/
structure ReadState where
  pending : List Piece
  results : Dict Nat (List UInt8)
  nextToEmit : Nat
  failures : String → Nat
  benched : List String
  fatal : Option ReadError
  workers : List Worker
  consumer : ConsumerPhase
  emitted : List (Nat × List UInt8)

/-- The answer of a store to one download: it raises, possibly after some
bytes, or the bytes it delivers add up to `data`. -/
inductive Response where
  | raised
  | bytes (data : List UInt8)
  deriving DecidableEq, Repr

inductive ReadAction where
  | claim (worker : Nat)
  | fetched (worker : Nat) (responses : PartRange → Response)
  | consume

namespace ReadState

def initial (plan : ReadPlan) : ReadState :=
  { pending := plan.pieces
    results := Dict.empty
    nextToEmit := 0
    failures := fun _ => 0
    benched := []
    fatal := none
    workers := plan.views.flatMap fun view =>
      List.replicate (max 1 view.slots) ⟨view, .ready⟩
    consumer := .ready
    emitted := [] }

def notifyAll (state : ReadState) : ReadState :=
  { state with
    workers := state.workers.map Worker.wake
    consumer := state.consumer.wake }

def setPhase (state : ReadState) (position : Nat) (worker : Worker)
    (phase : WorkerPhase) : ReadState :=
  { state with
    workers := state.workers.set position ⟨worker.view, phase⟩ }

end ReadState

/-- The scan of `_claim` over the pieces not claimed yet. -/
def claimFrom (key : String) (limit : Nat) :
    List Piece → Option (Piece × List Piece)
  | [] => none
  | piece :: pending =>
      if limit ≤ piece.index then none
      else if key ∉ piece.tried then some (piece, pending)
      else
        (claimFrom key limit pending).map fun claimed =>
          (claimed.1, piece :: claimed.2)

/-- Download the parts of a piece one after the other. -/
def downloadParts (responses : PartRange → Response) :
    List PartRange → Option (List UInt8)
  | [] => some []
  | range :: ranges =>
      match responses range with
      | .raised => none
      | .bytes data => (downloadParts responses ranges).map (data ++ ·)

/-- The bytes of a piece; `none` stands for any exception. -/
def fetch (plan : ReadPlan) (view : StoreView) (piece : Piece)
    (responses : PartRange → Response) : Option (List UInt8) :=
  match mapRange view.messageIds view.partSizes plan.size piece.begin_
      piece.end_ with
  | .error _ => none
  | .ok ranges =>
      match downloadParts responses ranges with
      | none => none
      | some out =>
          if (out.length : Int) = piece.end_ - piece.begin_ + 1 then some out
          else none

namespace ReadState

/-- A worker looks for its next piece. -/
def claim (plan : ReadPlan) (state : ReadState) (position : Nat)
    (worker : Worker) : ReadState :=
  if state.fatal.isSome ∨ plan.pieces.length ≤ state.nextToEmit then
    state.setPhase position worker .done
  else if worker.view.key ∈ state.benched then
    state.setPhase position worker .done
  else
    match claimFrom worker.view.key (state.nextToEmit + plan.reach)
        state.pending with
    | some (piece, rest) =>
        { state.setPhase position worker (.fetching piece) with
          pending := rest }
    | none =>
        if state.pending.isEmpty &&
            !(plan.pieces.any fun piece =>
              decide (state.nextToEmit ≤ piece.index)) then
          state.setPhase position worker .done
        else state.setPhase position worker .waiting

/-- The stores benched once another piece has failed on `key`. -/
def benchedAfter (state : ReadState) (key : String) : List String :=
  if BENCH_AFTER ≤ state.failures key + 1 then key :: state.benched
  else state.benched

/-- The download of a piece failed on a worker's store. -/
def fetchFailed (plan : ReadPlan) (state : ReadState) (position : Nat)
    (worker : Worker) (piece : Piece) : ReadState :=
  let key := worker.view.key
  let failed : Piece := { piece with tried := key :: piece.tried }
  let benched := state.benchedAfter key
  let remaining := plan.views.filter fun view =>
    decide (view.key ∉ failed.tried) && decide (view.key ∉ benched)
  let counted : ReadState :=
    { state.setPhase position worker
        (if key ∈ benched then .done else .ready) with
      failures := fun other =>
        if other = key then state.failures key + 1 else state.failures other
      benched := benched }
  if remaining.isEmpty then
    { counted with
      fatal := some (.noStoreCanServe piece.begin_ piece.end_) }.notifyAll
  else
    { counted with
      pending := (state.pending ++ [failed]).insertionSort fun left right =>
        left.index ≤ right.index }.notifyAll

/-- The bytes of a piece arrived. -/
def fetchDone (state : ReadState) (position : Nat) (worker : Worker)
    (piece : Piece) (data : List UInt8) : ReadState :=
  { state.setPhase position worker .ready with
    failures := fun other =>
      if other = worker.view.key then 0 else state.failures other
    results := state.results.set piece.index data }.notifyAll

/-- The stream ends, normally or not, and its workers are cancelled. -/
def endStream (state : ReadState) (phase : ConsumerPhase) : ReadState :=
  { state with
    consumer := phase
    workers := state.workers.map Worker.cancel }

/-- Hand out the bytes of the next piece. -/
def emit (state : ReadState) (data : List UInt8) : ReadState :=
  { state with
    results := state.results.erase state.nextToEmit
    nextToEmit := state.nextToEmit + 1
    emitted := state.emitted ++ [(state.nextToEmit, data)] }.notifyAll

/-- The consumer asks for the next piece. -/
def consume (plan : ReadPlan) (state : ReadState) : ReadState :=
  if plan.pieces.length ≤ state.nextToEmit then state.endStream .finished
  else
    match state.fatal with
    | some error => state.endStream (.raised error)
    | none =>
        match state.results.get? state.nextToEmit with
        | none =>
            if state.workers.all (fun worker => worker.phase == .done) &&
                state.results.size == 0 then
              state.endStream (.raised (.everyStoreGaveUp state.nextToEmit))
            else { state with consumer := .waiting }
        | some data => state.emit data

end ReadState

def readStep (plan : ReadPlan) (state : ReadState) :
    ReadAction → Option ReadState
  | .claim position => do
      let worker ← state.workers[position]?
      if worker.phase = .ready then some (state.claim plan position worker)
      else none
  | .fetched position responses => do
      let worker ← state.workers[position]?
      match worker.phase with
      | .fetching piece =>
          match fetch plan worker.view piece responses with
          | none => some (state.fetchFailed plan position worker piece)
          | some data => some (state.fetchDone position worker piece data)
      | _ => none
  | .consume =>
      if state.consumer = .ready then some (state.consume plan) else none

/-- The cases of `readStep`, each with the tests that lead to it. -/
inductive ReadTransition (plan : ReadPlan) (state : ReadState) :
    ReadAction → ReadState → Prop where
  | stop {position : Nat} {worker : Worker}
      (here : state.workers[position]? = some worker)
      (ready : worker.phase = .ready)
      (reason : state.fatal.isSome ∨ plan.pieceCount ≤ state.nextToEmit ∨
        worker.view.key ∈ state.benched) :
      ReadTransition plan state (.claim position)
        (state.setPhase position worker .done)
  | take {position : Nat} {worker : Worker} {piece : Piece}
      {rest : List Piece}
      (here : state.workers[position]? = some worker)
      (ready : worker.phase = .ready)
      (claimed : claimFrom worker.view.key
        (state.nextToEmit + plan.reach) state.pending = some (piece, rest)) :
      ReadTransition plan state (.claim position)
        { state.setPhase position worker (.fetching piece) with
          pending := rest }
  | park {position : Nat} {worker : Worker}
      (here : state.workers[position]? = some worker)
      (ready : worker.phase = .ready)
      (nothing : claimFrom worker.view.key
        (state.nextToEmit + plan.reach) state.pending = none) :
      ReadTransition plan state (.claim position)
        (state.setPhase position worker .waiting)
  | fail {position : Nat} {worker : Worker} {piece : Piece}
      {responses : PartRange → Response}
      (here : state.workers[position]? = some worker)
      (busy : worker.phase = .fetching piece)
      (failed : fetch plan worker.view piece responses = none) :
      ReadTransition plan state (.fetched position responses)
        (state.fetchFailed plan position worker piece)
  | store {position : Nat} {worker : Worker} {piece : Piece}
      {responses : PartRange → Response} {data : List UInt8}
      (here : state.workers[position]? = some worker)
      (busy : worker.phase = .fetching piece)
      (arrived : fetch plan worker.view piece responses = some data) :
      ReadTransition plan state (.fetched position responses)
        (state.fetchDone position worker piece data)
  | finish (all : plan.pieceCount ≤ state.nextToEmit) :
      ReadTransition plan state .consume (state.endStream .finished)
  | raise {error : ReadError} (failed : state.fatal = some error) :
      ReadTransition plan state .consume (state.endStream (.raised error))
  | giveUp (more : state.nextToEmit < plan.pieceCount)
      (healthy : state.fatal = none)
      (missing : state.results.get? state.nextToEmit = none)
      (left : ∀ worker ∈ state.workers, worker.phase = .done) :
      ReadTransition plan state .consume
        (state.endStream (.raised (.everyStoreGaveUp state.nextToEmit)))
  | wait (more : state.nextToEmit < plan.pieceCount)
      (healthy : state.fatal = none)
      (missing : state.results.get? state.nextToEmit = none) :
      ReadTransition plan state .consume { state with consumer := .waiting }
  | emit {data : List UInt8} (more : state.nextToEmit < plan.pieceCount)
      (found : state.results.get? state.nextToEmit = some data) :
      ReadTransition plan state .consume (state.emit data)

variable {state : ReadState}

private theorem claim_transition {plan : ReadPlan} {position : Nat}
    {worker : Worker} (here : state.workers[position]? = some worker)
    (ready : worker.phase = .ready) :
    ReadTransition plan state (.claim position)
      (state.claim plan position worker) := by
  unfold ReadState.claim
  rw [plan.pieces_length]
  split
  · rename_i ended
    exact .stop here ready (ended.elim .inl fun all => .inr (.inl all))
  · rename_i active
    split
    · rename_i benched
      exact .stop here ready (.inr (.inr benched))
    · cases claimed : claimFrom worker.view.key
          (state.nextToEmit + plan.reach) state.pending with
      | some result =>
          obtain ⟨piece, rest⟩ := result
          exact .take here ready claimed
      | none =>
          dsimp only
          split
          · rename_i passed
            exfalso
            have more : state.nextToEmit < plan.pieceCount := by
              apply Nat.lt_of_not_le
              intro all
              exact active (.inr all)
            have member : plan.piece state.nextToEmit ∈ plan.pieces :=
              List.mem_map.mpr ⟨_, List.mem_range.mpr more, rfl⟩
            simp only [Bool.and_eq_true, Bool.not_eq_true',
              List.any_eq_false, decide_eq_true_eq] at passed
            exact passed.2 _ member le_rfl
          · exact .park here ready claimed

private theorem consume_transition {plan : ReadPlan} :
    ReadTransition plan state .consume (state.consume plan) := by
  unfold ReadState.consume
  rw [plan.pieces_length]
  split
  · rename_i all
    exact .finish all
  · rename_i unfinished
    have more := Nat.lt_of_not_le unfinished
    split
    · rename_i error failed
      exact .raise failed
    · rename_i healthy
      split
      · rename_i missing
        split
        · rename_i passed
          refine .giveUp more healthy missing ?_
          intro worker member
          have left := (Bool.and_eq_true_iff.mp passed).1
          rw [List.all_eq_true] at left
          exact eq_of_beq (left worker member)
        · exact .wait more healthy missing
      · rename_i data found
        exact .emit more found

theorem readStep_transition {plan : ReadPlan} {after : ReadState}
    {action : ReadAction} (taken : readStep plan state action = some after) :
    ReadTransition plan state action after := by
  cases action with
  | claim position =>
      obtain ⟨worker, here, next⟩ := Option.bind_eq_some_iff.mp taken
      split at next
      · rename_i ready
        cases next
        exact claim_transition here ready
      · cases next
  | fetched position responses =>
      obtain ⟨worker, here, next⟩ := Option.bind_eq_some_iff.mp taken
      split at next
      · rename_i piece busy
        split at next
        · rename_i failed
          cases next
          exact .fail here busy failed
        · rename_i data arrived
          cases next
          exact .store here busy arrived
      · cases next
  | consume =>
      simp only [readStep] at taken
      split at taken
      · cases taken
        exact consume_transition
      · cases taken

end Tgdcfs
