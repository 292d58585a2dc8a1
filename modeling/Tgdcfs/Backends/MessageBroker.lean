import Tgdcfs.Backends.MessageLookup
import Tgdcfs.Lib.Dict
import Tgdcfs.Lib.Run

/-!
# The message broker

Lookups wait for a collector task, which takes all that are pending, asks one
bot after the other for their messages and completes their futures.  The
blocks that hold the lock of the broker do not await, so it is never waited
for.  Everything else happens between two awaits; a task is at one of them or
has not run yet.
-/

namespace Tgdcfs

open Lib

namespace MessageBroker

structure Request where
  ids : List Int
  future : Nat

inductive Failure (ε : Type) where
  | raised (error : ε)
  | cancelledError
  /-- What a coroutine makes of the `StopIteration` of an empty cycle. -/
  | runtimeError

inductive Outcome (ε : Type) where
  | result (messages : List (Option MessageResp))
  | exception (failure : Failure ε)
  | cancelled

/-- Where a collector task stands: not run yet, in `sleep`, in `get_messages`
of a bot or in its `get_me`.  `left` counts the turns of the retry loop from
this one on. -/
inductive Collector (ε : Type) where
  | created
  | sleeping
  | fetching (inFlight : List Request) (left : Nat)
  | asking (inFlight : List Request) (left : Nat) (error : ε)

def Collector.inFlight {ε : Type} : Collector ε → List Request
  | created | sleeping => []
  | fetching inFlight _ | asking inFlight _ _ => inFlight

section Futures

variable {ε : Type}

/-- `future.done()`, from the completions so far. -/
def isDone (completed : List (Nat × Outcome ε)) (future : Nat) : Bool :=
  completed.any (·.1 = future)

/-- Complete a future that is not done. -/
def settleFuture (completed : List (Nat × Outcome ε)) (future : Nat)
    (outcome : Outcome ε) : List (Nat × Outcome ε) :=
  if isDone completed future then completed
  else completed ++ [(future, outcome)]

def settleAll (outcome : Request → Outcome ε) :
    List Request → List (Nat × Outcome ε) → List (Nat × Outcome ε)
  | [], completed => completed
  | request :: requests, completed =>
      settleAll outcome requests
        (settleFuture completed request.future (outcome request))

end Futures

/-- The answer to a request out of the fetched messages. -/
def answer (messages : List (Option MessageResp)) (ids : List Int) :
    List (Option MessageResp) :=
  let messagesMap : Dict Int MessageResp := .ofList
    ((excludeNone messages).map fun message => (message.messageId, message))
  ids.map messagesMap.get?

end MessageBroker

open MessageBroker in
/-- The broker with its tasks and futures.  `task` is the field; `collectors`
are the tasks that have not ended.  Futures are numbered as they are issued,
and `fetched` has the requests of each batch with the messages that a bot
answered. -/
structure MessageBroker (ε : Type) where
  requests : List Request
  task : Option Nat
  started : Nat
  collectors : Dict Nat (Collector ε)
  issued : List (List Int)
  fetched : List (List Request × List (Option MessageResp))
  completed : List (Nat × Outcome ε)

namespace MessageBroker

inductive Action (ε : Type) where
  /-- A lookup, with what the cache holds of its messages. -/
  | getMessages (ids : List Int) (cached : List (Option MessageResp))
  | cancelWaiter (future : Nat)
  /-- The first step of a collector. -/
  | start (task : Nat)
  /-- The window is over. -/
  | flush (task : Nat)
  | fetched (task : Nat) (messages : List (Option MessageResp))
  | fetchFails (task : Nat) (error : ε)
  /-- `get_me` returned. -/
  | named (task : Nat)
  /-- Something else is raised into the collector. -/
  | raises (task : Nat) (error : ε)
  | cancelCollector (task : Nat)

/-- The collector goes on by itself. -/
def Action.collects {ε : Type} : Action ε → Bool
  | start _ | flush _ | fetched _ _ | fetchFails _ _ | named _ => true
  | _ => false

variable {ε : Type}

def init : MessageBroker ε := ⟨[], none, 0, .empty, [], [], []⟩

def getMessages (ids : List Int) (cached : List (Option MessageResp))
    (broker : MessageBroker ε) : MessageBroker ε :=
  if cached ≠ [] ∧ cached.all Option.isSome then broker
  else
    let waiting := { broker with
      requests := broker.requests ++ [⟨ids, broker.issued.length⟩]
      issued := broker.issued ++ [ids] }
    if broker.task.isNone then
      { waiting with
        task := some broker.started
        started := broker.started + 1
        collectors := broker.collectors.set broker.started .created }
    else waiting

/-- A collector is at its next await. -/
def moves (task : Nat) (collector : Collector ε) (broker : MessageBroker ε) :
    MessageBroker ε :=
  { broker with collectors := broker.collectors.set task collector }

/-- The end of a turn of the loop in `__collect`. -/
def nextWindow (task : Nat) (broker : MessageBroker ε) : MessageBroker ε :=
  if broker.requests = [] then
    { broker with
      task := none
      collectors := broker.collectors.erase task }
  else broker.moves task .sleeping

/-- The handler of `__collect`. -/
def dies (task : Nat) (inFlight : List Request) (failure : Failure ε)
    (broker : MessageBroker ε) : MessageBroker ε :=
  { broker with
    requests := []
    task := none
    collectors := broker.collectors.erase task
    completed := settleAll (fun _ => .exception failure)
      (inFlight ++ broker.requests) broker.completed }

/-- A batch is complete. -/
def completes (task : Nat) (inFlight : List Request)
    (outcome : Request → Outcome ε) (broker : MessageBroker ε) :
    MessageBroker ε :=
  nextWindow task { broker with
    completed := settleAll outcome inFlight broker.completed }

def step (bots : Nat) (broker : MessageBroker ε) :
    Action ε → Option (MessageBroker ε)
  | .getMessages ids cached => some (broker.getMessages ids cached)
  | .cancelWaiter future =>
      if future < broker.issued.length then
        some { broker with
          completed := settleFuture broker.completed future .cancelled }
      else none
  | .start task =>
      match broker.collectors.get? task with
      | some .created => some (broker.moves task .sleeping)
      | _ => none
  | .flush task =>
      match broker.collectors.get? task with
      | some .sleeping =>
          let inFlight := broker.requests
          let taken := { broker with requests := [] }
          if inFlight = [] then some (taken.nextWindow task)
          else if bots = 0 then some (taken.dies task inFlight .runtimeError)
          else some (taken.moves task (.fetching inFlight (max 1 bots)))
      | _ => none
  | .fetched task messages =>
      match broker.collectors.get? task with
      | some (.fetching inFlight _) =>
          some (completes task inFlight
            (fun request => .result (answer messages request.ids))
            { broker with
              fetched := broker.fetched ++ [(inFlight, messages)] })
      | _ => none
  | .fetchFails task error =>
      match broker.collectors.get? task with
      | some (.fetching inFlight left) =>
          some (broker.moves task (.asking inFlight left error))
      | _ => none
  | .named task =>
      match broker.collectors.get? task with
      | some (.asking inFlight left error) =>
          if left ≤ 1 then
            some (broker.completes task inFlight
              fun _ => .exception (.raised error))
          else some (broker.moves task (.fetching inFlight (left - 1)))
      | _ => none
  | .raises task error =>
      match broker.collectors.get? task with
      | some (.fetching inFlight _) | some (.asking inFlight _ _) =>
          some (broker.dies task inFlight (.raised error))
      | _ => none
  | .cancelCollector task =>
      match broker.collectors.get? task with
      | none => none
      -- The coroutine is not in its `try` yet: no handler runs.
      | some .created =>
          some { broker with collectors := broker.collectors.erase task }
      | some collector =>
          some (broker.dies task collector.inFlight .cancelledError)

/-- A future is done. -/
def Done (broker : MessageBroker ε) (future : Nat) : Prop :=
  isDone broker.completed future = true

/-- The request of the future is pending or in the batch of a collector. -/
def Waiting (broker : MessageBroker ε) (future : Nat) : Prop :=
  (∃ request ∈ broker.requests, request.future = future) ∨
    ∃ task collector, broker.collectors.get? task = some collector ∧
      ∃ request ∈ collector.inFlight, request.future = future

/-- The answer has the fetched message for each id, or nothing if there is
none. -/
def Answers (messages : List (Option MessageResp)) (ids : List Int)
    (found : List (Option MessageResp)) : Prop :=
  List.Forall₂ (fun id entry =>
    (∀ message, entry = some message →
      some message ∈ messages ∧ message.messageId = id) ∧
    (entry = none → ∀ message, some message ∈ messages →
      message.messageId ≠ id)) ids found

/-- A future was completed with the answer to its request, fetched in a batch
that the request was in, or with an exception. -/
def Right (broker : MessageBroker ε) (completion : Nat × Outcome ε) : Prop :=
  ∃ ids, broker.issued[completion.1]? = some ids ∧
    ∀ found, completion.2 = .result found →
      ∃ inFlight messages, (inFlight, messages) ∈ broker.fetched ∧
        ⟨ids, completion.1⟩ ∈ inFlight ∧ Answers messages ids found

/-- The collector is not cancelled before its first step. -/
def RunsFirst (broker : MessageBroker ε) (action : Action ε) : Prop :=
  ∀ task, action = .cancelCollector task →
    ∀ collector, broker.collectors.get? task = some collector →
      collector ≠ .created

/-- Nobody waits in vain and nobody is answered twice.  As long as the
collector is not cancelled before its first step, a bounded number of its
steps completes every future that was issued. -/
structure AnswersEveryone (bots : Nat) (broker : MessageBroker ε) : Prop where
  waiting : ∀ future < broker.issued.length, ¬broker.Done future →
    broker.Waiting future
  one_collector : ∀ task other first second,
    broker.collectors.get? task = some first →
      broker.collectors.get? other = some second → task = other
  once : (broker.completed.map Prod.fst).Nodup
  right : ∀ completion ∈ broker.completed, broker.Right completion
  completes : ∀ actions later, Guarded (step bots) RunsFirst broker actions →
    run (step bots) broker actions = some later →
      4 * max 1 bots + 2 < (actions.filter Action.collects).length →
        ∀ future < broker.issued.length, later.Done future

end MessageBroker

end Tgdcfs
