import Tgdcfs.Replication.Queue

/-!
# Passes over the queue

`run_once` takes the items that are ready when it starts and replicates their
files one after another.  While one is replicated, other tasks enqueue files
and clear backoffs, and the workers of other file systems go on.  A failure
is recorded in the exception handler of `process_one`, so what `failed`
raises there ends the pass.
-/

namespace Tgdcfs

open Lib

/-- What another task does to the queue. -/
inductive QueueAction (π : Type) where
  | enqueue (fs : String) (path : π) (now : ℚ)
  | done (fs : String) (path : π)
  | failed (fs : String) (path : π) (error : String) (now : ℚ)
  | retryNow (only : Option String)

/-- Only the worker of a file system finishes its items. -/
def QueueAction.Foreign {π : Type} (fs : String) : QueueAction π → Prop
  | .enqueue _ _ _ => True
  | .done other _ => other ≠ fs
  | .failed other _ _ _ => other ≠ fs
  | .retryNow _ => True

/-- `gone` is a path that leads to no file any more. -/
inductive WorkOutcome where
  | gone
  | replicated
  | failed (error : String)

/-- What happens while one file is replicated, and when that ends. -/
structure Turn (π : Type) where
  outcome : WorkOutcome
  meanwhile : List (QueueAction π)
  now : ℚ

/-- What a pass did: the paths given to `process_one` and the number of files
that are done. -/
structure Pass (π : Type) where
  attempted : List π
  queue : ReplicationQueue π
  result : Except OverflowError Nat

namespace ReplicationQueue

variable {π : Type} [DecidableEq π]

def act (queue : ReplicationQueue π) : QueueAction π → ReplicationQueue π
  | .enqueue fs path now => queue.enqueue fs path now
  | .done fs path => queue.done fs path
  | .failed fs path error now => (queue.failed fs path error now).1
  | .retryNow only => queue.retryNow only

def processOne (queue : ReplicationQueue π) (fs : String) (path : π)
    (turn : Turn π) : ReplicationQueue π × Except OverflowError Bool :=
  match turn.outcome with
  | .gone => (queue.done fs path, .ok true)
  | .replicated => ((turn.meanwhile.foldl act queue).done fs path, .ok true)
  | .failed error =>
      match (turn.meanwhile.foldl act queue).failed fs path error
        turn.now with
      | (queue, .error overflow) => (queue, .error overflow)
      | (queue, .ok _) => (queue, .ok false)

/-- The loop of `run_once`.  Paths are queued once, so what happens during a
pass is told by path. -/
def processAll (fs : String) (turns : π → Turn π) :
    List (QueueItem π) → ReplicationQueue π → Pass π
  | [], queue => ⟨[], queue, .ok 0⟩
  | item :: items, queue =>
      match queue.processOne fs item.path (turns item.path) with
      | (queue, .error overflow) => ⟨[item.path], queue, .error overflow⟩
      | (queue, .ok finished) =>
          let pass := processAll fs turns items queue
          ⟨item.path :: pass.attempted, pass.queue,
            pass.result.map fun done => if finished then done + 1 else done⟩

def runOnce (queue : ReplicationQueue π) (fs : String) (turns : π → Turn π)
    (now : ℚ) : Pass π :=
  processAll fs turns (queue.ready fs now) queue

variable {queue : ReplicationQueue π} {fs : String} {path : π}

theorem failed_absent (absent : queue.item? fs path = none) (error : String)
    (now : ℚ) : queue.failed fs path error now = (queue, .ok ()) := by
  unfold failed
  rw [absent]

theorem failed_delayed {item : QueueItem π}
    (found : queue.item? fs path = some item)
    (delayable : Delayable item.attempts) (error : String) (now : ℚ) :
    ∃ after delay, delay ≤ RETRY_MAX_SECONDS ∧
      queue.failed fs path error now = (after, .ok ()) ∧
        after.item? fs path = some (backOff error (now + delay) item) := by
  obtain ⟨delay, answered⟩ :
      ∃ delay, retryDelay item.attempts = .ok delay :=
    ⟨_, if_pos ((powerFits_iff item.attempts).mpr delayable)⟩
  refine ⟨queue.changeItem fs path (backOff error (now + delay))
    (backOff_path error _), delay, retryDelay_le answered, ?_, ?_⟩
  · unfold failed
    rw [found]
    dsimp only
    rw [Int.add_sub_cancel, answered]
  · rw [item?_changeItem, if_pos ⟨rfl, rfl⟩, found, Option.map_some]

theorem failed_overflow {item : QueueItem π}
    (found : queue.item? fs path = some item)
    (overflows : ¬Delayable item.attempts) (error : String) (now : ℚ) :
    ∃ after,
      queue.failed fs path error now = (after, .error .intTooLarge) ∧
        after.item? fs path = some (recordFailure error item) := by
  have raised : retryDelay item.attempts = .error .intTooLarge :=
    if_neg fun fits => overflows ((powerFits_iff item.attempts).mp fits)
  refine ⟨queue.changeItem fs path (recordFailure error)
    (recordFailure_path error), ?_, ?_⟩
  · unfold failed
    rw [found]
    dsimp only
    rw [Int.add_sub_cancel, raised]
  · rw [item?_changeItem, if_pos ⟨rfl, rfl⟩, found, Option.map_some]

theorem item?_failed_of_ne (queue : ReplicationQueue π) {other : String}
    {otherPath : π} (elsewhere : ¬(other = fs ∧ otherPath = path))
    (error : String) (now : ℚ) :
    (queue.failed fs path error now).1.item? other otherPath =
      queue.item? other otherPath := by
  unfold failed
  split
  · rfl
  · split
    · dsimp only
      rw [item?_changeItem, if_neg elsewhere]
    · dsimp only
      rw [item?_changeItem, if_neg elsewhere]

/-- The item is queued with this many attempts. -/
def Counts (queue : ReplicationQueue π) (fs : String)
    (item : QueueItem π) : Prop :=
  ∃ queued, queue.item? fs item.path = some queued ∧
    queued.attempts = item.attempts

variable {queue : ReplicationQueue π} {fs : String} {item : QueueItem π}

variable (counts : Counts queue fs item)
include counts

theorem Counts.act {action : QueueAction π} (foreign : action.Foreign fs) :
    Counts (queue.act action) fs item := by
  obtain ⟨queued, found, attempts⟩ := counts
  cases action with
  | enqueue other path now =>
      refine ⟨queued, ?_, attempts⟩
      have kept := queue.item?_enqueue other fs path item.path now
      rw [if_neg, found] at kept
      · exact kept
      · rintro ⟨rfl, samePath, absent⟩
        rw [holds_eq, ← samePath, found] at absent
        cases absent
  | done other path =>
      refine ⟨queued, ?_, attempts⟩
      have kept := queue.item?_done other fs path item.path
      rw [if_neg fun here => foreign here.1.symm, found] at kept
      exact kept
  | failed other path error now =>
      refine ⟨queued, ?_, attempts⟩
      have elsewhere : ¬(fs = other ∧ item.path = path) :=
        fun here => foreign here.1.symm
      exact (queue.item?_failed_of_ne elsewhere error now).trans found
  | retryNow only =>
      have kept := queue.item?_retryNow only fs item.path
      rw [found] at kept
      split at kept
      · exact ⟨_, kept, attempts⟩
      · exact ⟨queued, kept, attempts⟩

theorem Counts.meanwhile {actions : List (QueueAction π)}
    (foreign : ∀ action ∈ actions, action.Foreign fs) :
    Counts (actions.foldl ReplicationQueue.act queue) fs item := by
  induction actions generalizing queue with
  | nil => exact counts
  | cons action actions induction =>
      apply induction
      · exact counts.act (foreign action List.mem_cons_self)
      · intro other member
        exact foreign other (List.mem_cons_of_mem action member)

theorem Counts.done (different : item.path ≠ path) :
    Counts (queue.done fs path) fs item := by
  obtain ⟨queued, found, attempts⟩ := counts
  refine ⟨queued, ?_, attempts⟩
  rw [item?_done, if_neg fun here => different here.2, found]

theorem Counts.failed (different : item.path ≠ path) (error : String) (now : ℚ)
    : Counts (queue.failed fs path error now).1 fs item := by
  obtain ⟨queued, found, attempts⟩ := counts
  refine ⟨queued, ?_, attempts⟩
  rw [item?_failed_of_ne queue fun here => different here.2, found]

theorem Counts.processOne (different : item.path ≠ path) {turn : Turn π}
    (foreign : ∀ action ∈ turn.meanwhile, action.Foreign fs) :
    Counts (queue.processOne fs path turn).1 fs item := by
  have later := counts.meanwhile foreign
  unfold ReplicationQueue.processOne
  split
  · exact counts.done different
  · exact later.done different
  · rename_i error _
    have kept := later.failed different error turn.now
    split
    · rename_i failure
      rw [failure] at kept
      exact kept
    · rename_i failure
      rw [failure] at kept
      exact kept

theorem processOne_ok (delayable : Delayable item.attempts) {turn : Turn π}
    (foreign : ∀ action ∈ turn.meanwhile, action.Foreign fs) :
    ∃ after finished,
      queue.processOne fs item.path turn = (after, .ok finished) := by
  obtain ⟨queued, found, attempts⟩ := counts.meanwhile foreign
  unfold processOne
  split
  · exact ⟨_, _, rfl⟩
  · exact ⟨_, _, rfl⟩
  · rename_i error _
    rw [← attempts] at delayable
    obtain ⟨after, _, _, failed, _⟩ :=
      failed_delayed found delayable error turn.now
    rw [failed]
    exact ⟨after, false, rfl⟩

omit counts

/-- A failure while nobody else touches the queue. -/
def failingTurn (π : Type) : Turn π :=
  { outcome := .failed "", meanwhile := [], now := 0 }

theorem processOne_overflow (counts : Counts queue fs item)
    (overflows : ¬Delayable item.attempts) :
    ∃ after, queue.processOne fs item.path (failingTurn π) =
      (after, .error .intTooLarge) := by
  obtain ⟨queued, found, attempts⟩ := counts
  rw [← attempts] at overflows
  obtain ⟨after, failed, _⟩ := failed_overflow found overflows "" 0
  refine ⟨after, ?_⟩
  unfold processOne failingTurn
  dsimp only [List.foldl_nil]
  rw [failed]

variable {turns : π → Turn π}

theorem processAll_ok {after : ReplicationQueue π} {finished : Bool}
    (items : List (QueueItem π))
    (served : queue.processOne fs item.path (turns item.path) =
      (after, .ok finished)) :
    (processAll fs turns (item :: items) queue).attempted =
      item.path :: (processAll fs turns items after).attempted := by
  simp only [processAll, served]

theorem processAll_error {after : ReplicationQueue π}
    {overflow : OverflowError} (items : List (QueueItem π))
    (raised : queue.processOne fs item.path (turns item.path) =
      (after, .error overflow)) :
    (processAll fs turns (item :: items) queue).attempted = [item.path] := by
  simp only [processAll, raised]

variable {items : List (QueueItem π)}

theorem counts_tail (distinct : ((item :: items).map QueueItem.path).Nodup)
    (counts : ∀ other ∈ item :: items, Counts queue fs other) {turn : Turn π}
    (foreign : ∀ action ∈ turn.meanwhile, action.Foreign fs) :
    ∀ other ∈ items,
      Counts (queue.processOne fs item.path turn).1 fs other := by
  intro other member
  rw [List.map_cons, List.nodup_cons] at distinct
  have different : other.path ≠ item.path := fun same =>
    distinct.1 (List.mem_map.mpr ⟨other, member, same⟩)
  apply (counts other (List.mem_cons_of_mem item member)).processOne different
  exact foreign

theorem processAll_attempts_all
    (foreign : ∀ path, ∀ action ∈ (turns path).meanwhile, action.Foreign fs)
    (distinct : (items.map QueueItem.path).Nodup)
    (counts : ∀ item ∈ items, Counts queue fs item)
    (delayable : ∀ item ∈ items.dropLast, Delayable item.attempts) :
    (processAll fs turns items queue).attempted =
      items.map QueueItem.path := by
  induction items generalizing queue with
  | nil => rfl
  | cons item items induction =>
      have tail := counts_tail distinct counts (foreign item.path)
      cases served : queue.processOne fs item.path (turns item.path) with
      | mk after result =>
      rw [served] at tail
      cases result with
      | ok finished =>
          rw [processAll_ok items served, List.map_cons]
          congr 1
          apply induction (List.nodup_cons.mp distinct).2 tail
          intro other member
          apply delayable other
          cases items with
          | nil => simp at member
          | cons next items => exact List.mem_cons_of_mem item member
      | error overflow =>
          cases items with
          | nil => exact processAll_error [] served
          | cons next items =>
              obtain ⟨_, _, ok⟩ := processOne_ok
                (counts item List.mem_cons_self) (delayable item (by simp))
                (foreign item.path)
              rw [ok] at served
              cases served

theorem delayable_of_attempts_all (distinct : (items.map QueueItem.path).Nodup)
    (counts : ∀ item ∈ items, Counts queue fs item)
    (all : (processAll fs (fun _ => failingTurn π) items queue).attempted =
      items.map QueueItem.path) :
    ∀ item ∈ items.dropLast, Delayable item.attempts := by
  induction items generalizing queue with
  | nil => simp
  | cons item items induction =>
      cases items with
      | nil => simp
      | cons next items =>
          have quiet : ∀ action ∈ (failingTurn π).meanwhile,
              action.Foreign fs := by simp [failingTurn]
          have first : Delayable item.attempts := by
            by_contra overflows
            obtain ⟨after, raised⟩ := processOne_overflow
              (counts item List.mem_cons_self) overflows
            rw [processAll_error (next :: items) raised] at all
            simp at all
          obtain ⟨after, finished, served⟩ := processOne_ok
            (counts item List.mem_cons_self) first quiet
          have tail := counts_tail distinct counts quiet
          rw [served] at tail
          rw [processAll_ok (next :: items) served, List.map_cons] at all
          have later := induction (List.nodup_cons.mp distinct).2 tail
            (List.cons.inj all).2
          intro other member
          rw [List.dropLast_cons_cons, List.mem_cons] at member
          rcases member with rfl | member
          · exact first
          · exact later other member

theorem mem_ready {now : ℚ} (member : item ∈ queue.ready fs now) :
    queue.item? fs item.path = some item := by
  have pending := List.mem_of_mem_filter member
  have listed := (List.perm_insertionSort _ _).mem_iff.mp pending
  obtain ⟨path, found⟩ := (Dict.mem_values_iff _ item).mp listed
  have same := (queue.ofFileSystem fs).path_of_get? found
  subst same
  exact found

omit [DecidableEq π] in
theorem ready_distinct (queue : ReplicationQueue π) (fs : String)
    (now : ℚ) : ((queue.ready fs now).map QueueItem.path).Nodup := by
  have pending : ((queue.pending fs).map QueueItem.path).Nodup :=
    ((List.perm_insertionSort _ _).map QueueItem.path).nodup_iff.mpr
      (distinct_paths (queue.ofFileSystem fs))
  exact pending.sublist (List.filter_sublist.map QueueItem.path)

/-- A failure is recorded, the item stays and gets a retry time at most
`RETRY_MAX_SECONDS` ahead, if and only if the item has a delay; and a pass attempts every item
that was ready, whatever happens during it, if and only if all of them but
the last have one. -/
theorem worker_serves_every_item {π : Type} [DecidableEq π]
    (queue : ReplicationQueue π) (fs : String) :
    (∀ path error now,
      (∃ after, queue.failed fs path error now = (after, .ok ()) ∧
        (∀ item, queue.item? fs path = some item →
          ∃ later, after.item? fs path = some later ∧
            later.path = item.path ∧ later.attempts = item.attempts + 1) ∧
        ∀ later, after.item? fs path = some later →
          later.notBefore ≤ now + RETRY_MAX_SECONDS) ↔
        ∀ item, queue.item? fs path = some item →
          Delayable item.attempts) ∧
    ∀ now,
      (∀ turns : π → Turn π,
        (∀ path, ∀ action ∈ (turns path).meanwhile, action.Foreign fs) →
          (queue.runOnce fs turns now).attempted =
            (queue.ready fs now).map QueueItem.path) ↔
        ∀ item ∈ (queue.ready fs now).dropLast,
          Delayable item.attempts := by
  constructor
  · intro path error now
    constructor
    · rintro ⟨after, completed, _⟩ item found
      by_contra overflows
      obtain ⟨_, raised, _⟩ := failed_overflow found overflows error now
      rw [raised] at completed
      cases completed
    · intro delayable
      cases found : queue.item? fs path with
      | none =>
          refine ⟨queue, failed_absent found error now, nofun, ?_⟩
          intro later other
          rw [found] at other
          cases other
      | some item =>
          obtain ⟨after, delay, bound, completed, changed⟩ :=
            failed_delayed found (delayable item found) error now
          refine ⟨after, completed, ?_, ?_⟩
          · rintro other ⟨⟩
            exact ⟨_, changed, rfl, rfl⟩
          · intro later listed
            rw [changed] at listed
            cases listed
            exact add_le_add_right bound now
  · intro now
    have distinct := queue.ready_distinct fs now
    have counts : ∀ item ∈ queue.ready fs now, Counts queue fs item :=
      fun item member => ⟨item, mem_ready member, rfl⟩
    constructor
    · intro all
      apply delayable_of_attempts_all distinct counts
      apply all
      intro path action member
      cases member
    · intro delayable turns foreign
      exact processAll_attempts_all foreign distinct counts delayable

/-- The first file failed 1024 times; the second was queued after it. -/
def longFailing : ReplicationQueue String :=
  { items := Dict.empty.set "fs"
      ((FileQueue.empty.add
        { path := "/a", queuedAt := 0, attempts := 1024 }).add
          { path := "/b", queuedAt := 1 }) }

/-- One more failure of the first file raises, the second file is not
attempted, and the next pass begins with the first one again. -/
theorem long_failing_starves :
    (∃ after, longFailing.failed "fs" "/a" "" 0 =
      (after, .error .intTooLarge)) ∧
    (longFailing.ready "fs" 0).map QueueItem.path = ["/a", "/b"] ∧
    (longFailing.runOnce "fs" (fun _ => failingTurn String) 0).attempted =
      ["/a"] ∧
    ((longFailing.runOnce "fs" (fun _ => failingTurn String) 0).queue.ready
      "fs" 0).map QueueItem.path = ["/a", "/b"] := by
  refine ⟨?_, by decide +kernel, by decide +kernel, by decide +kernel⟩
  have overflows : ¬Delayable 1024 :=
    fun delayable => absurd delayable.2 (by decide)
  have found : longFailing.item? "fs" "/a" =
      some { path := "/a", queuedAt := 0, attempts := 1024 } := rfl
  obtain ⟨after, raised, _⟩ := failed_overflow found overflows "" 0
  exact ⟨after, raised⟩

end ReplicationQueue

end Tgdcfs
