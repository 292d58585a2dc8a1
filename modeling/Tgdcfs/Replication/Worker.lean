import Tgdcfs.Lib.Run
import Tgdcfs.Replication.Queue
import Mathlib.Logic.Function.Basic

/-!
# Replicating queued files

Writers record versions and enqueue the path of the file they wrote.
`process_one` reads the descriptor of a queued file, copies its versions and
takes the path off the queue when nothing failed.  Any number of calls may be
in progress, and every await of one is a point where the others go on.

The versions that were written, the time of the last enqueue and the versions
that replication has seen are kept beside the state for the statements only.
-/

namespace Tgdcfs

open Lib

/-- A file system and a path in it. -/
abbrev FileKey (π : Type) := String × π

/-- Where a call of `process_one` stands.  `backfill_file` first reads the
descriptor; the versions are the ones it found there. -/
inductive WorkPhase (ν : Type) where
  | reading
  | copying (versions : List ν)
  | pushing (versions : List ν)

/-- What a call found in the descriptor. -/
def WorkPhase.Found {ν : Type} (versions : List ν) : WorkPhase ν → Prop
  | .reading => False
  | .copying found => found = versions
  | .pushing found => found = versions

/-- A call of `process_one` that has not returned.  `startedAt` is when it
started to read the descriptor. -/
structure WorkerCall (π ν : Type) where
  key : FileKey π
  startedAt : Nat
  phase : WorkPhase ν

/-- The result of `fd_repo.get`. -/
inductive DescriptorRead (ν : Type) where
  | descriptor (versions : List ν)
  | raised (error : String)

/-- The result of what `backfill_file` does with a descriptor. -/
inductive CopyResult where
  | report (failures : List String)
  | raised (error : String)

inductive WorkerAction (π ν : Type) where
  | write (key : FileKey π) (version : ν)
  | enqueue (key : FileKey π) (now : ℚ)
  | start (call : Nat) (key : FileKey π)
  | read (call : Nat) (result : DescriptorRead ν) (now : ℚ)
  | copied (call : Nat) (result : CopyResult) (now : ℚ)
  | pushed (call : Nat) (error : Option String) (now : ℚ)

structure Replication (π ν : Type) where
  queue : ReplicationQueue π
  calls : Dict Nat (WorkerCall π ν)
  clock : Nat
  written : FileKey π → List ν
  enqueuedAt : FileKey π → Option Nat
  /-- What was written before the last enqueue. -/
  announced : FileKey π → List ν
  /-- What replication that succeeded has read. -/
  seen : FileKey π → List ν

namespace Replication

variable {π ν : Type} [DecidableEq π] (resolves : FileKey π → Bool)

def tick (state : Replication π ν) : Replication π ν :=
  { state with clock := state.clock + 1 }

def setPhase (state : Replication π ν) (call : Nat) (phase : WorkPhase ν) :
    Replication π ν :=
  { state with
    calls := state.calls.modify call fun worker =>
      { worker with phase := phase } }

/-- The call returns after `failed`. -/
def fail (state : Replication π ν) (call : Nat) (key : FileKey π)
    (error : String) (now : ℚ) : Replication π ν :=
  { state with
    queue := (state.queue.failed key.1 key.2 error now).1
    calls := state.calls.erase call }

/-- The call returns after `done`. -/
def succeed (state : Replication π ν) (call : Nat) (key : FileKey π)
    (versions : List ν) : Replication π ν :=
  { state with
    queue := state.queue.done key.1 key.2
    calls := state.calls.erase call
    seen := Function.update state.seen key (state.seen key ++ versions) }

def recordEnqueue (state : Replication π ν) (key : FileKey π) (now : ℚ) :
    Replication π ν :=
  { state with
    queue := state.queue.enqueue key.1 key.2 now
    enqueuedAt := Function.update state.enqueuedAt key (some state.clock)
    announced := Function.update state.announced key (state.written key) }

def step (state : Replication π ν) :
    WorkerAction π ν → Option (Replication π ν)
  | .write key version =>
      some
        { state with
          written := Function.update state.written key
            (state.written key ++ [version]) }.tick
  | .enqueue key now => some (state.recordEnqueue key now).tick
  | .start call key =>
      if state.calls.contains call then none
      else if resolves key then
        some
          { state with
            calls := state.calls.set call
              { key := key
                startedAt := state.clock
                phase := .reading } }.tick
      else
        -- The file was removed in the meantime.
        some { state with queue := state.queue.done key.1 key.2 }.tick
  | .read call result now =>
      match state.calls.get? call with
      | some ⟨key, _, .reading⟩ =>
          match result with
          | .raised error => some (state.fail call key error now).tick
          | .descriptor [] => some (state.setPhase call (.pushing [])).tick
          | .descriptor versions =>
              some (state.setPhase call (.copying versions)).tick
      | _ => none
  | .copied call result now =>
      match state.calls.get? call with
      | some ⟨key, _, .copying versions⟩ =>
          match result with
          | .raised error => some (state.fail call key error now).tick
          | .report [] =>
              some (state.setPhase call (.pushing versions)).tick
          | .report failures =>
              some (state.fail call key ("; ".intercalate failures)
                now).tick
      | _ => none
  | .pushed call error now =>
      match state.calls.get? call with
      | some ⟨key, _, .pushing versions⟩ =>
          match error with
          | some error => some (state.fail call key error now).tick
          | none => some (state.succeed call key versions).tick
      | _ => none

/-- No call is in progress and nothing was enqueued yet. -/
structure Started (state : Replication π ν) : Prop where
  idle : state.calls = Dict.empty
  silent : ∀ key, state.enqueuedAt key = none
  nothing : ∀ key, state.announced key = []

/-- What one step does, whoever takes it. -/
inductive Change (state next : Replication π ν) :
    WorkerAction π ν → Prop where
  | write (key : FileKey π) (version : ν)
      (result : next =
        { state with
          written := Function.update state.written key
            (state.written key ++ [version]) }.tick) :
      Change state next (.write key version)
  | enqueue (key : FileKey π) (now : ℚ)
      (result : next = (state.recordEnqueue key now).tick) :
      Change state next (.enqueue key now)
  | start (call : Nat) (key : FileKey π) (found : resolves key)
      (result : next =
        { state with
          calls := state.calls.set call
            { key := key
              startedAt := state.clock
              phase := .reading } }.tick) :
      Change state next (.start call key)
  | gone (call : Nat) (key : FileKey π) (removed : resolves key = false)
      (result : next =
        { state with queue := state.queue.done key.1 key.2 }.tick) :
      Change state next (.start call key)
  | readDescriptor (call : Nat) (worker : WorkerCall π ν)
      (versions : List ν) (now : ℚ) (phase : WorkPhase ν)
      (running : state.calls.get? call = some worker)
      (phaseVersions : phase = .copying versions ∨
        (phase = .pushing versions ∧ versions = []))
      (result : next = (state.setPhase call phase).tick) :
      Change state next (.read call (.descriptor versions) now)
  | copied (call : Nat) (worker : WorkerCall π ν) (versions : List ν)
      (now : ℚ) (running : state.calls.get? call = some worker)
      (phase : worker.phase = .copying versions)
      (result : next = (state.setPhase call (.pushing versions)).tick) :
      Change state next (.copied call (.report []) now)
  | failed (call : Nat) (worker : WorkerCall π ν) (error : String)
      (now : ℚ) (action : WorkerAction π ν)
      (running : state.calls.get? call = some worker)
      (result : next = (state.fail call worker.key error now).tick) :
      Change state next action
  | succeeded (call : Nat) (worker : WorkerCall π ν) (versions : List ν)
      (now : ℚ) (running : state.calls.get? call = some worker)
      (phase : worker.phase = .pushing versions)
      (result : next = (state.succeed call worker.key versions).tick) :
      Change state next (.pushed call none now)

variable {resolves} {state next : Replication π ν}
  {action : WorkerAction π ν}

theorem step_change (taken : step resolves state action = some next) :
    Change resolves state next action := by
  cases action with
  | write key version => exact .write key version (Option.some.inj taken).symm
  | enqueue key now => exact .enqueue key now (Option.some.inj taken).symm
  | start call key =>
      unfold step at taken
      dsimp only at taken
      split at taken
      · cases taken
      · split at taken
        · rename_i found
          exact .start call key found (Option.some.inj taken).symm
        · rename_i removed
          exact .gone call key (by simpa using removed)
            (Option.some.inj taken).symm
  | read call result now =>
      unfold step at taken
      dsimp only at taken
      split at taken
      · rename_i key startedAt running
        split at taken
        · rename_i error
          exact .failed call _ error now _ running
            (Option.some.inj taken).symm
        · exact .readDescriptor call _ [] now _ running (.inr ⟨rfl, rfl⟩)
            (Option.some.inj taken).symm
        · rename_i versions _
          exact .readDescriptor call _ versions now _ running (.inl rfl)
            (Option.some.inj taken).symm
      · cases taken
  | copied call result now =>
      unfold step at taken
      dsimp only at taken
      split at taken
      · rename_i key startedAt versions running
        split at taken
        · rename_i error
          exact .failed call _ error now _ running
            (Option.some.inj taken).symm
        · exact .copied call _ versions now running rfl
            (Option.some.inj taken).symm
        · exact .failed call _ _ now _ running
            (Option.some.inj taken).symm
      · cases taken
  | pushed call error now =>
      unfold step at taken
      dsimp only at taken
      split at taken
      · rename_i key startedAt versions running
        split at taken
        · rename_i error
          exact .failed call _ error now _ running
            (Option.some.inj taken).symm
        · exact .succeeded call _ versions now running rfl
            (Option.some.inj taken).symm
      · cases taken

/-- A path is enqueued only while no call for it is in progress. -/
def EnqueuesApart (state : Replication π ν) :
    WorkerAction π ν → Prop
  | .enqueue key _ => ∀ call worker,
      state.calls.get? call = some worker → worker.key ≠ key
  | _ => True

/-- Besides, the descriptor that a call reads holds every version written so
far. -/
def ReadsWritten (state : Replication π ν) (action : WorkerAction π ν) :
    Prop :=
  EnqueuesApart state action ∧
    match action with
    | .read call (.descriptor versions) _ => ∀ worker,
        state.calls.get? call = some worker →
          ∀ version ∈ state.written worker.key, version ∈ versions
    | _ => True

/-- Every call in progress began after the last enqueue of its path. -/
structure InOrder (state : Replication π ν) : Prop where
  past : ∀ key time, state.enqueuedAt key = some time → time < state.clock
  later : ∀ call worker, state.calls.get? call = some worker →
    ∀ time, state.enqueuedAt worker.key = some time →
      time < worker.startedAt

omit [DecidableEq π] in
theorem InOrder.tick (inOrder : InOrder state) : InOrder state.tick :=
  ⟨fun key time enqueued =>
    Nat.lt_succ_of_lt (inOrder.past key time enqueued), inOrder.later⟩

omit [DecidableEq π] in
theorem InOrder.of_calls (inOrder : InOrder state)
    (enqueued : next.enqueuedAt = state.enqueuedAt)
    (clock : next.clock = state.clock)
    (calls : ∀ call worker, next.calls.get? call = some worker →
      ∃ before, state.calls.get? call = some before ∧
        worker.key = before.key ∧ worker.startedAt = before.startedAt) :
    InOrder next := by
  refine ⟨?_, ?_⟩
  · intro key time found
    rw [enqueued] at found
    rw [clock]
    exact inOrder.past key time found
  · intro call worker running time found
    obtain ⟨before, runningBefore, sameKey, sameStart⟩ :=
      calls call worker running
    rw [enqueued, sameKey] at found
    rw [sameStart]
    exact inOrder.later call before runningBefore time found

omit [DecidableEq π] in
theorem setPhase_calls {call : Nat} {phase : WorkPhase ν} :
    ∀ other worker, (state.setPhase call phase).calls.get? other =
        some worker →
      ∃ before, state.calls.get? other = some before ∧
        worker.key = before.key ∧ worker.startedAt = before.startedAt := by
  intro other worker running
  change (state.calls.modify call _).get? other = some worker at running
  rw [Dict.get?_modify] at running
  split at running
  · obtain ⟨before, runningBefore, changed⟩ :=
      Option.map_eq_some_iff.mp running
    subst changed
    exact ⟨before, runningBefore, rfl, rfl⟩
  · exact ⟨worker, running, rfl, rfl⟩

omit [DecidableEq π] in
theorem erase_calls {call : Nat} :
    ∀ other worker, (state.calls.erase call).get? other = some worker →
      state.calls.get? other = some worker := by
  intro other worker running
  rw [Dict.get?_erase] at running
  split at running
  · cases running
  · exact running

theorem InOrder.step (inOrder : InOrder state)
    (guard : EnqueuesApart state action)
    (change : Change resolves state next action) : InOrder next := by
  cases change with
  | write key version result =>
      subst result
      exact InOrder.tick ⟨inOrder.past, inOrder.later⟩
  | enqueue key now result =>
      subst result
      refine ⟨?_, ?_⟩
      · intro other time enqueued
        change Function.update state.enqueuedAt key (some state.clock)
          other = some time at enqueued
        by_cases same : other = key
        · rw [same, Function.update_self] at enqueued
          cases enqueued
          exact Nat.lt_succ_self _
        · rw [Function.update_of_ne same] at enqueued
          exact Nat.lt_succ_of_lt (inOrder.past other time enqueued)
      · intro call worker running time enqueued
        change Function.update state.enqueuedAt key (some state.clock)
          worker.key = some time at enqueued
        rw [Function.update_of_ne (guard call worker running)] at enqueued
        exact inOrder.later call worker running time enqueued
  | start call key found result =>
      subst result
      refine InOrder.tick ⟨inOrder.past, ?_⟩
      intro other worker running time enqueued
      change (state.calls.set call _).get? other = some worker at running
      rw [Dict.get?_set] at running
      split at running
      · cases running
        exact inOrder.past key time enqueued
      · exact inOrder.later other worker running time enqueued
  | gone call key removed result =>
      subst result
      exact InOrder.tick ⟨inOrder.past, inOrder.later⟩
  | readDescriptor call worker versions now phase running _ result =>
      subst result
      exact InOrder.tick (inOrder.of_calls rfl rfl setPhase_calls)
  | copied call worker versions now running phase result =>
      subst result
      exact InOrder.tick (inOrder.of_calls rfl rfl setPhase_calls)
  | failed call worker error now action running result =>
      subst result
      exact InOrder.tick (inOrder.of_calls rfl rfl
        fun other worker running => ⟨worker, erase_calls other worker running,
          rfl, rfl⟩)
  | succeeded call worker versions now running phase result =>
      subst result
      exact InOrder.tick (inOrder.of_calls rfl rfl
        fun other worker running => ⟨worker, erase_calls other worker running,
          rfl, rfl⟩)

/-- Only a call that failed nowhere takes a file off the queue. -/
theorem Change.removes {key : FileKey π} (found : resolves key)
    (change : Change resolves state next action)
    (queued : state.queue.holds key.1 key.2)
    (removed : next.queue.holds key.1 key.2 = false) :
    ∃ call worker versions now, action = .pushed call none now ∧
      state.calls.get? call = some worker ∧ worker.key = key ∧
        worker.phase = .pushing versions := by
  cases change with
  | write _ _ result =>
      subst result
      cases queued.symm.trans removed
  | enqueue other now result =>
      subst result
      change (state.queue.enqueue other.1 other.2 now).holds key.1 key.2 =
        false at removed
      rw [ReplicationQueue.holds_enqueue, queued] at removed
      simp at removed
  | start _ _ _ result =>
      subst result
      cases queued.symm.trans removed
  | gone call other missing result =>
      subst result
      change (state.queue.done other.1 other.2).holds key.1 key.2 = false
        at removed
      rw [ReplicationQueue.holds_done, queued] at removed
      have same : key = other := by
        apply Prod.ext
        · simp at removed
          exact removed.1
        · simp at removed
          exact removed.2
      rw [same, missing] at found
      cases found
  | readDescriptor _ _ _ _ _ _ _ result =>
      subst result
      cases queued.symm.trans removed
  | copied _ _ _ _ _ _ result =>
      subst result
      cases queued.symm.trans removed
  | failed call worker error now action running result =>
      subst result
      change (state.queue.failed worker.key.1 worker.key.2 error now).1.holds
        key.1 key.2 = false at removed
      rw [ReplicationQueue.holds_failed, queued] at removed
      cases removed
  | succeeded call worker versions now running phase result =>
      subst result
      change (state.queue.done worker.key.1 worker.key.2).holds key.1
        key.2 = false at removed
      rw [ReplicationQueue.holds_done, queued] at removed
      refine ⟨call, worker, versions, now, rfl, running, ?_, phase⟩
      apply Prod.ext
      · simp at removed
        exact removed.1.symm
      · simp at removed
        exact removed.2.symm

/-- What was written before the last enqueue is queued or was seen. -/
structure Announced (resolves : FileKey π → Bool)
    (state : Replication π ν) : Prop where
  written : ∀ key, ∀ version ∈ state.announced key,
    version ∈ state.written key
  calls : ∀ call worker versions, state.calls.get? call = some worker →
    worker.phase.Found versions →
      ∀ version ∈ state.announced worker.key, version ∈ versions
  queue : ∀ key, resolves key → state.queue.holds key.1 key.2 = false →
    ∀ version ∈ state.announced key, version ∈ state.seen key

theorem holds_done_of_ne {queue : ReplicationQueue π} {key other : FileKey π}
    (different : key ≠ other) :
    (queue.done other.1 other.2).holds key.1 key.2 =
      queue.holds key.1 key.2 := by
  have unequal : ¬(key.1 = other.1 ∧ key.2 = other.2) := by
    rintro ⟨first, second⟩
    exact different (Prod.ext first second)
  rw [ReplicationQueue.holds_done, decide_eq_false unequal, Bool.not_false,
    Bool.true_and]

theorem Announced.enqueue (announced : Announced resolves state)
    {key : FileKey π} {now : ℚ}
    (apart : EnqueuesApart state (.enqueue key now)) :
    Announced resolves (state.recordEnqueue key now).tick := by
  refine ⟨?_, ?_, ?_⟩
  · intro other version member
    change version ∈ Function.update state.announced key (state.written key)
      other at member
    by_cases same : other = key
    · rw [same, Function.update_self] at member
      rw [same]
      exact member
    · rw [Function.update_of_ne same] at member
      exact announced.written other version member
  · intro call worker versions running found version member
    change version ∈ Function.update state.announced key (state.written key)
      worker.key at member
    rw [Function.update_of_ne (apart call worker running)] at member
    exact announced.calls call worker versions running found version member
  · intro other resolved absent version member
    change (state.queue.enqueue key.1 key.2 now).holds other.1 other.2 =
      false at absent
    change version ∈ Function.update state.announced key (state.written key)
      other at member
    rw [ReplicationQueue.holds_enqueue, Bool.or_eq_false_iff] at absent
    have different : other ≠ key := by
      rintro rfl
      simp at absent
    rw [Function.update_of_ne different] at member
    exact announced.queue other resolved absent.2 version member

theorem Announced.setPhase (announced : Announced resolves state)
    {call : Nat} {worker : WorkerCall π ν} {phase : WorkPhase ν}
    (running : state.calls.get? call = some worker)
    (found : ∀ versions, phase.Found versions →
      ∀ version ∈ state.announced worker.key, version ∈ versions) :
    Announced resolves (state.setPhase call phase).tick := by
  refine ⟨announced.written, ?_, announced.queue⟩
  intro other moved versions runningOther foundOther version member
  change (state.calls.modify call _).get? other = some moved at runningOther
  rw [Dict.get?_modify] at runningOther
  split at runningOther
  · rename_i same
    rw [same, running, Option.map_some, Option.some_inj] at runningOther
    subst runningOther
    exact found versions foundOther version member
  · exact announced.calls other moved versions runningOther foundOther
      version member

theorem Announced.succeed (announced : Announced resolves state)
    {call : Nat} {worker : WorkerCall π ν} {versions : List ν}
    (running : state.calls.get? call = some worker)
    (phase : worker.phase = .pushing versions) :
    Announced resolves (state.succeed call worker.key versions).tick := by
  refine ⟨announced.written, ?_, ?_⟩
  · intro other moved found runningOther
    exact announced.calls other moved found
      (erase_calls other moved runningOther)
  · intro key resolved absent version member
    change version ∈ Function.update state.seen worker.key
      (state.seen worker.key ++ versions) key
    change (state.queue.done worker.key.1 worker.key.2).holds key.1 key.2 =
      false at absent
    by_cases same : key = worker.key
    · subst same
      rw [Function.update_self]
      apply List.mem_append_right
      refine announced.calls call worker versions running ?_ version member
      rw [phase]
      rfl
    · rw [Function.update_of_ne same]
      rw [holds_done_of_ne same] at absent
      exact announced.queue key resolved absent version member

theorem Announced.step (announced : Announced resolves state)
    (guard : ReadsWritten state action)
    (change : Change resolves state next action) :
    Announced resolves next := by
  obtain ⟨apart, reads⟩ := guard
  cases change with
  | write key version result =>
      subst result
      refine ⟨?_, announced.calls, announced.queue⟩
      intro other found member
      change found ∈ Function.update state.written key
        (state.written key ++ [version]) other
      have before := announced.written other found member
      by_cases same : other = key
      · rw [same, Function.update_self]
        rw [same] at before
        exact List.mem_append_left _ before
      · rw [Function.update_of_ne same]
        exact before
  | enqueue key now result =>
      subst result
      exact announced.enqueue apart
  | start call key found result =>
      subst result
      refine ⟨announced.written, ?_, announced.queue⟩
      intro other worker versions running foundVersions
      change (state.calls.set call _).get? other = some worker at running
      rw [Dict.get?_set] at running
      split at running
      · cases running
        exact foundVersions.elim
      · exact announced.calls other worker versions running foundVersions
  | gone call key removed result =>
      subst result
      refine ⟨announced.written, announced.calls, ?_⟩
      intro other resolved absent
      change (state.queue.done key.1 key.2).holds other.1 other.2 = false
        at absent
      have different : other ≠ key := by
        rintro rfl
        rw [removed] at resolved
        cases resolved
      rw [holds_done_of_ne different] at absent
      exact announced.queue other resolved absent
  | readDescriptor call worker versions now phase running phaseVersions
      result =>
      subst result
      apply announced.setPhase running
      intro found same version member
      have all := reads worker running version
        (announced.written worker.key version member)
      rcases phaseVersions with copying | ⟨pushing, _⟩
      · subst copying
        exact same ▸ all
      · subst pushing
        exact same ▸ all
  | copied call worker versions now running phase result =>
      subst result
      apply announced.setPhase running
      intro found same
      refine announced.calls call worker found running ?_
      rw [phase]
      exact same
  | failed call worker error now action running result =>
      subst result
      refine ⟨announced.written, ?_, ?_⟩
      · intro other moved versions runningOther
        exact announced.calls other moved versions
          (erase_calls other moved runningOther)
      · intro key resolved absent
        change (state.queue.failed worker.key.1 worker.key.2 error
          now).1.holds key.1 key.2 = false at absent
        rw [ReplicationQueue.holds_failed] at absent
        exact announced.queue key resolved absent
  | succeeded call worker versions now running phase result =>
      subst result
      exact announced.succeed running phase

omit [DecidableEq π] in
theorem Started.inOrder (started : Started state) : InOrder state := by
  refine ⟨?_, ?_⟩
  · intro key time enqueued
    rw [started.silent key] at enqueued
    cases enqueued
  · intro call worker running
    rw [started.idle] at running
    cases running

theorem Started.announced (started : Started state) :
    Announced resolves state := by
  refine ⟨?_, ?_, ?_⟩
  · intro key version member
    rw [started.nothing key] at member
    cases member
  · intro call worker versions running
    rw [started.idle] at running
    cases running
  · intro key _ _ version member
    rw [started.nothing key] at member
    cases member

/-- A file leaves the queue only through a call that recorded no failure and
began after the last enqueue of the file, as long as no path is enqueued
while a call for it is in progress.  If moreover every call reads what was
written so far, the versions written before the last enqueue of a file that
is not queued were all seen by replication that succeeded. -/
theorem replication_drops_nothing {π ν : Type} [DecidableEq π]
    (resolves : FileKey π → Bool) (start state : Replication π ν)
    (started : Started start) :
    (ReachableWithin (step resolves) EnqueuesApart start state →
      ∀ action next key, step resolves state action = some next →
        resolves key → state.queue.holds key.1 key.2 →
          next.queue.holds key.1 key.2 = false →
            ∃ call worker versions now,
              action = .pushed call none now ∧
              state.calls.get? call = some worker ∧ worker.key = key ∧
              worker.phase = .pushing versions ∧
              ∀ time, state.enqueuedAt key = some time →
                time < worker.startedAt) ∧
    (ReachableWithin (step resolves) ReadsWritten start state →
      ∀ key, resolves key → state.queue.holds key.1 key.2 = false →
        ∀ version ∈ state.announced key, version ∈ state.seen key) := by
  constructor
  · intro reached action next key taken resolved queued removed
    have kept : ∀ (before : Replication π ν) action after, InOrder before →
        EnqueuesApart before action →
          step resolves before action = some after → InOrder after :=
      fun _ _ _ inOrder guard taken =>
        inOrder.step guard (step_change taken)
    have inOrder := reached.invariant kept started.inOrder
    obtain ⟨call, worker, versions, now, isPush, running, sameKey, phase⟩ :=
      (step_change taken).removes resolved queued removed
    refine ⟨call, worker, versions, now, isPush, running, sameKey, phase,
      ?_⟩
    rw [← sameKey]
    exact inOrder.later call worker running
  · intro reached
    have kept : ∀ (before : Replication π ν) action after,
        Announced resolves before → ReadsWritten before action →
          step resolves before action = some after →
            Announced resolves after :=
      fun _ _ _ announced guard taken =>
        announced.step guard (step_change taken)
    exact (reached.invariant kept started.announced).queue

/-- Nothing is queued and nothing was written. -/
def fresh : Replication String Nat :=
  { queue := ⟨Dict.empty⟩
    calls := Dict.empty
    clock := 0
    written := fun _ => []
    enqueuedAt := fun _ => none
    announced := fun _ => []
    seen := fun _ => [] }

theorem fresh_started : Started fresh :=
  ⟨rfl, fun _ => rfl, fun _ => rfl⟩

/-- Write a version, enqueue the file and replicate it. -/
def replicateOne : List (WorkerAction String Nat) :=
  [.write ("fs", "/a") 1, .enqueue ("fs", "/a") 0, .start 0 ("fs", "/a"),
    .read 0 (.descriptor [1]) 0, .copied 0 (.report []) 0]

theorem replicateOne_guarded :
    Guarded (step fun _ => true) ReadsWritten fresh
      (replicateOne ++ [.pushed 0 none 0]) := by
  refine ⟨⟨trivial, trivial⟩, ?_⟩
  rintro written ⟨⟩
  refine ⟨⟨fun _ _ running => (by cases running), trivial⟩, ?_⟩
  rintro enqueued ⟨⟩
  refine ⟨⟨trivial, trivial⟩, ?_⟩
  rintro started ⟨⟩
  refine ⟨⟨trivial, ?_⟩, ?_⟩
  · rintro worker ⟨⟩ version member
    exact member
  rintro read ⟨⟩
  refine ⟨⟨trivial, trivial⟩, ?_⟩
  rintro copied ⟨⟩
  exact ⟨⟨trivial, trivial⟩, fun _ _ => trivial⟩

theorem replication_drops_nothing_once :
    ∃ before after, run (step fun _ => true) fresh replicateOne =
        some before ∧
      step (fun _ => true) before (.pushed 0 none 0) = some after ∧
      (∃ worker, before.calls.get? 0 = some worker ∧
        ∀ time, before.enqueuedAt ("fs", "/a") = some time →
          time < worker.startedAt) ∧
      ∀ version ∈ after.announced ("fs", "/a"),
        version ∈ after.seen ("fs", "/a") := by
  refine ⟨_, _, rfl, rfl, ?_, ?_⟩
  · have guarded : Guarded (step fun _ => true) EnqueuesApart fresh
        replicateOne :=
      replicateOne_guarded.of_append.mono fun _ _ guard => guard.1
    obtain ⟨call, worker, versions, now, same, running, _, _, later⟩ :=
      (replication_drops_nothing (fun _ => true) fresh _ fresh_started).1
        ⟨replicateOne, guarded, rfl⟩ (.pushed 0 none 0) _ ("fs", "/a") rfl
        rfl (by decide) (by decide)
    cases same
    exact ⟨worker, running, later⟩
  · exact (replication_drops_nothing (fun _ => true) fresh _
      fresh_started).2 ⟨_, replicateOne_guarded, rfl⟩ ("fs", "/a") rfl
      (by decide)

/-- A second version is written and enqueued while the first one is being
copied. -/
def overlap : List (WorkerAction String Nat) :=
  [.write ("fs", "/a") 1, .enqueue ("fs", "/a") 0, .start 0 ("fs", "/a"),
    .read 0 (.descriptor [1]) 0, .write ("fs", "/a") 2,
    .enqueue ("fs", "/a") 0, .copied 0 (.report []) 0]

/-- The call takes the file off the queue although it was enqueued after the
call began, and the second version was never seen. -/
theorem replication_drops_write :
    ((run (step fun _ => true) fresh overlap).map fun state =>
      (state.queue.holds "fs" "/a", state.enqueuedAt ("fs", "/a"),
        (state.calls.get? 0).map WorkerCall.startedAt)) =
      some (true, some 5, some 2) ∧
    ((run (step fun _ => true) fresh
      (overlap ++ [.pushed 0 none 0])).map fun state =>
        (state.queue.holds "fs" "/a", state.announced ("fs", "/a"),
          state.seen ("fs", "/a"))) = some (false, [1, 2], [1]) := by
  constructor
  · decide
  · decide

end Replication

end Tgdcfs
