import Tgdcfs.Github.DirTimestamps
import Tgdcfs.Lib.Lists

/-!
# Paths on their way to a worker

A path that was asked for is marked until a worker has finished with it, and
in that time it is at one place: with the caller, in the queue or in the hand
of one worker.
-/

namespace Tgdcfs

open Lib

namespace TimestampSystem

/-- The paths that workers hold. -/
def inHand (state : TimestampSystem) : List StoragePath :=
  state.store.workers.filterMap TimestampWorker.path?

/-- The marked paths are those on their way, and the queue has workers. -/
structure Tracked (state : TimestampSystem) : Prop where
  count : ∀ path, state.store.queued.count path =
    state.arriving.count path + state.store.queue.count path +
      state.inHand.count path
  nodup : state.store.queued.Nodup
  working : state.store.queue ≠ [] → state.store.workers ≠ []

/-- What a worker holds before and after a change of its phase. -/
theorem count_set {workers : List TimestampWorker} {worker : Nat}
    {before : TimestampWorker} (here : workers[worker]? = some before)
    (after : TimestampWorker) (path : StoragePath) :
    ((workers.set worker after).filterMap TimestampWorker.path?).count path +
        (if before.path? = some path then 1 else 0) =
      (workers.filterMap TimestampWorker.path?).count path +
        (if after.path? = some path then 1 else 0) := by
  have counted : ∀ phases : List TimestampWorker,
      (phases.filterMap TimestampWorker.path?).count path =
        (phases.map fun phase =>
          if phase.path? = some path then 1 else 0).sum := by
    intro phases
    induction phases with
    | nil => rfl
    | cons phase rest ih =>
        rw [List.map_cons, List.sum_cons, ← ih]
        cases held : phase.path? with
        | none => simp [held]
        | some other => simp [held, List.count_cons, Nat.add_comm]
  rw [counted, counted]
  exact sum_map_set_add _ here after

section Steps

variable {state : TimestampSystem} {worker : Nat}
  {before after : TimestampWorker}

theorem Tracked.setWorker (tracked : state.Tracked)
    (here : state.store.workers[worker]? = some before)
    (same : after.path? = before.path?) :
    (state.setWorker worker after).Tracked := by
  constructor
  · intro path
    have changed := count_set here after path
    rw [same] at changed
    have counted := tracked.count path
    unfold inHand at counted ⊢
    simp only [TimestampSystem.setWorker]
    omega
  · exact tracked.nodup
  · intro waiting empty
    apply tracked.working waiting
    simpa [TimestampSystem.setWorker] using empty

theorem Tracked.request (tracked : state.Tracked) (path : StoragePath) :
    (state.request path).Tracked := by
  unfold TimestampSystem.request
  split
  · exact tracked
  · rename_i new
    have unmarked : path ∉ state.store.queued :=
      fun marked => new (.inr (.inr (List.contains_iff_mem.mpr marked)))
    constructor
    · intro other
      have counted := tracked.count other
      unfold inHand at counted ⊢
      simp only [List.count_append]
      omega
    · exact List.nodup_append.mpr ⟨tracked.nodup, by simp, by
        intro marked member other single
        rintro rfl
        exact unmarked (List.mem_singleton.mp single ▸ member)⟩
    · exact tracked.working

variable {path : StoragePath}

theorem Tracked.put (tracked : state.Tracked)
    (arriving : path ∈ state.arriving) : (state.put path).Tracked := by
  have hand : ∀ other, ((state.put path).inHand).count other =
      state.inHand.count other := by
    intro other
    unfold inHand TimestampSystem.put
    dsimp only
    split
    · rename_i unqueued
      rw [unqueued]
      rfl
    · rfl
  constructor
  · intro other
    have counted := tracked.count other
    rw [hand]
    simp only [TimestampSystem.put, List.count_append, List.count_erase]
    by_cases same : other = path
    · subst same
      have positive := List.count_pos_iff.mpr arriving
      simp
      omega
    · have apart : path ≠ other := Ne.symm same
      simp [apart]
      omega
  · exact tracked.nodup
  · intro _ empty
    simp only [TimestampSystem.put] at empty
    split at empty
    · simp [WORKER_COUNT] at empty
    · rename_i queued
      exact queued empty

theorem Tracked.take (tracked : state.Tracked) {queue : List StoragePath}
    (waits : state.store.queue = path :: queue)
    (here : state.store.workers[worker]? = some .idle) :
    Tracked ({ state with
      store := { state.store with queue } }.setWorker worker
        (.resolving path)) := by
  constructor
  · intro other
    have changed := count_set here (.resolving path) other
    have counted := tracked.count other
    unfold inHand at counted ⊢
    rw [waits, List.count_cons] at counted
    simp only [TimestampWorker.path?, reduceCtorEq, if_false,
      Option.some.injEq] at changed
    simp only [TimestampSystem.setWorker]
    by_cases same : path = other
    · simp [same] at changed counted ⊢
      omega
    · simp [same] at changed counted ⊢
      omega
  · exact tracked.nodup
  · intro _ empty
    have staffed := tracked.working (by simp [waits])
    exact staffed (by simpa [TimestampSystem.setWorker] using empty)

theorem Tracked.finish (tracked : state.Tracked)
    (here : state.store.workers[worker]? = some (.finishing path)) :
    Tracked ({ state with
      store :=
        { state.store with
          queued := state.store.queued.erase path } }.setWorker worker
        .checking) := by
  constructor
  · intro other
    have changed := count_set here .checking other
    have counted := tracked.count other
    have single := List.nodup_iff_count_le_one.mp tracked.nodup other
    unfold inHand at counted ⊢
    simp only [TimestampWorker.path?, reduceCtorEq, if_false,
      Option.some.injEq] at changed
    simp only [TimestampSystem.setWorker, List.count_erase]
    by_cases same : path = other
    · simp [same] at changed counted ⊢
      omega
    · simp [same] at changed counted ⊢
      omega
  · exact tracked.nodup.erase path
  · intro waiting empty
    have staffed := tracked.working waiting
    exact staffed (by simpa [TimestampSystem.setWorker] using empty)

/-- The invariant speaks of marks, places and workers only. -/
theorem Tracked.congr (tracked : state.Tracked) {other : TimestampSystem}
    (queued : other.store.queued = state.store.queued)
    (queue : other.store.queue = state.store.queue)
    (workers : other.store.workers = state.store.workers)
    (arriving : other.arriving = state.arriving) : other.Tracked := by
  constructor
  · intro path
    unfold inHand
    rw [queued, queue, workers, arriving]
    exact tracked.count path
  · rw [queued]
    exact tracked.nodup
  · rw [queue, workers]
    exact tracked.working

theorem tracked_new {history : List HistoryCommit} {file : Option CacheFile}
    {store : DirTimestampStore} (queued : store.queued = [])
    (queue : store.queue = []) (workers : store.workers = []) :
    Tracked ⟨history, file, store, []⟩ := by
  constructor
  · intro path
    simp [inHand, queued, queue, workers]
  · simp [queued]
  · intro busy
    exact (busy queue).elim

@[simp] theorem saved_path? (path : Option StoragePath) :
    (TimestampWorker.saved path).path? = path := by
  cases path <;> rfl

end Steps

/-- The steps, each with the phase it starts from. -/
inductive Happens (state : TimestampSystem) :
    TimestampAction → TimestampSystem → Prop where
  | commit (commit : HistoryCommit) :
      Happens state (.commit commit)
        { state with history := commit :: state.history }
  | start (readable answered : Bool)
      (comparison : Except GithubError (List ChangedFile)) :
      Happens state (.start readable answered comparison)
        (state.start readable answered comparison)
  | request (path : StoragePath) :
      Happens state (.request path) (state.request path)
  | put {path : StoragePath} (arriving : path ∈ state.arriving) :
      Happens state (.put path) (state.put path)
  | take {worker : Nat} {path : StoragePath} {queue : List StoragePath}
      (here : state.store.workers[worker]? = some .idle)
      (waits : state.store.queue = path :: queue) :
      Happens state (.take worker)
        ({ state with store := { state.store with queue } }.setWorker worker
          (.resolving path))
  | readModified {worker : Nat} {path : StoragePath} (answered : Bool)
      (here : state.store.workers[worker]? = some (.resolving path)) :
      Happens state (.readModified worker answered)
        (state.setWorker worker (.dating path
          (if answered then latestCommitDate state.history path else none)))
  | undated {worker : Nat} {path : StoragePath} (answered : Bool)
      (here : state.store.workers[worker]? = some (.dating path none)) :
      Happens state (.readCreated worker answered)
        (state.setWorker worker (.finishing path))
  | readCreated {worker : Nat} {path : StoragePath} {modified : Int}
      (answered : Bool)
      (here : state.store.workers[worker]? =
        some (.dating path (some modified))) :
      Happens state (.readCreated worker answered)
        (state.setWorker worker (.found path
          ((if answered then
              latestCommitDate state.history (path ++ '/' :: GITKEEP)
            else none).getD modified, modified)))
  | store {worker : Nat} {path : StoragePath} {dates : Timestamps}
      (here : state.store.workers[worker]? = some (.found path dates)) :
      Happens state (.store worker)
        ((state.storeDates path dates).setWorker worker
          (if SAVE_EVERY ≤ state.store.unsaved + 1 then .saving (some path)
            else .finishing path))
  | saved {worker : Nat} {path : Option StoragePath}
      (here : state.store.workers[worker]? = some (.saving path)) :
      Happens state (.save worker) (state.setWorker worker (.saved path))
  | save {worker : Nat} {path : Option StoragePath}
      (here : state.store.workers[worker]? = some (.saving path)) :
      Happens state (.save worker)
        ({ state with
          store := { state.store with unsaved := 0 } }.setWorker worker
            (.writing path state.store.payload))
  | written {worker : Nat} {path : Option StoragePath} {payload : CacheFile}
      (here : state.store.workers[worker]? = some (.writing path payload)) :
      Happens state (.write worker true)
        ({ state with file := some payload }.setWorker worker (.saved path))
  | unwritten {worker : Nat} {path : Option StoragePath}
      {payload : CacheFile}
      (here : state.store.workers[worker]? = some (.writing path payload)) :
      Happens state (.write worker false)
        ({ state with
          store :=
            { state.store with
              unsaved := state.store.unsaved + 1 } }.setWorker worker
          (.saved path))
  | finish {worker : Nat} {path : StoragePath}
      (here : state.store.workers[worker]? = some (.finishing path)) :
      Happens state (.finish worker)
        ({ state with
          store :=
            { state.store with
              queued := state.store.queued.erase path } }.setWorker worker
          .checking)
  | check {worker : Nat}
      (here : state.store.workers[worker]? = some .checking) :
      Happens state (.check worker)
        (state.setWorker worker
          (if state.store.queue = [] then .saving none else .idle))

section Runs

variable {state next : TimestampSystem} {action : TimestampAction}

theorem happens_of_step (taken : state.step action = some next) :
    Happens state action next := by
  cases action with
  | commit commit =>
      cases taken
      exact .commit commit
  | start readable answered comparison =>
      cases taken
      exact .start readable answered comparison
  | request path =>
      cases taken
      exact .request path
  | put path =>
      simp only [step] at taken
      split at taken
      · rename_i arriving
        cases taken
        exact .put (List.contains_iff_mem.mp arriving)
      · cases taken
  | take worker =>
      simp only [step] at taken
      split at taken
      · rename_i path queue here waits
        cases taken
        exact .take here waits
      · cases taken
  | readModified worker answered =>
      simp only [step] at taken
      split at taken
      · rename_i path here
        cases taken
        exact .readModified answered here
      · cases taken
  | readCreated worker answered =>
      simp only [step] at taken
      split at taken
      · rename_i path modified here
        cases modified with
        | none =>
            cases taken
            exact .undated answered here
        | some modified =>
            cases taken
            exact .readCreated answered here
      · cases taken
  | store worker =>
      simp only [step] at taken
      split at taken
      · rename_i path dates here
        cases taken
        exact .store here
      · cases taken
  | save worker =>
      simp only [step] at taken
      split at taken
      · rename_i path here
        split at taken
        · cases taken
          exact .saved here
        · cases taken
          exact .save here
      · cases taken
  | write worker written =>
      simp only [step] at taken
      split at taken
      · rename_i path payload here
        cases written with
        | false =>
            cases taken
            exact .unwritten here
        | true =>
            cases taken
            exact .written here
      · cases taken
  | finish worker =>
      simp only [step] at taken
      split at taken
      · rename_i path here
        cases taken
        exact .finish here
      · cases taken
  | check worker =>
      simp only [step] at taken
      split at taken
      · rename_i here
        cases taken
        exact .check here
      · cases taken

theorem Tracked.happens (tracked : state.Tracked)
    (taken : Happens state action next) : next.Tracked := by
  cases taken with
  | commit commit => exact tracked.congr rfl rfl rfl rfl
  | start readable answered comparison => exact tracked_new rfl rfl rfl
  | request path => exact tracked.request path
  | put arriving => exact tracked.put arriving
  | take here waits => exact tracked.take waits here
  | readModified answered here => exact tracked.setWorker here rfl
  | undated answered here => exact tracked.setWorker here rfl
  | readCreated answered here => exact tracked.setWorker here rfl
  | @store worker path dates here =>
      have same : Tracked (state.storeDates path dates) :=
        tracked.congr rfl rfl rfl rfl
      refine same.setWorker here ?_
      split <;> rfl
  | saved here => exact tracked.setWorker here (saved_path? _)
  | save here =>
      refine Tracked.setWorker ?_ here rfl
      exact tracked.congr rfl rfl rfl rfl
  | written here =>
      refine Tracked.setWorker ?_ here (saved_path? _)
      exact tracked.congr rfl rfl rfl rfl
  | unwritten here =>
      refine Tracked.setWorker ?_ here (saved_path? _)
      exact tracked.congr rfl rfl rfl rfl
  | finish here => exact tracked.finish here
  | check here =>
      refine tracked.setWorker here ?_
      split <;> rfl

/-- A process that has not been asked for anything. -/
def idle (history : List HistoryCommit) (file : Option CacheFile)
    (repo branch : String) : TimestampSystem :=
  ⟨history, file, .new repo branch, []⟩

theorem tracked_of_reachable {history : List HistoryCommit}
    {file : Option CacheFile} {repo branch : String}
    (reachable : Reachable step (idle history file repo branch) state) :
    state.Tracked :=
  reachable.invariant (fun _ _ _ tracked taken =>
    tracked.happens (happens_of_step taken)) (tracked_new rfl rfl rfl)

/-- A worker holds the path. -/
def Holds (state : TimestampSystem) (worker : Nat) (path : StoragePath) :
    Prop :=
  (state.store.workers[worker]?).bind TimestampWorker.path? = some path

/-- A path that is marked is in one place, and every path on its way is
marked. -/
structure InOnePlace (state : TimestampSystem) : Prop where
  marked : ∀ path, path ∈ state.store.queued ↔ path ∈ state.arriving ∨
    path ∈ state.store.queue ∨ ∃ worker, state.Holds worker path
  once : ∀ first second path, state.Holds first path →
    state.Holds second path → first = second
  arriving : ∀ path ∈ state.arriving, path ∉ state.store.queue ∧
    ∀ worker, ¬state.Holds worker path
  queue : ∀ path ∈ state.store.queue, ∀ worker, ¬state.Holds worker path
  arrivingNodup : state.arriving.Nodup
  queueNodup : state.store.queue.Nodup

variable {path : StoragePath}

theorem holds_iff :
    path ∈ state.inHand ↔ ∃ worker, state.Holds worker path := by
  unfold inHand Holds
  rw [List.mem_filterMap]
  constructor
  · rintro ⟨phase, member, held⟩
    obtain ⟨worker, small, rfl⟩ := List.getElem_of_mem member
    exact ⟨worker, by simp [small, held]⟩
  · rintro ⟨worker, held⟩
    obtain ⟨phase, here, same⟩ := Option.bind_eq_some_iff.mp held
    exact ⟨phase, List.mem_of_getElem? here, same⟩

theorem two_le_count {workers : List TimestampWorker} :
    ∀ {first second : Nat}, first < second →
      (workers[first]?).bind TimestampWorker.path? = some path →
      (workers[second]?).bind TimestampWorker.path? = some path →
        2 ≤ (workers.filterMap TimestampWorker.path?).count path := by
  induction workers with
  | nil =>
      intro first second _ held
      simp at held
  | cons phase workers ih =>
      intro first second less held again
      obtain ⟨later, rfl⟩ : ∃ later, second = later + 1 :=
        ⟨second - 1, by omega⟩
      rw [List.getElem?_cons_succ] at again
      cases first with
      | zero =>
          rw [List.getElem?_cons_zero, Option.bind_some] at held
          have inside : path ∈ workers.filterMap TimestampWorker.path? := by
            obtain ⟨other, here, same⟩ := Option.bind_eq_some_iff.mp again
            exact List.mem_filterMap.mpr
              ⟨other, List.mem_of_getElem? here, same⟩
          have positive := List.count_pos_iff.mpr inside
          simp only [List.filterMap_cons, held, List.count_cons_self]
          omega
      | succ first =>
          rw [List.getElem?_cons_succ] at held
          have both := ih (by omega) held again
          have fewer : (workers.filterMap TimestampWorker.path?).count path ≤
              ((phase :: workers).filterMap
                TimestampWorker.path?).count path :=
            List.Sublist.count_le path
              ((List.sublist_cons_self phase workers).filterMap _)
          omega

theorem Tracked.inOnePlace (tracked : state.Tracked) : state.InOnePlace := by
  have atMost : ∀ path, state.arriving.count path +
      state.store.queue.count path + state.inHand.count path ≤ 1 := by
    intro path
    rw [← tracked.count]
    exact List.nodup_iff_count_le_one.mp tracked.nodup path
  have inHand : ∀ {worker path}, state.Holds worker path →
      0 < state.inHand.count path := by
    intro worker path held
    exact List.count_pos_iff.mpr (holds_iff.mpr ⟨worker, held⟩)
  constructor
  · intro path
    rw [← holds_iff, ← List.count_pos_iff, tracked.count path,
      ← List.count_pos_iff, ← List.count_pos_iff, ← List.count_pos_iff]
    omega
  · intro first second path held again
    have few := atMost path
    rcases Nat.lt_trichotomy first second with less | same | more
    · have twice : 2 ≤ state.inHand.count path := two_le_count less held again
      omega
    · exact same
    · have twice : 2 ≤ state.inHand.count path := two_le_count more again held
      omega
  · intro path member
    have few := atMost path
    have positive := List.count_pos_iff.mpr member
    refine ⟨?_, ?_⟩
    · intro waits
      have there := List.count_pos_iff.mpr waits
      omega
    · intro worker held
      have there := inHand held
      omega
  · intro path member worker held
    have few := atMost path
    have positive := List.count_pos_iff.mpr member
    have there := inHand held
    omega
  · refine List.nodup_iff_count_le_one.mpr fun path => ?_
    have few := atMost path
    omega
  · refine List.nodup_iff_count_le_one.mpr fun path => ?_
    have few := atMost path
    omega

/-- Whatever is requested, committed, loaded and saved in between, a path is
on its way once at most, and looked up by one worker at a time. -/
theorem path_in_one_place {history : List HistoryCommit}
    {file : Option CacheFile} {repo branch : String}
    (reachable : Reachable step (idle history file repo branch) state) :
    state.InOnePlace :=
  (tracked_of_reachable reachable).inOnePlace

def movies : StoragePath := "Movies".toList

def shows : StoragePath := "Shows".toList

/-- Two callers ask for one folder, a third for another, which is put
first. -/
def twoRequests : List TimestampAction :=
  [.request movies, .request movies, .request shows, .put shows,
    .put movies, .take 1]

theorem shows_looked_up :
    ∃ state, Reachable step (idle [] none "files" "main") state ∧
      state.store.queue = [movies] ∧ state.Holds 1 shows ∧
      state.InOnePlace := by
  have reached : (run step (idle [] none "files" "main") twoRequests).map
      (fun state => (state.store.queue, (state.store.workers[1]?).bind
        TimestampWorker.path?)) = some ([movies], some shows) := by
    decide +kernel
  obtain ⟨state, finished, summary⟩ := Option.map_eq_some_iff.mp reached
  obtain ⟨queue, held⟩ := Prod.mk.inj summary
  exact ⟨state, ⟨twoRequests, finished⟩, queue, held,
    path_in_one_place ⟨twoRequests, finished⟩⟩

/-- The workers go on, and GitHub answers what they ask for the newest
commit of a directory. -/
def workerStep (state : TimestampSystem) (action : TimestampAction) :
    Option TimestampSystem :=
  match action with
  | .take _ => state.step action
  | .readModified _ answered => if answered then state.step action else none
  | .readCreated _ _ => state.step action
  | .store _ => state.step action
  | .save _ => state.step action
  | .write _ _ => state.step action
  | .finish _ => state.step action
  | .check _ => state.step action
  | _ => none

/-- What is left to do before a worker waits again. -/
def toDo : TimestampWorker → Nat
  | .idle => 0
  | .writing none _ => 1
  | .saving none => 2
  | .checking => 3
  | .finishing _ => 4
  | .writing (some _) _ => 5
  | .saving (some _) => 6
  | .found _ _ => 7
  | .dating _ _ => 8
  | .resolving _ => 9

def work (state : TimestampSystem) : Nat :=
  10 * state.store.queue.length + (state.store.workers.map toDo).sum

theorem toDo_saved (path : Option StoragePath) (payload : CacheFile) :
    toDo (.saved path) < toDo (.writing path payload) ∧
      toDo (.writing path payload) < toDo (.saving path) := by
  cases path with
  | none => simp [TimestampWorker.saved, toDo]
  | some path => simp [TimestampWorker.saved, toDo]

theorem work_setWorker {state : TimestampSystem} {worker : Nat}
    {before : TimestampWorker}
    (here : state.store.workers[worker]? = some before)
    {after : TimestampWorker} (less : toDo after < toDo before) :
    (state.setWorker worker after).work < state.work := by
  have changed := sum_map_set_lt toDo here less
  unfold work TimestampSystem.setWorker
  dsimp only
  omega

/-- The worker has the path and will have its dates. -/
def finding (path : StoragePath) : TimestampWorker → Bool
  | .resolving other => other = path
  | .dating other modified => other = path && modified.isSome
  | .found other _ => other = path
  | _ => false

/-- The path is in the queue, with a worker that will have its dates, or has
them. -/
def Served (state : TimestampSystem) (path : StoragePath) : Prop :=
  path ∈ state.store.queue ∨
  (∃ phase ∈ state.store.workers, finding path phase) ∨
  state.store.entries.contains path

theorem finding_set {workers : List TimestampWorker} {worker : Nat}
    {before after : TimestampWorker} (here : workers[worker]? = some before)
    (kept : finding path before → finding path after)
    (found : ∃ phase ∈ workers, finding path phase) :
    ∃ phase ∈ workers.set worker after, finding path phase := by
  obtain ⟨phase, member, holds⟩ := found
  by_cases same : phase = before
  · subst same
    have room := (List.getElem?_eq_some_iff.mp here).fst
    exact ⟨after, List.mem_set room after, kept holds⟩
  · exact ⟨phase, mem_set_of_ne here member same, holds⟩

section Served

variable {path : StoragePath} {worker : Nat} {before after : TimestampWorker}

/-- A worker that does not give up the path serves it still. -/
theorem Served.setWorker (served : state.Served path)
    (here : state.store.workers[worker]? = some before)
    (kept : finding path before → finding path after) :
    (state.setWorker worker after).Served path := by
  rcases served with waits | found | known
  · exact .inl waits
  · exact .inr (.inl (finding_set here kept found))
  · exact .inr (.inr known)

theorem Served.take (served : state.Served path) {first : StoragePath}
    {queue : List StoragePath}
    (here : state.store.workers[worker]? = some .idle)
    (waits : state.store.queue = first :: queue) :
    Served ({ state with store := { state.store with queue } }.setWorker
      worker (.resolving first)) path := by
  have room := (List.getElem?_eq_some_iff.mp here).fst
  rcases served with inQueue | found | known
  · rw [waits] at inQueue
    rcases List.mem_cons.mp inQueue with rfl | later
    · exact .inr (.inl ⟨.resolving path, List.mem_set room _,
        by simp [finding]⟩)
    · exact .inl later
  · exact .inr (.inl (finding_set here (by simp [finding]) found))
  · exact .inr (.inr known)

theorem Served.store (served : state.Served path) {other : StoragePath}
    {dates : Timestamps}
    (here : state.store.workers[worker]? = some (.found other dates)) :
    ((state.storeDates other dates).setWorker worker after).Served path := by
  by_cases same : other = path
  · refine .inr (.inr ?_)
    simp [TimestampSystem.setWorker, storeDates, Dict.contains, Dict.get?_set,
      same]
  · rcases served with waits | found | known
    · exact .inl waits
    · exact .inr (.inl (finding_set here (by simp [finding, same]) found))
    · refine .inr (.inr ?_)
      have different : path ≠ other := Ne.symm same
      simp only [Dict.contains] at known
      simp [TimestampSystem.setWorker, storeDates, Dict.contains,
        Dict.get?_set, different, known]

end Served

/-- A step of a worker has less to do after it, and loses no path. -/
theorem workerStep_serves (taken : state.workerStep action = some next) :
    Happens state action next ∧ next.history = state.history ∧
      next.work < state.work ∧
      ∀ path, latestCommitDate state.history path ≠ none →
        state.Served path → next.Served path := by
  have happens : Happens state action next := by
    apply happens_of_step
    unfold workerStep at taken
    split at taken
    all_goals first
      | exact taken
      | cases taken
      | skip
    split at taken
    · exact taken
    · cases taken
  refine ⟨happens, ?_⟩
  cases happens with
  | commit commit => cases taken
  | start readable answered comparison => cases taken
  | request path => cases taken
  | put arriving => cases taken
  | @take worker path queue here waits =>
      refine ⟨rfl, ?_, fun path _ served => served.take here waits⟩
      have changed := sum_map_set_add toDo here (.resolving path)
      simp only [work, TimestampSystem.setWorker, waits, List.length_cons]
      simp only [toDo] at changed
      omega
  | @readModified worker path answered here =>
      refine ⟨rfl, work_setWorker here (by simp [toDo]), ?_⟩
      intro other dated served
      cases answered with
      | false => cases taken
      | true =>
          apply served.setWorker here
          intro holds
          have same : path = other := by simpa [finding] using holds
          subst same
          obtain ⟨date, read⟩ := Option.ne_none_iff_exists'.mp dated
          simp [finding, read]
  | undated answered here =>
      exact ⟨rfl, work_setWorker here (by simp [toDo]), fun path _ served =>
        served.setWorker here (by simp [finding])⟩
  | readCreated answered here =>
      exact ⟨rfl, work_setWorker here (by simp [toDo]), fun path _ served =>
        served.setWorker here (by simp [finding])⟩
  | @store worker path dates here =>
      refine ⟨rfl, ?_, fun path _ served => served.store here⟩
      have found : (state.storeDates path dates).store.workers[worker]? =
        some (.found path dates) := here
      apply work_setWorker found
      split
      · simp [toDo]
      · simp [toDo]
  | @saved worker path here =>
      have less := toDo_saved path state.store.payload
      exact ⟨rfl, work_setWorker here (less.1.trans less.2),
        fun path _ served => served.setWorker here (by simp [finding])⟩
  | @save worker path here =>
      have less := toDo_saved path state.store.payload
      exact ⟨rfl, work_setWorker here less.2, fun path _ served =>
        Served.setWorker served here (by simp [finding])⟩
  | @written worker path payload here =>
      have less := toDo_saved path payload
      exact ⟨rfl, work_setWorker here less.1, fun path _ served =>
        Served.setWorker served here (by simp [finding])⟩
  | @unwritten worker path payload here =>
      have less := toDo_saved path payload
      exact ⟨rfl, work_setWorker here less.1, fun path _ served =>
        Served.setWorker served here (by simp [finding])⟩
  | @finish worker path here =>
      exact ⟨rfl, work_setWorker here (by simp [toDo]), fun path _ served =>
        Served.setWorker served here (by simp [finding])⟩
  | check here =>
      refine ⟨rfl, work_setWorker here ?_, fun path _ served =>
        served.setWorker here (by simp [finding])⟩
      split
      · simp [toDo]
      · simp [toDo]

theorem worker_enabled (tracked : state.Tracked)
    (busy : ¬(state.store.queue = [] ∧
      ∀ phase ∈ state.store.workers, phase = .idle)) :
    ∃ action next, state.workerStep action = some next := by
  by_cases waiting : ∀ phase ∈ state.store.workers, phase = .idle
  · have queued : state.store.queue ≠ [] := fun empty => busy ⟨empty, waiting⟩
    obtain ⟨path, queue, waits⟩ := List.exists_cons_of_ne_nil queued
    obtain ⟨phase, workers, shape⟩ :=
      List.exists_cons_of_ne_nil (tracked.working queued)
    have isIdle := waiting phase (by simp [shape])
    refine ⟨.take 0, ?_⟩
    simp [workerStep, step, shape, isIdle, waits]
  · simp only [not_forall] at waiting
    obtain ⟨phase, member, notIdle⟩ := waiting
    obtain ⟨worker, small, same⟩ := List.getElem_of_mem member
    have here : state.store.workers[worker]? = some phase := by
      rw [List.getElem?_eq_getElem small, same]
    cases phase with
    | idle => exact (notIdle rfl).elim
    | resolving path =>
        refine ⟨.readModified worker true, ?_⟩
        simp [workerStep, step, here]
    | dating path modified =>
        refine ⟨.readCreated worker true, ?_⟩
        cases modified with
        | none => simp [workerStep, step, here, datesOf]
        | some modified => simp [workerStep, step, here, datesOf]
    | found path dates =>
        refine ⟨.store worker, ?_⟩
        simp [workerStep, step, here]
    | saving path =>
        refine ⟨.save worker, ?_⟩
        by_cases clean : state.store.unsaved = 0
        · simp [workerStep, step, here, clean]
        · simp [workerStep, step, here, clean]
    | writing path payload =>
        refine ⟨.write worker true, ?_⟩
        simp [workerStep, step, here]
    | finishing path =>
        refine ⟨.finish worker, ?_⟩
        simp [workerStep, step, here]
    | checking =>
        refine ⟨.check worker, ?_⟩
        simp [workerStep, step, here]

/-- What holds while the workers serve the queue that they started with. -/
structure Serving (start reached : TimestampSystem) : Prop where
  tracked : reached.Tracked
  history : reached.history = start.history
  served : ∀ path ∈ start.store.queue,
    latestCommitDate start.history path ≠ none → reached.Served path

theorem Serving.workerStep {start : TimestampSystem}
    (serving : Serving start state)
    (taken : state.workerStep action = some next) : Serving start next := by
  obtain ⟨happens, kept, _, serves⟩ := workerStep_serves taken
  constructor
  · exact serving.tracked.happens happens
  · exact kept.trans serving.history
  · intro path member dated
    apply serves path _ (serving.served path member dated)
    rwa [serving.history]

/-- From every reachable state the workers get done, in whatever order they
run, and by then every path of the queue that has a commit has its dates. -/
theorem queue_served {history : List HistoryCommit}
    {file : Option CacheFile} {repo branch : String}
    (reachable : Reachable step (idle history file repo branch) state) :
    Inevitably workerStep (fun finish =>
      finish.store.queue = [] ∧
      (∀ phase ∈ finish.store.workers, phase = .idle) ∧
      ∀ path ∈ state.store.queue,
        latestCommitDate state.history path ≠ none →
          finish.store.entries.contains path) state := by
  have initial : Serving state state :=
    ⟨tracked_of_reachable reachable, rfl, fun path member _ => .inl member⟩
  have lowered : ∀ reached action next, Serving state reached →
      reached.workerStep action = some next →
        Serving state next ∧ next.work < reached.work := by
    intro reached action next serving taken
    obtain ⟨_, _, less, _⟩ := workerStep_serves taken
    exact ⟨serving.workerStep taken, less⟩
  refine Inevitably.of_measure work Nat.lt_wfRel.wf lowered ?_ initial
  intro reached serving busy
  apply worker_enabled serving.tracked
  rintro ⟨empty, waiting⟩
  refine busy ⟨empty, waiting, ?_⟩
  intro path member dated
  rcases serving.served path member dated with inQueue | ⟨phase, inside,
    holds⟩ | known
  · rw [empty] at inQueue
    cases inQueue
  · rw [waiting phase inside] at holds
    cases holds
  · exact known

def moviesCommit : HistoryCommit :=
  ⟨"c0ffee", 1700000000, "Add Movies".toList, [movies ++ '/' :: GITKEEP]⟩

theorem movies_served :
    ∃ state, Reachable step (idle [moviesCommit] none "files" "main") state ∧
      state.store.queue = [movies] ∧
      latestCommitDate state.history movies ≠ none ∧
      Inevitably workerStep (fun finish =>
        finish.store.queue = [] ∧
        (∀ phase ∈ finish.store.workers, phase = .idle) ∧
        ∀ path ∈ state.store.queue,
          latestCommitDate state.history path ≠ none →
            finish.store.entries.contains path) state := by
  have reached : (run step (idle [moviesCommit] none "files" "main")
      twoRequests).map (fun state => (state.store.queue,
        latestCommitDate state.history movies)) =
      some ([movies], some 1700000000) := by
    decide +kernel
  obtain ⟨state, finished, summary⟩ := Option.map_eq_some_iff.mp reached
  obtain ⟨queue, dated⟩ := Prod.mk.inj summary
  exact ⟨state, ⟨twoRequests, finished⟩, queue, by simp [dated],
    queue_served ⟨twoRequests, finished⟩⟩

end Runs

end TimestampSystem

end Tgdcfs
