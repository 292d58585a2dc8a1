import Tgdcfs.Backends.DiscordUploadMoves
import Tgdcfs.Lib.Traversals

/-!
# Slots of Discord uploads

Until an upload is done with its tasks, the slots it has acquired and not
released are held by its read, by tasks that run, or by tasks that have not
run, which `unstarted` counts.
-/

namespace Tgdcfs

open Lib

namespace DiscordUpload

/-- `held` slots are held by the upload itself. -/
structure Balanced (held : Nat) (upload : DiscordUpload) : Prop where
  slots : upload.acquired = upload.released + held +
    upload.tasks.countP PartTask.running + upload.unstarted
  unstarted : upload.unstarted = upload.tasks.countP PartTask.unstarted

/-- The upload is done with its tasks. -/
def settled : DiscordPhase → Bool
  | .closing _ => true
  | .ended _ => true
  | _ => false

/-- The slots that the upload itself holds. -/
def held : DiscordPhase → Nat
  | .reading _ _ => 1
  | _ => 0

structure Accounted (upload : DiscordUpload) : Prop where
  balanced : settled upload.phase = false →
    upload.Balanced (held upload.phase)
  opening : upload.phase = .opening → upload.tasks = []
  interrupted : upload.phase = .cleaning true → upload.unstarted = 0
  returned : settled upload.phase = true →
    upload.released = upload.acquired
  done : settled upload.phase = true →
    upload.tasks.all PartTask.done = true

/-- An upload is not cancelled while it waits for its cancelled tasks to end,
unless all of them have run. -/
def CancelsAllStarted (upload : DiscordUpload) :
    DiscordUploadAction → Prop
  | .cancel => ∀ cancelled, upload.phase = .cleaning cancelled →
      upload.unstarted = 0
  | _ => True

variable {held_ : Nat} {upload : DiscordUpload}

theorem Balanced.enter (balanced : upload.Balanced held_)
    (phase : DiscordPhase) : (upload.enter phase).Balanced held_ :=
  ⟨balanced.slots, balanced.unstarted⟩

theorem Balanced.release (balanced : upload.Balanced (held_ + 1)) :
    (upload.release 1).Balanced held_ := by
  refine ⟨?_, balanced.unstarted⟩
  have slots := balanced.slots
  simp only [DiscordUpload.release]
  omega

theorem Balanced.cancelTasks (balanced : upload.Balanced held_) :
    upload.cancelTasks.Balanced held_ := by
  obtain ⟨slots, unstarted⟩ := balanced
  constructor
  · simp only [DiscordUpload.cancelTasks, List.countP_map]
    exact slots
  · simp only [DiscordUpload.cancelTasks, List.countP_map]
    exact unstarted

theorem Balanced.addPart (balanced : upload.Balanced 1)
    (maxPartBytes : Nat) (data : List UInt8) :
    (upload.addPart maxPartBytes data).Balanced 0 := by
  obtain ⟨slots, unstarted⟩ := balanced
  constructor
  · simp only [DiscordUpload.addPart, List.countP_append,
      List.countP_singleton]
    change upload.acquired = upload.released + 0 +
      (upload.tasks.countP PartTask.running + 0) + (upload.unstarted + 1)
    omega
  · simp only [DiscordUpload.addPart, List.countP_append]
    change upload.unstarted + 1 =
      upload.tasks.countP PartTask.unstarted + 1
    omega

/-- Uploads that are neither opening nor cancelled while they clean up nor
settled. -/
def active : DiscordPhase → Bool
  | .acquiring => true
  | .reading _ _ => true
  | .gathering _ => true
  | .cleaning cancelled => !cancelled
  | _ => false

theorem Accounted.of_active (isActive : active upload.phase = true)
    (balanced : upload.Balanced (held upload.phase)) :
    upload.Accounted := by
  refine ⟨fun _ => balanced, ?_, ?_, ?_, ?_⟩
  all_goals
    intro phase
    cases here : upload.phase <;>
      simp [here, active, settled] at isActive phase
  rw [isActive] at phase
  cases phase

theorem Accounted.partEnds {maxPartBytes : Nat}
    {shared sharedLater : DiscordShared} {later : DiscordUpload}
    {data : List UInt8} (balanced : upload.Balanced 1)
    (result : upload.partRead maxPartBytes shared data =
      (later, sharedLater)) : later.Accounted := by
  unfold partRead at result
  split at result
  · cases result
    exact .of_active rfl (balanced.release.enter _)
  · cases result
    have added := balanced.addPart maxPartBytes data
    have waits : (upload.addPart maxPartBytes data).phase =
        .gathering false ∨
        (upload.addPart maxPartBytes data).phase = .acquiring := by
      simp only [DiscordUpload.addPart]
      split
      · exact .inl rfl
      · exact .inr rfl
    apply of_active
    · rcases waits with phase | phase <;> simp [phase, active]
    · rcases waits with phase | phase <;> simpa [phase, held] using added

theorem Accounted.clean (balanced : upload.Balanced 0) :
    upload.clean.Accounted :=
  .of_active rfl (balanced.cancelTasks.enter _)

/-- A task that is not done belongs to an upload that is not settled. -/
theorem Accounted.unsettled (accounted : upload.Accounted) {part : Nat}
    {task : PartTask} (here : upload.tasks[part]? = some task)
    (pending : task.done = false) : settled upload.phase = false := by
  cases isOver : settled upload.phase with
  | false => rfl
  | true =>
      have done := List.all_eq_true.mp (accounted.done isOver) task
        (List.mem_of_getElem? here)
      rw [pending] at done
      cases done

/-- A step of a task that is not done, as far as the counts go. -/
theorem Accounted.task (accounted : upload.Accounted) {part : Nat}
    {task later : PartTask} (here : upload.tasks[part]? = some task)
    (pending : task.done = false) {result : DiscordUpload}
    (tasks : result.tasks = upload.tasks.set part later)
    (phase : result.phase = upload.phase)
    (slots : result.acquired + upload.released + upload.unstarted +
        task.running.toNat =
      upload.acquired + result.released + result.unstarted +
        later.running.toNat)
    (unstarted : result.unstarted + task.unstarted.toNat =
      upload.unstarted + later.unstarted.toNat)
    (fewer : result.unstarted ≤ upload.unstarted) : result.Accounted := by
  have unsettled := accounted.unsettled here pending
  have balanced := accounted.balanced unsettled
  have runs := countP_set_add PartTask.running here later
  have waits := countP_set_add PartTask.unstarted here later
  refine ⟨?_, ?_, ?_, ?_, ?_⟩
  · intro _
    rw [phase]
    constructor
    · rw [tasks]
      have before := balanced.slots
      omega
    · rw [tasks]
      have before := balanced.unstarted
      omega
  · intro opening
    have closed := accounted.opening (phase ▸ opening)
    rw [closed] at here
    cases here
  · intro cleaning
    have started := accounted.interrupted (phase ▸ cleaning)
    omega
  · intro isOver
    rw [phase, unsettled] at isOver
    cases isOver
  · intro isOver
    rw [phase, unsettled] at isOver
    cases isOver

theorem Accounted.begin (fileName : String) (size : Int)
    (source : List UInt8) :
    (DiscordUpload.begin fileName size source).Accounted :=
  ⟨fun _ => ⟨rfl, rfl⟩, fun _ => rfl, nofun, nofun, nofun⟩

theorem sent_of_results {tasks : List PartTask}
    {messages : List SentFileMessage}
    (results : tasks.mapM PartTask.result = some messages) {task : PartTask}
    (member : task ∈ tasks) : ∃ messageId, task.state = .sent messageId := by
  cases made : task.result with
  | none =>
      rw [mapM_none member made] at results
      cases results
  | some message =>
      unfold PartTask.result at made
      split at made
      · rename_i messageId sent
        exact ⟨messageId, sent⟩
      · cases made

theorem Accounted.gathered {messages : List SentFileMessage}
    (balanced : upload.Balanced 0)
    (results : upload.tasks.mapM PartTask.result = some messages)
    (outcome : DiscordOutcome) :
    (upload.enter (.closing outcome)).Accounted := by
  have running : upload.tasks.countP PartTask.running = 0 := by
    rw [List.countP_eq_zero]
    intro task member
    obtain ⟨messageId, sent⟩ := sent_of_results results member
    simp [PartTask.running, sent]
  have waiting : upload.tasks.countP PartTask.unstarted = 0 := by
    rw [List.countP_eq_zero]
    intro task member
    obtain ⟨messageId, sent⟩ := sent_of_results results member
    simp [PartTask.unstarted, sent]
  have slots := balanced.slots
  have unstarted := balanced.unstarted
  refine ⟨nofun, nofun, nofun, ?_, ?_⟩
  · intro _
    change upload.released = upload.acquired
    omega
  · intro _
    rw [List.all_eq_true]
    intro task member
    obtain ⟨messageId, sent⟩ := sent_of_results results member
    simp [PartTask.done, sent]

theorem countP_running_of_done {tasks : List PartTask}
    (done : tasks.all PartTask.done = true) :
    tasks.countP PartTask.running = 0 := by
  rw [List.countP_eq_zero]
  intro task member
  have isOver := List.all_eq_true.mp done task member
  cases here : task.state <;> simp [PartTask.done, PartTask.running, here] at isOver ⊢

/-- The balance in a phase in which the upload is not done with its tasks. -/
theorem Accounted.balancedIn (accounted : upload.Accounted)
    {phase : DiscordPhase} (here : upload.phase = phase)
    (unsettled : settled phase = false) : upload.Balanced (held phase) := by
  subst here
  exact accounted.balanced unsettled

theorem Accounted.opened (accounted : upload.Accounted)
    (opening : upload.phase = .opening) {next : DiscordPhase}
    (enters : next = .acquiring ∨ next = .ended .raised) :
    (upload.enter next).Accounted := by
  have noTasks := accounted.opening opening
  have balanced := accounted.balancedIn opening rfl
  rcases enters with rfl | rfl
  · exact of_active rfl (balanced.enter _)
  · obtain ⟨slots, unstarted⟩ := balanced
    rw [noTasks] at slots unstarted
    refine ⟨by simp [enter, settled], by simp [enter],
      by simp [enter], ?_, ?_⟩
    · intro _
      simp only [enter, held, List.countP_nil] at slots unstarted ⊢
      omega
    · intro _
      simp [enter, noTasks]

theorem Balanced.acquire (balanced : upload.Balanced 0)
    (phase : DiscordPhase) :
    Balanced 1 { upload with
      acquired := upload.acquired + 1
      phase := phase } := by
  refine ⟨?_, balanced.unstarted⟩
  have slots := balanced.slots
  simp only at slots ⊢
  omega

theorem Accounted.started (accounted : upload.Accounted) {part : Nat}
    {task : PartTask} (here : upload.tasks[part]? = some task)
    (scheduled : task.state = .scheduled) :
    Accounted
      { upload.setTask part { task with state := .running } with
        unstarted := upload.unstarted - 1 } := by
  have pending : task.done = false := by simp [PartTask.done, scheduled]
  have balanced := accounted.balanced (accounted.unsettled here pending)
  have counted : 0 < upload.unstarted := by
    rw [balanced.unstarted, List.countP_pos_iff]
    exact ⟨task, List.mem_of_getElem? here,
      by simp [PartTask.unstarted, scheduled]⟩
  apply accounted.task here pending
  · rfl
  · rfl
  · simp [setTask, PartTask.running, scheduled]
    omega
  · simp [PartTask.unstarted, scheduled]
    omega
  · exact Nat.sub_le _ _

/-- A task that runs gives its slot back when it ends. -/
theorem Accounted.taskEnds (accounted : upload.Accounted) {part : Nat}
    {task : PartTask} (here : upload.tasks[part]? = some task)
    (running : task.state = .running) {state : PartState}
    (ends : state = .failed ∨ state = .cancelled ∨
      ∃ messageId, state = .sent messageId) :
    ((upload.setTask part { task with state := state }).release
      1).Accounted := by
  apply accounted.task here (by simp [PartTask.done, running])
  · rfl
  · rfl
  · rcases ends with rfl | rfl | ⟨messageId, rfl⟩ <;>
      simp [setTask, release, PartTask.running, running] <;> omega
  · rcases ends with rfl | rfl | ⟨messageId, rfl⟩ <;>
      simp [setTask, release, PartTask.unstarted, running]
  · exact le_rfl

/-- An upload that is done with its tasks has given every slot back. -/
theorem Accounted.closing {outcome : DiscordOutcome}
    (done : upload.tasks.all PartTask.done = true)
    (returned : upload.released = upload.acquired) :
    (upload.enter (.closing outcome)).Accounted :=
  ⟨by simp [enter, settled], by simp [enter], by simp [enter],
    fun _ => returned, fun _ => done⟩

theorem Accounted.cancelClean (accounted : upload.Accounted)
    {cancelled : Bool} (cleaning : upload.phase = .cleaning cancelled)
    (started : upload.unstarted = 0) :
    (upload.cancelTasks.enter (.cleaning true)).Accounted := by
  have balanced := accounted.balancedIn cleaning rfl
  have counted := balanced.cancelTasks.enter (.cleaning true)
  exact ⟨fun _ => counted, by simp [enter], fun _ => started,
    by simp [enter, settled], by simp [enter, settled]⟩

theorem Accounted.step {maxPartBytes : Nat}
    {shared sharedLater : DiscordShared} {later : DiscordUpload}
    {action : DiscordUploadAction} (accounted : upload.Accounted)
    (allowed : upload.CancelsAllStarted action)
    (moved : Moves maxPartBytes shared upload action later sharedLater) :
    later.Accounted := by
  cases moved with
  | opened opening enters => exact accounted.opened opening enters
  | acquired acquiring free more =>
      have balanced := accounted.balancedIn acquiring rfl
      exact of_active rfl (balanced.acquire _)
  | acquiredEmpty acquiring free empty result =>
      have balanced := accounted.balancedIn acquiring rfl
      exact Accounted.partEnds (balanced.acquire _) result
  | read reading asked there =>
      have balanced := accounted.balancedIn reading rfl
      exact of_active rfl ⟨balanced.slots, balanced.unstarted⟩
  | partEnds reading finished result =>
      exact Accounted.partEnds (accounted.balancedIn reading rfl) result
  | yielded reading =>
      have balanced := accounted.balancedIn reading rfl
      exact of_active rfl (balanced.enter _)
  | abandoned reading =>
      have balanced := accounted.balancedIn reading rfl
      exact Accounted.clean balanced.release
  | skipped here scheduled =>
      apply accounted.task here (by simp [PartTask.done, scheduled])
      · rfl
      · rfl
      · simp [setTask, PartTask.running, scheduled]
      · simp [setTask, PartTask.unstarted, scheduled]
      · exact le_rfl
  | started here scheduled => exact accounted.started here scheduled
  | sent here running new =>
      exact accounted.taskEnds here running (.inr (.inr ⟨_, rfl⟩))
  | notSent here running ends =>
      exact accounted.taskEnds here running (ends.imp_right .inl)
  | gathered gathering results =>
      exact Accounted.gathered (accounted.balancedIn gathering rfl) results _
  | fails waiting =>
      apply Accounted.clean
      rcases waiting with acquiring | ⟨cancelled, gathering⟩
      · exact accounted.balancedIn acquiring rfl
      · exact accounted.balancedIn gathering rfl
  | cancelGather gathering =>
      have balanced := accounted.balancedIn gathering rfl
      exact of_active rfl (balanced.cancelTasks.enter _)
  | cancelClean cleaning =>
      exact accounted.cancelClean cleaning (allowed _ cleaning)
  | cleaned cleaning done =>
      have slots := (accounted.balancedIn cleaning rfl).slots
      have idle := countP_running_of_done done
      refine Accounted.closing ?_ ?_
      · exact done
      · simp only [release, held] at slots ⊢
        omega
  | interrupted cleaning done =>
      have slots := (accounted.balancedIn cleaning rfl).slots
      have idle := countP_running_of_done done
      have started := accounted.interrupted cleaning
      apply Accounted.closing done
      simp only [held] at slots
      omega
  | closed closing ends =>
      have isOver : settled upload.phase = true := by rw [closing]; rfl
      exact ⟨by simp [enter, settled], by simp [enter], by simp [enter],
        fun _ => accounted.returned isOver, fun _ => accounted.done isOver⟩

end DiscordUpload

end Tgdcfs
