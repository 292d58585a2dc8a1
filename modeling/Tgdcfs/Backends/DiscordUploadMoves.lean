import Tgdcfs.Backends.DiscordUpload

/-!
# What a step of an upload can do

`Moves` lists the outcomes of one step of an upload with the conditions under
which they occur.  The slots that an upload takes from the store are those
that it counts.
-/

namespace Tgdcfs

open Lib

namespace DiscordUpload

inductive Moves (maxPartBytes : Nat) (shared : DiscordShared)
    (upload : DiscordUpload) :
    DiscordUploadAction → DiscordUpload → DiscordShared → Prop where
  | opened {action : DiscordUploadAction} {next : DiscordPhase}
      (opening : upload.phase = .opening)
      (enters : next = .acquiring ∨ next = .ended .raised) :
      Moves maxPartBytes shared upload action (upload.enter next) shared
  | acquired {action : DiscordUploadAction}
      (acquiring : upload.phase = .acquiring)
      (free : shared.uploadSlots ≠ 0)
      (more : 0 < upload.limit maxPartBytes) :
      Moves maxPartBytes shared upload action
        { upload with
          acquired := upload.acquired + 1
          phase := .reading [] false }
        { shared with uploadSlots := shared.uploadSlots - 1 }
  | acquiredEmpty {action : DiscordUploadAction} {later : DiscordUpload}
      {sharedLater : DiscordShared} (acquiring : upload.phase = .acquiring)
      (free : shared.uploadSlots ≠ 0)
      (empty : upload.limit maxPartBytes ≤ 0)
      (result : partRead maxPartBytes
        { shared with uploadSlots := shared.uploadSlots - 1 }
        { upload with acquired := upload.acquired + 1 } [] =
          (later, sharedLater)) :
      Moves maxPartBytes shared upload action later sharedLater
  | read {action : DiscordUploadAction} {data : List UInt8} {length : Nat}
      (reading : upload.phase = .reading data false)
      (asked : (length : Int) ≤ upload.limit maxPartBytes - data.length)
      (there : length ≤ upload.unread.length) :
      Moves maxPartBytes shared upload action
        { upload with
          unread := upload.unread.drop length
          phase := .reading (data ++ upload.unread.take length) true }
        shared
  | partEnds {action : DiscordUploadAction} {later : DiscordUpload}
      {sharedLater : DiscordShared} {data : List UInt8} {yielding : Bool}
      (reading : upload.phase = .reading data yielding)
      (finished : upload.unread = [] ∨
        upload.limit maxPartBytes ≤ data.length)
      (result : upload.partRead maxPartBytes shared data =
        (later, sharedLater)) :
      Moves maxPartBytes shared upload action later sharedLater
  | yielded {action : DiscordUploadAction} {data : List UInt8}
      (reading : upload.phase = .reading data true) :
      Moves maxPartBytes shared upload action
        (upload.enter (.reading data false)) shared
  | abandoned {action : DiscordUploadAction} {data : List UInt8}
      {yielding : Bool} (reading : upload.phase = .reading data yielding) :
      Moves maxPartBytes shared upload action
        (upload.abandonPart shared).1 (upload.abandonPart shared).2
  | skipped {action : DiscordUploadAction} {part : Nat} {task : PartTask}
      (here : upload.tasks[part]? = some task)
      (scheduled : task.state = .scheduled) :
      Moves maxPartBytes shared upload action
        (upload.setTask part { task with state := .skipped }) shared
  | started {action : DiscordUploadAction} {part : Nat} {task : PartTask}
      (here : upload.tasks[part]? = some task)
      (scheduled : task.state = .scheduled) :
      Moves maxPartBytes shared upload action
        { upload.setTask part { task with state := .running } with
          unstarted := upload.unstarted - 1 } shared
  | sent {action : DiscordUploadAction} {part : Nat} {task : PartTask}
      {messageId : Int} (here : upload.tasks[part]? = some task)
      (running : task.state = .running)
      (new : shared.documents.get? messageId = none) :
      Moves maxPartBytes shared upload action
        ((upload.setTask part
          { task with state := .sent messageId }).release 1)
        { uploadSlots := shared.uploadSlots + 1
          documents := shared.documents.set messageId
            (task.name, task.data) }
  | notSent {action : DiscordUploadAction} {part : Nat} {task : PartTask}
      {state : PartState} (here : upload.tasks[part]? = some task)
      (running : task.state = .running)
      (ends : state = .failed ∨ state = .cancelled) :
      Moves maxPartBytes shared upload action
        ((upload.setTask part { task with state := state }).release 1)
        (shared.release 1)
  | gathered {action : DiscordUploadAction}
      {messages : List SentFileMessage}
      (gathering : upload.phase = .gathering false)
      (results : upload.tasks.mapM PartTask.result = some messages) :
      Moves maxPartBytes shared upload action
        (upload.enter (.closing (.sent messages))) shared
  | fails {action : DiscordUploadAction}
      (waiting : upload.phase = .acquiring ∨
        ∃ cancelled, upload.phase = .gathering cancelled) :
      Moves maxPartBytes shared upload action upload.clean shared
  | cancelGather {action : DiscordUploadAction} {cancelled : Bool}
      (gathering : upload.phase = .gathering cancelled) :
      Moves maxPartBytes shared upload action
        (upload.cancelTasks.enter (.gathering true)) shared
  | cancelClean {cancelled : Bool}
      (cleaning : upload.phase = .cleaning cancelled) :
      Moves maxPartBytes shared upload .cancel
        (upload.cancelTasks.enter (.cleaning true)) shared
  | cleaned {action : DiscordUploadAction}
      (cleaning : upload.phase = .cleaning false)
      (done : upload.tasks.all PartTask.done = true) :
      Moves maxPartBytes shared upload action
        ((upload.release upload.unstarted).enter (.closing .raised))
        (shared.release upload.unstarted)
  | interrupted {action : DiscordUploadAction}
      (cleaning : upload.phase = .cleaning true)
      (done : upload.tasks.all PartTask.done = true) :
      Moves maxPartBytes shared upload action
        (upload.enter (.closing .raised)) shared
  | closed {action : DiscordUploadAction}
      {outcome result : DiscordOutcome}
      (closing : upload.phase = .closing outcome)
      (ends : result = outcome ∨ result = .raised) :
      Moves maxPartBytes shared upload action
        (upload.enter (.ended result)) shared

section Inversion

variable {maxPartBytes : Nat} {shared sharedLater : DiscordShared}
  {upload later : DiscordUpload} {action : DiscordUploadAction}

private theorem moves_opened {next : DiscordPhase}
    (enters : next = .acquiring ∨ next = .ended .raised)
    (taken : upload.opened shared next = some (later, sharedLater)) :
    Moves maxPartBytes shared upload action later sharedLater := by
  unfold opened at taken
  split at taken
  · rename_i opening
    cases taken
    exact .opened opening enters
  · cases taken

private theorem moves_acquire
    (taken : upload.acquire maxPartBytes shared =
      some (later, sharedLater)) :
    Moves maxPartBytes shared upload action later sharedLater := by
  unfold acquire at taken
  split at taken
  · rename_i acquiring
    split at taken
    · cases taken
    · rename_i free
      dsimp only at taken
      split at taken
      · rename_i more
        cases taken
        exact .acquired acquiring free more
      · rename_i empty
        exact .acquiredEmpty acquiring free (not_lt.mp empty)
          (Option.some.inj taken)
  · cases taken

private theorem moves_read {length : Nat}
    (taken : upload.read maxPartBytes shared length =
      some (later, sharedLater)) :
    Moves maxPartBytes shared upload action later sharedLater := by
  unfold read at taken
  split at taken
  · rename_i data reading
    dsimp only at taken
    split at taken
    · rename_i allowed
      obtain ⟨asked, there, nothing⟩ := allowed
      split at taken
      · rename_i absent
        exact .partEnds reading (.inl (nothing absent))
          (Option.some.inj taken)
      · cases taken
        exact .read reading (asked.trans (min_le_right _ _)) there
    · cases taken
  · cases taken

private theorem moves_resume
    (taken : upload.resume maxPartBytes shared =
      some (later, sharedLater)) :
    Moves maxPartBytes shared upload action later sharedLater := by
  unfold resume at taken
  split at taken
  · rename_i data reading
    split at taken
    · cases taken
      exact .yielded reading
    · rename_i full
      exact .partEnds reading (.inr (not_lt.mp full))
        (Option.some.inj taken)
  · cases taken

private theorem moves_startPart {part : Nat}
    (taken : upload.startPart shared part = some (later, sharedLater)) :
    Moves maxPartBytes shared upload action later sharedLater := by
  obtain ⟨task, here, next⟩ := Option.bind_eq_some_iff.mp taken
  split at next
  · cases next
  · rename_i scheduled
    split at next
    · cases next
      exact .skipped here (not_not.mp scheduled)
    · cases next
      exact .started here (not_not.mp scheduled)

private theorem endPart_eq_some {part : Nat}
    {state : PartTask → Option PartState}
    (taken : upload.endPart shared part state =
      some (later, sharedLater)) :
    ∃ task ended, upload.tasks[part]? = some task ∧
      task.state = .running ∧ state task = some ended ∧
      later = (upload.setTask part { task with state := ended }).release 1 ∧
      sharedLater = shared.release 1 := by
  obtain ⟨task, here, next⟩ := Option.bind_eq_some_iff.mp taken
  split at next
  · cases next
  · rename_i running
    obtain ⟨ended, known, last⟩ := Option.bind_eq_some_iff.mp next
    cases last
    exact ⟨task, ended, here, not_not.mp running, known, rfl, rfl⟩

private theorem moves_sendPart {part : Nat} {messageId : Int}
    (taken : upload.sendPart shared part messageId =
      some (later, sharedLater)) :
    Moves maxPartBytes shared upload action later sharedLater := by
  obtain ⟨task, here, next⟩ := Option.bind_eq_some_iff.mp taken
  split at next
  · cases next
  · rename_i new
    obtain ⟨other, ended, there, running, known, rfl, rfl⟩ :=
      endPart_eq_some next
    cases here.symm.trans there
    cases known
    exact .sent here running (by simpa using new)

private theorem moves_gathered
    (taken : upload.gathered shared = some (later, sharedLater)) :
    Moves maxPartBytes shared upload action later sharedLater := by
  unfold gathered at taken
  split at taken
  · rename_i cancelled gathering
    split at taken
    · rename_i messages results
      split at taken
      · cases taken
        exact .fails (.inr ⟨cancelled, gathering⟩)
      · rename_i undisturbed
        cases taken
        rw [Bool.not_eq_true] at undisturbed
        exact .gathered (undisturbed ▸ gathering) results
    · split at taken
      · cases taken
        exact .fails (.inr ⟨cancelled, gathering⟩)
      · cases taken
  · cases taken

private theorem moves_cleaned
    (taken : upload.cleaned shared = some (later, sharedLater)) :
    Moves maxPartBytes shared upload action later sharedLater := by
  unfold cleaned at taken
  split at taken
  · rename_i cancelled cleaning
    split at taken
    · cases taken
    · rename_i finished
      have done : upload.tasks.all PartTask.done = true := by
        simpa using finished
      split at taken
      · rename_i again
        cases taken
        exact .interrupted (again ▸ cleaning) done
      · rename_i undisturbed
        cases taken
        rw [Bool.not_eq_true] at undisturbed
        exact .cleaned (undisturbed ▸ cleaning) done
  · cases taken

private theorem moves_cancel
    (taken : upload.cancel shared = some (later, sharedLater)) :
    Moves maxPartBytes shared upload .cancel later sharedLater := by
  unfold cancel at taken
  cases phase : upload.phase with
  | opening =>
      simp only [phase] at taken
      cases taken
      exact .opened phase (.inr rfl)
  | acquiring =>
      simp only [phase] at taken
      cases taken
      exact .fails (.inl phase)
  | reading data yielding =>
      simp only [phase] at taken
      cases taken
      exact .abandoned phase
  | gathering cancelled =>
      simp only [phase] at taken
      cases taken
      exact .cancelGather phase
  | cleaning cancelled =>
      simp only [phase] at taken
      cases taken
      exact .cancelClean phase
  | closing outcome =>
      simp only [phase] at taken
      cases taken
      exact .closed phase (.inr rfl)
  | ended outcome =>
      simp only [phase] at taken
      cases taken

theorem moves
    (taken : upload.step maxPartBytes shared action =
      some (later, sharedLater)) :
    Moves maxPartBytes shared upload action later sharedLater := by
  cases action with
  | opened => exact moves_opened (.inl rfl) taken
  | openFails => exact moves_opened (.inr rfl) taken
  | acquire => exact moves_acquire taken
  | read length => exact moves_read taken
  | readFails =>
      simp only [step, readFails] at taken
      split at taken
      · rename_i data reading
        cases taken
        exact .abandoned reading
      · cases taken
  | resume => exact moves_resume taken
  | startPart part => exact moves_startPart taken
  | sendPart part messageId => exact moves_sendPart taken
  | partFails part =>
      obtain ⟨task, ended, here, running, known, rfl, rfl⟩ :=
        endPart_eq_some taken
      cases known
      exact .notSent here running (.inl rfl)
  | partCancelled part =>
      obtain ⟨task, ended, here, running, known, rfl, rfl⟩ :=
        endPart_eq_some taken
      split at known
      · cases known
        exact .notSent here running (.inr rfl)
      · cases known
  | gathered => exact moves_gathered taken
  | cleaned => exact moves_cleaned taken
  | closed =>
      simp only [step, closed] at taken
      split at taken
      · rename_i outcome closing
        cases taken
        exact .closed closing (.inl rfl)
      · cases taken
  | closeFails =>
      simp only [step, closed] at taken
      split at taken
      · rename_i outcome closing
        cases taken
        exact .closed closing (.inr rfl)
      · cases taken
  | cancel => exact moves_cancel taken

end Inversion

/-- The store loses the slots that an upload counts as acquired, and gets back
those that it counts as released. -/
theorem Moves.uploadSlots {maxPartBytes : Nat}
    {shared sharedLater : DiscordShared} {upload later : DiscordUpload}
    {action : DiscordUploadAction}
    (moved : Moves maxPartBytes shared upload action later sharedLater) :
    sharedLater.uploadSlots + later.acquired + upload.released =
      shared.uploadSlots + upload.acquired + later.released := by
  have reads : ∀ (before : DiscordShared) (reader : DiscordUpload)
      (data : List UInt8),
      reader.partRead maxPartBytes before data = (later, sharedLater) →
        sharedLater.uploadSlots + later.acquired + reader.released =
          before.uploadSlots + reader.acquired + later.released := by
    intro before reader data result
    unfold partRead at result
    split at result
    · cases result
      simp only [enter, release, DiscordShared.release]
      omega
    · cases result
      rfl
  cases moved with
  | acquired acquiring free more =>
      dsimp only
      omega
  | acquiredEmpty acquiring free empty result =>
      have counted := reads _ _ _ result
      dsimp only at counted
      omega
  | partEnds reading finished result => exact reads _ _ _ result
  | abandoned reading =>
      simp only [abandonPart, clean, cancelTasks, enter, release,
        DiscordShared.release]
      omega
  | sent here running new =>
      simp only [release, setTask]
      omega
  | notSent here running ends =>
      simp only [release, setTask, DiscordShared.release]
      omega
  | cleaned cleaning done =>
      simp only [enter, release, DiscordShared.release]
      omega
  | _ => rfl

end DiscordUpload

end Tgdcfs
