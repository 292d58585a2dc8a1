import Tgdcfs.Sftp.Rename
import Tgdcfs.Webdav.Transfer

/-!
# Requests that replace and fail

A COPY, MOVE or replacing rename that ends with an error has changed nothing
exactly if it did not get as far as to remove what it replaces, or to move or
copy the source.
-/

namespace Tgdcfs

open Lib

section Resetting

variable {takes : Volume → Bool} {operation : Volume → OpsAttempt}

theorem Volume.Removal.resetting (removal : Removal takes operation)
    (paths : List (List Char)) :
    Removal (ifReset paths takes) (Volume.resetting paths operation) := by
  unfold ifReset Volume.resetting
  cases paths.all resetsParent with
  | true => exact removal
  | false =>
      refine ⟨?_, ?_, ?_⟩
      · intro volume _
        exact ⟨rfl, nofun⟩
      · intro volume _ taken
        cases taken
      · intro volume _ taken
        cases taken

theorem Volume.Placement.resetting (placement : Placement takes operation)
    (paths : List (List Char)) :
    Placement (ifReset paths takes) (Volume.resetting paths operation) := by
  unfold ifReset Volume.resetting
  cases paths.all resetsParent with
  | true => exact placement
  | false =>
      refine ⟨?_, ?_⟩
      · intro volume _
        exact .refl volume
      · intro before volume _ _ taken
        cases taken

end Resetting

namespace Clients

theorem removeMember_acts (answers : StoreAnswers) (member : Member) :
    Acts Volume.Removal (removes · member)
      (removeMember · answers member) := by
  cases member with
  | root => exact .refused _ (fun _ => rfl) fun _ => rfl
  | folder clientName path id =>
      exact .inside clientName
        ((Volume.rmDir_removal _ true answers.removal).resetting [path])
        (fun _ => rfl) fun _ => rfl
  | resource clientName path =>
      exact .inside clientName
        ((Volume.rmFile_removal path answers.removal).resetting [path])
        (fun _ => rfl) fun _ => rfl

theorem moveMember_acts (answers : StoreAnswers) (destPath : List Char)
    (member : Member) :
    Acts Volume.Placement (moves · destPath member)
      (moveMember · answers destPath member) := by
  cases member with
  | root => exact .refused _ (fun _ => rfl) fun _ => rfl
  | folder clientName path id =>
      exact .inside clientName
        ((Volume.mvDir_placement _ _ answers.pushed).resetting _)
        (fun _ => rfl) fun _ => rfl
  | resource clientName path =>
      exact .inside clientName
        ((Volume.mvFile_placement path _ answers.pushed).resetting _)
        (fun _ => rfl) fun _ => rfl

theorem copyMember_acts (answers : StoreAnswers) (destPath : List Char)
    (member : Member) :
    Acts Volume.Placement (copies · answers destPath member)
      (copyMember · answers destPath member) := by
  cases member with
  | root => exact .refused _ (fun _ => rfl) fun _ => rfl
  | folder clientName path id =>
      exact .inside clientName
        ((Volume.cpDir_placement _ _ answers).resetting _)
        (fun _ => rfl) fun _ => rfl
  | resource clientName path =>
      exact .inside clientName
        ((Volume.cpFile_placement path _ answers).resetting _)
        (fun _ => rfl) fun _ => rfl

theorem clearTarget_acts (answers : StoreAnswers) (plan : RenamePlan)
    (isDir : Bool) :
    Acts Volume.Removal (clears · plan isDir)
      (clearTarget · answers plan isDir) := by
  cases isDir with
  | true =>
      exact .inside plan.clientName
        (Volume.rmDir_removal plan.target false answers.removal)
        (fun _ => rfl) fun _ => rfl
  | false =>
      exact .inside plan.clientName
        (Volume.rmFile_removal plan.target answers.removal)
        (fun _ => rfl) fun _ => rfl

theorem moveSource_acts (answers : StoreAnswers) (plan : RenamePlan) :
    Acts Volume.Placement (movesSource · plan)
      (moveSource · answers plan) := by
  cases isDir : plan.sourceIsDir with
  | true =>
      refine .inside plan.clientName
        (Volume.mvDir_placement plan.source plan.target answers.pushed)
        ?_ ?_
      · intro clients
        rw [movesSource, isDir]
        rfl
      · intro clients
        rw [moveSource, isDir]
        rfl
  | false =>
      refine .inside plan.clientName
        (Volume.mvFile_placement plan.source plan.target answers.pushed)
        ?_ ?_
      · intro clients
        rw [movesSource, isDir]
        rfl
      · intro clients
        rw [moveSource, isDir]
        rfl

end Clients

variable {clients : Clients}

theorem TransferPlan.place_acts (plan : TransferPlan) (verb : TransferVerb)
    (answers : StoreAnswers) :
    Clients.Acts Volume.Placement (plan.places verb answers)
      (plan.place verb answers) := by
  cases verb with
  | move => exact Clients.moveMember_acts answers plan.destPath plan.member
  | copy => exact Clients.copyMember_acts answers plan.destPath plan.member

theorem TransferPlan.perform_eq (plan : TransferPlan) (verb : TransferVerb)
    (answers : StoreAnswers) (clients : Clients) :
    (plan.perform verb answers clients).1 =
      (Clients.replace
        (plan.existing.map fun member clients =>
          clients.removeMember answers member)
        (plan.place verb answers) clients).1 := by
  rw [perform]
  cases plan.existing with
  | none =>
      rw [Option.map_none, Clients.replace]
      dsimp only
      generalize plan.place verb answers clients = placed
      rcases placed with ⟨_, _ | _⟩ <;> rfl
  | some existing =>
      rw [Option.map_some, Clients.replace]
      dsimp only
      generalize clients.removeMember answers existing = removed
      rcases removed with ⟨later, _ | _⟩
      · dsimp only
        generalize plan.place verb answers later = placed
        rcases placed with ⟨_, _ | _⟩ <;> rfl
      · rfl

theorem TransferPlan.perform_unchanged_iff (plan : TransferPlan)
    (verb : TransferVerb) (answers : StoreAnswers)
    (numbered : clients.Numbered) :
    clients.Unchanged (plan.perform verb answers clients).1 ↔
      plan.harmless verb answers clients := by
  rw [plan.perform_eq, harmless]
  cases existing : plan.existing with
  | none =>
      rw [Option.map_none, Clients.replace, Bool.not_eq_true']
      exact Clients.place_unchanged_iff (plan.place_acts verb answers) numbered
  | some member =>
      have removing : ∀ step ∈ some fun clients : Clients =>
          clients.removeMember answers member,
          Clients.Acts Volume.Removal (Clients.removes · member) step := by
        intro step isStep
        cases isStep
        exact Clients.removeMember_acts answers member
      rw [Option.map_some, Clients.replace_unchanged_iff
        (plan.place_acts verb answers) removing numbered,
        Option.isSome_some, if_pos rfl, Bool.not_eq_true']

theorem WebdavApp.transfer_unchanged_iff (app : WebdavApp)
    (answers : StoreAnswers) (request : TransferRequest)
    (numbered : clients.Numbered) :
    clients.Unchanged (app.transfer answers request clients).1 ↔
      app.harmless answers request clients := by
  unfold transfer harmless
  cases app.plan clients request with
  | error answer => exact iff_of_true (.refl clients) rfl
  | ok plan => exact plan.perform_unchanged_iff request.verb answers numbered

theorem Clients.rename_unchanged_iff (answers : StoreAnswers)
    (readonly : Bool) (oldPath newPath : List Char) (overwrite : Bool)
    (numbered : clients.Numbered) :
    clients.Unchanged
        (clients.rename answers readonly oldPath newPath overwrite).1 ↔
      clients.renameHarmless readonly oldPath newPath overwrite := by
  unfold rename renameHarmless
  cases clients.renamePlan readonly oldPath newPath overwrite with
  | error failure => exact iff_of_true (.refl clients) rfl
  | ok found =>
      cases found with
      | none => exact iff_of_true (.refl clients) rfl
      | some plan =>
          dsimp only
          have placing := moveSource_acts answers plan
          cases plan.existing with
          | none =>
              rw [Bool.not_eq_true']
              exact place_unchanged_iff placing numbered
          | some isDir =>
              have removing : ∀ step ∈ some fun clients : Clients =>
                  clients.clearTarget answers plan isDir,
                  Acts Volume.Removal (clears · plan isDir) step := by
                intro step isStep
                cases isStep
                exact clearTarget_acts answers plan isDir
              have whole := replace_unchanged_iff placing removing numbered
              rw [Option.isSome_some, if_pos rfl] at whole
              rw [Bool.not_eq_true', ← whole, replace]
              dsimp only
              generalize clients.clearTarget answers plan isDir = removed
              rcases removed with ⟨_, _ | _⟩ <;> exact Iff.rfl

/-- A WebDAV COPY or MOVE, or an SFTP rename that replaces its target. -/
inductive ReplacingRequest where
  | transfer (app : WebdavApp) (request : TransferRequest)
  | posixRename (readonly : Bool) (oldPath newPath : List Char)

namespace ReplacingRequest

/-- What the request leaves, and whether it ends with an error. -/
def handle (answers : StoreAnswers) (clients : Clients) :
    ReplacingRequest → Clients × Bool
  | transfer app request =>
      let ended := app.transfer answers request clients
      (ended.1, ended.2.isError)
  | posixRename readonly oldPath newPath =>
      let ended := clients.posixRename answers readonly oldPath newPath
      (ended.1, ended.2.isSome)

/-- Neither a removal nor a move or a copy takes effect. -/
def harmless (answers : StoreAnswers) (clients : Clients) :
    ReplacingRequest → Bool
  | transfer app request => app.harmless answers request clients
  | posixRename readonly oldPath newPath =>
      clients.renameHarmless readonly oldPath newPath true

theorem unchanged_iff (request : ReplacingRequest) (answers : StoreAnswers)
    (numbered : clients.Numbered) :
    clients.Unchanged (request.handle answers clients).1 ↔
      request.harmless answers clients := by
  cases request with
  | transfer app request =>
      exact app.transfer_unchanged_iff answers request numbered
  | posixRename readonly oldPath newPath =>
      exact Clients.rename_unchanged_iff answers readonly oldPath newPath true
        numbered

def oneFile (name : Name) (messageId : Int) : Volume :=
  { tree :=
      { dirs := Dict.empty.set 0
          { name := "root".toList
            parent := none
            children := []
            files :=
              [{ messageId := messageId
                 name := name
                 mirrors := .empty
                 store := none }] } }
    stored := fun message => message.2 = messageId
    nextDir := 1
    nextMessage := 10 }

def twoSystems : Clients :=
  (Dict.empty.set ['a'] (oneFile ['x'] 1)).set ['b'] (oneFile ['y'] 2)

/-- Every store answers. -/
def answering : StoreAnswers :=
  { removal := { pushed := true, deleted := [("", 2)], finished := true }
    copy := fun _ _ =>
      { saved := some (.empty, none), made := [], left := []
        announced := true }
    pushed := true }

def moveTo (destination : String) : ReplacingRequest :=
  .transfer
    { basePath := "/webdav".toList, urlPath := some, unquote := id }
    { verb := .move
      path := "a/x".toList
      destination := some destination.toList
      overwrite := none }

theorem oneFile_numbered {name : Name} {messageId : Int}
    (old : messageId < 10) : (oneFile name messageId).Numbered := by
  have only : ∀ id dir, (oneFile name messageId).tree.dirs.get? id = some dir →
      id = 0 ∧ dir.children = [] ∧
        ∀ file ∈ dir.files, file.messageId = messageId := by
    intro id dir found
    simp only [oneFile, Dict.get?_set] at found
    split at found
    · rename_i here
      cases found
      exact ⟨here, rfl, by simp⟩
    · cases found
  refine ⟨?_, ?_, ?_⟩
  · intro id dir child found member
    rw [(only id dir found).2.1] at member
    cases member
  · intro id dir found
    rw [(only id dir found).1]
    exact Nat.one_pos
  · intro id dir file found member
    rw [(only id dir found).2.2 file member]
    exact old

theorem twoSystems_numbered : twoSystems.Numbered := by
  intro clientName volume found
  simp only [twoSystems, Dict.get?_set] at found
  split at found
  · cases found
    exact oneFile_numbered (by decide)
  · split at found
    · cases found
      exact oneFile_numbered (by decide)
    · cases found

end ReplacingRequest

end Tgdcfs
