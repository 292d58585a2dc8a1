import Tgdcfs.Backends.DiscordUploadParts

/-!
# Runs of Discord uploads

Uploads that share the slots of a store return the parts that were planned,
with the bytes of their source.  They give back every slot, unless an upload
is cancelled while it waits for tasks that were cancelled before they ran.
-/

namespace Tgdcfs

open Lib

namespace DiscordUploads

/-- An upload is not cancelled while it waits for its cancelled tasks to end,
unless all of them have run. -/
def CancelsAllStarted (state : DiscordUploads) : DiscordStoreAction → Prop
  | .upload position action => ∀ upload,
      state.uploads[position]? = some upload →
        upload.CancelsAllStarted action
  | .post _ _ _ => True

/-- Every upload sends its file, and the store has lost the slots that are
acquired and not released. -/
structure Sending (maxPartBytes slots : Nat)
    (files : List (String × List UInt8)) (state : DiscordUploads) :
    Prop where
  files : state.uploads.map (fun upload =>
    (upload.fileName, upload.source)) = files
  exact_ : ∀ upload ∈ state.uploads,
    upload.Exact maxPartBytes state.shared.documents
  slots : state.shared.uploadSlots +
      (state.uploads.map DiscordUpload.acquired).sum =
    slots + (state.uploads.map DiscordUpload.released).sum

variable {maxPartBytes slots : Nat} {files : List (String × List UInt8)}
  {state next : DiscordUploads} {action : DiscordStoreAction}

theorem Sending.initial (documents : Dict Int (String × List UInt8)) :
    (DiscordUploads.initial slots documents files).Sending maxPartBytes slots
      files := by
  refine ⟨?_, ?_, ?_⟩
  · simp only [DiscordUploads.initial, List.map_map]
    exact List.map_id files
  · intro upload member
    obtain ⟨file, _, rfl⟩ := List.mem_map.mp member
    exact .begin file.1 file.2 documents
  · simp only [DiscordUploads.initial, List.map_map]
    rfl

variable {upload : DiscordUpload}

theorem documents_grow {shared sharedLater : DiscordShared}
    {later : DiscordUpload} {action : DiscordUploadAction}
    (moved : DiscordUpload.Moves maxPartBytes shared upload action later
      sharedLater) (messageId : Int) (document : String × List UInt8)
    (known : shared.documents.get? messageId = some document) :
    sharedLater.documents.get? messageId = some document := by
  have reads : ∀ (before : DiscordShared) (reader : DiscordUpload)
      (data : List UInt8),
      reader.partRead maxPartBytes before data = (later, sharedLater) →
        sharedLater.documents = before.documents := by
    intro before reader data result
    unfold DiscordUpload.partRead at result
    split at result <;> cases result <;> rfl
  cases moved with
  | acquiredEmpty acquiring free empty result =>
      rw [reads _ _ _ result]
      exact known
  | partEnds reading finished result =>
      rw [reads _ _ _ result]
      exact known
  | sent here running new =>
      rw [Dict.get?_set, if_neg]
      · exact known
      · rintro rfl
        cases new.symm.trans known
  | _ => exact known

theorem file_eq {shared sharedLater : DiscordShared} {later : DiscordUpload}
    {action : DiscordUploadAction}
    (moved : DiscordUpload.Moves maxPartBytes shared upload action later
      sharedLater) :
    (later.fileName, later.source) = (upload.fileName, upload.source) := by
  have reads : ∀ (before : DiscordShared) (reader : DiscordUpload)
      (data : List UInt8),
      reader.partRead maxPartBytes before data = (later, sharedLater) →
        (later.fileName, later.source) =
          (reader.fileName, reader.source) := by
    intro before reader data result
    unfold DiscordUpload.partRead at result
    split at result <;> cases result <;> rfl
  cases moved with
  | acquiredEmpty acquiring free empty result =>
      have same := reads _ _ _ result
      exact same
  | partEnds reading finished result => exact reads _ _ _ result
  | _ => rfl

/-- A step of the store is a step of one upload, or a new document. -/
theorem step_cases
    (taken : discordStep maxPartBytes state action = some next) :
    (∃ position step upload later,
      action = .upload position step ∧
      state.uploads[position]? = some upload ∧
      DiscordUpload.Moves maxPartBytes state.shared upload step later
        next.shared ∧
      next.uploads = state.uploads.set position later) ∨
    ∃ messageId document,
      state.shared.documents.get? messageId = none ∧
      next = { state with
        shared := { state.shared with
          documents := state.shared.documents.set messageId document } } := by
  cases action with
  | upload position step =>
      obtain ⟨upload, here, rest⟩ := Option.bind_eq_some_iff.mp taken
      obtain ⟨⟨later, shared⟩, moved, made⟩ :=
        Option.bind_eq_some_iff.mp rest
      cases made
      exact .inl ⟨position, step, upload, later, rfl, here,
        DiscordUpload.moves moved, rfl⟩
  | post messageId name data =>
      simp only [discordStep] at taken
      split at taken
      · cases taken
      · rename_i new
        cases taken
        exact .inr ⟨messageId, (name, data), by simpa using new, rfl⟩

theorem Sending.step (positive : 0 < maxPartBytes)
    (sending : state.Sending maxPartBytes slots files)
    (taken : discordStep maxPartBytes state action = some next) :
    next.Sending maxPartBytes slots files := by
  rcases step_cases taken with
    ⟨position, step, upload, later, _, here, moved, uploads⟩ |
    ⟨messageId, document, new, rfl⟩
  · have before := sending.exact_ upload (List.mem_of_getElem? here)
    refine ⟨?_, ?_, ?_⟩
    · rw [uploads, map_set_of_eq _ here (file_eq moved)]
      exact sending.files
    · intro other member
      rw [uploads] at member
      rcases List.mem_or_eq_of_mem_set member with older | rfl
      · exact (sending.exact_ other older).grow (documents_grow moved)
      · exact before.step positive moved
    · have acquired := sum_map_set_add DiscordUpload.acquired here later
      have released := sum_map_set_add DiscordUpload.released here later
      have moving := moved.uploadSlots
      have total := sending.slots
      rw [uploads]
      omega
  · refine ⟨sending.files, ?_, sending.slots⟩
    intro upload member
    apply (sending.exact_ upload member).grow
    intro other old known
    rw [Dict.get?_set, if_neg]
    · exact known
    · rintro rfl
      cases new.symm.trans known

theorem accounted_step
    (accounted : ∀ upload ∈ state.uploads, upload.Accounted)
    (allowed : state.CancelsAllStarted action)
    (taken : discordStep maxPartBytes state action = some next) :
    ∀ upload ∈ next.uploads, upload.Accounted := by
  rcases step_cases taken with
    ⟨position, step, upload, later, rfl, here, moved, uploads⟩ |
    ⟨messageId, document, new, rfl⟩
  · intro other member
    rw [uploads] at member
    rcases List.mem_or_eq_of_mem_set member with older | rfl
    · exact accounted other older
    · exact (accounted upload (List.mem_of_getElem? here)).step
        (allowed upload here) moved
  · exact accounted

/-- The messages of an upload that returned, part by part. -/
theorem sent_exact {documents : Dict Int (String × List UInt8)}
    {messages : List SentFileMessage}
    (exact_ : upload.Exact maxPartBytes documents)
    (returned : upload.phase = .ended (.sent messages)) :
    upload.contents.flatten = upload.source ∧
      messages.map SentFileMessage.size =
        planParts maxPartBytes upload.source.length ∧
      List.Forall₂ (fun (message : SentFileMessage) part =>
        ∃ name, documents.get? message.messageId = some (name, part))
        messages upload.contents := by
  have cut := exact_.cut
  unfold DiscordUpload.Cut at cut
  rw [returned] at cut
  obtain ⟨whole, results⟩ := cut
  have pairs : List.Forall₂ (fun task (message : SentFileMessage) =>
      message.size = task.data.length ∧
        documents.get? message.messageId = some (task.name, task.data))
      upload.tasks messages := by
    have made := (List.forall₂_and_left upload.tasks messages).mpr
      ⟨fun _ member => member, forall₂_of_mapM_some results⟩
    apply made.imp
    rintro task message ⟨member, result⟩
    unfold PartTask.result at result
    split at result
    · rename_i messageId sent
      cases result
      exact ⟨rfl, exact_.posted task member messageId sent⟩
    · cases result
  refine ⟨whole.bytes, ?_, ?_⟩
  · have sizes : messages.map SentFileMessage.size =
        upload.contents.map List.length := by
      rw [DiscordUpload.contents, List.map_map, ← List.forall₂_eq_eq_eq,
        List.forall₂_map_left_iff, List.forall₂_map_right_iff]
      exact (pairs.imp fun _ _ both => both.1).flip
    rw [sizes, whole.sizes, exact_.declared]
  · rw [DiscordUpload.contents, List.forall₂_map_right_iff]
    exact (pairs.imp fun task _ both =>
      (⟨task.name, both.2⟩ : ∃ name, _)).flip

/-- An upload that returns has sent its source in the parts that were
planned, and says so.  An upload that ended, however it did, has released the
slots it had acquired, as long as uploads are not cancelled while they wait
for tasks that never ran; when all have ended, the store has its slots
back. -/
theorem uploads_exact_and_accounted (maxPartBytes slots : Nat)
    (positive : 0 < maxPartBytes)
    (documents : Dict Int (String × List UInt8))
    (files : List (String × List UInt8)) :
    (∀ state, Reachable (discordStep maxPartBytes)
        (DiscordUploads.initial slots documents files) state →
      ∀ (position : Nat) upload name source messages,
        files[position]? = some (name, source) →
        state.uploads[position]? = some upload →
        upload.phase = .ended (.sent messages) →
          messages.map SentFileMessage.size =
            planParts maxPartBytes source.length ∧
          ∃ parts : List (List UInt8), parts.flatten = source ∧
            List.Forall₂ (fun (message : SentFileMessage) part =>
              ∃ name, state.shared.documents.get? message.messageId =
                some (name, part)) messages parts) ∧
    ∀ state, ReachableWithin (discordStep maxPartBytes) CancelsAllStarted
        (DiscordUploads.initial slots documents files) state →
      (∀ upload ∈ state.uploads, ∀ outcome,
        upload.phase = .ended outcome →
          upload.released = upload.acquired) ∧
      ((∀ upload ∈ state.uploads, ∃ outcome,
        upload.phase = .ended outcome) →
          state.shared.uploadSlots = slots) := by
  have sends : ∀ state, Reachable (discordStep maxPartBytes)
      (DiscordUploads.initial slots documents files) state →
        state.Sending maxPartBytes slots files := by
    intro state reached
    exact reached.invariant
      (fun _ _ _ sending taken => sending.step positive taken)
      (.initial documents)
  constructor
  · intro state reached position upload name source messages file here
      returned
    have sending := sends state reached
    have same : upload.source = source := by
      have listed := congrArg (fun all => all[position]?) sending.files
      simp only [List.getElem?_map, here, file, Option.map_some,
        Option.some.injEq, Prod.mk.injEq] at listed
      exact listed.2
    obtain ⟨bytes, sizes, posted⟩ := sent_exact
      (sending.exact_ upload (List.mem_of_getElem? here)) returned
    rw [same] at bytes sizes
    exact ⟨sizes, upload.contents, bytes, posted⟩
  · intro state within
    have accounted : ∀ upload ∈ state.uploads, upload.Accounted := by
      refine within.invariant (fun before _ _ accounted allowed taken =>
        accounted_step accounted allowed taken) ?_
      intro upload member
      obtain ⟨file, _, rfl⟩ := List.mem_map.mp member
      exact .begin file.1 file.2.length file.2
    have returned : ∀ upload ∈ state.uploads, ∀ outcome,
        upload.phase = .ended outcome →
          upload.released = upload.acquired := by
      intro upload member outcome ended
      exact (accounted upload member).returned (by rw [ended]; rfl)
    refine ⟨returned, ?_⟩
    intro all
    obtain ⟨labels, _, ran⟩ := within
    have total := (sends state ⟨labels, ran⟩).slots
    have equal : state.uploads.map DiscordUpload.released =
        state.uploads.map DiscordUpload.acquired := by
      apply List.map_congr_left
      intro upload member
      obtain ⟨outcome, ended⟩ := all upload member
      exact returned upload member outcome ended
    rw [equal] at total
    omega

/-- A file of three bytes and an empty one, in parts of two bytes, share one
slot. -/
def twoFiles : DiscordUploads :=
  .initial 1 Dict.empty [("a", [1, 2, 3]), ("b", [])]

theorem uploads_exact_and_accounted_twoFiles :
    ∃ state upload messages, ReachableWithin (discordStep 2)
        CancelsAllStarted twoFiles state ∧
      state.uploads[0]? = some upload ∧
      upload.phase = .ended (.sent messages) ∧
      messages.map SentFileMessage.size = planParts 2 3 ∧
      upload.released = upload.acquired ∧
      state.shared.uploadSlots = 1 := by
  have guarded : Guarded (discordStep 2) CancelsAllStarted twoFiles
      [.upload 0 .opened, .upload 0 .acquire, .upload 0 (.read 2),
        .upload 0 .resume, .upload 1 .opened, .upload 0 (.startPart 0),
        .upload 0 (.sendPart 0 7), .upload 1 .acquire,
        .upload 1 (.startPart 0), .upload 1 (.sendPart 0 8),
        .upload 1 .gathered, .upload 1 .closed, .upload 0 .acquire,
        .upload 0 (.read 1), .upload 0 .resume, .upload 0 (.startPart 1),
        .upload 0 (.sendPart 1 9), .upload 0 .gathered,
        .upload 0 .closed] := by
    iterate 19
      refine ⟨fun _ _ => trivial, ?_⟩
      rintro _ ⟨⟩
    trivial
  have reached : ReachableWithin (discordStep 2) CancelsAllStarted twoFiles
      _ := ⟨_, guarded, rfl⟩
  obtain ⟨exact_, accounted⟩ := uploads_exact_and_accounted 2 1 (by decide)
    Dict.empty [("a", [1, 2, 3]), ("b", [])]
  obtain ⟨sizes, _⟩ := exact_ _ ⟨_, reached.choose_spec.2⟩ 0 _ "a" [1, 2, 3]
    _ rfl rfl rfl
  obtain ⟨returned, free⟩ := accounted _ reached
  refine ⟨_, _, _, reached, rfl, rfl, sizes,
    returned _ List.mem_cons_self _ rfl, free ?_⟩
  intro upload member
  rcases List.mem_cons.mp member with rfl | member
  · exact ⟨_, rfl⟩
  · cases List.mem_singleton.mp member
    exact ⟨_, rfl⟩

/-- The source fails at its second part before the task of the first one has
run, and the upload is cancelled while it waits for that task: the slot of the
first part is lost. -/
theorem cancelled_cleanup_loses_slot :
    ∃ state upload, run (discordStep 2)
        (.initial 2 Dict.empty [("a", [1, 2, 3])])
        [.upload 0 .opened, .upload 0 .acquire, .upload 0 (.read 2),
          .upload 0 .resume, .upload 0 .acquire, .upload 0 .readFails,
          .upload 0 .cancel, .upload 0 (.startPart 0), .upload 0 .cleaned,
          .upload 0 .closed] = some state ∧
      state.uploads = [upload] ∧ upload.phase = .ended .raised ∧
      upload.acquired = 2 ∧ upload.released = 1 ∧
      state.shared.uploadSlots = 1 :=
  ⟨_, _, rfl, rfl, rfl, rfl, rfl, rfl⟩

end DiscordUploads

end Tgdcfs
