import Tgdcfs.Core.DirectoryMoves
import Tgdcfs.Replication.Queue
import Tgdcfs.Lib.Run

/-!
# Queued work and renames

The queue knows files by their path.  Moving a file or a directory changes
the tree and leaves the queue alone, and a path that leads nowhere is taken
for a removed file.  A descriptor that cannot be read in full is no failure
either: the item is taken off the queue and the versions stay as they are.
-/

namespace Tgdcfs

open Lib

/-- How `backfill_file` and the push ended.  It is `overlooked` when nothing
failed, but the descriptor that was read lacks versions: an empty stand-in for
one that could not be read, or versions that no store answered for. -/
inductive BackfillOutcome where
  | success
  | overlooked
  | failure (error : String)

/-- A file system with its queue; the descriptors in `dirty` have a version
written since their last successful backfill. -/
structure Mount where
  tree : DirectoryTree
  queue : ReplicationQueue (List Char)
  dirty : List Int

inductive MountAction where
  | createDir (under id : Nat) (name : Name)
  | createFile (location : Nat) (file : FileRef) (now : ℚ)
  | update (location : Nat) (file : FileRef) (now : ℚ)
  | moveFile (source : Nat) (file : FileRef) (target : Nat) (newName : Name)
  | moveDir (id newParent : Nat) (newName : Name)
  | processOne (path : List Char) (outcome : BackfillOutcome) (now : ℚ)

namespace Mount

/-- A request that raises leaves the tree as it was. -/
def changeTree (state : Mount)
    (result : Except DirectoryError DirectoryTree) : Mount :=
  match result with
  | .error _ => state
  | .ok tree => { state with tree := tree }

/-- `_written`: the new version is announced under the path of the file. -/
def written (state : Mount) (fs : String) (location : Nat) (file : FileRef)
    (now : ℚ) : Mount :=
  { state with
    queue := state.queue.enqueue fs (state.tree.filePath location file) now
    dirty := file.messageId :: state.dirty }

def processOne (state : Mount) (fs : String) (path : List Char)
    (outcome : BackfillOutcome) (now : ℚ) : Mount :=
  match state.tree.findFile path with
  | none => { state with queue := state.queue.done fs path }
  | some file =>
      match outcome with
      | .failure error =>
          { state with queue := (state.queue.failed fs path error now).1 }
      | .overlooked => { state with queue := state.queue.done fs path }
      | .success =>
          { state with
            queue := state.queue.done fs path
            dirty := state.dirty.filter (· ≠ file.messageId) }

/-- Descriptors check the name of their file, so that no version is written
under an invalid one; moving a file does not check it. -/
def step (fs : String) (state : Mount) : MountAction → Option Mount
  | .createDir under id name =>
      if state.tree.dirs.contains id then none
      else some (state.changeTree (state.tree.createDir under id name))
  | .createFile location file now =>
      if !validName file.name then some state
      else
        match state.tree.createFileRef location file with
        | .error _ => some state
        | .ok tree =>
            some ({ state with tree := tree }.written fs location file now)
  | .update location file now =>
      if !validName file.name then some state
      else
        match state.tree.dirs.get? location with
        | none => none
        | some dir =>
            if file ∈ dir.files then
              some (state.written fs location file now)
            else none
  | .moveFile source file target newName =>
      match state.tree.dirs.get? source with
      | none => none
      | some dir =>
          if file ∈ dir.files then
            some (state.changeTree
              (state.tree.relocateFileRef source file target newName))
          else none
  | .moveDir id newParent newName =>
      some (state.changeTree (state.tree.moveTo id newParent newName))
  | .processOne path outcome now =>
      if state.queue.holds fs path then
        some (state.processOne fs path outcome now)
      else none

/-- Every file with a version to replicate is queued under a path that leads
to it.  A file is known by its descriptor. -/
def Followed (fs : String) (state : Mount) : Prop :=
  ∀ id file, state.tree.Lists id file → file.messageId ∈ state.dirty →
    ∃ path found, state.queue.holds fs path ∧
      state.tree.findFile path = some found ∧
      found.messageId = file.messageId

/-- What is moved was not written since its last successful backfill, and
neither was a file whose versions a run of the worker overlooks.  A move that
raises, or that leaves things where they are, is free. -/
def KeepsQueued (state : Mount) : MountAction → Prop
  | .moveFile source file target newName =>
      ∀ next, state.tree.relocateFileRef source file target newName =
          .ok next →
        (target = source ∧
          DirectoryTree.newNameOr newName file.name = file.name) ∨
        file.messageId ∉ state.dirty
  | .moveDir id newParent newName =>
      ∀ next dir, state.tree.moveTo id newParent newName = .ok next →
        state.tree.dirs.get? id = some dir →
          (dir.parent = some newParent ∧
            DirectoryTree.newNameOr newName dir.name = dir.name) ∨
          ∀ place file, state.tree.Lists place file →
            file.messageId ∈ state.dirty →
              state.tree.isAncestorOf id place = false
  | .processOne path .overlooked _ =>
      ∀ file, state.tree.findFile path = some file →
        file.messageId ∉ state.dirty
  | _ => True

/-- A file to replicate is queued under the path of a ref to it. -/
def QueuedRef (fs : String) (state : Mount) (descriptor : Int) : Prop :=
  ∃ place ref, state.tree.Lists place ref ∧ ref.messageId = descriptor ∧
    validName ref.name ∧
    state.queue.holds fs (state.tree.filePath place ref)

structure Tracked (fs : String) (state : Mount) : Prop where
  wellFormed : state.tree.WellFormed
  queued : ∀ id file, state.tree.Lists id file →
    file.messageId ∈ state.dirty → QueuedRef fs state file.messageId

variable {fs : String} {state : Mount} {next : DirectoryTree}

theorem findFile_of_lists (wellFormed : state.tree.WellFormed)
    {place : Nat} {ref : FileRef} (listed : state.tree.Lists place ref)
    (valid : validName ref.name) :
    state.tree.findFile (state.tree.filePath place ref) = some ref := by
  obtain ⟨dir, found, member⟩ := listed
  exact wellFormed.findFile_filePath found member valid

theorem Tracked.followed (tracked : Tracked fs state) :
    Followed fs state := by
  intro id file listed dirty
  obtain ⟨place, ref, refListed, same, valid, holds⟩ :=
    tracked.queued id file listed dirty
  exact ⟨_, ref, holds,
    findFile_of_lists tracked.wellFormed refListed valid, same⟩

/-- A change of the tree keeps the queued paths of the files that stay. -/
theorem Tracked.changeTree (tracked : Tracked fs state)
    (nextWellFormed : next.WellFormed)
    (back : ∀ id file, next.Lists id file →
      file.messageId ∈ state.dirty →
        ∃ place other, state.tree.Lists place other ∧
          other.messageId = file.messageId)
    (stays : ∀ place ref, state.tree.Lists place ref →
      ref.messageId ∈ state.dirty →
        next.Lists place ref ∧
          next.filePath place ref = state.tree.filePath place ref) :
    Tracked fs { state with tree := next } := by
  refine ⟨nextWellFormed, ?_⟩
  intro id file listed dirty
  obtain ⟨oldId, other, listedBefore, sameFile⟩ := back id file listed dirty
  have otherDirty : other.messageId ∈ state.dirty := by
    rw [sameFile]
    exact dirty
  obtain ⟨place, ref, refListed, same, valid, holds⟩ :=
    tracked.queued oldId other listedBefore otherDirty
  have refDirty : ref.messageId ∈ state.dirty := by
    rw [same]
    exact otherDirty
  obtain ⟨refStays, samePath⟩ := stays place ref refListed refDirty
  refine ⟨place, ref, refStays, same.trans sameFile, valid, ?_⟩
  rw [samePath]
  exact holds

theorem Tracked.rehung (tracked : Tracked fs state) {id parent : Nat}
    {name : Name}
    (rehung : DirectoryTree.Rehung state.tree next id parent name)
    (outside : ∀ place file, state.tree.Lists place file →
      file.messageId ∈ state.dirty →
        state.tree.isAncestorOf id place = false) :
    Tracked fs { state with tree := next } := by
  apply tracked.changeTree (rehung.wellFormed tracked.wellFormed)
  · intro place file listed _
    exact ⟨place, file, rehung.lists_iff.mp listed, rfl⟩
  · intro place ref listed dirty
    refine ⟨rehung.lists_iff.mpr listed, ?_⟩
    have apart := outside place ref listed dirty
    obtain ⟨dir, found, _⟩ := listed
    exact rehung.filePath_eq tracked.wellFormed found apart ref

theorem Tracked.createDir (tracked : Tracked fs state) {under id : Nat}
    {name : Name} (new : state.tree.dirs.get? id = none) :
    Tracked fs (state.changeTree (state.tree.createDir under id name)) := by
  cases created : state.tree.createDir under id name with
  | error failure => exact tracked
  | ok next =>
      apply tracked.rehung
        (DirectoryTree.createDir_rehung tracked.wellFormed new created)
      intro place file listed _
      obtain ⟨dir, found, _⟩ := listed
      obtain ⟨steps, trail⟩ := tracked.wellFormed.hangs place dir found
      rw [Bool.eq_false_iff]
      intro below
      have inside := (tracked.wellFormed.isAncestorOf_iff trail).mp below
      have known := tracked.wellFormed.mem_keys trail id inside
      exact (Dict.get?_eq_none_iff state.tree.dirs id).mp new known

theorem Tracked.moveDir (tracked : Tracked fs state) {id newParent : Nat}
    {newName : Name}
    (guard : KeepsQueued state (.moveDir id newParent newName)) :
    Tracked fs
      (state.changeTree (state.tree.moveTo id newParent newName)) := by
  cases moved : state.tree.moveTo id newParent newName with
  | error failure => exact tracked
  | ok next =>
      obtain ⟨dir, above, oldParent, found, foundTarget, hadParent,
        change⟩ := DirectoryTree.moveTo_ok moved
      rcases change with ⟨_, _, rfl⟩ | ⟨valid, moves, notBelow, unused,
        rfl⟩
      · exact tracked
      · apply tracked.rehung (DirectoryTree.rehang_rehung
          tracked.wellFormed found foundTarget hadParent valid notBelow
          unused)
        rcases guard _ dir moved found with ⟨stays, sameName⟩ | apart
        · rw [hadParent] at stays
          exact (moves ⟨(Option.some.inj stays).symm, sameName⟩).elim
        · exact apart

variable {file : FileRef}

theorem Tracked.moveFile (tracked : Tracked fs state) {source target : Nat}
    {newName : Name}
    (guard : KeepsQueued state (.moveFile source file target newName)) :
    Tracked fs (state.changeTree
      (state.tree.relocateFileRef source file target newName)) := by
  cases moved : state.tree.relocateFileRef source file target newName with
  | error failure => exact tracked
  | ok next =>
      rcases guard next moved with stays | clean
      · rw [DirectoryTree.relocateFileRef, if_pos stays] at moved
        cases moved
        exact tracked
      · obtain ⟨same, nextWellFormed, forward, backward⟩ :=
          DirectoryTree.relocateFileRef_spec tracked.wellFormed moved
        apply tracked.changeTree nextWellFormed
        · intro id other listed dirty
          rcases backward id other listed with before | isMoved
          · exact ⟨id, other, before, rfl⟩
          · rw [isMoved] at dirty
            exact (clean dirty).elim
        · intro place ref listed dirty
          have different : ref ≠ file := by
            rintro rfl
            exact clean dirty
          refine ⟨forward place ref listed different, ?_⟩
          obtain ⟨dir, found, _⟩ := listed
          exact same.filePath_eq tracked.wellFormed nextWellFormed found ref

/-- A version written to a listed file is queued under its path. -/
theorem tracked_written {location : Nat} {now : ℚ}
    (wellFormed : state.tree.WellFormed)
    (listed : state.tree.Lists location file) (valid : validName file.name)
    (others : ∀ id other, state.tree.Lists id other →
      other.messageId ∈ state.dirty → other.messageId ≠ file.messageId →
        QueuedRef fs state other.messageId) :
    Tracked fs (state.written fs location file now) := by
  refine ⟨wellFormed, ?_⟩
  intro id other otherListed dirty
  by_cases same : other.messageId = file.messageId
  · refine ⟨location, file, listed, same.symm, valid, ?_⟩
    rw [Mount.written, ReplicationQueue.holds_enqueue]
    simp
  · have dirtyBefore : other.messageId ∈ state.dirty := by
      rcases List.mem_cons.mp dirty with isFile | before
      · exact (same isFile).elim
      · exact before
    obtain ⟨place, ref, refListed, sameRef, refValid, holds⟩ :=
      others id other otherListed dirtyBefore same
    refine ⟨place, ref, refListed, sameRef, refValid, ?_⟩
    rw [Mount.written, ReplicationQueue.holds_enqueue, holds]
    exact Bool.or_true _

theorem Tracked.update (tracked : Tracked fs state) {location : Nat} {now : ℚ}
    (listed : state.tree.Lists location file) (valid : validName file.name) :
    Tracked fs (state.written fs location file now) := by
  apply tracked_written tracked.wellFormed listed valid
  intro id other otherListed dirty _
  exact tracked.queued id other otherListed dirty

theorem Tracked.createFile (tracked : Tracked fs state) {location : Nat}
    {now : ℚ} (valid : validName file.name)
    (created : state.tree.createFileRef location file = .ok next) :
    Tracked fs ({ state with tree := next }.written fs location file
      now) := by
  obtain ⟨same, nextWellFormed⟩ :=
    DirectoryTree.createFileRef_wellFormed tracked.wellFormed created
  apply tracked_written nextWellFormed _ valid
  · intro id other listed dirty different
    rcases (DirectoryTree.createFileRef_lists created).mp listed with
      before | ⟨_, isFile⟩
    · obtain ⟨place, ref, refListed, sameRef, refValid, holds⟩ :=
        tracked.queued id other before dirty
      refine ⟨place, ref, (DirectoryTree.createFileRef_lists created).mpr
        (.inl refListed), sameRef, refValid, ?_⟩
      obtain ⟨dir, found, _⟩ := refListed
      rw [same.filePath_eq tracked.wellFormed nextWellFormed found ref]
      exact holds
    · rw [isFile] at different
      exact (different rfl).elim
  · exact (DirectoryTree.createFileRef_lists created).mpr (.inr ⟨rfl, rfl⟩)

theorem Tracked.processOne (tracked : Tracked fs state)
    (path : List Char) (outcome : BackfillOutcome) (now : ℚ)
    (guard : KeepsQueued state (.processOne path outcome now)) :
    Tracked fs (state.processOne fs path outcome now) := by
  -- A queued path that leads to a ref is the worked one only for that ref.
  have kept : ∀ place ref, state.tree.Lists place ref →
      validName ref.name → state.tree.findFile path ≠ some ref →
        state.queue.holds fs (state.tree.filePath place ref) →
          (state.queue.done fs path).holds fs
            (state.tree.filePath place ref) := by
    intro place ref listed valid elsewhere holds
    have different : state.tree.filePath place ref ≠ path := by
      rintro rfl
      exact elsewhere
        (findFile_of_lists tracked.wellFormed listed valid)
    rw [ReplicationQueue.holds_done, holds]
    simp [different]
  unfold Mount.processOne
  cases found : state.tree.findFile path with
  | none =>
      refine ⟨tracked.wellFormed, ?_⟩
      intro id file listed dirty
      obtain ⟨place, ref, refListed, same, valid, holds⟩ :=
        tracked.queued id file listed dirty
      refine ⟨place, ref, refListed, same, valid,
        kept place ref refListed valid ?_ holds⟩
      rw [found]
      simp
  | some worked =>
      cases outcome with
      | failure error =>
          refine ⟨tracked.wellFormed, ?_⟩
          intro id file listed dirty
          obtain ⟨place, ref, refListed, same, valid, holds⟩ :=
            tracked.queued id file listed dirty
          refine ⟨place, ref, refListed, same, valid, ?_⟩
          dsimp only
          rw [ReplicationQueue.holds_failed]
          exact holds
      | overlooked =>
          refine ⟨tracked.wellFormed, ?_⟩
          intro id file listed dirty
          obtain ⟨place, ref, refListed, same, valid, holds⟩ :=
            tracked.queued id file listed dirty
          refine ⟨place, ref, refListed, same, valid,
            kept place ref refListed valid ?_ holds⟩
          intro leads
          apply guard ref leads
          rw [same]
          exact dirty
      | success =>
          refine ⟨tracked.wellFormed, ?_⟩
          intro id file listed dirty
          obtain ⟨dirtyBefore, notWorked⟩ := List.mem_filter.mp dirty
          obtain ⟨place, ref, refListed, same, valid, holds⟩ :=
            tracked.queued id file listed dirtyBefore
          refine ⟨place, ref, refListed, same, valid,
            kept place ref refListed valid ?_ holds⟩
          rw [found]
          rintro ⟨⟩
          simp [same] at notWorked

theorem Tracked.step (tracked : Tracked fs state) {action : MountAction}
    {after : Mount} (guard : KeepsQueued state action)
    (taken : step fs state action = some after) : Tracked fs after := by
  cases action with
  | createDir under id name =>
      simp only [Mount.step] at taken
      split at taken
      · cases taken
      · rename_i new
        cases taken
        exact tracked.createDir (by simpa [Dict.contains] using new)
  | createFile location file now =>
      simp only [Mount.step] at taken
      split at taken
      · cases taken
        exact tracked
      · rename_i valid
        split at taken
        · cases taken
          exact tracked
        · rename_i next created
          cases taken
          exact tracked.createFile (by simpa using valid) created
  | update location file now =>
      simp only [Mount.step] at taken
      split at taken
      · cases taken
        exact tracked
      · rename_i valid
        split at taken
        · cases taken
        · rename_i dir found
          split at taken
          · rename_i member
            cases taken
            exact tracked.update ⟨dir, found, member⟩ (by simpa using valid)
          · cases taken
  | moveFile source file target newName =>
      simp only [Mount.step] at taken
      split at taken
      · cases taken
      · split at taken
        · cases taken
          exact tracked.moveFile guard
        · cases taken
  | moveDir id newParent newName =>
      simp only [Mount.step] at taken
      cases taken
      exact tracked.moveDir guard
  | processOne path outcome now =>
      simp only [Mount.step] at taken
      split at taken
      · cases taken
        exact tracked.processOne path outcome now guard
      · cases taken

/-- Nothing waits for its first backfill. -/
structure Started (state : Mount) : Prop where
  wellFormed : state.tree.WellFormed
  clean : state.dirty = []

theorem Started.tracked (started : Started state) : Tracked fs state := by
  refine ⟨started.wellFormed, ?_⟩
  intro id file _ dirty
  rw [started.clean] at dirty
  cases dirty

/-- An empty file system. -/
def blank : Mount :=
  { tree := ⟨⟨[(0, ⟨['r', 'o', 'o', 't'], none, [], []⟩)], by decide⟩⟩
    queue := ⟨Dict.empty⟩
    dirty := [] }

theorem blank_started : Started blank := by
  have only : ∀ id dir, blank.tree.dirs.get? id = some dir →
      id = 0 ∧ dir = ⟨['r', 'o', 'o', 't'], none, [], []⟩ := by
    intro id dir found
    have member := (Dict.get?_eq_some_iff _ _ _).mp found
    have same := List.mem_singleton.mp member
    cases same
    exact ⟨rfl, rfl⟩
  refine ⟨⟨⟨_, rfl, rfl⟩, ?_, ?_, ?_, ?_, ?_, ?_, ?_⟩, rfl⟩
  · intro id dir found
    obtain ⟨rfl, _⟩ := only id dir found
    exact ⟨[], .here⟩
  · intro id dir parent found isParent
    obtain ⟨_, rfl⟩ := only id dir found
    cases isParent
  · intro id dir child found inside
    obtain ⟨_, rfl⟩ := only id dir found
    cases inside
  · intro id dir found
    obtain ⟨_, rfl⟩ := only id dir found
    exact List.nodup_nil
  · intro id dir parent found isParent
    obtain ⟨_, rfl⟩ := only id dir found
    cases isParent
  · intro parent first second firstDir secondDir foundFirst foundSecond
    obtain ⟨rfl, _⟩ := only first firstDir foundFirst
    obtain ⟨rfl, _⟩ := only second secondDir foundSecond
    intros
    rfl
  · intro id dir found
    obtain ⟨_, rfl⟩ := only id dir found
    exact List.nodup_nil

def noteRef : FileRef := ⟨7, ['a'], Dict.empty, none⟩

/-- A file is replicated, moved into a directory and written again. -/
def movedWhenReplicated : List MountAction :=
  [.createDir 0 1 ['d'], .createFile 0 noteRef 0,
    .processOne ['/', 'a'] .success 1, .moveFile 0 noteRef 1 ['b'],
    .update 1 { noteRef with name := ['b'] } 2]

/-- A file is renamed before the worker comes to it. -/
def renamedWhileQueued : List MountAction :=
  [.createFile 0 noteRef 0, .moveFile 0 noteRef 0 ['b'],
    .processOne ['/', 'a'] .success 1]

end Mount

end Tgdcfs
