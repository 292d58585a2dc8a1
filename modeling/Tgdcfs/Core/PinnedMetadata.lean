import Tgdcfs.Core.Directory
import Tgdcfs.Core.Version
import Tgdcfs.Lib.Lists
import Tgdcfs.Lib.Run

/-!
# The pinned metadata document

The directory tree is stored as one pinned document.  A push serializes the
tree as it is, uploads the result and then edits the pinned message; edits
that raise are retried and may have been applied all the same.  Pushes inside
a batch are put off until the outermost block ends.  Nothing orders the edits
of pushes that overlap.
-/

namespace Tgdcfs

open Lib

/-- A directory with everything below it, as a snapshot sees it. -/
inductive TGFSDirectory where
  | mk (name : Name) (children : List TGFSDirectory) (files : List FileRef)

/-- The stored form of a directory.  An absent field of a file has the value
that the reader substitutes for it. -/
inductive DirectorySerialized where
  | mk (name : Name) (children : List DirectorySerialized)
      (files : List FileRef)

/-- Empty mirrors and an empty store are not written. -/
def FileRef.toDict (file : FileRef) : FileRef :=
  { file with store := file.store.filter (· ≠ "") }

def FileRef.fromDict (file : FileRef) : FileRef :=
  { file with
    mirrors := Dict.ofList (file.mirrors.items.map fun item =>
      (normalizeStoreKey item.1, item.2))
    store := (file.store.filter (· ≠ "")).map normalizeStoreKey }

/-- A file without a name or a descriptor is not read back. -/
def FileRef.isRead (file : FileRef) : Bool :=
  decide (file.name ≠ []) && decide (file.messageId ≠ 0)

mutual

def TGFSDirectory.toDict : TGFSDirectory → DirectorySerialized
  | .mk name children files =>
      .mk name (TGFSDirectory.toDictList children) (files.map FileRef.toDict)

def TGFSDirectory.toDictList :
    List TGFSDirectory → List DirectorySerialized
  | [] => []
  | child :: children =>
      child.toDict :: TGFSDirectory.toDictList children

end

mutual

def TGFSDirectory.fromDict :
    DirectorySerialized → Except DirectoryError TGFSDirectory
  | .mk name children files => do
      if !validName name then throw (.invalidName name)
      let children ← TGFSDirectory.fromDictList children
      return .mk name children
        ((files.filter FileRef.isRead).map FileRef.fromDict)

def TGFSDirectory.fromDictList :
    List DirectorySerialized → Except DirectoryError (List TGFSDirectory)
  | [] => .ok []
  | child :: children => do
      let first ← TGFSDirectory.fromDict child
      let rest ← TGFSDirectory.fromDictList children
      return first :: rest

end

/-- What the tree operations keep of a file ref: a name, a descriptor, and
store keys in their full form. -/
structure FileRef.Storable (file : FileRef) : Prop where
  named : file.name ≠ []
  described : file.messageId ≠ 0
  mirrors : ∀ item ∈ file.mirrors.items, normalizeStoreKey item.1 = item.1
  store : ∀ key, file.store = some key → normalizeStoreKey key = key

mutual

def TGFSDirectory.Storable : TGFSDirectory → Prop
  | .mk name children files =>
      validName name ∧ TGFSDirectory.StorableList children ∧
        ∀ file ∈ files, file.Storable

def TGFSDirectory.StorableList : List TGFSDirectory → Prop
  | [] => True
  | child :: children => child.Storable ∧ TGFSDirectory.StorableList children

end

/-- A tree in memory. -/
structure LiveTree where
  dir : TGFSDirectory
  storable : dir.Storable

/-- Where a request is: its change of the tree was made and its push is not
called yet; its push uploads or edits a snapshot, with the number of the
snapshot; it returned, or its push raised. -/
inductive PushTask where
  | changed
  | uploading (snapshot : DirectorySerialized) (stamp : Nat)
  | editing (snapshot : DirectorySerialized) (stamp : Nat)
  | returned
  | raised

/-- The state of the metadata API and of the pinned message.  `snapshots`
counts the snapshots taken, and `pinnedStamp` is the number of the one that
the message holds. -/
structure PinnedMetadata where
  tree : LiveTree
  pinned : DirectorySerialized
  pinnedStamp : Nat
  snapshots : Nat
  batchDepth : Nat
  pending : Bool
  tasks : List PushTask

inductive PushLabel where
  | change (tree : LiveTree)
  | push (task : Nat)
  | openBatch
  | closeBatch
  | uploaded (task : Nat)
  | uploadRaised (task : Nat)
  | edited (task : Nat)
  | editRaised (task : Nat) (applied : Bool)

namespace PinnedMetadata

def setTask (state : PinnedMetadata) (index : Nat) (task : PushTask) :
    PinnedMetadata :=
  { state with tasks := state.tasks.set index task }

/-- The synchronous part of `push`: the number of snapshots and where the
task is after it.  A document that does not fit into one message is
refused. -/
def snapshot (fits : DirectorySerialized → Bool) (state : PinnedMetadata) :
    Nat × PushTask :=
  if fits state.tree.dir.toDict then
    (state.snapshots + 1,
      .uploading state.tree.dir.toDict (state.snapshots + 1))
  else (state.snapshots, .raised)

/-- The message takes the document of an edit. -/
def write (state : PinnedMetadata) (document : DirectorySerialized)
    (stamp : Nat) : PinnedMetadata :=
  { state with pinned := document, pinnedStamp := stamp }

def step (fits : DirectorySerialized → Bool) (state : PinnedMetadata) :
    PushLabel → Option PinnedMetadata
  | .change tree =>
      some { state with tree := tree, tasks := state.tasks ++ [.changed] }
  | .push index =>
      match state.tasks[index]? with
      | some .changed =>
          if 0 < state.batchDepth then
            some (setTask { state with pending := true } index .returned)
          else
            let pushed := state.snapshot fits
            some (setTask { state with snapshots := pushed.1 } index
              pushed.2)
      | _ => none
  | .openBatch => some { state with batchDepth := state.batchDepth + 1 }
  | .closeBatch =>
      match state.batchDepth with
      | 0 => none
      | depth + 1 =>
          if depth = 0 ∧ state.pending then
            let pushed := state.snapshot fits
            some
              { state with
                batchDepth := 0
                pending := false
                snapshots := pushed.1
                tasks := state.tasks ++ [pushed.2] }
          else some { state with batchDepth := depth }
  | .uploaded index =>
      match state.tasks[index]? with
      | some (.uploading document stamp) =>
          some (state.setTask index (.editing document stamp))
      | _ => none
  | .uploadRaised index =>
      match state.tasks[index]? with
      | some (.uploading _ _) => some (state.setTask index .raised)
      | _ => none
  | .edited index =>
      match state.tasks[index]? with
      | some (.editing document stamp) =>
          some ((state.write document stamp).setTask index .returned)
      | _ => none
  | .editRaised index applied =>
      match state.tasks[index]? with
      | some (.editing document stamp) =>
          some (if applied then state.write document stamp else state)
      | _ => none

/-- After the metadata was read: the message holds the tree. -/
def start (tree : LiveTree) : PinnedMetadata :=
  { tree := tree
    pinned := tree.dir.toDict
    pinnedStamp := 0
    snapshots := 0
    batchDepth := 0
    pending := false
    tasks := [] }

/-- Every push returned, and no batch is open. -/
def Quiet (state : PinnedMetadata) : Prop :=
  state.batchDepth = 0 ∧ ∀ task ∈ state.tasks, task = .returned

/-- The document that an edit of the task writes, with its number. -/
def editOf (state : PinnedMetadata) (index : Nat) :
    Option (DirectorySerialized × Nat) :=
  match state.tasks[index]? with
  | some (.editing document stamp) => some (document, stamp)
  | _ => none

/-- An edit that reaches the message is not older than what it replaces. -/
def InOrder (state : PinnedMetadata) : PushLabel → Prop
  | .edited index | .editRaised index true =>
      ∀ document stamp, state.editOf index = some (document, stamp) →
        state.pinnedStamp ≤ stamp
  | _ => True

end PinnedMetadata

private theorem fromDict_toDict_file {file : FileRef}
    (storable : file.Storable) : file.toDict.fromDict = file := by
  have mirrors : Dict.ofList (file.mirrors.items.map fun item =>
      (normalizeStoreKey item.1, item.2)) = file.mirrors := by
    have same : (file.mirrors.items.map fun item =>
        (normalizeStoreKey item.1, item.2)) = file.mirrors.items := by
      conv_rhs => rw [← List.map_id file.mirrors.items]
      apply List.map_congr_left
      intro item member
      rw [storable.mirrors item member]
      rfl
    rw [same, Dict.ofList_self]
  have store : ((file.store.filter (· ≠ "")).filter (· ≠ "")).map
      normalizeStoreKey = file.store := by
    cases known : file.store with
    | none => rfl
    | some key =>
        have full := storable.store key known
        have named : key ≠ "" := by
          rintro rfl
          exact absurd full (by decide)
        simp [named, full]
  rw [FileRef.fromDict, FileRef.toDict]
  dsimp only
  rw [mirrors, store]

private theorem fromDict_toDict_files {files : List FileRef}
    (storable : ∀ file ∈ files, file.Storable) :
    ((files.map FileRef.toDict).filter FileRef.isRead).map
      FileRef.fromDict = files := by
  induction files with
  | nil => rfl
  | cons file files induction =>
      have here := storable file List.mem_cons_self
      have read : file.toDict.isRead = true := by
        simp [FileRef.isRead, FileRef.toDict, here.named, here.described]
      rw [List.map_cons, List.filter_cons_of_pos read, List.map_cons,
        fromDict_toDict_file here,
        induction fun other member =>
          storable other (List.mem_cons_of_mem _ member)]

mutual

theorem TGFSDirectory.fromDict_toDict (dir : TGFSDirectory)
    (storable : dir.Storable) :
    TGFSDirectory.fromDict dir.toDict = .ok dir := by
  cases dir with
  | mk name children files =>
      obtain ⟨valid, below, refs⟩ := storable
      rw [TGFSDirectory.toDict, TGFSDirectory.fromDict,
        TGFSDirectory.fromDictList_toDictList children below,
        fromDict_toDict_files refs, valid]
      rfl

theorem TGFSDirectory.fromDictList_toDictList
    (children : List TGFSDirectory)
    (storable : TGFSDirectory.StorableList children) :
    TGFSDirectory.fromDictList (TGFSDirectory.toDictList children) =
      .ok children := by
  cases children with
  | nil => rfl
  | cons child children =>
      obtain ⟨first, rest⟩ := storable
      rw [TGFSDirectory.toDictList, TGFSDirectory.fromDictList,
        TGFSDirectory.fromDict_toDict child first,
        TGFSDirectory.fromDictList_toDictList children rest]
      rfl

end

namespace PushTask

/-- The snapshot a push is writing. -/
def writes : PushTask → Option (DirectorySerialized × Nat)
  | .uploading document stamp | .editing document stamp =>
      some (document, stamp)
  | _ => none

end PushTask

namespace PinnedMetadata

variable {fits : DirectorySerialized → Bool} {state next : PinnedMetadata}
  {label : PushLabel}

/-- Some change has no snapshot, or the push that took it raised. -/
def Behind (state : PinnedMetadata) : Prop :=
  state.pending = true ∨ .changed ∈ state.tasks ∨ .raised ∈ state.tasks

/-- The latest snapshot is in the message or on its way there; when nothing
is left to push it is the tree. -/
structure Ordered (state : PinnedMetadata) : Prop where
  batched : state.pending = true → 0 < state.batchDepth
  pinnedBound : state.pinnedStamp ≤ state.snapshots
  bound : ∀ task ∈ state.tasks, ∀ document stamp,
    task.writes = some (document, stamp) → stamp ≤ state.snapshots
  latest : state.pinnedStamp = state.snapshots ∨ state.Behind ∨
    ∃ task ∈ state.tasks, ∃ document,
      task.writes = some (document, state.snapshots)
  pinnedFresh : ¬state.Behind → state.pinnedStamp = state.snapshots →
    state.pinned = state.tree.dir.toDict
  fresh : ¬state.Behind → ∀ task ∈ state.tasks, ∀ document,
    task.writes = some (document, state.snapshots) →
      document = state.tree.dir.toDict

theorem start_ordered (tree : LiveTree) : (start tree).Ordered where
  batched := by
    intro waits
    cases waits
  pinnedBound := Nat.le_refl 0
  bound := by
    intro task member
    cases member
  latest := .inl rfl
  pinnedFresh := fun _ _ => rfl
  fresh := by
    intro _ task member
    cases member

/-- A state that is behind owes only that no stamp lies in the future. -/
theorem Ordered.of_behind (behind : state.Behind)
    (batched : state.pending = true → 0 < state.batchDepth)
    (pinnedBound : state.pinnedStamp ≤ state.snapshots)
    (bound : ∀ task ∈ state.tasks, ∀ document stamp,
      task.writes = some (document, stamp) → stamp ≤ state.snapshots) :
    state.Ordered :=
  ⟨batched, pinnedBound, bound, .inr (.inl behind),
    fun ahead => (ahead behind).elim, fun ahead => (ahead behind).elim⟩

theorem Ordered.change (ordered : state.Ordered) (tree : LiveTree) :
    Ordered { state with
      tree := tree, tasks := state.tasks ++ [.changed] } := by
  apply Ordered.of_behind
  · exact .inr (.inl (List.mem_append_right _ List.mem_cons_self))
  · exact ordered.batched
  · exact ordered.pinnedBound
  · intro task member document stamp writes
    rcases List.mem_append.mp member with old | new
    · exact ordered.bound task old document stamp writes
    · cases List.mem_singleton.mp new
      cases writes

variable {index : Nat}

theorem Ordered.putOff (ordered : state.Ordered)
    (inside : 0 < state.batchDepth) :
    Ordered (setTask { state with pending := true } index .returned) := by
  apply Ordered.of_behind
  · exact .inl rfl
  · exact fun _ => inside
  · exact ordered.pinnedBound
  · intro task member document stamp writes
    rcases List.mem_or_eq_of_mem_set member with old | rfl
    · exact ordered.bound task old document stamp writes
    · cases writes

/-- A new snapshot is the latest one, wherever its task is listed. -/
theorem Ordered.taken (ordered : state.Ordered)
    {batchDepth : Nat} {pending : Bool} {tasks : List PushTask}
    (batched : pending = true → 0 < batchDepth)
    (old : ∀ task ∈ tasks, task ∈ state.tasks ∨
      task = (state.snapshot fits).2)
    (listed : (state.snapshot fits).2 ∈ tasks) :
    Ordered { state with
      batchDepth := batchDepth
      pending := pending
      snapshots := (state.snapshot fits).1
      tasks := tasks } := by
  unfold snapshot at old listed ⊢
  by_cases fitting : fits state.tree.dir.toDict = true
  · rw [if_pos fitting] at old listed ⊢
    have pinned := ordered.pinnedBound
    have bound : ∀ task ∈ tasks, ∀ document stamp,
        task.writes = some (document, stamp) →
          stamp ≤ state.snapshots ∨
            (document, stamp) =
              (state.tree.dir.toDict, state.snapshots + 1) := by
      intro task member document stamp writes
      rcases old task member with before | rfl
      · exact .inl (ordered.bound task before document stamp writes)
      · cases writes
        exact .inr rfl
    refine ⟨batched, Nat.le_succ_of_le pinned, ?_, ?_, ?_, ?_⟩
    · intro task member document stamp writes
      rcases bound task member document stamp writes with earlier | same
      · exact Nat.le_succ_of_le earlier
      · cases same
        exact Nat.le_refl _
    · exact .inr (.inr ⟨_, listed, _, rfl⟩)
    · intro _ same
      exact (Nat.not_succ_le_self _ (same ▸ pinned)).elim
    · intro _ task member document writes
      rcases bound task member document _ writes with earlier | same
      · exact (Nat.not_succ_le_self _ earlier).elim
      · cases same
        rfl
  · rw [if_neg fitting] at old listed ⊢
    apply Ordered.of_behind
    · exact .inr (.inr listed)
    · exact batched
    · exact ordered.pinnedBound
    · intro task member document stamp writes
      rcases old task member with before | rfl
      · exact ordered.bound task before document stamp writes
      · cases writes

variable {document : DirectorySerialized}

theorem Ordered.advance (ordered : state.Ordered) {stamp : Nat}
    (here : state.tasks[index]? = some (.uploading document stamp)) :
    Ordered (state.setTask index (.editing document stamp)) := by
  have inside := List.mem_of_getElem? here
  have kept : ∀ task ∈ state.tasks, task ≠ .uploading document stamp →
      task ∈ state.tasks.set index (.editing document stamp) :=
    fun task member other => mem_set_of_ne here member other
  have old : ∀ task ∈ state.tasks.set index (.editing document stamp),
      ∃ before ∈ state.tasks, before.writes = task.writes := by
    intro task member
    rcases List.mem_or_eq_of_mem_set member with before | rfl
    · exact ⟨task, before, rfl⟩
    · exact ⟨_, inside, rfl⟩
  have behind : state.Behind → (state.setTask index
      (.editing document stamp)).Behind := by
    rintro (waits | changed | raised)
    · exact .inl waits
    · exact .inr (.inl (kept _ changed (by simp)))
    · exact .inr (.inr (kept _ raised (by simp)))
  refine ⟨ordered.batched, ordered.pinnedBound, ?_, ?_, ?_, ?_⟩
  · intro task member other otherStamp writes
    obtain ⟨before, listed, same⟩ := old task member
    exact ordered.bound before listed other otherStamp (same.trans writes)
  · rcases ordered.latest with pinned | waits | ⟨task, member, other, writes⟩
    · exact .inl pinned
    · exact .inr (.inl (behind waits))
    · by_cases same : task = .uploading document stamp
      · rw [same] at writes
        exact .inr (.inr ⟨.editing document stamp,
          List.mem_set (List.getElem?_eq_some_iff.mp here).1 _, other,
          writes⟩)
      · exact .inr (.inr ⟨task, kept task member same, other, writes⟩)
  · intro ahead
    exact ordered.pinnedFresh fun before => ahead (behind before)
  · intro ahead task member other writes
    obtain ⟨before, listed, same⟩ := old task member
    exact ordered.fresh (fun waits => ahead (behind waits)) before listed
      other (same.trans writes)

/-- A push that raises leaves the document behind the tree. -/
theorem Ordered.raise (ordered : state.Ordered)
    (known : index < state.tasks.length) :
    Ordered (state.setTask index .raised) := by
  apply Ordered.of_behind
  · exact .inr (.inr (List.mem_set known _))
  · exact ordered.batched
  · exact ordered.pinnedBound
  · intro task member document stamp writes
    rcases List.mem_or_eq_of_mem_set member with old | rfl
    · exact ordered.bound task old document stamp writes
    · cases writes

/-- An edit that is not older than the document it replaces. -/
theorem Ordered.written (ordered : state.Ordered) {task : PushTask}
    {stamp : Nat} (member : task ∈ state.tasks)
    (writes : task.writes = some (document, stamp))
    (newer : state.pinnedStamp ≤ stamp) :
    Ordered (state.write document stamp) := by
  have bound := ordered.bound task member document stamp writes
  refine ⟨ordered.batched, bound, ordered.bound, ?_, ?_, ordered.fresh⟩
  · rcases ordered.latest with pinned | rest
    · left
      exact Nat.le_antisymm bound (pinned ▸ newer)
    · exact .inr rest
  · intro ahead same
    have latest : stamp = state.snapshots := same
    rw [latest] at writes
    exact ordered.fresh ahead task member document writes

theorem Ordered.finish (ordered : state.Ordered)
    (here : state.tasks[index]? =
      some (.editing document state.pinnedStamp)) :
    Ordered (state.setTask index .returned) := by
  have kept : ∀ task ∈ state.tasks,
      task ≠ .editing document state.pinnedStamp →
        task ∈ state.tasks.set index .returned :=
    fun task member other => mem_set_of_ne here member other
  have behind : state.Behind → (state.setTask index .returned).Behind := by
    rintro (waits | changed | raised)
    · exact .inl waits
    · exact .inr (.inl (kept _ changed (by simp)))
    · exact .inr (.inr (kept _ raised (by simp)))
  have old : ∀ task ∈ state.tasks.set index .returned, ∀ written,
      task.writes = some written → task ∈ state.tasks := by
    intro task member written writes
    rcases List.mem_or_eq_of_mem_set member with before | rfl
    · exact before
    · cases writes
  refine ⟨ordered.batched, ordered.pinnedBound, ?_, ?_, ?_, ?_⟩
  · intro task member other stamp writes
    exact ordered.bound task (old task member _ writes) other stamp writes
  · rcases ordered.latest with pinned | waits | ⟨task, member, other, writes⟩
    · exact .inl pinned
    · exact .inr (.inl (behind waits))
    · by_cases same : task = .editing document state.pinnedStamp
      · rw [same] at writes
        exact .inl (congrArg Prod.snd (Option.some.inj writes))
      · exact .inr (.inr ⟨task, kept task member same, other, writes⟩)
  · intro ahead
    exact ordered.pinnedFresh fun before => ahead (behind before)
  · intro ahead task member other writes
    exact ordered.fresh (fun waits => ahead (behind waits)) task
      (old task member _ writes) other writes

theorem step_ordered (ordered : state.Ordered)
    (inOrder : state.InOrder label)
    (taken : state.step fits label = some next) : next.Ordered := by
  cases label with
  | change tree =>
      cases taken
      exact ordered.change tree
  | push index =>
      simp only [step] at taken
      split at taken
      · rename_i here
        have known := (List.getElem?_eq_some_iff.mp here).1
        split at taken
        · rename_i inside
          cases taken
          exact ordered.putOff inside
        · rename_i outside
          cases taken
          exact ordered.taken ordered.batched
            (fun task member => List.mem_or_eq_of_mem_set member)
            (List.mem_set known _)
      · cases taken
  | openBatch =>
      cases taken
      exact ⟨fun _ => Nat.zero_lt_succ _, ordered.pinnedBound,
        ordered.bound, ordered.latest, ordered.pinnedFresh, ordered.fresh⟩
  | closeBatch =>
      simp only [step] at taken
      split at taken
      · cases taken
      · rename_i depth open_
        split at taken
        · cases taken
          apply ordered.taken
          · intro waits
            cases waits
          · intro task member
            rcases List.mem_append.mp member with old | new
            · exact .inl old
            · exact .inr (List.mem_singleton.mp new)
          · exact List.mem_append_right _ List.mem_cons_self
        · rename_i more
          cases taken
          refine ⟨?_, ordered.pinnedBound, ordered.bound, ordered.latest,
            ordered.pinnedFresh, ordered.fresh⟩
          intro waits
          by_contra outermost
          exact more ⟨Nat.eq_zero_of_not_pos outermost, waits⟩
  | uploaded index =>
      simp only [step] at taken
      split at taken
      · rename_i here
        cases taken
        exact ordered.advance here
      · cases taken
  | uploadRaised index =>
      simp only [step] at taken
      split at taken
      · rename_i here
        cases taken
        exact ordered.raise (List.getElem?_eq_some_iff.mp here).1
      · cases taken
  | edited index =>
      simp only [step] at taken
      split at taken
      · rename_i document stamp here
        cases taken
        have newer := inOrder document stamp (by simp only [editOf, here])
        have written := ordered.written (List.mem_of_getElem? here) rfl newer
        exact written.finish here
      · cases taken
  | editRaised index applied =>
      simp only [step] at taken
      split at taken
      · rename_i document stamp here
        cases applied with
        | true =>
            cases taken
            have newer := inOrder document stamp (by simp only [editOf, here])
            exact ordered.written (List.mem_of_getElem? here) rfl newer
        | false =>
            cases taken
            exact ordered
      · cases taken

/-- The pinned document converges to the tree: in every run in which no edit
is older than the document it replaces, the document decodes to the tree
whenever every push has returned. -/
theorem pinned_converges_in_order {tree : LiveTree}
    (reachable : ReachableWithin (step fits) InOrder (start tree) state)
    (quiet : state.Quiet) :
    TGFSDirectory.fromDict state.pinned = .ok state.tree.dir := by
  have ordered : state.Ordered := reachable.invariant
    (fun _ _ _ kept inOrder taken => step_ordered kept inOrder taken)
    (start_ordered tree)
  have idle : ∀ task ∈ state.tasks, task.writes = none := by
    intro task member
    rw [quiet.2 task member]
    rfl
  have saved : ¬state.Behind := by
    rintro (waits | changed | raised)
    · have inside := ordered.batched waits
      rw [quiet.1] at inside
      cases inside
    · cases quiet.2 _ changed
    · cases quiet.2 _ raised
  have pinned : state.pinned = state.tree.dir.toDict := by
    apply ordered.pinnedFresh saved
    rcases ordered.latest with here | behind | ⟨task, member, _, writes⟩
    · exact here
    · exact (saved behind).elim
    · rw [idle task member] at writes
      cases writes
  rw [pinned]
  exact TGFSDirectory.fromDict_toDict _ state.tree.storable

def report : FileRef := ⟨7, ['a'], Dict.empty, none⟩

theorem report_storable : report.Storable where
  named := by decide
  described := by decide
  mirrors := by
    intro item member
    cases member
  store := by
    intro key known
    cases known

def emptyRoot : LiveTree where
  dir := .mk ['r', 'o', 'o', 't'] [] []
  storable := ⟨by decide, trivial, by simp⟩

def rootWithReport : LiveTree where
  dir := .mk ['r', 'o', 'o', 't'] [] [report]
  storable := ⟨by decide, trivial, by simpa using report_storable⟩

def reportPushed : PinnedMetadata :=
  { start rootWithReport with
    pinnedStamp := 1, snapshots := 1, tasks := [.returned] }

theorem pinned_converges_in_order_report :
    TGFSDirectory.fromDict reportPushed.pinned = .ok rootWithReport.dir := by
  have reachable : ReachableWithin (step fun _ => true) InOrder
      (start emptyRoot) reportPushed := by
    refine ⟨[.change rootWithReport, .push 0, .uploaded 0, .edited 0],
      ⟨trivial, ?_⟩, rfl⟩
    rintro _ ⟨⟩
    refine ⟨trivial, ?_⟩
    rintro _ ⟨⟩
    refine ⟨trivial, ?_⟩
    rintro _ ⟨⟩
    refine ⟨?_, fun _ _ => trivial⟩
    intro document stamp _
    exact Nat.zero_le stamp
  have quiet : reportPushed.Quiet := by
    refine ⟨rfl, ?_⟩
    intro task member
    exact List.mem_singleton.mp member
  exact pinned_converges_in_order reachable quiet

/-- The push of a directory overlaps the push of a file and lands last: every
push has returned and the file is not in the document. -/
theorem stale_snapshot_lands_last :
    ¬∀ (fits : DirectorySerialized → Bool) (tree : LiveTree)
        (state : PinnedMetadata),
      Reachable (step fits) (start tree) state → state.Quiet →
        TGFSDirectory.fromDict state.pinned = .ok state.tree.dir := by
  intro converges
  let stale : PinnedMetadata :=
    { start emptyRoot with
      tree := rootWithReport
      pinnedStamp := 1
      snapshots := 2
      tasks := [.returned, .returned] }
  have reachable : Reachable (step fun _ => true) (start emptyRoot) stale :=
    ⟨[.change emptyRoot, .push 0, .change rootWithReport, .push 1,
      .uploaded 0, .uploaded 1, .edited 1, .edited 0], rfl⟩
  have quiet : stale.Quiet := by
    refine ⟨rfl, ?_⟩
    intro task member
    have listed : task ∈ [PushTask.returned, .returned] := member
    simpa using listed
  have decoded := converges _ _ _ reachable quiet
  have emptied : TGFSDirectory.fromDict stale.pinned = .ok emptyRoot.dir :=
    TGFSDirectory.fromDict_toDict _ emptyRoot.storable
  rw [emptied] at decoded
  cases decoded

end PinnedMetadata

end Tgdcfs
