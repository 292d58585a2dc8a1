import Tgdcfs.Core.OpsInvariant
import Tgdcfs.Core.Volume

/-!
# What an operation leaves when it raises

An operation that finds what it looks for changes the tree whatever the stores
answer afterwards, and what a removal took away does not come back with the
move or the copy behind it.
-/

namespace Tgdcfs

open Lib

namespace DirectoryTree

variable {tree next : DirectoryTree} {path : List Char}

theorem fileAt_listed {location : Nat} {file : FileRef}
    (found : tree.fileAt path = .ok (location, file)) :
    ∃ dir, tree.dirs.get? location = some dir ∧ file ∈ dir.files := by
  unfold fileAt at found
  split at found
  · cases found
  · split at found
    · cases found
    · split at found
      · cases found
      · rename_i listed
        cases found
        obtain ⟨dir, foundDir, first⟩ := Option.bind_eq_some_iff.mp listed
        have member := List.mem_of_mem_head? first
        exact ⟨dir, foundDir, List.mem_of_mem_filter member⟩

theorem dirAt_listed {id : Nat} (found : tree.dirAt path = .ok id) :
    ∃ above dir, tree.dirs.get? above = some dir ∧ id ∈ dir.children := by
  unfold dirAt at found
  split at found
  · cases found
  · split at found
    · cases found
    · rename_i above _
      split at found
      · cases found
      · rename_i listed
        cases found
        obtain ⟨dir, foundDir, first⟩ := Option.bind_eq_some_iff.mp listed
        have member := List.mem_of_mem_head? first
        exact ⟨above, dir, foundDir, List.mem_of_mem_filter member⟩

theorem isAncestorOf_self (id : Nat) : tree.isAncestorOf id id = true := by
  rw [isAncestorOf, isAncestorWithin, decide_eq_true rfl, Bool.true_or]

theorem relocateFileRef_ok {source target : Nat} {file : FileRef}
    {newName : Name}
    (moved : tree.relocateFileRef source file target newName = .ok next) :
    (target = source ∧ newNameOr newName file.name = file.name ∧
      next = tree) ∨
    (¬(target = source ∧ newNameOr newName file.name = file.name) ∧
      ∃ dir, tree.dirs.get? target = some dir ∧
        findFiles dir (newNameOr newName file.name) = [] ∧
        next = (tree.changeFiles target
            (· ++ [{ file with name := newNameOr newName file.name }])
          ).deleteFileRef source file) := by
  unfold relocateFileRef at moved
  dsimp only at moved
  split at moved
  · rename_i stays
    cases moved
    exact .inl ⟨stays.1, stays.2, rfl⟩
  · rename_i moves
    split at moved
    · cases moved
    · rename_i created made
      cases moved
      obtain ⟨dir, found, free, rfl⟩ := createFileRef_ok made
      exact .inr ⟨moves, dir, found, free, rfl⟩

/-- A directory that is rehung has the new name and hangs there. -/
theorem rehang_get {id under : Nat} (notSelf : id ≠ under)
    (oldParent : Nat) {dir : Directory}
    (found : tree.dirs.get? id = some dir) (name : Name) :
    ∃ hung, (tree.rehang id oldParent under name).dirs.get? id = some hung ∧
      hung.name = name ∧ hung.parent = some under := by
  rw [rehang, Dict.get?_modify, if_neg notSelf, Dict.get?_modify, if_pos rfl,
    Dict.get?_modify, found]
  split
  · exact ⟨_, rfl, rfl, rfl⟩
  · exact ⟨_, rfl, rfl, rfl⟩

theorem createDir_ok {under id : Nat} {name : Name}
    (created : tree.createDir under id name = .ok next) :
    ∃ dir, tree.dirs.get? under = some dir ∧ tree.findDirs dir name = [] ∧
      validName name ∧
      next = { dirs := (tree.dirs.set id
          { name := name
            parent := some under
            children := []
            files := [] }).modify under (Directory.adopt · id) } := by
  unfold createDir at created
  split at created
  · cases created
  · rename_i dir found
    split at created
    · cases created
    · rename_i free
      split at created
      · cases created
      · rename_i valid
        cases created
        exact ⟨dir, found, by simpa using free, by simpa using valid, rfl⟩

end DirectoryTree

namespace Volume

variable {before volume later : Volume}

/-- Nothing is changed in the tree and no message is gone. -/
structure Keeps (before later : Volume) : Prop where
  tree : later.tree = before.tree
  stored : ∀ message, before.stored message → later.stored message

/-- Children hang where they are listed, and the ids to come are new. -/
structure Numbered (volume : Volume) : Prop where
  linked : ∀ id dir child, volume.tree.dirs.get? id = some dir →
    child ∈ dir.children →
      ∃ below, volume.tree.dirs.get? child = some below ∧
        below.parent = some id
  dirs : ∀ id dir, volume.tree.dirs.get? id = some dir →
    id < volume.nextDir
  messages : ∀ id dir file, volume.tree.dirs.get? id = some dir →
    file ∈ dir.files → file.messageId < volume.nextMessage

/-- Directories and files may be gone, but nothing is new. -/
structure Shrinks (before later : Volume) : Prop where
  dirs : ∀ id dir, later.tree.dirs.get? id = some dir →
    ∃ earlier, before.tree.dirs.get? id = some earlier ∧
      dir.name = earlier.name ∧ dir.parent = earlier.parent ∧
        dir.files.Sublist earlier.files
  nextDir : later.nextDir = before.nextDir
  nextMessage : later.nextMessage = before.nextMessage

/-- A directory is gone or lists fewer files. -/
def Loses (before later : Volume) : Prop :=
  ∃ id earlier, before.tree.dirs.get? id = some earlier ∧
    ∀ dir, later.tree.dirs.get? id = some dir →
      dir.files.length < earlier.files.length

theorem Keeps.refl (volume : Volume) : Keeps volume volume :=
  ⟨rfl, fun _ held => held⟩

theorem Keeps.keep (messages : List (String × Int)) :
    Keeps volume (volume.keep messages) := by
  refine ⟨rfl, ?_⟩
  intro message held
  simp only [Volume.keep, held, Bool.true_or]

theorem Shrinks.refl (volume : Volume) : Shrinks volume volume :=
  ⟨fun _ dir found => ⟨dir, found, rfl, rfl, .refl _⟩, rfl, rfl⟩

theorem Loses.tree_ne (loses : Loses before later) :
    later.tree ≠ before.tree := by
  obtain ⟨id, earlier, found, fewer⟩ := loses
  intro same
  have shorter := fewer earlier (by rw [same]; exact found)
  exact Nat.lt_irrefl _ shorter

/-- A removal writes and deletes after the tree has changed. -/
theorem settleRemoval_tree (answer : RemovalAnswer) :
    (volume.settleRemoval answer).1.tree = volume.tree ∧
      (volume.settleRemoval answer).1.nextDir = volume.nextDir ∧
        (volume.settleRemoval answer).1.nextMessage = volume.nextMessage := by
  unfold settleRemoval
  split
  · exact ⟨rfl, rfl, rfl⟩
  · exact ⟨rfl, rfl, rfl⟩

/-- What a removal answers for: it takes something away or leaves everything
as it is and raises. -/
structure Removal (takes : Volume → Bool) (remove : Volume → OpsAttempt) :
    Prop where
  refuses : ∀ volume, takes volume = false →
    (remove volume).1 = volume ∧ (remove volume).2 ≠ none
  shrinks : ∀ volume, volume.Numbered → takes volume →
    Shrinks volume (remove volume).1
  loses : ∀ volume, volume.Numbered → takes volume →
    Loses volume (remove volume).1

theorem rmFile_removal (path : List Char) (answer : RemovalAnswer) :
    Removal (removesFile path) (rmFile path answer) := by
  have taken : ∀ volume, removesFile path volume →
      ∃ location file dir, volume.tree.dirs.get? location = some dir ∧
        file ∈ dir.files ∧ rmFile path answer volume =
          volume.rm location file answer := by
    intro volume takes
    cases found : volume.tree.fileAt path with
    | error failure =>
        rw [removesFile, found] at takes
        cases takes
    | ok place =>
        obtain ⟨location, file⟩ := place
        obtain ⟨dir, foundDir, member⟩ := DirectoryTree.fileAt_listed found
        refine ⟨location, file, dir, foundDir, member, ?_⟩
        rw [rmFile, found]
  refine ⟨?_, ?_, ?_⟩
  · intro volume refused
    cases found : volume.tree.fileAt path with
    | error failure =>
        rw [rmFile, found]
        exact ⟨rfl, nofun⟩
    | ok place =>
        rw [removesFile, found] at refused
        cases refused
  · intro volume _ takes
    obtain ⟨location, file, dir, foundDir, member, same⟩ := taken volume takes
    obtain ⟨tree, dirs, messages⟩ := @settleRemoval_tree
      { volume with tree := volume.tree.deleteFileRef location file } answer
    rw [same, rm]
    refine ⟨?_, dirs, messages⟩
    rw [tree]
    intro id left foundLeft
    rw [DirectoryTree.deleteFileRef, DirectoryTree.changeFiles_get]
      at foundLeft
    obtain ⟨earlier, foundEarlier, rfl⟩ :=
      Option.map_eq_some_iff.mp foundLeft
    refine ⟨earlier, foundEarlier, rfl, rfl, ?_⟩
    dsimp only
    split
    · exact List.erase_sublist
    · exact .refl _
  · intro volume _ takes
    obtain ⟨location, file, dir, foundDir, member, same⟩ := taken volume takes
    obtain ⟨tree, _⟩ := @settleRemoval_tree
      { volume with tree := volume.tree.deleteFileRef location file } answer
    rw [same, rm]
    refine ⟨location, dir, foundDir, ?_⟩
    rw [tree]
    intro left foundLeft
    rw [DirectoryTree.deleteFileRef, DirectoryTree.changeFiles_get, foundDir]
      at foundLeft
    cases foundLeft
    simp only [if_true, List.length_erase_of_mem member]
    have listed := List.length_pos_of_mem member
    omega

theorem rmDir_removal (path : List Char) (recursive : Bool)
    (answer : RemovalAnswer) :
    Removal (removesDir path recursive) (rmDir path recursive answer) := by
  have taken : ∀ volume, volume.Numbered →
      removesDir path recursive volume →
        ∃ id dir parent next, volume.tree.dirs.get? id = some dir ∧
          DirectoryTree.Deleted volume.tree next id parent ∧
          rmDir path recursive answer volume =
            settleRemoval { volume with tree := next } answer := by
    intro volume numbered takes
    cases found : volume.tree.dirAt path with
    | error failure =>
        rw [removesDir, found] at takes
        cases takes
    | ok id =>
        obtain ⟨above, listing, foundAbove, member⟩ :=
          DirectoryTree.dirAt_listed found
        obtain ⟨dir, foundDir, isParent⟩ :=
          numbered.linked above listing id foundAbove member
        obtain ⟨next, deleted⟩ :
            ∃ next, volume.tree.deleteDir id = some next := by
          rw [DirectoryTree.deleteDir, foundDir, Option.bind_some, isParent]
          exact ⟨_, rfl⟩
        obtain ⟨parent, gone⟩ := DirectoryTree.deleteDir_deleted deleted
        refine ⟨id, dir, parent, next, foundDir, gone, ?_⟩
        have allowed :
            (!recursive && !volume.tree.isEmptyDir id) = false := by
          simp only [removesDir, found, Except.toOption, Option.any_some]
            at takes
          rw [← Bool.not_or, takes]
          rfl
        rw [rmDir, found]
        dsimp only
        rw [allowed, if_neg Bool.false_ne_true, rmDangerously,
          DirectoryTree.delete, deleted, Option.getD_some]
  refine ⟨?_, ?_, ?_⟩
  · intro volume refused
    cases found : volume.tree.dirAt path with
    | error failure =>
        rw [rmDir, found]
        exact ⟨rfl, nofun⟩
    | ok id =>
        simp only [removesDir, found, Except.toOption, Option.any_some]
          at refused
        have blocked :
            (!recursive && !volume.tree.isEmptyDir id) = true := by
          rw [← Bool.not_or, refused]
          rfl
        rw [rmDir, found]
        dsimp only
        rw [if_pos blocked]
        exact ⟨rfl, nofun⟩
  · intro volume numbered takes
    obtain ⟨id, dir, parent, next, foundDir, gone, same⟩ :=
      taken volume numbered takes
    obtain ⟨tree, dirs, messages⟩ := @settleRemoval_tree
      { volume with tree := next } answer
    rw [same]
    refine ⟨?_, dirs, messages⟩
    rw [tree]
    intro other left foundLeft
    obtain ⟨_, earlier, foundEarlier, named, above, files, _⟩ :=
      gone.backward foundLeft
    refine ⟨earlier, foundEarlier, named, above, ?_⟩
    rw [files]
  · intro volume numbered takes
    obtain ⟨id, dir, parent, next, foundDir, gone, same⟩ :=
      taken volume numbered takes
    obtain ⟨tree, _⟩ := @settleRemoval_tree
      { volume with tree := next } answer
    rw [same]
    refine ⟨id, dir, foundDir, ?_⟩
    rw [tree]
    intro left foundLeft
    obtain ⟨outside, _⟩ := gone.backward foundLeft
    rw [DirectoryTree.isAncestorOf_self] at outside
    cases outside

/-- What a move or a copy answers for: it keeps everything or leaves a tree
that differs from the one before the removal of what stood in its way. -/
structure Placement (takes : Volume → Bool) (place : Volume → OpsAttempt) :
    Prop where
  refuses : ∀ volume, takes volume = false → Keeps volume (place volume).1
  changes : ∀ before volume, before.Numbered → Shrinks before volume →
    takes volume → (place volume).1.tree ≠ before.tree

/-- A file that is listed elsewhere, or here under a name that was free. -/
theorem relocated_tree_ne {location under : Nat} {file : FileRef}
    {name : Name} {dir above : Directory}
    (shrinks : Shrinks before volume)
    (foundDir : volume.tree.dirs.get? location = some dir)
    (member : file ∈ dir.files)
    (foundAbove : volume.tree.dirs.get? under = some above)
    (free : DirectoryTree.findFiles above name = []) :
    (volume.tree.changeFiles under (· ++ [{ file with name := name }])
      ).deleteFileRef location file ≠ before.tree := by
  intro same
  obtain ⟨earlier, foundEarlier, _, _, sublist⟩ :=
    shrinks.dirs location dir foundDir
  rw [← same, DirectoryTree.deleteFileRef, DirectoryTree.changeFiles_get,
    DirectoryTree.changeFiles_get, foundDir] at foundEarlier
  have positive := List.length_pos_of_mem member
  by_cases here : location = under
  · subst here
    rw [foundDir] at foundAbove
    cases foundAbove
    have unlisted : { file with name := name } ∉ dir.files := by
      intro listed
      have clash : { file with name := name } ∈
          DirectoryTree.findFiles dir name :=
        List.mem_filter.mpr ⟨listed, by simp⟩
      rw [free] at clash
      cases clash
    simp only [Option.map_some, if_true, Option.some.injEq] at foundEarlier
    subst foundEarlier
    dsimp only at sublist
    rw [List.erase_append_left _ member] at sublist
    have whole := sublist.eq_of_length (by
      rw [List.length_append, List.length_erase_of_mem member,
        List.length_singleton]
      omega)
    apply unlisted
    rw [whole]
    exact List.mem_append_right _ List.mem_cons_self
  · simp only [Option.map_some, if_true, if_neg here, Option.some.injEq]
      at foundEarlier
    subst foundEarlier
    have shorter := sublist.length_le
    dsimp only at shorter
    rw [List.length_erase_of_mem member] at shorter
    omega

theorem mvFile_placement (source target : List Char) (pushed : Bool) :
    Placement (movesFile source target) (mvFile source target pushed) := by
  refine ⟨?_, ?_⟩
  · intro volume refused
    unfold mvFile
    split
    · exact .refl volume
    · rename_i location file found
      split
      · exact .refl volume
      · rename_i under foundUnder
        split
        · exact .refl volume
        · rename_i tree moved
          rcases DirectoryTree.relocateFileRef_ok moved with
            ⟨_, _, rfl⟩ | ⟨moves, dir, foundDir, free, rfl⟩
          · exact .refl volume
          · exfalso
            simp only [movesFile, found, Except.toOption, Option.any_some,
              foundUnder, foundDir, free, decide_true, Bool.and_true,
              Bool.or_eq_false_iff, decide_eq_false_iff_not, not_not]
              at refused
            exact moves refused
  · intro before volume _ shrinks takes
    cases found : volume.tree.fileAt source with
    | error failure =>
        rw [movesFile, found] at takes
        cases takes
    | ok place =>
        obtain ⟨location, file⟩ := place
        obtain ⟨dir, foundDir, member⟩ := DirectoryTree.fileAt_listed found
        simp only [movesFile, found, Except.toOption, Option.any_some,
          Option.any_eq_true, Bool.and_eq_true, Bool.or_eq_true,
          decide_eq_true_eq] at takes
        obtain ⟨under, foundUnder, moves, above, foundAbove, free⟩ := takes
        have elsewhere : ¬(under = location ∧
            DirectoryTree.newNameOr (LocatedTree.targetName source target)
              file.name = file.name) := by
          rintro ⟨sameDir, sameName⟩
          rcases moves with different | different
          · exact different sameDir
          · exact different sameName
        have created : volume.tree.createFileRef under
            { file with
              name := DirectoryTree.newNameOr
                (LocatedTree.targetName source target) file.name } =
            .ok (volume.tree.changeFiles under
              (· ++ [{ file with
                name := DirectoryTree.newNameOr
                  (LocatedTree.targetName source target) file.name }])) := by
          rw [DirectoryTree.createFileRef, foundAbove]
          dsimp only
          rw [if_neg (not_not.mpr free)]
        have left := relocated_tree_ne shrinks foundDir member foundAbove free
        rw [mvFile, found]
        dsimp only
        rw [foundUnder]
        dsimp only
        rw [DirectoryTree.relocateFileRef, if_neg elsewhere, created]
        exact left

theorem mvDir_placement (source target : List Char) (pushed : Bool) :
    Placement (movesDir source target) (mvDir source target pushed) := by
  refine ⟨?_, ?_⟩
  · intro volume refused
    unfold mvDir
    split
    · exact .refl volume
    · rename_i id found
      split
      · exact .refl volume
      · rename_i under foundUnder
        split
        · exact .refl volume
        · rename_i tree moved
          obtain ⟨dir, above, oldParent, foundDir, foundAbove, hadParent,
            ⟨_, _, rfl⟩ | ⟨valid, moves, outside, free, rfl⟩⟩ :=
            DirectoryTree.moveTo_ok moved
          · exact .refl volume
          · exfalso
            simp only [movesDir, found, Except.toOption, Option.any_some,
              foundUnder, foundDir, foundAbove, hadParent, valid, outside,
              free, decide_true, Bool.and_true, Bool.not_false,
              Option.isSome_some, Bool.or_eq_false_iff,
              decide_eq_false_iff_not, not_not, Option.some.injEq] at refused
            exact moves ⟨refused.1.symm, refused.2⟩
  · intro before volume _ shrinks takes
    cases found : volume.tree.dirAt source with
    | error failure =>
        rw [movesDir, found] at takes
        cases takes
    | ok id =>
        simp only [movesDir, found, Except.toOption, Option.any_some,
          Option.any_eq_true, Bool.and_eq_true, Bool.or_eq_true,
          decide_eq_true_eq] at takes
        obtain ⟨under, foundUnder, dir, foundDir, moves,
          ⟨⟨hadParent, valid⟩, outside⟩, above, foundAbove, free⟩ := takes
        obtain ⟨oldParent, isParent⟩ := Option.isSome_iff_exists.mp hadParent
        have elsewhere : ¬(under = oldParent ∧
            DirectoryTree.newNameOr (LocatedTree.targetName source target)
              dir.name = dir.name) := by
          rintro ⟨sameDir, sameName⟩
          rcases moves with different | different
          · exact different (by rw [isParent, sameDir])
          · exact different sameName
        have notSelf : under ≠ id := by
          rintro rfl
          rw [DirectoryTree.isAncestorOf_self] at outside
          cases outside
        have moved : volume.tree.moveTo id under
            (LocatedTree.targetName source target) =
              .ok (volume.tree.rehang id oldParent under
                (DirectoryTree.newNameOr
                  (LocatedTree.targetName source target) dir.name)) := by
          rw [DirectoryTree.moveTo, foundDir, foundAbove]
          dsimp only
          rw [isParent]
          dsimp only
          rw [valid, if_neg (by simp), if_neg elsewhere,
            if_neg (by simpa using outside), if_neg (not_not.mpr free)]
          rfl
        rw [mvDir, found]
        dsimp only
        rw [foundUnder]
        dsimp only
        rw [moved]
        intro same
        obtain ⟨earlier, foundEarlier, named, above, _⟩ :=
          shrinks.dirs id dir foundDir
        have rehung := DirectoryTree.rehang_get notSelf.symm oldParent foundDir
          (DirectoryTree.newNameOr (LocatedTree.targetName source target)
            dir.name)
        obtain ⟨hung, foundHung, hungName, hungParent⟩ := rehung
        simp only [push] at same
        rw [same, foundEarlier] at foundHung
        cases foundHung
        apply elsewhere
        refine ⟨?_, ?_⟩
        · rw [isParent] at above
          rw [hungParent] at above
          exact (Option.some.inj above).symm
        · rw [← hungName, ← named]

/-- Copying a file that can be read, saved and listed lists a new message;
otherwise nothing is listed. -/
theorem copy_cases (volume : Volume) (under : Nat) (file : FileRef)
    (name : Name) (answer : CopyAnswer) (pushed : Bool) :
    Keeps volume (volume.copy under file name answer pushed).1 ∨
      ∃ copied dir, volume.tree.dirs.get? under = some dir ∧
        DirectoryTree.findFiles dir
          (DirectoryTree.newNameOr name file.name) = [] ∧
        validName file.name ∧ answer.saved.isSome ∧
        copied.messageId = volume.nextMessage ∧
        (volume.copy under file name answer pushed).1.tree =
          volume.tree.changeFiles under (· ++ [copied]) := by
  unfold copy
  split
  · exact .inl (.refl volume)
  · rename_i valid
    cases saves : answer.saved with
    | none => exact .inl (.keep answer.left)
    | some place =>
        obtain ⟨mirrors, store⟩ := place
        dsimp only
        split
        · refine .inl ⟨rfl, ?_⟩
          intro message held
          simp only [Volume.keep, held, Bool.true_or]
        · rename_i tree created
          obtain ⟨dir, found, free, rfl⟩ :=
            DirectoryTree.createFileRef_ok created
          exact .inr ⟨_, dir, found, free, by simpa using valid, rfl, rfl,
            rfl⟩

theorem listed_tree_ne (numbered : before.Numbered)
    (shrinks : Shrinks before volume) {under : Nat} {dir : Directory}
    (found : volume.tree.dirs.get? under = some dir) {copied : FileRef}
    (new : copied.messageId = volume.nextMessage) :
    volume.tree.changeFiles under (· ++ [copied]) ≠ before.tree := by
  intro same
  have listed : before.tree.dirs.get? under =
      some { dir with files := dir.files ++ [copied] } := by
    rw [← same, DirectoryTree.changeFiles_get, found, Option.map_some,
      if_pos rfl]
  have old := numbered.messages under _ copied listed (by simp)
  rw [new, shrinks.nextMessage] at old
  exact Int.lt_irrefl _ old

theorem cpFile_placement (source target : List Char)
    (answers : StoreAnswers) :
    Placement (copiesFile source target answers)
      (cpFile source target answers) := by
  refine ⟨?_, ?_⟩
  · intro volume refused
    unfold cpFile
    split
    · exact .refl volume
    · rename_i location file found
      split
      · exact .refl volume
      · rename_i under foundUnder
        rcases copy_cases volume under file
            (LocatedTree.targetName source target)
            (answers.copy location file) answers.pushed with
          kept | ⟨_, dir, foundDir, free, valid, saves, _⟩
        · exact kept
        · exfalso
          simp only [copiesFile, found, Except.toOption, Option.any_some,
            foundUnder, valid, saves, foundDir, free, decide_true,
            Bool.and_true, Bool.true_eq_false] at refused
  · intro before volume numbered shrinks takes
    cases found : volume.tree.fileAt source with
    | error failure =>
        rw [copiesFile, found] at takes
        cases takes
    | ok place =>
        obtain ⟨location, file⟩ := place
        simp only [copiesFile, found, Except.toOption, Option.any_some,
          Option.any_eq_true, Bool.and_eq_true, decide_eq_true_eq] at takes
        obtain ⟨under, foundUnder, valid, saves, dir, foundDir, free⟩ := takes
        obtain ⟨saved, saves⟩ := Option.isSome_iff_exists.mp saves
        obtain ⟨mirrors, store⟩ := saved
        have listed : (cpFile source target answers volume).1.tree =
            volume.tree.changeFiles under (· ++
              [{ messageId := volume.nextMessage
                 name := DirectoryTree.newNameOr
                   (LocatedTree.targetName source target) file.name
                 mirrors := mirrors
                 store := store }]) := by
          rw [cpFile, found]
          dsimp only
          rw [foundUnder]
          dsimp only
          rw [copy, valid, if_neg (by simp), saves]
          dsimp only
          rw [DirectoryTree.createFileRef, foundDir]
          dsimp only
          rw [if_neg (not_not.mpr free)]
          rfl
        rw [listed]
        exact listed_tree_ne numbered shrinks foundDir rfl

/-- No directory goes. -/
def Grows (before later : Volume) : Prop :=
  ∀ id, (before.tree.dirs.get? id).isSome →
    (later.tree.dirs.get? id).isSome

theorem Grows.of_tree (same : later.tree = before.tree) :
    Grows before later := by
  intro id there
  rw [same]
  exact there

theorem Grows.trans {middle : Volume} (first : Grows before middle)
    (last : Grows middle later) : Grows before later := by
  intro id there
  exact last id (first id there)

theorem copy_grows (volume : Volume) (under : Nat) (file : FileRef)
    (name : Name) (answer : CopyAnswer) (pushed : Bool) :
    Grows volume (volume.copy under file name answer pushed).1 := by
  rcases copy_cases volume under file name answer pushed with
    kept | ⟨copied, _, _, _, _, _, _, listed⟩
  · exact .of_tree kept.tree
  · intro id there
    rw [listed, DirectoryTree.changeFiles_get, Option.isSome_map]
    exact there

theorem copyFiles_grows (under source : Nat) (answers : StoreAnswers)
    (files : List FileRef) (volume : Volume) :
    Grows volume (copyFiles under source answers volume files).1 := by
  induction files generalizing volume with
  | nil => exact .of_tree rfl
  | cons file files ih =>
      have step := copy_grows volume under file []
        (answers.copy source file) true
      rw [copyFiles]
      split
      · rename_i copied failure answer
        rw [answer] at step
        exact step
      · rename_i copied answer
        rw [answer] at step
        exact step.trans (ih copied)

theorem copyChildren_grows {copyDir : Volume → Nat → Name → OpsAttempt}
    (each : ∀ volume child name, Grows volume (copyDir volume child name).1)
    (children : List Nat) (volume : Volume) :
    Grows volume (copyChildren copyDir volume children).1 := by
  induction children generalizing volume with
  | nil => exact .of_tree rfl
  | cons child children ih =>
      rw [copyChildren]
      split
      · exact .of_tree rfl
      · rename_i dir _
        have step := each volume child dir.name
        split
        · rename_i copied failure answer
          rw [answer] at step
          exact step
        · rename_i copied answer
          rw [answer] at step
          exact step.trans (ih copied)

theorem createDir_grows {under id : Nat} {name : Name}
    {tree : DirectoryTree}
    (created : volume.tree.createDir under id name = .ok tree)
    (nextDir : Nat) :
    Grows volume { volume with tree := tree, nextDir := nextDir } ∧
      (tree.dirs.get? id).isSome := by
  obtain ⟨dir, found, _, _, rfl⟩ := DirectoryTree.createDir_ok created
  constructor
  · intro other there
    rw [Dict.get?_modify, Dict.get?_set]
    split <;> split <;> simp [there]
  · rw [Dict.get?_modify, Dict.get?_set, if_pos rfl]
    split <;> rfl

/-- Once the copy is created, filling it drops no directory. -/
theorem copyDirInto_created {answers : StoreAnswers} {depth : Nat}
    (below : ∀ volume source under name,
      Grows volume (copyDirInto answers depth volume source under name).1)
    {source under : Nat} {name : Name} {tree : DirectoryTree}
    (created : volume.tree.createDir under volume.nextDir name = .ok tree) :
    Grows { volume with tree := tree, nextDir := volume.nextDir + 1 }
      (copyDirInto answers (depth + 1) volume source under name).1 := by
  rw [copyDirInto, created]
  dsimp only
  split
  · exact .of_tree rfl
  · rename_i dir _
    have files := copyFiles_grows volume.nextDir source answers dir.files
      { volume with tree := tree, nextDir := volume.nextDir + 1 }
    split
    · rename_i filled failure answer
      rw [answer] at files
      exact files
    · rename_i filled answer
      rw [answer] at files
      apply files.trans
      apply copyChildren_grows
      intro current child childName
      exact below current child volume.nextDir childName

theorem copyDirInto_grows (answers : StoreAnswers) (depth : Nat)
    (volume : Volume) (source under : Nat) (name : Name) :
    Grows volume (copyDirInto answers depth volume source under name).1 := by
  induction depth generalizing volume source under name with
  | zero => exact .of_tree rfl
  | succ depth ih =>
      cases created : volume.tree.createDir under volume.nextDir name with
      | error failure =>
          rw [copyDirInto, created]
          exact .of_tree rfl
      | ok tree =>
          have first := (createDir_grows created (volume.nextDir + 1)).1
          exact first.trans (copyDirInto_created ih created)

theorem cpDir_placement (source target : List Char)
    (answers : StoreAnswers) :
    Placement (copiesDir source target) (cpDir source target answers) := by
  refine ⟨?_, ?_⟩
  · intro volume refused
    unfold cpDir
    split
    · exact .refl volume
    · rename_i id found
      split
      · exact .refl volume
      · rename_i under foundUnder
        split
        · exact .refl volume
        · rename_i outside
          cases created : volume.tree.createDir under volume.nextDir
              (LocatedTree.targetName source target) with
          | error failure =>
              rw [copyDirInto, created]
              exact .refl volume
          | ok tree =>
              exfalso
              obtain ⟨dir, foundDir, free, valid, _⟩ :=
                DirectoryTree.createDir_ok created
              simp only [copiesDir, found, Except.toOption, Option.any_some,
                foundUnder, outside, valid, foundDir, free, decide_true,
                Bool.not_false, Bool.and_true, Bool.true_eq_false] at refused
  · intro before volume numbered shrinks takes
    cases found : volume.tree.dirAt source with
    | error failure =>
        rw [copiesDir, found] at takes
        cases takes
    | ok id =>
        simp only [copiesDir, found, Except.toOption, Option.any_some,
          Option.any_eq_true, Bool.and_eq_true, Bool.not_eq_true',
          decide_eq_true_eq] at takes
        obtain ⟨under, foundUnder, outside, valid, above, foundAbove, free⟩ :=
          takes
        obtain ⟨tree, created⟩ : ∃ tree, volume.tree.createDir under
            volume.nextDir (LocatedTree.targetName source target) =
              .ok tree := by
          rw [DirectoryTree.createDir, foundAbove]
          dsimp only
          rw [if_neg (not_not.mpr free), valid, if_neg (by simp)]
          exact ⟨_, rfl⟩
        have there := @copyDirInto_created _ answers
          volume.tree.dirs.size (copyDirInto_grows answers _) id _ _ _ created
          volume.nextDir (createDir_grows created 0).2
        rw [cpDir, found]
        dsimp only
        rw [foundUnder]
        dsimp only
        rw [outside, if_neg Bool.false_ne_true]
        intro same
        dsimp only at same
        rw [same] at there
        obtain ⟨dir, foundDir⟩ := Option.isSome_iff_exists.mp there
        have old := numbered.dirs volume.nextDir dir foundDir
        rw [shrinks.nextDir] at old
        exact Nat.lt_irrefl _ old

end Volume

end Tgdcfs
