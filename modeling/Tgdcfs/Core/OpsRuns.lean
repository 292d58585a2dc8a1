import Tgdcfs.Core.OpsInvariant

/-!
# Runs of file operations

A recursive copy only adds to the directory it copies into, so the source
stays as it is while it is read.  Every operation whose names are apart keeps
the tree orderly, and with it every run of such operations.
-/

namespace Tgdcfs

open Lib

namespace LocatedTree

open DirectoryTree

variable {state next : LocatedTree}

/-- Every directory but `under` is as before. -/
def Keeps (under : Nat) (state next : LocatedTree) : Prop :=
  ∀ other dir, other ≠ under → state.tree.dirs.get? other = some dir →
    next.tree.dirs.get? other = some dir

variable {under : Nat}

theorem Keeps.trans {last : LocatedTree} (first : Keeps under state next)
    (second : Keeps under next last) : Keeps under state last :=
  fun other dir different found =>
    second other dir different (first other dir different found)

variable {name : Name}

theorem createDir_spec (orderly : state.Orderly) {copied : Nat}
    (created : state.createDir under name = some (next, copied)) :
    next.tree.dirs.get? copied = some ⟨name, some under, [], []⟩ ∧
      state.tree.dirs.get? copied = none ∧ Keeps under state next ∧
      ∀ file, next.tree.Lists under file ↔ state.tree.Lists under file := by
  obtain ⟨same, _, rehung⟩ := createDir_rehung orderly created
  have new : state.tree.dirs.get? copied = none := by
    rw [same]
    exact state.tree.nextId_fresh
  refine ⟨?_, new, ?_, fun file => rehung.lists_iff⟩
  · obtain ⟨dir, found, named, isParent⟩ := rehung.moved
    obtain ⟨children, files⟩ := rehung.fresh dir new found
    obtain ⟨dirName, dirParent, dirChildren, dirFiles⟩ := dir
    dsimp only at named isParent children files
    rw [found, named, isParent, children, files]
  · intro other dir different found
    have notNew : other ≠ copied := by
      rintro rfl
      rw [new] at found
      cases found
    have kept : dir.children.erase copied = dir.children := by
      apply orderly.wellFormed.erase_child found
      intro below foundBelow
      rw [new] at foundBelow
      cases foundBelow
    rw [rehung.others other notNew, found, Option.map_some, if_neg different,
      List.append_nil, kept]

variable {file : FileRef} {place : DescriptorPlace}

theorem copy_ok (copied : state.copy under file name place = some next) :
    validName file.name ∧ state.createFileRef under
      (place.refer (newNameOr name file.name)) = some next := by
  unfold copy at copied
  split at copied
  · cases copied
  · rename_i valid
    exact ⟨by simpa using valid, copied⟩

theorem createFileRef_keeps
    (created : state.createFileRef under file = some next) :
    Keeps under state next := by
  obtain ⟨made, _⟩ := createFileRef_ok created
  obtain ⟨_, _, _, changed⟩ := DirectoryTree.createFileRef_ok made
  intro other dir different found
  rw [changed, changeFiles_get, found, Option.map_some, if_neg different]

/-- No directory hangs below. -/
def NoDirs (under : Nat) (state : LocatedTree) : Prop :=
  ∀ child below, state.tree.dirs.get? child = some below →
    below.parent ≠ some under

theorem copyFiles_spec {copied : Nat} {places : FileRef → DescriptorPlace} :
    ∀ {files : List FileRef} {state : LocatedTree}, state.Orderly →
      NoDirs copied state → copyFiles copied places state files = some next →
        next.Orderly ∧ Keeps copied state next ∧
        ∀ file, next.tree.Lists copied file →
          state.tree.Lists copied file ∨ ∃ source ∈ files,
            source.name = file.name := by
  intro files
  induction files with
  | nil =>
      intro state orderly _ copies
      cases copies
      exact ⟨orderly, fun _ _ _ found => found, fun _ listed => .inl listed⟩
  | cons file files ih =>
      intro state orderly noDirs copies
      obtain ⟨first, copy, rest⟩ := Option.bind_eq_some_iff.mp copies
      obtain ⟨valid, created⟩ := copy_ok copy
      have ordered := orderly.createFileRef
        (show validName ((places file).refer (newNameOr [] file.name)).name
          from valid)
        (fun child below found isParent =>
          (noDirs child below found isParent).elim) created
      obtain ⟨made, _⟩ := createFileRef_ok created
      obtain ⟨same, _⟩ := createFileRef_wellFormed orderly.wellFormed made
      have stillNone : NoDirs copied first := by
        intro child below found isParent
        obtain ⟨_, foundBefore⟩ := same.backward child below found
        exact noDirs child _ foundBefore isParent
      obtain ⟨finished, keeps, lists⟩ := ih ordered stillNone rest
      refine ⟨finished, (createFileRef_keeps created).trans keeps, ?_⟩
      intro other listed
      rcases lists other listed with before | ⟨source, member, named⟩
      · rcases (createFileRef_lists made).mp before with
          earlier | ⟨_, isNew⟩
        · exact .inl earlier
        · refine .inr ⟨file, List.mem_cons_self, ?_⟩
          rw [isNew]
          rfl
      · exact .inr ⟨source, List.mem_cons_of_mem _ member, named⟩

/-- What copying a directory into `under` does to the tree. -/
structure CopiesInto (under : Nat) (state next : LocatedTree) : Prop where
  orderly : next.Orderly
  keeps : Keeps under state next
  files : ∀ file, next.tree.Lists under file → state.tree.Lists under file

/-- Copying the children of a directory one by one, when none of the files
already there has the name of one of them. -/
theorem copyChildren_spec {copied : Nat}
    {copy : LocatedTree → Nat → Name → Option LocatedTree}
    (copies : ∀ {current after : LocatedTree} {child : Nat} {name : Name},
      current.Orderly → child ≠ copied →
      (∃ dir, current.tree.dirs.get? child = some dir) →
      current.tree.NoFile copied name →
      copy current child name = some after →
        CopiesInto copied current after) :
    ∀ {children : List Nat} {state : LocatedTree}, state.Orderly →
      (∀ child ∈ children, child ≠ copied ∧ ∃ below,
        state.tree.dirs.get? child = some below ∧
          state.tree.NoFile copied below.name) →
      copyChildren copy state children = some next →
        CopiesInto copied state next := by
  intro children
  induction children with
  | nil =>
      intro state orderly _ finished
      cases finished
      exact ⟨orderly, fun _ _ _ found => found, fun _ listed => listed⟩
  | cons child children ih =>
      intro state orderly apart finished
      obtain ⟨dir, found, rest⟩ := Option.bind_eq_some_iff.mp finished
      obtain ⟨first, copied_, later⟩ := Option.bind_eq_some_iff.mp rest
      obtain ⟨different, below, foundBelow, free⟩ :=
        apart child List.mem_cons_self
      rw [found] at foundBelow
      cases foundBelow
      have once := copies orderly different ⟨dir, found⟩ free copied_
      have remaining : CopiesInto copied first next := by
        refine ih once.orderly ?_ later
        intro other member
        obtain ⟨otherDifferent, otherBelow, otherFound, otherFree⟩ :=
          apart other (List.mem_cons_of_mem _ member)
        exact ⟨otherDifferent, otherBelow,
          once.keeps other otherBelow otherDifferent otherFound,
          fun file listed => otherFree file (once.files file listed)⟩
      exact ⟨remaining.orderly, once.keeps.trans remaining.keeps,
        fun file listed => once.files file (remaining.files file listed)⟩

/-- A recursive copy keeps the tree orderly and changes nothing but the
directory it copies into. -/
theorem copyDirInto_spec (places : Nat → FileRef → DescriptorPlace) :
    ∀ (depth : Nat) {state next : LocatedTree} {source under : Nat}
      {name : Name}, state.Orderly → source ≠ under →
      (∃ dir, state.tree.dirs.get? source = some dir) →
      state.tree.NoFile under name →
      copyDirInto places depth state source under name = some next →
        CopiesInto under state next := by
  intro depth
  induction depth with
  | zero =>
      intro state next source under name orderly _ _ _ copies
      cases copies
      exact ⟨orderly, fun _ _ _ found => found, fun _ listed => listed⟩
  | succ depth ih =>
      intro state next source under name orderly different known free copies
      obtain ⟨⟨created, copied⟩, creates, rest⟩ :=
        Option.bind_eq_some_iff.mp copies
      obtain ⟨dir, found, rest⟩ := Option.bind_eq_some_iff.mp rest
      obtain ⟨filled, fills, rest⟩ := Option.bind_eq_some_iff.mp rest
      obtain ⟨new, fresh, keeps, files⟩ := createDir_spec orderly creates
      have ordered := orderly.createDir free creates
      -- The source is read after the new directory was made; it is the same.
      obtain ⟨sourceDir, foundSource⟩ := known
      have sourceKept := keeps source sourceDir different foundSource
      obtain rfl : sourceDir = dir :=
        Option.some.inj (sourceKept.symm.trans found)
      have noDirs : NoDirs copied created := by
        intro child below foundBelow isParent
        obtain ⟨above, foundAbove, listed⟩ :=
          ordered.wellFormed.listed child below copied foundBelow isParent
        rw [new] at foundAbove
        cases foundAbove
        cases listed
      obtain ⟨filledOrderly, filledKeeps, names⟩ :=
        copyFiles_spec ordered noDirs fills
      have apart : ∀ child ∈ sourceDir.children, child ≠ copied ∧ ∃ below,
          filled.tree.dirs.get? child = some below ∧
            filled.tree.NoFile copied below.name := by
        intro child member
        obtain ⟨_, foundOld, _⟩ := orderly.wellFormed.children source sourceDir
          child foundSource member
        have notNew : child ≠ copied := by
          rintro rfl
          rw [fresh] at foundOld
          cases foundOld
        obtain ⟨below, foundBelow, isParent⟩ :=
          ordered.wellFormed.children source sourceDir child sourceKept member
        refine ⟨notNew, below, filledKeeps child below notNew foundBelow, ?_⟩
        intro file listed
        rcases names file listed with before | ⟨original, inSource, named⟩
        · obtain ⟨newDir, foundNew, inside⟩ := before
          rw [new] at foundNew
          cases foundNew
          cases inside
        · rw [← named]
          exact (ordered.apart source original
            ⟨sourceDir, sourceKept, inSource⟩ child below foundBelow
            isParent).symm
      have children : CopiesInto copied filled next := by
        refine copyChildren_spec ?_ filledOrderly apart rest
        intro current after child childName orderlyNow notNew known freeName
          copiesChild
        exact ih orderlyNow notNew known freeName copiesChild
      have notNew : under ≠ copied := by
        rintro rfl
        obtain ⟨_, foundUnder, _⟩ := ordered.wellFormed.listed under _ under
          new rfl
        exact ordered.wellFormed.parent_ne new rfl
      refine ⟨children.orderly, ?_, ?_⟩
      · intro other before otherDifferent foundBefore
        have otherOld : other ≠ copied := by
          rintro rfl
          rw [fresh] at foundBefore
          cases foundBefore
        exact children.keeps other before otherOld
          (filledKeeps other before otherOld
            (keeps other before otherDifferent foundBefore))
      · intro file listed
        obtain ⟨underDir, foundUnder, _⟩ := ordered.wellFormed.listed copied _
          under new rfl
        have kept := children.keeps under underDir notNew
          (filledKeeps under underDir notNew foundUnder)
        obtain ⟨last, foundLast, member⟩ := listed
        rw [kept] at foundLast
        cases foundLast
        exact (files file).mp ⟨underDir, foundUnder, member⟩

/-- The directories that `mkdir` makes below `id` have the name of no file. -/
def ParentsFree (state : LocatedTree) : Nat → List Name → Name → Prop
  | id, [], last => state.tree.findFileIn id last = none
  | id, part :: parts, last =>
      match state.tree.findDir id part with
      | some child => state.ParentsFree child parts last
      | none => state.tree.findFileIn id part = none

/-- The entry a call makes has the name of no entry of the other kind beside
it, and a moved or copied file a name that `validate_name` accepts. -/
def KeepsApart (state : LocatedTree) : OpsCall → Prop
  | .mkdir path parents =>
      ∀ start ∈ state.tree.cd (dirname path),
        state.ParentsFree start
          (if parents then (dirname path).splitOn '/' |>.filter (· ≠ [])
            else [])
          (basename path)
  | .touch path _ | .upload path _ =>
      ∀ under ∈ state.tree.cd (dirname path),
        state.tree.findFileIn under (basename path) = none →
          state.tree.findDir under (basename path) = none
  | .cpFile source target _ | .mvFile source target =>
      validName (targetName source target) ∧
        ∀ under ∈ state.tree.cd (dirname target),
          state.tree.findDir under (targetName source target) = none
  | .cpDir source target _ _ | .mvDir source target =>
      ∀ under ∈ state.tree.cd (dirname target),
        state.tree.findFileIn under (targetName source target) = none
  | .rmFile _ | .rmDir _ _ => True

variable {tree : DirectoryTree}

theorem noFile_of_findFileIn (missing : tree.findFileIn under name = none) :
    tree.NoFile under name := by
  rintro file ⟨dir, found, member⟩ rfl
  have inside : file ∈ findFiles dir file.name :=
    List.mem_filter.mpr ⟨member, by simp⟩
  rw [findFileIn, found, Option.bind_some, List.head?_eq_none_iff] at missing
  rw [missing] at inside
  cases inside

theorem noDir_of_findDir (wellFormed : tree.WellFormed)
    (missing : tree.findDir under name = none) : tree.NoDir under name := by
  rintro child below found isParent rfl
  obtain ⟨above, foundAbove, _⟩ :=
    wellFormed.listed child below under found isParent
  obtain ⟨rest, heads⟩ := wellFormed.findDirs_head found isParent foundAbove
  rw [findDir, foundAbove, Option.bind_some, heads] at missing
  cases missing

theorem parentsFree_of_empty {id : Nat} {parent : Option Nat}
    (found : state.tree.dirs.get? id = some ⟨name, parent, [], []⟩)
    (parts : List Name) (last : Name) : state.ParentsFree id parts last := by
  have free : ∀ part, state.tree.findFileIn id part = none := by
    intro part
    simp [findFileIn, findFiles, found]
  cases parts with
  | nil => exact free last
  | cons part parts =>
      have missing : state.tree.findDir id part = none := by
        simp [findDir, findDirs, found]
      unfold ParentsFree
      rw [missing]
      exact free part

theorem createParents_spec :
    ∀ {parts : List Name} {state reached : LocatedTree} {id under : Nat}
      {last : Name}, state.Orderly → state.ParentsFree id parts last →
      state.createParents id parts = some (reached, under) →
        reached.Orderly ∧ reached.tree.NoFile under last := by
  intro parts
  induction parts with
  | nil =>
      intro state reached id under last orderly free created
      cases created
      exact ⟨orderly, noFile_of_findFileIn free⟩
  | cons part parts ih =>
      intro state reached id under last orderly free created
      unfold ParentsFree at free
      unfold createParents at created
      split at created
      · rename_i child known
        rw [known] at free
        exact ih orderly free created
      · rename_i missing
        rw [missing] at free
        obtain ⟨⟨first, child⟩, makes, rest⟩ :=
          Option.bind_eq_some_iff.mp created
        obtain ⟨new, _⟩ := createDir_spec orderly makes
        exact ih (orderly.createDir (noFile_of_findFileIn free) makes)
          (parentsFree_of_empty new parts last) rest

theorem Orderly.mkdir (orderly : state.Orderly) {path : List Char}
    {parents : Bool} (apart : state.KeepsApart (.mkdir path parents))
    (made : state.mkdir path parents = some next) : next.Orderly := by
  unfold LocatedTree.mkdir at made
  split at made
  · cases made
  · obtain ⟨start, starts, rest⟩ := Option.bind_eq_some_iff.mp made
    obtain ⟨⟨reached, under⟩, reaches, rest⟩ :=
      Option.bind_eq_some_iff.mp rest
    obtain ⟨⟨created, child⟩, creates, rfl⟩ := Option.map_eq_some_iff.mp rest
    have free := apart start starts
    have prepared : reached.Orderly ∧
        reached.tree.NoFile under (basename path) := by
      cases parents with
      | false =>
          cases reaches
          exact ⟨orderly, noFile_of_findFileIn free⟩
      | true => exact createParents_spec orderly free reaches
    exact prepared.1.createDir prepared.2 creates

theorem Orderly.upload (orderly : state.Orderly)
    (apart : state.tree.findFileIn under name = none →
      state.tree.findDir under name = none)
    (uploaded : state.upload under name place = some next) : next.Orderly := by
  unfold LocatedTree.upload at uploaded
  split at uploaded
  · split at uploaded
    · cases uploaded
    · cases uploaded
      exact orderly.refer under name place
  · rename_i missing
    split at uploaded
    · cases uploaded
    · rename_i valid
      have accepted : validName (place.refer name).name := by
        simp only [Bool.not_eq_true', Bool.not_eq_false] at valid
        exact valid
      exact orderly.createFileRef accepted
        (noDir_of_findDir orderly.wellFormed (apart missing)) uploaded

theorem newNameOr_of_valid {other : Name} (valid : validName name) :
    newNameOr name other = name := by
  unfold newNameOr
  split
  · rename_i empty
    rw [empty] at valid
    cases valid
  · rfl

theorem Orderly.copy (orderly : state.Orderly) (valid : validName name)
    (apart : state.tree.findDir under name = none)
    (copied : state.copy under file name place = some next) :
    next.Orderly := by
  obtain ⟨_, created⟩ := copy_ok copied
  rw [newNameOr_of_valid valid] at created
  exact orderly.createFileRef valid
    (noDir_of_findDir orderly.wellFormed apart) created

theorem Orderly.move (orderly : state.Orderly) {source : Nat}
    (valid : validName name) (apart : state.tree.findDir under name = none)
    (moved : state.move source file under name = some next) :
    next.Orderly := by
  unfold LocatedTree.move relocateFileRef at moved
  rw [newNameOr_of_valid valid] at moved
  dsimp only at moved
  split at moved
  · cases moved
  · rename_i tree relocated
    split at moved
    · cases moved
      exact orderly
    · rename_i elsewhere
      rw [if_neg elsewhere] at relocated
      cases made : state.tree.createFileRef under { file with name := name } with
      | error failure =>
          rw [made] at relocated
          cases relocated
      | ok created =>
          rw [made] at relocated
          cases relocated
          cases moved
          have added : state.createFileRef under { file with name := name } =
              some ⟨created, state.locations.set (under, name) under⟩ := by
            unfold LocatedTree.createFileRef
            rw [made]
          have between := orderly.createFileRef valid
            (noDir_of_findDir orderly.wellFormed apart) added
          exact between.deleteFileRef source file

theorem findDir_some {place id : Nat}
    (found : tree.findDir place name = some id) :
    ∃ dir, tree.dirs.get? id = some dir ∧ dir.name = name := by
  obtain ⟨above, _, heads⟩ := Option.bind_eq_some_iff.mp found
  have member := List.mem_of_mem_head? heads
  obtain ⟨_, named⟩ := List.mem_filter.mp member
  exact Option.map_eq_some_iff.mp (of_decide_eq_true named)

theorem isAncestorOf_self (tree : DirectoryTree) (id : Nat) :
    tree.isAncestorOf id id := by
  unfold isAncestorOf isAncestorWithin
  simp

theorem newNameOr_targetName (source target : List Char) :
    newNameOr (targetName source target) (basename source) =
      targetName source target := by
  unfold targetName newNameOr
  split <;> simp_all

/-- The name of the directory that is moved stands in for a missing one. -/
theorem Orderly.moveTo (orderly : state.Orderly) {place id : Nat}
    {source target : List Char}
    (known : state.tree.findDir place (basename source) = some id)
    (apart : state.tree.findFileIn under (targetName source target) = none)
    (moved : state.tree.moveTo id under (targetName source target) =
      .ok tree) : LocatedTree.Orderly { state with tree := tree } := by
  obtain ⟨dir, above, oldParent, found, foundUnder, isParent, outcome⟩ :=
    moveTo_ok moved
  obtain ⟨same, foundSame, named⟩ := findDir_some known
  rw [found] at foundSame
  cases foundSame
  rw [named, newNameOr_targetName] at outcome
  rcases outcome with ⟨_, _, rfl⟩ | ⟨valid, _, notBelow, unused, rfl⟩
  · exact orderly
  · exact orderly.rehung
      (rehang_rehung orderly.wellFormed found foundUnder isParent valid
        notBelow unused) (noFile_of_findFileIn apart)

theorem of_checked {valid : Bool} {result : Option LocatedTree}
    (finished : (if !valid then none else result) = some next) :
    result = some next := by
  split at finished
  · cases finished
  · exact finished

/-- One call that keeps the names apart keeps the tree orderly. -/
theorem Orderly.step (orderly : state.Orderly) {call : OpsCall}
    (apart : state.KeepsApart call) (taken : state.step call = some next) :
    next.Orderly := by
  cases call with
  | mkdir path parents => exact orderly.mkdir apart taken
  | touch path place =>
      obtain ⟨under, found, rest⟩ :=
        Option.bind_eq_some_iff.mp (of_checked taken)
      split at rest
      · cases rest
        exact orderly
      · exact orderly.upload (apart under found) rest
  | upload path place =>
      obtain ⟨under, found, rest⟩ :=
        Option.bind_eq_some_iff.mp (of_checked taken)
      exact orderly.upload (apart under found) rest
  | cpFile source target place =>
      obtain ⟨from_, _, rest⟩ := Option.bind_eq_some_iff.mp (of_checked taken)
      obtain ⟨file, _, rest⟩ := Option.bind_eq_some_iff.mp rest
      obtain ⟨under, found, copied⟩ := Option.bind_eq_some_iff.mp rest
      exact orderly.copy apart.1 (apart.2 under found) copied
  | cpDir source target places depth =>
      obtain ⟨from_, _, rest⟩ := Option.bind_eq_some_iff.mp (of_checked taken)
      obtain ⟨copied, known, rest⟩ := Option.bind_eq_some_iff.mp rest
      obtain ⟨under, found, rest⟩ := Option.bind_eq_some_iff.mp rest
      split at rest
      · cases rest
      · rename_i outside
        have different : copied ≠ under := by
          rintro rfl
          exact outside (isAncestorOf_self state.tree copied)
        obtain ⟨dir, foundDir, _⟩ := findDir_some known
        exact (copyDirInto_spec places depth orderly different
          ⟨dir, foundDir⟩ (noFile_of_findFileIn (apart under found))
          rest).orderly
  | mvFile source target =>
      obtain ⟨from_, _, rest⟩ := Option.bind_eq_some_iff.mp (of_checked taken)
      obtain ⟨file, _, rest⟩ := Option.bind_eq_some_iff.mp rest
      obtain ⟨under, found, moved⟩ := Option.bind_eq_some_iff.mp rest
      exact orderly.move apart.1 (apart.2 under found) moved
  | mvDir source target =>
      obtain ⟨from_, _, rest⟩ := Option.bind_eq_some_iff.mp (of_checked taken)
      obtain ⟨moved, known, rest⟩ := Option.bind_eq_some_iff.mp rest
      obtain ⟨under, found, rest⟩ := Option.bind_eq_some_iff.mp rest
      split at rest
      · cases rest
      · rename_i tree moves
        cases rest
        exact orderly.moveTo known (apart under found) moves
  | rmFile path =>
      obtain ⟨from_, _, rest⟩ := Option.bind_eq_some_iff.mp (of_checked taken)
      obtain ⟨file, _, rfl⟩ := Option.map_eq_some_iff.mp rest
      exact orderly.deleteFileRef from_ file
  | rmDir path recursive =>
      obtain ⟨from_, _, rest⟩ := Option.bind_eq_some_iff.mp (of_checked taken)
      obtain ⟨removed, _, rest⟩ := Option.bind_eq_some_iff.mp rest
      obtain ⟨dir, _, rest⟩ := Option.bind_eq_some_iff.mp rest
      split at rest
      · cases rest
      · obtain ⟨tree, deletes, rfl⟩ := Option.map_eq_some_iff.mp rest
        obtain ⟨parent, deleted⟩ := deleteDir_deleted deletes
        exact orderly.deleted deleted

/-- In every run whose calls keep files and directories apart the tree stays
orderly. -/
theorem apart_runs_orderly (state : LocatedTree)
    (reachable : ReachableWithin LocatedTree.step KeepsApart emptyRoot state) :
    state.Orderly :=
  reachable.invariant
    (fun _ _ _ orderly apart taken => orderly.step apart taken)
    emptyRoot_orderly

/-- A directory, a file in it and the file moved beside the directory. -/
def moveOut : List OpsCall :=
  [.mkdir "/a".toList false, .touch "/a/f".toList ⟨7, .empty, none⟩,
    .mvFile "/a/f".toList "/g".toList]

theorem moveOut_guarded :
    Guarded LocatedTree.step KeepsApart emptyRoot moveOut := by
  refine ⟨?_, ?_⟩
  · rintro start ⟨⟩
    rfl
  rintro made ⟨⟩
  refine ⟨?_, ?_⟩
  · rintro under ⟨⟩ _
    rfl
  rintro touched ⟨⟩
  refine ⟨⟨rfl, ?_⟩, fun _ _ => trivial⟩
  rintro under ⟨⟩
  rfl

theorem apart_runs_orderly_moved :
    ∃ state, ReachableWithin LocatedTree.step KeepsApart emptyRoot state ∧
      state.Orderly := by
  have reached : ReachableWithin LocatedTree.step KeepsApart emptyRoot _ :=
    ⟨moveOut, moveOut_guarded, rfl⟩
  exact ⟨_, reached, apart_runs_orderly _ reached⟩

/-- `attach_file_ref` compares a file with the files only, and a moved file
is not asked for a valid name. -/
theorem names_collide :
    (∃ state, Reachable LocatedTree.step emptyRoot state ∧
      ¬state.Orderly ∧ ∃ file child below, state.tree.Lists 0 file ∧
        state.tree.dirs.get? child = some below ∧ below.parent = some 0 ∧
        below.name = file.name) ∧
    ∃ state, Reachable LocatedTree.step emptyRoot state ∧
      ¬state.Orderly ∧ ∃ file, state.tree.Lists 0 file ∧
        validName file.name = false := by
  constructor
  · refine ⟨_, ⟨[.mkdir "/a".toList false,
      .touch "/a".toList ⟨7, .empty, none⟩], rfl⟩, ?_, ?_⟩
    · intro orderly
      exact orderly.apart 0 _ ⟨_, rfl, List.mem_singleton_self _⟩ 1 _ rfl rfl
        rfl
    · exact ⟨_, 1, _, ⟨_, rfl, List.mem_singleton_self _⟩, rfl, rfl, rfl⟩
  · refine ⟨_, ⟨[.touch "/f".toList ⟨7, .empty, none⟩,
      .mvFile "/f".toList "/-f".toList], rfl⟩, ?_, ?_⟩
    · intro orderly
      have valid := orderly.fileNames 0 _ ⟨_, rfl, List.mem_singleton_self _⟩
      revert valid
      decide
    · exact ⟨_, ⟨_, rfl, List.mem_singleton_self _⟩, rfl⟩

end LocatedTree

end Tgdcfs
