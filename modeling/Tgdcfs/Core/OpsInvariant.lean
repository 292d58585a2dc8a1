import Tgdcfs.Core.Ops

/-!
# The tree under file operations

`Orderly` is what a tree should be: well formed, files and directories of one
directory with different names, valid names throughout and refs that know
where they are.  The operations keep it as long as none of them gives a file
the name of a directory beside it, a directory the name of a file beside it,
or a moved or copied file a name that `validate_name` refuses.
-/

namespace Tgdcfs

open Lib

namespace DirectoryTree

variable {tree next : DirectoryTree}

/-- No file of the directory has the name. -/
def NoFile (tree : DirectoryTree) (under : Nat) (name : Name) : Prop :=
  ∀ file, tree.Lists under file → file.name ≠ name

/-- No directory hangs there under the name. -/
def NoDir (tree : DirectoryTree) (under : Nat) (name : Name) : Prop :=
  ∀ child below, tree.dirs.get? child = some below →
    below.parent = some under → below.name ≠ name

theorem NoDir.sameDirs {under : Nat} {name : Name}
    (free : tree.NoDir under name) (same : SameDirs tree next) :
    next.NoDir under name := by
  intro child below found isParent
  obtain ⟨files, foundBefore⟩ := same.backward child below found
  have different := free child _ foundBefore isParent
  exact different

theorem le_foldl_max (keys : List Nat) :
    ∀ start, start ≤ keys.foldl max start ∧
      ∀ key ∈ keys, key ≤ keys.foldl max start := by
  induction keys with
  | nil => simp
  | cons first keys ih =>
      intro start
      obtain ⟨low, bound⟩ := ih (max start first)
      refine ⟨(le_max_left ..).trans low, ?_⟩
      intro key member
      rcases List.mem_cons.mp member with rfl | inside
      · exact (le_max_right ..).trans low
      · exact bound key inside

theorem nextId_fresh (tree : DirectoryTree) :
    tree.dirs.get? tree.nextId = none := by
  rw [Dict.get?_eq_none_iff]
  intro known
  have bound := (le_foldl_max tree.dirs.keys 0).2 _ known
  unfold nextId at bound
  omega

section Delete

variable {id parent : Nat}

/-- The directory `id` and everything below it is gone. -/
structure Deleted (tree next : DirectoryTree) (id parent : Nat) : Prop where
  found : ∃ dir, tree.dirs.get? id = some dir ∧ dir.parent = some parent
  get? : ∀ other, next.dirs.get? other =
    if tree.isAncestorOf id other then none
    else (tree.dirs.get? other).map fun before =>
      if other = parent then before.disown id else before

theorem deleteDir_deleted (deleted : tree.deleteDir id = some next) :
    ∃ parent, Deleted tree next id parent := by
  unfold deleteDir at deleted
  obtain ⟨parent, hadParent, rfl⟩ := Option.map_eq_some_iff.mp deleted
  obtain ⟨dir, found, isParent⟩ := Option.bind_eq_some_iff.mp hadParent
  refine ⟨parent, ⟨dir, found, isParent⟩, ?_⟩
  intro other
  rw [Dict.get?_modify, Dict.get?_filterKeys]
  by_cases below : tree.isAncestorOf id other
  · simp [below]
  · by_cases here : other = parent
    · subst here
      simp [below]
    · simp [below, here]

theorem Deleted.backward (deleted : Deleted tree next id parent)
    {other : Nat} {after : Directory}
    (left : next.dirs.get? other = some after) :
    tree.isAncestorOf id other = false ∧ ∃ before,
      tree.dirs.get? other = some before ∧ after.name = before.name ∧
      after.parent = before.parent ∧ after.files = before.files ∧
      after.children =
        if other = parent then before.children.erase id
        else before.children := by
  rw [deleted.get?] at left
  split at left
  · cases left
  · rename_i outside
    obtain ⟨before, foundBefore, rfl⟩ := Option.map_eq_some_iff.mp left
    refine ⟨by simpa using outside, before, foundBefore, ?_⟩
    split <;> exact ⟨rfl, rfl, rfl, rfl⟩

theorem Deleted.forward (deleted : Deleted tree next id parent)
    {other : Nat} {before : Directory}
    (outside : tree.isAncestorOf id other = false)
    (foundBefore : tree.dirs.get? other = some before) :
    ∃ after, next.dirs.get? other = some after ∧
      after.name = before.name ∧ after.parent = before.parent ∧
      after.files = before.files ∧ after.children =
        if other = parent then before.children.erase id
        else before.children := by
  rw [deleted.get?, outside, foundBefore]
  refine ⟨_, rfl, ?_⟩
  split <;> exact ⟨rfl, rfl, rfl, rfl⟩

/-- A directory lies below another one if it is that one or its parent lies
below it. -/
theorem WellFormed.isAncestorOf_child (wellFormed : tree.WellFormed)
    {child above : Nat} {below : Directory}
    (foundBelow : tree.dirs.get? child = some below)
    (isParent : below.parent = some above) (root : id ≠ 0) :
    tree.isAncestorOf id child ↔
      id = child ∨ tree.isAncestorOf id above := by
  obtain ⟨aboveDir, foundAbove, _⟩ :=
    wellFormed.listed child below above foundBelow isParent
  obtain ⟨steps, trail⟩ := wellFormed.hangs above aboveDir foundAbove
  have longer : Trail tree.up 0 (steps ++ [(child, below.name)]) child :=
    .step trail (up_of_get foundBelow isParent)
  rw [wellFormed.isAncestorOf_iff longer, wellFormed.isAncestorOf_iff trail]
  simp only [List.map_append, List.map_cons, List.map_nil, List.mem_cons,
    List.mem_append, List.not_mem_nil, or_false]
  tauto

theorem Deleted.notRoot (deleted : Deleted tree next id parent)
    (wellFormed : tree.WellFormed) : id ≠ 0 := by
  rintro rfl
  obtain ⟨dir, found, hadParent⟩ := deleted.found
  obtain ⟨rootDir, foundRoot, isRoot⟩ := wellFormed.root
  rw [found] at foundRoot
  cases foundRoot
  rw [hadParent] at isRoot
  cases isRoot

section Left

variable (deleted : Deleted tree next id parent)
  (wellFormed : tree.WellFormed)

include deleted wellFormed

theorem Deleted.root_left : tree.isAncestorOf id 0 = false := by
  by_contra inside
  have lies := (wellFormed.isAncestorOf_iff .here).mp (by simpa using inside)
  simp only [List.map_nil, List.mem_singleton] at lies
  exact deleted.notRoot wellFormed lies

/-- The parent of a directory that is left is left. -/
theorem Deleted.parent_left {child above : Nat} {below : Directory}
    (foundBelow : tree.dirs.get? child = some below)
    (isParent : below.parent = some above)
    (outside : tree.isAncestorOf id child = false) :
    child ≠ id ∧ tree.isAncestorOf id above = false := by
  have lies := (wellFormed.isAncestorOf_child foundBelow isParent
    (deleted.notRoot wellFormed)).not.mp (by simp [outside])
  rw [not_or] at lies
  exact ⟨Ne.symm lies.1, by simpa using lies.2⟩

/-- A child that a directory still lists is left. -/
theorem Deleted.child_left {other child : Nat} {before below : Directory}
    (outside : tree.isAncestorOf id other = false)
    (foundBefore : tree.dirs.get? other = some before)
    (listed : child ∈ if other = parent then before.children.erase id
      else before.children)
    (foundBelow : tree.dirs.get? child = some below)
    (isParent : below.parent = some other) :
    tree.isAncestorOf id child = false := by
  have notDeleted : id ≠ child := by
    rintro rfl
    obtain ⟨dir, found, hadParent⟩ := deleted.found
    rw [found] at foundBelow
    cases foundBelow
    rw [hadParent] at isParent
    cases isParent
    rw [if_pos rfl] at listed
    exact List.Nodup.not_mem_erase
      (wellFormed.childrenNodup _ before foundBefore) listed
  by_contra inside
  rcases (wellFormed.isAncestorOf_child foundBelow isParent
    (deleted.notRoot wellFormed)).mp (by simpa using inside) with
    same | within
  · exact notDeleted same
  · rw [outside] at within
    cases within

/-- No directory on the trail to one that is left was deleted. -/
theorem Deleted.trail {other : Nat} {steps : List (Nat × Name)}
    (outside : tree.isAncestorOf id other = false)
    (trail : Trail tree.up 0 steps other) : Trail next.up 0 steps other := by
  apply trail.congr
  intro item member
  obtain ⟨start, itemTrail, begins, proper⟩ := trail.of_mem member
  have itemOutside : tree.isAncestorOf id item.1 = false := by
    by_contra inside
    have onStart := (wellFormed.isAncestorOf_iff itemTrail).mp
      (by simpa using inside)
    have onSteps : id ∈ 0 :: steps.map Prod.fst := by
      rcases List.mem_cons.mp onStart with isRoot | within
      · exact (deleted.notRoot wellFormed isRoot).elim
      · exact List.mem_cons_of_mem _ ((begins.map Prod.fst).subset within)
    have lies := (wellFormed.isAncestorOf_iff trail).mpr onSteps
    rw [outside] at lies
    cases lies
  cases foundItem : tree.dirs.get? item.1 with
  | none =>
      have gone : next.dirs.get? item.1 = none := by
        rw [deleted.get?, itemOutside, foundItem]
        rfl
      rw [up, up, foundItem, gone]
  | some itemDir =>
      obtain ⟨after, left, sameName, sameParent, _⟩ :=
        deleted.forward itemOutside foundItem
      rw [up, up, left, foundItem, Option.bind_some, Option.bind_some,
        sameName, sameParent]

end Left

theorem Deleted.wellFormed (deleted : Deleted tree next id parent)
    (wellFormed : tree.WellFormed) : next.WellFormed := by
  refine ⟨?_, ?_, ?_, ?_, ?_, ?_, ?_, ?_⟩
  · obtain ⟨rootDir, foundRoot, isRoot⟩ := wellFormed.root
    obtain ⟨after, left, _, sameParent, _⟩ :=
      deleted.forward (deleted.root_left wellFormed) foundRoot
    exact ⟨after, left, sameParent.trans isRoot⟩
  · intro other after left
    obtain ⟨outside, before, foundBefore, _⟩ := deleted.backward left
    obtain ⟨steps, trail⟩ := wellFormed.hangs other before foundBefore
    exact ⟨steps, deleted.trail wellFormed outside trail⟩
  · intro other after above left isParent
    obtain ⟨outside, before, foundBefore, _, sameParent, _⟩ :=
      deleted.backward left
    rw [sameParent] at isParent
    obtain ⟨aboveDir, foundAbove, listed⟩ :=
      wellFormed.listed other before above foundBefore isParent
    obtain ⟨notDeleted, aboveOutside⟩ :=
      deleted.parent_left wellFormed foundBefore isParent outside
    obtain ⟨aboveAfter, aboveLeft, _, _, _, children⟩ :=
      deleted.forward aboveOutside foundAbove
    refine ⟨aboveAfter, aboveLeft, ?_⟩
    rw [children]
    split
    · exact (List.mem_erase_of_ne notDeleted).mpr listed
    · exact listed
  · intro other after child left listed
    obtain ⟨outside, before, foundBefore, _, _, _, children⟩ :=
      deleted.backward left
    rw [children] at listed
    have wasListed : child ∈ before.children := by
      split at listed
      · exact List.mem_of_mem_erase listed
      · exact listed
    obtain ⟨below, foundBelow, isParent⟩ :=
      wellFormed.children other before child foundBefore wasListed
    obtain ⟨belowAfter, belowLeft, _, sameParent, _⟩ :=
      deleted.forward (deleted.child_left wellFormed outside foundBefore
        listed foundBelow isParent) foundBelow
    exact ⟨belowAfter, belowLeft, sameParent.trans isParent⟩
  · intro other after left
    obtain ⟨_, before, foundBefore, _, _, _, children⟩ := deleted.backward left
    have nodup := wellFormed.childrenNodup other before foundBefore
    rw [children]
    split
    · exact nodup.erase id
    · exact nodup
  · intro other after above left isParent
    obtain ⟨_, before, foundBefore, sameName, sameParent, _⟩ :=
      deleted.backward left
    rw [sameName]
    exact wellFormed.named other before above foundBefore
      (sameParent ▸ isParent)
  · intro above first second firstDir secondDir firstLeft secondLeft
      firstParent secondParent sameNames
    obtain ⟨_, one, foundOne, oneName, oneParent, _⟩ :=
      deleted.backward firstLeft
    obtain ⟨_, two, foundTwo, twoName, twoParent, _⟩ :=
      deleted.backward secondLeft
    exact wellFormed.siblings above first second one two foundOne foundTwo
      (oneParent ▸ firstParent) (twoParent ▸ secondParent)
      (oneName.symm.trans (sameNames.trans twoName))
  · intro other after left
    obtain ⟨_, before, foundBefore, _, _, sameFiles, _⟩ := deleted.backward left
    rw [sameFiles]
    exact wellFormed.files other before foundBefore

end Delete

end DirectoryTree

namespace LocatedTree

open DirectoryTree

/-- The invariant of the tree.  A directory that hangs below another one is
one of its children and the other way round, so `apart` compares the entries
that a directory lists. -/
structure Orderly (state : LocatedTree) : Prop where
  wellFormed : state.tree.WellFormed
  apart : ∀ id file, state.tree.Lists id file →
    state.tree.NoDir id file.name
  fileNames : ∀ id file, state.tree.Lists id file → validName file.name
  located : ∀ id file, state.tree.Lists id file →
    state.locations.get? (id, file.name) = some id

theorem emptyRoot_orderly : emptyRoot.Orderly := by
  have get? : ∀ id, emptyRoot.tree.dirs.get? id =
      if id = 0 then some ⟨"root".toList, none, [], []⟩ else none := by
    intro id
    rw [emptyRoot, Dict.get?_set]
    rfl
  have only : ∀ id dir, emptyRoot.tree.dirs.get? id = some dir →
      id = 0 ∧ dir = ⟨"root".toList, none, [], []⟩ := by
    intro id dir found
    rw [get?] at found
    split at found
    · rename_i root
      cases found
      exact ⟨root, rfl⟩
    · cases found
  have noFiles : ∀ id file, ¬emptyRoot.tree.Lists id file := by
    rintro id file ⟨dir, found, member⟩
    rw [(only id dir found).2] at member
    cases member
  refine ⟨⟨⟨_, get? 0, rfl⟩, ?_, ?_, ?_, ?_, ?_, ?_, ?_⟩,
    fun id file listed => (noFiles id file listed).elim,
    fun id file listed => (noFiles id file listed).elim,
    fun id file listed => (noFiles id file listed).elim⟩
  · intro id dir found
    rw [(only id dir found).1]
    exact ⟨[], .here⟩
  · intro id dir parent found isParent
    rw [(only id dir found).2] at isParent
    cases isParent
  · intro id dir child found listed
    rw [(only id dir found).2] at listed
    cases listed
  · intro id dir found
    rw [(only id dir found).2]
    exact List.nodup_nil
  · intro id dir parent found isParent
    rw [(only id dir found).2] at isParent
    cases isParent
  · intro parent first second firstDir secondDir foundFirst foundSecond
    rw [(only first firstDir foundFirst).1, (only second secondDir foundSecond).1]
    intros
    rfl
  · intro id dir found
    rw [(only id dir found).2]
    exact List.nodup_nil

variable {state next : LocatedTree}

variable {tree : DirectoryTree}

theorem Orderly.rehung (orderly : state.Orderly) {id parent : Nat}
    {name : Name} (rehung : Rehung state.tree tree id parent name)
    (free : state.tree.NoFile parent name) :
    LocatedTree.Orderly { state with tree := tree } := by
  refine ⟨rehung.wellFormed orderly.wellFormed, ?_, ?_, ?_⟩
  · intro place file listed child below foundBelow isParent
    have before := rehung.lists_iff.mp listed
    by_cases here : child = id
    · subst here
      obtain ⟨moved, foundMoved, named, movedParent⟩ := rehung.moved
      rw [foundMoved] at foundBelow
      cases foundBelow
      rw [movedParent] at isParent
      cases isParent
      rw [named]
      exact (free file before).symm
    · obtain ⟨earlier, foundEarlier, rfl⟩ :=
        rehung.other_backward here foundBelow
      exact orderly.apart place file before child earlier foundEarlier isParent
  · intro place file listed
    exact orderly.fileNames place file (rehung.lists_iff.mp listed)
  · intro place file listed
    exact orderly.located place file (rehung.lists_iff.mp listed)

theorem Orderly.sameDirs (orderly : state.Orderly)
    (same : SameDirs state.tree tree) (wellFormed : tree.WellFormed)
    (names : ∀ id file, tree.Lists id file →
      ∃ before, state.tree.Lists id before ∧ before.name = file.name) :
    LocatedTree.Orderly { state with tree := tree } := by
  refine ⟨wellFormed, ?_, ?_, ?_⟩
  · intro id file listed
    obtain ⟨before, wasListed, sameName⟩ := names id file listed
    rw [← sameName]
    exact (orderly.apart id before wasListed).sameDirs same
  · intro id file listed
    obtain ⟨before, wasListed, sameName⟩ := names id file listed
    rw [← sameName]
    exact orderly.fileNames id before wasListed
  · intro id file listed
    obtain ⟨before, wasListed, sameName⟩ := names id file listed
    rw [← sameName]
    exact orderly.located id before wasListed

variable {under : Nat}

theorem createDir_rehung (orderly : state.Orderly) {copied : Nat} {name : Name}
    (created : state.createDir under name = some (next, copied)) :
    copied = state.tree.nextId ∧ next.locations = state.locations ∧
      Rehung state.tree next.tree copied under name := by
  unfold LocatedTree.createDir at created
  split at created
  · cases created
  · rename_i tree made
    cases created
    exact ⟨rfl, rfl, DirectoryTree.createDir_rehung orderly.wellFormed
      state.tree.nextId_fresh made⟩

theorem Orderly.createDir (orderly : state.Orderly) {copied : Nat}
    {name : Name} (free : state.tree.NoFile under name)
    (created : state.createDir under name = some (next, copied)) :
    next.Orderly := by
  obtain ⟨_, sameLocations, rehung⟩ := createDir_rehung orderly created
  have hung := orderly.rehung rehung free
  rw [← sameLocations] at hung
  exact hung

theorem createFileRef_ok {file : FileRef}
    (created : state.createFileRef under file = some next) :
    state.tree.createFileRef under file = .ok next.tree ∧
      next.locations = state.locations.set (under, file.name) under := by
  unfold LocatedTree.createFileRef at created
  split at created
  · cases created
  · rename_i tree made
    cases created
    exact ⟨made, rfl⟩

theorem Orderly.createFileRef (orderly : state.Orderly) {file : FileRef}
    (valid : validName file.name) (free : state.tree.NoDir under file.name)
    (created : state.createFileRef under file = some next) : next.Orderly := by
  obtain ⟨made, locations⟩ := createFileRef_ok created
  obtain ⟨same, wellFormed⟩ :=
    createFileRef_wellFormed orderly.wellFormed made
  refine ⟨wellFormed, ?_, ?_, ?_⟩
  · intro id other listed
    rcases (createFileRef_lists made).mp listed with before | ⟨rfl, rfl⟩
    · exact (orderly.apart id other before).sameDirs same
    · exact free.sameDirs same
  · intro id other listed
    rcases (createFileRef_lists made).mp listed with before | ⟨rfl, rfl⟩
    · exact orderly.fileNames id other before
    · exact valid
  · intro id other listed
    rw [locations, Dict.get?_set]
    split
    · rename_i here
      rw [(Prod.mk.inj here).1]
    · rename_i elsewhere
      rcases (createFileRef_lists made).mp listed with before | ⟨rfl, rfl⟩
      · exact orderly.located id other before
      · exact (elsewhere rfl).elim

theorem Orderly.deleteFileRef (orderly : state.Orderly) (id : Nat)
    (file : FileRef) :
    LocatedTree.Orderly { state with
      tree := state.tree.deleteFileRef id file } := by
  obtain ⟨same, wellFormed⟩ :=
    deleteFileRef_wellFormed orderly.wellFormed id file
  refine orderly.sameDirs same wellFormed ?_
  intro place other listed
  exact ⟨other, deleteFileRef_lists.1 listed, rfl⟩

theorem Orderly.refer (orderly : state.Orderly) (under : Nat) (name : Name)
    (place : DescriptorPlace) :
    LocatedTree.Orderly { state with
      tree := state.tree.changeFiles under fun files =>
        files.map fun other =>
          if other.name = name then place.refer name else other } := by
  have kept : ∀ other : FileRef,
      (if other.name = name then place.refer name else other).name =
        other.name := by
    intro other
    split
    · rename_i same
      exact same.symm
    · rfl
  refine orderly.sameDirs (.changeFiles ..) ?_ ?_
  · refine SameDirs.wellFormed (.changeFiles ..) orderly.wellFormed ?_
    intro id dir found
    rw [changeFiles_get] at found
    obtain ⟨before, foundBefore, rfl⟩ := Option.map_eq_some_iff.mp found
    have nodup := orderly.wellFormed.files id before foundBefore
    dsimp only
    split
    · rw [List.map_map]
      have same : FileRef.name ∘ (fun other : FileRef =>
          if other.name = name then place.refer name else other) =
            FileRef.name := funext kept
      rw [same]
      exact nodup
    · exact nodup
  · intro id file listed
    obtain ⟨dir, found, member⟩ := changeFiles_lists.mp listed
    split at member
    · obtain ⟨before, wasListed, rfl⟩ := List.mem_map.mp member
      exact ⟨before, ⟨dir, found, wasListed⟩, (kept before).symm⟩
    · exact ⟨file, ⟨dir, found, member⟩, rfl⟩

theorem Orderly.deleted (orderly : state.Orderly) {id parent : Nat}
    (deleted : Deleted state.tree tree id parent) :
    LocatedTree.Orderly { state with tree := tree } := by
  have lists : ∀ place file, tree.Lists place file →
      state.tree.Lists place file := by
    rintro place file ⟨dir, found, member⟩
    obtain ⟨_, before, foundBefore, _, _, files, _⟩ := deleted.backward found
    exact ⟨before, foundBefore, files ▸ member⟩
  refine ⟨deleted.wellFormed orderly.wellFormed, ?_, ?_, ?_⟩
  · intro place file listed child below foundBelow isParent
    obtain ⟨_, before, foundBefore, name, parent, _⟩ :=
      deleted.backward foundBelow
    rw [name]
    exact orderly.apart place file (lists place file listed) child before
      foundBefore (parent ▸ isParent)
  · intro place file listed
    exact orderly.fileNames place file (lists place file listed)
  · intro place file listed
    exact orderly.located place file (lists place file listed)

end LocatedTree

end Tgdcfs
