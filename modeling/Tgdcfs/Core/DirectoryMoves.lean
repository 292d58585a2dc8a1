import Tgdcfs.Core.DirectoryPaths

/-!
# Changes of the directory tree

Creating directories and files and moving them keeps the tree well formed.
A directory keeps its trail unless it lies below the one that is moved.
-/

namespace Tgdcfs

open Lib

namespace DirectoryTree

variable {tree next : DirectoryTree}

/-- Only the files of directories differ. -/
structure SameDirs (tree next : DirectoryTree) : Prop where
  forward : ∀ id dir, tree.dirs.get? id = some dir →
    ∃ files, next.dirs.get? id = some { dir with files := files }
  backward : ∀ id dir, next.dirs.get? id = some dir →
    ∃ files, tree.dirs.get? id = some { dir with files := files }

theorem changeFiles_get (location : Nat)
    (change : List FileRef → List FileRef) (id : Nat) :
    (tree.changeFiles location change).dirs.get? id =
      (tree.dirs.get? id).map fun dir =>
        { dir with
          files := if id = location then change dir.files
            else dir.files } := by
  rw [changeFiles, Dict.get?_modify]
  by_cases here : id = location
  · simp only [if_pos here]
  · simp only [if_neg here]
    cases tree.dirs.get? id <;> rfl

theorem SameDirs.changeFiles (location : Nat)
    (change : List FileRef → List FileRef) :
    SameDirs tree (tree.changeFiles location change) := by
  refine ⟨?_, ?_⟩
  · intro id dir found
    exact ⟨_, by rw [changeFiles_get, found, Option.map_some]⟩
  · intro id dir found
    rw [changeFiles_get] at found
    obtain ⟨before, foundBefore, changed⟩ :=
      Option.map_eq_some_iff.mp found
    subst changed
    exact ⟨before.files, foundBefore⟩

theorem SameDirs.trans {last : DirectoryTree} (first : SameDirs tree next)
    (second : SameDirs next last) : SameDirs tree last := by
  refine ⟨?_, ?_⟩
  · intro id dir found
    obtain ⟨_, foundNext⟩ := first.forward id dir found
    have foundLast := second.forward id _ foundNext
    exact foundLast
  · intro id dir found
    obtain ⟨_, foundNext⟩ := second.backward id dir found
    have foundFirst := first.backward id _ foundNext
    exact foundFirst

theorem SameDirs.up_eq (same : SameDirs tree next) (id : Nat) :
    next.up id = tree.up id := by
  cases found : tree.dirs.get? id with
  | some dir =>
      obtain ⟨_, foundNext⟩ := same.forward id dir found
      rw [up, up, found, foundNext]
      rfl
  | none =>
      cases foundNext : next.dirs.get? id with
      | none => rw [up, up, found, foundNext]
      | some dir =>
          obtain ⟨_, clash⟩ := same.backward id dir foundNext
          rw [found] at clash
          cases clash

theorem SameDirs.wellFormed (same : SameDirs tree next)
    (wellFormed : tree.WellFormed)
    (files : ∀ id dir, next.dirs.get? id = some dir →
      (dir.files.map FileRef.name).Nodup) : next.WellFormed := by
  have ups : next.up = tree.up := funext same.up_eq
  refine ⟨?_, ?_, ?_, ?_, ?_, ?_, ?_, files⟩
  · obtain ⟨dir, found, isRoot⟩ := wellFormed.root
    obtain ⟨_, foundNext⟩ := same.forward 0 dir found
    exact ⟨_, foundNext, isRoot⟩
  · intro id dir found
    obtain ⟨_, foundBefore⟩ := same.backward id dir found
    rw [ups]
    exact wellFormed.hangs id _ foundBefore
  · intro id dir parent found isParent
    obtain ⟨_, foundBefore⟩ := same.backward id dir found
    obtain ⟨above, foundAbove, listed⟩ :=
      wellFormed.listed id _ parent foundBefore isParent
    obtain ⟨_, foundNext⟩ := same.forward parent above foundAbove
    exact ⟨_, foundNext, listed⟩
  · intro id dir child found listed
    obtain ⟨_, foundBefore⟩ := same.backward id dir found
    obtain ⟨below, foundBelow, isParent⟩ :=
      wellFormed.children id _ child foundBefore listed
    obtain ⟨_, foundNext⟩ := same.forward child below foundBelow
    exact ⟨_, foundNext, isParent⟩
  · intro id dir found
    obtain ⟨_, foundBefore⟩ := same.backward id dir found
    have nodup := wellFormed.childrenNodup id _ foundBefore
    exact nodup
  · intro id dir parent found isParent
    obtain ⟨_, foundBefore⟩ := same.backward id dir found
    have valid := wellFormed.named id _ parent foundBefore isParent
    exact valid
  · intro parent first second firstDir secondDir foundFirst foundSecond
    obtain ⟨_, firstBefore⟩ := same.backward first firstDir foundFirst
    obtain ⟨_, secondBefore⟩ := same.backward second secondDir foundSecond
    have equal := wellFormed.siblings parent first second _ _ firstBefore
      secondBefore
    exact equal

variable {id : Nat} {dir : Directory}

theorem SameDirs.filePath_eq (same : SameDirs tree next)
    (wellFormed : tree.WellFormed) (nextWellFormed : next.WellFormed)
    (found : tree.dirs.get? id = some dir) (file : FileRef) :
    next.filePath id file = tree.filePath id file := by
  obtain ⟨steps, trail⟩ := wellFormed.hangs id dir found
  refine filePath_congr wellFormed nextWellFormed trail ?_ file
  exact trail.congr fun item _ => same.up_eq item.1

variable {location : Nat} {file : FileRef}

theorem createFileRef_ok
    (created : tree.createFileRef location file = .ok next) :
    ∃ dir, tree.dirs.get? location = some dir ∧
      findFiles dir file.name = [] ∧
      next = tree.changeFiles location (· ++ [file]) := by
  unfold createFileRef at created
  cases found : tree.dirs.get? location with
  | none =>
      rw [found] at created
      cases created
  | some dir =>
      rw [found] at created
      dsimp only at created
      split at created
      · cases created
      · rename_i free
        cases created
        exact ⟨dir, rfl, by simpa using free, rfl⟩

theorem createFileRef_wellFormed (wellFormed : tree.WellFormed)
    (created : tree.createFileRef location file = .ok next) :
    SameDirs tree next ∧ next.WellFormed := by
  obtain ⟨dir, found, free, rfl⟩ := createFileRef_ok created
  have same : SameDirs tree (tree.changeFiles location (· ++ [file])) :=
    .changeFiles location _
  refine ⟨same, same.wellFormed wellFormed ?_⟩
  intro id changed foundNext
  rw [changeFiles_get] at foundNext
  obtain ⟨before, foundBefore, rfl⟩ := Option.map_eq_some_iff.mp foundNext
  dsimp only
  split
  · rename_i here
    rw [here, found] at foundBefore
    cases foundBefore
    rw [List.map_append, List.map_singleton, List.nodup_append]
    refine ⟨wellFormed.files location dir found, by simp, ?_⟩
    intro first inside second last equal
    rw [List.mem_singleton.mp last] at equal
    obtain ⟨other, member, named⟩ := List.mem_map.mp inside
    have clash : other ∈ findFiles dir file.name :=
      List.mem_filter.mpr ⟨member, by simpa using named.trans equal⟩
    rw [free] at clash
    cases clash
  · exact wellFormed.files id before foundBefore

theorem deleteFileRef_wellFormed (wellFormed : tree.WellFormed)
    (location : Nat) (file : FileRef) :
    SameDirs tree (tree.deleteFileRef location file) ∧
      (tree.deleteFileRef location file).WellFormed := by
  have same : SameDirs tree (tree.deleteFileRef location file) :=
    .changeFiles location _
  refine ⟨same, same.wellFormed wellFormed ?_⟩
  intro id changed foundNext
  rw [deleteFileRef, changeFiles_get] at foundNext
  obtain ⟨before, foundBefore, rfl⟩ := Option.map_eq_some_iff.mp foundNext
  dsimp only
  split
  · exact (wellFormed.files id before foundBefore).sublist
      (List.erase_sublist.map _)
  · exact wellFormed.files id before foundBefore

/-- A file is listed by a directory. -/
def Lists (tree : DirectoryTree) (id : Nat) (file : FileRef) : Prop :=
  ∃ dir, tree.dirs.get? id = some dir ∧ file ∈ dir.files

theorem changeFiles_lists {change : List FileRef → List FileRef} :
    (tree.changeFiles location change).Lists id file ↔
      ∃ dir, tree.dirs.get? id = some dir ∧
        file ∈ if id = location then change dir.files else dir.files := by
  unfold Lists
  rw [changeFiles_get]
  constructor
  · rintro ⟨_, found, member⟩
    obtain ⟨dir, foundBefore, rfl⟩ := Option.map_eq_some_iff.mp found
    exact ⟨dir, foundBefore, member⟩
  · rintro ⟨dir, found, member⟩
    rw [found]
    exact ⟨_, rfl, member⟩

theorem createFileRef_lists {other : FileRef}
    (created : tree.createFileRef location file = .ok next) :
    next.Lists id other ↔
      tree.Lists id other ∨ (id = location ∧ other = file) := by
  obtain ⟨dir, found, _, rfl⟩ := createFileRef_ok created
  rw [changeFiles_lists]
  constructor
  · rintro ⟨before, foundBefore, member⟩
    split at member
    · rename_i here
      rcases List.mem_append.mp member with earlier | last
      · exact .inl ⟨before, foundBefore, earlier⟩
      · exact .inr ⟨here, List.mem_singleton.mp last⟩
    · exact .inl ⟨before, foundBefore, member⟩
  · rintro (⟨before, foundBefore, member⟩ | ⟨rfl, rfl⟩)
    · refine ⟨before, foundBefore, ?_⟩
      split
      · exact List.mem_append_left _ member
      · exact member
    · refine ⟨dir, found, ?_⟩
      rw [if_pos rfl]
      exact List.mem_append_right _ List.mem_cons_self

theorem deleteFileRef_lists {other : FileRef} :
    ((tree.deleteFileRef location file).Lists id other →
      tree.Lists id other) ∧
    (tree.Lists id other → other ≠ file →
      (tree.deleteFileRef location file).Lists id other) := by
  constructor
  · intro listed
    obtain ⟨dir, found, member⟩ := changeFiles_lists.mp listed
    split at member
    · exact ⟨dir, found, List.mem_of_mem_erase member⟩
    · exact ⟨dir, found, member⟩
  · rintro ⟨dir, found, member⟩ different
    refine changeFiles_lists.mpr ⟨dir, found, ?_⟩
    split
    · exact (List.mem_erase_of_ne different).mpr member
    · exact member

theorem relocateFileRef_spec (wellFormed : tree.WellFormed)
    {source target : Nat} {newName : Name}
    (moved : tree.relocateFileRef source file target newName = .ok next) :
    SameDirs tree next ∧ next.WellFormed ∧
      (∀ id other, tree.Lists id other → other ≠ file →
        next.Lists id other) ∧
      ∀ id other, next.Lists id other →
        tree.Lists id other ∨ other.messageId = file.messageId := by
  unfold relocateFileRef at moved
  dsimp only at moved
  split at moved
  · cases moved
    refine ⟨⟨fun id dir found => ⟨dir.files, found⟩,
      fun id dir found => ⟨dir.files, found⟩⟩, wellFormed, ?_, ?_⟩
    · intro id other listed _
      exact listed
    · intro id other listed
      exact .inl listed
  · cases created : tree.createFileRef target
        { file with name := newNameOr newName file.name } with
    | error failure =>
        rw [created] at moved
        cases moved
    | ok middle =>
        rw [created] at moved
        cases moved
        obtain ⟨sameFirst, middleWellFormed⟩ :=
          createFileRef_wellFormed wellFormed created
        obtain ⟨sameSecond, nextWellFormed⟩ :=
          deleteFileRef_wellFormed middleWellFormed source file
        refine ⟨sameFirst.trans sameSecond, nextWellFormed, ?_, ?_⟩
        · intro id other listed different
          apply deleteFileRef_lists.2 _ different
          exact (createFileRef_lists created).mpr (.inl listed)
        · intro id other listed
          have inMiddle := deleteFileRef_lists.1 listed
          rcases (createFileRef_lists created).mp inMiddle with
            before | ⟨_, same⟩
          · exact .inl before
          · rw [same]
            exact .inr rfl

theorem WellFormed.parent_ne (wellFormed : tree.WellFormed)
    (found : tree.dirs.get? id = some dir) : dir.parent ≠ some id := by
  intro loops
  obtain ⟨steps, trail⟩ := wellFormed.hangs id dir found
  have again : Trail tree.up 0 (steps ++ [(id, dir.name)]) id :=
    .step trail (up_of_get found loops)
  have same := trail.unique wellFormed.up_root again
  have longer := congrArg List.length same
  rw [List.length_append, List.length_singleton] at longer
  omega

/-- The directory `id` hangs below `parent` under a new name; it is new or was
taken from somewhere else. -/
structure Rehung (tree next : DirectoryTree) (id parent : Nat)
    (name : Name) : Prop where
  moved : ∃ dir, next.dirs.get? id = some dir ∧ dir.name = name ∧
    dir.parent = some parent
  kept : ∀ dir changed, tree.dirs.get? id = some dir →
    next.dirs.get? id = some changed →
      changed.children = dir.children ∧ changed.files = dir.files
  fresh : ∀ changed, tree.dirs.get? id = none →
    next.dirs.get? id = some changed →
      changed.children = [] ∧ changed.files = []
  others : ∀ other, other ≠ id → next.dirs.get? other =
    (tree.dirs.get? other).map fun dir =>
      { dir with
        children := dir.children.erase id ++
          if other = parent then [id] else [] }
  valid : validName name
  free : ∀ other dir, other ≠ id → tree.dirs.get? other = some dir →
    dir.parent = some parent → dir.name ≠ name
  apart : ∃ steps, Trail tree.up 0 steps parent ∧
    id ∉ 0 :: steps.map Prod.fst
  above : ∃ dir, tree.dirs.get? parent = some dir

namespace Rehung

variable {id parent : Nat} {name : Name}

theorem ne_root (rehung : Rehung tree next id parent name) : id ≠ 0 := by
  obtain ⟨steps, _, outside⟩ := rehung.apart
  rintro rfl
  exact outside List.mem_cons_self

theorem ne_parent (rehung : Rehung tree next id parent name) :
    parent ≠ id := by
  obtain ⟨steps, trail, outside⟩ := rehung.apart
  rintro rfl
  apply outside
  by_cases isRoot : parent = 0
  · rw [isRoot]
    exact List.mem_cons_self
  · exact List.mem_cons_of_mem _ (trail.last_mem isRoot)

variable {other : Nat} {dir : Directory}

variable (rehung : Rehung tree next id parent name)
include rehung

theorem other_backward (different : other ≠ id)
    (found : next.dirs.get? other = some dir) :
    ∃ before, tree.dirs.get? other = some before ∧
      dir =
        { before with
          children := before.children.erase id ++
            if other = parent then [id] else [] } := by
  rw [rehung.others other different] at found
  obtain ⟨before, foundBefore, same⟩ := Option.map_eq_some_iff.mp found
  exact ⟨before, foundBefore, same.symm⟩

theorem other_forward (different : other ≠ id)
    (found : tree.dirs.get? other = some dir) :
    next.dirs.get? other = some
      { dir with
        children := dir.children.erase id ++
          if other = parent then [id] else [] } := by
  rw [rehung.others other different, found, Option.map_some]

theorem up_other (different : other ≠ id) : next.up other = tree.up other := by
  rw [up, up, rehung.others other different]
  cases tree.dirs.get? other <;> rfl

theorem up_moved : next.up id = some (parent, name) := by
  obtain ⟨dir, found, named, isParent⟩ := rehung.moved
  rw [up_of_get found isParent, named]

theorem trail_parent : ∃ steps, Trail next.up 0 steps parent := by
  obtain ⟨steps, trail, outside⟩ := rehung.apart
  refine ⟨steps, trail.congr fun item member => rehung.up_other ?_⟩
  rintro rfl
  exact outside (List.mem_cons_of_mem _
    (List.mem_map.mpr ⟨item, member, rfl⟩))

theorem hangs (wellFormed : tree.WellFormed)
    (found : next.dirs.get? other = some dir) :
    ∃ steps, Trail next.up 0 steps other := by
  obtain ⟨above, start⟩ := rehung.trail_parent
  by_cases here : other = id
  · rw [here]
    exact ⟨_, .step start rehung.up_moved⟩
  · obtain ⟨before, foundBefore, _⟩ := rehung.other_backward here found
    obtain ⟨steps, trail⟩ := wellFormed.hangs other before foundBefore
    exact Trail.relink (fun item different => rehung.up_other different)
      rehung.up_moved start trail

omit rehung

variable {place : Nat}

variable (rehung : Rehung tree next id parent name)
include rehung

theorem listed (wellFormed : tree.WellFormed)
    (found : next.dirs.get? other = some dir)
    (isParent : dir.parent = some place) :
    ∃ above, next.dirs.get? place = some above ∧
      other ∈ above.children := by
  by_cases here : other = id
  · subst here
    obtain ⟨moved, foundMoved, _, movedParent⟩ := rehung.moved
    rw [foundMoved] at found
    cases found
    rw [movedParent] at isParent
    cases isParent
    obtain ⟨above, foundAbove⟩ := rehung.above
    refine ⟨_, rehung.other_forward rehung.ne_parent foundAbove, ?_⟩
    rw [if_pos rfl]
    exact List.mem_append_right _ List.mem_cons_self
  · obtain ⟨before, foundBefore, rfl⟩ := rehung.other_backward here found
    obtain ⟨above, foundAbove, inside⟩ :=
      wellFormed.listed other before place foundBefore isParent
    by_cases below : place = id
    · subst below
      obtain ⟨moved, foundMoved, _, _⟩ := rehung.moved
      refine ⟨moved, foundMoved, ?_⟩
      rw [(rehung.kept above moved foundAbove foundMoved).1]
      exact inside
    · refine ⟨_, rehung.other_forward below foundAbove, ?_⟩
      exact List.mem_append_left _ ((List.mem_erase_of_ne here).mpr inside)

theorem children (wellFormed : tree.WellFormed) {child : Nat}
    (found : next.dirs.get? place = some dir) (inside : child ∈ dir.children) :
    ∃ below, next.dirs.get? child = some below ∧
      below.parent = some place := by
  have carried : ∀ before, tree.dirs.get? place = some before →
      child ∈ before.children → child ≠ id →
        ∃ below, next.dirs.get? child = some below ∧
          below.parent = some place := by
    intro before foundBefore member different
    obtain ⟨below, foundBelow, isParent⟩ :=
      wellFormed.children place before child foundBefore member
    exact ⟨_, rehung.other_forward different foundBelow, isParent⟩
  by_cases here : place = id
  · subst here
    cases foundBefore : tree.dirs.get? place with
    | none =>
        rw [(rehung.fresh dir foundBefore found).1] at inside
        cases inside
    | some before =>
        rw [(rehung.kept before dir foundBefore found).1] at inside
        apply carried before foundBefore inside
        rintro rfl
        obtain ⟨below, foundBelow, isParent⟩ :=
          wellFormed.children child before child foundBefore inside
        exact wellFormed.parent_ne foundBelow isParent
  · obtain ⟨before, foundBefore, rfl⟩ := rehung.other_backward here found
    rcases List.mem_append.mp inside with earlier | last
    · apply carried before foundBefore (List.mem_of_mem_erase earlier)
      rintro rfl
      exact (wellFormed.childrenNodup place before
        foundBefore).not_mem_erase earlier
    · split at last
      · rename_i isParent
        rw [List.mem_singleton.mp last, isParent]
        obtain ⟨moved, foundMoved, _, movedParent⟩ := rehung.moved
        exact ⟨moved, foundMoved, movedParent⟩
      · cases last

theorem childrenNodup (wellFormed : tree.WellFormed)
    (found : next.dirs.get? place = some dir) : dir.children.Nodup := by
  by_cases here : place = id
  · subst here
    cases foundBefore : tree.dirs.get? place with
    | none =>
        rw [(rehung.fresh dir foundBefore found).1]
        exact List.nodup_nil
    | some before =>
        rw [(rehung.kept before dir foundBefore found).1]
        exact wellFormed.childrenNodup place before foundBefore
  · obtain ⟨before, foundBefore, rfl⟩ := rehung.other_backward here found
    have nodup := wellFormed.childrenNodup place before foundBefore
    dsimp only
    split
    · rw [List.nodup_append]
      refine ⟨nodup.erase id, by simp, ?_⟩
      intro first inside second last equal
      rw [equal, List.mem_singleton.mp last] at inside
      exact nodup.not_mem_erase inside
    · rw [List.append_nil]
      exact nodup.erase id

theorem siblings (wellFormed : tree.WellFormed) {first second : Nat}
    {firstDir secondDir : Directory}
    (foundFirst : next.dirs.get? first = some firstDir)
    (foundSecond : next.dirs.get? second = some secondDir)
    (firstParent : firstDir.parent = some place)
    (secondParent : secondDir.parent = some place)
    (sameName : firstDir.name = secondDir.name) : first = second := by
  have alone : ∀ other dir, other ≠ id → next.dirs.get? other = some dir →
      dir.parent = some parent → dir.name ≠ name := by
    intro other dir different found isParent
    obtain ⟨before, foundBefore, rfl⟩ :=
      rehung.other_backward different found
    exact rehung.free other before different foundBefore isParent
  obtain ⟨moved, foundMoved, named, movedParent⟩ := rehung.moved
  by_cases firstHere : first = id
  · subst firstHere
    by_contra different
    rw [foundMoved] at foundFirst
    cases foundFirst
    rw [movedParent] at firstParent
    cases firstParent
    exact alone second secondDir (Ne.symm different) foundSecond secondParent
      (sameName.symm.trans named)
  · by_cases secondHere : second = id
    · subst secondHere
      rw [foundMoved] at foundSecond
      cases foundSecond
      rw [movedParent] at secondParent
      cases secondParent
      exact (alone first firstDir firstHere foundFirst firstParent
        (sameName.trans named)).elim
    · obtain ⟨firstBefore, foundFirstBefore, rfl⟩ :=
        rehung.other_backward firstHere foundFirst
      obtain ⟨secondBefore, foundSecondBefore, rfl⟩ :=
        rehung.other_backward secondHere foundSecond
      exact wellFormed.siblings place first second firstBefore secondBefore
        foundFirstBefore foundSecondBefore firstParent secondParent sameName

theorem wellFormed (wellFormed : tree.WellFormed) : next.WellFormed := by
  refine ⟨?_, ?_, ?_, ?_, ?_, ?_, ?_, ?_⟩
  · obtain ⟨dir, found, isRoot⟩ := wellFormed.root
    exact ⟨_, rehung.other_forward rehung.ne_root.symm found, isRoot⟩
  · intro other dir found
    exact rehung.hangs wellFormed found
  · intro other dir place found isParent
    exact rehung.listed wellFormed found isParent
  · intro place dir child found inside
    exact rehung.children wellFormed found inside
  · intro place dir found
    exact rehung.childrenNodup wellFormed found
  · intro other dir place found isParent
    by_cases here : other = id
    · subst here
      obtain ⟨moved, foundMoved, named, _⟩ := rehung.moved
      rw [foundMoved] at found
      cases found
      rw [named]
      exact rehung.valid
    · obtain ⟨before, foundBefore, rfl⟩ := rehung.other_backward here found
      exact wellFormed.named other before place foundBefore isParent
  · intro place first second firstDir secondDir foundFirst foundSecond
      firstParent secondParent sameName
    exact rehung.siblings wellFormed foundFirst foundSecond firstParent
      secondParent sameName
  · intro other dir found
    by_cases here : other = id
    · subst here
      cases foundBefore : tree.dirs.get? other with
      | none =>
          rw [(rehung.fresh dir foundBefore found).2]
          exact List.nodup_nil
      | some before =>
          rw [(rehung.kept before dir foundBefore found).2]
          exact wellFormed.files other before foundBefore
    · obtain ⟨before, foundBefore, rfl⟩ := rehung.other_backward here found
      exact wellFormed.files other before foundBefore

theorem lists_iff {file : FileRef} :
    next.Lists other file ↔ tree.Lists other file := by
  constructor
  · rintro ⟨dir, found, member⟩
    by_cases here : other = id
    · subst here
      cases foundBefore : tree.dirs.get? other with
      | none =>
          rw [(rehung.fresh dir foundBefore found).2] at member
          cases member
      | some before =>
          rw [(rehung.kept before dir foundBefore found).2] at member
          exact ⟨before, foundBefore, member⟩
    · obtain ⟨before, foundBefore, rfl⟩ := rehung.other_backward here found
      exact ⟨before, foundBefore, member⟩
  · rintro ⟨dir, found, member⟩
    by_cases here : other = id
    · subst here
      obtain ⟨moved, foundMoved, _, _⟩ := rehung.moved
      refine ⟨moved, foundMoved, ?_⟩
      rw [(rehung.kept dir moved found foundMoved).2]
      exact member
    · exact ⟨_, rehung.other_forward here found, member⟩

/-- A directory that does not lie below the moved one keeps its path. -/
theorem filePath_eq (wellFormed : tree.WellFormed)
    (found : tree.dirs.get? other = some dir)
    (outside : tree.isAncestorOf id other = false) (file : FileRef) :
    next.filePath other file = tree.filePath other file := by
  obtain ⟨steps, trail⟩ := wellFormed.hangs other dir found
  refine filePath_congr wellFormed (rehung.wellFormed wellFormed) trail ?_
    file
  refine trail.congr fun item member => rehung.up_other ?_
  rintro rfl
  have ancestor : tree.isAncestorOf item.1 other :=
    (wellFormed.isAncestorOf_iff trail).mpr (List.mem_cons_of_mem _
      (List.mem_map.mpr ⟨item, member, rfl⟩))
  rw [outside] at ancestor
  cases ancestor

end Rehung

/-- A directory that is listed nowhere is not erased from any listing. -/
theorem WellFormed.erase_child (wellFormed : tree.WellFormed) {place : Nat}
    (found : tree.dirs.get? place = some dir)
    (elsewhere : ∀ below, tree.dirs.get? id = some below →
      below.parent ≠ some place) : dir.children.erase id = dir.children := by
  apply List.erase_of_not_mem
  intro inside
  obtain ⟨below, foundBelow, isParent⟩ :=
    wellFormed.children place dir id found inside
  exact elsewhere below foundBelow isParent

/-- No directory of that name is listed, so none hangs there. -/
theorem WellFormed.free_name (wellFormed : tree.WellFormed) {parent : Nat}
    {above : Directory} {name : Name}
    (foundAbove : tree.dirs.get? parent = some above)
    (unused : tree.findDirs above name = []) {other : Nat}
    (found : tree.dirs.get? other = some dir)
    (isParent : dir.parent = some parent) : dir.name ≠ name := by
  rintro rfl
  obtain ⟨rest, heads⟩ :=
    wellFormed.findDirs_head found isParent foundAbove
  rw [unused] at heads
  cases heads

theorem createDir_rehung (wellFormed : tree.WellFormed) {under : Nat}
    {name : Name} (new : tree.dirs.get? id = none)
    (created : tree.createDir under id name = .ok next) :
    Rehung tree next id under name := by
  unfold createDir at created
  cases found : tree.dirs.get? under with
  | none =>
      rw [found] at created
      cases created
  | some dir =>
      rw [found] at created
      dsimp only at created
      split at created
      · cases created
      · rename_i unused
        split at created
        · cases created
        · rename_i valid
          cases created
          have different : id ≠ under := by
            rintro rfl
            rw [new] at found
            cases found
          have made : (((tree.dirs.set id
              { name := name
                parent := some under
                children := []
                files := [] }).modify under (Directory.adopt · id)).get?
                  id) = some ⟨name, some under, [], []⟩ := by
            rw [Dict.get?_modify, if_neg different, Dict.get?_set,
              if_pos rfl]
          obtain ⟨steps, trail⟩ := wellFormed.hangs under dir found
          refine ⟨⟨_, made, rfl, rfl⟩, ?_, ?_, ?_, ?_, ?_, ?_,
            ⟨dir, found⟩⟩
          · intro before changed foundBefore
            rw [new] at foundBefore
            cases foundBefore
          · intro changed _ foundNext
            rw [made] at foundNext
            cases foundNext
            exact ⟨rfl, rfl⟩
          · intro other notNew
            have kept : ∀ before, tree.dirs.get? other = some before →
                before.children.erase id = before.children := by
              intro before foundBefore
              apply wellFormed.erase_child foundBefore
              intro below foundBelow
              rw [new] at foundBelow
              cases foundBelow
            rw [Dict.get?_modify, Dict.get?_set, if_neg notNew]
            cases foundBefore : tree.dirs.get? other with
            | none => split <;> rfl
            | some before =>
                rw [Option.map_some, Option.map_some,
                  kept before foundBefore]
                split
                · rfl
                · rw [List.append_nil]
          · simpa using valid
          · intro other before _ foundBefore isParent
            exact wellFormed.free_name found (by simpa using unused)
              foundBefore isParent
          · refine ⟨steps, trail, ?_⟩
            intro inside
            have known := wellFormed.mem_keys trail id inside
            exact (Dict.get?_eq_none_iff tree.dirs id).mp new known

/-- The tree after hanging `id` below `target`. -/
def rehang (tree : DirectoryTree) (id oldParent target : Nat)
    (name : Name) : DirectoryTree :=
  let dropped := tree.dirs.modify oldParent (Directory.disown · id)
  let renamed := dropped.modify id fun dir =>
    { dir with name := name, parent := some target }
  { dirs := renamed.modify target (Directory.adopt · id) }

theorem moveTo_ok {target : Nat} {newName : Name}
    (done : tree.moveTo id target newName = .ok next) :
    ∃ dir above oldParent, tree.dirs.get? id = some dir ∧
      tree.dirs.get? target = some above ∧ dir.parent = some oldParent ∧
      ((target = oldParent ∧ newNameOr newName dir.name = dir.name ∧
          next = tree) ∨
        (validName (newNameOr newName dir.name) ∧
          ¬(target = oldParent ∧ newNameOr newName dir.name = dir.name) ∧
          tree.isAncestorOf id target = false ∧
          tree.findDirs above (newNameOr newName dir.name) = [] ∧
          next = tree.rehang id oldParent target
            (newNameOr newName dir.name))) := by
  unfold moveTo at done
  split at done
  · rename_i dir above found foundTarget
    split at done
    · cases done
    · rename_i oldParent hadParent
      refine ⟨dir, above, oldParent, found, foundTarget, hadParent, ?_⟩
      dsimp only at done
      split at done
      · cases done
      · rename_i valid
        split at done
        · rename_i stays
          cases done
          exact .inl ⟨stays.1, stays.2, rfl⟩
        · rename_i moves
          split at done
          · cases done
          · rename_i notBelow
            split at done
            · cases done
            · rename_i unused
              cases done
              exact .inr ⟨by simpa using valid, moves,
                by simpa using notBelow, by simpa using unused, rfl⟩
  · cases done

theorem rehang_rehung (wellFormed : tree.WellFormed) {target oldParent : Nat}
    {name : Name} {above : Directory} (found : tree.dirs.get? id = some dir)
    (foundTarget : tree.dirs.get? target = some above)
    (hadParent : dir.parent = some oldParent) (valid : validName name)
    (notBelow : tree.isAncestorOf id target = false)
    (unused : tree.findDirs above name = []) :
    Rehung tree (tree.rehang id oldParent target name) id target name := by
  obtain ⟨steps, trail⟩ := wellFormed.hangs target above foundTarget
  have outside : id ∉ 0 :: steps.map Prod.fst := by
    intro inside
    have below := (wellFormed.isAncestorOf_iff trail).mpr inside
    rw [notBelow] at below
    cases below
  have notTarget : id ≠ target := by
    rintro rfl
    apply outside
    by_cases isRoot : id = 0
    · rw [isRoot]
      exact List.mem_cons_self
    · exact List.mem_cons_of_mem _ (trail.last_mem isRoot)
  have notOld : id ≠ oldParent := by
    rintro rfl
    exact wellFormed.parent_ne found hadParent
  have made : (tree.rehang id oldParent target name).dirs.get? id =
      some { dir with name := name, parent := some target } := by
    rw [rehang, Dict.get?_modify, if_neg notTarget, Dict.get?_modify,
      if_pos rfl, Dict.get?_modify, if_neg notOld, found, Option.map_some]
  refine ⟨⟨_, made, rfl, rfl⟩, ?_, ?_, ?_, valid, ?_,
    ⟨steps, trail, outside⟩, ⟨above, foundTarget⟩⟩
  · intro before changed foundBefore foundNext
    rw [found] at foundBefore
    cases foundBefore
    rw [made] at foundNext
    cases foundNext
    exact ⟨rfl, rfl⟩
  · intro changed missing
    rw [found] at missing
    cases missing
  · intro other different
    rw [rehang, Dict.get?_modify, Dict.get?_modify, if_neg different,
      Dict.get?_modify]
    cases foundBefore : tree.dirs.get? other with
    | none => split <;> split <;> rfl
    | some before =>
        have dropped : (if other = oldParent
            then (some before).map (Directory.disown · id)
            else some before) =
            some { before with children := before.children.erase id } := by
          split
          · rfl
          · rename_i elsewhere
            rw [wellFormed.erase_child foundBefore]
            intro below foundBelow isParent
            rw [found] at foundBelow
            cases foundBelow
            rw [hadParent] at isParent
            exact elsewhere (Option.some.inj isParent).symm
        rw [dropped, Option.map_some, Option.map_some]
        split
        · rfl
        · rw [List.append_nil]
  · intro other before _ foundBefore isParent
    exact wellFormed.free_name foundTarget unused foundBefore isParent

end DirectoryTree

end Tgdcfs
