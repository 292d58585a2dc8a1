import Tgdcfs.Core.Directory

/-!
# Paths of files

In a well-formed tree the path of a file leads back to the file.
-/

namespace Tgdcfs

open Lib

/-- The names between the slashes of a path. -/
def pathParts (path : List Char) : List Name :=
  (path.splitOn '/').filter (· ≠ [])

theorem pathParts_append {path : List Char} {name : Name}
    (valid : validName name) :
    pathParts (path ++ '/' :: name) = pathParts path ++ [name] := by
  have clean : '/' ∉ name := by
    cases name with
    | nil => simp
    | cons first rest =>
        simp only [validName, Bool.and_eq_true, decide_eq_true_eq] at valid
        exact valid.2
  have nonempty : name ≠ [] := by
    rintro rfl
    cases valid
  rw [pathParts, List.splitOn_append_cons_self, List.filter_append,
    List.splitOn_eq_singleton clean, List.filter_cons_of_pos (by simpa),
    List.filter_nil]
  rfl

namespace DirectoryTree

variable {tree : DirectoryTree}

variable {id : Nat}

theorem up_eq_some {parent : Nat} {name : Name}
    (above : tree.up id = some (parent, name)) :
    ∃ dir, tree.dirs.get? id = some dir ∧ dir.parent = some parent ∧
      dir.name = name := by
  obtain ⟨dir, found, mapped⟩ := Option.bind_eq_some_iff.mp above
  obtain ⟨parent, isParent, same⟩ := Option.map_eq_some_iff.mp mapped
  cases same
  exact ⟨dir, found, isParent, rfl⟩

variable {dir : Directory}

theorem up_of_get {parent : Nat} (found : tree.dirs.get? id = some dir)
    (isParent : dir.parent = some parent) :
    tree.up id = some (parent, dir.name) := by
  rw [up, found, Option.bind_some, isParent, Option.map_some]

theorem WellFormed.up_root (wellFormed : tree.WellFormed) :
    tree.up 0 = none := by
  obtain ⟨dir, found, isRoot⟩ := wellFormed.root
  rw [up, found, Option.bind_some, isRoot, Option.map_none]

variable {steps : List (Nat × Name)}

theorem WellFormed.mem_keys (wellFormed : tree.WellFormed)
    (trail : Trail tree.up 0 steps id) :
    ∀ item ∈ 0 :: steps.map Prod.fst, item ∈ tree.dirs.keys := by
  have known : ∀ {id dir}, tree.dirs.get? id = some dir →
      id ∈ tree.dirs.keys := by
    intro id dir found
    by_contra missing
    rw [(Dict.get?_eq_none_iff tree.dirs id).mpr missing] at found
    cases found
  intro item member
  rcases List.mem_cons.mp member with isRoot | below
  · obtain ⟨dir, found, _⟩ := wellFormed.root
    rw [isRoot]
    exact known found
  · induction trail with
    | here => cases below
    | step earlier above induction =>
        rw [List.map_append, List.mem_append] at below
        rcases below with inside | last
        · exact induction (List.mem_cons_of_mem _ inside) inside
        · rw [List.mem_singleton.mp last]
          obtain ⟨dir, found, _⟩ := up_eq_some above
          exact known found

theorem WellFormed.trail_length (wellFormed : tree.WellFormed)
    (trail : Trail tree.up 0 steps id) : steps.length < tree.dirs.size := by
  have bound := trail.length_lt wellFormed.up_root
    (wellFormed.mem_keys trail)
  rwa [Dict.keys, List.length_map] at bound

/-- The names of a trail, each after a slash. -/
def trailPath (steps : List (Nat × Name)) : List Char :=
  steps.flatMap fun step => '/' :: step.2

theorem WellFormed.valid_names (wellFormed : tree.WellFormed)
    (trail : Trail tree.up 0 steps id) : ∀ step ∈ steps, validName step.2 := by
  induction trail with
  | here => simp
  | step earlier above induction =>
      intro step member
      rcases List.mem_append.mp member with inside | last
      · exact induction step inside
      · obtain ⟨dir, found, isParent, named⟩ := up_eq_some above
        rw [List.mem_singleton.mp last, ← named]
        exact wellFormed.named _ dir _ found isParent

theorem WellFormed.absolutePathWithin_eq (wellFormed : tree.WellFormed)
    {fuel : Nat} (trail : Trail tree.up 0 steps id)
    (enough : steps.length < fuel) :
    tree.absolutePathWithin fuel id = trailPath steps := by
  induction trail generalizing fuel with
  | here =>
      obtain ⟨dir, found, isRoot⟩ := wellFormed.root
      cases fuel with
      | zero => rfl
      | succ fuel =>
          rw [absolutePathWithin, found]
          dsimp only
          rw [isRoot]
          rfl
  | @step steps parent child label earlier above induction =>
      rw [List.length_append, List.length_singleton] at enough
      obtain ⟨rest, rfl⟩ : ∃ rest, fuel = rest + 1 := ⟨fuel - 1, by omega⟩
      obtain ⟨dir, found, isParent, named⟩ := up_eq_some above
      have valid := wellFormed.named child dir parent found isParent
      have nonempty : dir.name ≠ [] := by
        intro empty
        rw [empty] at valid
        cases valid
      rw [absolutePathWithin, found]
      dsimp only
      rw [isParent]
      dsimp only
      rw [if_neg nonempty, induction (by omega), trailPath, trailPath,
        List.flatMap_append, named]
      simp

theorem WellFormed.absolutePath_eq (wellFormed : tree.WellFormed)
    (trail : Trail tree.up 0 steps id) :
    tree.absolutePath id = trailPath steps :=
  wellFormed.absolutePathWithin_eq trail (wellFormed.trail_length trail)

theorem WellFormed.pathParts_trailPath (wellFormed : tree.WellFormed)
    (trail : Trail tree.up 0 steps id) :
    pathParts (trailPath steps) = steps.map Prod.snd := by
  have names := wellFormed.valid_names trail
  clear trail
  induction steps using List.reverseRecOn with
  | nil => simp [trailPath, pathParts]
  | append_singleton steps step induction =>
      have valid := names step (by simp)
      have earlier := induction fun other member =>
        names other (List.mem_append_left _ member)
      have split : trailPath (steps ++ [step]) =
          trailPath steps ++ '/' :: step.2 := by
        simp [trailPath]
      rw [split, pathParts_append valid, earlier, List.map_append,
        List.map_singleton]

theorem walk_append {tree : DirectoryTree} {names more : List Name} :
    tree.walk id (names ++ more) =
      (tree.walk id names).bind fun found => tree.walk found more := by
  induction names generalizing id with
  | nil => rfl
  | cons name names induction =>
      rw [List.cons_append, walk, walk]
      cases tree.dirs.get? id with
      | none => rfl
      | some dir =>
          dsimp only
          cases tree.findDirs dir name with
          | nil => rfl
          | cons child rest => exact induction

theorem WellFormed.findDirs_head (wellFormed : tree.WellFormed) {parent : Nat}
    {above : Directory} (found : tree.dirs.get? id = some dir)
    (isParent : dir.parent = some parent)
    (foundAbove : tree.dirs.get? parent = some above) :
    ∃ rest, tree.findDirs above dir.name = id :: rest := by
  obtain ⟨listing, sameAbove, listed⟩ :=
    wellFormed.listed id dir parent found isParent
  rw [foundAbove] at sameAbove
  cases sameAbove
  have member : id ∈ tree.findDirs above dir.name := by
    refine List.mem_filter.mpr ⟨listed, ?_⟩
    rw [found]
    simp
  cases heads : tree.findDirs above dir.name with
  | nil =>
      rw [heads] at member
      cases member
  | cons first rest =>
      have firstMember : first ∈ tree.findDirs above dir.name := by
        rw [heads]
        exact List.mem_cons_self
      obtain ⟨inside, named⟩ := List.mem_filter.mp firstMember
      obtain ⟨below, foundBelow, sameParent⟩ :=
        wellFormed.children parent above first foundAbove inside
      rw [foundBelow] at named
      have sameName : below.name = dir.name := by simpa using named
      have same := wellFormed.siblings parent first id below dir foundBelow
        found sameParent isParent sameName
      exact ⟨rest, by rw [same]⟩

theorem WellFormed.walk_trail (wellFormed : tree.WellFormed)
    (trail : Trail tree.up 0 steps id) :
    tree.walk 0 (steps.map Prod.snd) = some id := by
  induction trail with
  | here => rfl
  | @step steps parent child label earlier above induction =>
      obtain ⟨dir, found, isParent, named⟩ := up_eq_some above
      obtain ⟨listing, foundAbove, _⟩ :=
        wellFormed.listed child dir parent found isParent
      obtain ⟨rest, heads⟩ :=
        wellFormed.findDirs_head found isParent foundAbove
      rw [named] at heads
      rw [List.map_append, walk_append, induction, Option.bind_some,
        List.map_singleton, walk, foundAbove]
      dsimp only
      rw [heads]
      rfl

theorem findFiles_head (nodup : (dir.files.map FileRef.name).Nodup)
    {file : FileRef} (member : file ∈ dir.files) :
    (findFiles dir file.name).head? = some file := by
  have inside : file ∈ findFiles dir file.name :=
    List.mem_filter.mpr ⟨member, by simp⟩
  cases heads : findFiles dir file.name with
  | nil =>
      rw [heads] at inside
      cases inside
  | cons first rest =>
      have firstMember : first ∈ findFiles dir file.name := by
        rw [heads]
        exact List.mem_cons_self
      obtain ⟨listed, named⟩ := List.mem_filter.mp firstMember
      have same : first = file := List.inj_on_of_nodup_map nodup listed member
        (by simpa using named)
      rw [List.head?_cons, same]

theorem WellFormed.findFile_filePath (wellFormed : tree.WellFormed)
    (found : tree.dirs.get? id = some dir) {file : FileRef}
    (member : file ∈ dir.files) (valid : validName file.name) :
    tree.findFile (tree.filePath id file) = some file := by
  obtain ⟨steps, trail⟩ := wellFormed.hangs id dir found
  have parts : ((tree.filePath id file).splitOn '/').filter (· ≠ []) =
      steps.map Prod.snd ++ [file.name] := by
    change pathParts (tree.filePath id file) = _
    rw [filePath, wellFormed.absolutePath_eq trail, pathParts_append valid,
      wellFormed.pathParts_trailPath trail]
  unfold findFile
  dsimp only
  rw [parts, List.getLast?_concat]
  dsimp only
  rw [List.dropLast_concat, wellFormed.walk_trail trail, Option.bind_some,
    found]
  exact findFiles_head (wellFormed.files id dir found) member

theorem filePath_congr {other : DirectoryTree} (wellFormed : tree.WellFormed)
    (otherWellFormed : other.WellFormed) (trail : Trail tree.up 0 steps id)
    (otherTrail : Trail other.up 0 steps id) (file : FileRef) :
    other.filePath id file = tree.filePath id file := by
  rw [filePath, filePath, wellFormed.absolutePath_eq trail,
    otherWellFormed.absolutePath_eq otherTrail]

theorem isAncestorWithin_iff (rooted : tree.up 0 = none) {other fuel : Nat}
    (trail : Trail tree.up 0 steps other) (enough : steps.length < fuel) :
    tree.isAncestorWithin id fuel other ↔
      id ∈ 0 :: steps.map Prod.fst := by
  induction trail generalizing fuel with
  | here =>
      obtain ⟨rest, rfl⟩ : ∃ rest, fuel = rest + 1 := ⟨fuel - 1, by omega⟩
      have noParent : (tree.dirs.get? 0).bind Directory.parent = none := by
        cases found : tree.dirs.get? 0 with
        | none => rfl
        | some dir =>
            rw [up, found, Option.bind_some] at rooted
            exact Option.map_eq_none_iff.mp rooted
      rw [isAncestorWithin, noParent]
      simp [eq_comm]
  | @step steps parent child label earlier above induction =>
      rw [List.length_append, List.length_singleton] at enough
      obtain ⟨rest, rfl⟩ : ∃ rest, fuel = rest + 1 := ⟨fuel - 1, by omega⟩
      obtain ⟨dir, found, isParent, _⟩ := up_eq_some above
      have isAbove : (tree.dirs.get? child).bind Directory.parent =
          some parent := by
        rw [found, Option.bind_some, isParent]
      have smaller : steps.length < rest := by omega
      rw [isAncestorWithin, isAbove]
      dsimp only
      rw [Bool.or_eq_true, induction smaller, decide_eq_true_eq,
        List.map_append, ← List.cons_append, List.mem_append,
        List.map_singleton, List.mem_singleton]
      constructor
      · rintro (same | inside)
        · exact .inr same.symm
        · exact .inl inside
      · rintro (inside | same)
        · exact .inr inside
        · exact .inl same.symm

theorem WellFormed.isAncestorOf_iff (wellFormed : tree.WellFormed)
    {other : Nat} (trail : Trail tree.up 0 steps other) :
    tree.isAncestorOf id other ↔ id ∈ 0 :: steps.map Prod.fst :=
  isAncestorWithin_iff wellFormed.up_root trail
    (Nat.lt_succ_of_lt (wellFormed.trail_length trail))

end DirectoryTree

end Tgdcfs
