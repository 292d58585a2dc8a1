import Tgdcfs.Core.DirectoryPaths
import Tgdcfs.Core.OpsRuns

/-!
# Directories created with their parents

`mkdir` resolves the directory part of its path before it looks for missing
parents, and then follows the components of that part once more, starting
from the directory it has resolved.  The first step refuses every missing
parent, the second builds a copy of the existing ones below themselves.  So a
path is created as it should be only directly below the root.
-/

namespace Tgdcfs

open Lib

theorem pathParts_append_slashes {slashes : List Char}
    (all : ∀ character ∈ slashes, character = '/') (text : List Char) :
    pathParts (text ++ slashes) = pathParts text := by
  induction slashes generalizing text with
  | nil => simp
  | cons first rest induction =>
      obtain rfl : first = '/' := all first List.mem_cons_self
      have later := induction
        (fun character member => all character
          (List.mem_cons_of_mem _ member)) (text ++ ['/'])
      have one : pathParts (text ++ ['/']) = pathParts text := by
        rw [pathParts, List.splitOn_append_cons_self, List.filter_append]
        simp [pathParts]
      rw [List.append_assoc, List.singleton_append, one] at later
      exact later

theorem pathParts_dirname {path before behind : List Char}
    (splits : splitLast '/' path = some (before, behind)) :
    pathParts (dirname path) = pathParts before := by
  unfold dirname
  rw [splits]
  dsimp only
  split
  · exact pathParts_append_slashes (by simp) before
  · have whole := List.takeWhile_append_dropWhile
      (p := (· = '/')) (l := before.reverse)
    have parts : (before.reverse.dropWhile (· = '/')).reverse ++
        (before.reverse.takeWhile (· = '/')).reverse = before := by
      rw [← List.reverse_append, whole, List.reverse_reverse]
    have slashes : ∀ character ∈
        (before.reverse.takeWhile (· = '/')).reverse,
          character = '/' := by
      intro character member
      have held := List.mem_takeWhile_imp (List.mem_reverse.mp member)
      simpa using held
    have same := pathParts_append_slashes slashes
      (before.reverse.dropWhile (· = '/')).reverse
    rw [parts] at same
    exact same.symm

/-- The components of a path are those of its directory and its last one. -/
theorem pathParts_of_validPath {path : List Char}
    (valid : validPath path = true) :
    pathParts path = pathParts (dirname path) ++ [basename path] ∧
      basename path ≠ [] := by
  simp only [validPath, Bool.and_eq_true, decide_eq_true_eq] at valid
  obtain ⟨absolute, named⟩ := valid
  cases splits : splitLast '/' path with
  | none =>
      have absent := absent_of_splitLast splits
      exact absurd (List.mem_of_mem_head? absolute) absent
  | some pair =>
      obtain ⟨before, behind⟩ := pair
      obtain ⟨rfl, clean⟩ := splitLast_spec splits
      have last : basename (before ++ '/' :: behind) = behind := by
        simp [basename, splits]
      have nonempty : behind ≠ [] := by
        rintro rfl
        simp at named
      rw [pathParts_dirname splits, last]
      refine ⟨?_, nonempty⟩
      rw [pathParts, List.splitOn_append_cons_self, List.filter_append,
        List.splitOn_eq_singleton clean]
      simp [pathParts, nonempty]

namespace DirectoryTree

variable {tree next : DirectoryTree}

theorem cdFrom_cons (tree : DirectoryTree) (id : Nat) (part : List Char)
    (parts : List (List Char)) :
    tree.cdFrom id (part :: parts) =
      if part = ['.', '.'] then
        ((tree.dirs.get? id).bind Directory.parent).bind fun parent =>
          tree.cdFrom parent parts
      else if part = ['.'] ∨ part = [] then tree.cdFrom id parts
      else
        (tree.findDir id part).bind fun child => tree.cdFrom child parts :=
  rfl

theorem cdFrom_filter (tree : DirectoryTree) (id : Nat)
    (parts : List (List Char)) :
    tree.cdFrom id (parts.filter (· ≠ [])) = tree.cdFrom id parts := by
  induction parts generalizing id with
  | nil => rfl
  | cons part parts induction =>
      by_cases empty : part = []
      · subst empty
        rw [List.filter_cons_of_neg (by simp), induction]
        rfl
      · rw [List.filter_cons_of_pos (by simpa using empty)]
        simp only [cdFrom_cons, induction]

theorem cd_eq (tree : DirectoryTree) (path : List Char) :
    tree.cd path = tree.cdFrom 0 (pathParts path) :=
  (tree.cdFrom_filter 0 _).symm

theorem cdFrom_append (tree : DirectoryTree) (id : Nat)
    (parts more : List (List Char)) :
    tree.cdFrom id (parts ++ more) =
      (tree.cdFrom id parts).bind fun found => tree.cdFrom found more := by
  induction parts generalizing id with
  | nil => rfl
  | cons part parts induction =>
      rw [List.cons_append, cdFrom_cons, cdFrom_cons]
      split
      · simp only [induction, Option.bind_assoc]
      · split
        · exact induction id
        · simp only [induction, Option.bind_assoc]

variable {id : Nat}

theorem findDir_child (wellFormed : tree.WellFormed) {child : Nat}
    {part : Name} (found : tree.findDir id part = some child) :
    ∃ dir, tree.dirs.get? child = some dir ∧ dir.parent = some id ∧
      dir.name = part := by
  obtain ⟨above, foundAbove, heads⟩ := Option.bind_eq_some_iff.mp found
  obtain ⟨listed, named⟩ :=
    List.mem_filter.mp (List.mem_of_mem_head? heads)
  obtain ⟨dir, foundDir, isParent⟩ :=
    wellFormed.children id above child foundAbove listed
  rw [foundDir] at named
  exact ⟨dir, foundDir, isParent, by simpa using named⟩

variable {parts : List (List Char)}

theorem cdFrom_known (wellFormed : tree.WellFormed) {found : Nat}
    (start : ∃ dir, tree.dirs.get? id = some dir)
    (reached : tree.cdFrom id parts = some found) :
    ∃ dir, tree.dirs.get? found = some dir := by
  induction parts generalizing id with
  | nil =>
      cases reached
      exact start
  | cons part parts induction =>
      rw [cdFrom_cons] at reached
      split at reached
      · obtain ⟨parent, isParent, later⟩ :=
          Option.bind_eq_some_iff.mp reached
        obtain ⟨dir, foundDir, above⟩ :=
          Option.bind_eq_some_iff.mp isParent
        obtain ⟨parentDir, foundParent, _⟩ :=
          wellFormed.listed id dir parent foundDir above
        exact induction ⟨parentDir, foundParent⟩ later
      · split at reached
        · exact induction start reached
        · obtain ⟨child, found, later⟩ := Option.bind_eq_some_iff.mp reached
          obtain ⟨dir, foundDir, _⟩ := findDir_child wellFormed found
          exact induction ⟨dir, foundDir⟩ later

theorem cdFrom_name {name : Name} (nonempty : name ≠ []) (here : name ≠ ['.'])
    (up : name ≠ ['.', '.']) :
    tree.cdFrom id [name] = tree.findDir id name := by
  rw [cdFrom_cons, if_neg up, if_neg (by simp [here, nonempty])]
  cases tree.findDir id name <;> rfl

/-- Every directory is still there with its name, its parent, its files and
its children; new children come behind them. -/
def Grown (tree next : DirectoryTree) : Prop :=
  ∀ id dir, tree.dirs.get? id = some dir →
    ∃ now, next.dirs.get? id = some now ∧ now.name = dir.name ∧
      now.parent = dir.parent ∧ now.files = dir.files ∧
      dir.children <+: now.children

theorem Grown.refl (tree : DirectoryTree) : tree.Grown tree :=
  fun _ dir found => ⟨dir, found, rfl, rfl, rfl, List.prefix_rfl⟩

theorem Grown.trans {last : DirectoryTree} (first : tree.Grown next)
    (second : next.Grown last) : tree.Grown last := by
  intro id dir found
  obtain ⟨middle, foundMiddle, name, parent, files, children⟩ :=
    first id dir found
  obtain ⟨now, foundNow, sameName, sameParent, sameFiles, more⟩ :=
    second id middle foundMiddle
  exact ⟨now, foundNow, sameName.trans name, sameParent.trans parent,
    sameFiles.trans files, children.trans more⟩

theorem Rehung.grown {parent : Nat} {name : Name}
    (rehung : Rehung tree next id parent name) (wellFormed : tree.WellFormed)
    (new : tree.dirs.get? id = none) : tree.Grown next := by
  intro other dir found
  have different : other ≠ id := by
    rintro rfl
    rw [new] at found
    cases found
  have kept : dir.children.erase id = dir.children := by
    apply wellFormed.erase_child found
    intro below foundBelow
    rw [new] at foundBelow
    cases foundBelow
  refine ⟨_, rehung.other_forward different found, rfl, rfl, rfl, ?_⟩
  rw [kept]
  exact List.prefix_append _ _

theorem Rehung.findDir {parent : Nat} {name : Name}
    (rehung : Rehung tree next id parent name) (wellFormed : next.WellFormed) :
    next.findDir parent name = some id := by
  obtain ⟨dir, found, named, isParent⟩ := rehung.moved
  obtain ⟨above, foundAbove, _⟩ :=
    wellFormed.listed id dir parent found isParent
  obtain ⟨rest, heads⟩ :=
    wellFormed.findDirs_head found isParent foundAbove
  rw [DirectoryTree.findDir, foundAbove, Option.bind_some, ← named, heads]
  rfl

theorem Grown.findDir (grown : tree.Grown next) (wellFormed : tree.WellFormed)
    {child : Nat} {part : Name} (found : tree.findDir id part = some child) :
    next.findDir id part = some child := by
  obtain ⟨dir, foundDir, heads⟩ := Option.bind_eq_some_iff.mp found
  obtain ⟨now, foundNow, _, _, _, more⟩ := grown id dir foundDir
  have same : tree.findDirs dir part =
      dir.children.filter fun other =>
        (next.dirs.get? other).map Directory.name = some part := by
    apply List.filter_congr
    intro other listed
    obtain ⟨below, foundBelow, _⟩ :=
      wellFormed.children id dir other foundDir listed
    obtain ⟨later, foundLater, name, _⟩ := grown other below foundBelow
    rw [foundBelow, foundLater, Option.map_some, Option.map_some, name]
  have front : tree.findDirs dir part <+: next.findDirs now part := by
    rw [same]
    exact more.filter _
  obtain ⟨rest, joined⟩ := front
  rw [DirectoryTree.findDir, foundNow, Option.bind_some, ← joined,
    List.head?_append, heads]
  rfl

theorem Grown.cdFrom (grown : tree.Grown next) (wellFormed : tree.WellFormed)
    {found : Nat} (reached : tree.cdFrom id parts = some found) :
    next.cdFrom id parts = some found := by
  induction parts generalizing id with
  | nil => exact reached
  | cons part parts induction =>
      rw [cdFrom_cons] at reached ⊢
      split at reached
      · rename_i up
        obtain ⟨parent, isParent, later⟩ :=
          Option.bind_eq_some_iff.mp reached
        obtain ⟨dir, foundDir, above⟩ :=
          Option.bind_eq_some_iff.mp isParent
        obtain ⟨now, foundNow, _, sameParent, _⟩ := grown id dir foundDir
        rw [if_pos up, foundNow, Option.bind_some, sameParent, above,
          Option.bind_some]
        exact induction later
      · rename_i down
        rw [if_neg down]
        split at reached
        · rename_i here
          rw [if_pos here]
          exact induction reached
        · rename_i named
          rw [if_neg named]
          obtain ⟨child, foundChild, later⟩ :=
            Option.bind_eq_some_iff.mp reached
          rw [grown.findDir wellFormed foundChild, Option.bind_some]
          exact induction later

theorem Grown.trail (grown : tree.Grown next) {steps : List (Nat × Name)}
    (trail : Trail tree.up 0 steps id) : Trail next.up 0 steps id := by
  induction trail with
  | here => exact .here
  | step earlier above induction =>
      obtain ⟨dir, found, isParent, named⟩ := up_eq_some above
      obtain ⟨now, foundNow, sameName, sameParent, _⟩ := grown _ dir found
      have kept := up_of_get foundNow (sameParent.trans isParent)
      rw [sameName, named] at kept
      exact .step induction kept

/-- A new directory that a prefix of some parts leads to is what the last
part leads to, since the others lead to old ones. -/
theorem Grown.leads_last (grown : tree.Grown next)
    (wellFormed : tree.WellFormed) {steps : List (List Char)}
    {last : List Char} {start created : Nat}
    (new : tree.dirs.get? created = none)
    (starts : tree.cdFrom 0 parts = some start)
    (front : steps <+: parts ++ [last])
    (leads : next.cdFrom 0 steps = some created) :
    next.cdFrom start [last] = some created := by
  obtain ⟨root, foundRoot, _⟩ := wellFormed.root
  rw [List.prefix_concat_iff] at front
  cases front with
  | inl all =>
      have whole := grown.cdFrom wellFormed starts
      rw [all, cdFrom_append, whole, Option.bind_some] at leads
      exact leads
  | inr ancestor =>
      obtain ⟨rest, joined⟩ := ancestor
      rw [← joined, cdFrom_append] at starts
      obtain ⟨old, reachesOld, _⟩ := Option.bind_eq_some_iff.mp starts
      obtain ⟨dir, found⟩ :=
        cdFrom_known wellFormed ⟨root, foundRoot⟩ reachesOld
      rw [grown.cdFrom wellFormed reachesOld] at leads
      cases leads
      rw [new] at found
      cases found

theorem Grown.leads_name (grown : tree.Grown next)
    (wellFormed : tree.WellFormed) {last : List Char} {start created : Nat}
    (known : ∃ dir, tree.dirs.get? start = some dir)
    (new : tree.dirs.get? created = none)
    (leads : next.cdFrom start [last] = some created) :
    last ≠ ['.'] ∧ last ≠ ['.', '.'] := by
  obtain ⟨dir, found⟩ := known
  constructor
  · rintro rfl
    rw [cdFrom_cons, if_neg (by decide), if_pos (by simp)] at leads
    cases leads
    rw [new] at found
    cases found
  · rintro rfl
    rw [cdFrom_cons, if_pos rfl] at leads
    obtain ⟨parent, above, same⟩ := Option.bind_eq_some_iff.mp leads
    cases same
    obtain ⟨now, foundNow, isAbove⟩ := Option.bind_eq_some_iff.mp above
    obtain ⟨later, foundLater, _, sameParent, _⟩ := grown start dir found
    rw [foundNow] at foundLater
    cases foundLater
    obtain ⟨parentDir, foundParent, _⟩ :=
      wellFormed.listed start dir created found
        (sameParent.symm.trans isAbove)
    rw [new] at foundParent
    cases foundParent

end DirectoryTree

namespace LocatedTree

open DirectoryTree

variable {state next reached : LocatedTree}

theorem createDir_hangs (wellFormed : state.tree.WellFormed)
    {under created : Nat} {name : Name}
    (made : state.createDir under name = some (next, created)) :
    state.tree.dirs.get? created = none ∧
      next.locations = state.locations ∧
      Rehung state.tree next.tree created under name := by
  unfold LocatedTree.createDir at made
  split at made
  · cases made
  · rename_i tree hung
    cases made
    exact ⟨state.tree.nextId_fresh, rfl,
      DirectoryTree.createDir_rehung wellFormed state.tree.nextId_fresh
        hung⟩

theorem createDir_checked {under created : Nat} {name : Name}
    (made : state.createDir under name = some (next, created)) :
    validName name = true ∧ state.tree.findDir under name = none := by
  unfold LocatedTree.createDir DirectoryTree.createDir at made
  cases found : state.tree.dirs.get? under with
  | none =>
      rw [found] at made
      cases made
  | some dir =>
      rw [found] at made
      dsimp only at made
      split at made
      · cases made
      · rename_i tree hung
        split at hung
        · cases hung
        · rename_i unused
          split at hung
          · cases hung
          · rename_i named
            refine ⟨by simpa using named, ?_⟩
            rw [findDir, found, Option.bind_some, List.head?_eq_none_iff]
            simpa using unused

/-- The loop over the parents goes one directory down for every component it
is given. -/
theorem createParents_descends {parts : List Name} {id under : Nat}
    {steps : List (Nat × Name)} (wellFormed : state.tree.WellFormed)
    (trail : Trail state.tree.up 0 steps id)
    (created : state.createParents id parts = some (reached, under)) :
    reached.tree.WellFormed ∧ reached.locations = state.locations ∧
      state.tree.Grown reached.tree ∧
      ∃ more, more.length = parts.length ∧
        Trail reached.tree.up 0 (steps ++ more) under := by
  induction parts generalizing state id steps with
  | nil =>
      cases created
      exact ⟨wellFormed, rfl, .refl _, [], rfl, by simpa using trail⟩
  | cons part parts induction =>
      unfold createParents at created
      split at created
      · rename_i child known
        obtain ⟨dir, found, isParent, named⟩ :=
          findDir_child wellFormed known
        have above := up_of_get found isParent
        obtain ⟨later, locations, grown, more, count, down⟩ :=
          induction wellFormed (.step trail above) created
        refine ⟨later, locations, grown, (child, dir.name) :: more, ?_, ?_⟩
        · rw [List.length_cons, List.length_cons, count]
        · rw [List.append_assoc, List.singleton_append] at down
          exact down
      · obtain ⟨⟨first, child⟩, makes, rest⟩ :=
          Option.bind_eq_some_iff.mp created
        obtain ⟨new, sameLocations, rehung⟩ :=
          createDir_hangs wellFormed makes
        have grown := rehung.grown wellFormed new
        obtain ⟨later, locations, more, steps_, count, down⟩ :=
          induction (rehung.wellFormed wellFormed)
            (.step (grown.trail trail) rehung.up_moved) rest
        refine ⟨later, locations.trans sameLocations, grown.trans more,
          (child, part) :: steps_, ?_, ?_⟩
        · rw [List.length_cons, List.length_cons, count]
        · rw [List.append_assoc, List.singleton_append] at down
          exact down

/-- `path` and its ancestors are there, what was there is unchanged, and
nothing else was added.  A prefix of the components leads where `cd` goes. -/
structure MakesExactly (state next : LocatedTree) (path : List Char) :
    Prop where
  contains : ∀ parts, parts <+: pathParts path →
    ∃ id dir, next.tree.cdFrom 0 parts = some id ∧
      next.tree.dirs.get? id = some dir
  unchanged : state.tree.Grown next.tree
  located : next.locations = state.locations
  nothingElse : ∀ id dir, next.tree.dirs.get? id = some dir →
    state.tree.dirs.get? id = none →
      ∃ parts, parts <+: pathParts path ∧
        next.tree.cdFrom 0 parts = some id

/-- A path directly below the root whose name is free and can be resolved. -/
structure TopLevel (state : LocatedTree) (path : List Char) : Prop where
  alone : pathParts (dirname path) = []
  valid : validName (basename path) = true
  here : basename path ≠ ['.']
  up : basename path ≠ ['.', '.']
  free : state.tree.findDir 0 (basename path) = none

theorem mkdir_parents_eq {path : List Char} (valid : validPath path = true) :
    state.mkdir path true =
      (state.tree.cdFrom 0 (pathParts (dirname path))).bind fun start =>
        (state.createParents start (pathParts (dirname path))).bind
          fun (reached, under) =>
            (reached.createDir under (basename path)).map Prod.fst := by
  unfold mkdir
  rw [valid, cd_eq]
  rfl

theorem mkdir_topLevel (wellFormed : state.tree.WellFormed)
    {path : List Char} (valid : validPath path = true)
    (topLevel : state.TopLevel path) :
    ∃ next, state.mkdir path true = some next ∧
      MakesExactly state next path := by
  obtain ⟨alone, named, here, up, free⟩ := topLevel
  obtain ⟨components, nonempty⟩ := pathParts_of_validPath valid
  rw [alone, List.nil_append] at components
  obtain ⟨root, foundRoot, _⟩ := wellFormed.root
  have unused : state.tree.findDirs root (basename path) = [] := by
    rw [findDir, foundRoot, Option.bind_some,
      List.head?_eq_none_iff] at free
    exact free
  have made : ∃ next created, state.createDir 0 (basename path) =
      some (next, created) := by
    unfold LocatedTree.createDir DirectoryTree.createDir
    rw [foundRoot]
    dsimp only
    rw [unused, named]
    exact ⟨_, _, rfl⟩
  obtain ⟨next, created, made⟩ := made
  obtain ⟨new, locations, rehung⟩ := createDir_hangs wellFormed made
  have later := rehung.wellFormed wellFormed
  have reached : next.tree.cdFrom 0 [basename path] = some created := by
    rw [cdFrom_name nonempty here up]
    exact Rehung.findDir rehung later
  refine ⟨next, ?_, ⟨?_, rehung.grown wellFormed new, locations, ?_⟩⟩
  · rw [mkdir_parents_eq valid, alone]
    simp [cdFrom, createParents, made]
  · intro parts front
    rw [components, List.prefix_cons_iff] at front
    cases front with
    | inl root =>
        obtain ⟨dir, found, _⟩ := later.root
        exact ⟨0, dir, by rw [root]; rfl, found⟩
    | inr whole =>
        obtain ⟨rest, rfl, nothing⟩ := whole
        rw [List.prefix_nil.mp nothing]
        obtain ⟨dir, found, _⟩ := rehung.moved
        exact ⟨created, dir, reached, found⟩
  · intro id dir found absent
    have same : id = created := by
      by_contra different
      obtain ⟨before, foundBefore, _⟩ :=
        rehung.other_backward different found
      rw [foundBefore] at absent
      cases absent
    rw [same, components]
    exact ⟨_, List.prefix_rfl, reached⟩

/-- Where `mkdir` ends with the path alone, it was a path of one component. -/
theorem topLevel_of_makesExactly (wellFormed : state.tree.WellFormed)
    {path : List Char} (valid : validPath path = true)
    (done : state.mkdir path true = some next)
    (makes : MakesExactly state next path) : state.TopLevel path := by
  obtain ⟨components, nonempty⟩ := pathParts_of_validPath valid
  rw [mkdir_parents_eq valid] at done
  obtain ⟨start, starts, done⟩ := Option.bind_eq_some_iff.mp done
  obtain ⟨⟨reached, under⟩, walked, done⟩ :=
    Option.bind_eq_some_iff.mp done
  obtain ⟨⟨last, created⟩, made, same⟩ := Option.map_eq_some_iff.mp done
  obtain rfl : last = next := same
  obtain ⟨root, foundRoot, _⟩ := wellFormed.root
  have known := cdFrom_known wellFormed ⟨root, foundRoot⟩ starts
  obtain ⟨startDir, foundStart⟩ := known
  obtain ⟨steps, trail⟩ := wellFormed.hangs start startDir foundStart
  obtain ⟨reachedFormed, _, grown, more, count, down⟩ :=
    createParents_descends wellFormed trail walked
  obtain ⟨new, _, rehung⟩ := createDir_hangs reachedFormed made
  have formed := rehung.wellFormed reachedFormed
  have added := rehung.grown reachedFormed new
  have before : state.tree.dirs.get? created = none := by
    cases found : state.tree.dirs.get? created with
    | none => rfl
    | some dir =>
        obtain ⟨now, foundNow, _⟩ := grown created dir found
        rw [new] at foundNow
        cases foundNow
  -- The new directory is what the last component leads to.
  obtain ⟨dir, foundDir, _, isParent⟩ := rehung.moved
  obtain ⟨parts, front, leads⟩ :=
    makes.nothingElse created dir foundDir before
  rw [components] at front
  have final := (grown.trans added).leads_last wellFormed before starts
    front leads
  obtain ⟨here, up⟩ := (grown.trans added).leads_name wellFormed
    ⟨startDir, foundStart⟩ before final
  rw [cdFrom_name nonempty here up] at final
  -- So it hangs below the resolved directory, and the walk went nowhere.
  obtain ⟨found, foundAgain, hangs, _⟩ := findDir_child formed final
  rw [foundDir] at foundAgain
  cases foundAgain
  rw [isParent] at hangs
  cases hangs
  have longer := (added.trail (grown.trail trail)).unique formed.up_root
    (added.trail down)
  have ended : more = [] := by
    simpa using longer
  rw [ended, List.length_nil] at count
  have alone := List.eq_nil_of_length_eq_zero count.symm
  rw [alone] at starts walked
  cases starts
  cases walked
  obtain ⟨named, free⟩ := createDir_checked made
  exact ⟨alone, named, here, up, free⟩

/-- `mkdir` with its parents ends with exactly the path it is given if and
only if that is one free name below the root. -/
theorem mkdir_parents_exact_iff (state : LocatedTree)
    (wellFormed : state.tree.WellFormed) (path : List Char)
    (valid : validPath path = true) :
    (∃ next, state.mkdir path true = some next ∧
      MakesExactly state next path) ↔ state.TopLevel path := by
  constructor
  · rintro ⟨next, done, makes⟩
    exact topLevel_of_makesExactly wellFormed valid done makes
  · exact mkdir_topLevel wellFormed valid

/-- Beside a directory and a file. -/
theorem mkdir_parents_exact_iff_beside :
    ∃ state next, run step emptyRoot moveOut = some state ∧
      state.tree.walk 0 [['a']] = some 1 ∧
      state.mkdir ['/', 'b'] true = some next ∧
        MakesExactly state next ['/', 'b'] := by
  have ends : (run step emptyRoot moveOut).map (fun state =>
      (state.tree.walk 0 [['a']], state.tree.findDir 0 ['b'])) =
        some (some 1, none) := by decide +kernel
  obtain ⟨state, reached, facts⟩ := Option.map_eq_some_iff.mp ends
  obtain ⟨inside, free⟩ := Prod.mk.inj facts
  have orderly : state.Orderly := run_invariant
    (fun _ _ _ before apart taken => before.step apart taken)
    emptyRoot_orderly moveOut_guarded reached
  obtain ⟨next, made, makes⟩ :=
    (mkdir_parents_exact_iff state orderly.wellFormed ['/', 'b']
      (by decide)).mpr ⟨by decide, by decide, by decide, by decide, free⟩
  exact ⟨state, next, reached, inside, made, makes⟩

/-- No file of the tree is named on the way. -/
def DirectoriesOnly (state : LocatedTree) (path : List Char) : Prop :=
  ∀ parts name id, parts ++ [name] <+: pathParts path →
    state.tree.cdFrom 0 parts = some id →
      state.tree.findFileIn id name = none

/-- The parents of a new path are not created. -/
theorem missing_parent_refused :
    ¬∀ (state : LocatedTree) (path : List Char), state.tree.WellFormed →
      validPath path = true → state.DirectoriesOnly path →
        ∃ next, state.mkdir path true = some next ∧
          MakesExactly state next path := by
  intro always
  have onlyRoot : emptyRoot.DirectoriesOnly ['/', 'a', '/', 'b'] := by
    intro parts name id _ reached
    rw [findFileIn]
    cases found : emptyRoot.tree.dirs.get? id with
    | none => rfl
    | some dir =>
        rw [emptyRoot, Dict.get?_set] at found
        split at found
        · cases found
          rfl
        · cases found
  obtain ⟨next, done, _⟩ := always emptyRoot ['/', 'a', '/', 'b']
    emptyRoot_orderly.wellFormed (by decide) onlyRoot
  have refused : emptyRoot.mkdir ['/', 'a', '/', 'b'] true = none := by
    rfl
  rw [refused] at done
  cases done

end LocatedTree

end Tgdcfs
