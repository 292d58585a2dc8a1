import Tgdcfs.Github.BackedInvariant

/-!
# Directories that are made, moved and deleted

A directory takes what is below it along, in memory and in the repository.
Storage paths below the old one are continued from the new one.
-/

namespace Tgdcfs

open Lib

/-- A path below the old directory goes to the same place below the new one;
any other path stays. -/
def Relocates (old new before after : List (List Char)) : Prop :=
  (∃ rest, before = old ++ rest ∧ after = new ++ rest) ∨
    ¬old <+: before ∧ after = before

namespace Relocates

variable {old new before after : List (List Char)} {last : List Char}

theorem exists_ (old new before : List (List Char)) :
    ∃ after, Relocates old new before after := by
  by_cases below : old <+: before
  · obtain ⟨rest, rfl⟩ := below
    exact ⟨_, .inl ⟨rest, rfl, rfl⟩⟩
  · exact ⟨before, .inr ⟨below, rfl⟩⟩

/-- One more segment, unless that reaches the directory itself. -/
theorem snoc (relocates : Relocates old new before after)
    (different : before ++ [last] ≠ old) :
    Relocates old new (before ++ [last]) (after ++ [last]) := by
  rcases relocates with ⟨rest, rfl, rfl⟩ | ⟨outside, rfl⟩
  · exact .inl ⟨rest ++ [last], by simp, by simp⟩
  · refine .inr ⟨?_, rfl⟩
    intro begins
    rcases List.prefix_concat_iff.mp begins with same | shorter
    · exact different same.symm
    · exact outside shorter

theorem of_snoc (relocates : Relocates old new (before ++ [last]) after)
    (different : before ++ [last] ≠ old) :
    ∃ place, after = place ++ [last] ∧ Relocates old new before place := by
  rcases relocates with ⟨rest, same, rfl⟩ | ⟨outside, rfl⟩
  · cases rest using List.reverseRecOn with
    | nil => exact (different (by simpa using same)).elim
    | append_singleton rest segment =>
        rw [← List.append_assoc] at same
        obtain ⟨rfl, rfl⟩ := List.append_singleton_inj.mp same
        exact ⟨new ++ rest, by simp, .inl ⟨rest, rfl, rfl⟩⟩
  · refine ⟨before, rfl, .inr ⟨?_, rfl⟩⟩
    intro begins
    exact outside (begins.trans (List.prefix_append ..))

end Relocates

namespace GithubTree

open DirectoryTree

variable {nameKey : Option PathNameKey} {state : GithubTree}
  {id parent : Nat} {name : Name} {old above : List (List Char)}
  {tree : DirectoryTree} {branch : GitTree}

variable {other : Nat} {segments : List (List Char)}

/-- A directory lies below another one if its storage path does. -/
theorem StoredAt.isAncestorOf_iff (wellFormed : state.tree.WellFormed)
    (legible : state.Legible nameKey) (stored : state.StoredAt nameKey id old)
    (storedOther : state.StoredAt nameKey other segments) :
    state.tree.isAncestorOf id other ↔ old <+: segments := by
  have whole := storedOther
  obtain ⟨steps, trail, rfl⟩ := storedOther
  rw [wellFormed.isAncestorOf_iff trail]
  constructor
  · intro inside
    rcases List.mem_cons.mp inside with rfl | within
    · rw [stored.unique wellFormed .root]
      exact List.nil_prefix
    · obtain ⟨item, member, rfl⟩ := List.mem_map.mp within
      obtain ⟨start, startTrail, begins, _⟩ := trail.of_mem member
      rw [stored.unique wellFormed ⟨start, startTrail, rfl⟩]
      exact begins.map _
  · intro begins
    obtain ⟨start, starts, same⟩ := List.prefix_map_iff.mp begins
    obtain ⟨reached, startTrail⟩ := trail.of_prefix starts
    cases stored.injective wellFormed legible ⟨start, startTrail, same⟩
    by_cases root : id = 0
    · rw [root]
      exact List.mem_cons_self
    · exact List.mem_cons_of_mem _
        ((starts.map Prod.fst).subset (startTrail.last_mem root))

theorem storedForm_isSome (nameKey : Option PathNameKey) (name : Name) :
    storedForm nameKey nameKey.isSome name = storedForm nameKey true name := by
  cases nameKey <;> rfl

/-- The tree with a directory that follows the configured key. -/
def withDir (nameKey : Option PathNameKey) (state : GithubTree)
    (tree : DirectoryTree) (id : Nat) (branch : GitTree) : GithubTree :=
  ⟨tree, Function.update state.storedEncrypted id nameKey.isSome, branch⟩

theorem withDir_flag_self :
    (state.withDir nameKey tree id branch).storedEncrypted id =
      nameKey.isSome :=
  Function.update_self ..

theorem withDir_flag (different : other ≠ id) :
    (state.withDir nameKey tree id branch).storedEncrypted other =
      state.storedEncrypted other :=
  Function.update_of_ne different ..

/-- The directories are where they were, and the new one below its parent. -/
theorem withDir_storedAt (backed : state.Backed nameKey)
    (rehung : Rehung state.tree tree id parent name)
    (fresh : state.tree.dirs.get? id = none)
    (stored : state.StoredAt nameKey parent above) :
    (state.withDir nameKey tree id branch).StoredAt nameKey other segments ↔
      state.StoredAt nameKey other segments ∨
        other = id ∧ segments = above ++ [storedForm nameKey true name] := by
  have wellFormed := rehung.wellFormed backed.wellFormed
  -- No trail of the old tree passes the new directory.
  have kept : ∀ {other segments}, state.StoredAt nameKey other segments →
      (state.withDir nameKey tree id branch).StoredAt nameKey other
        segments := by
    rintro other segments ⟨steps, trail, rfl⟩
    have different : ∀ item ∈ steps, item.1 ≠ id := by
      rintro item member rfl
      have known := backed.wellFormed.mem_keys trail item.1
        (List.mem_cons_of_mem _ (List.mem_map_of_mem member))
      exact (Dict.get?_eq_none_iff _ _).mp fresh known
    refine ⟨steps, trail.congr fun item member =>
      rehung.up_other (different item member), ?_⟩
    apply List.map_congr_left
    intro item member
    rw [withDir_flag (different item member)]
  have new : (state.withDir nameKey tree id branch).StoredAt nameKey id
      (above ++ [storedForm nameKey true name]) := by
    obtain ⟨dir, found, rfl, isParent⟩ := rehung.moved
    have child := (kept stored).child found isParent
    rw [withDir_flag_self, storedForm_isSome] at child
    exact child
  constructor
  · intro storedNext
    obtain ⟨dir, found⟩ := storedNext.found wellFormed
    by_cases here : other = id
    · subst here
      exact .inr ⟨rfl, storedNext.unique wellFormed new⟩
    · obtain ⟨before, foundBefore, _⟩ := rehung.other_backward here found
      obtain ⟨known, storedBefore⟩ := StoredAt.of_get nameKey
        backed.wellFormed foundBefore
      rw [storedNext.unique wellFormed (kept storedBefore)]
      exact .inl storedBefore
  · rintro (before | ⟨rfl, rfl⟩)
    · exact kept before
    · exact new

theorem Backed.dirCreated (backed : state.Backed nameKey)
    (rehung : Rehung state.tree tree id parent name)
    (fresh : state.tree.dirs.get? id = none)
    (stored : state.StoredAt nameKey parent above)
    (holds : ∀ path, branch.Holds path ↔ state.branch.Holds path ∨
      path = above ++ [storedForm nameKey true name, GITKEEP]) :
    (state.withDir nameKey tree id branch).Backed nameKey := by
  have places : ∀ {other segments},
      (state.withDir nameKey tree id branch).StoredAt nameKey other
        segments ↔ _ :=
    withDir_storedAt backed rehung fresh stored
  have lists : ∀ {other file}, tree.Lists other file ↔
      state.tree.Lists other file := rehung.lists_iff
  -- The new directory lists nothing.
  have listedBefore : ∀ {other segments file},
      (state.withDir nameKey tree id branch).StoredAt nameKey other
        segments → tree.Lists other file →
          state.StoredAt nameKey other segments := by
    intro other segments file storedNext listed
    rcases places.mp storedNext with before | ⟨rfl, _⟩
    · exact before
    · obtain ⟨dir, found, _⟩ := lists.mp listed
      rw [fresh] at found
      cases found
  have newPath : ∀ {segments : List (List Char)} {last},
      segments ++ [last] = above ++ [storedForm nameKey true name, GITKEEP] →
        last = GITKEEP := by
    intro segments last same
    rw [List.append_cons above] at same
    exact (List.append_singleton_inj.mp same).2
  constructor
  · exact rehung.wellFormed backed.wellFormed
  · intro other place label hangs
    by_cases here : other = id
    · subst here
      rw [withDir, rehung.up_moved] at hangs
      cases hangs
      rw [withDir_flag_self, ReadableName, storedForm_isSome]
      exact readable_encrypted
    · rw [withDir, rehung.up_other here] at hangs
      rw [withDir_flag here]
      exact backed.legible other place label hangs
  · intro other file listed
    exact backed.plain other file (lists.mp listed)
  · intro other segments storedNext notRoot
    rcases places.mp storedNext with before | ⟨rfl, rfl⟩
    · exact (holds _).mpr (.inl (backed.placeholder other segments before
        notRoot))
    · exact (holds _).mpr (.inr (by simp))
  · intro other segments file storedNext listed
    obtain ⟨segment, form, held⟩ := backed.stored other segments file
      (listedBefore storedNext listed) (lists.mp listed)
    exact ⟨segment, form, (holds _).mpr (.inl held)⟩
  · intro other segments file first second storedNext listed form again held
      heldAgain
    have was : ∀ {segment}, file.FormOf nameKey segment →
        branch.Holds (segments ++ [segment]) →
          state.branch.Holds (segments ++ [segment]) := by
      intro segment here heldNext
      rcases (holds _).mp heldNext with before | same
      · exact before
      · exact ((here.reserved (backed.plain other file
          (lists.mp listed))).1 (newPath same)).elim
    exact backed.single other segments file first second
      (listedBefore storedNext listed) (lists.mp listed) form again
      (was form held) (was again heldAgain)
  · intro path held
    rcases (holds path).mp held with before | rfl
    · obtain ⟨other, segments, last, rfl, storedBefore, expected⟩ :=
        backed.sound path before
      exact ⟨other, segments, last, rfl, places.mpr (.inl storedBefore),
        expected.mono fun file _ => lists.mpr⟩
    · exact ⟨id, above ++ [storedForm nameKey true name], GITKEEP, by simp,
        places.mpr (.inr ⟨rfl, rfl⟩), .inl rfl⟩

/-- What is left is what was not below the directory, where it was. -/
theorem deleted_storedAt (backed : state.Backed nameKey)
    (deleted : Deleted state.tree tree id parent)
    (stored : state.StoredAt nameKey id old) :
    StoredAt nameKey { state with tree, branch } other segments ↔
      state.StoredAt nameKey other segments ∧ ¬old <+: segments := by
  have wellFormed := deleted.wellFormed backed.wellFormed
  have below : ∀ {other segments}, state.StoredAt nameKey other segments →
      (state.tree.isAncestorOf id other = true ↔ old <+: segments) :=
    stored.isAncestorOf_iff backed.wellFormed backed.legible
  have kept : ∀ {other segments}, state.StoredAt nameKey other segments →
      ¬old <+: segments →
        StoredAt nameKey { state with tree, branch } other segments := by
    rintro other segments ⟨steps, trail, rfl⟩ outside
    refine ⟨steps, trail.congr ?_, rfl⟩
    intro item member
    obtain ⟨start, itemTrail, begins, _⟩ := trail.of_mem member
    have itemOutside : state.tree.isAncestorOf id item.1 = false := by
      by_contra inside
      have storedItem : state.StoredAt nameKey item.1
          (state.segmentsOf nameKey start) := ⟨start, itemTrail, rfl⟩
      exact outside (((below storedItem).mp (by simpa using inside)).trans
        (begins.map _))
    obtain ⟨above, place⟩ := trail.up_of_mem member
    obtain ⟨dir, found, isParent, named⟩ := up_eq_some place
    obtain ⟨after, left, sameName, sameParent, _⟩ :=
      deleted.forward itemOutside found
    rw [place, up_of_get left (sameParent.trans isParent), sameName, named]
  constructor
  · intro storedNext
    obtain ⟨after, left⟩ := storedNext.found wellFormed
    obtain ⟨outside, before, found, _⟩ := deleted.backward left
    obtain ⟨known, storedBefore⟩ := StoredAt.of_get nameKey
      backed.wellFormed found
    have apart : ¬old <+: known := by
      rw [← below storedBefore, outside]
      simp
    rw [storedNext.unique wellFormed (kept storedBefore apart)]
    exact ⟨storedBefore, apart⟩
  · rintro ⟨storedBefore, outside⟩
    exact kept storedBefore outside

theorem Backed.dirDeleted (backed : state.Backed nameKey)
    (deleted : Deleted state.tree tree id parent)
    (stored : state.StoredAt nameKey id old)
    (holds : ∀ path, branch.Holds path ↔
      state.branch.Holds path ∧ ¬old <+: path) :
    Backed nameKey { state with tree, branch } := by
  have places : ∀ {other segments},
      StoredAt nameKey { state with tree, branch } other segments ↔
        state.StoredAt nameKey other segments ∧ ¬old <+: segments :=
    deleted_storedAt backed deleted stored
  have listedBefore : ∀ {other file}, tree.Lists other file →
      state.tree.Lists other file := by
    rintro other file ⟨after, left, member⟩
    obtain ⟨_, before, found, _, _, files, _⟩ := deleted.backward left
    exact ⟨before, found, files ▸ member⟩
  -- No blob is at the path of the directory itself.
  have outside : ∀ {segments last}, state.branch.Holds (segments ++ [last]) →
      ¬old <+: segments → ¬old <+: segments ++ [last] := by
    intro segments last held apart begins
    rcases List.prefix_concat_iff.mp begins with same | shorter
    · exact backed.not_held stored (same ▸ held)
    · exact apart shorter
  constructor
  · exact deleted.wellFormed backed.wellFormed
  · intro other place label hangs
    obtain ⟨after, left, isParent, named⟩ := up_eq_some hangs
    obtain ⟨_, before, found, sameName, sameParent, _⟩ :=
      deleted.backward left
    apply backed.legible other place label
    rw [up_of_get found (sameParent ▸ isParent), ← sameName, named]
  · intro other file listed
    exact backed.plain other file (listedBefore listed)
  · intro other segments storedNext notRoot
    obtain ⟨storedBefore, apart⟩ := places.mp storedNext
    have held := backed.placeholder other segments storedBefore notRoot
    exact (holds _).mpr ⟨held, outside held apart⟩
  · intro other segments file storedNext listed
    obtain ⟨storedBefore, apart⟩ := places.mp storedNext
    obtain ⟨segment, form, held⟩ := backed.stored other segments file
      storedBefore (listedBefore listed)
    exact ⟨segment, form, (holds _).mpr ⟨held, outside held apart⟩⟩
  · intro other segments file first second storedNext listed form again held
      heldAgain
    exact backed.single other segments file first second
      (places.mp storedNext).1 (listedBefore listed) form again
      ((holds _).mp held).1 ((holds _).mp heldAgain).1
  · intro path held
    obtain ⟨before, apart⟩ := (holds path).mp held
    obtain ⟨other, segments, last, rfl, storedBefore, expected⟩ :=
      backed.sound path before
    have above : ¬old <+: segments := fun begins =>
      apart (begins.trans (List.prefix_append ..))
    refine ⟨other, segments, last, rfl, places.mpr ⟨storedBefore, above⟩,
      expected.mono ?_⟩
    rintro file _ ⟨dir, found, member⟩
    have notBelow : state.tree.isAncestorOf id other = false := by
      rw [← Bool.not_eq_true, stored.isAncestorOf_iff backed.wellFormed
        backed.legible storedBefore]
      exact above
    obtain ⟨after, left, _, _, files, _⟩ := deleted.forward notBelow found
    exact ⟨after, left, files ▸ member⟩

section Move

variable {new : List (List Char)} (backed : state.Backed nameKey)
  (rehung : Rehung state.tree tree id parent name)
  (stored : state.StoredAt nameKey id old)
  (storedAbove : state.StoredAt nameKey parent above)
  (newIs : new =
    above ++ [storedForm nameKey (state.storedEncrypted id) name])

include backed rehung stored storedAbove newIs

theorem moved_storedAt {other : Nat} {after : List (List Char)} :
    StoredAt nameKey { state with tree, branch } other after ↔
      ∃ before, state.StoredAt nameKey other before ∧
        Relocates old new before after := by
  have wellFormed := rehung.wellFormed backed.wellFormed
  obtain ⟨dir, found, isName, isParent⟩ := rehung.moved
  -- A trail that does not pass the directory is the same.
  have kept : ∀ {steps other}, Trail state.tree.up 0 steps other →
      id ∉ steps.map Prod.fst → Trail tree.up 0 steps other := by
    intro steps other trail apart
    refine trail.congr fun item member => rehung.up_other ?_
    rintro rfl
    exact apart (List.mem_map_of_mem member)
  have target : ∃ steps, Trail tree.up 0 steps id ∧
      new = state.segmentsOf nameKey steps := by
    obtain ⟨steps, trail, outside⟩ := rehung.apart
    refine ⟨_, .step (kept trail fun inside =>
      outside (List.mem_cons_of_mem _ inside)) rehung.up_moved, ?_⟩
    rw [newIs, storedAbove.unique backed.wellFormed ⟨steps, trail, rfl⟩]
    simp [segmentsOf]
  have moves : ∀ {other before after}, state.StoredAt nameKey other before →
      Relocates old new before after →
        StoredAt nameKey { state with tree, branch } other after := by
    rintro other before after ⟨steps, trail, rfl⟩
      (⟨rest, same, rfl⟩ | ⟨outside, rfl⟩)
    · obtain ⟨start, more, rfl, rfl, rfl⟩ := List.map_eq_append_iff.mp same
      obtain ⟨reached, startTrail⟩ :=
        trail.of_prefix (List.prefix_append ..)
      cases stored.injective backed.wellFormed backed.legible
        ⟨start, startTrail, rfl⟩
      obtain ⟨newSteps, newTrail, segments⟩ := target
      refine ⟨newSteps ++ more, startTrail.rehung
        (fun item different => rehung.up_other different) newTrail trail ?_,
        ?_⟩
      · have nodup := trail.nodup backed.wellFormed.up_root
        rw [List.map_append] at nodup
        exact (List.disjoint_of_nodup_append nodup)
          (startTrail.last_mem rehung.ne_root)
      · rw [segments]
        simp [segmentsOf]
    · refine ⟨steps, kept trail ?_, rfl⟩
      intro inside
      have lies := (backed.wellFormed.isAncestorOf_iff trail).mpr
        (List.mem_cons_of_mem _ inside)
      exact outside ((stored.isAncestorOf_iff backed.wellFormed
        backed.legible ⟨steps, trail, rfl⟩).mp lies)
  constructor
  · intro storedNext
    obtain ⟨dir, foundNext⟩ := storedNext.found wellFormed
    have known : ∃ before, state.tree.dirs.get? other = some before := by
      by_cases here : other = id
      · rw [here]
        exact stored.found backed.wellFormed
      · obtain ⟨before, foundBefore, _⟩ :=
          rehung.other_backward here foundNext
        exact ⟨before, foundBefore⟩
    obtain ⟨before, foundBefore⟩ := known
    obtain ⟨place, storedBefore⟩ := StoredAt.of_get nameKey
      backed.wellFormed foundBefore
    obtain ⟨there, relocates⟩ := Relocates.exists_ old new place
    rw [storedNext.unique wellFormed (moves storedBefore relocates)]
    exact ⟨place, storedBefore, relocates⟩
  · rintro ⟨before, storedBefore, relocates⟩
    exact moves storedBefore relocates

theorem Backed.dirMoved
    (readable : ReadableName nameKey (state.storedEncrypted id) name)
    (holds : ∀ path, branch.Holds path ↔ ∃ before,
      state.branch.Holds before ∧ Relocates old new before path) :
    Backed nameKey { state with tree, branch } := by
  have wellFormed := rehung.wellFormed backed.wellFormed
  have places : ∀ {other after},
      StoredAt nameKey { state with tree, branch } other after ↔ _ :=
    moved_storedAt backed rehung stored storedAbove newIs
  have lists : ∀ {other file}, tree.Lists other file ↔
      state.tree.Lists other file := rehung.lists_iff
  have legible : Legible nameKey { state with tree, branch } := by
    intro other place label hangs
    by_cases here : other = id
    · subst here
      rw [rehung.up_moved] at hangs
      cases hangs
      exact readable
    · rw [rehung.up_other here] at hangs
      exact backed.legible other place label hangs
  -- No blob is at the path of the directory itself.
  have different : ∀ {segments last},
      state.branch.Holds (segments ++ [last]) → segments ++ [last] ≠ old := by
    rintro segments last held rfl
    exact backed.not_held stored held
  have arrives : ∀ {segments after last},
      state.branch.Holds (segments ++ [last]) →
        Relocates old new segments after →
        branch.Holds (after ++ [last]) := by
    intro segments after last held relocates
    exact (holds _).mpr ⟨_, held, relocates.snoc (different held)⟩
  -- Whatever is in a directory now was in it before.
  have was : ∀ {other segments after last},
      state.StoredAt nameKey other segments →
      Relocates old new segments after → branch.Holds (after ++ [last]) →
          state.branch.Holds (segments ++ [last]) := by
    intro other segments after last storedBefore relocates held
    obtain ⟨path, heldBefore, goes⟩ := (holds _).mp held
    obtain ⟨owner, origin, segment, rfl, storedOwner, _⟩ :=
      backed.sound path heldBefore
    obtain ⟨place, same, relocated⟩ := goes.of_snoc (different heldBefore)
    obtain ⟨rfl, rfl⟩ := List.append_singleton_inj.mp same
    have here := StoredAt.injective wellFormed legible
      (places.mpr ⟨_, storedOwner, relocated⟩)
      (places.mpr ⟨_, storedBefore, relocates⟩)
    subst here
    rw [storedBefore.unique backed.wellFormed storedOwner]
    exact heldBefore
  constructor
  · exact wellFormed
  · exact legible
  · intro other file listed
    exact backed.plain other file (lists.mp listed)
  · intro other after storedNext notRoot
    obtain ⟨segments, storedBefore, relocates⟩ := places.mp storedNext
    exact arrives (backed.placeholder other segments storedBefore notRoot)
      relocates
  · intro other after file storedNext listed
    obtain ⟨segments, storedBefore, relocates⟩ := places.mp storedNext
    obtain ⟨segment, form, held⟩ := backed.stored other segments file
      storedBefore (lists.mp listed)
    exact ⟨segment, form, arrives held relocates⟩
  · intro other after file first second storedNext listed form again held
      heldAgain
    obtain ⟨segments, storedBefore, relocates⟩ := places.mp storedNext
    exact backed.single other segments file first second storedBefore
      (lists.mp listed) form again (was storedBefore relocates held)
      (was storedBefore relocates heldAgain)
  · intro path held
    obtain ⟨before, heldBefore, goes⟩ := (holds path).mp held
    obtain ⟨other, segments, last, rfl, storedBefore, expected⟩ :=
      backed.sound before heldBefore
    obtain ⟨after, rfl, relocates⟩ := goes.of_snoc (different heldBefore)
    exact ⟨other, after, last, rfl,
      places.mpr ⟨segments, storedBefore, relocates⟩,
      expected.mono fun file _ => lists.mpr⟩

end Move

end GithubTree

end Tgdcfs
