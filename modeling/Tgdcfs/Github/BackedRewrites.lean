import Tgdcfs.Github.BackedFiles
import Tgdcfs.Lib.Traversals

/-!
# Commits that rewrite the tree

A directory is moved or deleted by one commit.  A move that the repository
refuses is undone in memory; the stats files are written on top of whatever is
there.
-/

namespace Tgdcfs

open Lib

/-- The listing of the head commit is complete. -/
def GitDataApi.Lists (github : GitDataApi) (branch : GitTree) : Prop :=
  ∀ listing, github.getGitTree = .ok listing →
    listing.Of branch ∧ listing.truncated = false

/-- Every call of a rewrite succeeds, unless blobs of the new tree clash. -/
structure GitDataApi.Succeeds (github : GitDataApi) : Prop where
  lists : ∃ listing, github.getGitTree = .ok listing
  creates : ∀ elements : List GitBlob,
    (∀ first ∈ elements, ∀ second ∈ elements,
      Clash first.path second.path → first = second) →
        ∃ created, github.createGitTree elements = .ok created
  commits : github.createGitCommit = .ok ()
  edits : github.editRef = .ok ()

/-- On top of a tree nothing changes but the paths that are written. -/
def StatsApi.Lawful (github : StatsApi) : Prop :=
  ∀ branch writes after, github.createGitTree branch writes = .ok after →
    ∀ blob : GitBlob, blob.path ∉ writes.map Prod.fst →
      (blob ∈ after.blobs ↔ blob ∈ branch.blobs)

namespace DirectoryRewrite

variable {github : GitDataApi} {rewrite : DirectoryRewrite}
  {branch created : GitTree}

/-- A rewrite from a complete listing places every blob of the branch, and
leaves no other. -/
theorem committed_holds (lawful : github.Lawful)
    (lists : github.Lists branch)
    (apart : ∀ moved ∈ branch.blobs, ∀ kept ∈ branch.blobs,
      Beneath rewrite.directory moved.path →
      ¬Beneath rewrite.directory kept.path → ∀ path,
        rewrite.place moved.path = some path → ¬Clash path kept.path)
    (committed : rewrite.committed github = some created)
    (segments : List (List Char)) :
    created.Holds segments ↔ ∃ blob ∈ branch.blobs, ∃ path,
      rewrite.place blob.path = some path ∧ components path = segments := by
  obtain ⟨listing, answered, accepted⟩ := committed_eq_some.mp committed
  obtain ⟨of_branch, whole⟩ := lists listing answered
  have frames := (committed_frames_iff lawful branch
    (fun listing answered => (lists listing answered).1) rewrite).mpr ?_
    created committed
  · constructor
    · rintro ⟨element, member, rfl⟩
      obtain ⟨blob, listed, goes, _⟩ := mem_placed.mp
        (lawful.sound _ created accepted.creates element member)
      exact ⟨blob, of_branch.sound blob listed, element.path, goes, rfl⟩
    · rintro ⟨blob, member, path, goes, rfl⟩
      have placed : (⟨path, blob.mode, blob.sha⟩ : GitBlob) ∈
          rewrite.placed branch.blobs :=
        mem_placed.mpr ⟨blob, member, goes, rfl, rfl⟩
      exact ⟨_, frames_iff.mp frames _ placed, rfl⟩
  · intro answer _ again _
    rw [answered] at again
    cases again
    constructor
    · intro blob member path goes
      exact ⟨blob, of_branch.complete whole blob member, goes, rfl, rfl⟩
    · intro moved movedIn kept keptIn beneath outside path goes clash
      exact (apart moved (of_branch.sound moved movedIn) kept
        (of_branch.sound kept keptIn) beneath outside path goes clash).elim

theorem place_move_beneath {old new path : StoragePath}
    (beneath : Beneath old path) :
    (move old new).place path = some (new ++ path.drop old.length) :=
  @place_beneath (move old new) _ beneath

theorem move_holds {old new : StoragePath} {segments : List (List Char)} :
    (∃ blob ∈ branch.blobs, ∃ path,
        (move old new).place blob.path = some path ∧
          components path = segments) ↔
      ∃ before, branch.Holds before ∧
        Relocates (components old) (components new) before segments := by
  constructor
  · rintro ⟨blob, member, path, goes, rfl⟩
    refine ⟨_, ⟨blob, member, rfl⟩, ?_⟩
    by_cases beneath : Beneath old blob.path
    · rw [place_move_beneath beneath] at goes
      cases goes
      have replaced := @components_replaced old new _ beneath
      obtain ⟨rest, splits⟩ := beneath
      refine .inl ⟨rest, splits.symm, ?_⟩
      rw [replaced, ← splits, List.drop_left]
    · rw [@place_outside (move old new) _ beneath] at goes
      cases goes
      exact .inr ⟨beneath, rfl⟩
  · rintro ⟨_, ⟨blob, member, rfl⟩, relocates⟩
    by_cases beneath : Beneath old blob.path
    · refine ⟨blob, member, _, place_move_beneath beneath, ?_⟩
      rcases relocates with ⟨rest, splits, rfl⟩ | ⟨outside, _⟩
      · rw [components_replaced beneath, splits, List.drop_left]
      · exact (outside beneath).elim
    · refine ⟨blob, member, _, @place_outside (move old new) _ beneath, ?_⟩
      rcases relocates with ⟨rest, splits, _⟩ | ⟨_, rfl⟩
      · exact (beneath ⟨rest, splits.symm⟩).elim
      · rfl

theorem delete_holds {directory : StoragePath}
    {segments : List (List Char)} :
    (∃ blob ∈ branch.blobs, ∃ path,
        (delete directory).place blob.path = some path ∧
          components path = segments) ↔
      branch.Holds segments ∧ ¬components directory <+: segments := by
  constructor
  · rintro ⟨blob, member, path, goes, rfl⟩
    by_cases beneath : Beneath directory blob.path
    · rw [@place_beneath (delete directory) _ beneath] at goes
      cases goes
    · rw [@place_outside (delete directory) _ beneath] at goes
      cases goes
      exact ⟨⟨blob, member, rfl⟩, beneath⟩
  · rintro ⟨⟨blob, member, rfl⟩, outside⟩
    exact ⟨blob, member, blob.path, @place_outside (delete directory) _ outside, rfl⟩

end DirectoryRewrite

namespace GithubTree

open DirectoryTree DirectoryRewrite

variable {nameKey : Option PathNameKey} {state : GithubTree}

variable {id : Nat} {segments : List (List Char)}

theorem components_githubPath (wellFormed : state.tree.WellFormed)
    (stored : state.StoredAt nameKey id segments) (below : segments ≠ []) :
    components (state.githubPath nameKey id) = segments := by
  rw [githubPath_eq wellFormed stored]
  exact components_intercalate (stored.named wellFormed) below

theorem githubPath_ne_nil (wellFormed : state.tree.WellFormed)
    (stored : state.StoredAt nameKey id segments) (below : segments ≠ []) :
    state.githubPath nameKey id ≠ [] := by
  rw [githubPath_eq wellFormed stored]
  exact (stored.named wellFormed).intercalate_ne_nil below

variable {dir : Directory} {parent : Nat}

theorem StoredAt.ne_nil (wellFormed : state.tree.WellFormed)
    (stored : state.StoredAt nameKey id segments)
    (found : state.tree.dirs.get? id = some dir)
    (isParent : dir.parent = some parent) : segments ≠ [] := by
  obtain ⟨above, _, rfl⟩ := stored.parent wellFormed found isParent
  simp

theorem ne_root (wellFormed : state.tree.WellFormed)
    (found : state.tree.dirs.get? id = some dir)
    (isParent : dir.parent = some parent) : id ≠ 0 := by
  rintro rfl
  obtain ⟨rootDir, foundRoot, isRoot⟩ := wellFormed.root
  rw [found] at foundRoot
  cases foundRoot
  rw [isParent] at isRoot
  cases isRoot

variable {github : GitDataApi}

theorem Backed.delete (backed : state.Backed nameKey) (lawful : github.Lawful)
    (lists : github.Lists state.branch) (succeeds : github.Succeeds)
    (found : state.tree.dirs.get? id = some dir)
    (isParent : dir.parent = some parent) :
    (state.delete nameKey github id).Backed nameKey := by
  obtain ⟨old, stored⟩ := StoredAt.of_get nameKey backed.wellFormed found
  have below := stored.ne_nil backed.wellFormed found isParent
  have parts := components_githubPath backed.wellFormed stored below
  obtain ⟨next, removes⟩ : ∃ next, state.tree.deleteDir id = some next := by
    rw [deleteDir, found, Option.bind_some, isParent]
    exact ⟨_, rfl⟩
  obtain ⟨_, deleted⟩ := deleteDir_deleted removes
  obtain ⟨listing, answered⟩ := succeeds.lists
  obtain ⟨of_branch, whole⟩ := lists listing answered
  -- The placeholder of the directory is beneath it.
  obtain ⟨keep, member, keepAt⟩ := backed.placeholder id old stored
    (ne_root backed.wellFormed found isParent)
  have sufficient : (DirectoryRewrite.delete
      (state.githubPath nameKey id)).Sufficient state.branch listing := by
    constructor
    · intro blob inBranch path goes
      exact ⟨blob, of_branch.complete whole blob inBranch, goes, rfl, rfl⟩
    · intro moved _ kept _ beneath _ path goes
      rw [place_beneath beneath] at goes
      cases goes
  obtain ⟨created, creates⟩ := succeeds.creates _ (sufficient.agree of_branch)
  have committed : (DirectoryRewrite.delete
      (state.githubPath nameKey id)).committed github = some created := by
    refine committed_eq_some.mpr ⟨listing, answered, ?_, ?_, creates,
      succeeds.commits, succeeds.edits⟩
    · simpa using githubPath_ne_nil backed.wellFormed stored below
    · refine ⟨keep, of_branch.complete whole keep member, ?_⟩
      change components (state.githubPath nameKey id) <+: components keep.path
      rw [parts, keepAt]
      exact List.prefix_append ..
  have holds := committed_holds lawful lists ?_ committed
  have hasParent : ((state.tree.dirs.get? id).bind Directory.parent).isNone =
      false := by
    rw [found, Option.bind_some, isParent]
    rfl
  · unfold GithubTree.delete
    dsimp only
    rw [hasParent, DirectoryTree.delete, removes, Option.getD_some,
      if_neg Bool.false_ne_true]
    change deleteGithubDirectory github _ = _ at committed
    rw [committed, Option.getD_some]
    refine backed.dirDeleted deleted stored ?_
    intro path
    rw [holds, delete_holds, parts]
  · intro moved _ kept _ beneath _ path goes
    rw [place_beneath beneath] at goes
    cases goes

/-- Putting a directory back leaves everything where it was. -/
theorem rehang_back {tree : DirectoryTree} (wellFormed : tree.WellFormed)
    {target oldParent : Nat} {name : Name}
    (found : tree.dirs.get? id = some dir)
    (hadParent : dir.parent = some oldParent)
    (different : ¬(target = oldParent ∧ name = dir.name))
    {moved : DirectoryTree} (rehung : Rehung tree moved id target name) :
    ∃ back, back = moved.rehang id target oldParent dir.name ∧
      back.WellFormed ∧ back.up = tree.up ∧
      ∀ other file, back.Lists other file ↔ tree.Lists other file := by
  have movedWellFormed := rehung.wellFormed wellFormed
  obtain ⟨changed, foundMoved, isName, isTarget⟩ := rehung.moved
  obtain ⟨oldDir, foundOld, _⟩ :=
    wellFormed.listed id dir oldParent found hadParent
  have notSelf : oldParent ≠ id := by
    rintro rfl
    exact wellFormed.parent_ne found hadParent
  have foundOldMoved := rehung.other_forward notSelf foundOld
  obtain ⟨steps, trail⟩ := wellFormed.hangs oldParent oldDir foundOld
  -- The directory is not on the trail of its old parent.
  have apart : id ∉ steps.map Prod.fst := by
    have whole : Trail tree.up 0 (steps ++ [(id, dir.name)]) id :=
      .step trail (up_of_get found hadParent)
    have nodup := whole.nodup wellFormed.up_root
    rw [List.map_append] at nodup
    intro inside
    exact List.disjoint_of_nodup_append nodup inside (by simp)
  have notBelow : moved.isAncestorOf id oldParent = false := by
    have kept : Trail moved.up 0 steps oldParent := by
      refine trail.congr fun item member => rehung.up_other ?_
      rintro rfl
      exact apart (List.mem_map_of_mem member)
    rw [← Bool.not_eq_true, movedWellFormed.isAncestorOf_iff kept]
    intro inside
    rcases List.mem_cons.mp inside with root | within
    · exact rehung.ne_root root
    · exact apart within
  have valid : validName dir.name := wellFormed.named id dir oldParent found
    hadParent
  have rehungBack := rehang_rehung movedWellFormed foundMoved foundOldMoved
    isTarget valid notBelow ?_
  · refine ⟨_, rfl, rehungBack.wellFormed movedWellFormed, ?_, ?_⟩
    · funext other
      by_cases here : other = id
      · rw [here, rehungBack.up_moved, up_of_get found hadParent]
      · rw [rehungBack.up_other here, rehung.up_other here]
    · intro other file
      rw [rehungBack.lists_iff, rehung.lists_iff]
  · -- Its old name is free there.
    apply List.eq_nil_iff_forall_not_mem.mpr
    intro child member
    obtain ⟨listed, named⟩ := List.mem_filter.mp member
    obtain ⟨below, foundBelow, isParent⟩ :=
      movedWellFormed.children oldParent _ child foundOldMoved listed
    rw [foundBelow, Option.map_some] at named
    have sameName : below.name = dir.name := by simpa using named
    by_cases here : child = id
    · subst here
      rw [foundMoved] at foundBelow
      cases foundBelow
      rw [isTarget] at isParent
      exact different ⟨Option.some.inj isParent, isName.symm.trans sameName⟩
    · obtain ⟨before, foundBefore, rfl⟩ :=
        rehung.other_backward here foundBelow
      exact here (wellFormed.siblings oldParent child id before dir
        foundBefore found isParent hadParent sameName)

/-- Nothing in the branch is in the way of a directory whose name is free. -/
theorem Backed.not_comparable (backed : state.Backed nameKey)
    {above new rest path : List (List Char)} {name : Name} {encrypted : Bool}
    (storedAbove : state.StoredAt nameKey parent above)
    (newIs : new = above ++ [storedForm nameKey encrypted name])
    (readable : ReadableName nameKey encrypted name)
    (unused : ∀ child dir, state.tree.dirs.get? child = some dir →
      dir.parent = some parent → dir.name ≠ name)
    (free : ¬state.branch.Holds new) (held : state.branch.Holds path) :
    ¬path <+: new ++ rest ∧ ¬new ++ rest <+: path := by
  obtain ⟨owner, origin, last, splits, storedOwner, _⟩ :=
    backed.sound path held
  -- A directory there would be a child of that name.
  have noDirectory : ∀ other, ¬state.StoredAt nameKey other new := by
    rintro other ⟨steps, trail, same⟩
    rw [newIs] at same
    obtain ⟨start, item, rfl⟩ : ∃ start item, steps = start ++ [item] := by
      cases steps using List.reverseRecOn with
      | nil => simp [segmentsOf] at same
      | append_singleton start item => exact ⟨start, item, rfl⟩
    obtain ⟨rfl, reached, earlier, hangs⟩ := trail.of_snoc
    rw [segmentsOf, List.map_append, List.map_singleton] at same
    obtain ⟨sameAbove, sameForm⟩ := List.append_singleton_inj.mp same
    cases storedAbove.injective backed.wellFormed backed.legible
      ⟨start, earlier, sameAbove⟩
    have sameName := storedForm_injective readable
      (backed.legible item.1 parent item.2 hangs) sameForm
    obtain ⟨dir, found, isParent, named⟩ := up_eq_some hangs
    exact unused item.1 dir found isParent (named.trans sameName.symm)
  have notBelow : ¬new <+: path := by
    intro begins
    rw [splits] at begins
    rcases List.prefix_concat_iff.mp begins with same | shorter
    · exact free (same ▸ splits ▸ held)
    · obtain ⟨other, storedOther⟩ := storedOwner.of_prefix shorter
      exact noDirectory other storedOther
  have notAbove : ¬path <+: new := by
    intro begins
    rw [newIs] at begins
    rcases List.prefix_concat_iff.mp begins with same | shorter
    · exact free (newIs ▸ same ▸ held)
    · by_cases root : parent = 0
      · subst root
        rw [storedAbove.unique backed.wellFormed .root,
          List.prefix_nil, splits] at shorter
        simp at shorter
      · have same := held.eq_of_prefix
          (backed.placeholder parent above storedAbove root)
          (shorter.trans (List.prefix_append ..))
        have short := shorter.length_le
        rw [same, List.length_append, List.length_singleton] at short
        omega
  constructor
  · intro begins
    rcases List.prefix_or_prefix_of_prefix begins
      (List.prefix_append new rest) with before | behind
    · exact notAbove before
    · exact notBelow behind
  · intro begins
    exact notBelow ((List.prefix_append new rest).trans begins)

theorem rewriteGithubDirectory_none {rewrite : DirectoryRewrite}
    (done : rewriteGithubDirectory github rewrite.directory rewrite.replace =
      .ok none) :
    ∃ listing, github.getGitTree = .ok listing ∧
      ∀ blob ∈ listing.blobs, ¬Beneath rewrite.directory blob.path := by
  unfold rewriteGithubDirectory at done
  obtain ⟨listing, answered, done⟩ := bind_ok done
  refine ⟨listing, answered, ?_⟩
  dsimp only at done
  generalize collects : listing.tree.foldl
    (collectEntry rewrite.directory rewrite.replace) ([], 0) = collected
    at done
  obtain ⟨_, count⟩ := collect_spec collects
  by_cases nothing : collected.2 = 0
  · intro blob member beneath
    exact count.mp nothing ⟨blob, member, beneath⟩
  · rw [if_neg nothing] at done
    obtain ⟨created, _, done⟩ := bind_ok done
    obtain ⟨_, _, done⟩ := bind_ok done
    obtain ⟨_, _, done⟩ := bind_ok done
    cases done

theorem Relocates.self_iff {old before after : List (List Char)} :
    Relocates old old before after ↔ after = before := by
  constructor
  · rintro (⟨rest, rfl, rfl⟩ | ⟨_, same⟩)
    · rfl
    · exact same
  · rintro rfl
    by_cases below : old <+: after
    · obtain ⟨rest, rfl⟩ := below
      exact .inl ⟨rest, rfl, rfl⟩
    · exact .inr ⟨below, rfl⟩

/-- The path of the new place of a directory. -/
def movedPath (nameKey : Option PathNameKey) (state : GithubTree)
    (id newParent : Nat) (name : Name) : StoragePath :=
  joinPath [state.githubPath nameKey newParent,
    storedForm nameKey (state.storedEncrypted id) name]

/-- The answer of the repository to a move is a commit with every blob of the
directory at its new place. -/
theorem moved_holds (lawful : github.Lawful)
    (lists : github.Lists state.branch) {oldPath newPath : StoragePath}
    {committed : Option GitTree}
    (marked : state.branch.Holds (components oldPath ++ [GITKEEP]))
    (apart : ∀ path, state.branch.Holds path → ∀ rest,
      ¬path <+: components newPath ++ rest ∧
        ¬components newPath ++ rest <+: path)
    (done : moveGithubDirectory github oldPath newPath = .ok committed) :
    ∃ created, committed = some created ∧
      ∀ path, created.Holds path ↔ ∃ before, state.branch.Holds before ∧
        Relocates (components oldPath) (components newPath) before path := by
  cases committed with
  | none =>
      obtain ⟨listing, answered, nothing⟩ :=
        @rewriteGithubDirectory_none _ (.move oldPath newPath) done
      obtain ⟨keep, member, keepAt⟩ := marked
      obtain ⟨of_branch, whole⟩ := lists listing answered
      refine (nothing keep (of_branch.complete whole keep member) ?_).elim
      change components oldPath <+: components keep.path
      rw [keepAt]
      exact List.prefix_append ..
  | some created =>
      refine ⟨created, rfl, ?_⟩
      intro path
      have committed : (DirectoryRewrite.move oldPath newPath).committed
          github = some created := by
        rw [DirectoryRewrite.committed, done]
        rfl
      rw [← move_holds]
      apply committed_holds lawful lists ?_ committed
      intro moved _ kept keptIn beneath _ place goes clash
      change Beneath oldPath moved.path at beneath
      rw [place_move_beneath beneath] at goes
      cases goes
      have blocked := apart _ ⟨kept, keptIn, rfl⟩
      unfold Clash Beneath at clash
      rw [components_replaced beneath] at clash
      rcases clash with above | below
      · exact (blocked _).2 above
      · exact (blocked _).1 below

theorem Backed.moveTo (backed : state.Backed nameKey) (lawful : github.Lawful)
    (lists : github.Lists state.branch) {newParent : Nat} {newName : Name}
    (readable : ∀ dir, state.tree.dirs.get? id = some dir →
      ReadableName nameKey (state.storedEncrypted id)
        (newNameOr newName dir.name))
    (free : ∀ dir, state.tree.dirs.get? id = some dir →
      ∀ blob ∈ state.branch.blobs, blob.path ≠
        state.movedPath nameKey id newParent (newNameOr newName dir.name)) :
    (state.moveTo nameKey github id newParent newName).1.Backed nameKey := by
  unfold GithubTree.moveTo
  cases moves : state.tree.moveTo id newParent newName with
  | error error => exact backed
  | ok moved =>
      obtain ⟨dir, aboveDir, oldParent, found, foundAbove, hadParent,
        ⟨_, _, rfl⟩ | ⟨valid, different, notBelow, empty, isMoved⟩⟩ :=
        moveTo_ok moves
      · dsimp only
        rw [if_pos (.inr (.inr rfl))]
        exact backed
      have readable := readable dir found
      have free := free dir found
      generalize newNameOr newName dir.name = name at *
      have rehung := rehang_rehung backed.wellFormed found foundAbove hadParent
        valid notBelow empty
      rw [← isMoved] at rehung
      obtain ⟨old, stored⟩ := StoredAt.of_get nameKey backed.wellFormed found
      obtain ⟨above, storedAbove⟩ :=
        StoredAt.of_get nameKey backed.wellFormed foundAbove
      obtain ⟨new, newIs⟩ : ∃ new, new = above ++
        [storedForm nameKey (state.storedEncrypted id) name] := ⟨_, rfl⟩
      have someOld := stored.ne_nil backed.wellFormed found hadParent
      have someNew : new ≠ [] := by
        rw [newIs]
        simp
      have oldParts := components_githubPath backed.wellFormed stored someOld
      have movedWellFormed := rehung.wellFormed backed.wellFormed
      -- The path in the tree that was moved in memory.
      have storedNew : StoredAt nameKey { state with tree := moved } id new :=
        (moved_storedAt backed rehung stored storedAbove newIs).mpr
          ⟨old, stored, .inl ⟨[], by simp, by simp⟩⟩
      have newParts := components_githubPath movedWellFormed storedNew someNew
      dsimp only
      by_cases stays : state.githubPath nameKey id = [] ∨
          githubPath nameKey { state with tree := moved } id = [] ∨
          state.githubPath nameKey id =
            githubPath nameKey { state with tree := moved } id
      · rw [if_pos stays]
        have same : new = old := by
          rcases stays with plain | plain | samePath
          · exact (githubPath_ne_nil backed.wellFormed stored someOld
              plain).elim
          · exact (githubPath_ne_nil movedWellFormed storedNew someNew
              plain).elim
          · rw [← oldParts, ← newParts, samePath]
        apply backed.dirMoved rehung stored storedAbove newIs readable
        intro path
        simp only [same, Relocates.self_iff, exists_eq_right']
      · rw [if_neg stays]
        cases answer : moveGithubDirectory github
            (state.githubPath nameKey id)
            (githubPath nameKey { state with tree := moved } id) with
        | error error =>
            obtain ⟨back, isBack, wellFormed, ups, listed⟩ :=
              rehang_back backed.wellFormed found hadParent different rehung
            have putBack : state.putBack moved id newParent = back := by
              unfold GithubTree.putBack
              rw [found]
              dsimp only
              rw [hadParent, isBack]
            dsimp only
            rw [putBack]
            exact backed.congr wellFormed ups rfl listed fun _ => Iff.rfl
        | ok committed =>
            have newPath : components (state.movedPath nameKey id newParent
                name) = new := by
              rw [newIs]
              exact backed.components_joinPath storedAbove
                (storedForm_named valid) (List.cons_ne_nil _ _)
            have freeNew : ¬state.branch.Holds new := by
              rintro ⟨blob, member, parts⟩
              exact free blob member
                (components_injective (parts.trans newPath.symm))
            have placeholder := backed.placeholder id old stored
              rehung.ne_root
            obtain ⟨created, rfl, holds⟩ := moved_holds lawful lists
              (by rwa [oldParts]) (fun path held rest => by
                rw [newParts]
                exact backed.not_comparable storedAbove newIs readable
                  (fun child below foundBelow isParent =>
                    backed.wellFormed.free_name foundAbove empty foundBelow
                      isParent) freeNew held) answer
            rw [oldParts, newParts] at holds
            exact backed.dirMoved rehung stored storedAbove newIs readable
              holds

theorem commitStatsFrom_ok {github : StatsApi} {branch after : GitTree}
    {writes : List (StoragePath × Option String)} {attempts : Nat}
    (done : commitStatsFrom github branch writes attempts = .ok after) :
    after = branch ∨ github.createGitTree branch writes = .ok after := by
  induction attempts with
  | zero =>
      cases done
      exact .inl rfl
  | succ left ih =>
      rw [commitStatsFrom] at done
      obtain ⟨tree, creates, done⟩ := bind_ok done
      obtain ⟨_, _, done⟩ := bind_ok done
      cases edits : github.editRef (STATS_COMMIT_ATTEMPTS - (left + 1)) with
      | ok edit =>
          rw [edits] at done
          cases done
          exact .inr creates
      | error error =>
          rw [edits] at done
          dsimp only at done
          by_cases last : left = 0
          · rw [if_pos last] at done
            cases done
          · rw [if_neg last] at done
            exact ih done

theorem Backed.saveStats (backed : state.Backed nameKey) {github : StatsApi}
    (lawful : github.Lawful) (changes : List (Nat × Option String)) :
    (state.saveStats nameKey github changes).1.Backed nameKey := by
  unfold GithubTree.saveStats
  dsimp only
  generalize listed : (changes.filter fun change =>
    (state.tree.dirs.get? change.1).isSome).map (fun change =>
      (state.statsPath nameKey change.1, change.2)) = writes
  by_cases nothing : writes = []
  · rw [if_pos nothing]
    exact backed
  rw [if_neg nothing]
  cases commits : commitStatsFrom github state.branch writes
      STATS_COMMIT_ATTEMPTS with
  | error error => exact backed
  | ok branch =>
      apply backed.stats
      intro path elsewhere
      rcases commitStatsFrom_ok commits with rfl | created
      · rfl
      · -- Every path that is written is the stats path of a directory.
        have written : ∀ place ∈ writes.map Prod.fst,
            components place ≠ path := by
          intro place member
          rw [← listed, List.map_map] at member
          obtain ⟨change, inside, rfl⟩ := List.mem_map.mp member
          have known := (List.mem_filter.mp inside).2
          obtain ⟨dir, found⟩ := Option.isSome_iff_exists.mp known
          obtain ⟨segments, stored⟩ :=
            StoredAt.of_get nameKey backed.wellFormed found
          have parts := backed.components_joinPath stored
            (@Named.single STATS_FILE_NAME (by decide) (by decide))
            (List.cons_ne_nil _ _)
          intro same
          exact elsewhere change.1 segments stored (same.symm.trans parts)
        constructor
        · rintro ⟨blob, member, rfl⟩
          refine ⟨blob, (lawful _ _ _ created blob ?_).mp member, rfl⟩
          intro inside
          exact written blob.path inside rfl
        · rintro ⟨blob, member, rfl⟩
          refine ⟨blob, (lawful _ _ _ created blob ?_).mpr member, rfl⟩
          intro inside
          exact written blob.path inside rfl

end GithubTree

end Tgdcfs
