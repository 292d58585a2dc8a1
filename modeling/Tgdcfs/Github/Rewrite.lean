import Tgdcfs.Github.GitTree

/-!
# Rewriting the tree for one directory

A directory is moved or deleted in the repository by one commit with a new
tree, which is built from the listing of the old one.  What the listing
leaves out is not in the new tree.
-/

namespace Tgdcfs

inductive GithubError where
  | status (code : Nat)
  deriving DecidableEq

/-- The answers of the Git Data API during one rewrite.  Reading takes three
calls, of which the last lists the tree of the head commit.  The reference is
not forced, so an edit that succeeds found the head it was read from. -/
structure GitDataApi where
  getGitTree : Except GithubError TreeListing
  createGitTree : List GitBlob → Except GithubError GitTree
  createGitCommit : Except GithubError Unit
  editRef : Except GithubError Unit

/-- A created tree has the given blobs and no others; about blobs that clash
nothing more is known. -/
structure GitDataApi.Lawful (github : GitDataApi) : Prop where
  sound : ∀ elements created, github.createGitTree elements = .ok created →
    ∀ blob ∈ created.blobs, blob ∈ elements
  complete : ∀ elements created, github.createGitTree elements = .ok created →
    (∀ first ∈ elements, ∀ second ∈ elements,
      Clash first.path second.path → first = second) →
    ∀ blob ∈ elements, blob ∈ created.blobs

/-- One round of the loop: the elements of the new tree and how many blobs
were beneath the directory. -/
def collectEntry (directory : StoragePath)
    (replace : StoragePath → Option StoragePath)
    (collected : List GitBlob × Nat) (entry : TreeEntry) :
    List GitBlob × Nat :=
  if entry.type ≠ .blob then collected
  else if startsUnder directory entry.path then
    match replace entry.path with
    | none => (collected.1, collected.2 + 1)
    | some path =>
        (collected.1 ++ [⟨path, entry.mode, entry.sha⟩], collected.2 + 1)
  else
    (collected.1 ++ [⟨entry.path, entry.mode, entry.sha⟩], collected.2)

/-- The tree of the commit that is put on the branch, if any. -/
def rewriteGithubDirectory (github : GitDataApi) (directory : StoragePath)
    (replace : StoragePath → Option StoragePath) :
    Except GithubError (Option GitTree) := do
  let listing ← github.getGitTree
  let collected := listing.tree.foldl (collectEntry directory replace) ([], 0)
  if collected.2 = 0 then return none
  let created ← github.createGitTree collected.1
  github.createGitCommit
  github.editRef
  return some created

/-- An error is raised again. -/
def moveGithubDirectory (github : GitDataApi) (old new : StoragePath) :
    Except GithubError (Option GitTree) :=
  rewriteGithubDirectory github old fun path =>
    some (new ++ path.drop old.length)

/-- An error is logged; the root is never deleted. -/
def deleteGithubDirectory (github : GitDataApi) (directory : StoragePath) :
    Option GitTree :=
  if directory = [] then none
  else
    match rewriteGithubDirectory github directory fun _ => none with
    | .error _ => none
    | .ok created => created

/-- The two rewrites. -/
inductive DirectoryRewrite where
  | move (old new : StoragePath)
  | delete (directory : StoragePath)

namespace DirectoryRewrite

def directory : DirectoryRewrite → StoragePath
  | move old _ => old
  | delete directory => directory

/-- Where a blob beneath the directory goes. -/
def replace : DirectoryRewrite → StoragePath → Option StoragePath
  | move old new, path => some (new ++ path.drop old.length)
  | delete _, _ => none

/-- The tree that is committed. -/
def committed (github : GitDataApi) : DirectoryRewrite → Option GitTree
  | move old new => (moveGithubDirectory github old new).toOption.join
  | delete directory => deleteGithubDirectory github directory

/-- The commit leaves everything outside alone, and a move takes what is
beneath the old directory to the new one. -/
structure Frames (rewrite : DirectoryRewrite) (before after : GitTree) :
    Prop where
  outside : ∀ blob ∈ before.blobs, ¬Beneath rewrite.directory blob.path →
    blob ∈ after.blobs
  moved : ∀ old new, rewrite = move old new → ∀ blob ∈ before.blobs,
    Beneath old blob.path → ∃ moved ∈ after.blobs, moved.SameContent blob ∧
      components moved.path =
        components new ++ (components blob.path).drop (components old).length

/-- The path of a blob in the new tree. -/
def place (rewrite : DirectoryRewrite) (path : StoragePath) :
    Option StoragePath :=
  if startsUnder rewrite.directory path then rewrite.replace path
  else some path

/-- The blobs of a list at their new places. -/
def placed (rewrite : DirectoryRewrite) (blobs : List GitBlob) :
    List GitBlob :=
  blobs.filterMap fun blob =>
    (rewrite.place blob.path).map fun path => { blob with path }

variable {rewrite : DirectoryRewrite}

theorem mem_placed {blobs : List GitBlob} {element : GitBlob} :
    element ∈ rewrite.placed blobs ↔ ∃ blob ∈ blobs,
      rewrite.place blob.path = some element.path ∧
        element.SameContent blob := by
  unfold placed
  rw [List.mem_filterMap]
  constructor
  · rintro ⟨blob, listed, found⟩
    obtain ⟨path, goes, rfl⟩ := Option.map_eq_some_iff.mp found
    exact ⟨blob, listed, goes, rfl, rfl⟩
  · rintro ⟨blob, listed, goes, mode, sha⟩
    refine ⟨blob, listed, ?_⟩
    rw [goes, Option.map_some, ← mode, ← sha]

/-- The loop places the blobs of the listing and counts those beneath. -/
theorem collect_eq (rewrite : DirectoryRewrite) (entries : List TreeEntry) :
    ∀ collected : List GitBlob × Nat,
      entries.foldl (collectEntry rewrite.directory rewrite.replace)
          collected =
        (collected.1 ++ rewrite.placed (TreeListing.blobs ⟨entries, false⟩),
          collected.2 + (TreeListing.blobs ⟨entries, false⟩).countP
            fun blob => startsUnder rewrite.directory blob.path) := by
  induction entries with
  | nil =>
      intro collected
      simp [placed, TreeListing.blobs]
  | cons entry entries ih =>
      intro collected
      rw [List.foldl_cons, ih]
      by_cases blob : entry.type = .blob
      · by_cases under : startsUnder rewrite.directory entry.path
        · cases new : rewrite.replace entry.path with
          | none =>
              simp [collectEntry, blob, under, new, placed, place,
                TreeListing.blobs]
              omega
          | some path =>
              simp [collectEntry, blob, under, new, placed, place,
                TreeListing.blobs]
              omega
        · simp [collectEntry, blob, under, placed, place, TreeListing.blobs]
      · simp [collectEntry, blob, placed, TreeListing.blobs]

/-- GitHub takes the new tree and the commit, and the branch is set to it. -/
structure Accepted (rewrite : DirectoryRewrite) (github : GitDataApi)
    (listing : TreeListing) (created : GitTree) : Prop where
  guarded : rewrite ≠ delete []
  beneath : ∃ blob ∈ listing.blobs, Beneath rewrite.directory blob.path
  creates : github.createGitTree (rewrite.placed listing.blobs) = .ok created
  commits : github.createGitCommit = .ok ()
  edits : github.editRef = .ok ()

/-- The listing is enough for the rewrite: no blob that stays in the tree is
left out of it (unless another one takes its place with the same content),
and no blob that is moved clashes with one that is kept. -/
structure Sufficient (rewrite : DirectoryRewrite) (tree : GitTree)
    (listing : TreeListing) : Prop where
  complete : ∀ blob ∈ tree.blobs, ∀ path,
    rewrite.place blob.path = some path → ∃ listed ∈ listing.blobs,
      rewrite.place listed.path = some path ∧ listed.SameContent blob
  apart : ∀ moved ∈ listing.blobs, ∀ kept ∈ listing.blobs,
    Beneath rewrite.directory moved.path →
    ¬Beneath rewrite.directory kept.path → ∀ path,
      rewrite.place moved.path = some path → Clash path kept.path →
        path = kept.path ∧ moved.SameContent kept

theorem place_outside {path : StoragePath}
    (outside : ¬Beneath rewrite.directory path) :
    rewrite.place path = some path := by
  rw [place, if_neg]
  rwa [startsUnder_iff]

theorem place_beneath {path : StoragePath}
    (beneath : Beneath rewrite.directory path) :
    rewrite.place path = rewrite.replace path := by
  rw [place, if_pos]
  rwa [startsUnder_iff]

theorem eq_of_path {first second : GitBlob} (path : first.path = second.path)
    (same : first.SameContent second) : first = second := by
  obtain ⟨mode, sha⟩ := same
  cases first
  cases second
  simp_all

/-- A rewrite frames if every blob of the old tree is in the new one at its
place. -/
theorem frames_iff {before after : GitTree} :
    rewrite.Frames before after ↔
      ∀ element ∈ rewrite.placed before.blobs, element ∈ after.blobs := by
  constructor
  · intro frames element placed
    obtain ⟨blob, member, goes, content⟩ := mem_placed.mp placed
    by_cases beneath : Beneath rewrite.directory blob.path
    · rw [place_beneath beneath] at goes
      cases rewrite with
      | delete directory => cases goes
      | move old new =>
          obtain ⟨moved, found, same, named⟩ := frames.moved old new rfl blob
            member beneath
          have path : moved.path = element.path := by
            change Beneath old blob.path at beneath
            rw [← Option.some.inj goes]
            apply components_injective
            rw [named, components_replaced beneath]
          have whole : moved = element := eq_of_path path
            ⟨same.1.trans content.1.symm, same.2.trans content.2.symm⟩
          exact whole ▸ found
    · rw [place_outside beneath] at goes
      rw [eq_of_path (Option.some.inj goes).symm content]
      exact frames.outside blob member beneath
  · intro placed
    constructor
    · intro blob member outside
      exact placed blob (mem_placed.mpr
        ⟨blob, member, place_outside outside, rfl, rfl⟩)
    · rintro old new rfl blob member beneath
      refine ⟨⟨new ++ blob.path.drop old.length, blob.mode, blob.sha⟩, ?_,
        ⟨rfl, rfl⟩, components_replaced beneath⟩
      exact placed _ (mem_placed.mpr
        ⟨blob, member, place_beneath beneath, rfl, rfl⟩)

section Github

variable {github : GitDataApi} {rewrite : DirectoryRewrite}
  {listing : TreeListing} {tree created : GitTree}

theorem collect_spec {collected : List GitBlob × Nat}
    (collects : listing.tree.foldl
      (collectEntry rewrite.directory rewrite.replace) ([], 0) = collected) :
    collected.1 = rewrite.placed listing.blobs ∧
      (collected.2 = 0 ↔
        ¬∃ blob ∈ listing.blobs, Beneath rewrite.directory blob.path) := by
  rw [rewrite.collect_eq, List.nil_append, Nat.zero_add] at collects
  subst collects
  refine ⟨rfl, ?_⟩
  rw [List.countP_eq_zero]
  simp only [startsUnder_iff, not_exists, not_and]
  rfl

theorem rewriteGithubDirectory_ok :
    rewriteGithubDirectory github rewrite.directory rewrite.replace =
        .ok (some created) ↔
      ∃ listing, github.getGitTree = .ok listing ∧
        (∃ blob ∈ listing.blobs, Beneath rewrite.directory blob.path) ∧
        github.createGitTree (rewrite.placed listing.blobs) = .ok created ∧
        github.createGitCommit = .ok () ∧ github.editRef = .ok () := by
  unfold rewriteGithubDirectory
  cases github.getGitTree with
  | error error => simp [bind, Except.bind]
  | ok listing =>
      simp only [bind, Except.bind, pure, Except.pure, Except.ok.injEq,
        exists_eq_left']
      generalize collects : listing.tree.foldl
        (collectEntry rewrite.directory rewrite.replace) ([], 0) = collected
      obtain ⟨elements, count⟩ := collect_spec collects
      rw [elements]
      by_cases nothing : collected.2 = 0
      · rw [if_pos nothing]
        simp [count.mp nothing]
      · have beneath := not_not.mp fun empty => nothing (count.mpr empty)
        rw [if_neg nothing]
        cases github.createGitTree (rewrite.placed listing.blobs) with
        | error error => simp
        | ok tree =>
            cases github.createGitCommit with
            | error error => simp
            | ok commit => cases github.editRef <;> simp [beneath]

theorem committed_eq_some :
    rewrite.committed github = some created ↔
      ∃ listing, github.getGitTree = .ok listing ∧
        rewrite.Accepted github listing created := by
  have committed : rewrite.committed github = some created ↔
      rewrite ≠ delete [] ∧
        rewriteGithubDirectory github rewrite.directory rewrite.replace =
          .ok (some created) := by
    cases rewrite with
    | move old new =>
        change (rewriteGithubDirectory github old
          (replace (move old new))).toOption.join = _ ↔
            _ ∧ rewriteGithubDirectory github old (replace (move old new)) = _
        cases rewriteGithubDirectory github old (replace (move old new)) with
        | error error => simp [Except.toOption]
        | ok answer => simp [Except.toOption]
    | delete directory =>
        change deleteGithubDirectory github directory = _ ↔
          _ ∧ rewriteGithubDirectory github directory (fun _ => none) = _
        unfold deleteGithubDirectory
        by_cases root : directory = []
        · simp [root]
        · rw [if_neg root]
          cases rewriteGithubDirectory github directory fun _ => none with
          | error error => simp
          | ok answer => simp [root]
  rw [committed, rewriteGithubDirectory_ok]
  constructor
  · rintro ⟨guarded, listing, answered, beneath, creates, commits, edits⟩
    exact ⟨listing, answered, guarded, beneath, creates, commits, edits⟩
  · rintro ⟨listing, answered, guarded, beneath, creates, commits, edits⟩
    exact ⟨guarded, listing, answered, beneath, creates, commits, edits⟩

/-- Under a sufficient listing the elements of the new tree do not clash. -/
theorem Sufficient.agree (sufficient : rewrite.Sufficient tree listing)
    (of_tree : listing.Of tree) :
    ∀ first ∈ rewrite.placed listing.blobs,
      ∀ second ∈ rewrite.placed listing.blobs,
        Clash first.path second.path → first = second := by
  -- A moved and a kept blob; the other order follows by symmetry.
  have mixed : ∀ first ∈ rewrite.placed listing.blobs,
      ∀ second ∈ rewrite.placed listing.blobs,
      ∀ moved ∈ listing.blobs, ∀ kept ∈ listing.blobs,
        Beneath rewrite.directory moved.path →
        ¬Beneath rewrite.directory kept.path →
        rewrite.place moved.path = some first.path →
        rewrite.place kept.path = some second.path →
        first.SameContent moved → second.SameContent kept →
        Clash first.path second.path → first = second := by
    intro first _ second _ moved movedIn kept keptIn beneath outside goes stays
      firstContent secondContent clash
    rw [place_outside outside] at stays
    rw [← Option.some.inj stays] at clash
    obtain ⟨path, same⟩ := sufficient.apart moved movedIn kept keptIn beneath
      outside first.path goes clash
    exact eq_of_path (path.trans (Option.some.inj stays))
      ⟨firstContent.1.trans (same.1.trans secondContent.1.symm),
        firstContent.2.trans (same.2.trans secondContent.2.symm)⟩
  intro first firstIn second secondIn clash
  obtain ⟨one, oneIn, oneAt, oneContent⟩ := mem_placed.mp firstIn
  obtain ⟨other, otherIn, otherAt, otherContent⟩ := mem_placed.mp secondIn
  have equal_blobs : one = other → first = second := by
    rintro rfl
    refine eq_of_path (Option.some.inj (oneAt.symm.trans otherAt))
      ⟨oneContent.1.trans otherContent.1.symm,
        oneContent.2.trans otherContent.2.symm⟩
  by_cases oneBeneath : Beneath rewrite.directory one.path
  · by_cases otherBeneath : Beneath rewrite.directory other.path
    · apply equal_blobs
      rw [place_beneath oneBeneath] at oneAt
      rw [place_beneath otherBeneath] at otherAt
      cases rewrite with
      | delete directory => cases oneAt
      | move old new =>
          rw [← Option.some.inj oneAt, ← Option.some.inj otherAt] at clash
          exact tree.consistent one (of_tree.sound one oneIn) other
            (of_tree.sound other otherIn)
            (clash.of_replaced oneBeneath otherBeneath)
    · exact mixed first firstIn second secondIn one oneIn other otherIn
        oneBeneath otherBeneath oneAt otherAt oneContent otherContent clash
  · by_cases otherBeneath : Beneath rewrite.directory other.path
    · exact (mixed second secondIn first firstIn other otherIn one oneIn
        otherBeneath oneBeneath otherAt oneAt otherContent oneContent
        clash.symm).symm
    · apply equal_blobs
      rw [place_outside oneBeneath] at oneAt
      rw [place_outside otherBeneath] at otherAt
      rw [← Option.some.inj oneAt, ← Option.some.inj otherAt] at clash
      exact tree.consistent one (of_tree.sound one oneIn) other
        (of_tree.sound other otherIn) clash

/-- A new tree that frames shows that the listing was sufficient. -/
theorem Frames.sufficient (frames : rewrite.Frames tree created)
    (of_tree : listing.Of tree)
    (sound : ∀ blob ∈ created.blobs, blob ∈ rewrite.placed listing.blobs) :
    rewrite.Sufficient tree listing := by
  rw [frames_iff] at frames
  constructor
  · intro blob member path goes
    have element := sound _ (frames ⟨path, blob.mode, blob.sha⟩
      (mem_placed.mpr ⟨blob, member, goes, rfl, rfl⟩))
    obtain ⟨listed, listedIn, listedAt, content⟩ := mem_placed.mp element
    exact ⟨listed, listedIn, listedAt, content.1.symm, content.2.symm⟩
  · intro moved movedIn kept keptIn beneath outside path goes clash
    have arrives := frames ⟨path, moved.mode, moved.sha⟩ (mem_placed.mpr
      ⟨moved, of_tree.sound moved movedIn, goes, rfl, rfl⟩)
    have stays := frames kept (mem_placed.mpr
      ⟨kept, of_tree.sound kept keptIn, place_outside outside, rfl, rfl⟩)
    have same := created.consistent _ arrives _ stays clash
    subst same
    exact ⟨rfl, rfl, rfl⟩

/-- The commit of a rewrite leaves the rest of the tree alone if and only if
the listing it was built from was sufficient. -/
theorem committed_frames_iff (lawful : github.Lawful) (tree : GitTree)
    (of_tree : ∀ listing, github.getGitTree = .ok listing → listing.Of tree)
    (rewrite : DirectoryRewrite) :
    (∀ created, rewrite.committed github = some created →
        rewrite.Frames tree created) ↔
      ∀ listing created, github.getGitTree = .ok listing →
        rewrite.Accepted github listing created →
          rewrite.Sufficient tree listing := by
  constructor
  · intro framed listing created answered accepted
    have frames := framed created
      (committed_eq_some.mpr ⟨listing, answered, accepted⟩)
    exact frames.sufficient (of_tree listing answered)
      (lawful.sound _ created accepted.creates)
  · intro sufficient created committed
    obtain ⟨listing, answered, accepted⟩ := committed_eq_some.mp committed
    have enough := sufficient listing created answered accepted
    rw [frames_iff]
    intro element placed
    obtain ⟨blob, member, goes, content⟩ := mem_placed.mp placed
    obtain ⟨listed, listedIn, listedAt, same⟩ := enough.complete blob member
      element.path goes
    apply lawful.complete _ created accepted.creates
      (enough.agree (of_tree listing answered))
    exact mem_placed.mpr ⟨listed, listedIn, listedAt,
      content.1.trans same.1.symm, content.2.trans same.2.symm⟩

end Github

/-- A file in each of two directories. -/
def twoFiles : List GitBlob :=
  [⟨"a/f.1".toList, "100644", "e69de29"⟩,
    ⟨"b/g.2".toList, "100644", "e69de29"⟩]

def twoFilesTree : GitTree := ⟨twoFiles, by decide +kernel⟩

/-- GitHub with a listing of the blobs; it refuses elements that clash. -/
def listingApi (blobs : List GitBlob) (truncated : Bool) : GitDataApi :=
  { getGitTree := .ok
      ⟨blobs.map fun blob => ⟨.blob, blob.path, blob.mode, blob.sha⟩,
        truncated⟩
    createGitTree := fun elements =>
      if consistent : ∀ first ∈ elements, ∀ second ∈ elements,
          Clash first.path second.path → first = second then
        .ok ⟨elements, consistent⟩
      else .error (.status 422)
    createGitCommit := .ok ()
    editRef := .ok () }

theorem listingApi_lawful (blobs : List GitBlob) (truncated : Bool) :
    (listingApi blobs truncated).Lawful := by
  have created : ∀ elements tree,
      (listingApi blobs truncated).createGitTree elements = .ok tree →
        tree.blobs = elements := by
    intro elements tree creates
    simp only [listingApi] at creates
    split at creates
    · cases creates
      rfl
    · cases creates
  constructor
  · intro elements tree creates blob member
    exact created elements tree creates ▸ member
  · intro elements tree creates _ blob member
    exact (created elements tree creates).symm ▸ member

/-- A complete listing: the directory `a` moves to `c`, and `b` stays. -/
theorem committed_frames_complete :
    ∃ created, (move ['a'] ['c']).committed (listingApi twoFiles false) =
      some created ∧ (move ['a'] ['c']).Frames twoFilesTree created := by
  have frames : ∀ created, (move ['a'] ['c']).committed
      (listingApi twoFiles false) = some created →
        (move ['a'] ['c']).Frames twoFilesTree created := by
    refine (committed_frames_iff (listingApi_lawful _ _) twoFilesTree ?_
      _).mpr ?_
    · intro listing answered
      cases answered
      exact ⟨by decide +kernel, by decide +kernel⟩
    · intro listing created answered _
      cases answered
      refine ⟨?_, by decide +kernel⟩
      intro blob member path goes
      exact ⟨blob, member, goes, rfl, rfl⟩
  have committed : (move ['a'] ['c']).committed (listingApi twoFiles false) =
      some ⟨[⟨"c/f.1".toList, "100644", "e69de29"⟩,
        ⟨"b/g.2".toList, "100644", "e69de29"⟩], by decide +kernel⟩ := rfl
  exact ⟨_, committed, frames _ committed⟩

/-- A listing that was cut off before `b/g.2`, and says so: the commit of the
move has lost that file. -/
theorem truncated_listing_loses_file :
    TreeListing.Of twoFilesTree
        ⟨[⟨.blob, "a/f.1".toList, "100644", "e69de29"⟩], true⟩ ∧
      ∃ created, (move ['a'] ['c']).committed
          (listingApi (twoFiles.take 1) true) = some created ∧
        ¬(move ['a'] ['c']).Frames twoFilesTree created := by
  refine ⟨⟨by decide +kernel, by decide +kernel⟩, ?_⟩
  refine ⟨⟨[⟨"c/f.1".toList, "100644", "e69de29"⟩], by decide +kernel⟩, ?_,
    ?_⟩
  · rfl
  · intro frames
    have kept := frames.outside ⟨"b/g.2".toList, "100644", "e69de29"⟩
      (by decide +kernel) (by decide +kernel)
    exact absurd kept (by decide +kernel)

end DirectoryRewrite

end Tgdcfs
