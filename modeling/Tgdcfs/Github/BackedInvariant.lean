import Tgdcfs.Github.BackedPaths

/-!
# What the repository holds of the tree

`Backed` is the invariant of the tree and its branch: every directory has its
placeholder and every file one blob, where a load finds them, and there is no
other blob that a load would read.  This module says how it survives a change
of both sides, without asking how the change was made.
-/

namespace Tgdcfs

open Lib

/-- The ref has a name and a number that can be read back from a path. -/
def FileRef.Plain (file : FileRef) : Prop :=
  '/' ∉ file.name ∧ ∃ value : Nat, value < 10 ^ maxDigits ∧
    file.messageId = value

/-- The ref may be stored under this segment, encrypted or not. -/
def FileRef.FormOf (nameKey : Option PathNameKey) (file : FileRef)
    (segment : List Char) : Prop :=
  ∃ encrypted, ReadableName nameKey encrypted file.name ∧
    segment = refSegment (storedForm nameKey encrypted file.name)
      file.messageId

section Forms

variable {nameKey : Option PathNameKey} {file other : FileRef}
  {segment : List Char}

theorem FileRef.FormOf.named (form : file.FormOf nameKey segment)
    (plain : file.Plain) : Named [segment] := by
  obtain ⟨encrypted, _, rfl⟩ := form
  obtain ⟨free, value, _, number⟩ := plain
  rw [number]
  exact refSegment_named (storedForm_free free)

theorem FileRef.FormOf.reserved (form : file.FormOf nameKey segment)
    (plain : file.Plain) : segment ≠ GITKEEP ∧ segment ≠ STATS_FILE_NAME := by
  obtain ⟨encrypted, _, rfl⟩ := form
  obtain ⟨_, value, short, number⟩ := plain
  rw [number]
  exact ⟨refSegment_ne_gitkeep short, refSegment_ne_stats short⟩

theorem FileRef.FormOf.same_name (form : file.FormOf nameKey segment)
    (again : other.FormOf nameKey segment) (plain : file.Plain)
    (otherPlain : other.Plain) : file.name = other.name := by
  obtain ⟨encrypted, readable, rfl⟩ := form
  obtain ⟨otherEncrypted, otherReadable, same⟩ := again
  obtain ⟨_, value, _, number⟩ := plain
  obtain ⟨_, another, _, otherNumber⟩ := otherPlain
  rw [number, otherNumber] at same
  exact storedForm_injective readable otherReadable
    (refSegment_injective same)

theorem FileRef.formOf_fileRefStorageName :
    file.FormOf nameKey
      (fileRefStorageName nameKey file.name file.messageId) :=
  ⟨true, readable_encrypted, rfl⟩

end Forms

namespace GithubTree

variable {nameKey : Option PathNameKey} {state next : GithubTree}

/-- What a blob of a directory may be called. -/
def Expected (nameKey : Option PathNameKey) (state : GithubTree) (id : Nat)
    (segment : List Char) : Prop :=
  segment = GITKEEP ∨ segment = STATS_FILE_NAME ∨
    ∃ file, state.tree.Lists id file ∧ file.FormOf nameKey segment

/-- The directories and files in memory are in the repository, each once and
readable, and nothing else is. -/
structure Backed (nameKey : Option PathNameKey) (state : GithubTree) :
    Prop where
  wellFormed : state.tree.WellFormed
  legible : state.Legible nameKey
  plain : ∀ id file, state.tree.Lists id file → file.Plain
  placeholder : ∀ id segments, state.StoredAt nameKey id segments → id ≠ 0 →
    state.branch.Holds (segments ++ [GITKEEP])
  stored : ∀ id segments file, state.StoredAt nameKey id segments →
    state.tree.Lists id file → ∃ segment, file.FormOf nameKey segment ∧
      state.branch.Holds (segments ++ [segment])
  single : ∀ id segments file first second,
    state.StoredAt nameKey id segments → state.tree.Lists id file →
    file.FormOf nameKey first → file.FormOf nameKey second →
    state.branch.Holds (segments ++ [first]) →
    state.branch.Holds (segments ++ [second]) → first = second
  sound : ∀ path, state.branch.Holds path → ∃ id segments last,
    path = segments ++ [last] ∧ state.StoredAt nameKey id segments ∧
      state.Expected nameKey id last

theorem StoredAt.congr (ups : next.tree.up = state.tree.up)
    (flags : next.storedEncrypted = state.storedEncrypted) {id : Nat}
    {segments : List (List Char)} :
    next.StoredAt nameKey id segments ↔
      state.StoredAt nameKey id segments := by
  simp only [StoredAt, segmentsOf, ups, flags]

theorem Expected.mono {id : Nat} {segment : List Char}
    (expected : state.Expected nameKey id segment)
    (lists : ∀ file, file.FormOf nameKey segment →
      state.tree.Lists id file → next.tree.Lists id file) :
    next.Expected nameKey id segment := by
  rcases expected with rfl | rfl | ⟨file, listed, form⟩
  · exact .inl rfl
  · exact .inr (.inl rfl)
  · exact .inr (.inr ⟨file, lists file form listed, form⟩)

namespace Backed

variable {id : Nat} {segments : List (List Char)}

theorem expected (backed : state.Backed nameKey) {last : List Char}
    (stored : state.StoredAt nameKey id segments)
    (held : state.branch.Holds (segments ++ [last])) :
    state.Expected nameKey id last := by
  obtain ⟨other, above, segment, same, storedOther, expected⟩ :=
    backed.sound _ held
  obtain ⟨rfl, rfl⟩ := List.append_singleton_inj.mp same
  rw [stored.injective backed.wellFormed backed.legible storedOther]
  exact expected

variable {file : FileRef}

theorem ref_of_name (backed : state.Backed nameKey) {other : FileRef}
    (listed : state.tree.Lists id file)
    (otherListed : state.tree.Lists id other) (same : file.name = other.name) :
    file = other := by
  obtain ⟨dir, found, member⟩ := listed
  obtain ⟨again, foundAgain, otherMember⟩ := otherListed
  rw [found] at foundAgain
  cases foundAgain
  exact List.inj_on_of_nodup_map (backed.wellFormed.files id dir found) member
    otherMember same

variable {segment : List Char}

variable (backed : state.Backed nameKey)
include backed

theorem file_unique {other : FileRef} (listed : state.tree.Lists id file)
    (otherListed : state.tree.Lists id other)
    (form : file.FormOf nameKey segment) (again : other.FormOf nameKey segment)
    : file = other :=
  backed.ref_of_name listed otherListed (form.same_name again
    (backed.plain id file listed) (backed.plain id other otherListed))

theorem not_held (stored : state.StoredAt nameKey id segments) :
    ¬state.branch.Holds segments := by
  intro held
  by_cases root : id = 0
  · subst root
    rw [stored.unique backed.wellFormed .root] at held
    obtain ⟨_, above, last, same, _⟩ := backed.sound _ held
    simp at same
  · have same := held.eq_of_prefix (backed.placeholder id segments stored root)
      (List.prefix_append ..)
    simp at same

/-- The invariant speaks of what hangs where, what is listed where and what
the branch holds. -/
theorem congr (wellFormed : next.tree.WellFormed)
    (ups : next.tree.up = state.tree.up)
    (flags : next.storedEncrypted = state.storedEncrypted)
    (lists : ∀ id file, next.tree.Lists id file ↔ state.tree.Lists id file)
    (holds : ∀ path, next.branch.Holds path ↔ state.branch.Holds path) :
    next.Backed nameKey := by
  constructor
  · exact wellFormed
  · intro id parent name above
    rw [ups] at above
    rw [flags]
    exact backed.legible id parent name above
  · intro id file listed
    exact backed.plain id file ((lists id file).mp listed)
  · intro id segments stored notRoot
    rw [holds]
    exact backed.placeholder id segments
      ((StoredAt.congr ups flags).mp stored) notRoot
  · intro id segments file stored listed
    simp only [holds]
    exact backed.stored id segments file
      ((StoredAt.congr ups flags).mp stored) ((lists id file).mp listed)
  · intro id segments file first second stored listed form again
    rw [holds, holds]
    exact backed.single id segments file first second
      ((StoredAt.congr ups flags).mp stored) ((lists id file).mp listed)
      form again
  · intro path held
    obtain ⟨id, segments, last, rfl, stored, expected⟩ :=
      backed.sound path ((holds path).mp held)
    exact ⟨id, segments, last, rfl, (StoredAt.congr ups flags).mpr stored,
      expected.mono fun file _ => (lists id file).mpr⟩

theorem stats {branch : GitTree}
    (holds : ∀ path, (∀ id segments, state.StoredAt nameKey id segments →
      path ≠ segments ++ [STATS_FILE_NAME]) →
        (branch.Holds path ↔ state.branch.Holds path)) :
    Backed nameKey { state with branch } := by
  -- A placeholder and a form of a file are no stats files.
  have kept : ∀ {segments : List (List Char)} {last : List Char},
      last ≠ STATS_FILE_NAME → (branch.Holds (segments ++ [last]) ↔
        state.branch.Holds (segments ++ [last])) := by
    intro segments last different
    apply holds
    intro other above _ same
    exact different (List.append_singleton_inj.mp same).2
  constructor
  · exact backed.wellFormed
  · exact backed.legible
  · exact backed.plain
  · intro id segments stored notRoot
    exact (kept (by decide)).mpr
      (backed.placeholder id segments stored notRoot)
  · intro id segments file stored listed
    obtain ⟨segment, form, held⟩ :=
      backed.stored id segments file stored listed
    have reserved := form.reserved (backed.plain id file listed)
    exact ⟨segment, form, (kept reserved.2).mpr held⟩
  · intro id segments file first second stored listed form again held
      heldAgain
    have reserved := form.reserved (backed.plain id file listed)
    have reservedAgain := again.reserved (backed.plain id file listed)
    exact backed.single id segments file first second stored listed form again
      ((kept reserved.2).mp held)
      ((kept reservedAgain.2).mp heldAgain)
  · intro path held
    by_cases stats : ∃ id segments, state.StoredAt nameKey id segments ∧
        path = segments ++ [STATS_FILE_NAME]
    · obtain ⟨id, segments, stored, rfl⟩ := stats
      exact ⟨id, segments, _, rfl, stored, .inr (.inl rfl)⟩
    · simp only [not_exists, not_and] at stats
      exact backed.sound path ((holds path stats).mp held)

theorem fileCreated {location : Nat} {above : List (List Char)}
    {created : DirectoryTree} {branch : GitTree}
    (stored : state.StoredAt nameKey location above)
    (creates : state.tree.createFileRef location file = .ok created)
    (plain : file.Plain) (form : file.FormOf nameKey segment)
    (holds : ∀ path, branch.Holds path ↔
      state.branch.Holds path ∨ path = above ++ [segment]) :
    Backed nameKey { state with tree := created, branch } := by
  obtain ⟨same, wellFormed⟩ := DirectoryTree.createFileRef_wellFormed
    backed.wellFormed creates
  obtain ⟨dir, found, free, _⟩ := DirectoryTree.createFileRef_ok creates
  have ups : created.up = state.tree.up := funext same.up_eq
  have places : ∀ {id segments},
      StoredAt nameKey { state with tree := created, branch } id segments ↔
        state.StoredAt nameKey id segments := by
    intro id segments
    refine StoredAt.congr ups ?_
    rfl
  have lists : ∀ {id other}, created.Lists id other ↔
      state.tree.Lists id other ∨ id = location ∧ other = file :=
    DirectoryTree.createFileRef_lists creates
  -- No file of the directory had the name.
  have unused : ∀ {other}, state.tree.Lists location other →
      other.name ≠ file.name := by
    rintro other ⟨listing, foundListing, member⟩ sameName
    rw [found] at foundListing
    cases foundListing
    have matching : other ∈ DirectoryTree.findFiles dir file.name :=
      List.mem_filter.mpr ⟨member, by simpa using sameName⟩
    rw [free] at matching
    cases matching
  -- What is held of the new file is the new blob.
  have fresh : ∀ {other}, file.FormOf nameKey other →
      ¬state.branch.Holds (above ++ [other]) := by
    intro other otherForm held
    have reserved := otherForm.reserved plain
    rcases backed.expected stored held with keep | stats | ⟨old, listed, again⟩
    · exact reserved.1 keep
    · exact reserved.2 stats
    · exact unused listed (again.same_name otherForm
        (backed.plain location old listed) plain)
  have plains : ∀ id other, created.Lists id other → other.Plain := by
    intro id other listed
    rcases lists.mp listed with before | ⟨_, rfl⟩
    · exact backed.plain id other before
    · exact plain
  -- A form of an old file is not where the new blob is.
  have old : ∀ {id segments other another},
      state.StoredAt nameKey id segments → state.tree.Lists id other →
      other.FormOf nameKey another → branch.Holds (segments ++ [another]) →
        state.branch.Holds (segments ++ [another]) := by
    intro id segments other another storedHere listed again held
    rcases (holds _).mp held with before | same
    · exact before
    · obtain ⟨rfl, rfl⟩ := List.append_singleton_inj.mp same
      cases storedHere.injective backed.wellFormed backed.legible stored
      exact (unused listed (again.same_name form
        (backed.plain _ other listed) plain)).elim
  constructor
  · exact wellFormed
  · intro id parent name hangs
    rw [ups] at hangs
    exact backed.legible id parent name hangs
  · exact plains
  · intro id segments storedHere notRoot
    exact (holds _).mpr (.inl (backed.placeholder id segments
      (places.mp storedHere) notRoot))
  · intro id segments other storedHere listed
    rcases lists.mp listed with before | ⟨rfl, rfl⟩
    · obtain ⟨another, again, held⟩ :=
        backed.stored id segments other (places.mp storedHere) before
      exact ⟨another, again, (holds _).mpr (.inl held)⟩
    · refine ⟨segment, form, (holds _).mpr (.inr ?_)⟩
      rw [(places.mp storedHere).unique backed.wellFormed stored]
  · intro id segments other first second storedHere listed firstForm
      secondForm firstHeld secondHeld
    have here := places.mp storedHere
    rcases lists.mp listed with before | ⟨rfl, rfl⟩
    · exact backed.single id segments other first second here before firstForm
        secondForm (old here before firstForm firstHeld)
        (old here before secondForm secondHeld)
    · cases here.unique backed.wellFormed stored
      have only : ∀ {another}, other.FormOf nameKey another →
          branch.Holds (above ++ [another]) → another = segment := by
        intro another again held
        rcases (holds _).mp held with before | same
        · exact (fresh again before).elim
        · exact (List.append_singleton_inj.mp same).2
      rw [only firstForm firstHeld, only secondForm secondHeld]
  · intro path held
    rcases (holds path).mp held with before | rfl
    · obtain ⟨id, segments, last, rfl, storedHere, expected⟩ :=
        backed.sound path before
      exact ⟨id, segments, last, rfl, places.mpr storedHere,
        expected.mono fun other _ listed => lists.mpr (.inl listed)⟩
    · exact ⟨location, above, segment, rfl, places.mpr stored,
        .inr (.inr ⟨file, lists.mpr (.inr ⟨rfl, rfl⟩), form⟩)⟩

omit backed

/-- Of a well-formed tree exactly the deleted file is gone. -/
theorem deleteFileRef_lists_iff {tree : DirectoryTree}
    (wellFormed : tree.WellFormed) {location id : Nat} {other : FileRef} :
    (tree.deleteFileRef location file).Lists id other ↔
      tree.Lists id other ∧ ¬(id = location ∧ other = file) := by
  rw [DirectoryTree.deleteFileRef, DirectoryTree.changeFiles_lists]
  constructor
  · rintro ⟨dir, found, member⟩
    by_cases here : id = location
    · rw [if_pos here] at member
      have nodup := (wellFormed.files id dir found).of_map
      rw [nodup.mem_erase_iff] at member
      exact ⟨⟨dir, found, member.2⟩, fun same => member.1 same.2⟩
    · rw [if_neg here] at member
      exact ⟨⟨dir, found, member⟩, fun same => here same.1⟩
  · rintro ⟨⟨dir, found, member⟩, different⟩
    refine ⟨dir, found, ?_⟩
    by_cases here : id = location
    · rw [if_pos here]
      exact (List.mem_erase_of_ne fun same => different ⟨here, same⟩).mpr
        member
    · rw [if_neg here]
      exact member

theorem fileDeleted (backed : state.Backed nameKey) {location : Nat}
    {above : List (List Char)} {branch : GitTree}
    (stored : state.StoredAt nameKey location above)
    (listed : state.tree.Lists location file)
    (form : file.FormOf nameKey segment)
    (was : state.branch.Holds (above ++ [segment]))
    (holds : ∀ path, branch.Holds path ↔
      state.branch.Holds path ∧ path ≠ above ++ [segment]) :
    Backed nameKey
      { state with
        tree := state.tree.deleteFileRef location file
        branch } := by
  obtain ⟨same, wellFormed⟩ := DirectoryTree.deleteFileRef_wellFormed
    backed.wellFormed location file
  have ups : (state.tree.deleteFileRef location file).up = state.tree.up :=
    funext same.up_eq
  have places : ∀ {id segments},
      StoredAt nameKey
          { state with
            tree := state.tree.deleteFileRef location file
            branch } id segments ↔
        state.StoredAt nameKey id segments := by
    intro id segments
    refine StoredAt.congr ups ?_
    rfl
  have lists : ∀ {id other},
      (state.tree.deleteFileRef location file).Lists id other ↔
        state.tree.Lists id other ∧ ¬(id = location ∧ other = file) :=
    deleteFileRef_lists_iff backed.wellFormed
  have reserved := form.reserved (backed.plain location file listed)
  constructor
  · exact wellFormed
  · intro id parent name hangs
    rw [ups] at hangs
    exact backed.legible id parent name hangs
  · intro id other left
    exact backed.plain id other (lists.mp left).1
  · intro id segments storedHere notRoot
    refine (holds _).mpr ⟨backed.placeholder id segments
      (places.mp storedHere) notRoot, ?_⟩
    intro same
    exact reserved.1 (List.append_singleton_inj.mp same).2.symm
  · intro id segments other storedHere left
    obtain ⟨before, different⟩ := lists.mp left
    have here := places.mp storedHere
    obtain ⟨another, again, held⟩ :=
      backed.stored id segments other here before
    refine ⟨another, again, (holds _).mpr ⟨held, ?_⟩⟩
    intro sameParts
    obtain ⟨rfl, rfl⟩ := List.append_singleton_inj.mp sameParts
    cases here.injective backed.wellFormed backed.legible stored
    exact different ⟨rfl, backed.file_unique before listed again form⟩
  · intro id segments other first second storedHere left firstForm secondForm
      firstHeld secondHeld
    exact backed.single id segments other first second (places.mp storedHere)
      (lists.mp left).1 firstForm secondForm ((holds _).mp firstHeld).1
      ((holds _).mp secondHeld).1
  · intro path held
    obtain ⟨before, different⟩ := (holds path).mp held
    obtain ⟨id, segments, last, rfl, storedHere, expected⟩ :=
      backed.sound path before
    refine ⟨id, segments, last, rfl, places.mpr storedHere, ?_⟩
    refine expected.mono fun other again listedHere =>
      lists.mpr ⟨listedHere, ?_⟩
    rintro ⟨rfl, rfl⟩
    -- The file had one form only, and that one was deleted.
    cases storedHere.unique backed.wellFormed stored
    apply different
    rw [backed.single _ _ other last segment storedHere listed again form
      before was]

end Backed

end GithubTree

end Tgdcfs
