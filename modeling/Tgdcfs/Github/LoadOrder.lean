import Tgdcfs.Github.LoadEntries

/-!
# Order and completeness of a load

Everything behind an entry that ends the load is missing.  The load is
complete in every order of the entries exactly if nothing that ends it can
leave anything out.
-/

namespace Tgdcfs

/-- The entry brings a directory with these names. -/
def TreeEntry.Offers (nameKey : Option NameCipher) (entry : TreeEntry)
    (names : List Name) : Prop :=
  ∃ path, entry.Brings nameKey path ∧ decodedPath nameKey path = names

/-- The entry has a file for a directory with these names. -/
def TreeEntry.OffersFile (nameKey : Option NameCipher) (entry : TreeEntry)
    (names : List Name) (file : LoadedFile) : Prop :=
  ∃ path, entry.Puts nameKey path file ∧ decodedPath nameKey path = names

/-- The tree holds the directory of every tree entry below valid names and
the file of every blob entry that parses, or for a file whose path is taken
the one that took it; and it holds no other file. -/
structure LoadsAll (nameKey : Option NameCipher) (entries : List TreeEntry)
    (loaded : LoadedTree) : Prop where
  directories : ∀ entry ∈ entries, entry.type = .tree →
    ValidPath nameKey entry.path →
      loaded.HasDirectory (decodedPath nameKey entry.path)
  files : ∀ entry ∈ entries, ∀ names file,
    entry.OffersFile nameKey names file →
      ∃ kept, kept.name = file.name ∧ loaded.HasFile names kept
  sound : ∀ names file, loaded.HasFile names file →
    ∃ entry ∈ entries, entry.OffersFile nameKey names file

/-- The same directories, and files at the same paths. -/
structure SamePaths (loaded other : LoadedTree) : Prop where
  directories : ∀ names,
    loaded.HasDirectory names ↔ other.HasDirectory names
  files : ∀ names name, (∃ file, file.name = name ∧
    loaded.HasFile names file) ↔
      ∃ file, file.name = name ∧ other.HasFile names file

/-- No order of the entries loses one. -/
structure OrderIndependent (nameKey : Option NameCipher)
    (entries : List TreeEntry) : Prop where
  complete : LoadsAll nameKey entries (buildFromTree nameKey entries)
  permuted : ∀ order, order.Perm entries →
    SamePaths (buildFromTree nameKey order) (buildFromTree nameKey entries)

/-- Everything the list offers is offered by an entry alone. -/
def TreeEntry.Covers (nameKey : Option NameCipher) (entry : TreeEntry)
    (entries : List TreeEntry) : Prop :=
  ∀ other ∈ entries,
    (∀ names, other.Offers nameKey names → entry.Offers nameKey names) ∧
    ∀ names file, other.OffersFile nameKey names file →
      ∃ kept, kept.name = file.name ∧ entry.OffersFile nameKey names kept

/-- An entry that ends the load would be no loss: there is nothing else. -/
structure EndsHarmlessly (nameKey : Option NameCipher)
    (entries : List TreeEntry) : Prop where
  invalid : ∀ entry ∈ entries, entry.Invalid nameKey →
    entry.Covers nameKey entries
  collision : ∀ first second rest, (first :: second :: rest).Perm entries →
    TreeEntry.Collide nameKey first second → first.Covers nameKey entries

section Order

variable {nameKey : Option NameCipher} {loaded : LoadedTree}
  {done : List TreeEntry}

open LoadedTree

variable {names : List Name}

theorem LoadedTree.Reflects.directory_iff
    (reflects : loaded.Reflects nameKey done) :
    loaded.HasDirectory names ↔
      names = [] ∨ ∃ entry ∈ done, entry.Offers nameKey names := by
  unfold HasDirectory
  simp only [reflects.sound.walks_iff, reflects.has]
  constructor
  · rintro ⟨node, rfl | ⟨entry, member, brings⟩, decoded⟩
    · rw [decodedPath_root] at decoded
      exact .inl decoded.symm
    · exact .inr ⟨entry, member, node, brings, decoded⟩
  · rintro (rfl | ⟨entry, member, node, brings, decoded⟩)
    · exact ⟨[], .inl rfl, decodedPath_root nameKey⟩
    · exact ⟨node, .inr ⟨entry, member, brings⟩, decoded⟩

variable {file : LoadedFile}

theorem LoadedTree.Reflects.file_offered
    (reflects : loaded.Reflects nameKey done) (has : loaded.HasFile names file)
    : ∃ entry ∈ done, entry.OffersFile nameKey names file := by
  obtain ⟨node, walks, member⟩ := has
  obtain ⟨_, decoded⟩ := reflects.sound.walks_iff.mp walks
  obtain ⟨entry, handled, puts⟩ := reflects.files node file member
  exact ⟨entry, handled, node, puts, decoded⟩

variable {entry : TreeEntry}

theorem LoadedTree.Reflects.file_kept (reflects : loaded.Reflects nameKey done)
    (handled : entry ∈ done) (offers : entry.OffersFile nameKey names file) :
    ∃ kept, kept.name = file.name ∧ loaded.HasFile names kept := by
  obtain ⟨path, puts, decoded⟩ := offers
  obtain ⟨kept, member, named⟩ := reflects.named entry handled path file puts
  have brings : entry.Brings nameKey path := ⟨path, puts.1, .self, puts.2.2⟩
  have has : loaded.Has path :=
    (reflects.has path).mpr (.inr ⟨entry, handled, brings⟩)
  exact ⟨kept, named, path, reflects.sound.walks_iff.mpr ⟨has, decoded⟩,
    member⟩

theorem reflects_build (nameKey : Option NameCipher)
    (order : List TreeEntry) :
    (buildFromTree nameKey order).Reflects nameKey order ∨
      ∃ before entry after, order = before ++ entry :: after ∧
        Ends nameKey before entry ∧
        (buildFromTree nameKey order).Reflects nameKey
          (before ++ [entry]) :=
  rootOnly_reflects.addEntries order

theorem ancestor_root (path : StoragePath) : Ancestor [] path := by
  induction length : path.length using Nat.strong_induction_on
    generalizing path with
  | _ length ih =>
      by_cases root : path = []
      · rw [root]
        exact .self
      · exact .up root (ih _ (length ▸ parentPath_length root) _ rfl)

theorem offers_root {directory : StoragePath}
    (asked : entry.directory = some directory) : entry.Offers nameKey [] :=
  ⟨[], ⟨directory, asked, ancestor_root directory, .root⟩,
    decodedPath_root nameKey⟩

variable {first second : TreeEntry}

theorem offers_of_collide (collide : TreeEntry.Collide nameKey first second)
    (offers : second.Offers nameKey names) : first.Offers nameKey names := by
  obtain ⟨path, one, other, firstPuts, secondPuts, _⟩ := collide
  obtain ⟨node, brings, decoded⟩ := offers
  rw [brings_iff secondPuts.1] at brings
  exact ⟨node, (brings_iff firstPuts.1 node).mpr brings, decoded⟩

theorem offersFile_of_collide
    (collide : TreeEntry.Collide nameKey first second)
    (offers : second.OffersFile nameKey names file) :
    ∃ kept, kept.name = file.name ∧
      first.OffersFile nameKey names kept := by
  obtain ⟨path, one, other, firstPuts, secondPuts, named⟩ := collide
  obtain ⟨node, puts, decoded⟩ := offers
  obtain ⟨rfl, offered, _⟩ := (puts_iff secondPuts.1 node).mp puts
  rw [secondPuts.2.1] at offered
  cases offered
  exact ⟨one, named, node, firstPuts, decoded⟩

/-- The tree shows what the entries offer. -/
structure Shows (nameKey : Option NameCipher) (loaded : LoadedTree)
    (entries : List TreeEntry) : Prop where
  directories : ∀ names, loaded.HasDirectory names ↔
    names = [] ∨ ∃ entry ∈ entries, entry.Offers nameKey names
  files : ∀ names name, (∃ file, file.name = name ∧
    loaded.HasFile names file) ↔ ∃ entry ∈ entries, ∃ file,
      file.name = name ∧ entry.OffersFile nameKey names file

theorem LoadedTree.Reflects.shows
    (reflects : loaded.Reflects nameKey done) :
    Shows nameKey loaded done := by
  refine ⟨fun names => reflects.directory_iff, ?_⟩
  intro names name
  constructor
  · rintro ⟨file, rfl, has⟩
    obtain ⟨entry, handled, offers⟩ := reflects.file_offered has
    exact ⟨entry, handled, file, rfl, offers⟩
  · rintro ⟨entry, handled, file, rfl, offers⟩
    exact reflects.file_kept handled offers

variable {entries : List TreeEntry}

/-- More entries that an entry of the list covers show nothing new. -/
theorem Shows.of_covers (shows : Shows nameKey loaded done)
    (member : entry ∈ done) (subset : ∀ other ∈ done, other ∈ entries)
    (covers : entry.Covers nameKey entries) :
    Shows nameKey loaded entries := by
  constructor
  · intro names
    rw [shows.directories]
    constructor
    · rintro (root | ⟨other, handled, offers⟩)
      · exact .inl root
      · exact .inr ⟨other, subset other handled, offers⟩
    · rintro (root | ⟨other, listed, offers⟩)
      · exact .inl root
      · exact .inr ⟨entry, member, (covers other listed).1 names offers⟩
  · intro names name
    rw [shows.files]
    constructor
    · rintro ⟨other, handled, file, rfl, offers⟩
      exact ⟨other, subset other handled, file, rfl, offers⟩
    · rintro ⟨other, listed, file, rfl, offers⟩
      obtain ⟨kept, named, keeps⟩ := (covers other listed).2 names file offers
      exact ⟨entry, member, kept, named, keeps⟩

theorem Shows.perm (shows : Shows nameKey loaded done)
    (perm : done.Perm entries) : Shows nameKey loaded entries := by
  constructor
  · intro names
    rw [shows.directories]
    simp only [perm.mem_iff]
  · intro names name
    rw [shows.files]
    simp only [perm.mem_iff]

theorem EndsHarmlessly.shows (harmless : EndsHarmlessly nameKey entries)
    {order : List TreeEntry} (perm : order.Perm entries) :
    Shows nameKey (buildFromTree nameKey order) entries := by
  rcases reflects_build nameKey order with
    all | ⟨before, entry, after, parts, ends, upTo⟩
  · exact all.shows.perm perm
  · have subset : ∀ other ∈ before ++ [entry], other ∈ entries := by
      intro other member
      rw [← perm.mem_iff, parts]
      simp only [List.mem_append, List.mem_cons] at member ⊢
      tauto
    rcases ends with invalid | ⟨earlier, handled, collide⟩
    · exact upTo.shows.of_covers (List.mem_append_right _ List.mem_cons_self)
        subset (harmless.invalid entry
          (subset entry (List.mem_append_right _ List.mem_cons_self)) invalid)
    · obtain ⟨start, middle, rfl⟩ := List.append_of_mem handled
      have front : (earlier :: entry :: (start ++ (middle ++ after))).Perm
          entries := by
        refine List.Perm.trans ?_ (parts ▸ perm)
        rw [List.append_assoc, List.cons_append]
        refine List.Perm.trans ?_ List.perm_middle.symm
        refine List.Perm.cons earlier ?_
        rw [← List.append_assoc, ← List.append_assoc]
        exact List.perm_middle.symm
      exact upTo.shows.of_covers (List.mem_append_left _ handled) subset
        (harmless.collision earlier entry _ front collide)

theorem shown_first (nameKey : Option NameCipher) (entry : TreeEntry)
    (rest : List TreeEntry) :
    (∀ names, entry.Offers nameKey names →
      (buildFromTree nameKey (entry :: rest)).HasDirectory names) ∧
    ∀ names file, entry.OffersFile nameKey names file →
      ∃ kept, kept.name = file.name ∧
        (buildFromTree nameKey (entry :: rest)).HasFile names kept := by
  have handled : ∃ done, entry ∈ done ∧
      (buildFromTree nameKey (entry :: rest)).Reflects nameKey done := by
    rcases reflects_build nameKey (entry :: rest) with
      all | ⟨before, last, after, parts, _, upTo⟩
    · exact ⟨_, List.mem_cons_self, all⟩
    · refine ⟨_, ?_, upTo⟩
      cases before with
      | nil =>
          cases parts
          exact List.mem_cons_self
      | cons first before =>
          cases parts
          exact List.mem_cons_self
  obtain ⟨done, member, reflects⟩ := handled
  refine ⟨?_, ?_⟩
  · intro names offers
    exact reflects.directory_iff.mpr (.inr ⟨entry, member, offers⟩)
  · intro names file offers
    exact reflects.file_kept member offers

/-- Where an order shows only what one entry offers, that entry covers all of
them. -/
theorem OrderIndependent.covers
    (independent : OrderIndependent nameKey entries) {order : List TreeEntry}
    (perm : order.Perm entries)
    (directories : ∀ names,
      (buildFromTree nameKey order).HasDirectory names →
        entry.Offers nameKey names)
    (files : ∀ names file, (buildFromTree nameKey order).HasFile names file →
      ∃ kept, kept.name = file.name ∧
        entry.OffersFile nameKey names kept) :
    entry.Covers nameKey entries := by
  intro other member
  obtain ⟨before, after, parts⟩ := List.append_of_mem member
  have front : (other :: (before ++ after)).Perm entries := by
    rw [parts]
    exact List.perm_middle.symm
  have samePaths := independent.permuted _ front
  have target := independent.permuted _ perm
  obtain ⟨shownDirectories, shownFiles⟩ :=
    shown_first nameKey other (before ++ after)
  refine ⟨?_, ?_⟩
  · intro names offers
    apply directories
    rw [target.directories, ← samePaths.directories]
    exact shownDirectories names offers
  · intro names file offers
    obtain ⟨found, named, has⟩ := (target.files names file.name).mpr
      ((samePaths.files names file.name).mp (shownFiles names file offers))
    obtain ⟨kept, sameName, keeps⟩ := files names found has
    exact ⟨kept, sameName.trans named, keeps⟩

theorem reflects_collision (collide : TreeEntry.Collide nameKey first second)
    (rest : List TreeEntry) :
    (buildFromTree nameKey (first :: second :: rest)).Reflects nameKey
      [first, second] := by
  have goesOn : ¬Ends nameKey [] first := by
    rintro (⟨directory, asked, invalid⟩ | ⟨earlier, absurd, _⟩)
    · obtain ⟨path, one, other, puts, _⟩ := collide
      rw [puts.1] at asked
      cases asked
      exact invalid puts.2.2
    · cases absurd
  obtain ⟨reached, handled, same⟩ := rootOnly_reflects.addEntry_goes_on goesOn
    (second :: rest)
  unfold buildFromTree
  rw [same]
  exact handled.addEntry_ends
    (.inr ⟨first, List.mem_cons_self, collide⟩) rest

/-- The load is complete in every order if and only if an entry that ends it
leaves nothing out. -/
theorem orderIndependent_iff (nameKey : Option NameCipher)
    (entries : List TreeEntry) :
    OrderIndependent nameKey entries ↔ EndsHarmlessly nameKey entries := by
  constructor
  · intro independent
    constructor
    · intro entry member invalid
      obtain ⟨before, after, rfl⟩ := List.append_of_mem member
      have reflects : (buildFromTree nameKey
          (entry :: (before ++ after))).Reflects nameKey [entry] :=
        rootOnly_reflects.addEntry_ends (.inl invalid) _
      obtain ⟨directory, asked, _⟩ := invalid
      refine independent.covers List.perm_middle.symm ?_ ?_
      · intro names has
        rcases reflects.directory_iff.mp has with
          rfl | ⟨other, handled, offers⟩
        · exact offers_root asked
        · cases List.mem_singleton.mp handled
          exact offers
      · intro names file has
        obtain ⟨other, handled, offers⟩ := reflects.file_offered has
        cases List.mem_singleton.mp handled
        exact ⟨file, rfl, offers⟩
    · intro first second rest perm collide
      have asked : ∃ directory, first.directory = some directory := by
        obtain ⟨path, one, other, puts, _⟩ := collide
        exact ⟨path, puts.1⟩
      have reflects : (buildFromTree nameKey
          (first :: second :: rest)).Reflects nameKey [first, second] :=
        reflects_collision collide rest
      obtain ⟨directory, asked⟩ := asked
      refine independent.covers perm ?_ ?_
      · intro names has
        rcases reflects.directory_iff.mp has with
          rfl | ⟨other, handled, offers⟩
        · exact offers_root asked
        · rcases List.mem_pair.mp handled with rfl | rfl
          · exact offers
          · exact offers_of_collide collide offers
      · intro names file has
        obtain ⟨other, handled, offers⟩ := reflects.file_offered has
        rcases List.mem_pair.mp handled with rfl | rfl
        · exact ⟨file, rfl, offers⟩
        · exact offersFile_of_collide collide offers
  · intro harmless
    have whole := harmless.shows (List.Perm.refl entries)
    constructor
    · constructor
      · intro entry member isTree valid
        refine (whole.directories _).mpr (.inr ⟨entry, member, entry.path,
          ⟨entry.path, ?_, .self, valid⟩, rfl⟩)
        unfold TreeEntry.directory
        rw [isTree]
      · intro entry member names file offers
        exact (whole.files names file.name).mpr
          ⟨entry, member, file, rfl, offers⟩
      · intro names file has
        rcases reflects_build nameKey entries with
          all | ⟨before, entry, after, parts, _, upTo⟩
        · exact all.file_offered has
        · obtain ⟨other, handled, offers⟩ := upTo.file_offered has
          refine ⟨other, ?_, offers⟩
          rw [parts]
          simp only [List.mem_append, List.mem_cons] at handled ⊢
          tauto
    · intro order perm
      have other := harmless.shows perm
      constructor
      · intro names
        rw [other.directories, whole.directories]
      · intro names name
        rw [other.files, whole.files]

end Order

/-- Two refs of the file `f` and a third file. -/
def collidingEntries : List TreeEntry :=
  [⟨.blob, "f.1".toList, "100644", "e69de29"⟩,
    ⟨.blob, "f.2".toList, "100644", "e69de29"⟩,
    ⟨.blob, "g.3".toList, "100644", "e69de29"⟩]

/-- The second `f` ends the load, and `g` is not in the tree. -/
theorem collision_hides_file : ¬OrderIndependent none collidingEntries := by
  intro independent
  have offers : TreeEntry.OffersFile none
      ⟨.blob, "g.3".toList, "100644", "e69de29"⟩ [] ⟨['g'], 3⟩ :=
    ⟨[], ⟨by decide +kernel, by decide +kernel, .root⟩,
      decodedPath_root none⟩
  obtain ⟨kept, named, node, walks, member⟩ := independent.complete.files _
    (by simp [collidingEntries]) [] _ offers
  cases walks
  have files : (buildFromTree none collidingEntries).filesAt [] =
      [⟨['f'], 1⟩] := by
    decide +kernel
  rw [files, List.mem_singleton] at member
  subst member
  exact absurd named (by decide)

end Tgdcfs
