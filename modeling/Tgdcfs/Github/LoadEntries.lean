import Tgdcfs.Github.LoadInvariant

/-!
# Entries of a load

An entry asks for a directory and may offer a file in it.  `Reflects` says
what the tree holds after some entries were handled, in whatever order.  The
load ends early at an entry below an invalid name and at a second file of the
same name in a directory.
-/

namespace Tgdcfs

open Lib

/-- The storage path of the directory that an entry asks for. -/
def TreeEntry.directory (entry : TreeEntry) : Option StoragePath :=
  match entry.type with
  | .tree => some entry.path
  | .commit => none
  | .blob =>
      let segment := lastSegment entry.path
      if segment = GITKEEP then none
      else if segment = STATS_FILE_NAME then some (parentPath entry.path)
      else (splitLast '.' segment).map fun _ => parentPath entry.path

/-- The file of a blob whose segment parses as `name.message_id`. -/
def TreeEntry.file (nameKey : Option NameCipher) (entry : TreeEntry) :
    Option LoadedFile :=
  if entry.type = .blob ∧ lastSegment entry.path ≠ GITKEEP ∧
      lastSegment entry.path ≠ STATS_FILE_NAME then
    (splitLast '.' (lastSegment entry.path)).bind fun parts =>
      (parseInt parts.2).map fun messageId =>
        ⟨(decodeName nameKey parts.1).1, messageId⟩
  else none

/-- The entry puts a file into the directory at the path. -/
def TreeEntry.Puts (nameKey : Option NameCipher) (entry : TreeEntry)
    (path : StoragePath) (file : LoadedFile) : Prop :=
  entry.directory = some path ∧ entry.file nameKey = some file ∧
    ValidPath nameKey path

/-- The entry brings the directory at the path into the tree. -/
def TreeEntry.Brings (nameKey : Option NameCipher) (entry : TreeEntry)
    (path : StoragePath) : Prop :=
  ∃ directory, entry.directory = some directory ∧ Ancestor path directory ∧
    ValidPath nameKey path

/-- The directory of the entry lies below an invalid name. -/
def TreeEntry.Invalid (nameKey : Option NameCipher) (entry : TreeEntry) :
    Prop :=
  ∃ directory, entry.directory = some directory ∧
    ¬ValidPath nameKey directory

/-- Two entries with files of the same name for the same directory. -/
def TreeEntry.Collide (nameKey : Option NameCipher)
    (first second : TreeEntry) : Prop :=
  ∃ path one other, first.Puts nameKey path one ∧
    second.Puts nameKey path other ∧ one.name = other.name

namespace LoadedTree

variable {nameKey : Option NameCipher} {loaded : LoadedTree}
  {done : List TreeEntry}

/-- The tree holds what the entries brought and put, and for files of the
same name one of them. -/
structure Reflects (nameKey : Option NameCipher) (loaded : LoadedTree)
    (done : List TreeEntry) : Prop where
  sound : loaded.Sound nameKey
  has : ∀ path, loaded.Has path ↔
    path = [] ∨ ∃ entry ∈ done, entry.Brings nameKey path
  files : ∀ path, ∀ file ∈ loaded.filesAt path,
    ∃ entry ∈ done, entry.Puts nameKey path file
  named : ∀ entry ∈ done, ∀ path file, entry.Puts nameKey path file →
    ∃ other ∈ loaded.filesAt path, other.name = file.name

theorem rootOnly_reflects : (rootOnly nameKey).Reflects nameKey [] := by
  refine ⟨rootOnly_sound, ?_, ?_, nofun⟩
  · intro path
    rw [rootOnly_has]
    simp
  · intro path file member
    unfold filesAt at member
    rw [rootOnly_get?] at member
    by_cases root : path = []
    · simp [root] at member
    · simp [root] at member

/-- What an entry does besides asking for its directory. -/
def finishEntry (nameKey : Option NameCipher) (reached : LoadedTree)
    (entry : TreeEntry) (path : StoragePath) :
    LoadedTree × Except LoadError Unit :=
  match entry.file nameKey with
  | some file => reached.attachFileRef path file
  | none =>
      if entry.type = .blob ∧ lastSegment entry.path = STATS_FILE_NAME then
        (⟨reached.dirs.modify path fun dir =>
          { dir with statsSha := some entry.sha }⟩, .ok ())
      else (reached, .ok ())

theorem addEntry_eq (entry : TreeEntry) :
    loaded.addEntry nameKey entry =
      entry.directory.elim (loaded, .ok ()) fun path =>
        andThen (loaded.dirAt nameKey path) fun reached =>
          reached.finishEntry nameKey entry path := by
  have different : GITKEEP ≠ STATS_FILE_NAME := by decide
  unfold addEntry TreeEntry.directory finishEntry TreeEntry.file
  cases entry.type with
  | tree =>
      simp only [reduceCtorEq, false_and, if_false, Option.elim_some]
      generalize loaded.dirAt nameKey entry.path = result
      obtain ⟨reached, outcome⟩ := result
      cases outcome <;> rfl
  | commit => rfl
  | blob =>
      by_cases keep : lastSegment entry.path = GITKEEP
      · simp [keep]
      · by_cases stats : lastSegment entry.path = STATS_FILE_NAME
        · simp [stats, different.symm]
        · dsimp only
          generalize splitLast '.' (lastSegment entry.path) = parts
          cases parts with
          | none => simp [keep, stats]
          | some parts =>
              obtain ⟨storedName, messageId⟩ := parts
              cases number : parseInt messageId with
              | none => simp [keep, stats, number]
              | some number => simp [keep, stats, number]

variable {entry : TreeEntry} {path : StoragePath}

/-- Files are put where the entry asked for its directory. -/
theorem puts_iff {file : LoadedFile} (asked : entry.directory = some path)
    (other : StoragePath) :
    entry.Puts nameKey other file ↔ other = path ∧
      entry.file nameKey = some file ∧ ValidPath nameKey path := by
  unfold TreeEntry.Puts
  rw [asked]
  constructor
  · rintro ⟨same, puts, valid⟩
    cases same
    exact ⟨rfl, puts, valid⟩
  · rintro ⟨rfl, puts, valid⟩
    exact ⟨rfl, puts, valid⟩

theorem brings_iff (asked : entry.directory = some path)
    (other : StoragePath) :
    entry.Brings nameKey other ↔
      Ancestor other path ∧ ValidPath nameKey other := by
  unfold TreeEntry.Brings
  rw [asked]
  constructor
  · rintro ⟨directory, same, brings⟩
    cases same
    exact brings
  · intro brings
    exact ⟨path, rfl, brings⟩

/-- The directory of an entry was reached; its file is still to come. -/
theorem Reflects.reached (reflects : loaded.Reflects nameKey done)
    (asked : entry.directory = some path) {reached : LoadedTree}
    {outcome : Except LoadError Unit}
    (reaches : Reaches nameKey loaded path (reached, outcome))
    (settled : ∀ file, entry.Puts nameKey path file →
      ∃ other ∈ loaded.filesAt path, other.name = file.name) :
    reached.Reflects nameKey (done ++ [entry]) := by
  refine ⟨reaches.sound, ?_, ?_, ?_⟩
  · intro other
    have has := reaches.has other
    dsimp only at has
    rw [has, reflects.has]
    simp only [List.mem_append, List.mem_singleton, or_and_right, exists_or,
      exists_eq_left, brings_iff asked, or_assoc]
  · intro other file member
    have files := reaches.files other
    dsimp only at files
    rw [files] at member
    obtain ⟨before, handled, puts⟩ := reflects.files other file member
    exact ⟨before, List.mem_append_left _ handled, puts⟩
  · intro handled member other file puts
    have files := reaches.files other
    dsimp only at files
    rw [files]
    rcases List.mem_append.mp member with before | last
    · exact reflects.named handled before other file puts
    · cases List.mem_singleton.mp last
      obtain ⟨rfl, _, _⟩ := (puts_iff asked other).mp puts
      exact settled file puts

/-- A change of the directory objects that keeps what the tree shows. -/
theorem Reflects.congr (reflects : loaded.Reflects nameKey done)
    {other : LoadedTree} (sound : other.Sound nameKey)
    (has : ∀ path, other.Has path ↔ loaded.Has path)
    (files : ∀ path, other.filesAt path = loaded.filesAt path) :
    other.Reflects nameKey done := by
  refine ⟨sound, ?_, ?_, ?_⟩
  · intro path
    rw [has]
    exact reflects.has path
  · intro path file member
    rw [files] at member
    exact reflects.files path file member
  · intro entry member path file puts
    rw [files]
    exact reflects.named entry member path file puts

/-- Changing a directory in other fields than name and children. -/
theorem Sound.modify (sound : loaded.Sound nameKey)
    {change : LoadedDirectory → LoadedDirectory}
    (name : ∀ dir, (change dir).name = dir.name)
    (children : ∀ dir, (change dir).children = dir.children) :
    (∀ other, LoadedTree.Has ⟨loaded.dirs.modify path change⟩ other ↔
      loaded.Has other) ∧
    LoadedTree.Sound nameKey ⟨loaded.dirs.modify path change⟩ := by
  have has : ∀ other, LoadedTree.Has ⟨loaded.dirs.modify path change⟩ other ↔
      loaded.Has other := by
    intro other
    unfold Has
    rw [Dict.get?_modify]
    split
    · cases loaded.dirs.get? other <;> simp
    · rfl
  have found : ∀ other dir,
      (loaded.dirs.modify path change).get? other = some dir →
        ∃ before, loaded.dirs.get? other = some before ∧
          dir.name = before.name ∧ dir.children = before.children := by
    intro other dir found
    rw [Dict.get?_modify] at found
    split at found
    · obtain ⟨before, was, rfl⟩ := Option.map_eq_some_iff.mp found
      exact ⟨before, was, name before, children before⟩
    · exact ⟨dir, found, rfl, rfl⟩
  refine ⟨has, (has _).mpr sound.root, ?_, ?_, ?_, ?_⟩
  · intro other present
    exact sound.valid other ((has other).mp present)
  · intro other present below
    exact (has _).mpr (sound.parents other ((has other).mp present) below)
  · intro other dir present below
    obtain ⟨before, was, sameName, _⟩ := found other dir present
    rw [sameName]
    exact sound.named other before was below
  · intro other dir present child
    obtain ⟨before, was, _, sameChildren⟩ := found other dir present
    rw [sameChildren, sound.children other before was child, has]

theorem attachFileRef_taken {file : LoadedFile}
    (taken : ∃ other ∈ loaded.filesAt path, other.name = file.name) :
    loaded.attachFileRef path file =
      (loaded, .error (.alreadyExists file.name)) := by
  unfold filesAt at taken
  unfold attachFileRef
  cases found : loaded.dirs.get? path with
  | none => simp [found] at taken
  | some dir =>
      simp only [found, Option.map_some, Option.getD_some] at taken
      dsimp only
      rw [if_pos]
      simpa using taken

theorem attachFileRef_free {file : LoadedFile} (present : loaded.Has path)
    (free : ¬∃ other ∈ loaded.filesAt path, other.name = file.name) :
    ∃ attached, loaded.attachFileRef path file = (attached, .ok ()) ∧
      (∀ other, attached.filesAt other =
        if other = path then loaded.filesAt path ++ [file]
        else loaded.filesAt other) ∧
      (loaded.Sound nameKey → (∀ other, attached.Has other ↔
        loaded.Has other) ∧ attached.Sound nameKey) := by
  obtain ⟨dir, found⟩ := present
  have absent : dir.files.any (·.name = file.name) ≠ true := by
    simpa [filesAt, found] using free
  refine ⟨⟨loaded.dirs.modify path fun dir =>
    { dir with files := dir.files ++ [file] }⟩, ?_, ?_,
    fun sound => sound.modify (fun _ => rfl) fun _ => rfl⟩
  · unfold attachFileRef
    rw [found]
    exact if_neg absent
  · intro other
    unfold filesAt
    dsimp only
    rw [Dict.get?_modify]
    by_cases same : other = path
    · subst same
      rw [if_pos rfl, if_pos rfl, found]
      rfl
    · rw [if_neg same, if_neg same]

/-- The file of an entry was attached in the directory that was reached. -/
theorem Reflects.attached (reflects : loaded.Reflects nameKey done)
    {file : LoadedFile} (puts : entry.Puts nameKey path file)
    {reached attached : LoadedTree} {outcome : Except LoadError Unit}
    (reaches : Reaches nameKey loaded path (reached, outcome))
    (sound : attached.Sound nameKey)
    (has : ∀ other, attached.Has other ↔ reached.Has other)
    (files : ∀ other, attached.filesAt other =
      if other = path then reached.filesAt path ++ [file]
      else reached.filesAt other) :
    attached.Reflects nameKey (done ++ [entry]) := by
  have kept : ∀ other, reached.filesAt other = loaded.filesAt other :=
    reaches.files
  refine ⟨sound, ?_, ?_, ?_⟩
  · intro other
    have reachedHas := reaches.has other
    dsimp only at reachedHas
    rw [has, reachedHas, reflects.has]
    simp only [List.mem_append, List.mem_singleton, or_and_right, exists_or,
      exists_eq_left, brings_iff puts.1, or_assoc]
  · intro other member_ member
    rw [files, kept, kept] at member
    by_cases same : other = path
    · subst same
      rw [if_pos rfl] at member
      rcases List.mem_append.mp member with before | last
      · obtain ⟨earlier, handled, earlierPuts⟩ :=
          reflects.files other member_ before
        exact ⟨earlier, List.mem_append_left _ handled, earlierPuts⟩
      · cases List.mem_singleton.mp last
        exact ⟨entry, List.mem_append_right _ List.mem_cons_self, puts⟩
    · rw [if_neg same] at member
      obtain ⟨earlier, handled, earlierPuts⟩ :=
        reflects.files other member_ member
      exact ⟨earlier, List.mem_append_left _ handled, earlierPuts⟩
  · intro handled member other named namedPuts
    rw [files, kept, kept]
    rcases List.mem_append.mp member with before | last
    · obtain ⟨found, foundIn, same⟩ :=
        reflects.named handled before other named namedPuts
      refine ⟨found, ?_, same⟩
      by_cases here : other = path
      · subst here
        rw [if_pos rfl]
        exact List.mem_append_left _ foundIn
      · rw [if_neg here]
        exact foundIn
    · cases List.mem_singleton.mp last
      obtain ⟨rfl, offered, _⟩ := (puts_iff puts.1 other).mp namedPuts
      rw [puts.2.1] at offered
      cases offered
      rw [if_pos rfl]
      exact ⟨file, List.mem_append_right _ List.mem_cons_self, rfl⟩

theorem Reflects.ignored (reflects : loaded.Reflects nameKey done)
    (asked : entry.directory = none) :
    loaded.Reflects nameKey (done ++ [entry]) := by
  refine ⟨reflects.sound, ?_, ?_, ?_⟩
  · intro path
    have nothing : ¬entry.Brings nameKey path := by
      rintro ⟨directory, absurd, _⟩
      rw [asked] at absurd
      cases absurd
    rw [reflects.has]
    simp [or_and_right, exists_or, nothing]
  · intro path file member
    obtain ⟨before, handled, puts⟩ := reflects.files path file member
    exact ⟨before, List.mem_append_left _ handled, puts⟩
  · intro handled member path file puts
    rcases List.mem_append.mp member with before | last
    · exact reflects.named handled before path file puts
    · cases List.mem_singleton.mp last
      have absurd := puts.1
      rw [asked] at absurd
      cases absurd

theorem Reflects.finish_none
    (reflects : loaded.Reflects nameKey (done ++ [entry]))
    (offered : entry.file nameKey = none) (path : StoragePath) :
    (loaded.finishEntry nameKey entry path).1.Reflects nameKey
        (done ++ [entry]) ∧
      (loaded.finishEntry nameKey entry path).2 = .ok () := by
  unfold finishEntry
  rw [offered]
  dsimp only
  split
  · obtain ⟨has, sound⟩ : (∀ other, LoadedTree.Has
        ⟨loaded.dirs.modify path fun dir =>
          { dir with statsSha := some entry.sha }⟩ other ↔
            loaded.Has other) ∧ LoadedTree.Sound nameKey
        ⟨loaded.dirs.modify path fun dir =>
          { dir with statsSha := some entry.sha }⟩ :=
      reflects.sound.modify (fun _ => rfl) fun _ => rfl
    refine ⟨reflects.congr sound has ?_, rfl⟩
    intro other
    unfold filesAt
    dsimp only
    rw [Dict.get?_modify]
    split
    · rw [Option.map_map]
      rfl
    · rfl
  · exact ⟨reflects, rfl⟩

theorem Reflects.finish_some (reflects : loaded.Reflects nameKey done)
    {file : LoadedFile} (puts : entry.Puts nameKey path file)
    {reached : LoadedTree}
    (reaches : Reaches nameKey loaded path (reached, .ok ())) :
    (reached.finishEntry nameKey entry path).1.Reflects nameKey
        (done ++ [entry]) ∧
      ((reached.finishEntry nameKey entry path).2 = .ok () ↔
        ∀ earlier ∈ done, ¬TreeEntry.Collide nameKey earlier entry) := by
  have finish : finishEntry nameKey reached entry path =
      reached.attachFileRef path file := by
    unfold finishEntry
    rw [puts.2.1]
  have files : reached.filesAt path = loaded.filesAt path :=
    reaches.files path
  rw [finish]
  by_cases taken : ∃ other ∈ reached.filesAt path, other.name = file.name
  · rw [attachFileRef_taken taken]
    rw [files] at taken
    refine ⟨reflects.reached puts.1 reaches ?_, ?_⟩
    · intro other otherPuts
      have same := otherPuts.2.1
      rw [puts.2.1] at same
      cases same
      exact taken
    · constructor
      · intro absurd
        cases absurd
      · intro apart
        obtain ⟨other, member, named⟩ := taken
        obtain ⟨earlier, handled, earlierPuts⟩ :=
          reflects.files path other member
        exact (apart earlier handled
          ⟨path, other, file, earlierPuts, puts, named⟩).elim
  · have present : reached.Has path :=
      (reaches.has path).mpr (.inr ⟨.self, puts.2.2⟩)
    obtain ⟨attached, attaches, attachedFiles, keeps⟩ :=
      attachFileRef_free present taken
    obtain ⟨has, sound⟩ := keeps reaches.sound
    rw [attaches]
    refine ⟨reflects.attached puts reaches sound has attachedFiles,
      fun _ => ?_, fun _ => rfl⟩
    rintro earlier handled ⟨other, one, two, earlierPuts, latePuts, named⟩
    obtain ⟨rfl, offered, _⟩ := (puts_iff puts.1 other).mp latePuts
    rw [puts.2.1] at offered
    cases offered
    rw [files] at taken
    obtain ⟨found, foundIn, same⟩ :=
      reflects.named earlier handled other one earlierPuts
    exact taken ⟨found, foundIn, same.trans named⟩

theorem Reflects.addEntry (reflects : loaded.Reflects nameKey done)
    (entry : TreeEntry) :
    (loaded.addEntry nameKey entry).1.Reflects nameKey (done ++ [entry]) ∧
      ((loaded.addEntry nameKey entry).2 = .ok () ↔
        ¬entry.Invalid nameKey ∧
          ∀ earlier ∈ done, ¬TreeEntry.Collide nameKey earlier entry) := by
  rw [addEntry_eq]
  cases asked : entry.directory with
  | none =>
      refine ⟨reflects.ignored asked, fun _ => ⟨?_, ?_⟩, fun _ => rfl⟩
      · rintro ⟨directory, absurd, _⟩
        rw [asked] at absurd
        cases absurd
      · rintro earlier _ ⟨path, one, other, _, ⟨absurd, _⟩, _⟩
        rw [asked] at absurd
        cases absurd
  | some path =>
      have reaches := dirAt_reaches reflects.sound path
      rw [Option.elim_some]
      generalize loaded.dirAt nameKey path = result at reaches
      obtain ⟨reached, outcome⟩ := result
      have ok_iff := reaches.ok
      cases outcome with
      | error error =>
          -- The directory could not be made, so no file is due.
          have invalid : ¬ValidPath nameKey path := by
            intro valid
            exact absurd (ok_iff.mpr valid) (by simp)
          refine ⟨reflects.reached asked reaches ?_, ?_⟩
          · rintro file ⟨_, _, valid⟩
            exact (invalid valid).elim
          · constructor
            · intro absurd
              cases absurd
            · rintro ⟨fine, _⟩
              exact (fine ⟨path, asked, invalid⟩).elim
      | ok =>
          have valid : ValidPath nameKey path := ok_iff.mp rfl
          have fine : ¬entry.Invalid nameKey := by
            rintro ⟨directory, same, invalid⟩
            rw [asked] at same
            cases same
            exact invalid valid
          change (finishEntry nameKey reached entry path).1.Reflects nameKey
            (done ++ [entry]) ∧
              ((finishEntry nameKey reached entry path).2 = .ok () ↔ _)
          cases offered : entry.file nameKey with
          | none =>
              have settled := reflects.reached asked reaches (by
                rintro file ⟨_, absurd, _⟩
                rw [offered] at absurd
                cases absurd)
              obtain ⟨finished, ok⟩ := settled.finish_none offered path
              refine ⟨finished, fun _ => ⟨fine, ?_⟩, fun _ => ok⟩
              rintro earlier _ ⟨other, one, two, _, ⟨_, absurd, _⟩, _⟩
              rw [offered] at absurd
              cases absurd
          | some file =>
              obtain ⟨finished, ok⟩ := reflects.finish_some
                ⟨asked, offered, valid⟩ reaches
              rw [ok]
              exact ⟨finished, fun apart => ⟨fine, apart⟩, And.right⟩

/-- What ends a load at an entry behind others. -/
def Ends (nameKey : Option NameCipher) (before : List TreeEntry)
    (entry : TreeEntry) : Prop :=
  entry.Invalid nameKey ∨
    ∃ earlier ∈ before, TreeEntry.Collide nameKey earlier entry

theorem Reflects.addEntry_ends (reflects : loaded.Reflects nameKey done)
    (ends : Ends nameKey done entry) (entries : List TreeEntry) :
    (loaded.addEntries nameKey (entry :: entries)).1.Reflects nameKey
      (done ++ [entry]) := by
  obtain ⟨handled, ok_iff⟩ := reflects.addEntry entry
  rw [addEntries]
  generalize loaded.addEntry nameKey entry = result at handled ok_iff
  obtain ⟨reached, outcome⟩ := result
  cases outcome with
  | error error => exact handled
  | ok =>
      obtain ⟨fine, apart⟩ := ok_iff.mp rfl
      rcases ends with invalid | ⟨earlier, member, collide⟩
      · exact (fine invalid).elim
      · exact (apart earlier member collide).elim

theorem Reflects.addEntry_goes_on (reflects : loaded.Reflects nameKey done)
    (fine : ¬Ends nameKey done entry) (entries : List TreeEntry) :
    ∃ reached : LoadedTree, reached.Reflects nameKey (done ++ [entry]) ∧
      loaded.addEntries nameKey (entry :: entries) =
        reached.addEntries nameKey entries := by
  obtain ⟨handled, ok_iff⟩ := reflects.addEntry entry
  rw [addEntries]
  generalize loaded.addEntry nameKey entry = result at handled ok_iff
  obtain ⟨reached, outcome⟩ := result
  have ok : outcome = .ok () := ok_iff.mpr
    ⟨fun invalid => fine (.inl invalid), fun earlier member collide =>
      fine (.inr ⟨earlier, member, collide⟩)⟩
  subst ok
  exact ⟨reached, handled, rfl⟩

/-- A load handles all entries, or those up to one that ends it. -/
theorem Reflects.addEntries (entries : List TreeEntry) :
    ∀ {loaded : LoadedTree} {done : List TreeEntry},
      loaded.Reflects nameKey done →
        (loaded.addEntries nameKey entries).1.Reflects nameKey
            (done ++ entries) ∨
          ∃ before entry after, entries = before ++ entry :: after ∧
            Ends nameKey (done ++ before) entry ∧
            (loaded.addEntries nameKey entries).1.Reflects nameKey
              (done ++ before ++ [entry]) := by
  induction entries with
  | nil =>
      intro loaded done reflects
      rw [List.append_nil]
      exact .inl reflects
  | cons entry entries ih =>
      intro loaded done reflects
      by_cases ends : Ends nameKey done entry
      · refine .inr ⟨[], entry, entries, rfl, ?_, ?_⟩
        · rwa [List.append_nil]
        · rw [List.append_nil]
          exact reflects.addEntry_ends ends entries
      · obtain ⟨reached, handled, same⟩ :=
          reflects.addEntry_goes_on ends entries
        rw [same]
        rcases ih handled with all | ⟨before, last, after, rfl, lastEnds, upTo⟩
        · left
          rwa [List.append_assoc] at all
        · refine .inr ⟨entry :: before, last, after, rfl, ?_, ?_⟩
          · rwa [List.append_assoc] at lastEnds
          · rwa [List.append_assoc done] at upTo

end LoadedTree

end Tgdcfs
