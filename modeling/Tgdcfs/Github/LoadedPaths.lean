import Tgdcfs.Github.LoadOrder
import Tgdcfs.Github.StoragePaths

/-!
# Loaded directories and their storage paths

A segment without the prefix, or with no key at hand, comes back as it was.
One with the prefix is encrypted again, whether it was decrypted or not, so
it comes back if and only if the key makes it out of some name.
-/

namespace Tgdcfs

open Lib

namespace LoadedTree

/-- Every directory but the root has the name and the flag of its segment. -/
def Decoded (nameKey : Option NameCipher) (loaded : LoadedTree) : Prop :=
  ∀ path dir, loaded.dirs.get? path = some dir → path ≠ [] →
    (dir.name, dir.storedEncrypted) = decodeName nameKey (lastSegment path)

namespace Decoded

variable {nameKey : Option NameCipher} {loaded : LoadedTree}

theorem rootOnly : (rootOnly nameKey).Decoded nameKey := by
  intro path dir found below
  exact (below (rootOnly_has.mp ⟨dir, found⟩)).elim

theorem modify (decoded : loaded.Decoded nameKey) {path : StoragePath}
    {change : LoadedDirectory → LoadedDirectory}
    (keeps : ∀ dir, ((change dir).name, (change dir).storedEncrypted) =
      (dir.name, dir.storedEncrypted)) :
    LoadedTree.Decoded nameKey ⟨loaded.dirs.modify path change⟩ := by
  intro other dir found below
  dsimp only at found
  rw [Dict.get?_modify] at found
  by_cases here : other = path
  · rw [if_pos here] at found
    obtain ⟨before, was, rfl⟩ := Option.map_eq_some_iff.mp found
    rw [keeps]
    exact decoded other before was below
  · rw [if_neg here] at found
    exact decoded other dir found below

theorem createChildDir (decoded : loaded.Decoded nameKey) {path : StoragePath}
    {name : Name} {wasEncrypted : Bool} (below : path ≠ [])
    (made : (name, wasEncrypted) = decodeName nameKey (lastSegment path)) :
    (loaded.createChildDir path name wasEncrypted).Decoded nameKey := by
  intro other dir found otherSome
  rw [createChildDir_get? below] at found
  by_cases here : other = path
  · rw [if_pos here] at found
    cases found
    rw [here]
    exact made
  · rw [if_neg here] at found
    by_cases parent : other = parentPath path
    · rw [if_pos parent] at found
      obtain ⟨before, was, rfl⟩ := Option.map_eq_some_iff.mp found
      exact decoded other before was otherSome
    · rw [if_neg parent] at found
      exact decoded other dir found otherSome

theorem andThen {result : LoadedTree × Except LoadError Unit}
    {next : LoadedTree → LoadedTree × Except LoadError Unit}
    (decoded : result.1.Decoded nameKey)
    (further : ∀ reached, reached.Decoded nameKey →
      (next reached).1.Decoded nameKey) :
    (LoadedTree.andThen result next).1.Decoded nameKey := by
  obtain ⟨reached, outcome⟩ := result
  cases outcome with
  | error error => exact decoded
  | ok => exact further reached decoded

theorem dirAt (decoded : loaded.Decoded nameKey)
    (root : loaded.Has []) (path : StoragePath) :
    (loaded.dirAt nameKey path).1.Decoded nameKey := by
  suffices within : ∀ fuel path,
      (loaded.dirAtWithin nameKey fuel path).1.Decoded nameKey from
    within path.length path
  intro fuel
  induction fuel with
  | zero =>
      intro path
      exact decoded
  | succ fuel ih =>
      intro path
      rw [dirAtWithin]
      by_cases present : loaded.Has path
      · rw [if_pos (contains_iff.mpr present)]
        exact decoded
      · have below : path ≠ [] := by
          rintro rfl
          exact present root
        rw [if_neg (mt contains_iff.mp present)]
        generalize made : decodeName nameKey (lastSegment path) = pair
        obtain ⟨name, wasEncrypted⟩ := pair
        refine (ih (parentPath path)).andThen ?_
        intro reached parents
        cases validateName name with
        | error error => exact parents
        | ok => exact parents.createChildDir below made.symm

theorem attachFileRef (decoded : loaded.Decoded nameKey) (path : StoragePath)
    (file : LoadedFile) :
    (loaded.attachFileRef path file).1.Decoded nameKey := by
  rw [LoadedTree.attachFileRef]
  cases loaded.dirs.get? path with
  | none => exact decoded
  | some dir =>
      dsimp only
      by_cases taken : dir.files.any (·.name = file.name) = true
      · rw [if_pos taken]
        exact decoded
      · rw [if_neg taken]
        exact decoded.modify fun _ => rfl

theorem finishEntry (decoded : loaded.Decoded nameKey) (entry : TreeEntry)
    (path : StoragePath) :
    (loaded.finishEntry nameKey entry path).1.Decoded nameKey := by
  rw [LoadedTree.finishEntry]
  cases entry.file nameKey with
  | some file => exact decoded.attachFileRef path file
  | none =>
      dsimp only
      split
      · exact decoded.modify fun _ => rfl
      · exact decoded

theorem addEntry (decoded : loaded.Decoded nameKey) (root : loaded.Has [])
    (entry : TreeEntry) :
    (loaded.addEntry nameKey entry).1.Decoded nameKey := by
  rw [addEntry_eq]
  cases entry.directory with
  | none => exact decoded
  | some path =>
      exact (decoded.dirAt root path).andThen fun reached there =>
        there.finishEntry entry path

end Decoded

variable {nameKey : Option NameCipher} {loaded : LoadedTree}

/-- The directories of a load hang together and are decoded. -/
theorem Reflects.addEntries_decoded (entries : List TreeEntry) :
    ∀ {loaded : LoadedTree} {done : List TreeEntry},
      loaded.Reflects nameKey done → loaded.Decoded nameKey →
        (loaded.addEntries nameKey entries).1.Sound nameKey ∧
          (loaded.addEntries nameKey entries).1.Decoded nameKey := by
  induction entries with
  | nil =>
      intro loaded done reflects decoded
      exact ⟨reflects.sound, decoded⟩
  | cons entry entries ih =>
      intro loaded done reflects decoded
      have handled := (reflects.addEntry entry).1
      have kept := decoded.addEntry reflects.sound.root entry
      rw [LoadedTree.addEntries]
      generalize loaded.addEntry nameKey entry = result at handled kept
      obtain ⟨reached, outcome⟩ := result
      cases outcome with
      | error error => exact ⟨handled.sound, kept⟩
      | ok => exact ih handled kept

end LoadedTree

theorem buildFromTree_decoded (nameKey : Option NameCipher)
    (entries : List TreeEntry) :
    (buildFromTree nameKey entries).Sound nameKey ∧
      (buildFromTree nameKey entries).Decoded nameKey :=
  LoadedTree.rootOnly_reflects.addEntries_decoded entries .rootOnly

/-- The storage name of a directory that was loaded from a segment. -/
def restoredSegment (nameKey : Option NameCipher) (segment : List Char) :
    List Char :=
  let (name, wasEncrypted) := decodeName nameKey segment
  LoadedDirectory.storageName nameKey ⟨name, wasEncrypted, [], [], none⟩

theorem LoadedTree.Decoded.storageName {nameKey : Option NameCipher}
    {loaded : LoadedTree} (decoded : loaded.Decoded nameKey)
    {path : StoragePath} {dir : LoadedDirectory}
    (found : loaded.dirs.get? path = some dir) (below : path ≠ []) :
    dir.storageName nameKey = restoredSegment nameKey (lastSegment path) := by
  rw [restoredSegment, ← decoded path dir found below]
  rfl

/-- The segment comes out of the key, or nothing is encrypted. -/
def Restorable (nameKey : Option PathNameKey) (segment : List Char) : Prop :=
  ∀ key, nameKey = some key → isEncryptedPathName segment = true →
    ∃ name, segment = key.encryptPathName name

section Segments

variable {nameKey : Option PathNameKey} {segment : List Char}

theorem restoredSegment_plain (cipher : Option NameCipher)
    (plain : isEncryptedPathName segment = false) :
    restoredSegment cipher segment = segment := by
  cases cipher with
  | none => simp [restoredSegment, decodeName, plain,
      LoadedDirectory.storageName]
  | some key => simp [restoredSegment, decodeName, plain,
      LoadedDirectory.storageName]

theorem restoredSegment_without_key :
    restoredSegment none segment = segment := by
  cases encrypted : isEncryptedPathName segment with
  | false => exact restoredSegment_plain none encrypted
  | true => simp [restoredSegment, decodeName, encrypted,
      LoadedDirectory.storageName]

theorem restoredSegment_prefixed {key : PathNameKey}
    (encrypted : isEncryptedPathName segment = true) :
    restoredSegment (some key.cipher) segment =
      key.encryptPathName (decodeName (some key.cipher) segment).1 := by
  have flag : (decodeName (some key.cipher) segment).2 = true := by
    rw [decodeName, if_neg (by simpa using encrypted)]
    cases key.cipher.decryptPathName segment <;> rfl
  rw [restoredSegment]
  dsimp only [LoadedDirectory.storageName]
  rw [if_pos flag]
  rfl

theorem restoredSegment_eq_iff :
    restoredSegment (nameCipher nameKey) segment = segment ↔
      Restorable nameKey segment := by
  cases nameKey with
  | none =>
      constructor
      · intro _ key absurd
        cases absurd
      · intro _
        exact restoredSegment_without_key
  | some key =>
      cases encrypted : isEncryptedPathName segment with
      | false =>
          constructor
          · intro _ other _ absurd
            rw [encrypted] at absurd
            cases absurd
          · intro _
            exact restoredSegment_plain _ encrypted
      | true =>
          rw [nameCipher_some, restoredSegment_prefixed encrypted]
          constructor
          · intro same other found _
            cases found
            exact ⟨_, same.symm⟩
          · intro restorable
            obtain ⟨name, rfl⟩ := restorable key rfl encrypted
            rw [key.decodeName_encryptPathName]

theorem restoredSegment_named
    (valid : validName (decodeName (nameCipher nameKey) segment).1) :
    restoredSegment (nameCipher nameKey) segment ≠ [] ∧
      '/' ∉ restoredSegment (nameCipher nameKey) segment := by
  have named : ∀ name : Name, validName name → name ≠ [] ∧ '/' ∉ name := by
    intro name valid
    cases name with
    | nil => simp [validName] at valid
    | cons first rest =>
        refine ⟨List.cons_ne_nil _ _, ?_⟩
        simp only [validName, Bool.and_eq_true, decide_eq_true_eq] at valid
        exact valid.2
  cases nameKey with
  | none => exact named _ valid
  | some key =>
      cases encrypted : isEncryptedPathName segment with
      | false =>
          have same : (decodeName (some key.cipher) segment).1 = segment := by
            simp [decodeName, encrypted]
          rw [nameCipher_some, same] at valid
          rw [nameCipher_some, restoredSegment_plain _ encrypted]
          exact named _ valid
      | true =>
          rw [nameCipher_some, restoredSegment_prefixed encrypted]
          exact ⟨key.encryptPathName_ne_nil _,
            key.slash_not_mem_encryptPathName _⟩

end Segments

section Paths

variable {nameKey : Option PathNameKey} {segments : List (List Char)}

theorem ValidPath.names
    (named : ∀ segment ∈ segments, segment ≠ [] ∧ '/' ∉ segment)
    {cipher : Option NameCipher}
    (valid : ValidPath cipher (['/'].intercalate segments)) :
    ∀ segment ∈ segments, validName (decodeName cipher segment).1 := by
  induction segments using List.reverseRecOn with
  | nil =>
      intro segment member
      cases member
  | append_singleton segments last ih =>
      obtain ⟨filled, free⟩ := named last (by simp)
      obtain ⟨above, lastValid⟩ :=
        (validPath_iff (intercalate_snoc_ne_nil filled)).mp valid
      rw [parentPath_snoc free] at above
      rw [lastSegment_snoc free] at lastValid
      intro segment member
      rcases List.mem_append.mp member with before | here
      · exact ih (fun segment there => named segment (by simp [there])) above
          segment before
      · rw [List.mem_singleton.mp here]
        exact lastValid

/-- The path of a loaded directory is made of the restored segments. -/
theorem LoadedTree.Decoded.githubPathWithin {loaded : LoadedTree}
    (sound : loaded.Sound (nameCipher nameKey))
    (decoded : loaded.Decoded (nameCipher nameKey))
    (named : ∀ segment ∈ segments, segment ≠ [] ∧ '/' ∉ segment)
    (has : loaded.Has (['/'].intercalate segments)) :
    ∀ fuel, (['/'].intercalate segments).length ≤ fuel →
      loaded.githubPathWithin (nameCipher nameKey) fuel
          (['/'].intercalate segments) =
        some (['/'].intercalate (segments.map
          (restoredSegment (nameCipher nameKey)))) := by
  induction segments using List.reverseRecOn with
  | nil =>
      intro fuel _
      cases fuel with
      | zero => rfl
      | succ fuel => rfl
  | append_singleton segments last ih =>
      intro fuel enough
      have valid := (sound.valid _ has).names named
      obtain ⟨filled, free⟩ := named last (by simp)
      have path_some : ['/'].intercalate (segments ++ [last]) ≠ [] :=
        intercalate_snoc_ne_nil filled
      have above := sound.parents _ has path_some
      have shorter := parentPath_length path_some
      rw [parentPath_snoc free] at above shorter
      obtain ⟨dir, found⟩ := has
      have storage := decoded.storageName found path_some
      rw [lastSegment_snoc free] at storage
      cases fuel with
      | zero =>
          have positive := List.length_pos_of_ne_nil path_some
          omega
      | succ fuel =>
          have parents := ih (fun segment there =>
            named segment (by simp [there])) above fuel (by omega)
          have before : ∀ segment ∈ segments.map
              (restoredSegment (nameCipher nameKey)),
                segment ≠ [] ∧ '/' ∉ segment := by
            intro segment member
            obtain ⟨raw, there, rfl⟩ := List.mem_map.mp member
            exact restoredSegment_named (valid raw (by simp [there]))
          have joined := joinPath_snoc before
            (restoredSegment_named (valid last (by simp)))
          rw [LoadedTree.githubPathWithin, if_neg path_some, found,
            parentPath_snoc free, parents, List.map_append,
            List.map_singleton, ← joined, ← storage]
          rfl

end Paths

/-- The directory that a load makes for a path finds its way back if and only
if every segment can be restored. -/
theorem loaded_path_kept_iff (nameKey : Option PathNameKey)
    (entries : List TreeEntry) (repositoryPath : RepositoryPath)
    (loads : ((buildFromTree (nameCipher nameKey) entries).dirAt
      (nameCipher nameKey) repositoryPath.path).2 = .ok ()) :
    ((buildFromTree (nameCipher nameKey) entries).dirAt
        (nameCipher nameKey) repositoryPath.path).1.githubPath
          (nameCipher nameKey) repositoryPath.path =
        some repositoryPath.path ↔
      ∀ segment ∈ repositoryPath.segments, Restorable nameKey segment := by
  obtain ⟨sound, decoded⟩ :=
    buildFromTree_decoded (nameCipher nameKey) entries
  have reaches := LoadedTree.dirAt_reaches sound repositoryPath.path
  have kept := decoded.dirAt sound.root repositoryPath.path
  have valid := reaches.ok.mp loads
  have has := (reaches.has repositoryPath.path).mpr (.inr ⟨.self, valid⟩)
  have path := kept.githubPathWithin reaches.sound repositoryPath.named has
    _ le_rfl
  have valid_segments := valid.names repositoryPath.named
  have restored : ∀ segment ∈ repositoryPath.segments.map
      (restoredSegment (nameCipher nameKey)), '/' ∉ segment := by
    intro segment member
    obtain ⟨raw, there, rfl⟩ := List.mem_map.mp member
    exact (restoredSegment_named (valid_segments raw there)).2
  rw [LoadedTree.githubPath]
  refine (Eq.congr path rfl).trans ?_
  rw [Option.some_inj]
  have fixed_iff : repositoryPath.segments.map
      (restoredSegment (nameCipher nameKey)) = repositoryPath.segments ↔
        ∀ segment ∈ repositoryPath.segments,
          restoredSegment (nameCipher nameKey) segment = segment := by
    simpa using List.map_inj_left (l := repositoryPath.segments)
      (f := restoredSegment (nameCipher nameKey)) (g := id)
  constructor
  · intro same segment member
    have fixed := intercalate_injective restored
      (fun segment there => (repositoryPath.named segment there).2)
      (List.length_map _) same
    exact restoredSegment_eq_iff.mp (fixed_iff.mp fixed segment member)
  · intro restorable
    have fixed := fixed_iff.mpr fun segment member =>
      restoredSegment_eq_iff.mpr (restorable segment member)
    rw [fixed]
    rfl

/-- Three bytes for a character. -/
def characterBytes (character : Char) : List UInt8 :=
  [UInt8.ofNat (character.toNat / 65536),
    UInt8.ofNat (character.toNat / 256 % 256),
    UInt8.ofNat (character.toNat % 256)]

def bytesText : List UInt8 → Name
  | high :: middle :: low :: rest =>
      Char.ofNat (high.toNat * 65536 + middle.toNat * 256 + low.toNat) ::
        bytesText rest
  | _ => []

theorem bytesText_characterBytes (name : Name) :
    bytesText (name.flatMap characterBytes) = name := by
  induction name with
  | nil => rfl
  | cons first rest ih =>
      have bound : first.toNat < 1114112 := by
        have valid := first.valid
        simp only [UInt32.isValidChar, Nat.isValidChar] at valid
        change first.val.toNat < 1114112
        omega
      have value : first.toNat / 65536 % 256 * 65536 +
          first.toNat / 256 % 256 * 256 + first.toNat % 256 =
            first.toNat := by omega
      simp [characterBytes, bytesText, ih, value]

/-- Sixteen bytes of a tag before the text. -/
def taggedKey : PathNameKey where
  encrypt name := List.replicate 16 7 ++ name.flatMap characterBytes
  decrypt blob :=
    if blob.take 16 = List.replicate 16 7 then some (bytesText (blob.drop 16))
    else none
  decrypt_encrypt name := by
    simp [bytesText_characterBytes]

/-- An encrypted directory and a plain one in it. -/
def mixedPath : RepositoryPath where
  segments := [taggedKey.encryptPathName "docs".toList, "old".toList]
  named := by
    intro segment member
    simp only [List.mem_cons, List.not_mem_nil, or_false] at member
    rcases member with rfl | rfl
    · exact ⟨taggedKey.encryptPathName_ne_nil _,
        taggedKey.slash_not_mem_encryptPathName _⟩
    · decide

theorem mixedPath_kept :
    ((buildFromTree (nameCipher (some taggedKey)) []).dirAt
        (nameCipher (some taggedKey)) mixedPath.path).1.githubPath
          (nameCipher (some taggedKey)) mixedPath.path =
      some mixedPath.path := by
  refine (loaded_path_kept_iff (some taggedKey) [] mixedPath rfl).mpr ?_
  intro segment member key found encrypted
  cases found
  simp only [mixedPath, List.mem_cons, List.not_mem_nil, or_false] at member
  rcases member with rfl | rfl
  · exact ⟨_, rfl⟩
  · exact absurd encrypted (by decide)

/-- A directory whose plain name begins with the prefix. -/
def prefixedPath : RepositoryPath where
  segments := ["TGFSP1_x".toList]
  named := by decide

/-- It is addressed at another path than it was loaded from. -/
theorem prefixedPath_not_kept :
    ((buildFromTree (nameCipher (some taggedKey)) []).dirAt
        (nameCipher (some taggedKey)) prefixedPath.path).2 = .ok () ∧
      ((buildFromTree (nameCipher (some taggedKey)) []).dirAt
        (nameCipher (some taggedKey)) prefixedPath.path).1.githubPath
          (nameCipher (some taggedKey)) prefixedPath.path ≠
        some prefixedPath.path := by
  refine ⟨rfl, ?_⟩
  decide

end Tgdcfs
