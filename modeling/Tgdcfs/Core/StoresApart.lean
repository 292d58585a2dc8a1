import Mathlib.Data.List.Dedup
import Tgdcfs.Core.Config
import Tgdcfs.Core.RangeMap
import Tgdcfs.Lib.Traversals

/-!
# Which stores a configuration keeps apart

Validation compares the names of stores, the metadata knows them by their
keys.  Two names for one channel pass every check, and so does a mirror in the
primary store of the file system without a name.
-/

namespace Tgdcfs

open Lib

theorem Backend.family_letters (backend : Backend) :
    backend.family ≠ [] ∧ backend.family.all isLetter = true := by
  cases backend with
  | telegram => decide +kernel
  | discord => decide +kernel

theorem Backend.family_injective {first second : Backend}
    (same : first.family = second.family) : first = second := by
  cases first <;> cases second <;> first | rfl | cases same

theorem StoreConfig.key_eq_iff (first second : StoreConfig) :
    first.key = second.key ↔
      first.backend = second.backend ∧ first.channel = second.channel := by
  constructor
  · intro same
    have keys : makeStoreKey first.backend.family first.channel.toList =
        makeStoreKey second.backend.family second.channel.toList :=
      String.ofList_injective same
    have parsed := congrArg parseStoreKey keys
    obtain ⟨nonempty, letters⟩ := first.backend.family_letters
    obtain ⟨nonempty', letters'⟩ := second.backend.family_letters
    rw [parseStoreKey_makeStoreKey _ nonempty letters,
      parseStoreKey_makeStoreKey _ nonempty' letters'] at parsed
    obtain ⟨families, channels⟩ := Prod.mk.inj parsed
    exact ⟨Backend.family_injective families, String.toList_injective channels⟩
  · rintro ⟨backends, channels⟩
    rw [key, key, backends, channels]

theorem FilesystemConfig.fromDict_ok {name : String} {data : FilesystemData}
    {fs : FilesystemConfig} (loaded : fromDict name data = .ok fs) :
    fs.name = name ∧ fs.primary ∉ fs.mirrors ∧ fs.mirrors.Nodup := by
  unfold fromDict at loaded
  dsimp only at loaded
  split at loaded
  · cases loaded
  · cases loaded
  · rename_i primary _
    split at loaded
    · cases loaded
    · rename_i foreign
      split at loaded
      · cases loaded
      · rename_i once
        have same := (List.dedup_sublist data.mirrors).eq_of_length
          (not_not.mp once)
        have nodup : data.mirrors.Nodup := same ▸ List.nodup_dedup _
        -- The checks that follow concern other fields.
        split at loaded
        · cases loaded
        · split at loaded
          · cases loaded
          · split at loaded
            · cases loaded
            · split at loaded
              · cases loaded
              · split at loaded
                · cases loaded
                · split at loaded
                  · cases loaded
                  · obtain ⟨metadata, _, rfl⟩ := ok_of_map loaded
                    exact ⟨rfl, foreign, nodup⟩

/-- What is known of the file systems once their entries are loaded. -/
theorem Config.loadEntries_ok {δ γ : Type}
    {load : String → δ → Except ConfigError γ} {entries : List (String × δ)}
    {loaded : Dict String γ} (all : loadEntries load entries = .ok loaded)
    {name : String} {value : γ} (found : loaded.get? name = some value) :
    ∃ data, load name data = .ok value := by
  obtain ⟨pairs, traversed, rfl⟩ := ok_of_map all
  have member := Dict.mem_of_mem_ofList
    ((Dict.get?_eq_some_iff _ name value).mp found)
  obtain ⟨entry, _, result⟩ := mem_of_mapM_ok traversed member
  obtain ⟨value', loads, same⟩ := ok_of_map result
  cases same
  exact ⟨entry.2, loads⟩

section Names

variable {stores : Dict String StoreConfig}

theorem FilesystemConfig.checkNames_ok {fs : FilesystemConfig}
    (checked : fs.checkNames stores = .ok ()) :
    ∀ name ∈ fs.storeNames, ∃ store, stores.get? name = some store := by
  unfold checkNames at checked
  dsimp only at checked
  split at checked
  · cases checked
  · rename_i known
    intro name member
    have present := List.find?_eq_none.mp known name member
    rw [Bool.not_eq_true, Bool.not_eq_false'] at present
    exact Option.isSome_iff_exists.mp present

/-- The first loop: every store is known, no two file systems have one primary
store, and `primaries` names the owner of each. -/
theorem registerPrimaries_ok {filesystems : List FilesystemConfig}
    {before primaries : Dict String String}
    (registered : registerPrimaries stores filesystems before =
      .ok primaries) :
    (∀ fs ∈ filesystems, ∀ name ∈ fs.storeNames,
        ∃ store, stores.get? name = some store) ∧
      (filesystems.map FilesystemConfig.primary).Nodup ∧
      (∀ fs ∈ filesystems, before.get? fs.primary = none) ∧
      ∀ store, primaries.get? store =
        (((filesystems.find? fun fs => fs.primary = store).map
          FilesystemConfig.name).or (before.get? store)) := by
  induction filesystems generalizing before with
  | nil =>
      cases registered
      simp
  | cons fs filesystems induction =>
      unfold registerPrimaries at registered
      split at registered
      · cases registered
      · rename_i checked
        split at registered
        · cases registered
        · rename_i unowned
          obtain ⟨known, distinct, fresh, owners⟩ := induction registered
          have apart : ∀ other ∈ filesystems, other.primary ≠ fs.primary := by
            intro other member same
            have missing := fresh other member
            rw [Dict.get?_set, if_pos same] at missing
            cases missing
          refine ⟨?_, ?_, ?_, ?_⟩
          · intro other member
            rcases List.mem_cons.mp member with rfl | later
            · exact FilesystemConfig.checkNames_ok checked
            · exact known other later
          · rw [List.map_cons, List.nodup_cons]
            refine ⟨?_, distinct⟩
            intro member
            obtain ⟨other, inside, same⟩ := List.mem_map.mp member
            exact apart other inside same
          · intro other member
            rcases List.mem_cons.mp member with rfl | later
            · exact unowned
            · have missing := fresh other later
              rwa [Dict.get?_set, if_neg (apart other later)] at missing
          · intro store
            rw [owners, List.find?_cons]
            by_cases same : fs.primary = store
            · have absent : filesystems.find?
                  (fun fs => decide (fs.primary = store)) = none := by
                rw [List.find?_eq_none]
                intro other member
                simpa using same ▸ apart other member
              simp [absent, same, Dict.get?_set]
            · simp [same, Dict.get?_set, Ne.symm same]

theorem checkMirrors_ok {filesystems : Dict String FilesystemConfig}
    {primaries : Dict String String} {checked : List FilesystemConfig}
    (passed : checkMirrors filesystems primaries checked = .ok ()) :
    ∀ fs ∈ checked, ∀ mirror ∈ fs.mirrors,
      sharesPrimary filesystems primaries fs mirror = false := by
  induction checked with
  | nil => simp
  | cons fs checked induction =>
      unfold checkMirrors at passed
      split at passed
      · cases passed
      · rename_i plain
        intro other member mirror listed
        rcases List.mem_cons.mp member with rfl | later
        · simpa using List.find?_eq_none.mp plain mirror listed
        · exact induction passed other later mirror listed

end Names

namespace Config

variable {config : Config}

/-- The key of the store with this name. -/
def keyOf (config : Config) (name : String) : Option String :=
  (config.stores.get? name).map StoreConfig.key

/-- Two file systems of which neither sets `allow_shared_store`. -/
def Exclusive (fs other : FilesystemConfig) : Prop :=
  fs.name ≠ other.name ∧ fs.allowSharedStore = false ∧
    other.allowSharedStore = false

/-- No key stands for two stores of one file system or for the primaries of
two of them, and no file system mirrors into the primary store of another
without being allowed to. -/
structure KeepsApart (config : Config) : Prop where
  within : ∀ fs ∈ config.filesystems.values,
    (fs.storeNames.map config.keyOf).Nodup
  primaries : ∀ fs ∈ config.filesystems.values,
    ∀ other ∈ config.filesystems.values, fs.name ≠ other.name →
      config.keyOf fs.primary ≠ config.keyOf other.primary
  mirrors : ∀ fs ∈ config.filesystems.values,
    ∀ other ∈ config.filesystems.values, Exclusive fs other →
      ∀ mirror ∈ fs.mirrors,
        config.keyOf mirror ≠ config.keyOf other.primary

/-- Two names of the stores block for one channel of one backend. -/
def Alias (config : Config) (first second : String) : Prop :=
  first ≠ second ∧ ∃ store other,
    config.stores.get? first = some store ∧
      config.stores.get? second = some other ∧
        store.backend = other.backend ∧ store.channel = other.channel

/-- Uses of two store names that a configuration has to keep apart. -/
inductive Conflict (config : Config) : String → String → Prop where
  | within {fs : FilesystemConfig} {first second : String}
      (member : fs ∈ config.filesystems.values)
      (left : first ∈ fs.storeNames) (right : second ∈ fs.storeNames) :
      Conflict config first second
  | primaries {fs other : FilesystemConfig}
      (member : fs ∈ config.filesystems.values)
      (otherMember : other ∈ config.filesystems.values)
      (different : fs.name ≠ other.name) :
      Conflict config fs.primary other.primary
  | mirror {fs other : FilesystemConfig} {mirror : String}
      (member : fs ∈ config.filesystems.values)
      (otherMember : other ∈ config.filesystems.values)
      (guarded : Exclusive fs other) (listed : mirror ∈ fs.mirrors) :
      Conflict config mirror other.primary

/-- The primary store of the file system with the empty name is a mirror of
another one. -/
def UnnamedShared (config : Config) : Prop :=
  ∃ fs ∈ config.filesystems.values, ∃ other ∈ config.filesystems.values,
    Exclusive fs other ∧ other.name = "" ∧ other.primary ∈ fs.mirrors

/-- What loading and validation establish. -/
structure Accepted (config : Config) : Prop where
  known : ∀ fs ∈ config.filesystems.values, ∀ name ∈ fs.storeNames,
    ∃ store, config.stores.get? name = some store
  names : ∀ fs ∈ config.filesystems.values, fs.storeNames.Nodup
  primaries : ∀ fs ∈ config.filesystems.values,
    ∀ other ∈ config.filesystems.values, fs.primary = other.primary →
      fs = other
  mirrors : ∀ fs ∈ config.filesystems.values,
    ∀ other ∈ config.filesystems.values, Exclusive fs other →
      other.primary ∈ fs.mirrors → other.name = ""

/-- Names known to the stores block have one key exactly when they are one
name or aliases. -/
theorem keyOf_eq_iff {first second : String}
    (left : ∃ store, config.stores.get? first = some store)
    (right : ∃ store, config.stores.get? second = some store) :
    config.keyOf first = config.keyOf second ↔
      first = second ∨ config.Alias first second := by
  obtain ⟨store, foundStore⟩ := left
  obtain ⟨other, foundOther⟩ := right
  constructor
  · intro same
    rw [keyOf, keyOf, foundStore, foundOther] at same
    have fields := (store.key_eq_iff other).mp (Option.some.inj same)
    by_cases equal : first = second
    · exact .inl equal
    · exact .inr ⟨equal, store, other, foundStore, foundOther, fields⟩
  · rintro (rfl | ⟨_, store, other, foundStore, foundOther, fields⟩)
    · rfl
    · rw [keyOf, keyOf, foundStore, foundOther, Option.map_some,
        Option.map_some, (store.key_eq_iff other).mpr fields]

theorem Accepted.known_of_conflict (accepted : config.Accepted)
    {first second : String} (conflict : config.Conflict first second) :
    (∃ store, config.stores.get? first = some store) ∧
      ∃ store, config.stores.get? second = some store := by
  cases conflict with
  | within member left right =>
      exact ⟨accepted.known _ member _ left, accepted.known _ member _ right⟩
  | primaries member otherMember _ =>
      exact ⟨accepted.known _ member _ List.mem_cons_self,
        accepted.known _ otherMember _ List.mem_cons_self⟩
  | mirror member otherMember _ listed =>
      exact ⟨accepted.known _ member _ (List.mem_cons_of_mem _ listed),
        accepted.known _ otherMember _ List.mem_cons_self⟩

theorem KeepsApart.not_alias (apart : config.KeepsApart)
    (accepted : config.Accepted) {first second : String}
    (conflict : config.Conflict first second) :
    ¬config.Alias first second := by
  intro alias_
  obtain ⟨left, right⟩ := accepted.known_of_conflict conflict
  have same := (keyOf_eq_iff left right).mpr (.inr alias_)
  cases conflict with
  | within member left right =>
      exact alias_.1 (List.inj_on_of_nodup_map (apart.within _ member) left
        right same)
  | primaries member otherMember different =>
      exact apart.primaries _ member _ otherMember different same
  | mirror member otherMember guarded listed =>
      exact apart.mirrors _ member _ otherMember guarded _ listed same

theorem KeepsApart.not_unnamedShared (apart : config.KeepsApart) :
    ¬config.UnnamedShared := by
  rintro ⟨fs, member, other, otherMember, guarded, _, listed⟩
  exact apart.mirrors fs member other otherMember guarded _ listed rfl

/-- An accepted configuration keeps its stores apart exactly when no two names
in conflicting uses are aliases and the file system without a name is not
mirrored into. -/
theorem Accepted.keepsApart_exactly (accepted : config.Accepted) :
    config.KeepsApart ↔
      (∀ first second, config.Conflict first second →
        ¬config.Alias first second) ∧ ¬config.UnnamedShared := by
  constructor
  · intro apart
    exact ⟨fun _ _ => apart.not_alias accepted, apart.not_unnamedShared⟩
  · rintro ⟨unaliased, named⟩
    have decided : ∀ {first second}, config.Conflict first second →
        config.keyOf first = config.keyOf second → first = second := by
      intro first second conflict same
      obtain ⟨left, right⟩ := accepted.known_of_conflict conflict
      exact ((keyOf_eq_iff left right).mp same).resolve_right
        (unaliased first second conflict)
    constructor
    · intro fs member
      apply (accepted.names fs member).map_on
      intro first left second right same
      exact decided (.within member left right) same
    · intro fs member other otherMember different same
      have equal := decided (.primaries member otherMember different) same
      exact different
        (congrArg _ (accepted.primaries fs member other otherMember equal))
    · intro fs member other otherMember guarded mirror listed same
      have equal := decided (.mirror member otherMember guarded listed) same
      subst equal
      exact named ⟨fs, member, other, otherMember, guarded,
        accepted.mirrors fs member other otherMember guarded listed, listed⟩

theorem deriveSync_fields (stores : Dict String StoreConfig)
    (fs : FilesystemConfig) :
    (fs.deriveSync stores).name = fs.name ∧
      (fs.deriveSync stores).primary = fs.primary ∧
      (fs.deriveSync stores).mirrors = fs.mirrors ∧
      (fs.deriveSync stores).allowSharedStore = fs.allowSharedStore := by
  unfold FilesystemConfig.deriveSync
  split <;> exact ⟨rfl, rfl, rfl, rfl⟩

/-- A file system of the loaded block stands under its name. -/
theorem loaded_filesystem {entries : List (String × FilesystemData)}
    {filesystems : Dict String FilesystemConfig}
    (loaded : loadEntries FilesystemConfig.fromDict entries = .ok filesystems)
    {fs : FilesystemConfig} (member : fs ∈ filesystems.values) :
    filesystems.get? fs.name = some fs ∧ fs.primary ∉ fs.mirrors ∧
      fs.mirrors.Nodup := by
  obtain ⟨name, found⟩ := (Dict.mem_values_iff filesystems fs).mp member
  obtain ⟨data, read⟩ := loadEntries_ok loaded found
  obtain ⟨rfl, foreign, nodup⟩ := FilesystemConfig.fromDict_ok read
  exact ⟨found, foreign, nodup⟩

theorem validateFilesystems_accepted {stores : Dict String StoreConfig}
    {entries : List (String × FilesystemData)}
    {filesystems validated : Dict String FilesystemConfig}
    (loaded : loadEntries FilesystemConfig.fromDict entries = .ok filesystems)
    (passed : validateFilesystems stores filesystems = .ok validated) :
    Accepted ⟨stores, validated⟩ := by
  unfold validateFilesystems at passed
  split at passed
  · cases passed
  · rename_i primaries registered
    obtain ⟨⟨⟩, checked, rfl⟩ := ok_of_map passed
    obtain ⟨known, distinct, _, owners⟩ := registerPrimaries_ok registered
    have unshared := checkMirrors_ok checked
    have alone : ∀ fs ∈ filesystems.values, ∀ other ∈ filesystems.values,
        fs.primary = other.primary → fs = other := fun _ member _ inside =>
      List.inj_on_of_nodup_map distinct member inside
    -- The validated file systems differ from the loaded ones in `sync` only.
    have origin : ∀ fs ∈
        (filesystems.mapValues (FilesystemConfig.deriveSync stores)).values,
        ∃ before ∈ filesystems.values, fs = before.deriveSync stores := by
      intro fs member
      rw [Dict.values_mapValues] at member
      obtain ⟨before, inside, rfl⟩ := List.mem_map.mp member
      exact ⟨before, inside, rfl⟩
    constructor
    · intro fs member
      obtain ⟨before, inside, rfl⟩ := origin fs member
      obtain ⟨_, primary, mirrors, _⟩ := deriveSync_fields stores before
      rw [FilesystemConfig.storeNames, primary, mirrors]
      exact known before inside
    · intro fs member
      obtain ⟨before, inside, rfl⟩ := origin fs member
      obtain ⟨_, primary, mirrors, _⟩ := deriveSync_fields stores before
      obtain ⟨_, foreign, nodup⟩ := loaded_filesystem loaded inside
      rw [FilesystemConfig.storeNames, primary, mirrors]
      exact List.nodup_cons.mpr ⟨foreign, nodup⟩
    · intro fs member other otherMember same
      obtain ⟨before, inside, rfl⟩ := origin fs member
      obtain ⟨owner, ownerInside, rfl⟩ := origin other otherMember
      obtain ⟨_, primary, _, _⟩ := deriveSync_fields stores before
      obtain ⟨_, primary', _, _⟩ := deriveSync_fields stores owner
      rw [primary, primary'] at same
      rw [alone before inside owner ownerInside same]
    · intro fs member other otherMember guarded listed
      obtain ⟨before, inside, rfl⟩ := origin fs member
      obtain ⟨owner, ownerInside, rfl⟩ := origin other otherMember
      obtain ⟨name, primary, mirrors, shared⟩ :=
        deriveSync_fields stores before
      obtain ⟨name', primary', _, shared'⟩ := deriveSync_fields stores owner
      obtain ⟨_, closed, closed'⟩ := guarded
      rw [shared] at closed
      rw [shared'] at closed'
      rw [primary', mirrors] at listed
      rw [name']
      have owned : primaries.get? owner.primary = some owner.name := by
        have first : filesystems.values.find?
            (fun fs => decide (fs.primary = owner.primary)) =
              some owner := by
          have present : (filesystems.values.find?
              fun fs => decide (fs.primary = owner.primary)).isSome :=
            List.find?_isSome.mpr ⟨owner, ownerInside, decide_eq_true rfl⟩
          obtain ⟨found, searched⟩ := Option.isSome_iff_exists.mp present
          have same := List.find?_some searched
          rw [searched, alone found (List.mem_of_find?_eq_some searched)
            owner ownerInside (of_decide_eq_true same)]
        rw [owners, first]
        rfl
      have refused := unshared before inside owner.primary listed
      unfold sharesPrimary at refused
      rw [owned] at refused
      split at refused
      · rename_i absent
        cases absent
      · rename_i named
        exact Option.some.inj named
      · rename_i named
        cases named
        rw [(loaded_filesystem loaded ownerInside).1] at refused
        simp [closed, closed'] at refused

theorem fromDict_accepted {blocks : LoadedBlocks} {data : LayoutData}
    (loads : fromDict blocks data = .ok config) : config.Accepted := by
  unfold fromDict at loads
  split at loads
  · cases loads
  · obtain ⟨stores, _, loads⟩ := bind_ok loads
    obtain ⟨filesystems, loaded, loads⟩ := bind_ok loads
    obtain ⟨_, _, loads⟩ := bind_ok loads
    obtain ⟨validated, passed, loads⟩ := bind_ok loads
    obtain ⟨_, _, loads⟩ := bind_ok loads
    cases loads
    exact validateFilesystems_accepted loaded passed

/-- A configuration that loads keeps its stores apart exactly when no two
names in conflicting uses stand for one channel and the file system without a
name is not mirrored into. -/
theorem keepsApart_iff {blocks : LoadedBlocks} {data : LayoutData}
    (loads : fromDict blocks data = .ok config) :
    config.KeepsApart ↔
      (∀ first second, config.Conflict first second →
        ¬config.Alias first second) ∧ ¬config.UnnamedShared :=
  (fromDict_accepted loads).keepsApart_exactly

/-- A store under two names, one of them the primary store of a file system
and the other its mirror. -/
def twoNames : LayoutData :=
  { stores := [("a", { channel := some "100" }),
      ("b", { channel := some "100" })]
    filesystems := [("home", { primary := some "a", mirrors := ["b"] })] }

/-- Two file systems with a store of their own each, the second mirrored into
a third store. -/
def threeStores : LayoutData :=
  { stores := [("a", { channel := some "100" }),
      ("b", { channel := some "200" }),
      ("c", { backend := some "discord", channel := some "100" })]
    filesystems := [("home", { primary := some "a" }),
      ("work", { primary := some "b", mirrors := ["c"] })] }

/-- Credentials for both backends. -/
def bothBackends : LoadedBlocks :=
  { privateFileChannel := []
    apiHash := "hash"
    discord := true
    cacheEnabled := false }

theorem twoNames_share_a_key :
    ∃ config, fromDict bothBackends twoNames = .ok config ∧
      ¬config.KeepsApart := by
  refine ⟨_, rfl, ?_⟩
  intro apart
  have distinct := apart.within _ List.mem_cons_self
  revert distinct
  decide

theorem threeStores_keepsApart :
    ∃ config, fromDict bothBackends threeStores = .ok config ∧
      config.filesystems.size = 2 ∧ config.KeepsApart := by
  obtain ⟨config, loads, two, single, named⟩ : ∃ config,
      fromDict bothBackends threeStores = .ok config ∧
      config.filesystems.size = 2 ∧
      (∀ store ∈ config.stores.items, ∀ other ∈ config.stores.items,
        store.2.backend = other.2.backend →
          store.2.channel = other.2.channel → store.1 = other.1) ∧
      ∀ fs ∈ config.filesystems.values, fs.name ≠ "" :=
    ⟨_, rfl, rfl, by decide, by decide⟩
  refine ⟨config, loads, two, (keepsApart_iff loads).mpr ⟨?_, ?_⟩⟩
  · rintro first second _
      ⟨different, store, other, found, foundOther, backend, channel⟩
    exact different (single _ ((Dict.get?_eq_some_iff ..).mp found) _
      ((Dict.get?_eq_some_iff ..).mp foundOther) backend channel)
  · rintro ⟨_, _, other, member, _, unnamed, _⟩
    exact named other member unnamed

end Config

end Tgdcfs
