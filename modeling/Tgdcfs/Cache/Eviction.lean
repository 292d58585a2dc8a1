import Tgdcfs.Cache.LocalCache

/-!
# What the operations of the cache do to its entries

Every operation that admits nothing is an `Evolves` step: the entries it
leaves are later stages of the same objects and charge no more.  Eviction
runs work on a sorted snapshot and a running total; `RoomSpec` says that the
total stays the real sum and that only the listed victims are dropped, so
that pinned, staged and claimed entries are spared.
-/

namespace Tgdcfs

open Lib

/-- `after` is a later stage of the same entry object: it describes the same
file, its claims are the same, nothing it held on disk is gone, and its
staging ends only with the whole version on disk. -/
structure CacheEntry.Later (before after : CacheEntry) : Prop where
  uid : after.uid = before.uid
  versionId : after.versionId = before.versionId
  size : after.size = before.size
  blockSize : after.blockSize = before.blockSize
  inflight : after.inflight = before.inflight
  writing : after.writing = true → before.writing = true
  settled : after.writing = false → before.writing = true → after.Whole
  missing : ∀ blocks, after.missingBytes blocks ≤ before.missingBytes blocks

theorem CacheEntry.Later.whole {before after : CacheEntry}
    (later : before.Later after) (whole : before.Whole) : after.Whole := by
  have same := CacheEntry.blocks_congr later.size later.blockSize
  have bound := later.missing (List.range before.blocks)
  rw [CacheEntry.Whole] at whole ⊢
  rw [same]
  omega

theorem CacheEntry.Later.of_same_blocks {before after : CacheEntry}
    (uid : after.uid = before.uid)
    (versionId : after.versionId = before.versionId)
    (size : after.size = before.size)
    (blockSize : after.blockSize = before.blockSize)
    (inflight : after.inflight = before.inflight)
    (writing : after.writing = before.writing)
    (missing : ∀ blocks,
      after.missingBytes blocks ≤ before.missingBytes blocks) :
    before.Later after := by
  refine ⟨uid, versionId, size, blockSize, inflight, ?_, ?_, missing⟩
  · intro staging
    rwa [← writing]
  · intro ended staging
    rw [writing, staging] at ended
    simp at ended

theorem CacheEntry.Later.refl (entry : CacheEntry) : entry.Later entry :=
  .of_same_blocks rfl rfl rfl rfl rfl rfl fun _ => le_rfl

theorem CacheEntry.Later.trans {first second third : CacheEntry}
    (left : first.Later second) (right : second.Later third) :
    first.Later third := by
  refine ⟨right.uid.trans left.uid, right.versionId.trans left.versionId,
    right.size.trans left.size, right.blockSize.trans left.blockSize,
    right.inflight.trans left.inflight,
    fun staged => left.writing (right.writing staged), ?_,
    fun blocks => (right.missing blocks).trans (left.missing blocks)⟩
  intro ended staging
  cases middle : second.writing with
  | false => exact right.whole (left.settled middle staging)
  | true => exact right.settled ended middle

/-- The operation admits nothing, keeps the entries it leaves, and charges no
more than before. -/
structure Evolves (before after : LocalCache) : Prop where
  entries : ∀ versionId later, after.entry versionId = some later →
    ∃ earlier, before.entry versionId = some earlier ∧ earlier.Later later
  nextUid : after.nextUid = before.nextUid
  used : after.usedBytes ≤ before.usedBytes
  size : after.entries.size ≤ before.entries.size

namespace Evolves

theorem refl (cache : LocalCache) : Evolves cache cache :=
  ⟨fun _ later found => ⟨later, found, .refl later⟩, rfl, le_rfl, le_rfl⟩

theorem trans {first second third : LocalCache}
    (left : Evolves first second) (right : Evolves second third) :
    Evolves first third := by
  refine ⟨?_, right.nextUid.trans left.nextUid,
    right.used.trans left.used, right.size.trans left.size⟩
  intro versionId later found
  obtain ⟨middle, middleFound, middleLater⟩ :=
    right.entries versionId later found
  obtain ⟨earlier, earlierFound, earlierLater⟩ :=
    left.entries versionId middle middleFound
  exact ⟨earlier, earlierFound, earlierLater.trans middleLater⟩

theorem of_entries_eq {before after : LocalCache}
    (entries : after.entries = before.entries)
    (nextUid : after.nextUid = before.nextUid) : Evolves before after := by
  refine ⟨?_, nextUid, ?_, ?_⟩
  · intro versionId later found
    refine ⟨later, ?_, .refl later⟩
    rwa [LocalCache.entry, entries] at found
  · rw [LocalCache.usedBytes, entries]
    exact le_rfl
  · rw [entries]

variable (cache : LocalCache)
include cache

theorem issue (steps : List DiskStep) : Evolves cache (cache.issue steps) :=
  of_entries_eq rfl rfl

theorem saveIndex : Evolves cache cache.saveIndex :=
  issue cache _

/-- Mutating an entry object is an evolution when each stage is a later one
that costs no more. -/
theorem update (versionId : String) (uid : Nat)
    (change : CacheEntry → CacheEntry)
    (later : ∀ entry, cache.entry versionId = some entry →
      entry.uid = uid → entry.Later (change entry) ∧
        (change entry).chargedBytes ≤ entry.chargedBytes) :
    Evolves cache (cache.update versionId uid change) := by
  refine ⟨?_, rfl, ?_, ?_⟩
  · intro other changed found
    simp only [LocalCache.entry, LocalCache.update, Dict.get?_modify] at found
    by_cases same : other = versionId
    · subst other
      simp only [if_true, Option.map_eq_some_iff] at found
      obtain ⟨entry, entryFound, rfl⟩ := found
      refine ⟨entry, entryFound, ?_⟩
      by_cases identical : entry.uid = uid
      · simpa [identical] using (later entry entryFound identical).1
      · simpa [identical] using CacheEntry.Later.refl entry
    · simp only [same, if_false] at found
      exact ⟨changed, found, .refl changed⟩
  · apply Dict.weight_modify_le
    intro entry found
    by_cases identical : entry.uid = uid
    · simpa [identical] using (later entry found identical).2
    · simp [identical]
  · simp [LocalCache.update, Dict.size_modify]

theorem drop (versionId : String) :
    Evolves cache (cache.drop versionId).1 := by
  unfold LocalCache.drop
  cases found : cache.entries.get? versionId with
  | none => exact refl cache
  | some entry =>
      refine trans ?_ (issue _ _)
      refine ⟨?_, rfl, Dict.weight_erase_le _ _ _, Dict.size_erase_le _ _⟩
      intro other later laterFound
      simp only [LocalCache.entry, Dict.get?_erase] at laterFound
      by_cases same : other = versionId
      · simp [same] at laterFound
      · simp only [same, if_false] at laterFound
        exact ⟨later, laterFound, .refl later⟩

theorem remove (versionId : String) :
    Evolves cache (cache.remove versionId) := by
  unfold LocalCache.remove
  dsimp only
  split
  · exact trans (drop cache versionId) (saveIndex _)
  · exact drop cache versionId

theorem dropAll (versionIds : List String) :
    Evolves cache (cache.dropAll versionIds) := by
  induction versionIds generalizing cache with
  | nil => exact refl cache
  | cons versionId versionIds induction =>
      exact trans (drop cache versionId) (induction _)

theorem removeMany (versionIds : List String) :
    Evolves cache (cache.removeMany versionIds) := by
  unfold LocalCache.removeMany
  dsimp only
  split
  · exact trans (dropAll cache versionIds) (saveIndex _)
  · exact dropAll cache versionIds

theorem removeExisting (versionId : String) :
    Evolves cache (cache.removeExisting versionId) := by
  unfold LocalCache.removeExisting
  split
  · exact remove cache versionId
  · exact refl cache

/-- Pins and dates neither move blocks nor change a claim. -/
theorem relabel (versionId : String) (uid : Nat) (pins : CacheEntry → Nat)
    (lastAccess pinnedAt : CacheEntry → Int) :
    Evolves cache (cache.update versionId uid fun entry =>
      { entry with
        pins := pins entry
        lastAccess := lastAccess entry
        pinnedAt := pinnedAt entry }) := by
  apply update
  intro entry _ _
  exact ⟨.of_same_blocks rfl rfl rfl rfl rfl rfl fun _ => le_rfl, le_rfl⟩

theorem pin (versionId : String) (now : Int) :
    Evolves cache (cache.pin versionId now) := by
  unfold LocalCache.pin
  split
  · exact refl cache
  · exact trans (relabel cache versionId _ (fun entry => entry.pins + 1)
      CacheEntry.lastAccess
      (fun entry => if entry.pins = 0 then now else entry.pinnedAt))
      (saveIndex _)

theorem unpin (versionId : String) :
    Evolves cache (cache.unpin versionId) := by
  unfold LocalCache.unpin
  split
  · exact refl cache
  · exact relabel cache versionId _ (fun entry => entry.pins - 1)
      CacheEntry.lastAccess CacheEntry.pinnedAt

omit cache

theorem release (config : CacheConfig) (cache : LocalCache)
    (versionId : String) :
    Evolves cache (cache.release config versionId) := by
  unfold LocalCache.release
  split
  · exact refl cache
  · rename_i entry _
    have unpinned := relabel cache versionId entry.uid (fun _ => 0)
      CacheEntry.lastAccess (fun _ => 0)
    dsimp only
    split
    · exact trans unpinned (saveIndex _)
    · exact trans unpinned (remove _ _)

/-- Whatever was done to an entry that is then removed is forgotten. -/
theorem update_remove (cache : LocalCache) (versionId : String) (uid : Nat)
    (change : CacheEntry → CacheEntry) :
    Evolves cache
      ((cache.update versionId uid change).remove versionId) := by
  have erased : Evolves cache
      { cache with entries := cache.entries.erase versionId } := by
    refine ⟨?_, rfl, Dict.weight_erase_le _ _ _, Dict.size_erase_le _ _⟩
    intro other later found
    simp only [LocalCache.entry, Dict.get?_erase] at found
    by_cases same : other = versionId
    · simp [same] at found
    · simp only [same, if_false] at found
      exact ⟨later, found, .refl later⟩
  have final : ((cache.update versionId uid change).remove
      versionId).entries = cache.entries.erase versionId := by
    unfold LocalCache.remove LocalCache.drop
    cases found : (cache.update versionId uid change).entries.get?
        versionId with
    | none =>
        simp only [LocalCache.update, Dict.get?_modify, if_true,
          Option.map_eq_none_iff] at found
        simp only [LocalCache.update, Bool.false_eq_true, if_false]
        rw [Dict.modify_of_absent _ _ _ found,
          Dict.erase_of_absent _ _ found]
    | some entry =>
        simp only [if_true, LocalCache.saveIndex, LocalCache.unlink,
          LocalCache.issue, LocalCache.update, Dict.erase_modify]
  have supply : ((cache.update versionId uid change).remove
      versionId).nextUid = cache.nextUid :=
    (remove (cache.update versionId uid change) versionId).nextUid
  exact trans erased (of_entries_eq final supply)

theorem evict (cache : LocalCache) (victim : CacheEntry) :
    Evolves cache (cache.evict victim).1 :=
  drop cache victim.versionId

end Evolves

/-- Every entry is filed under its own id. -/
def Keyed (cache : LocalCache) : Prop :=
  ∀ versionId entry, cache.entry versionId = some entry →
    entry.versionId = versionId

variable {after : LocalCache}

theorem Keyed.evolves {before : LocalCache} (keyed : Keyed before)
    (evolves : Evolves before after) : Keyed after := by
  intro versionId later found
  obtain ⟨earlier, earlierFound, stage⟩ :=
    evolves.entries versionId later found
  rw [stage.versionId, keyed versionId earlier earlierFound]

/-- Victims of one eviction run: evictable entries of the cache, each
listed once. -/
structure Victims (cache : LocalCache) (victims : List CacheEntry) :
    Prop where
  nodup : (victims.map CacheEntry.versionId).Nodup
  stored : ∀ victim ∈ victims, cache.entry victim.versionId = some victim
  evictable : ∀ victim ∈ victims, victim.evictable = true

variable {cache : LocalCache}

theorem mem_values_of_keyed (keyed : Keyed cache) {entry : CacheEntry}
    (member : entry ∈ cache.entries.values) :
    cache.entry entry.versionId = some entry := by
  obtain ⟨versionId, found⟩ := (Dict.mem_values_iff _ _).mp member
  rwa [keyed versionId entry found]

theorem values_versionIds (keyed : Keyed cache) :
    cache.entries.values.map CacheEntry.versionId = cache.entries.keys := by
  rw [Dict.values, Dict.keys, List.map_map]
  apply List.map_congr_left
  intro item member
  exact keyed item.1 item.2 ((Dict.get?_eq_some_iff _ _ _).mpr member)

theorem lruOrder_victims (keyed : Keyed cache) (keep : Option Nat) :
    Victims cache (cache.lruOrder keep).reverse := by
  let chosen := cache.entries.values.filter fun entry =>
    entry.evictable && decide (keep ≠ some entry.uid)
  have permutation : (cache.lruOrder keep).reverse.Perm chosen :=
    (List.reverse_perm _).trans (List.perm_insertionSort _ _)
  have selected : ∀ victim ∈ (cache.lruOrder keep).reverse,
      victim ∈ cache.entries.values ∧ victim.evictable = true := by
    intro victim member
    have inChosen := List.mem_filter.mp (permutation.mem_iff.mp member)
    simp only [Bool.and_eq_true] at inChosen
    exact ⟨inChosen.1, inChosen.2.1⟩
  refine ⟨?_, ?_, ?_⟩
  · have chosenNodup : (chosen.map CacheEntry.versionId).Nodup := by
      have all : (cache.entries.values.map
          CacheEntry.versionId).Nodup := by
        rw [values_versionIds keyed]
        exact cache.entries.nodup
      exact all.sublist (List.filter_sublist.map _)
    exact (permutation.map _).nodup_iff.mpr chosenNodup
  · intro victim member
    exact mem_values_of_keyed keyed (selected victim member).1
  · intro victim member
    exact (selected victim member).2

theorem not_mem_lruOrder_keep (cache : LocalCache) (entry : CacheEntry) :
    entry ∉ (cache.lruOrder (some entry.uid)).reverse := by
  intro member
  have sorted := List.mem_reverse.mp member
  have chosen := (List.perm_insertionSort _ _).mem_iff.mp sorted
  simp at chosen

theorem evict_entry (cache : LocalCache) (victim : CacheEntry)
    (other : String) :
    (cache.evict victim).1.entry other =
      if other = victim.versionId then none else cache.entry other := by
  unfold LocalCache.evict LocalCache.drop
  cases found : cache.entries.get? victim.versionId with
  | none =>
      by_cases same : other = victim.versionId
      · simpa [LocalCache.entry, same] using found
      · simp [LocalCache.entry, same]
  | some entry =>
      simp [LocalCache.entry, LocalCache.unlink, LocalCache.issue,
        Dict.get?_erase]

variable {victim : CacheEntry}

theorem evict_usedBytes (stored : cache.entry victim.versionId = some victim) :
    (cache.evict victim).1.usedBytes = cache.usedBytes -
      (cache.evict victim).2 := by
  have balance := Dict.weight_erase CacheEntry.chargedBytes cache.entries
    stored
  unfold LocalCache.evict LocalCache.drop
  rw [LocalCache.entry] at stored
  simp only [stored, LocalCache.usedBytes, LocalCache.unlink,
    LocalCache.issue]
  omega

variable {victims : List CacheEntry}

theorem Victims.tail (good : Victims cache (victim :: victims)) :
    Victims (cache.evict victim).1 victims := by
  have nodup := good.nodup
  simp only [List.map_cons, List.nodup_cons] at nodup
  refine ⟨nodup.2, ?_, ?_⟩
  · intro other member
    have different : other.versionId ≠ victim.versionId := by
      intro same
      exact nodup.1 (List.mem_map.mpr ⟨other, member, same⟩)
    rw [evict_entry, if_neg different]
    exact good.stored other (List.mem_cons_of_mem _ member)
  · intro other member
    exact good.evictable other (List.mem_cons_of_mem _ member)

/-- Entries that are not victims are left exactly as they are. -/
def Spares (victims : List CacheEntry) (before after : LocalCache) : Prop :=
  ∀ versionId entry, before.entry versionId = some entry →
    entry ∉ victims → after.entry versionId = some entry

theorem Spares.cons (good : Victims cache (victim :: victims))
    (rest : Spares victims (cache.evict victim).1 after) :
    Spares (victim :: victims) cache after := by
  intro versionId entry found spared
  simp only [List.mem_cons, not_or] at spared
  have different : versionId ≠ victim.versionId := by
    intro same
    have stored := good.stored victim List.mem_cons_self
    rw [← same, found] at stored
    exact spared.1 (Option.some.inj stored)
  apply rest versionId entry
  · rw [evict_entry, if_neg different]
    exact found
  · exact spared.2

/-- What the loop of `_make_room` guarantees. -/
structure RoomSpec (config : CacheConfig) (size : Nat) (newEntry : Bool)
    (victims : List CacheEntry) (before : LocalCache)
    (after : LocalCache) (refused : Option Shortfall) : Prop where
  evolves : Evolves before after
  spares : Spares victims before after
  bytes : refused = none → 0 < config.maxSizeBytes →
    after.usedBytes + size ≤ config.maxSizeBytes
  files : refused = none → newEntry = true → 0 < config.maxFiles →
    after.entries.size + 1 ≤ config.maxFiles

/-- The loop ends with a grant only when every limit is met. -/
private theorem roomSpec_of_within {config : CacheConfig} {size : Nat}
    {newEntry : Bool} {disk : Bool}
    (within : (!LocalCache.overBytes config cache.usedBytes size &&
      !LocalCache.overFiles config newEntry cache && !disk) = true) :
    RoomSpec config size newEntry victims cache cache none := by
  simp only [LocalCache.overBytes, LocalCache.overFiles, Bool.and_eq_true,
    Bool.not_eq_true', Bool.and_eq_false_imp, bne_iff_ne,
    decide_eq_false_iff_not] at within
  refine ⟨.refl cache, fun _ _ found _ => found, ?_, ?_⟩
  · intro _ budget
    have inside := within.1.1 (by omega)
    omega
  · intro _ claims limit
    have inside := within.1.2 ⟨claims, by omega⟩
    omega

theorem makeRoomLoop_spec (config : CacheConfig) (size : Nat)
    (newEntry : Bool) (keep : Option Nat) (free : FreeSpace)
    (victims : List CacheEntry) (evicted : Nat) (cache : LocalCache)
    (keyed : Keyed cache) (good : Victims cache victims) :
    RoomSpec config size newEntry victims cache
      (LocalCache.makeRoomLoop config size newEntry keep free victims
        evicted cache.usedBytes cache).cache
      (LocalCache.makeRoomLoop config size newEntry keep free victims
        evicted cache.usedBytes cache).refused := by
  induction victims generalizing evicted cache with
  | nil =>
      unfold LocalCache.makeRoomLoop
      dsimp only
      split
      · rename_i within
        exact roomSpec_of_within within
      · exact ⟨.refl cache, fun _ _ found _ => found,
          fun granted => by simp at granted,
          fun granted => by simp at granted⟩
  | cons victim victims induction =>
      unfold LocalCache.makeRoomLoop
      split
      · rename_i within
        exact roomSpec_of_within within
      · have first : Evolves cache (cache.evict victim).1 :=
          .evict cache victim
        have rest := induction (evicted + 1) _ (keyed.evolves first)
          good.tail
        rw [evict_usedBytes (good.stored victim List.mem_cons_self)] at rest
        exact ⟨first.trans rest.evolves, rest.spares.cons good,
          rest.bytes, rest.files⟩

theorem makeRoom_spec (config : CacheConfig) (cache : LocalCache)
    (size : Nat) (newEntry : Bool) (keep : Option Nat) (free : FreeSpace)
    (keyed : Keyed cache) :
    RoomSpec config size newEntry (cache.lruOrder keep).reverse cache
      (cache.makeRoom config size newEntry keep free).1
      (cache.makeRoom config size newEntry keep free).2 := by
  have loop := makeRoomLoop_spec config size newEntry keep free _ 0 cache
    keyed (lruOrder_victims keyed keep)
  unfold LocalCache.makeRoom
  dsimp only
  split
  · exact loop
  · exact ⟨loop.evolves.trans (.saveIndex _), loop.spares, loop.bytes,
      loop.files⟩

theorem evictToTarget_spec (target : Nat) (victims : List CacheEntry)
    (used : Nat) (cache : LocalCache) (keyed : Keyed cache)
    (good : Victims cache victims) :
    Evolves cache (LocalCache.evictToTarget target victims used cache).2.1 ∧
      Spares victims cache
        (LocalCache.evictToTarget target victims used cache).2.1 ∧
      Victims (LocalCache.evictToTarget target victims used cache).2.1
        (LocalCache.evictToTarget target victims used cache).1 ∧
      (LocalCache.evictToTarget target victims used cache).1 ⊆ victims := by
  induction victims generalizing used cache with
  | nil => exact ⟨.refl cache, fun _ _ found _ => found, good, by simp
      [LocalCache.evictToTarget]⟩
  | cons victim victims induction =>
      unfold LocalCache.evictToTarget
      split
      · exact ⟨.refl cache, fun _ _ found _ => found, good,
          List.Subset.refl _⟩
      · have first : Evolves cache (cache.evict victim).1 :=
          .evict cache victim
        obtain ⟨evolves, spares, left, fewer⟩ :=
          induction (used - (cache.evict victim).2) _ (keyed.evolves first)
            good.tail
        exact ⟨first.trans evolves, spares.cons good, left,
          List.subset_cons_of_subset _ fewer⟩

theorem evictForDisk_spec (config : CacheConfig) (free : FreeSpace)
    (victims : List CacheEntry) (round : Nat) (cache : LocalCache)
    (keyed : Keyed cache) (good : Victims cache victims) :
    Evolves cache
        (LocalCache.evictForDisk config free victims round cache).1 ∧
      Spares victims cache
        (LocalCache.evictForDisk config free victims round cache).1 := by
  induction victims generalizing round cache with
  | nil => exact ⟨.refl cache, fun _ _ found _ => found⟩
  | cons victim victims induction =>
      unfold LocalCache.evictForDisk
      split
      · exact ⟨.refl cache, fun _ _ found _ => found⟩
      · split
        · exact ⟨.refl cache, fun _ _ found _ => found⟩
        · split
          · exact ⟨.refl cache, fun _ _ found _ => found⟩
          · have first : Evolves cache (cache.evict victim).1 :=
              .evict cache victim
            obtain ⟨evolves, spares⟩ := induction (round + 1) _
              (keyed.evolves first) good.tail
            exact ⟨first.trans evolves, spares.cons good⟩

/-- The eviction routines leave every entry alone that is pinned, being
staged or being filled. -/
def Spared (before after : LocalCache) : Prop :=
  ∀ versionId entry, before.entry versionId = some entry →
    entry.evictable = false → after.entry versionId = some entry

theorem Spared.trans {first second third : LocalCache}
    (left : Spared first second) (right : Spared second third) :
    Spared first third :=
  fun versionId entry found busy =>
    right versionId entry (left versionId entry found busy) busy

theorem Spares.spared {before : LocalCache}
    (spares : Spares victims before after)
    (evictable : ∀ victim ∈ victims, victim.evictable = true) :
    Spared before after := by
  intro versionId entry found busy
  apply spares versionId entry found
  intro member
  simp [evictable entry member] at busy

theorem makeRoom_spared (config : CacheConfig) (cache : LocalCache)
    (size : Nat) (newEntry : Bool) (keep : Option Nat) (free : FreeSpace)
    (keyed : Keyed cache) :
    Spared cache (cache.makeRoom config size newEntry keep free).1 :=
  (makeRoom_spec config cache size newEntry keep free keyed).spares.spared
    (lruOrder_victims keyed keep).evictable

/-- A run over any list of victims drops nothing but its victims. -/
private theorem foldl_evict_spec (victims : List CacheEntry)
    (cache : LocalCache) (keyed : Keyed cache)
    (good : Victims cache victims) :
    Evolves cache
        (victims.foldl (fun cache entry => (cache.evict entry).1) cache) ∧
      Spares victims cache
        (victims.foldl (fun cache entry => (cache.evict entry).1) cache) := by
  induction victims generalizing cache with
  | nil => exact ⟨.refl cache, fun _ _ found _ => found⟩
  | cons victim victims induction =>
      have first : Evolves cache (cache.evict victim).1 :=
        .evict cache victim
      obtain ⟨evolves, spares⟩ := induction _ (keyed.evolves first)
        good.tail
      exact ⟨first.trans evolves, spares.cons good⟩

private theorem victims_of_filter (keyed : Keyed cache)
    (chosen : CacheEntry → Bool)
    (evictable : ∀ entry, chosen entry = true → entry.evictable = true) :
    Victims cache (cache.entries.values.filter chosen) := by
  refine ⟨?_, ?_, ?_⟩
  · have all : (cache.entries.values.map CacheEntry.versionId).Nodup := by
      rw [values_versionIds keyed]
      exact cache.entries.nodup
    exact all.sublist (List.filter_sublist.map _)
  · intro victim member
    exact mem_values_of_keyed keyed (List.mem_filter.mp member).1
  · intro victim member
    exact evictable victim (List.mem_filter.mp member).2

theorem expire_spec (config : CacheConfig) (now : Int) (cache : LocalCache)
    (keyed : Keyed cache) :
    Evolves cache (cache.expire config now).1 ∧
      Spared cache (cache.expire config now).1 := by
  unfold LocalCache.expire
  split
  · exact ⟨.refl cache, fun _ _ found _ => found⟩
  · have good := victims_of_filter keyed
      (fun entry => entry.evictable &&
        decide (config.maxAge ≤ now - entry.lastAccess)) (by
        intro entry chosen
        exact (Bool.and_eq_true_iff.mp chosen).1)
    obtain ⟨evolves, spares⟩ := foldl_evict_spec _ cache keyed good
    exact ⟨evolves, spares.spared good.evictable⟩

theorem sweepEvictions_spec (config : CacheConfig) (now : Int)
    (free : FreeSpace) (cache : LocalCache) (keyed : Keyed cache) :
    Evolves cache (cache.sweepEvictions config now free).1 ∧
      Spared cache (cache.sweepEvictions config now free).1 := by
  obtain ⟨expires, expiresSpared⟩ := expire_spec config now cache keyed
  have stillKeyed := keyed.evolves expires
  have good := lruOrder_victims stillKeyed none
  unfold LocalCache.sweepEvictions
  generalize cache.expire config now = expired at *
  obtain ⟨expiredCache, count⟩ := expired
  dsimp only at *
  generalize (expiredCache.lruOrder none).reverse = victims at *
  generalize expiredCache.usedBytes = used
  cases config.targetBytes with
  | none =>
      obtain ⟨evolves, spares⟩ :=
        evictForDisk_spec config free victims 0 expiredCache stillKeyed good
      exact ⟨expires.trans evolves,
        expiresSpared.trans (spares.spared good.evictable)⟩
  | some target =>
      obtain ⟨evolves, spares, left, _⟩ :=
        evictToTarget_spec target victims used expiredCache stillKeyed good
      obtain ⟨diskEvolves, diskSpares⟩ :=
        evictForDisk_spec config free _ 0 _ (stillKeyed.evolves evolves)
          left
      exact ⟨(expires.trans evolves).trans diskEvolves,
        (expiresSpared.trans (spares.spared good.evictable)).trans
          (diskSpares.spared left.evictable)⟩

theorem releaseStale_evolves (config : CacheConfig)
    (queueEmpty : String → Bool) (now : Int) (cache : LocalCache) :
    Evolves cache (cache.releaseStale config queueEmpty now).1 := by
  have folded : ∀ (stale : List CacheEntry) (start : LocalCache),
      Evolves start (stale.foldl (fun cache entry =>
        cache.release config entry.versionId) start) := by
    intro stale
    induction stale with
    | nil => exact fun start => .refl start
    | cons entry stale induction =>
        intro start
        exact (Evolves.release config start _).trans (induction _)
  exact folded _ cache

/-- The cache a sweep hands to its expiry and eviction passes. -/
def sweepReleased (config : CacheConfig) (cache : LocalCache)
    (listing : List (String × FileKind)) (queueEmpty : String → Bool)
    (now : Int) : LocalCache :=
  ((cache.sweepOrphans listing).1.releaseStale config queueEmpty now).1

theorem sweepReleased_evolves (config : CacheConfig) (cache : LocalCache)
    (listing : List (String × FileKind)) (queueEmpty : String → Bool)
    (now : Int) :
    Evolves cache (sweepReleased config cache listing queueEmpty now) :=
  (Evolves.issue cache _).trans (releaseStale_evolves config _ now _)

theorem sweep_spec (config : CacheConfig) (cache : LocalCache)
    (listing : List (String × FileKind)) (queueEmpty : String → Bool)
    (now : Int) (free : FreeSpace) (keyed : Keyed cache) :
    Evolves cache (cache.sweep config listing queueEmpty now free).1 ∧
      Spared (sweepReleased config cache listing queueEmpty now)
        (cache.sweep config listing queueEmpty now free).1 := by
  have released := sweepReleased_evolves config cache listing queueEmpty now
  obtain ⟨evolves, spared⟩ := sweepEvictions_spec config now free _
    (keyed.evolves released)
  exact ⟨(released.trans evolves).trans (.saveIndex _), spared⟩

private theorem dropAll_entry (cache : LocalCache) (versionIds : List String)
    {other : String} (outside : other ∉ versionIds) :
    (cache.dropAll versionIds).entry other = cache.entry other := by
  induction versionIds generalizing cache with
  | nil => rfl
  | cons versionId versionIds induction =>
      simp only [List.mem_cons, not_or] at outside
      have first : (cache.drop versionId).1.entry other =
          cache.entry other := by
        unfold LocalCache.drop
        split
        · rfl
        · simp [LocalCache.entry, LocalCache.unlink, LocalCache.issue,
            Dict.get?_erase, outside.1]
      exact (induction _ outside.2).trans first

theorem evictUnpinned_spared (cache : LocalCache) (keyed : Keyed cache) :
    Spared cache cache.evictUnpinned.1 := by
  intro versionId entry found busy
  have outside : versionId ∉
      (cache.entries.values.filter CacheEntry.evictable).map
        CacheEntry.versionId := by
    intro member
    obtain ⟨victim, chosen, same⟩ := List.mem_map.mp member
    obtain ⟨stored, evictable⟩ := List.mem_filter.mp chosen
    have victimFound := mem_values_of_keyed keyed stored
    rw [same, found] at victimFound
    cases victimFound
    simp [evictable] at busy
  have kept := dropAll_entry cache _ outside
  unfold LocalCache.evictUnpinned LocalCache.removeMany
  dsimp only
  split
  · exact kept.trans found
  · exact kept.trans found

/-- `write_blocks` leaves its cache alone, or makes room for an entry, or
claims the missing bytes of one in the room that is there. -/
theorem LocalCache.claimBlocks_cases {config : CacheConfig}
    {cache : LocalCache} {versionId : String} {begin_ : Nat}
    {data : List UInt8} {free : FreeSpace}
    {P : LocalCache → Option Fill → Prop} (unchanged : P cache none)
    (refused : ∀ entry needed, cache.entry versionId = some entry →
      P (cache.makeRoom config needed false (some entry.uid) free).1 none)
    (claimed : ∀ entry fill roomy, cache.entry versionId = some entry →
      entry.writing = false → begin_ % entry.blockSize = 0 →
      fill = ⟨entry.uid, versionId, begin_, data,
        coveredBlocks entry begin_ data.length,
        entry.missingBytes (coveredBlocks entry begin_ data.length)⟩ →
      (fill.added = 0 ∧ roomy = (cache, none) ∨
        roomy = cache.makeRoom config fill.added false (some entry.uid)
          free) → roomy.2 = none →
      P (roomy.1.update versionId entry.uid fun entry =>
        entry.withInflight (entry.inflight + fill.added)) (some fill)) :
    P (cache.claimBlocks config versionId begin_ data free).1
      (cache.claimBlocks config versionId begin_ data free).2 := by
  unfold LocalCache.claimBlocks
  cases found : cache.entry versionId with
  | none => exact unchanged
  | some entry =>
      dsimp only
      split
      · exact unchanged
      · rename_i accepted
        have idle : entry.writing = false := by
          cases staging : entry.writing with
          | false => rfl
          | true => simp [staging] at accepted
        split
        · exact unchanged
        · rename_i inside
          split
          · exact unchanged
          · have claimed := claimed entry _
              (if entry.missingBytes (coveredBlocks entry begin_ data.length)
                  = 0 then (cache, none)
                else cache.makeRoom config (entry.missingBytes
                  (coveredBlocks entry begin_ data.length)) false
                  (some entry.uid) free) found idle (by omega) rfl
            split
            · split
              · exact unchanged
              · exact refused entry _ found
            · rename_i granted
              refine claimed ?_ granted
              split
              · rename_i nothing
                exact .inl ⟨nothing, rfl⟩
              · exact .inr rfl

end Tgdcfs
