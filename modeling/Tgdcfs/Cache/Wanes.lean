import Tgdcfs.Cache.Mirror

/-!
# Operations that drop or relabel entries

Removal, release and eviction, the sweep and the ends of failed writes only
drop or relabel entries.  Each of them is assembled from the rules for a
relabelled entry, a dropped one, a file that no entry refers to, and a write
of the index.
-/

namespace Tgdcfs

open Lib

variable {content : String → List UInt8}

section Frame

variable {cache : LocalCache} {disk later : Disk} {dirty : Bool}

theorem Mirrors.of_disk (mirrors : Mirrors content cache disk)
    (extended : disk.Extends content later)
    (maps : ∀ versionId entry, cache.entry versionId = some entry →
      later.maps.get? versionId = disk.maps.get? versionId)
    (paths : ∀ versionId entry, cache.entry versionId = some entry →
      later.paths.get? versionId = disk.paths.get? versionId)
    (index : later.index = disk.index)
    (stale : ∀ record ∈ disk.index, cache.entry record.versionId = none →
      disk.data record.versionId = none →
        later.data record.versionId = none) :
    Mirrors content cache later := by
  refine ⟨?_, ?_, ?_, index ▸ mirrors.distinct⟩
  · intro versionId entry found
    exact (mirrors.stored versionId entry found).extends extended
      (maps versionId entry found) (paths versionId entry found)
  · intro record member
    rw [index] at member
    exact (mirrors.recorded record member).imp_right fun gone =>
      ⟨gone.1, stale record member gone.1 gone.2⟩
  · rw [index]
    exact mirrors.listed

theorem Aligned.of_disk (aligned : Aligned content dirty cache disk)
    (extended : disk.Extends content later)
    (maps : ∀ versionId entry, cache.entry versionId = some entry →
      later.maps.get? versionId = disk.maps.get? versionId)
    (paths : ∀ versionId,
      later.paths.get? versionId = disk.paths.get? versionId)
    (index : later.index = disk.index) :
    Aligned content dirty cache later := by
  refine ⟨aligned.mirrors.of_disk extended maps (fun versionId _ _ =>
      paths versionId) index ?_, aligned.keyed, aligned.fresh, ?_,
    index ▸ aligned.current⟩
  · intro record _ missing _
    rw [Disk.data, paths, aligned.absent record.versionId missing]
    rfl
  · intro versionId missing
    exact (paths versionId).trans (aligned.absent versionId missing)

/-- The issued steps and the cache's own bookkeeping of them aside, a cache
with the same entries is mirrored alike. -/
theorem Mirrors.congr {other : LocalCache}
    (mirrors : Mirrors content cache disk)
    (entries : other.entries = cache.entries) :
    Mirrors content other disk := by
  have same : ∀ versionId, other.entry versionId = cache.entry versionId :=
    fun versionId => by rw [LocalCache.entry, entries, LocalCache.entry]
  refine ⟨?_, ?_, ?_, mirrors.distinct⟩
  · intro versionId entry found
    exact mirrors.stored versionId entry (same versionId ▸ found)
  · intro record member
    rw [same]
    exact mirrors.recorded record member
  · intro versionId entry found
    exact mirrors.listed versionId entry (same versionId ▸ found)

theorem Aligned.congr (aligned : Aligned content dirty cache disk)
    (other : LocalCache) (entries : other.entries = cache.entries)
    (nextUid : other.nextUid = cache.nextUid) :
    Aligned content dirty other disk := by
  have same : ∀ versionId, other.entry versionId = cache.entry versionId :=
    fun versionId => by rw [LocalCache.entry, entries, LocalCache.entry]
  refine ⟨aligned.mirrors.congr entries, ?_, ?_, ?_, ?_⟩
  · intro versionId entry found
    exact aligned.keyed versionId entry (same versionId ▸ found)
  · intro versionId entry found
    rw [nextUid]
    exact aligned.fresh versionId entry (same versionId ▸ found)
  · intro versionId missing
    exact aligned.absent versionId (same versionId ▸ missing)
  · intro clean record member
    rw [same]
    exact aligned.current clean record member

theorem Aligned.unlinkAbsent (aligned : Aligned content dirty cache disk)
    {versionId : String} (missing : cache.entry versionId = none)
    (kind : FileKind) :
    Aligned content dirty cache (disk.apply (.unlink versionId kind)) ∧
      disk.Extends content (disk.apply (.unlink versionId kind)) ∧
      ∀ other, (disk.apply (.unlink versionId kind)).paths.get? other =
        disk.paths.get? other := by
  have path := aligned.absent versionId missing
  have paths : ∀ other,
      (disk.apply (.unlink versionId kind)).paths.get? other =
        disk.paths.get? other := by
    intro other
    cases kind with
    | map => rfl
    | data =>
        simp only [Disk.apply, Disk.unlinkData, Dict.get?_erase]
        split
        · rename_i same
          rw [same, path]
        · rfl
  have extended :
      disk.Extends content (disk.apply (.unlink versionId kind)) := by
    cases kind with
    | map => exact .of_files rfl rfl rfl fun _ _ found => found
    | data =>
        exact .of_files rfl rfl rfl fun other inode found =>
          (paths other).symm.trans found
  refine ⟨aligned.of_disk extended ?_ paths (by cases kind <;> rfl),
    extended, paths⟩
  intro other entry found
  cases kind with
  | data => rfl
  | map =>
      have different : other ≠ versionId := by
        intro same
        rw [same, missing] at found
        cases found
      simp only [Disk.apply, Dict.get?_erase, if_neg different]

end Frame

theorem Passage.fading_trans {dirty dirtyAfter : Bool}
    {first second third : LocalCache} {disk : Disk}
    {left right : List DiskStep}
    (opening : Passage content Fading dirty first disk left second)
    (closing : Passage content Fading dirtyAfter second (disk.replay left)
      right third)
    (faded : Fades first second) (fading : Fades second third) :
    Passage content Fading dirtyAfter first disk (left ++ right) third := by
  refine ⟨?_, ?_, ?_, ?_⟩
  · rw [closing.issued, opening.issued, List.append_assoc]
  · rw [Disk.replay_append]
    exact closing.aligned
  · rw [Disk.replay_append]
    exact opening.follows.trans closing.follows
  · apply Passes.append
    · exact opening.passes.mono fun middle between =>
        ⟨between.1, between.2.trans fading⟩
    · exact closing.passes.mono fun middle between =>
        ⟨faded.trans between.1, between.2⟩

theorem Passage.written {dirty : Bool} {cache : LocalCache} {disk : Disk}
    {target : DataTarget} {offset : Nat} {bytes : List UInt8}
    (aligned : Aligned content dirty cache disk)
    (faithful : disk.Faithful content target offset bytes) :
    Passage content Fading dirty cache disk
      [.writeData target offset bytes]
      (cache.issue [.writeData target offset bytes]) := by
  have fades : Fades cache (cache.issue [.writeData target offset bytes]) :=
    .of_entries_eq rfl rfl
  have extended := Disk.Extends.writeData faithful
  have after := (aligned.of_disk extended (fun _ _ _ => by simp)
    (fun _ => by simp) (by simp)).congr
      (cache.issue [.writeData target offset bytes]) rfl rfl
  exact ⟨rfl, after, .of_fades fades extended fun _ _ _ => by
    simp [Disk.apply],
    .cons aligned.mirrors ⟨.refl cache, fades⟩
      (.nil after.mirrors ⟨fades, .refl _⟩)⟩

namespace Wanes

variable {dirty dirtyMiddle dirtyAfter : Bool}
  {first second third before after : LocalCache}

theorem refl (cache : LocalCache) : Wanes content dirty dirty cache cache := by
  refine ⟨.refl cache, [], fun disk aligned => ⟨by simp, aligned,
    .refl cache disk, .nil aligned.mirrors ⟨.refl cache, .refl cache⟩⟩⟩

theorem trans (left : Wanes content dirty dirtyMiddle first second)
    (right : Wanes content dirtyMiddle dirtyAfter second third) :
    Wanes content dirty dirtyAfter first third := by
  obtain ⟨faded, steps, opening⟩ := left
  obtain ⟨fading, more, closing⟩ := right
  refine ⟨faded.trans fading, steps ++ more, ?_⟩
  intro disk aligned
  exact (opening disk aligned).fading_trans
    (closing _ (opening disk aligned).aligned) faded fading

/-- What leaves the index to be written may as well find it written. -/
theorem weaken (wanes : Wanes content dirty dirtyAfter before after) :
    Wanes content dirty true before after := by
  obtain ⟨fades, steps, passage⟩ := wanes
  refine ⟨fades, steps, ?_⟩
  intro disk aligned
  have done := passage disk aligned
  exact ⟨done.issued, done.aligned.dirty, done.follows, done.passes⟩

/-- Mutating an entry object that only fades touches no file. -/
theorem update (cache : LocalCache) (versionId : String) (uid : Nat)
    {change : CacheEntry → CacheEntry}
    (faded : ∀ entry : CacheEntry, entry.Faded (change entry)) :
    Wanes content dirty dirty cache (cache.update versionId uid change) := by
  have entries : ∀ other, (cache.update versionId uid change).entry other =
      if other = versionId then
        (cache.entry other).map fun entry =>
          if entry.uid = uid then change entry else entry
      else cache.entry other := fun other => Dict.get?_modify ..
  have fades : Fades cache (cache.update versionId uid change) := by
    refine ⟨?_, rfl⟩
    intro other later found
    rw [entries] at found
    split at found
    · obtain ⟨earlier, earlierFound, rfl⟩ := Option.map_eq_some_iff.mp found
      refine ⟨earlier, earlierFound, ?_⟩
      split
      · exact faded earlier
      · exact .refl earlier
    · exact ⟨later, found, .refl later⟩
  have missing : ∀ other, (cache.update versionId uid change).entry other =
      none → cache.entry other = none := by
    intro other gone
    rw [entries] at gone
    split at gone
    · exact Option.map_eq_none_iff.mp gone
    · exact gone
  refine ⟨fades, [], fun disk aligned => ⟨by simp [LocalCache.update], ?_,
    .of_fades fades (.refl disk) fun _ _ _ => rfl,
    .nil aligned.mirrors ⟨.refl cache, fades⟩⟩⟩
  refine ⟨⟨?_, ?_, ?_, aligned.mirrors.distinct⟩, fades.keyed aligned.keyed,
    fades.fresh aligned.fresh,
    fun other gone => aligned.absent other (missing other gone), ?_⟩
  · intro other later found
    obtain ⟨earlier, earlierFound, stage⟩ :=
      fades.entries other later found
    exact stage.stored (aligned.mirrors.stored other earlier earlierFound)
  · intro record member
    rcases aligned.mirrors.recorded record member with
      ⟨entry, found, describes⟩ | ⟨gone, unlinked⟩
    · cases later : (cache.update versionId uid change).entry
          record.versionId with
      | none =>
          have impossible := missing _ later
          simp [found] at impossible
      | some entry' =>
          obtain ⟨earlier, earlierFound, stage⟩ :=
            fades.entries _ entry' later
          rw [found] at earlierFound
          cases earlierFound
          exact .inl ⟨entry', rfl, stage.describes describes⟩
    · exact .inr ⟨fades.none gone, unlinked⟩
  · intro other later found
    obtain ⟨earlier, earlierFound, stage⟩ :=
      fades.entries other later found
    obtain ⟨record, member, named, pinned⟩ :=
      aligned.mirrors.listed other earlier earlierFound
    exact ⟨record, member, named, fun pins =>
      pinned (lt_of_lt_of_le pins stage.pins)⟩
  · intro clean record member
    obtain ⟨entry, found⟩ :=
      Option.isSome_iff_exists.mp (aligned.current clean record member)
    rw [Option.isSome_iff_ne_none]
    intro gone
    have impossible := missing _ gone
    simp [found] at impossible

variable {cache : LocalCache}

theorem mem_records (keyed : Keyed cache) {record : IndexRecord}
    (member : record ∈ cache.entries.values.map indexRecord) :
    ∃ entry, cache.entry record.versionId = some entry ∧
      record = indexRecord entry := by
  obtain ⟨entry, value, rfl⟩ := List.mem_map.mp member
  exact ⟨entry, mem_values_of_keyed keyed value, rfl⟩

/-- A freshly written index describes the entries whose files are there. -/
theorem aligned_index {disk : Disk} (keyed : Keyed cache)
    (fresh : ∀ versionId entry, cache.entry versionId = some entry →
      entry.uid < cache.nextUid)
    (absent : ∀ versionId, cache.entry versionId = none →
      disk.paths.get? versionId = none)
    (stored : ∀ versionId entry, cache.entry versionId = some entry →
      Stored content disk versionId entry) :
    Aligned content false cache
      (disk.apply (.replaceIndex
        (cache.entries.values.map indexRecord))) := by
  refine ⟨⟨?_, ?_, ?_, ?_⟩, keyed, fresh, absent, ?_⟩
  · intro versionId entry found
    obtain ⟨map, data⟩ := stored versionId entry found
    exact ⟨map, data⟩
  · intro record member
    obtain ⟨entry, found, rfl⟩ := mem_records keyed member
    exact .inl ⟨entry, found, rfl, rfl, rfl⟩
  · intro versionId entry found
    have value : entry ∈ cache.entries.values :=
      (Dict.mem_values_iff _ _).mpr ⟨versionId, found⟩
    exact ⟨indexRecord entry, List.mem_map.mpr ⟨entry, value, rfl⟩,
      keyed versionId entry found, id⟩
  · have names : ((cache.entries.values.map indexRecord).map
        IndexRecord.versionId) = cache.entries.keys := by
      rw [List.map_map]
      exact values_versionIds keyed
    exact names ▸ cache.entries.nodup
  · intro _ record member
    obtain ⟨entry, found, _⟩ := mem_records keyed member
    exact Option.isSome_iff_exists.mpr ⟨entry, found⟩

theorem aligned_saveIndex {disk : Disk}
    (aligned : Aligned content dirty cache disk) :
    Aligned content false cache.saveIndex
      (disk.apply (.replaceIndex
        (cache.entries.values.map indexRecord))) :=
  (aligned_index aligned.keyed aligned.fresh aligned.absent
    aligned.mirrors.stored).congr _ rfl rfl

theorem saveIndex (cache : LocalCache) :
    Wanes content dirty false cache cache.saveIndex := by
  have fades : Fades cache cache.saveIndex := .of_entries_eq rfl rfl
  refine ⟨fades, [.replaceIndex (cache.entries.values.map indexRecord)],
    fun disk aligned => ⟨rfl, aligned_saveIndex aligned, ?_, ?_⟩⟩
  · exact .of_fades fades (.of_files rfl rfl rfl fun _ _ found => found)
      fun _ _ _ => rfl
  · exact .cons aligned.mirrors ⟨.refl cache, fades⟩
      (.nil (aligned_saveIndex aligned).mirrors ⟨fades, .refl _⟩)

/-- Dropping an entry unlinks its data file before its map, and leaves its
record in the index. -/
theorem drop (cache : LocalCache) (versionId : String) :
    Wanes content dirty true cache (cache.drop versionId).1 := by
  unfold LocalCache.drop
  cases found : cache.entries.get? versionId with
  | none => exact (refl cache).weaken
  | some entry =>
      have entries : ∀ other,
          (({ cache with entries := cache.entries.erase versionId } :
            LocalCache).unlink versionId).entry other =
              if other = versionId then none else cache.entry other :=
        fun other => Dict.get?_erase ..
      have fades : Fades cache (({ cache with
          entries := cache.entries.erase versionId } :
            LocalCache).unlink versionId) := by
        refine ⟨?_, rfl⟩
        intro other later laterFound
        rw [entries] at laterFound
        split at laterFound
        · cases laterFound
        · exact ⟨later, laterFound, .refl later⟩
      refine ⟨fades, [.unlink versionId .data, .unlink versionId .map], ?_⟩
      intro disk aligned
      -- The entry is gone with its data file; its map may still be there.
      have unlinked : Aligned content true
          (({ cache with entries := cache.entries.erase versionId } :
            LocalCache).unlink versionId)
          (disk.apply (.unlink versionId .data)) := by
        refine ⟨⟨?_, ?_, ?_, aligned.mirrors.distinct⟩,
          fades.keyed aligned.keyed, fades.fresh aligned.fresh, ?_,
          fun impossible => nomatch impossible⟩
        · intro other later laterFound
          rw [entries] at laterFound
          split at laterFound
          · cases laterFound
          · rename_i different
            obtain ⟨map, bytes, linked, rest⟩ :=
              aligned.mirrors.stored other later laterFound
            refine ⟨map, bytes, ?_, rest⟩
            exact (disk.data_unlinkData versionId other).trans
              ((if_neg different).trans linked)
        · intro record member
          by_cases same : record.versionId = versionId
          · exact .inr ⟨(entries _).trans (if_pos same),
              (disk.data_unlinkData versionId _).trans (if_pos same)⟩
          · rcases aligned.mirrors.recorded record member with
              ⟨other, otherFound, describes⟩ | ⟨gone, missing⟩
            · exact .inl ⟨other, (entries _).trans
                ((if_neg same).trans otherFound), describes⟩
            · exact .inr ⟨(entries _).trans ((if_neg same).trans gone),
                (disk.data_unlinkData versionId _).trans
                  ((if_neg same).trans missing)⟩
        · intro other later laterFound
          rw [entries] at laterFound
          split at laterFound
          · cases laterFound
          · exact aligned.mirrors.listed other later laterFound
        · intro other gone
          rw [entries] at gone
          simp only [Disk.apply, Disk.unlinkData, Dict.get?_erase]
          split at gone
          · rename_i same
            rw [if_pos same]
          · rename_i different
            rw [if_neg different]
            exact aligned.absent other gone
      have gone := (entries versionId).trans (if_pos rfl)
      obtain ⟨final, _, paths⟩ := unlinked.unlinkAbsent gone .map
      have extended : disk.Extends content
          (disk.replay [.unlink versionId .data,
            .unlink versionId .map]) := by
        refine .of_files rfl rfl rfl ?_
        intro other inode linked
        simp only [Disk.replay_cons, Disk.replay_nil, paths] at linked
        simp only [Disk.apply, Disk.unlinkData, Dict.get?_erase] at linked
        split at linked
        · cases linked
        · exact linked
      refine ⟨rfl, final, .of_fades fades extended ?_, ?_⟩
      · intro other later laterFound
        rw [entries] at laterFound
        split at laterFound
        · cases laterFound
        · rename_i different
          simp only [Disk.replay_cons, Disk.replay_nil, paths]
          exact (Dict.get?_erase ..).trans (if_neg different)
      · exact .cons aligned.mirrors ⟨.refl cache, fades⟩
          (.cons unlinked.mirrors ⟨fades, .refl _⟩
            (.nil final.mirrors ⟨fades, .refl _⟩))

theorem unlinkAll (cache : LocalCache) (files : List (String × FileKind))
    (missing : ∀ file ∈ files, cache.entry file.1 = none) :
    Wanes content dirty dirty cache
      (cache.issue (files.map fun file => .unlink file.1 file.2)) := by
  induction files generalizing cache with
  | nil =>
      have same : cache.issue (([] : List (String × FileKind)).map
          fun file => .unlink file.1 file.2) = cache := by
        simp [LocalCache.issue]
      rw [same]
      exact refl cache
  | cons file files induction =>
      have split : cache.issue ((file :: files).map fun file =>
          DiskStep.unlink file.1 file.2) =
            (cache.issue [.unlink file.1 file.2]).issue
              (files.map fun file => .unlink file.1 file.2) := by
        simp [LocalCache.issue]
      have gone := missing file List.mem_cons_self
      have fades : Fades cache (cache.issue [.unlink file.1 file.2]) :=
        .of_entries_eq rfl rfl
      have first : Wanes content dirty dirty cache
          (cache.issue [.unlink file.1 file.2]) := by
        refine ⟨fades, [.unlink file.1 file.2], ?_⟩
        intro disk aligned
        obtain ⟨unlinked, extended, paths⟩ :=
          aligned.unlinkAbsent gone file.2
        have after := unlinked.congr
          (cache.issue [.unlink file.1 file.2]) rfl rfl
        exact ⟨rfl, after, .of_fades fades extended fun other _ _ =>
          paths other, .cons aligned.mirrors ⟨.refl cache, fades⟩
            (.nil after.mirrors ⟨fades, .refl _⟩)⟩
      rw [split]
      exact first.trans (induction _ fun other member =>
        missing other (List.mem_cons_of_mem _ member))

theorem unlink (cache : LocalCache) {versionId : String}
    (missing : cache.entry versionId = none) :
    Wanes content dirty dirty cache (cache.unlink versionId) := by
  refine unlinkAll cache [(versionId, .data), (versionId, .map)] ?_
  intro file member
  simp only [List.mem_cons, List.not_mem_nil, or_false] at member
  rcases member with rfl | rfl <;> exact missing

theorem settle (wanes : Wanes content dirty false before after) :
    Wanes content dirty dirtyAfter before after := by
  cases dirtyAfter with
  | false => exact wanes
  | true => exact wanes.weaken

theorem remove (cache : LocalCache) (versionId : String) :
    Wanes content dirty dirty cache (cache.remove versionId) := by
  have dropped : Wanes content dirty true cache (cache.drop versionId).1 :=
    drop cache versionId
  unfold LocalCache.remove
  dsimp only
  cases found : cache.entries.get? versionId with
  | none =>
      have same : cache.drop versionId = (cache, false) := by
        rw [LocalCache.drop, found]
      rw [same]
      exact refl cache
  | some entry =>
      have gone : (cache.drop versionId).2 = true := by
        rw [LocalCache.drop, found]
      rw [if_pos gone]
      exact (dropped.trans (saveIndex _)).settle

theorem dropAll (cache : LocalCache) (versionIds : List String) :
    Wanes content dirty true cache (cache.dropAll versionIds) := by
  induction versionIds generalizing cache dirty with
  | nil => exact (refl cache).weaken
  | cons versionId versionIds induction =>
      exact (drop cache versionId).trans (induction _)

theorem dropAll_of_absent (cache : LocalCache) {versionIds : List String}
    (absent : versionIds.any cache.entries.contains = false) :
    cache.dropAll versionIds = cache := by
  induction versionIds with
  | nil => rfl
  | cons versionId versionIds induction =>
      simp only [List.any_cons, Bool.or_eq_false_iff] at absent
      have missing : cache.entries.get? versionId = none :=
        Option.isNone_iff_eq_none.mp (by
          simpa [Dict.contains] using absent.1)
      have same : (cache.drop versionId).1 = cache := by
        rw [LocalCache.drop, missing]
      rw [LocalCache.dropAll, List.foldl_cons, same]
      exact induction absent.2

theorem removeMany (cache : LocalCache) (versionIds : List String) :
    Wanes content dirty dirty cache (cache.removeMany versionIds) := by
  unfold LocalCache.removeMany
  dsimp only
  split
  · exact ((dropAll cache versionIds).trans (saveIndex _)).settle
  · rename_i absent
    rw [dropAll_of_absent cache (Bool.eq_false_of_not_eq_true absent)]
    exact refl cache

theorem removeExisting (cache : LocalCache) (versionId : String) :
    Wanes content dirty dirty cache (cache.removeExisting versionId) := by
  unfold LocalCache.removeExisting
  split
  · exact remove cache versionId
  · exact refl cache

theorem relabel (cache : LocalCache) (versionId : String) (uid : Nat)
    (pins inflight : CacheEntry → Nat)
    (lastAccess pinnedAt : CacheEntry → Int)
    (fewer : ∀ entry : CacheEntry, pins entry ≤ entry.pins) :
    Wanes content dirty dirty cache (cache.update versionId uid
      fun entry =>
        { entry with
          pins := pins entry
          lastAccess := lastAccess entry
          pinnedAt := pinnedAt entry
          inflight := inflight entry }) :=
  update cache versionId uid fun entry =>
    ⟨rfl, rfl, rfl, rfl, rfl, rfl, fewer entry⟩

theorem unpin (cache : LocalCache) (versionId : String) :
    Wanes content dirty dirty cache (cache.unpin versionId) := by
  unfold LocalCache.unpin
  split
  · exact refl cache
  · exact relabel cache versionId _ (fun entry => entry.pins - 1)
      CacheEntry.inflight CacheEntry.lastAccess CacheEntry.pinnedAt
      fun _ => Nat.sub_le _ _

theorem release (config : CacheConfig) (cache : LocalCache)
    (versionId : String) :
    Wanes content dirty dirty cache (cache.release config versionId) := by
  unfold LocalCache.release
  split
  · exact refl cache
  · rename_i entry _
    have unpinned : Wanes content dirty dirty cache
        (cache.update versionId entry.uid fun entry =>
          { entry with pins := 0, pinnedAt := 0 }) :=
      relabel cache versionId entry.uid (fun _ => 0) CacheEntry.inflight
        CacheEntry.lastAccess (fun _ => 0) fun _ => Nat.zero_le _
    dsimp only
    split
    · exact (unpinned.trans (saveIndex _)).settle
    · exact unpinned.trans (remove _ _)

theorem returnClaim (cache : LocalCache) (fill : Fill) :
    Wanes content dirty dirty cache (cache.returnClaim fill) :=
  relabel cache fill.versionId fill.uid CacheEntry.pins
    (fun entry => entry.inflight - fill.added) CacheEntry.lastAccess
    CacheEntry.pinnedAt fun _ => le_rfl

theorem evictUnpinned (cache : LocalCache) :
    Wanes content dirty dirty cache cache.evictUnpinned.1 :=
  removeMany cache _

theorem evictAll (victims : List CacheEntry) (cache : LocalCache) :
    Wanes content dirty true cache
      (victims.foldl (fun cache entry => (cache.evict entry).1) cache) := by
  induction victims generalizing cache dirty with
  | nil => exact (refl cache).weaken
  | cons victim victims induction =>
      exact (drop cache victim.versionId).trans (induction _)

theorem makeRoomLoop (config : CacheConfig) (size : Nat) (newEntry : Bool)
    (keep : Option Nat) (free : FreeSpace) (victims : List CacheEntry)
    (evicted used : Nat) (cache : LocalCache) :
    let room := LocalCache.makeRoomLoop config size newEntry keep free victims
      evicted used cache
    Wanes content dirty true cache room.cache ∧ evicted ≤ room.evicted ∧
      (room.evicted = evicted → room.cache = cache) := by
  induction victims generalizing evicted used cache dirty with
  | nil =>
      unfold LocalCache.makeRoomLoop
      dsimp only
      split <;> exact ⟨(refl cache).weaken, le_rfl, fun _ => rfl⟩
  | cons victim victims induction =>
      unfold LocalCache.makeRoomLoop
      split
      · exact ⟨(refl cache).weaken, le_rfl, fun _ => rfl⟩
      · obtain ⟨rest, more, _⟩ := @induction true (evicted + 1)
          (used - (cache.evict victim).2) (cache.evict victim).1
        refine ⟨(drop cache victim.versionId).trans rest,
          Nat.le_of_succ_le more, ?_⟩
        intro same
        dsimp only at same more
        omega

theorem makeRoom (config : CacheConfig) (cache : LocalCache) (size : Nat)
    (newEntry : Bool) (keep : Option Nat) (free : FreeSpace) :
    Wanes content dirty dirty cache
      (cache.makeRoom config size newEntry keep free).1 := by
  obtain ⟨wanes, _, idle⟩ := @makeRoomLoop content dirty config size newEntry
    keep free (cache.lruOrder keep).reverse 0 cache.usedBytes cache
  unfold LocalCache.makeRoom
  dsimp only
  split
  · rename_i unevicted
    rw [idle unevicted]
    exact refl cache
  · exact (wanes.trans (saveIndex _)).settle

theorem evictToTarget (target : Nat) (victims : List CacheEntry)
    (used : Nat) (cache : LocalCache) :
    Wanes content dirty true cache
      (LocalCache.evictToTarget target victims used cache).2.1 := by
  induction victims generalizing used cache dirty with
  | nil => exact (refl cache).weaken
  | cons victim victims induction =>
      unfold LocalCache.evictToTarget
      split
      · exact (refl cache).weaken
      · exact (drop cache victim.versionId).trans (induction _ _)

theorem evictForDisk (config : CacheConfig) (free : FreeSpace)
    (victims : List CacheEntry) (round : Nat) (cache : LocalCache) :
    Wanes content dirty true cache
      (LocalCache.evictForDisk config free victims round cache).1 := by
  induction victims generalizing round cache dirty with
  | nil => exact (refl cache).weaken
  | cons victim victims induction =>
      unfold LocalCache.evictForDisk
      split
      · exact (refl cache).weaken
      · split
        · exact (refl cache).weaken
        · split
          · exact (refl cache).weaken
          · exact (drop cache victim.versionId).trans (induction _ _)

theorem expire (config : CacheConfig) (now : Int) (cache : LocalCache) :
    Wanes content dirty true cache (cache.expire config now).1 := by
  unfold LocalCache.expire
  split
  · exact (refl cache).weaken
  · exact evictAll _ cache

theorem sweepEvictions (config : CacheConfig) (now : Int)
    (free : FreeSpace) (cache : LocalCache) :
    Wanes content dirty true cache
      (cache.sweepEvictions config now free).1 := by
  have aged : Wanes content dirty true cache (cache.expire config now).1 :=
    expire config now cache
  -- stated for any result, so that no check unfolds the evictions
  have passed : ∀ (left : List CacheEntry) (reached : LocalCache)
      (evicted : Nat), Wanes content dirty true cache reached →
        Wanes content dirty true cache (left, reached, evicted).2.1 :=
    fun _ _ _ reached => reached
  have forDisk : ∀ left : List CacheEntry × LocalCache × Nat,
      Wanes content dirty true cache left.2.1 →
        Wanes content dirty true cache
          (LocalCache.evictForDisk config free left.1 0 left.2.1).1 :=
    fun left reached => reached.trans
      (evictForDisk config free left.1 0 left.2.1)
  unfold LocalCache.sweepEvictions
  apply forDisk
  split
  · exact passed _ _ _ aged
  · exact aged.trans (evictToTarget _ _ _ _)

theorem sweepOrphans (cache : LocalCache)
    (listing : List (String × FileKind)) :
    Wanes content dirty dirty cache (cache.sweepOrphans listing).1 := by
  apply unlinkAll
  intro file member
  have orphan := (List.mem_filter.mp member).2
  apply Option.isNone_iff_eq_none.mp
  simpa [Dict.contains, LocalCache.entry] using orphan

theorem releaseStale (config : CacheConfig) (queueEmpty : String → Bool)
    (now : Int) (cache : LocalCache) :
    Wanes content dirty dirty cache
      (cache.releaseStale config queueEmpty now).1 := by
  have folded : ∀ (stale : List CacheEntry) (start : LocalCache),
      Wanes content dirty dirty start (stale.foldl (fun cache entry =>
        cache.release config entry.versionId) start) := by
    intro stale
    induction stale with
    | nil => exact fun start => refl start
    | cons entry stale induction =>
        exact fun start =>
          (release config start entry.versionId).trans (induction _)
  exact folded _ cache

theorem sweep (config : CacheConfig) (cache : LocalCache)
    (listing : List (String × FileKind)) (queueEmpty : String → Bool)
    (now : Int) (free : FreeSpace) :
    Wanes content dirty dirty cache
      (cache.sweep config listing queueEmpty now free).1 :=
  ((((sweepOrphans cache listing).trans
    (releaseStale config queueEmpty now _)).trans
      (sweepEvictions config now free _)).trans (saveIndex _)).settle

theorem writePath (cache : LocalCache) {versionId : String} {offset : Nat}
    {bytes : List UInt8}
    (honest : bytes <+: (content versionId).drop offset) :
    Wanes content dirty dirty cache
      (cache.issue [.writeData (.path versionId) offset bytes]) :=
  ⟨.of_entries_eq rfl rfl, _, fun _ aligned =>
    .written aligned (.of_path honest)⟩

theorem claimBlocks (config : CacheConfig) (cache : LocalCache)
    (versionId : String) (begin_ : Nat) (data : List UInt8)
    (free : FreeSpace) :
    Wanes content dirty dirty cache
      (cache.claimBlocks config versionId begin_ data free).1 := by
  apply LocalCache.claimBlocks_cases (P := fun later _ =>
    Wanes content dirty dirty cache later) (refl cache)
    fun _ needed _ => makeRoom config cache needed _ _ _
  intro entry fill roomy _ _ _ _ made _
  refine .trans ?_ (relabel _ _ _ CacheEntry.pins
    (fun entry => entry.inflight + fill.added) CacheEntry.lastAccess
    CacheEntry.pinnedAt fun _ => le_rfl)
  rcases made with ⟨_, rfl⟩ | rfl
  · exact refl cache
  · exact makeRoom config cache _ _ _ _

theorem failBlocks (cache : LocalCache) (fill : Fill) (written : Nat)
    (honest : fill.data <+: (content fill.versionId).drop fill.begin_) :
    Wanes content dirty dirty cache (cache.failBlocks fill written) :=
  ((writePath cache ((List.take_prefix written _).trans honest)).trans
    (returnClaim _ fill)).trans (remove _ _)

/-- What was done to an entry that is then removed is forgotten. -/
theorem update_remove (cache : LocalCache) (versionId : String) (uid : Nat)
    (change : CacheEntry → CacheEntry) :
    (cache.update versionId uid change).remove versionId =
      cache.remove versionId := by
  unfold LocalCache.remove LocalCache.drop
  cases found : cache.entries.get? versionId with
  | none =>
      have absent : cache.update versionId uid change = cache := by
        rw [LocalCache.update, Dict.modify_of_absent _ _ _ found]
      rw [absent, found]
  | some entry =>
      have present : (cache.update versionId uid change).entries.get?
          versionId = some (if entry.uid = uid then change entry
            else entry) := by
        simp [LocalCache.update, Dict.get?_modify, found]
      rw [present]
      simp only [LocalCache.update, Dict.erase_modify]

theorem endAbort (cache : LocalCache) (writer : StagingWriter) :
    Wanes content dirty dirty cache (writer.endAbort cache).2 := by
  have same : (writer.endAbort cache).2 =
      cache.remove writer.versionId := update_remove ..
  rw [same]
  exact remove cache writer.versionId

end Wanes

end Tgdcfs
