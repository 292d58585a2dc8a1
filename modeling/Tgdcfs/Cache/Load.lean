import Tgdcfs.Cache.DiskInvariant

/-!
# What the next process finds

`load` turns a directory that mirrors some cache into the settled entries of
that cache: entries that were still being staged are gone, the others keep
their blocks, and those that were pinned are pinned once.  The files of all
other versions are removed, so that the loaded cache and its directory are
aligned again.
-/

namespace Tgdcfs

open Lib

variable {content : String → List UInt8} {config : CacheConfig}
  {disk : Disk} {mtime : String → Int}

theorem loadEntry_spec {uid : Nat} {record : IndexRecord}
    {loaded : CacheEntry}
    (found : LocalCache.loadEntry disk mtime uid record = some loaded) :
    loaded.uid = uid ∧ loaded.versionId = record.versionId ∧
      loaded.size = record.size ∧ loaded.blockSize = record.blockSize ∧
      disk.maps.get? record.versionId = some loaded.present ∧
      (disk.data record.versionId).isSome ∧ record.writing = false ∧
      loaded.writing = false ∧ loaded.inflight = 0 ∧
      (0 < record.pins → 0 < loaded.pins) := by
  unfold LocalCache.loadEntry at found
  split at found
  · rename_i flags bytes map data
    split at found
    · split at found
      · cases found
      · rename_i settled
        cases found
        refine ⟨rfl, rfl, rfl, rfl, map, ?_,
          Bool.eq_false_of_not_eq_true settled, rfl, rfl, ?_⟩
        · rw [data]
          rfl
        · intro pinned
          simp [pinned]
    · cases found
  · cases found

theorem loadEntry_of_valid {record : IndexRecord} {flags : List Bool}
    {bytes : List UInt8}
    (map : disk.maps.get? record.versionId = some flags)
    (data : disk.data record.versionId = some bytes)
    (positive : 0 < record.blockSize)
    (length : flags.length = blocksFor record.size record.blockSize)
    (enough : record.size ≤ bytes.length)
    (settled : record.writing = false) (uid : Nat) :
    (LocalCache.loadEntry disk mtime uid record).isSome := by
  unfold LocalCache.loadEntry
  rw [map, data]
  dsimp only
  rw [dif_pos ⟨positive, length, enough⟩, settled,
    if_neg Bool.false_ne_true]
  rfl

theorem Disk.replay_unlinks (disk : Disk)
    (files : List (String × FileKind)) :
    let later := disk.replay (files.map fun file => .unlink file.1 file.2)
    (∀ versionId, later.paths.get? versionId =
      if (versionId, FileKind.data) ∈ files then none
      else disk.paths.get? versionId) ∧
    (∀ versionId, later.maps.get? versionId =
      if (versionId, FileKind.map) ∈ files then none
      else disk.maps.get? versionId) ∧
    later.files = disk.files ∧ later.handles = disk.handles := by
  induction files generalizing disk with
  | nil => exact ⟨fun _ => rfl, fun _ => rfl, rfl, rfl⟩
  | cons file files induction =>
      obtain ⟨versionId, kind⟩ := file
      obtain ⟨paths, maps, files_, handles⟩ :=
        induction (disk.apply (.unlink versionId kind))
      cases kind with
      | data =>
          refine ⟨?_, ?_, files_, handles⟩
          · intro other
            refine (paths other).trans ?_
            simp only [Disk.apply, Disk.unlinkData, Dict.get?_erase,
              List.mem_cons, Prod.mk.injEq, and_true]
            by_cases same : other = versionId
            · simp [same]
            · simp [same]
          · intro other
            refine (maps other).trans ?_
            simp [Disk.apply, Disk.unlinkData]
      | map =>
          refine ⟨?_, ?_, files_, handles⟩
          · intro other
            refine (paths other).trans ?_
            simp [Disk.apply]
          · intro other
            refine (maps other).trans ?_
            simp only [Disk.apply, Dict.get?_erase, List.mem_cons,
              Prod.mk.injEq, and_true]
            by_cases same : other = versionId
            · simp [same]
            · simp [same]

/-- What reading records adds to a cache. -/
structure Reads (disk : Disk) (mtime : String → Int)
    (records : List IndexRecord) (before after : LocalCache) : Prop where
  nextUid : before.nextUid ≤ after.nextUid
  others : ∀ versionId, versionId ∉ records.map IndexRecord.versionId →
    after.entry versionId = before.entry versionId
  entries : ∀ record ∈ records, ∃ uid,
    after.entry record.versionId =
      LocalCache.loadEntry disk mtime uid record ∧
    ∀ entry, after.entry record.versionId = some entry →
      uid < after.nextUid
  unlinked : ∃ files : List (String × FileKind),
    after.issued = before.issued ++
      files.map (fun file => .unlink file.1 file.2) ∧
    ∀ file ∈ files, after.entry file.1 = none

theorem loadEntries_reads (disk : Disk) (mtime : String → Int)
    (records : List IndexRecord) (cache : LocalCache)
    (distinct : (records.map IndexRecord.versionId).Nodup)
    (absent : ∀ record ∈ records, cache.entry record.versionId = none) :
    Reads disk mtime records cache
      (LocalCache.loadEntries disk mtime records cache) := by
  induction records generalizing cache with
  | nil =>
      refine ⟨le_rfl, fun _ _ => rfl, ?_, [], ?_, ?_⟩
      · intro record member
        cases member
      · simp [LocalCache.loadEntries]
      · intro file member
        cases member
  | cons record records induction =>
      simp only [List.map_cons, List.nodup_cons] at distinct
      have missing := absent record List.mem_cons_self
      unfold LocalCache.loadEntries
      cases found : LocalCache.loadEntry disk mtime cache.nextUid record with
      | none =>
          have rest := induction (cache.unlink record.versionId) distinct.2
            fun other member => absent other (List.mem_cons_of_mem _ member)
          have gone := (rest.others record.versionId distinct.1).trans
            missing
          obtain ⟨files, issued, unlinked⟩ := rest.unlinked
          refine ⟨rest.nextUid, ?_, ?_, (record.versionId, .data) ::
            (record.versionId, .map) :: files, ?_, ?_⟩
          · intro versionId outside
            simp only [List.map_cons, List.mem_cons, not_or] at outside
            exact rest.others versionId outside.2
          · intro other member
            rcases List.mem_cons.mp member with rfl | later
            · refine ⟨cache.nextUid, gone.trans found.symm, ?_⟩
              intro entry impossible
              rw [gone] at impossible
              cases impossible
            · exact rest.entries other later
          · refine issued.trans ?_
            simp [LocalCache.unlink, LocalCache.issue]
          · intro file member
            simp only [List.mem_cons] at member
            rcases member with rfl | rfl | later
            · exact gone
            · exact gone
            · exact unlinked file later
      | some entry =>
          let filed : LocalCache :=
            { cache with
              entries := cache.entries.set record.versionId entry
              nextUid := cache.nextUid + 1 }
          have lookup : ∀ other, filed.entry other =
              if other = record.versionId then some entry
              else cache.entry other := fun other => Dict.get?_set ..
          have rest := induction filed distinct.2 (by
            intro other member
            have different : other.versionId ≠ record.versionId :=
              fun same => distinct.1 (List.mem_map.mpr
                ⟨other, member, same⟩)
            rw [lookup, if_neg different]
            exact absent other (List.mem_cons_of_mem _ member))
          have kept := (rest.others record.versionId distinct.1).trans
            ((lookup record.versionId).trans (if_pos rfl))
          have supply : cache.nextUid <
              (LocalCache.loadEntries disk mtime records filed).nextUid :=
            rest.nextUid
          refine ⟨supply.le, ?_, ?_, rest.unlinked⟩
          · intro versionId outside
            simp only [List.map_cons, List.mem_cons, not_or] at outside
            exact (rest.others versionId outside.2).trans
              ((lookup versionId).trans (if_neg outside.1))
          · intro other member
            rcases List.mem_cons.mp member with rfl | later
            · exact ⟨cache.nextUid, kept.trans found.symm,
                fun _ _ => supply⟩
            · exact rest.entries other later

/-- What is left of a cache after its process: the settled entries with
their blocks, pinned if they were. -/
structure Recovers (middle loaded : LocalCache) : Prop where
  entries : ∀ versionId entry, loaded.entry versionId = some entry →
    ∃ earlier, middle.entry versionId = some earlier ∧
      entry.size = earlier.size ∧ entry.blockSize = earlier.blockSize ∧
      entry.present = earlier.present ∧ earlier.writing = false ∧
      entry.writing = false ∧ entry.inflight = 0
  kept : ∀ versionId earlier, middle.entry versionId = some earlier →
    earlier.writing = false →
      ∃ entry, loaded.entry versionId = some entry ∧
        (0 < earlier.pins → 0 < entry.pins)

section Loading

variable {middle : LocalCache}

/-- The entries before the orphans are removed. -/
def LocalCache.loadIndex (disk : Disk) (mtime : String → Int) : LocalCache :=
  LocalCache.loadEntries disk mtime disk.index LocalCache.empty

variable (mirrors : Mirrors content middle disk)
include mirrors

theorem loadIndex_reads :
    Reads disk mtime disk.index LocalCache.empty
      (LocalCache.loadIndex disk mtime) :=
  loadEntries_reads disk mtime disk.index _ mirrors.distinct fun _ _ => rfl

theorem loadIndex_origin {versionId : String} {entry : CacheEntry}
    (found : (LocalCache.loadIndex disk mtime).entry versionId =
      some entry) :
    ∃ record ∈ disk.index, record.versionId = versionId ∧
      ∃ uid, LocalCache.loadEntry disk mtime uid record = some entry ∧
        uid < (LocalCache.loadIndex disk mtime).nextUid := by
  have reads : Reads disk mtime disk.index LocalCache.empty
    (LocalCache.loadIndex disk mtime) := loadIndex_reads mirrors
  by_cases named : versionId ∈ disk.index.map IndexRecord.versionId
  · obtain ⟨record, member, rfl⟩ := List.mem_map.mp named
    obtain ⟨uid, loaded, supply⟩ := reads.entries record member
    exact ⟨record, member, rfl, uid, loaded.symm.trans found,
      supply entry found⟩
  · have impossible := (reads.others versionId named).symm.trans found
    cases impossible

theorem loadIndex_recovers :
    Recovers middle (LocalCache.loadIndex disk mtime) := by
  refine ⟨?_, ?_⟩
  · intro versionId entry found
    obtain ⟨record, member, rfl, uid, loaded, _⟩ :=
      loadIndex_origin mirrors found
    obtain ⟨_, _, size, blockSize, map, data, settled, writing, inflight,
      _⟩ := loadEntry_spec loaded
    rcases mirrors.recorded record member with
      ⟨earlier, earlierFound, describes⟩ | ⟨_, unlinked⟩
    · have stored := mirrors.stored _ earlier earlierFound
      have present := Option.some.inj (stored.map.symm.trans map)
      exact ⟨earlier, earlierFound, size.trans describes.size,
        blockSize.trans describes.blockSize, present.symm,
        describes.writing.symm.trans settled, writing, inflight⟩
    · rw [unlinked] at data
      cases data
  · intro versionId earlier found settled
    obtain ⟨record, member, rfl, pinned⟩ :=
      mirrors.listed versionId earlier found
    have describes : record.Describes earlier := by
      rcases mirrors.recorded record member with
        ⟨other, otherFound, describes⟩ | ⟨gone, _⟩
      · rw [found] at otherFound
        cases otherFound
        exact describes
      · rw [found] at gone
        cases gone
    obtain ⟨map, bytes, linked, enough, _⟩ :=
      mirrors.stored _ earlier found
    have reads : Reads disk mtime disk.index LocalCache.empty
      (LocalCache.loadIndex disk mtime) := loadIndex_reads mirrors
    obtain ⟨uid, loaded, _⟩ := reads.entries record member
    have present : (LocalCache.loadEntry disk mtime uid record).isSome :=
      loadEntry_of_valid map linked
      (describes.blockSize ▸ earlier.blockSize_pos)
      (by rw [describes.size, describes.blockSize]
          exact earlier.present_length)
      (describes.size ▸ enough) (describes.writing.trans settled) uid
    obtain ⟨entry, readEntry⟩ := Option.isSome_iff_exists.mp present
    refine ⟨entry, loaded.trans readEntry, fun pins => ?_⟩
    obtain ⟨_, _, _, _, _, _, _, _, _, stillPinned⟩ :=
      loadEntry_spec readEntry
    exact stillPinned (pinned pins)

theorem load_recovers : Recovers middle (LocalCache.load disk mtime) :=
  have recovers := loadIndex_recovers mirrors
  ⟨recovers.entries, recovers.kept⟩

/-- Afterwards the directory holds the files of the loaded entries and no
others. -/
theorem load_aligned :
    Aligned content false (LocalCache.load disk mtime)
      (disk.replay (LocalCache.load disk mtime).issued) := by
  let read := LocalCache.loadIndex disk mtime
  have reads : Reads disk mtime disk.index LocalCache.empty read :=
    loadIndex_reads mirrors
  have recovers : Recovers middle read := loadIndex_recovers mirrors
  obtain ⟨dropped, issued, unlinked⟩ := reads.unlinked
  let orphans := ((disk.replay read.issued).listing.filter fun file =>
    !read.entries.contains file.1)
  let swept := (disk.replay read.issued).replay
    (orphans.map fun file => .unlink file.1 file.2)
  have final : disk.replay (LocalCache.load disk mtime).issued =
      swept.apply (.replaceIndex
        (read.entries.values.map indexRecord)) := by
    rw [show (LocalCache.load disk mtime).issued = (read.issued ++
      orphans.map fun file => .unlink file.1 file.2) ++
        [.replaceIndex (read.entries.values.map indexRecord)] from rfl,
      Disk.replay_append, Disk.replay_append]
    rfl
  have first := disk.replay_unlinks dropped
  rw [show dropped.map (fun file => DiskStep.unlink file.1 file.2) =
    read.issued from issued.symm] at first
  have second := (disk.replay read.issued).replay_unlinks orphans
  have orphaned : ∀ file ∈ orphans, read.entry file.1 = none := by
    intro file member
    have orphan := (List.mem_filter.mp member).2
    apply Option.isNone_iff_eq_none.mp
    simpa [Dict.contains, LocalCache.entry] using orphan
  have paths : ∀ versionId entry, read.entry versionId = some entry →
      swept.paths.get? versionId = disk.paths.get? versionId := by
    intro versionId entry found
    refine (second.1 versionId).trans ?_
    rw [if_neg, first.1 versionId, if_neg]
    · intro member
      have gone := unlinked _ member
      rw [found] at gone
      cases gone
    · intro member
      have gone := orphaned _ member
      rw [found] at gone
      cases gone
  have maps : ∀ versionId entry, read.entry versionId = some entry →
      swept.maps.get? versionId = disk.maps.get? versionId := by
    intro versionId entry found
    refine (second.2.1 versionId).trans ?_
    rw [if_neg, first.2.1 versionId, if_neg]
    · intro member
      have gone := unlinked _ member
      rw [found] at gone
      cases gone
    · intro member
      have gone := orphaned _ member
      rw [found] at gone
      cases gone
  have files : swept.files = disk.files :=
    second.2.2.1.trans first.2.2.1
  rw [final]
  refine (Wanes.aligned_index ?_ ?_ ?_ ?_).congr _ rfl rfl
  · intro versionId entry found
    obtain ⟨record, _, rfl, uid, loaded, _⟩ :=
      loadIndex_origin mirrors found
    exact (loadEntry_spec loaded).2.1
  · intro versionId entry found
    obtain ⟨record, _, rfl, uid, loaded, supply⟩ :=
      loadIndex_origin mirrors found
    rw [(loadEntry_spec loaded).1]
    exact supply
  · intro versionId gone
    refine (second.1 versionId).trans ?_
    by_cases linked : (disk.replay read.issued).paths.get? versionId = none
    · rw [linked, ite_self]
    · -- The file is in the listing and no entry refers to it.
      rw [if_pos]
      refine List.mem_filter.mpr ⟨?_, ?_⟩
      · rw [Disk.listing]
        refine List.mem_append_left _ (List.mem_map.mpr
          ⟨versionId, ?_, rfl⟩)
        by_contra absent
        exact linked ((Dict.get?_eq_none_iff _ _).mpr absent)
      · have missing : read.entries.get? versionId = none := gone
        simp [Dict.contains, missing]
  · intro versionId entry found
    obtain ⟨earlier, earlierFound, size, blockSize, present, _⟩ :=
      recovers.entries versionId entry found
    obtain ⟨map, bytes, linked, enough, marked⟩ :=
      mirrors.stored versionId earlier earlierFound
    refine ⟨?_, bytes, ?_, size ▸ enough, ?_⟩
    · rw [maps versionId entry found, present]
      exact map
    · rw [Disk.data, paths versionId entry found, files]
      exact linked
    · intro offset inside here
      rw [CacheEntry.presentAt, present, blockSize] at here
      exact marked offset (size ▸ inside) here

end Loading

end Tgdcfs
