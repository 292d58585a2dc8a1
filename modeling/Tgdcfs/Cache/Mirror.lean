import Tgdcfs.Cache.Disk

/-!
# The directory mirrors the entries

`Mirrors` is what holds between any two file-system steps: the files of every
entry are there, its map is the one on disk, blocks that are marked hold the
bytes of the version, and the index describes the entries.  `Aligned` adds
what holds between operations.  A `Passage` replays the steps of an operation
and keeps `Mirrors` after each of them, for the entries as they were before,
as they are after, or in between.
-/

namespace Tgdcfs

open Lib

variable {content : String → List UInt8}

namespace Disk

theorem createData_of_absent {disk : Disk} {versionId : String}
    (absent : disk.paths.get? versionId = none) (size : Nat) :
    (disk.createData versionId size).paths =
        disk.paths.set versionId disk.nextInode ∧
      (disk.createData versionId size).files =
        (fun other => if other = disk.nextInode then List.replicate size 0
          else disk.files other) ∧
      (disk.createData versionId size).nextInode = disk.nextInode + 1 ∧
      (disk.createData versionId size).maps = disk.maps ∧
      (disk.createData versionId size).index = disk.index ∧
      (disk.createData versionId size).handles = disk.handles := by
  unfold createData
  rw [absent]
  exact ⟨rfl, rfl, rfl, rfl, rfl, rfl⟩

theorem data_createData {disk : Disk} {versionId : String}
    (absent : disk.paths.get? versionId = none) (size : Nat)
    (other : String) :
    (disk.createData versionId size).data other =
      if other = versionId then some (List.replicate size 0)
      else disk.data other := by
  obtain ⟨paths, files, _⟩ := createData_of_absent absent size
  rw [data, paths, files, Dict.get?_set]
  by_cases same : other = versionId
  · simp [same]
  · simp only [same, if_false, data]
    cases found : disk.paths.get? other with
    | none => rfl
    | some inode =>
        have below := disk.paths_lt other inode found
        simp only [Option.map_some, if_neg (Nat.ne_of_lt below)]

theorem data_unlinkData (disk : Disk) (versionId other : String) :
    (disk.unlinkData versionId).data other =
      if other = versionId then none else disk.data other := by
  simp only [data, unlinkData, Dict.get?_erase]
  split <;> rfl

section WriteData

variable (disk : Disk) (target : DataTarget) (offset : Nat)
  (bytes : List UInt8)

@[simp] theorem writeData_paths :
    (disk.writeData target offset bytes).paths = disk.paths := by
  unfold writeData
  split <;> rfl

@[simp] theorem writeData_maps :
    (disk.writeData target offset bytes).maps = disk.maps := by
  unfold writeData
  split <;> rfl

@[simp] theorem writeData_index :
    (disk.writeData target offset bytes).index = disk.index := by
  unfold writeData
  split <;> rfl

@[simp] theorem writeData_handles :
    (disk.writeData target offset bytes).handles = disk.handles := by
  unfold writeData
  split <;> rfl

@[simp] theorem writeData_nextInode :
    (disk.writeData target offset bytes).nextInode = disk.nextInode := by
  unfold writeData
  split <;> rfl

theorem writeData_files (inode : Nat) :
    (disk.writeData target offset bytes).files inode =
      if disk.inode target = some inode then
        writeAt 0 (disk.files inode) offset bytes
      else disk.files inode := by
  unfold writeData
  cases found : disk.inode target with
  | none => rfl
  | some written =>
      simp only [putFile, Option.some.injEq]
      by_cases same : inode = written
      · simp [same]
      · simp [same, Ne.symm same]

end WriteData

@[simp] theorem replay_nil (disk : Disk) : disk.replay [] = disk := rfl

@[simp] theorem replay_cons (disk : Disk) (step : DiskStep)
    (steps : List DiskStep) :
    disk.replay (step :: steps) = (disk.apply step).replay steps :=
  rfl

theorem replay_append (disk : Disk) (left right : List DiskStep) :
    disk.replay (left ++ right) = (disk.replay left).replay right :=
  List.foldl_append

/-- File-system steps of an operation neither open nor close handles. -/
theorem replay_handles (disk : Disk) (steps : List DiskStep) :
    (disk.replay steps).handles = disk.handles := by
  induction steps generalizing disk with
  | nil => rfl
  | cons step steps induction =>
      refine (induction _).trans ?_
      cases step with
      | createData uid versionId size =>
          simp only [apply, createData]
          split <;> rfl
      | writeData target offset data =>
          exact disk.writeData_handles target offset data
      | unlink versionId kind => cases kind <;> rfl
      | createMap | writeMap | replaceIndex => rfl

end Disk

/-- The files of an entry: the map on disk is the one in memory, and blocks
that are marked hold the bytes of the version. -/
structure Stored (content : String → List UInt8) (disk : Disk)
    (versionId : String) (entry : CacheEntry) : Prop where
  map : disk.maps.get? versionId = some entry.present
  data : ∃ bytes, disk.data versionId = some bytes ∧
    entry.size ≤ bytes.length ∧
    ∀ offset < entry.size,
      entry.presentAt (offset / entry.blockSize) = true →
        Agrees (content versionId) bytes offset

/-- An index record of an entry; its dates and pins may be older. -/
structure IndexRecord.Describes (record : IndexRecord) (entry : CacheEntry) :
    Prop where
  size : record.size = entry.size
  blockSize : record.blockSize = entry.blockSize
  writing : record.writing = entry.writing

structure Mirrors (content : String → List UInt8) (cache : LocalCache)
    (disk : Disk) : Prop where
  stored : ∀ versionId entry, cache.entry versionId = some entry →
    Stored content disk versionId entry
  recorded : ∀ record ∈ disk.index,
    (∃ entry, cache.entry record.versionId = some entry ∧
      record.Describes entry) ∨
    (cache.entry record.versionId = none ∧
      disk.data record.versionId = none)
  listed : ∀ versionId entry, cache.entry versionId = some entry →
    ∃ record ∈ disk.index, record.versionId = versionId ∧
      (0 < entry.pins → 0 < record.pins)
  distinct : (disk.index.map IndexRecord.versionId).Nodup

/-- Between operations only the files of entries are there, and unless the
index is still to be written it has no record of an entry that is gone. -/
structure Aligned (content : String → List UInt8) (dirty : Bool)
    (cache : LocalCache) (disk : Disk) : Prop where
  mirrors : Mirrors content cache disk
  keyed : Keyed cache
  fresh : ∀ versionId entry, cache.entry versionId = some entry →
    entry.uid < cache.nextUid
  absent : ∀ versionId, cache.entry versionId = none →
    disk.paths.get? versionId = none
  current : dirty = false → ∀ record ∈ disk.index,
    (cache.entry record.versionId).isSome

/-- Files that stay linked keep the bytes that agree with their version. -/
structure Disk.Extends (content : String → List UInt8)
    (disk later : Disk) : Prop where
  handles : later.handles = disk.handles
  supply : disk.nextInode ≤ later.nextInode
  paths : ∀ versionId inode, later.paths.get? versionId = some inode →
    disk.paths.get? versionId = some inode ∨ disk.nextInode ≤ inode
  files : ∀ versionId inode, disk.paths.get? versionId = some inode →
    later.paths.get? versionId = some inode →
      (disk.files inode).length ≤ (later.files inode).length ∧
      ∀ offset, Agrees (content versionId) (disk.files inode) offset →
        Agrees (content versionId) (later.files inode) offset

theorem Disk.Extends.refl (disk : Disk) : disk.Extends content disk :=
  ⟨rfl, le_rfl, fun _ _ found => .inl found,
    fun _ _ _ _ => ⟨le_rfl, fun _ agrees => agrees⟩⟩

theorem Disk.Extends.trans {first second third : Disk}
    (left : first.Extends content second)
    (right : second.Extends content third) :
    first.Extends content third := by
  refine ⟨right.handles.trans left.handles, left.supply.trans right.supply,
    ?_, ?_⟩
  · intro versionId inode found
    rcases right.paths versionId inode found with middle | new
    · exact left.paths versionId inode middle
    · exact .inr (left.supply.trans new)
  · intro versionId inode before after
    have middle : second.paths.get? versionId = some inode := by
      rcases right.paths versionId inode after with middle | new
      · exact middle
      · have below := first.paths_lt versionId inode before
        have supply := left.supply
        omega
    obtain ⟨longer, kept⟩ := left.files versionId inode before middle
    obtain ⟨longer', kept'⟩ := right.files versionId inode middle after
    exact ⟨longer.trans longer',
      fun offset agrees => kept' offset (kept offset agrees)⟩

variable {disk : Disk}

theorem Disk.Extends.of_files {later : Disk}
    (handles : later.handles = disk.handles)
    (supply : later.nextInode = disk.nextInode)
    (files : later.files = disk.files)
    (paths : ∀ versionId inode, later.paths.get? versionId = some inode →
      disk.paths.get? versionId = some inode) :
    disk.Extends content later := by
  refine ⟨handles, supply.ge, fun versionId inode found =>
    .inl (paths versionId inode found), ?_⟩
  intro versionId inode _ _
  rw [files]
  exact ⟨le_rfl, fun _ agrees => agrees⟩

variable {versionId : String}

theorem Disk.Extends.createData (absent : disk.paths.get? versionId = none)
    (size : Nat) : disk.Extends content (disk.createData versionId size) := by
  obtain ⟨paths, files, supply, _, _, handles⟩ :=
    Disk.createData_of_absent absent size
  refine ⟨handles, supply ▸ Nat.le_succ _, ?_, ?_⟩
  · intro other inode found
    rw [paths, Dict.get?_set] at found
    split at found
    · cases found
      exact .inr le_rfl
    · exact .inl found
  · intro other inode before _
    have below := disk.paths_lt other inode before
    simp only [files, if_neg (Nat.ne_of_lt below)]
    exact ⟨le_rfl, fun _ agrees => agrees⟩

/-- The bytes of a write belong to every version whose file they land in. -/
def Disk.Faithful (content : String → List UInt8) (disk : Disk)
    (target : DataTarget) (offset : Nat) (bytes : List UInt8) : Prop :=
  ∀ versionId inode, disk.inode target = some inode →
    disk.paths.get? versionId = some inode →
      bytes <+: (content versionId).drop offset

theorem Disk.Faithful.of_path {offset : Nat} {bytes : List UInt8}
    (honest : bytes <+: (content versionId).drop offset) :
    disk.Faithful content (.path versionId) offset bytes := by
  intro other inode target found
  rw [disk.paths_inj other versionId inode found target]
  exact honest

theorem Disk.Extends.writeData {target : DataTarget} {offset : Nat}
    {bytes : List UInt8} (faithful : disk.Faithful content target offset bytes)
    : disk.Extends content (disk.writeData target offset bytes) := by
  refine ⟨disk.writeData_handles .., (disk.writeData_nextInode ..).ge, ?_,
    ?_⟩
  · intro versionId inode found
    rw [disk.writeData_paths] at found
    exact .inl found
  · intro versionId inode found _
    rw [disk.writeData_files]
    by_cases written : disk.inode target = some inode
    · rw [if_pos written]
      exact ⟨length_le_writeAt _ _ _ _, fun position agrees =>
        agrees.writeAt (faithful versionId inode written found)⟩
    · rw [if_neg written]
      exact ⟨le_rfl, fun _ agrees => agrees⟩

/-- The files of an entry survive as long as they stay linked. -/
theorem Stored.extends {later : Disk} {entry : CacheEntry}
    (stored : Stored content disk versionId entry)
    (extended : disk.Extends content later)
    (map : later.maps.get? versionId = disk.maps.get? versionId)
    (path : later.paths.get? versionId = disk.paths.get? versionId) :
    Stored content later versionId entry := by
  obtain ⟨bytes, found, enough, marked⟩ := stored.data
  obtain ⟨inode, linked, rfl⟩ := Option.map_eq_some_iff.mp found
  obtain ⟨longer, kept⟩ :=
    extended.files versionId inode linked (path.trans linked)
  refine ⟨map.trans stored.map, later.files inode, ?_, enough.trans longer,
    fun offset inside present => kept offset (marked offset inside present)⟩
  rw [Disk.data, path, linked]
  rfl

/-- The same entry with the same blocks; pins only go. -/
structure CacheEntry.Faded (before after : CacheEntry) : Prop where
  uid : after.uid = before.uid
  versionId : after.versionId = before.versionId
  size : after.size = before.size
  blockSize : after.blockSize = before.blockSize
  present : after.present = before.present
  writing : after.writing = before.writing
  pins : after.pins ≤ before.pins

namespace CacheEntry.Faded

variable {before after : CacheEntry}

theorem refl (entry : CacheEntry) : entry.Faded entry :=
  ⟨rfl, rfl, rfl, rfl, rfl, rfl, le_rfl⟩

theorem trans {last : CacheEntry} (first : before.Faded after)
    (second : after.Faded last) : before.Faded last :=
  ⟨second.uid.trans first.uid, second.versionId.trans first.versionId,
    second.size.trans first.size, second.blockSize.trans first.blockSize,
    second.present.trans first.present,
    second.writing.trans first.writing, second.pins.trans first.pins⟩

theorem presentAt (faded : before.Faded after) (index : Nat) :
    after.presentAt index = before.presentAt index := by
  rw [CacheEntry.presentAt, faded.present, CacheEntry.presentAt]

theorem stored (faded : before.Faded after) {disk : Disk}
    {versionId : String} (stored : Stored content disk versionId before) :
    Stored content disk versionId after := by
  obtain ⟨bytes, found, enough, marked⟩ := stored.data
  refine ⟨faded.present ▸ stored.map, bytes, found, faded.size ▸ enough, ?_⟩
  intro offset inside present
  rw [faded.size] at inside
  rw [faded.presentAt, faded.blockSize] at present
  exact marked offset inside present

theorem describes (faded : before.Faded after) {record : IndexRecord}
    (describes : record.Describes before) : record.Describes after :=
  ⟨describes.size.trans faded.size.symm,
    describes.blockSize.trans faded.blockSize.symm,
    describes.writing.trans faded.writing.symm⟩

end CacheEntry.Faded

/-- Every entry that is left was there before and has only faded. -/
structure Fades (before after : LocalCache) : Prop where
  entries : ∀ versionId later, after.entry versionId = some later →
    ∃ earlier, before.entry versionId = some earlier ∧
      earlier.Faded later
  nextUid : after.nextUid = before.nextUid

namespace Fades

variable {before after : LocalCache}

theorem refl (cache : LocalCache) : Fades cache cache :=
  ⟨fun _ later found => ⟨later, found, .refl later⟩, rfl⟩

theorem trans {last : LocalCache} (first : Fades before after)
    (second : Fades after last) : Fades before last := by
  refine ⟨?_, second.nextUid.trans first.nextUid⟩
  intro versionId later found
  obtain ⟨middle, middleFound, fading⟩ :=
    second.entries versionId later found
  obtain ⟨earlier, earlierFound, faded⟩ :=
    first.entries versionId middle middleFound
  exact ⟨earlier, earlierFound, faded.trans fading⟩

theorem of_entries_eq (entries : after.entries = before.entries)
    (nextUid : after.nextUid = before.nextUid) : Fades before after := by
  refine ⟨?_, nextUid⟩
  intro versionId later found
  rw [LocalCache.entry, entries] at found
  exact ⟨later, found, .refl later⟩

theorem none (fades : Fades before after) {versionId : String}
    (missing : before.entry versionId = none) :
    after.entry versionId = none := by
  rw [Option.eq_none_iff_forall_ne_some]
  intro later found
  obtain ⟨earlier, earlierFound, _⟩ := fades.entries versionId later found
  simp [missing] at earlierFound

theorem keyed (fades : Fades before after) (keyed : Keyed before) :
    Keyed after := by
  intro versionId later found
  obtain ⟨earlier, earlierFound, faded⟩ :=
    fades.entries versionId later found
  rw [faded.versionId, keyed versionId earlier earlierFound]

theorem fresh (fades : Fades before after)
    (fresh : ∀ versionId entry, before.entry versionId = some entry →
      entry.uid < before.nextUid) :
    ∀ versionId entry, after.entry versionId = some entry →
      entry.uid < after.nextUid := by
  intro versionId later found
  obtain ⟨earlier, earlierFound, faded⟩ :=
    fades.entries versionId later found
  rw [faded.uid, fades.nextUid]
  exact fresh versionId earlier earlierFound

end Fades

/-- The cache before and after an operation, with its directory: entries
that are older than the operation keep their files. -/
structure DiskFollows (content : String → List UInt8) (before : LocalCache)
    (disk : Disk) (after : LocalCache) (later : Disk) : Prop where
  extended : disk.Extends content later
  nextUid : before.nextUid ≤ after.nextUid
  kept : ∀ versionId entry, after.entry versionId = some entry →
    entry.uid < before.nextUid →
      (∃ earlier, before.entry versionId = some earlier ∧
        earlier.uid = entry.uid) ∧
      later.paths.get? versionId = disk.paths.get? versionId

theorem DiskFollows.refl (cache : LocalCache) (disk : Disk) :
    DiskFollows content cache disk cache disk :=
  ⟨.refl disk, le_rfl, fun _ entry found _ => ⟨⟨entry, found, rfl⟩, rfl⟩⟩

theorem DiskFollows.trans {first second third : LocalCache}
    {middle last : Disk} (left : DiskFollows content first disk second middle)
    (right : DiskFollows content second middle third last) :
    DiskFollows content first disk third last := by
  refine ⟨left.extended.trans right.extended,
    left.nextUid.trans right.nextUid, ?_⟩
  intro versionId entry found old
  obtain ⟨⟨earlier, earlierFound, same⟩, path⟩ :=
    right.kept versionId entry found (lt_of_lt_of_le old left.nextUid)
  obtain ⟨⟨earliest, earliestFound, same'⟩, path'⟩ :=
    left.kept versionId earlier earlierFound (same ▸ old)
  exact ⟨⟨earliest, earliestFound, same'.trans same⟩, path.trans path'⟩

/-- Faded entries, with the paths of those that are left untouched. -/
theorem DiskFollows.of_fades {before after : LocalCache} {later : Disk}
    (fades : Fades before after) (extended : disk.Extends content later)
    (paths : ∀ versionId entry, after.entry versionId = some entry →
      later.paths.get? versionId = disk.paths.get? versionId) :
    DiskFollows content before disk after later := by
  refine ⟨extended, fades.nextUid.ge, ?_⟩
  intro versionId entry found _
  obtain ⟨earlier, earlierFound, faded⟩ :=
    fades.entries versionId entry found
  exact ⟨⟨earlier, earlierFound, faded.uid.symm⟩,
    paths versionId entry found⟩

/-- After every prefix of the steps the directory mirrors some cache that is
`between`. -/
def Passes (content : String → List UInt8) (between : LocalCache → Prop)
    (disk : Disk) (steps : List DiskStep) : Prop :=
  ∀ count, ∃ middle, between middle ∧
    Mirrors content middle (disk.replay (steps.take count))

namespace Passes

variable {between : LocalCache → Prop} {disk : Disk}

theorem nil {cache : LocalCache} (mirrors : Mirrors content cache disk)
    (holds : between cache) : Passes content between disk [] := by
  intro count
  exact ⟨cache, holds, by simpa using mirrors⟩

theorem cons {cache : LocalCache} {step : DiskStep}
    {steps : List DiskStep} (mirrors : Mirrors content cache disk)
    (holds : between cache)
    (rest : Passes content between (disk.apply step) steps) :
    Passes content between disk (step :: steps) := by
  intro count
  cases count with
  | zero => exact ⟨cache, holds, mirrors⟩
  | succ count => exact rest count

theorem mono {wider : LocalCache → Prop} {steps : List DiskStep}
    (passes : Passes content between disk steps)
    (implied : ∀ cache, between cache → wider cache) :
    Passes content wider disk steps := by
  intro count
  obtain ⟨middle, holds, mirrors⟩ := passes count
  exact ⟨middle, implied middle holds, mirrors⟩

theorem append {left right : List DiskStep}
    (first : Passes content between disk left)
    (second : Passes content between (disk.replay left) right) :
    Passes content between disk (left ++ right) := by
  intro count
  by_cases early : count ≤ left.length
  · rw [List.take_append_of_le_length early]
    exact first count
  · obtain ⟨middle, holds, mirrors⟩ := second (count - left.length)
    refine ⟨middle, holds, ?_⟩
    rw [List.take_append, List.take_of_length_le (by omega),
      Disk.replay_append]
    exact mirrors

end Passes

/-- The steps of an operation lead from an aligned directory to an aligned
one. -/
structure Passage (content : String → List UInt8)
    (between : LocalCache → LocalCache → LocalCache → Prop) (dirty : Bool)
    (before : LocalCache) (disk : Disk) (steps : List DiskStep)
    (after : LocalCache) : Prop where
  issued : after.issued = before.issued ++ steps
  aligned : Aligned content dirty after (disk.replay steps)
  follows : DiskFollows content before disk after (disk.replay steps)
  passes : Passes content (fun middle => between before middle after) disk
    steps

/-- Entries that are on the way to what is left of them. -/
def Fading (before middle after : LocalCache) : Prop :=
  Fades before middle ∧ Fades middle after

/-- An operation that admits nothing and marks nothing, on any directory
that is aligned. -/
def Wanes (content : String → List UInt8) (dirty dirtyAfter : Bool)
    (before after : LocalCache) : Prop :=
  Fades before after ∧ ∃ steps, ∀ disk,
    Aligned content dirty before disk →
      Passage content Fading dirtyAfter before disk steps after

theorem Aligned.dirty {dirty : Bool} {cache : LocalCache}
    (aligned : Aligned content dirty cache disk) :
    Aligned content true cache disk :=
  ⟨aligned.mirrors, aligned.keyed, aligned.fresh, aligned.absent,
    fun impossible => nomatch impossible⟩

end Tgdcfs
