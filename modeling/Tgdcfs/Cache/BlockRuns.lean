import Tgdcfs.Cache.Growth
import Tgdcfs.Lib.Intervals

/-!
# The arithmetic of the block map

`missing_runs`, `has_range` and `write_blocks` each turn byte bounds into
block numbers in a way of their own.  They agree: the runs are the maximal
intervals of absent blocks, there are none exactly when the range is on disk,
and the bytes of a run mark the blocks of the run.
-/

namespace Tgdcfs

open Lib

namespace CacheEntry

variable {entry : CacheEntry} {begin_ end_ : Nat}

/-- Whether the scan of `missing_runs` counts a block. -/
def missingAt (entry : CacheEntry) (last index : Nat) : Bool :=
  decide (index ≤ last) && !entry.presentAt index

/-- The bytes from the first block of an interval to the end of its last. -/
def blockSpan (entry : CacheEntry) (blocks : Nat × Nat) : Nat × Nat :=
  (blocks.1 * entry.blockSize, entry.blockEnd blocks.2)

theorem missingRunsFrom_eq_map (entry : CacheEntry) (last : Nat)
    (indices : List Nat) (runStart : Option Nat) :
    entry.missingRunsFrom last indices runStart =
      (intervalsFrom (entry.missingAt last) indices runStart).map
        entry.blockSpan := by
  induction indices generalizing runStart with
  | nil => cases runStart <;> rfl
  | cons index rest induction =>
      cases runStart with
      | none =>
          rw [missingRunsFrom, intervalsFrom]
          unfold missingAt
          split
          · exact induction (some index)
          · exact induction none
      | some start =>
          rw [missingRunsFrom, intervalsFrom]
          unfold missingAt
          split
          · exact induction (some start)
          · rw [List.map_cons]
            exact congrArg (List.cons _) (induction none)

variable {index : Nat}

theorem mem_missingAt :
    entry.missingAt (end_ / entry.blockSize) index = true ↔
      index ≤ end_ / entry.blockSize ∧ entry.presentAt index = false := by
  simp [missingAt]

/-- The runs are the intervals of absent blocks between the block of `begin`
and the block of `end`. -/
theorem missingRuns_intervals (ordered : begin_ ≤ end_)
    (inside : end_ < entry.size) :
    ∃ intervals, entry.missingRuns begin_ end_ =
        intervals.map entry.blockSpan ∧
      (∀ interval ∈ intervals, interval.1 ≤ interval.2 ∧
        interval.2 < entry.blocks) ∧
      Intervals (entry.missingAt (end_ / entry.blockSize))
        (begin_ / entry.blockSize) (end_ / entry.blockSize + 2)
        intervals := by
  have clipped : min end_ (entry.size - 1) = end_ := by omega
  have blocks : begin_ / entry.blockSize ≤ end_ / entry.blockSize :=
    Nat.div_le_div_right ordered
  have lastBlock := end_lt_blocks inside
  have found : Intervals (entry.missingAt (end_ / entry.blockSize))
      (begin_ / entry.blockSize) (end_ / entry.blockSize + 2) _ :=
    intervalsFrom_intervals (by omega) (by simp [missingAt])
  refine ⟨_, ?_, ?_, found⟩
  · rw [missingRuns, if_neg (by omega)]
    dsimp only
    rw [clipped]
    exact missingRunsFrom_eq_map _ _ _ _
  · intro interval member
    have bounds := found.bounded interval member
    have held := (found.covers interval.2).mp
      ⟨interval, member, bounds.2.1, Nat.le_refl _⟩
    obtain ⟨upTo, _⟩ := mem_missingAt.mp held.2.2
    exact ⟨bounds.2.1, by omega⟩

theorem mem_missingRuns (ordered : begin_ ≤ end_)
    (inside : end_ < entry.size) {run : Nat × Nat}
    (member : run ∈ entry.missingRuns begin_ end_) :
    ∃ blocks : Nat × Nat, blocks.1 ≤ blocks.2 ∧
      blocks.2 < entry.blocks ∧ run = entry.blockSpan blocks := by
  obtain ⟨intervals, same, bounded, _⟩ :=
    missingRuns_intervals ordered inside
  rw [same] at member
  obtain ⟨interval, listed, rfl⟩ := List.mem_map.mp member
  obtain ⟨straight, known⟩ := bounded interval listed
  exact ⟨interval, straight, known, rfl⟩

/-- An offset lies in a span of blocks when its block does. -/
theorem mem_blockSpan (blocks : Nat × Nat) {offset : Nat}
    (inside : blocks.2 < entry.blocks) (below : offset < entry.size) :
    (entry.blockSpan blocks).1 ≤ offset ∧
        offset ≤ (entry.blockSpan blocks).2 ↔
      blocks.1 ≤ offset / entry.blockSize ∧
        offset / entry.blockSize ≤ blocks.2 := by
  obtain ⟨_, _, ends, full, whole⟩ := blockEnd_lt inside
  have upper : offset ≤ entry.blockEnd blocks.2 ↔
      offset / entry.blockSize ≤ blocks.2 := by
    have reach : offset / entry.blockSize ≤ blocks.2 ↔
        offset < (blocks.2 + 1) * entry.blockSize :=
      Nat.lt_succ_iff.symm.trans
        (Nat.div_lt_iff_lt_mul entry.blockSize_pos)
    rw [reach]
    constructor
    · intro upTo
      exact Nat.lt_of_le_of_lt upTo ends
    · intro early
      by_cases more : blocks.2 + 1 < entry.blocks
      · have last := full more
        omega
      · have last := whole (by omega)
        omega
  simp only [blockSpan]
  rw [upper, Nat.le_div_iff_mul_le entry.blockSize_pos]

variable {blocks : Nat × Nat}

theorem blockSpan_bounds (ordered : blocks.1 ≤ blocks.2)
    (inside : blocks.2 < entry.blocks) :
    (entry.blockSpan blocks).1 ≤ (entry.blockSpan blocks).2 ∧
      (entry.blockSpan blocks).2 < entry.size ∧
      (entry.blockSize ∣ (entry.blockSpan blocks).2 + 1 ∨
        (entry.blockSpan blocks).2 + 1 = entry.size) := by
  obtain ⟨begins, ends, _, full, whole⟩ := blockEnd_lt inside
  have early : blocks.1 * entry.blockSize ≤ blocks.2 * entry.blockSize :=
    Nat.mul_le_mul_right _ ordered
  refine ⟨early.trans begins, ends, ?_⟩
  by_cases more : blocks.2 + 1 < entry.blocks
  · refine .inl ?_
    change entry.blockSize ∣ entry.blockEnd blocks.2 + 1
    rw [full more]
    exact Nat.dvd_mul_left _ _
  · exact .inr (whole (by omega))

/-- The range has bytes of the block. -/
def Intersects (entry : CacheEntry) (index begin_ end_ : Nat) : Prop :=
  index * entry.blockSize ≤ end_ ∧
    begin_ < index * entry.blockSize + entry.blockLength index

/-- The byte belongs to the block. -/
def BlockHas (entry : CacheEntry) (index offset : Nat) : Prop :=
  index * entry.blockSize ≤ offset ∧
    offset < index * entry.blockSize + entry.blockLength index

theorem blockEnd_succ (inside : index < entry.blocks) :
    index * entry.blockSize + entry.blockLength index =
      entry.blockEnd index + 1 := by
  have positive := blockLength_pos inside
  unfold blockEnd
  omega

theorem blockHas_iff {offset : Nat} (inside : index < entry.blocks) :
    entry.BlockHas index offset ↔
      offset < entry.size ∧ offset / entry.blockSize = index := by
  obtain ⟨_, ends, _⟩ := blockEnd_lt inside
  rw [BlockHas, blockEnd_succ inside, Nat.lt_succ_iff]
  constructor
  · rintro ⟨from_, upTo⟩
    have below : offset < entry.size := by omega
    have within :=
      (mem_blockSpan (index, index) inside below).mp ⟨from_, upTo⟩
    exact ⟨below, Nat.le_antisymm within.2 within.1⟩
  · rintro ⟨below, rfl⟩
    exact (mem_blockSpan
      (offset / entry.blockSize, offset / entry.blockSize) inside
      below).mpr ⟨Nat.le_refl _, Nat.le_refl _⟩

theorem intersects_iff (inside : index < entry.blocks)
    (ordered : begin_ ≤ end_) (within : end_ < entry.size) :
    entry.Intersects index begin_ end_ ↔
      begin_ / entry.blockSize ≤ index ∧
        index ≤ end_ / entry.blockSize := by
  have upper := (mem_blockSpan (0, index) inside
    (Nat.lt_of_le_of_lt ordered within)).symm
  rw [Intersects, blockEnd_succ inside, Nat.lt_succ_iff,
    ← Nat.le_div_iff_mul_le entry.blockSize_pos]
  simp only [blockSpan, Nat.zero_mul, Nat.zero_le, true_and] at upper
  rw [upper]
  exact and_comm

theorem hasRange_iff (ordered : begin_ ≤ end_) (inside : end_ < entry.size) :
    entry.hasRange begin_ end_ = true ↔
      ∀ index, begin_ / entry.blockSize ≤ index →
        index ≤ end_ / entry.blockSize → entry.presentAt index = true := by
  have blocks : begin_ / entry.blockSize ≤ end_ / entry.blockSize :=
    Nat.div_le_div_right ordered
  rw [hasRange, if_neg (by omega), if_neg (by omega), List.all_eq_true]
  constructor
  · intro all index from_ upTo
    apply all index
    rw [List.mem_range'_1]
    omega
  · intro all index member
    rw [List.mem_range'_1] at member
    exact all index member.1 (by omega)

/-- `runs` are the ranges to fetch before `[begin, end]` is on disk. -/
structure MissingRuns (entry : CacheEntry) (begin_ end_ : Nat)
    (runs : List (Nat × Nat)) : Prop where
  separate : runs.Pairwise fun earlier later => earlier.2 + 1 < later.1
  inside : ∀ run ∈ runs, run.1 ≤ run.2 ∧ run.2 < entry.size
  aligned : ∀ run ∈ runs, entry.blockSize ∣ run.1 ∧
    (entry.blockSize ∣ run.2 + 1 ∨ run.2 + 1 = entry.size)
  covers : ∀ offset, (∃ run ∈ runs, run.1 ≤ offset ∧ offset ≤ run.2) ↔
    ∃ index < entry.blocks, entry.presentAt index = false ∧
      entry.Intersects index begin_ end_ ∧ entry.BlockHas index offset
  empty : runs = [] ↔ entry.hasRange begin_ end_ = true

theorem missingRuns_spec (ordered : begin_ ≤ end_)
    (inside : end_ < entry.size) :
    MissingRuns entry begin_ end_ (entry.missingRuns begin_ end_) := by
  obtain ⟨intervals, same, bounded, found⟩ :=
    missingRuns_intervals ordered inside
  refine ⟨?_, ?_, ?_, ?_, ?_⟩
  · rw [same, List.pairwise_map]
    apply found.separate.imp_of_mem
    intro earlier later _ laterMember apart
    obtain ⟨straight, known⟩ := bounded later laterMember
    have before : earlier.2 < entry.blocks := by omega
    obtain ⟨_, _, _, full, _⟩ := blockEnd_lt before
    have starts : (earlier.2 + 1) * entry.blockSize <
        later.1 * entry.blockSize :=
      Nat.mul_lt_mul_of_pos_right apart entry.blockSize_pos
    have last := full (by omega)
    simp only [blockSpan]
    omega
  · intro run member
    obtain ⟨blocks, straight, known, rfl⟩ :=
      mem_missingRuns ordered inside member
    obtain ⟨begins, ends, _⟩ := blockSpan_bounds straight known
    exact ⟨begins, ends⟩
  · intro run member
    obtain ⟨blocks, straight, known, rfl⟩ :=
      mem_missingRuns ordered inside member
    obtain ⟨_, _, aligned⟩ := blockSpan_bounds straight known
    exact ⟨Nat.dvd_mul_left _ _, aligned⟩
  · intro offset
    rw [same]
    constructor
    · rintro ⟨run, member, from_, till⟩
      obtain ⟨interval, listed, rfl⟩ := List.mem_map.mp member
      obtain ⟨straight, known⟩ := bounded interval listed
      obtain ⟨_, ends, _⟩ := blockSpan_bounds straight known
      have below : offset < entry.size := by omega
      have within := (mem_blockSpan _ known below).mp ⟨from_, till⟩
      obtain ⟨start, _, missing⟩ :=
        (found.covers (offset / entry.blockSize)).mp
          ⟨interval, listed, within⟩
      obtain ⟨asked, absent⟩ := mem_missingAt.mp missing
      have here := end_lt_blocks below
      exact ⟨offset / entry.blockSize, here, absent,
        (intersects_iff here ordered inside).mpr ⟨start, asked⟩,
        (blockHas_iff here).mpr ⟨below, rfl⟩⟩
    · rintro ⟨index, here, absent, asked, has⟩
      obtain ⟨below, rfl⟩ := (blockHas_iff here).mp has
      obtain ⟨start, stop⟩ :=
        (intersects_iff here ordered inside).mp asked
      obtain ⟨interval, listed, within⟩ :=
        (found.covers (offset / entry.blockSize)).mpr
          ⟨start, by omega, mem_missingAt.mpr ⟨stop, absent⟩⟩
      obtain ⟨_, known⟩ := bounded interval listed
      exact ⟨entry.blockSpan interval, List.mem_map_of_mem listed,
        (mem_blockSpan _ known below).mpr within⟩
  · rw [same, List.map_eq_nil_iff, found.eq_nil_iff,
      hasRange_iff ordered inside]
    constructor
    · intro closed index from_ stop
      have held := closed index from_ (by omega)
      simpa [missingAt, stop] using held
    · intro all index from_ _
      by_cases stop : index ≤ end_ / entry.blockSize
      · simp [missingAt, all index from_ stop]
      · simp [missingAt, stop]

/-- The blocks from that of the first byte of a run to that of its last. -/
def runBlocks (entry : CacheEntry) (run : Nat × Nat) : List Nat :=
  List.range' (run.1 / entry.blockSize)
    (run.2 / entry.blockSize + 1 - run.1 / entry.blockSize)

theorem runBlocks_blockSpan (inside : blocks.2 < entry.blocks) :
    entry.runBlocks (entry.blockSpan blocks) =
      List.range' blocks.1 (blocks.2 + 1 - blocks.1) := by
  obtain ⟨begins, _, ends, _⟩ := blockEnd_lt inside
  have first : (entry.blockSpan blocks).1 / entry.blockSize = blocks.1 :=
    Nat.mul_div_cancel _ entry.blockSize_pos
  have last : (entry.blockSpan blocks).2 / entry.blockSize = blocks.2 :=
    Nat.div_eq_of_lt_le begins ends
  rw [runBlocks, first, last]

/-- `write_blocks` cuts the bytes of a run into the blocks of the run. -/
theorem coveredBlocks_blockSpan (ordered : blocks.1 ≤ blocks.2)
    (inside : blocks.2 < entry.blocks) :
    LocalCache.coveredBlocks entry (entry.blockSpan blocks).1
        ((entry.blockSpan blocks).2 + 1 - (entry.blockSpan blocks).1) =
      entry.runBlocks (entry.blockSpan blocks) := by
  obtain ⟨begins, ends, _⟩ := blockSpan_bounds ordered inside
  obtain ⟨_, _, _, full, whole⟩ := blockEnd_lt inside
  have total : (entry.blockSpan blocks).1 +
      ((entry.blockSpan blocks).2 + 1 - (entry.blockSpan blocks).1) =
        (entry.blockSpan blocks).2 + 1 := by omega
  have first : (entry.blockSpan blocks).1 / entry.blockSize = blocks.1 :=
    Nat.mul_div_cancel _ entry.blockSize_pos
  rw [runBlocks_blockSpan inside]
  unfold LocalCache.coveredBlocks
  dsimp only
  rw [total, first]
  by_cases more : blocks.2 + 1 < entry.blocks
  · have next : (entry.blockSpan blocks).2 + 1 =
        (blocks.2 + 1) * entry.blockSize := full more
    have short : ¬entry.size ≤ (entry.blockSpan blocks).2 + 1 := by
      have reach := blockEnd_lt more
      omega
    rw [if_neg short, next, Nat.mul_div_cancel _ entry.blockSize_pos]
  · have last : (entry.blockSpan blocks).2 + 1 = entry.size :=
      whole (by omega)
    have all : entry.blocks = blocks.2 + 1 := by omega
    rw [if_pos (by omega), all]

end CacheEntry

open LocalCache

variable {cache : LocalCache}

/-- The flags of an entry after the bytes of a fill have reached the disk. -/
theorem commitBlocks_entry (fill : Fill) {later : CacheEntry}
    (found : cache.entry fill.versionId = some later)
    (same : later.uid = fill.uid) (now : Int) :
    ∃ final, (cache.commitBlocks fill now).entry fill.versionId =
        some final ∧
      ∀ index, final.presentAt index = (later.presentAt index ||
        decide (index < later.blocks ∧ index ∈ fill.blocks)) := by
  have written : (cache.issue [.writeData (.path fill.versionId) fill.begin_
      fill.data]).entry fill.versionId = some later := found
  unfold commitBlocks
  dsimp only
  rw [CacheInvariant.update_entry, if_pos rfl,
    CacheInvariant.markPresent_entry, if_pos rfl, returnClaim,
    CacheInvariant.update_entry, if_pos rfl, written]
  simp only [Option.map_some, same, if_true,
    CacheEntry.withInflight_uid]
  refine ⟨_, rfl, ?_⟩
  intro index
  have marked : ((later.withInflight
      (later.inflight - fill.added)).mark fill.blocks).uid = fill.uid := same
  rw [if_pos marked]
  exact CacheEntry.presentAt_mark
    (later.withInflight (later.inflight - fill.added)) fill.blocks index

/-- What comes of handing the bytes of a run to `write_blocks`.  They are
turned away only while a writer stages the entry or when no room is left for
them.  Otherwise the call suspends, and whatever goes on meanwhile, it marks
the blocks of the run and no others if the entry is still there. -/
def RunStored (config : CacheConfig) (cache : LocalCache)
    (versionId : String) (entry : CacheEntry) (run : Nat × Nat)
    (data : List UInt8) (free : FreeSpace) : Prop :=
  match cache.claimBlocks config versionId run.1 data free with
  | (_, none) => entry.writing = true ∨
      (cache.makeRoom config (entry.missingBytes (entry.runBlocks run))
        false (some entry.uid) free).2.isSome = true
  | (claimed, some fill) =>
      (Keyed cache → ∃ later, claimed.entry versionId = some later ∧
        entry.Grown later ∧ later.present = entry.present) ∧
      ∀ (suspended : LocalCache) (later : CacheEntry) (now : Int),
        suspended.entry versionId = some later → entry.Grown later →
          ∃ final, (suspended.commitBlocks fill now).entry versionId =
              some final ∧
            ∀ index, final.presentAt index = (later.presentAt index ||
              decide (index ∈ entry.runBlocks run))

/-- The bytes of a run come through every check of `write_blocks` but those
on the writer and on the room. -/
private theorem claimBlocks_run (config : CacheConfig) {versionId : String}
    {entry : CacheEntry} (found : cache.entry versionId = some entry)
    (idle : entry.writing = false) {blocks : Nat × Nat}
    (ordered : blocks.1 ≤ blocks.2) (inside : blocks.2 < entry.blocks)
    {data : List UInt8}
    (length : data.length =
      (entry.blockSpan blocks).2 + 1 - (entry.blockSpan blocks).1)
    (free : FreeSpace) :
    cache.claimBlocks config versionId (entry.blockSpan blocks).1 data
        free =
      let added := entry.missingBytes
        (entry.runBlocks (entry.blockSpan blocks))
      let room :=
        if added = 0 then (cache, none)
        else cache.makeRoom config added false (some entry.uid) free
      match room.2 with
      | some _ => (room.1, none)
      | none =>
          (room.1.update versionId entry.uid fun entry =>
            entry.withInflight (entry.inflight + added),
            some
              { uid := entry.uid
                versionId := versionId
                begin_ := (entry.blockSpan blocks).1
                data := data
                blocks := entry.runBlocks (entry.blockSpan blocks)
                added := added }) := by
  obtain ⟨begins, ends, _⟩ := CacheEntry.blockSpan_bounds ordered inside
  have bytes : data.isEmpty = false := by
    cases data with
    | nil =>
        rw [List.length_nil] at length
        omega
    | cons byte rest => rfl
  have aligned : (entry.blockSpan blocks).1 % entry.blockSize = 0 :=
    Nat.mul_mod_left _ _
  have fits : ¬((entry.blockSpan blocks).1 % entry.blockSize ≠ 0 ∨
      entry.size < (entry.blockSpan blocks).1 + data.length) := by
    rw [aligned, length]
    omega
  have whole : (entry.runBlocks (entry.blockSpan blocks)).isEmpty =
      false := by
    rw [CacheEntry.runBlocks_blockSpan inside]
    cases count : blocks.2 + 1 - blocks.1 with
    | zero => omega
    | succ more => rfl
  unfold claimBlocks
  rw [found]
  dsimp only
  rw [idle, bytes, length, CacheEntry.coveredBlocks_blockSpan ordered inside,
    whole]
  rw [length] at fits
  exact if_neg fits

theorem run_stored (config : CacheConfig) {versionId : String}
    {entry : CacheEntry} (found : cache.entry versionId = some entry)
    {blocks : Nat × Nat} (ordered : blocks.1 ≤ blocks.2)
    (inside : blocks.2 < entry.blocks) {data : List UInt8}
    (length : data.length =
      (entry.blockSpan blocks).2 + 1 - (entry.blockSpan blocks).1)
    (free : FreeSpace) :
    RunStored config cache versionId entry (entry.blockSpan blocks) data
      free := by
  unfold RunStored
  cases staging : entry.writing with
  | true =>
      have refused : cache.claimBlocks config versionId
          (entry.blockSpan blocks).1 data free = (cache, none) := by
        simp [claimBlocks, found, staging]
      rw [refused]
      exact .inl rfl
  | false =>
      rw [claimBlocks_run config found staging ordered inside length free]
      generalize entry.missingBytes
        (entry.runBlocks (entry.blockSpan blocks)) = added
      dsimp only
      cases granted : (if added = 0 then (cache, none)
          else cache.makeRoom config added false (some entry.uid) free).2 with
      | some shortfall =>
          refine .inr ?_
          split at granted
          · cases granted
          · rw [granted]
            rfl
      | none =>
          refine ⟨?_, ?_⟩
          · intro keyed
            have kept : (if added = 0 then (cache, none)
                else cache.makeRoom config added false (some entry.uid)
                  free).1.entry versionId = some entry := by
              split
              · exact found
              · exact (makeRoom_spec config cache added false
                  (some entry.uid) free keyed).spares versionId entry found
                    (not_mem_lruOrder_keep cache entry)
            rw [CacheInvariant.update_entry, if_pos rfl, kept]
            simp only [Option.map_some, if_true]
            exact ⟨_, rfl,
              ⟨rfl, rfl, rfl, rfl, fun _ present => present⟩, rfl⟩
          · intro suspended later now laterFound grown
            obtain ⟨final, finalFound, flags⟩ := commitBlocks_entry
              ⟨entry.uid, versionId, (entry.blockSpan blocks).1, data,
                entry.runBlocks (entry.blockSpan blocks), added⟩
              laterFound grown.uid now
            refine ⟨final, finalFound, ?_⟩
            intro index
            have same := CacheEntry.blocks_congr grown.size grown.blockSize
            have known : index ∈ entry.runBlocks (entry.blockSpan blocks) →
                index < later.blocks := by
              rw [CacheEntry.runBlocks_blockSpan inside,
                List.mem_range'_1]
              omega
            rw [flags index]
            congr 1
            simp only [decide_eq_decide]
            exact and_iff_right_of_imp known

/-- The block map of every entry and every range of it: the blocks partition
the version, the missing runs are the absent blocks of the range, and storing
the bytes of a run marks its blocks. -/
theorem block_map_agrees (entry : CacheEntry) {begin_ end_ : Nat}
    (ordered : begin_ ≤ end_) (inside : end_ < entry.size) :
    entry.MissingRuns begin_ end_ (entry.missingRuns begin_ end_) ∧
    (∀ index < entry.blocks, 0 < entry.blockLength index) ∧
    ((List.range entry.blocks).map entry.blockLength).sum = entry.size ∧
    ∀ run ∈ entry.missingRuns begin_ end_,
      ∀ (config : CacheConfig) (cache : LocalCache) (versionId : String)
        (data : List UInt8) (free : FreeSpace),
        cache.entry versionId = some entry →
        data.length = run.2 + 1 - run.1 →
          RunStored config cache versionId entry run data free := by
  refine ⟨CacheEntry.missingRuns_spec ordered inside,
    fun index => CacheEntry.blockLength_pos, entry.sum_blockLength, ?_⟩
  intro run member config cache versionId data free found length
  obtain ⟨blocks, straight, known, rfl⟩ :=
    CacheEntry.mem_missingRuns ordered inside member
  exact run_stored config found straight known length free

/-- Ten bytes in blocks of four with only the middle one on disk. -/
def middleBlock : CacheEntry :=
  { uid := 0
    versionId := "v"
    fs := "fs"
    size := 10
    blockSize := 4
    present := [false, true, false]
    lastAccess := 0
    blockSize_pos := by decide
    present_length := rfl }

theorem block_map_agrees_around_middle :
    middleBlock.missingRuns 1 8 = [(0, 3), (8, 9)] ∧
      middleBlock.MissingRuns 1 8 (middleBlock.missingRuns 1 8) :=
  ⟨by decide, (block_map_agrees middleBlock (by decide) (by decide)).1⟩

end Tgdcfs
