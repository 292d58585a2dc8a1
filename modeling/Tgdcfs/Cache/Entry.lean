import Mathlib.Algebra.BigOperators.Group.List.Basic
import Mathlib.Algebra.Order.BigOperators.Group.List
import Mathlib.Tactic.Ring

/-!
# Cache entries and their block maps

One entry of the local cache is a sparse data file with a map of the blocks
that are on disk.  The structure carries the two facts every operation keeps:
the block size is positive, and the map has one flag per block of the
version.  Offsets and sizes are natural numbers; the callers reject negative
ones before an entry is touched.  Instants are counted in microseconds.
-/

namespace Tgdcfs

/-- The configuration values the local cache reads. -/
structure CacheConfig where
  enabled : Bool
  maxSizeMb : Nat
  maxFiles : Nat
  maxFileSizeMb : Nat
  blockKb : Nat
  keepForReads : Bool
  minFreeMb : Nat
  maxAgeHours : Nat
  targetFillPercent : Nat
  blockKb_pos : 0 < blockKb

namespace CacheConfig

def maxSizeBytes (config : CacheConfig) : Nat :=
  config.maxSizeMb * 1024 * 1024

def maxFileSizeBytes (config : CacheConfig) : Nat :=
  config.maxFileSizeMb * 1024 * 1024

def minFreeBytes (config : CacheConfig) : Nat :=
  config.minFreeMb * 1024 * 1024

def blockBytes (config : CacheConfig) : Nat := config.blockKb * 1024

/-- `max_age_seconds`, in the unit of the instants. -/
def maxAge (config : CacheConfig) : Nat :=
  config.maxAgeHours * 3600 * 1000000

/-- Where a sweep evicts down to; `none` without a budget to aim for. -/
def targetBytes (config : CacheConfig) : Option Nat :=
  if config.maxSizeMb = 0 ∨ 100 ≤ config.targetFillPercent then none
  else some (config.maxSizeBytes * config.targetFillPercent / 100)

theorem blockBytes_pos (config : CacheConfig) : 0 < config.blockBytes :=
  Nat.mul_pos config.blockKb_pos (by decide)

end CacheConfig

def blocksFor (size blockSize : Nat) : Nat :=
  (size + blockSize - 1) / blockSize

/-- An entry of the cache.  `uid` stands for the identity of the object: a
version id can be dropped and cached again while a suspended task still
refers to the entry it had before. -/
structure CacheEntry where
  uid : Nat
  versionId : String
  fs : String
  size : Nat
  blockSize : Nat
  present : List Bool
  lastAccess : Int
  pins : Nat := 0
  writing : Bool := false
  inflight : Nat := 0
  pinnedAt : Int := 0
  blockSize_pos : 0 < blockSize
  present_length : present.length = blocksFor size blockSize

namespace CacheEntry

def evictable (entry : CacheEntry) : Bool :=
  entry.pins == 0 && !entry.writing && entry.inflight == 0

def blocks (entry : CacheEntry) : Nat := entry.present.length

def blockLength (entry : CacheEntry) (index : Nat) : Nat :=
  if index < entry.blocks - 1 then entry.blockSize
  else entry.size - index * entry.blockSize

/-- Whether a block is marked in the map. -/
def presentAt (entry : CacheEntry) (index : Nat) : Bool :=
  entry.present.getD index false

def presentBytes (entry : CacheEntry) : Nat :=
  ((List.range entry.blocks).map fun index =>
    if entry.presentAt index then entry.blockLength index else 0).sum

def chargedBytes (entry : CacheEntry) : Nat :=
  if entry.writing then entry.size else entry.presentBytes + entry.inflight

def isComplete (entry : CacheEntry) : Bool :=
  entry.size == 0 || entry.present.all id

def hasRange (entry : CacheEntry) (begin_ end_ : Nat) : Bool :=
  if entry.size = 0 then true
  else if entry.size ≤ end_ ∨ end_ < begin_ then false
  else
    (List.range' (begin_ / entry.blockSize)
      (end_ / entry.blockSize + 1 - begin_ / entry.blockSize)).all
        entry.presentAt

/-- The scan of `missing_runs`: the blocks still to look at and the start of
the run that is open. -/
def missingRunsFrom (entry : CacheEntry) (last : Nat) :
    List Nat → Option Nat → List (Nat × Nat)
  | [], _ => []
  | index :: rest, runStart =>
      let missing := decide (index ≤ last) && !entry.presentAt index
      match runStart with
      | none =>
          if missing then missingRunsFrom entry last rest (some index)
          else missingRunsFrom entry last rest none
      | some start =>
          if missing then missingRunsFrom entry last rest (some start)
          else
            (start * entry.blockSize,
              (index - 1) * entry.blockSize +
                entry.blockLength (index - 1) - 1) ::
              missingRunsFrom entry last rest none

/-- Block-aligned inclusive byte ranges of `[begin, end]` not on disk. -/
def missingRuns (entry : CacheEntry) (begin_ end_ : Nat) :
    List (Nat × Nat) :=
  if entry.size = 0 then []
  else
    let stop := min end_ (entry.size - 1)
    let first := begin_ / entry.blockSize
    let last := stop / entry.blockSize
    missingRunsFrom entry last (List.range' first (last + 2 - first)) none

/-- Set the flags of the given blocks. -/
def mark (entry : CacheEntry) (indices : List Nat) : CacheEntry :=
  { entry with
    present := entry.present.mapIdx fun index flag =>
      flag || decide (index ∈ indices)
    present_length := by simp [entry.present_length] }

/-- Change the bytes that fills have claimed for the entry. -/
def withInflight (entry : CacheEntry) (bytes : Nat) : CacheEntry :=
  { entry with inflight := bytes }

@[simp] theorem withInflight_uid (entry : CacheEntry) (bytes : Nat) :
    (entry.withInflight bytes).uid = entry.uid :=
  rfl

@[simp] theorem withInflight_writing (entry : CacheEntry) (bytes : Nat) :
    (entry.withInflight bytes).writing = entry.writing :=
  rfl

@[simp] theorem withInflight_inflight (entry : CacheEntry) (bytes : Nat) :
    (entry.withInflight bytes).inflight = bytes :=
  rfl

theorem chargedBytes_withInflight {entry : CacheEntry}
    (idle : entry.writing = false) (bytes : Nat) :
    (entry.withInflight bytes).chargedBytes =
      entry.presentBytes + bytes := by
  have staging : (entry.withInflight bytes).writing = false := idle
  rw [chargedBytes, staging, if_neg Bool.false_ne_true]
  rfl

theorem chargedBytes_of_idle {entry : CacheEntry}
    (idle : entry.writing = false) :
    entry.chargedBytes = entry.presentBytes + entry.inflight :=
  chargedBytes_withInflight idle entry.inflight

theorem blocks_eq (entry : CacheEntry) :
    entry.blocks = blocksFor entry.size entry.blockSize :=
  entry.present_length

theorem blocks_mul_ge (entry : CacheEntry) :
    entry.size ≤ entry.blocks * entry.blockSize := by
  rw [blocks_eq, blocksFor]
  have positive := entry.blockSize_pos
  have division := Nat.div_add_mod
    (entry.size + entry.blockSize - 1) entry.blockSize
  have remainder := Nat.mod_lt
    (entry.size + entry.blockSize - 1) positive
  have commuted := Nat.mul_comm entry.blockSize
    ((entry.size + entry.blockSize - 1) / entry.blockSize)
  omega

theorem blocks_pred_mul_lt (entry : CacheEntry) (nonempty : 0 < entry.blocks) :
    (entry.blocks - 1) * entry.blockSize < entry.size := by
  have positive := entry.blockSize_pos
  have division := Nat.div_mul_le_self
    (entry.size + entry.blockSize - 1) entry.blockSize
  have expanded : (entry.blocks - 1) * entry.blockSize + entry.blockSize =
      entry.blocks * entry.blockSize := by
    calc
      (entry.blocks - 1) * entry.blockSize + entry.blockSize
          = (entry.blocks - 1 + 1) * entry.blockSize := by ring
      _ = entry.blocks * entry.blockSize := by
          rw [Nat.sub_add_cancel nonempty]
  have unfolded : entry.blocks * entry.blockSize ≤
      entry.size + entry.blockSize - 1 := by
    rw [blocks_eq, blocksFor]
    exact division
  omega

private theorem sum_blockLength_upTo (entry : CacheEntry) (count : Nat)
    (inside : count ≤ entry.blocks - 1) :
    ((List.range count).map entry.blockLength).sum =
      count * entry.blockSize := by
  induction count with
  | zero => simp
  | succ count induction =>
      have tail := induction (by omega)
      have full : entry.blockLength count = entry.blockSize := by
        simp only [blockLength]
        rw [if_pos (by omega)]
      rw [List.range_succ, List.map_append, List.sum_append, tail]
      simp only [List.map_cons, List.map_nil, List.sum_cons, List.sum_nil,
        full]
      ring

theorem sum_blockLength (entry : CacheEntry) :
    ((List.range entry.blocks).map entry.blockLength).sum = entry.size := by
  rcases Nat.eq_zero_or_pos entry.blocks with empty | nonempty
  · have covered := entry.blocks_mul_ge
    rw [empty] at covered ⊢
    simp only [Nat.zero_mul, Nat.le_zero] at covered
    simp [covered]
  · have lastFits := entry.blocks_pred_mul_lt nonempty
    have split : entry.blocks = (entry.blocks - 1) + 1 := by omega
    have lastLength : entry.blockLength (entry.blocks - 1) =
        entry.size - (entry.blocks - 1) * entry.blockSize := by
      simp only [blockLength]
      rw [if_neg (by omega)]
    rw [split, List.range_succ, List.map_append, List.sum_append,
      sum_blockLength_upTo entry (entry.blocks - 1) le_rfl]
    simp only [List.map_cons, List.map_nil, List.sum_cons, List.sum_nil,
      lastLength]
    omega

private theorem sum_map_le_sum_map {indices : List Nat}
    {left right : Nat → Nat}
    (pointwise : ∀ index ∈ indices, left index ≤ right index) :
    (indices.map left).sum ≤ (indices.map right).sum :=
  List.sum_le_sum pointwise

theorem presentBytes_le_size (entry : CacheEntry) :
    entry.presentBytes ≤ entry.size := by
  rw [← sum_blockLength entry, presentBytes]
  apply sum_map_le_sum_map
  intro index _
  split <;> omega

theorem presentAt_mark (entry : CacheEntry) (indices : List Nat)
    (index : Nat) :
    (entry.mark indices).presentAt index =
      (entry.presentAt index ||
        decide (index < entry.blocks ∧ index ∈ indices)) := by
  simp only [presentAt, mark, blocks, List.getD_eq_getElem?_getD,
    List.getElem?_mapIdx]
  by_cases inside : index < entry.present.length
  · simp [inside]
  · simp [inside]

@[simp] theorem mark_blocks (entry : CacheEntry) (indices : List Nat) :
    (entry.mark indices).blocks = entry.blocks := by
  simp [mark, blocks]

theorem mark_blockLength (entry : CacheEntry) (indices : List Nat)
    (index : Nat) :
    (entry.mark indices).blockLength index = entry.blockLength index := by
  simp only [blockLength, mark_blocks]
  rfl

/-- Bytes a write of the given blocks adds to what is on disk. -/
def missingBytes (entry : CacheEntry) (indices : List Nat) : Nat :=
  (indices.map fun index =>
    if entry.presentAt index then 0 else entry.blockLength index).sum

private theorem sum_ite_eq_le (weights : Nat → Nat) (head count : Nat) :
    ((List.range count).map fun index =>
        if index = head then weights index else 0).sum ≤
      if head < count then weights head else 0 := by
  induction count with
  | zero => simp
  | succ count induction =>
      rw [List.range_succ, List.map_append, List.sum_append]
      simp only [List.map_cons, List.map_nil, List.sum_cons, List.sum_nil]
      by_cases same : count = head
      · subst head
        simp only [lt_irrefl, if_false] at induction
        simp only [if_true, Nat.lt_succ_self]
        omega
      · simp only [same, if_false]
        split at induction <;> split <;> omega

private theorem sum_ite_mem_le (weights : Nat → Nat) (count : Nat)
    (indices : List Nat) :
    ((List.range count).map fun index =>
        if index ∈ indices then weights index else 0).sum ≤
      (indices.map weights).sum := by
  induction indices with
  | nil => simp
  | cons head indices induction =>
      have single : ((List.range count).map fun index =>
          if index = head then weights index else 0).sum ≤ weights head := by
        refine (sum_ite_eq_le weights head count).trans ?_
        split <;> omega
      have pointwise : ((List.range count).map fun index =>
          if index ∈ head :: indices then weights index else 0).sum ≤
            ((List.range count).map fun index =>
              (if index = head then weights index else 0) +
                if index ∈ indices then weights index else 0).sum := by
        apply sum_map_le_sum_map
        intro index _
        by_cases same : index = head <;> by_cases member : index ∈ indices <;>
          simp [same, member]
      rw [List.sum_map_add] at pointwise
      simp only [List.map_cons, List.sum_cons]
      omega

/-- Marking blocks charges at most the bytes that were missing of them. -/
theorem presentBytes_mark_le (entry : CacheEntry) (indices : List Nat) :
    (entry.mark indices).presentBytes ≤
      entry.presentBytes + entry.missingBytes indices := by
  have pointwise : (entry.mark indices).presentBytes ≤
      ((List.range entry.blocks).map fun index =>
        (if entry.presentAt index then entry.blockLength index else 0) +
          if index ∈ indices then
            (if entry.presentAt index then 0 else entry.blockLength index)
          else 0).sum := by
    simp only [presentBytes, mark_blocks]
    apply sum_map_le_sum_map
    intro index _
    rw [presentAt_mark, mark_blockLength]
    by_cases here : entry.presentAt index <;>
      by_cases member : index ∈ indices <;> simp [here, member]
    split <;> omega
  rw [List.sum_map_add] at pointwise
  have bounded := sum_ite_mem_le
    (fun index => if entry.presentAt index then 0 else
      entry.blockLength index) entry.blocks indices
  simp only [missingBytes, presentBytes] at *
  omega

/-- Marking more blocks first leaves less to be charged later. -/
theorem missingBytes_mark_le (entry : CacheEntry)
    (marked indices : List Nat) :
    (entry.mark marked).missingBytes indices ≤
      entry.missingBytes indices := by
  apply sum_map_le_sum_map
  intro index _
  rw [presentAt_mark, mark_blockLength]
  by_cases here : entry.presentAt index <;> simp [here]
  split <;> omega

theorem mark_filter (entry : CacheEntry) (indices : List Nat) :
    entry.mark (indices.filter fun index => !entry.presentAt index) =
      entry.mark indices := by
  have flags : (entry.present.mapIdx fun index flag =>
      flag || decide (index ∈
        indices.filter fun index => !entry.presentAt index)) =
      entry.present.mapIdx fun index flag =>
        flag || decide (index ∈ indices) := by
    apply List.ext_getElem?
    intro index
    simp only [List.getElem?_mapIdx]
    by_cases inside : index < entry.present.length
    · rw [List.getElem?_eq_getElem inside]
      have flag : entry.presentAt index = entry.present[index] := by
        simp [presentAt, inside]
      cases here : entry.present[index] <;> simp [flag, here]
    · rw [List.getElem?_eq_none (Nat.le_of_not_lt inside)]
      rfl
  simp only [mark, flags]

/-- Every block of the version is on disk. -/
def Whole (entry : CacheEntry) : Prop :=
  entry.missingBytes (List.range entry.blocks) = 0

theorem blocks_congr {left right : CacheEntry} (size : left.size = right.size)
    (blockSize : left.blockSize = right.blockSize) :
    left.blocks = right.blocks := by
  rw [blocks_eq, blocks_eq, size, blockSize]

theorem mark_range_whole (entry : CacheEntry) :
    (entry.mark (List.range entry.blocks)).Whole := by
  have nothing : ∀ index ∈ List.range entry.blocks,
      (if (entry.mark (List.range entry.blocks)).presentAt index then 0
        else (entry.mark (List.range entry.blocks)).blockLength index) =
          0 := by
    intro index member
    rw [presentAt_mark]
    simp [List.mem_range.mp member]
  rw [Whole, mark_blocks, missingBytes, List.map_congr_left nothing]
  simp

theorem missingBytes_range_le (entry : CacheEntry) {count : Nat}
    (inside : count ≤ entry.blocks) :
    entry.missingBytes (List.range count) ≤
      entry.missingBytes (List.range entry.blocks) :=
  ((List.range_sublist.mpr inside).map _).sum_le_sum
    fun _ _ => Nat.zero_le _

end CacheEntry

end Tgdcfs
