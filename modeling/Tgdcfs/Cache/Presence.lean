import Tgdcfs.Cache.Entry

/-!
# Ranges of an entry on disk

`missing_runs` cuts a range into runs to fetch and gaps that are on disk.  A
reader follows the cut from left to right.
-/

namespace Tgdcfs

namespace CacheEntry

variable {entry : CacheEntry}

/-- The blocks of every byte from `start` up to `stop` are on disk. -/
def OnDisk (entry : CacheEntry) (start stop : Nat) : Prop :=
  ∀ offset, start ≤ offset → offset < stop →
    entry.presentAt (offset / entry.blockSize) = true

theorem OnDisk.mono {start stop inner outer : Nat}
    (onDisk : entry.OnDisk start stop) (later : start ≤ inner)
    (earlier : outer ≤ stop) : entry.OnDisk inner outer := by
  intro offset from_ below
  exact onDisk offset (later.trans from_) (lt_of_lt_of_le below earlier)

theorem onDisk_block {index : Nat} (present : entry.presentAt index = true) :
    entry.OnDisk (index * entry.blockSize)
      ((index + 1) * entry.blockSize) := by
  intro offset from_ below
  have same : offset / entry.blockSize = index := by
    apply Nat.div_eq_of_lt_le from_ below
  rw [same]
  exact present

theorem hasRange_of_onDisk {start stop : Nat} (ordered : start ≤ stop)
    (inside : stop < entry.size) (onDisk : entry.OnDisk start (stop + 1)) :
    entry.hasRange start stop = true := by
  have positive := entry.blockSize_pos
  rw [hasRange, if_neg (by omega), if_neg (by omega), List.all_eq_true]
  intro index member
  rw [List.mem_range'_1] at member
  have upper : index ≤ stop / entry.blockSize := by omega
  have reaches : index * entry.blockSize ≤ stop :=
    (Nat.le_div_iff_mul_le positive).mp upper
  -- A byte of the range that lies in the block.
  have within : (max start (index * entry.blockSize)) / entry.blockSize =
      index := by
    rcases Nat.le_total start (index * entry.blockSize) with early | late
    · rw [max_eq_right early, Nat.mul_div_cancel _ positive]
    · rw [max_eq_left late]
      have lower := (Nat.le_div_iff_mul_le positive).mpr late
      omega
  have found := onDisk (max start (index * entry.blockSize))
    (le_max_left _ _) (by omega)
  rwa [within] at found

/-- What a reader at `position` still has to do for `[begin, end]`: the gaps
before the runs are on disk, and there is one before every run but the
first, which is widened to a whole block. -/
def Planned (entry : CacheEntry) (begin_ end_ : Nat) :
    Nat → List (Nat × Nat) → Prop
  | position, [] => entry.OnDisk position (end_ + 1)
  | position, (runBegin, runEnd) :: rest =>
      entry.OnDisk position runBegin ∧
      (position < runBegin ∨ position = begin_) ∧ runBegin ≤ runEnd ∧
      runBegin ≤ end_ ∧ begin_ ≤ runEnd ∧ runEnd < entry.size ∧
      Planned entry begin_ end_ (min runEnd end_ + 1) rest

/-- The last byte of a block. -/
def blockEnd (entry : CacheEntry) (index : Nat) : Nat :=
  index * entry.blockSize + entry.blockLength index - 1

theorem blockEnd_lt {index : Nat} (inside : index < entry.blocks) :
    index * entry.blockSize ≤ entry.blockEnd index ∧
      entry.blockEnd index < entry.size ∧
      entry.blockEnd index < (index + 1) * entry.blockSize ∧
      (index + 1 < entry.blocks →
        entry.blockEnd index + 1 = (index + 1) * entry.blockSize) ∧
      (index + 1 = entry.blocks →
        entry.blockEnd index + 1 = entry.size) := by
  have positive := entry.blockSize_pos
  have nonempty : 0 < entry.blocks := by omega
  have lastStart := entry.blocks_pred_mul_lt nonempty
  have enough := entry.blocks_mul_ge
  have next : (index + 1) * entry.blockSize =
      index * entry.blockSize + entry.blockSize := Nat.succ_mul _ _
  unfold blockEnd blockLength
  by_cases last : index < entry.blocks - 1
  · rw [if_pos last]
    have starts : (index + 1) * entry.blockSize ≤
        (entry.blocks - 1) * entry.blockSize :=
      Nat.mul_le_mul_right _ (by omega)
    refine ⟨by omega, by omega, by omega, fun _ => by omega, ?_⟩
    intro isLast
    omega
  · rw [if_neg last]
    have isLast : index = entry.blocks - 1 := by omega
    have all : (index + 1) * entry.blockSize =
        entry.blocks * entry.blockSize := by
      rw [isLast, Nat.sub_add_cancel nonempty]
    have before : index * entry.blockSize < entry.size := by
      rw [isLast]
      exact lastStart
    refine ⟨by omega, by omega, by omega, ?_, fun _ => by omega⟩
    intro more
    omega

section Scan

variable {begin_ end_ position index start : Nat}

/-- What the scan has established when it comes to block `index`. -/
structure Scanned (entry : CacheEntry) (begin_ end_ position index : Nat) :
    Prop where
  ordered : begin_ ≤ end_
  inside : end_ < entry.size
  reached : position < index * entry.blockSize ∨ position = begin_
  started : begin_ < (index + 1) * entry.blockSize
  onDisk : entry.OnDisk position (min (index * entry.blockSize) (end_ + 1))

theorem end_lt_blocks (inside : end_ < entry.size) :
    end_ / entry.blockSize < entry.blocks := by
  have enough := entry.blocks_mul_ge
  rw [Nat.div_lt_iff_lt_mul entry.blockSize_pos]
  omega

theorem end_le_blockEnd (inside : end_ < entry.size) :
    end_ ≤ entry.blockEnd (end_ / entry.blockSize) := by
  have known := end_lt_blocks inside
  obtain ⟨_, _, _, full, whole⟩ := blockEnd_lt known
  have below : end_ < (end_ / entry.blockSize + 1) * entry.blockSize :=
    Nat.lt_mul_of_div_lt (Nat.lt_succ_self _) entry.blockSize_pos
  by_cases more : end_ / entry.blockSize + 1 < entry.blocks
  · have exact_ := full more
    omega
  · have exact_ := whole (by omega)
    omega

/-- After the last block the rest of the range is on disk. -/
theorem Scanned.finished (scanned : Scanned entry begin_ end_ position index)
    (last : index = end_ / entry.blockSize + 1) :
    entry.OnDisk position (end_ + 1) := by
  have beyond : end_ < index * entry.blockSize := by
    rw [last]
    exact Nat.lt_mul_of_div_lt (Nat.lt_succ_self _) entry.blockSize_pos
  have onDisk := scanned.onDisk
  rwa [min_eq_right beyond] at onDisk

theorem Scanned.next (scanned : Scanned entry begin_ end_ position index)
    (present : entry.presentAt index = true) :
    Scanned entry begin_ end_ position (index + 1) := by
  have grows : index * entry.blockSize ≤ (index + 1) * entry.blockSize :=
    Nat.mul_le_mul_right _ (Nat.le_succ _)
  have further : (index + 1) * entry.blockSize ≤
      (index + 1 + 1) * entry.blockSize :=
    Nat.mul_le_mul_right _ (Nat.le_succ _)
  refine ⟨scanned.ordered, scanned.inside,
    scanned.reached.imp_left fun before => lt_of_lt_of_le before grows,
    lt_of_lt_of_le scanned.started further, ?_⟩
  intro offset from_ below
  by_cases first : offset < index * entry.blockSize
  · exact scanned.onDisk offset from_ (by omega)
  · exact onDisk_block present offset (by omega) (by omega)

/-- The run that ends before `index`, and where the scan goes on. -/
theorem Scanned.run (scanned : Scanned entry begin_ end_ position start)
    (opened : start < index) (count : index ≤ end_ / entry.blockSize + 1)
    {rest : List (Nat × Nat)}
    (continued : Planned entry begin_ end_
      (min (entry.blockEnd (index - 1)) end_ + 1) rest) :
    Planned entry begin_ end_ position
      ((start * entry.blockSize, entry.blockEnd (index - 1)) :: rest) := by
  have known := end_lt_blocks scanned.inside
  have previous : index - 1 < entry.blocks := by omega
  obtain ⟨begins, ends, _, full, whole⟩ := blockEnd_lt previous
  have early : start * entry.blockSize ≤ (index - 1) * entry.blockSize :=
    Nat.mul_le_mul_right _ (by omega)
  have asked : start * entry.blockSize ≤ end_ :=
    (Nat.le_div_iff_mul_le entry.blockSize_pos).mp (by omega)
  have onDisk := scanned.onDisk
  rw [min_eq_left (by omega)] at onDisk
  refine ⟨onDisk, scanned.reached, early.trans begins, asked, ?_, ends,
    continued⟩
  have ordered := scanned.ordered
  have inside := scanned.inside
  have started := scanned.started
  have upper : (start + 1) * entry.blockSize ≤
      (index - 1 + 1) * entry.blockSize :=
    Nat.mul_le_mul_right _ (by omega)
  by_cases more : index - 1 + 1 < entry.blocks
  · have exact_ := full more
    omega
  · have exact_ := whole (by omega)
    omega

/-- A run that ends inside the range leaves the reader at its next block. -/
theorem Scanned.resume (scanned : Scanned entry begin_ end_ position start)
    (opened : start < index) (more : index ≤ end_ / entry.blockSize)
    (present : entry.presentAt index = true) :
    Scanned entry begin_ end_
      (min (entry.blockEnd (index - 1)) end_ + 1) (index + 1) := by
  have known := end_lt_blocks scanned.inside
  have previous : index - 1 < entry.blocks := by omega
  obtain ⟨_, _, _, full, _⟩ := blockEnd_lt previous
  have asked : index * entry.blockSize ≤ end_ :=
    (Nat.le_div_iff_mul_le entry.blockSize_pos).mp more
  have exact_ := full (by omega)
  rw [Nat.sub_add_cancel (by omega)] at exact_
  have position_ : min (entry.blockEnd (index - 1)) end_ + 1 =
      index * entry.blockSize := by omega
  have upper : (start + 1) * entry.blockSize ≤
      (index + 1 + 1) * entry.blockSize :=
    Nat.mul_le_mul_right _ (by omega)
  rw [position_]
  refine ⟨scanned.ordered, scanned.inside, .inl ?_,
    lt_of_lt_of_le scanned.started upper, ?_⟩
  · exact Nat.mul_lt_mul_of_pos_right (Nat.lt_succ_self _)
      entry.blockSize_pos
  · exact (onDisk_block present).mono le_rfl (min_le_left _ _)

/-- The scan from a block on, without and with an open run. -/
theorem missingRunsFrom_planned (count : Nat) :
    (∀ position index, Scanned entry begin_ end_ position index →
      index + count = end_ / entry.blockSize + 2 → 0 < count →
        Planned entry begin_ end_ position
          (entry.missingRunsFrom (end_ / entry.blockSize)
            (List.range' index count) none)) ∧
    ∀ position start index, Scanned entry begin_ end_ position start →
      start < index → index + count = end_ / entry.blockSize + 2 →
      0 < count →
        Planned entry begin_ end_ position
          (entry.missingRunsFrom (end_ / entry.blockSize)
            (List.range' index count) (some start)) := by
  induction count with
  | zero =>
      refine ⟨?_, ?_⟩
      · intro _ _ _ _ impossible
        omega
      · intro _ _ _ _ _ _ impossible
        omega
  | succ count induction =>
      obtain ⟨closed, open_⟩ := induction
      refine ⟨?_, ?_⟩
      · intro position index scanned total _
        rw [List.range'_succ, missingRunsFrom]
        split
        · rename_i missing
          simp only [Bool.and_eq_true, decide_eq_true_eq] at missing
          exact open_ position index (index + 1) scanned
            (Nat.lt_succ_self _) (by omega) (by omega)
        · rename_i found
          by_cases last : index ≤ end_ / entry.blockSize
          · have present : entry.presentAt index = true := by
              simpa [last] using found
            exact closed position (index + 1) (scanned.next present)
              (by omega) (by omega)
          · obtain rfl : count = 0 := by omega
            exact scanned.finished (by omega)
      · intro position start index scanned opened total _
        rw [List.range'_succ, missingRunsFrom]
        split
        · rename_i missing
          simp only [Bool.and_eq_true, decide_eq_true_eq] at missing
          exact open_ position start (index + 1) scanned
            (Nat.lt_succ_of_lt opened) (by omega) (by omega)
        · rename_i found
          apply scanned.run opened (by omega)
          by_cases last : index ≤ end_ / entry.blockSize
          · have present : entry.presentAt index = true := by
              simpa [last] using found
            exact closed _ (index + 1) (scanned.resume opened last present)
              (by omega) (by omega)
          · obtain rfl : count = 0 := by omega
            have ends := end_le_blockEnd scanned.inside
            have isLast : index - 1 = end_ / entry.blockSize := by omega
            rw [isLast, min_eq_right ends]
            intro offset from_ below
            omega

theorem missingRuns_planned (ordered : begin_ ≤ end_)
    (inside : end_ < entry.size) :
    Planned entry begin_ end_ begin_ (entry.missingRuns begin_ end_) := by
  have clipped : min end_ (entry.size - 1) = end_ := by omega
  have first := Nat.div_mul_le_self begin_ entry.blockSize
  have positive := entry.blockSize_pos
  rw [missingRuns, if_neg (by omega)]
  dsimp only
  rw [clipped]
  have before : begin_ / entry.blockSize ≤ end_ / entry.blockSize :=
    Nat.div_le_div_right ordered
  apply (missingRunsFrom_planned _).1 begin_ (begin_ / entry.blockSize) _
    (by omega) (by omega)
  refine ⟨ordered, inside, .inr rfl, ?_, ?_⟩
  · exact Nat.lt_mul_of_div_lt (Nat.lt_succ_self _) positive
  · intro offset from_ below
    omega

end Scan

end CacheEntry

end Tgdcfs
