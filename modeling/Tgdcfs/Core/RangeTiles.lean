import Mathlib.Data.List.Range
import Tgdcfs.Core.RangeMap

/-!
# The generator behind a mapped range

`_map_range` is a generator: a caller may have received some pieces when a
later one fails.  `yieldRanges` keeps both, the pieces yielded and the error
raised after them, and `mapRange` is what a caller that drains it gets.  Over
a complete layout the pieces, translated back to offsets of the version, list
every offset of the range once and in order.
-/

namespace Tgdcfs

/-- The second loop of `_map_range`: what it yields, and what ends it. -/
def yieldParts (messageIds : List Int) (begin_ end_ : Nat) :
    List Nat → Nat → Nat → List PartRange × Option RangeError
  | [], _, _ => ([], none)
  | partSize :: rest, part, offset =>
      if end_ < offset then ([], none)
      else
        let partBegin := begin_ - offset
        let partStop := min partSize (end_ + 1 - offset)
        if partBegin < partStop then
          match messageIds[part]? with
          | none => ([], some (.noMessage part))
          | some messageId =>
              let later := yieldParts messageIds begin_ end_ rest
                (part + 1) (offset + partSize)
              (⟨part, messageId, partBegin, partStop - 1⟩ :: later.1,
                later.2)
        else
          yieldParts messageIds begin_ end_ rest (part + 1)
            (offset + partSize)

/-- `_map_range` with everything it yields before it raises. -/
def yieldRanges (messageIds : List Int) (partSizes : List Nat)
    (size begin_ end_ : Int) : List PartRange × Option RangeError :=
  if size ≤ 0 then ([], none)
  else
    let stop := if end_ < 0 ∨ size ≤ end_ then size - 1 else end_
    if begin_ < 0 then ([], some (.invalidBegin begin_ size))
    else if stop < begin_ then ([], some (.invalidRange begin_ stop))
    else
      match skipParts begin_.toNat partSizes 0 0 with
      | (_, _, []) => ([], some (.beyondParts begin_ size))
      | (part, offset, rest) =>
          yieldParts messageIds begin_.toNat stop.toNat rest part offset

/-- Where every part that is asked for has a message the generator yields the
ranges of the loop. -/
private theorem yieldParts_of_takeParts {messageIds : List Int}
    {begin_ end_ : Nat} {rest : List Nat} {part offset : Nat}
    {ranges : List PartRange}
    (mapped : takeParts messageIds begin_ end_ rest part offset =
      .ok ranges) :
    yieldParts messageIds begin_ end_ rest part offset = (ranges, none) := by
  induction rest generalizing part offset ranges with
  | nil =>
      cases mapped
      rfl
  | cons partSize rest induction =>
      unfold takeParts at mapped
      unfold yieldParts
      split at mapped
      · rename_i past
        cases mapped
        rw [if_pos past]
      · rename_i reached
        rw [if_neg reached]
        dsimp only at mapped ⊢
        split at mapped
        · rename_i touched
          rw [if_pos touched]
          cases known : messageIds[part]? with
          | none =>
              rw [known] at mapped
              cases mapped
          | some messageId =>
              rw [known] at mapped
              obtain ⟨later, taken, rfl⟩ := ok_of_map mapped
              simp only [induction taken]
        · rename_i untouched
          rw [if_neg untouched]
          exact induction mapped

/-- The end `_map_range` works with: an end before the start of the version
or past its last byte stands for the last byte. -/
def clampedEnd (size end_ : Int) : Int :=
  if end_ < 0 ∨ size ≤ end_ then size - 1 else end_

private theorem yieldRanges_inside (messageIds : List Int)
    {partSizes : List Nat} (nonempty : 0 < partSizes.sum)
    {begin_ end_ : Int} (positive : 0 ≤ begin_)
    (ordered : begin_ ≤ clampedEnd partSizes.sum end_) :
    yieldRanges messageIds partSizes partSizes.sum begin_ end_ =
      match skipParts begin_.toNat partSizes 0 0 with
      | (_, _, []) => ([], some (.beyondParts begin_ partSizes.sum))
      | (part, offset, rest) =>
          yieldParts messageIds begin_.toNat
            (clampedEnd partSizes.sum end_).toNat rest part offset := by
  have content : ¬(partSizes.sum : Int) ≤ 0 := by omega
  have within : ¬begin_ < 0 := by omega
  have straight : ¬clampedEnd partSizes.sum end_ < begin_ := by omega
  unfold yieldRanges
  rw [if_neg content]
  dsimp only
  rw [if_neg within]
  exact if_neg straight

theorem clampedEnd_lt (size end_ : Int) : clampedEnd size end_ < size := by
  unfold clampedEnd
  split
  · omega
  · omega

/-- The pieces of a range over a complete layout tile the range; outside the
version nothing is yielded before the error. -/
theorem yieldRanges_tile (messageIds : List Int) (partSizes : List Nat)
    (complete : messageIds.length = partSizes.length)
    (nonempty : 0 < partSizes.sum) (begin_ end_ : Int) :
    if 0 ≤ begin_ ∧ begin_ ≤ clampedEnd partSizes.sum end_ then
      ∃ ranges, yieldRanges messageIds partSizes partSizes.sum begin_ end_ =
          (ranges, none) ∧
        (ranges.map PartRange.part).Pairwise (· < ·) ∧
        (∀ range ∈ ranges, range.Fits messageIds partSizes) ∧
        (ranges.flatMap (PartRange.offsets partSizes)).map Int.ofNat =
          (List.range (clampedEnd partSizes.sum end_ + 1 -
            begin_).toNat).map fun distance : Nat => begin_ + distance
    else
      ∃ error, yieldRanges messageIds partSizes partSizes.sum begin_ end_ =
        ([], some error) := by
  have last := clampedEnd_lt partSizes.sum end_
  split
  · rename_i served
    obtain ⟨positive, ordered⟩ := served
    obtain ⟨first, partSize, after, skipped, left, reached⟩ :=
      skipParts_spec begin_.toNat partSizes (List.drop_zero).symm
        (by simp) (Nat.zero_le _) (by omega)
    obtain ⟨ranges, mapped, _, increasing, fits, offsets⟩ :=
      takeParts_tiles begin_.toNat (clampedEnd partSizes.sum end_).toNat
        complete (by omega) left rfl
    refine ⟨ranges, ?_, increasing, fits, ?_⟩
    · rw [yieldRanges_inside messageIds nonempty positive ordered, skipped]
      exact yieldParts_of_takeParts mapped
    · have starting : max begin_.toNat (partSizes.take first).sum =
          begin_.toNat := by omega
      have count : (clampedEnd partSizes.sum end_).toNat + 1 -
          begin_.toNat =
            (clampedEnd partSizes.sum end_ + 1 - begin_).toNat := by
        omega
      rw [offsets, starting, count, List.range'_eq_map_range, List.map_map]
      apply List.map_congr_left
      intro distance _
      simp only [Function.comp_apply, Int.ofNat_eq_natCast]
      omega
  · rename_i refused
    have content : ¬(partSizes.sum : Int) ≤ 0 := by omega
    unfold yieldRanges
    rw [if_neg content]
    dsimp only
    split
    · exact ⟨_, rfl⟩
    · rename_i positive
      have reversed : clampedEnd partSizes.sum end_ < begin_ := by omega
      exact ⟨_, if_pos reversed⟩

/-- Parts of 2, 0, 3 and 1 bytes, read from the second byte on to the end. -/
theorem yieldRanges_tile_from_one :
    yieldRanges [10, 11, 12, 13] [2, 0, 3, 1] 6 1 (-1) =
        ([⟨0, 10, 1, 1⟩, ⟨2, 12, 0, 2⟩, ⟨3, 13, 0, 0⟩], none) ∧
      ∃ ranges, yieldRanges [10, 11, 12, 13] [2, 0, 3, 1]
          ([2, 0, 3, 1] : List Nat).sum 1 (-1) = (ranges, none) := by
  refine ⟨by decide, ?_⟩
  have tiled := yieldRanges_tile [10, 11, 12, 13] [2, 0, 3, 1] rfl
    (by decide) 1 (-1)
  rw [if_pos (by decide)] at tiled
  obtain ⟨ranges, yielded, _⟩ := tiled
  exact ⟨ranges, yielded⟩

end Tgdcfs
