import Tgdcfs.Core.Timestamps
import Tgdcfs.Lib.Binary64

/-!
# When a date survives its timestamp

Reading a timestamp is exact up to the year 2106: the quotient is off by less
than half a microsecond.  Writing one can lose a millisecond, since `ts`
truncates a product that is off by a little.
-/

namespace Tgdcfs

open Lib.Binary64

variable {float : Float.Model} {value : ℚ}

/-- Taking off the whole part of a float. -/
theorem stands_rest {least : ℚ} (stands : Stands float value)
    (fair : value = 0 ∨ least ≤ value) (normal : 1 / 2 ^ 100 ≤ least)
    (fits : value < 2 ^ 52) :
    truncate float = ⌊value⌋₊ ∧
      ∃ rest, Stands (float - .ofNat (truncate float)) rest ∧
        |rest - (value - ⌊value⌋₊)| ≤ 1 / 2 ^ 53 ∧
          (rest = 0 ∨ least / 2 ^ 54 ≤ rest) := by
  have whole : truncate float = ⌊value⌋₊ :=
    stands.toUInt64 (fits.trans (by norm_num))
  have floor : (⌊value⌋₊ : ℚ) ≤ value := Nat.floor_le (Holds.nonneg stands)
  have next : value < ⌊value⌋₊ + 1 := Nat.lt_floor_add_one value
  have small : ⌊value⌋₊ < 2 ^ 53 := by
    have : (⌊value⌋₊ : ℚ) < 2 ^ 53 :=
      floor.trans_lt (fits.trans (by norm_num))
    exact_mod_cast this
  have apart : value - ⌊value⌋₊ = 0 ∨
      least / 2 ^ 53 ≤ value - ⌊value⌋₊ := by
    rcases fair with rfl | reached
    · simp
    · rcases stands.fract with same | above
      · exact .inl (sub_eq_zero.mpr same)
      · right
        refine le_trans ?_ above
        gcongr
  have tame : value - ⌊value⌋₊ = 0 ∨ Tame (value - ⌊value⌋₊) := by
    refine apart.imp_right fun above => ⟨le_trans ?_ above, ?_⟩
    · norm_num at normal ⊢
      linarith only [normal]
    · refine le_trans (sub_le_iff_le_add'.mpr next.le) ?_
      norm_num
  obtain ⟨rest, holds, off⟩ := stands.sub (stands_ofNat _ small) tame
  rw [whole]
  refine ⟨rfl, rest, holds, off.trans ?_, ?_⟩
  · rw [div_le_div_iff_of_pos_right (by norm_num)]
    linarith only [next]
  · refine apart.imp (fun none => ?_) fun above => ?_
    · rw [none, sub_zero, zero_div] at off
      exact abs_eq_zero.mp (le_antisymm off (abs_nonneg _))
    · have under := (abs_le.mp off).1
      norm_num at under above normal ⊢
      linarith only [under, above, normal]

theorem roundHalfEven_near (stands : Stands float value)
    (fair : value = 0 ∨ 1 / 2 ^ 100 ≤ value) (fits : value < 2 ^ 52)
    {number : ℕ} (near : |value - number| ≤ 49 / 100) :
    roundHalfEven float = number := by
  obtain ⟨whole, rest, holds, off, -⟩ := stands_rest stands fair le_rfl fits
  obtain ⟨half, halved, between⟩ := (stands_ofNat 1 (by norm_num)).div
    (stands_ofNat 2 (by norm_num)) (by norm_num)
    (.inr (by norm_num [Tame]))
  obtain ⟨low, high⟩ := abs_le.mp near
  obtain ⟨under, beyond⟩ := abs_le.mp off
  obtain ⟨below, above⟩ := abs_le.mp between
  norm_num at below above under beyond
  simp only [roundHalfEven]
  rcases le_or_gt (number : ℚ) value with reached | short
  · have floor : ⌊value⌋₊ = number := by
      rw [Nat.floor_eq_iff (Holds.nonneg stands)]
      exact ⟨reached, by linarith only [high]⟩
    have less : rest < half := by
      rw [floor] at beyond
      linarith
    rw [if_pos ((holds.lt_iff halved).mpr less), whole, floor]
  · have positive : 0 < number := by
      have : (0 : ℚ) < number := (Holds.nonneg stands).trans_lt short
      exact_mod_cast this
    obtain ⟨before, rfl⟩ := Nat.exists_eq_add_of_le' positive
    push_cast at low high short
    have floor : ⌊value⌋₊ = before := by
      rw [Nat.floor_eq_iff (Holds.nonneg stands)]
      exact ⟨by linarith only [low], short⟩
    have more : half < rest := by
      rw [floor] at under
      linarith
    rw [if_neg (fun less => ((holds.lt_iff halved).mp less).not_gt more),
      if_pos ((halved.lt_iff holds).mpr more), whole, floor]

/-- A float of seconds is read as the microseconds it is closest to. -/
theorem fromtimestamp_near (stands : Stands float value)
    (positive : 1 / 2000 ≤ value) (fits : value < 2 ^ 40) {micros : ℕ}
    (near : |value * 1000000 - micros| ≤ 48 / 100) :
    fromtimestamp float = ⟨micros⟩ := by
  obtain ⟨whole, rest, holds, off, apart⟩ := stands_rest stands
    (.inr positive) (by norm_num) (fits.trans (by norm_num))
  have below : (⌊value⌋₊ : ℚ) ≤ value := Nat.floor_le (Holds.nonneg stands)
  have next : value < ⌊value⌋₊ + 1 := Nat.lt_floor_add_one value
  obtain ⟨under, beyond⟩ := abs_le.mp off
  obtain ⟨low, high⟩ := abs_le.mp near
  have tame : rest * (1000000 : ℕ) = 0 ∨ Tame (rest * (1000000 : ℕ)) := by
    rcases apart with rfl | least
    · simp
    · right
      constructor
      · norm_num at least ⊢
        linarith
      · norm_num at beyond ⊢
        linarith
  obtain ⟨fraction, product, error⟩ := holds.mul
    (stands_ofNat 1000000 (by norm_num)) tame
  obtain ⟨left, right⟩ := abs_le.mp error
  norm_num at left right under beyond
  obtain ⟨number, rfl⟩ : ∃ number, micros = ⌊value⌋₊ * 1000000 + number := by
    have : (⌊value⌋₊ : ℚ) * 1000000 < micros + 1 := by
      linarith only [below, high, low]
    exact Nat.exists_eq_add_of_le (Nat.le_of_lt_succ (by exact_mod_cast this))
  push_cast at low high
  have rounded : roundHalfEven ((float - .ofNat (truncate float)) *
      .ofNat 1000000) = number := by
    refine roundHalfEven_near product ?_ ?_ ?_
    · rcases apart with rfl | least
      · left
        linarith only [left, right]
      · right
        norm_num at least ⊢
        linarith only [left, least]
    · norm_num
      linarith only [right, beyond, next]
    · rw [abs_le]
      constructor
      · linarith only [left, under, low, high, next]
      · linarith only [right, beyond, low, high, next]
  unfold fromtimestamp
  simp only [rounded]
  rw [whole]

variable {millis : ℕ}

theorem fromtimestamp_ofMillis (positive : 0 < millis)
    (fits : millis < 2 ^ 32 * 1000) :
    fromtimestamp (.ofNat millis / .ofNat 1000) = .ofMillis millis := by
  have least : (1 : ℚ) ≤ millis := by exact_mod_cast positive
  have most : (millis : ℚ) < 2 ^ 32 * 1000 := by exact_mod_cast fits
  obtain ⟨seconds, stands, off⟩ := (stands_ofNat millis (by omega)).div
    (stands_ofNat 1000 (by norm_num))
      (by norm_num) (.inr ⟨by norm_num; linarith, by norm_num; linarith⟩)
  obtain ⟨under, beyond⟩ := abs_le.mp off
  norm_num at under beyond
  refine fromtimestamp_near stands (by linarith) (by linarith) ?_
  push_cast
  rw [abs_le]
  constructor <;> norm_num <;> linarith

/-- The product that `ts` truncates is off by little. -/
theorem timestamp_near (positive : 0 < millis)
    (fits : millis < 2 ^ 32 * 1000) :
    ∃ product, Stands ((LocalTime.ofMillis millis).timestamp * .ofNat 1000)
      product ∧ |product - millis| ≤ 1 / 4 := by
  have least : (1 : ℚ) ≤ millis := by exact_mod_cast positive
  have most : (millis : ℚ) < 2 ^ 32 * 1000 := by exact_mod_cast fits
  have parts := Nat.div_add_mod (millis * 1000) 1000000
  have bound := Nat.mod_lt (millis * 1000) (y := 1000000) (by norm_num)
  unfold LocalTime.timestamp LocalTime.ofMillis
  generalize millis * 1000 / 1000000 = whole at parts ⊢
  generalize millis * 1000 % 1000000 = micros at parts bound ⊢
  have split : (1000000 * whole + micros : ℚ) = millis * 1000 := by
    exact_mod_cast parts
  have nonneg : (0 : ℚ) ≤ whole := Nat.cast_nonneg whole
  have below : (micros : ℚ) < 1000000 := by exact_mod_cast bound
  have fair : (micros : ℚ) / (1000000 : ℕ) = 0 ∨
      Tame ((micros : ℚ) / (1000000 : ℕ)) := by
    rcases micros.eq_zero_or_pos with rfl | some
    · simp
    · have : (1 : ℚ) ≤ micros := by exact_mod_cast some
      right
      constructor <;> norm_num <;> linarith
  obtain ⟨fraction, divided, off⟩ := (stands_ofNat micros (by omega)).div
    (stands_ofNat 1000000 (by norm_num))
      (by norm_num) fair
  obtain ⟨under, beyond⟩ := abs_le.mp off
  norm_num at under beyond
  obtain ⟨seconds, added, off'⟩ := (stands_ofNat whole (by omega)).add divided
      (.inr ⟨by norm_num; linarith, by norm_num; linarith⟩)
  obtain ⟨under', beyond'⟩ := abs_le.mp off'
  norm_num at under' beyond'
  obtain ⟨product, multiplied, off''⟩ := added.mul
    (stands_ofNat 1000 (by norm_num))
      (.inr ⟨by norm_num; linarith, by norm_num; linarith⟩)
  obtain ⟨under'', beyond''⟩ := abs_le.mp off''
  norm_num at under'' beyond''
  refine ⟨product, multiplied, ?_⟩
  rw [abs_le]
  constructor <;> linarith

/-- The product that `ts` truncates comes out below the date. -/
def roundsBelow (millis : ℕ) : Bool :=
  ((LocalTime.ofMillis millis).timestamp * .ofNat 1000).lt (.ofNat millis)

theorem ts_ofMillis (positive : 0 < millis)
    (fits : millis < 2 ^ 32 * 1000) :
    ts (.ofMillis millis) =
      if roundsBelow millis then millis - 1 else millis := by
  obtain ⟨product, stands, off⟩ := timestamp_near positive fits
  obtain ⟨low, high⟩ := abs_le.mp off
  have most : (millis : ℚ) < 2 ^ 32 * 1000 := by exact_mod_cast fits
  have small : product < 2 ^ 53 := by linarith
  have compared := stands.lt_iff (stands_ofNat millis (by omega))
  have floored : ts (.ofMillis millis) = ⌊product⌋₊ :=
    stands.toUInt64 small
  rw [floored, Nat.floor_eq_iff (Holds.nonneg stands), roundsBelow]
  split_ifs with less
  · rw [compared] at less
    rw [Nat.cast_sub positive, Nat.cast_one]
    constructor <;> linarith
  · rw [compared, not_lt] at less
    exact ⟨less, by linarith⟩

/-- Up to the year 2106 a date is restored unless `ts` loses a
millisecond. -/
theorem LocalTime.restored_iff (positive : 0 < millis)
    (fits : millis < 2 ^ 32 * 1000) :
    (LocalTime.ofMillis millis).Restored ↔ roundsBelow millis = false := by
  have written := ts_ofMillis positive fits
  unfold LocalTime.Restored readDate
  rw [written]
  cases below : roundsBelow millis with
  | false =>
      have read := fromtimestamp_ofMillis positive fits
      simp [positive, read]
  | true =>
      simp only [if_true]
      rcases (millis - 1).eq_zero_or_pos with none | some
      · simp [none]
      · have read := fromtimestamp_ofMillis some (by omega)
        simp [some, read, LocalTime.ofMillis]
        omega

end Tgdcfs
