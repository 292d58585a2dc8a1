import Mathlib

/-!
# Rational values of double precision numbers

`Float.Model` follows IEEE 754 bit by bit.  Zero and the positive normal
numbers are described here by the rational numbers they stand for.  Rounding
to nearest is off by at most half of the last place, and so are the sum, the
difference, the product and the quotient.  A comparison and the conversion to
an unsigned word are exact.
-/

namespace Tgdcfs.Lib.Binary64

open Float.Model Float.Model.UnpackedFloat

/-- A full mantissa and an exponent that double precision has room for. -/
structure Normal (mantissa : ℕ) (exponent : ℤ) : Prop where
  full : 2 ^ 52 ≤ mantissa
  fits : mantissa < 2 ^ 53
  least : -1074 ≤ exponent
  most : exponent ≤ 971

/-- The value of zero or of a positive normal number. -/
inductive Holds : UnpackedFloat → ℚ → Prop
  | zero : Holds (.zero .positive) 0
  | finite {mantissa : ℕ} {exponent : ℤ} (positive : 0 < mantissa)
      (normal : Normal mantissa exponent) :
      Holds (.finite .positive mantissa exponent positive)
        (mantissa * 2 ^ exponent)

/-- A float and the number it stands for. -/
def Stands (float : Float.Model) (value : ℚ) : Prop :=
  Holds float.unpack value

/-- Far from overflow and from the subnormal numbers. -/
def Tame (value : ℚ) : Prop :=
  2 ^ (-200 : ℤ) ≤ value ∧ value ≤ 2 ^ (200 : ℤ)

/-- An unpacked result that is off by at most half of its last place. -/
def Near (float : UnpackedFloat) (value : ℚ) : Prop :=
  ∃ rounded, Holds float rounded ∧ |rounded - value| ≤ value / 2 ^ 53

variable {mantissa mantissa' : ℕ} {exponent exponent' : ℤ} {value : ℚ}
  {extended : ExtendedMantissa} {accuracy : Accuracy}

theorem Normal.log2 (normal : Normal mantissa exponent) :
    mantissa.log2 = 52 := by
  have positive : mantissa ≠ 0 := by
    have := normal.full
    omega
  exact (Nat.log2_eq_iff positive).mpr ⟨normal.full, normal.fits⟩

theorem shiftRight_mantissa (extended : ExtendedMantissa) (count : ℕ) :
    (extended >>> count).mantissa = extended.mantissa / 2 ^ count := by
  induction count with
  | zero => simp [HShiftRight.hShiftRight, Nat.repeat]
  | succ count induction =>
      have step : (extended >>> (count + 1)).mantissa =
          (extended >>> count).mantissa / 2 := rfl
      rw [step, induction, Nat.div_div_eq_div_mul, pow_succ]

/-- The residual bits tell where a number lies above the mantissa. -/
def Describes (extended : ExtendedMantissa) (value : ℚ) : Prop :=
  match extended.roundBit, extended.stickyBit with
  | false, false => value = extended.mantissa
  | false, true => extended.mantissa < value ∧
      value < extended.mantissa + 1 / 2
  | true, false => value = extended.mantissa + 1 / 2
  | true, true => extended.mantissa + 1 / 2 < value ∧
      value < extended.mantissa + 1

theorem Describes.bounds (describes : Describes extended value) :
    extended.mantissa ≤ value ∧ value < extended.mantissa + 1 := by
  obtain ⟨mantissa, round, sticky⟩ := extended
  cases round <;> cases sticky <;> simp only [Describes] at describes ⊢ <;>
    constructor <;> linarith

theorem Describes.shiftRightOne (describes : Describes extended value) :
    Describes extended.shiftRightOne (value / 2) := by
  obtain ⟨mantissa, round, sticky⟩ := extended
  obtain ⟨half, rfl | rfl⟩ := mantissa.even_or_odd'
  all_goals
    cases round <;> cases sticky <;>
      simp [Describes, ExtendedMantissa.shiftRightOne,
        Nat.add_div] at describes ⊢ <;>
      first | linarith | (constructor <;> linarith)

theorem Describes.shiftRight (describes : Describes extended value)
    (count : ℕ) :
    Describes (extended >>> count) (value / 2 ^ count) := by
  induction count with
  | zero => simpa [HShiftRight.hShiftRight, Nat.repeat] using describes
  | succ count induction =>
      rw [pow_succ, ← div_div]
      exact induction.shiftRightOne

theorem Describes.rounded (describes : Describes extended value) :
    |(extended.roundedMantissa : ℚ) - value| ≤ 1 / 2 := by
  obtain ⟨mantissa, round, sticky⟩ := extended
  have low : (0 : ℚ) ≤ (mantissa % 2 : ℕ) := Nat.cast_nonneg _
  have high : ((mantissa % 2 : ℕ) : ℚ) ≤ 1 := by
    exact_mod_cast Nat.le_of_lt_succ (Nat.mod_lt mantissa two_pos)
  rw [abs_le]
  cases round <;> cases sticky <;>
    simp only [Describes, ExtendedMantissa.roundedMantissa,
      ExtendedMantissa.accuracy, Accuracy.roundToNearestEven, Nat.cast_add,
      Nat.cast_one] at describes ⊢ <;>
    constructor <;> linarith

theorem describes_fraction (whole : ℕ) {divisor : ℕ}
    (positive : 0 < divisor) :
    Describes (.ofMantissaAndAccuracy (whole / divisor)
      (accuracyOfFraction (whole % divisor) divisor))
        ((whole : ℚ) / divisor) := by
  have split : (whole : ℚ) / divisor =
      (whole / divisor : ℕ) + ((whole % divisor : ℕ) : ℚ) / divisor := by
    rw [eq_comm, ← eq_sub_iff_add_eq', div_eq_iff (by positivity), sub_mul,
      div_mul_cancel₀ _ (by positivity), eq_sub_iff_add_eq']
    exact_mod_cast Nat.div_add_mod' whole divisor
  have rest : whole % divisor < divisor := Nat.mod_lt _ positive
  have scale : (0 : ℚ) < divisor := by exact_mod_cast positive
  rw [split]
  generalize whole % divisor = remainder at rest ⊢
  unfold accuracyOfFraction
  split_ifs with none
  · subst none
    simp [Describes, ExtendedMantissa.ofMantissaAndAccuracy]
  · have below : ((remainder : ℚ) / divisor) < 1 := by
      rw [div_lt_one scale]
      exact_mod_cast rest
    have above : (0 : ℚ) < (remainder : ℚ) / divisor := by positivity
    rcases lt_trichotomy (2 * remainder) divisor with less | same | more
    · rw [compare_lt_iff_lt.mpr less]
      have : (remainder : ℚ) / divisor < 1 / 2 := by
        rw [div_lt_div_iff₀ scale two_pos, one_mul, mul_comm]
        exact_mod_cast less
      simp only [Describes, ExtendedMantissa.ofMantissaAndAccuracy]
      constructor <;> linarith
    · rw [compare_eq_iff_eq.mpr same]
      have : (remainder : ℚ) / divisor = 1 / 2 := by
        rw [div_eq_div_iff scale.ne' two_ne_zero, one_mul, mul_comm]
        exact_mod_cast same
      rw [this]
      rfl
    · rw [compare_gt_iff_gt.mpr more]
      have : (1 : ℚ) / 2 < (remainder : ℚ) / divisor := by
        rw [div_lt_div_iff₀ two_pos scale, one_mul, mul_comm]
        exact_mod_cast more
      simp only [Describes, ExtendedMantissa.ofMantissaAndAccuracy]
      constructor <;> linarith

theorem ofMantissaAndAccuracy_mantissa (mantissa : ℕ)
    (accuracy : Accuracy) :
    (ExtendedMantissa.ofMantissaAndAccuracy mantissa accuracy).mantissa =
      mantissa := by
  cases accuracy with
  | exact => rfl
  | inexact side => cases side <;> rfl

/-- Packing keeps zero and the normal numbers. -/
theorem Holds.unpack_pack {float : UnpackedFloat} (holds : Holds float value) :
    (Float.Model.pack float).unpack = float := by
  cases holds with
  | zero => rfl
  | @finite mantissa exponent positive normal =>
      have log := normal.log2
      obtain ⟨full, fits, least, most⟩ := normal
      obtain ⟨biased, shifted⟩ :
          ∃ biased : ℕ, exponent + 1023 + 52 = biased :=
        ⟨(exponent + 1023 + 52).toNat, by omega⟩
      have small : biased < 2047 := by omega
      have word : (BitVec.ofNat 11 biased).toNat = biased := by
        rw [BitVec.toNat_ofNat, Nat.mod_eq_of_lt (by omega)]
      have noInfinity : BitVec.ofNat 11 biased ≠ -1#11 := by
        intro same
        have := congrArg BitVec.toNat same
        rw [word] at this
        norm_num at this
        omega
      have noZero : BitVec.ofNat 11 biased ≠ 0#11 := by
        intro same
        have := congrArg BitVec.toNat same
        rw [word] at this
        norm_num at this
        omega
      have implicit : (1#1 ++ BitVec.ofNat 52 mantissa).toNat = mantissa := by
        rw [BitVec.toNat_append, ← Nat.shiftLeft_add_eq_or_of_lt
          (BitVec.isLt _), BitVec.toNat_ofNat]
        simp only [BitVec.toNat_ofNat, Nat.shiftLeft_eq]
        omega
      have components : UnpackedFloat.pack Format.binary64
          (.finite .positive mantissa exponent positive) =
            packComponents Format.binary64 .positive
              (BitVec.ofNat 11 biased) (BitVec.ofNat 52 mantissa) := by
        simp only [UnpackedFloat.pack, Format.exponentBias,
          Format.mantissaBits]
        norm_num
        rw [shifted, Int.toNat_natCast, if_neg (by omega), log,
          if_pos rfl]
      have unpacked : (Float.Model.pack (.finite .positive mantissa exponent
          positive)).unpack = UnpackedFloat.unpack Format.binary64
            (UnpackedFloat.pack Format.binary64
              (.finite .positive mantissa exponent positive)) := rfl
      rw [unpacked, components, UnpackedFloat.unpack]
      simp only [unpackMantissa_packComponents,
        unpackExponent_packComponents, unpackSign_packComponents]
      rw [if_neg noInfinity, if_neg noZero]
      simp only [word, implicit]
      congr 1
      show (biased : ℤ) - (1023 + 52) = exponent
      omega

/-- A mantissa with more than 53 bits is shifted by what is too much. -/
theorem shiftToTargetExponent_eq (accuracy : Accuracy) (extra : ℕ)
    (long : mantissa.log2 = 52 + extra)
    (least : -1074 ≤ exponent + extra) :
    shiftToTargetExponent Format.binary64 mantissa exponent accuracy =
      (ExtendedMantissa.ofMantissaAndAccuracy mantissa accuracy >>> extra,
        exponent + extra) := by
  have target : Format.binary64.targetExponent
      (totalExponent mantissa exponent) - exponent = extra := by
    simp only [Format.targetExponent, totalExponent, Format.mantissaBits,
      Format.minExponent, long]
    norm_num
    omega
  simp only [shiftToTargetExponent, shiftToExponent, target,
    Int.toNat_natCast]

theorem Tame.bounds (tame : Tame (value * 2 ^ exponent))
    (positive : mantissa ≠ 0) (below : mantissa ≤ value)
    (above : value < mantissa + 1) :
    -201 ≤ exponent + mantissa.log2 ∧ exponent + mantissa.log2 ≤ 200 := by
  have power (count : ℕ) : (2 : ℚ) ^ (exponent + count) =
      2 ^ count * 2 ^ exponent := by
    rw [zpow_add₀ two_ne_zero, zpow_natCast]
    ring
  have bits : (2 : ℚ) ^ mantissa.log2 ≤ mantissa := by
    exact_mod_cast Nat.log2_self_le positive
  have next : (mantissa : ℚ) + 1 ≤ 2 ^ (mantissa.log2 + 1) := by
    exact_mod_cast Nat.lt_log2_self
  constructor
  · have size : (2 : ℚ) ^ (-200 : ℤ) ≤
        2 ^ (exponent + (mantissa.log2 + 1 : ℕ)) := by
      rw [power]
      refine tame.1.trans ?_
      gcongr
      exact above.le.trans next
    have := (zpow_le_zpow_iff_right₀ one_lt_two).mp size
    omega
  · have size : (2 : ℚ) ^ (exponent + mantissa.log2) ≤ 2 ^ (200 : ℤ) := by
      rw [power]
      refine le_trans ?_ tame.2
      gcongr
      exact bits.trans below
    exact (zpow_le_zpow_iff_right₀ one_lt_two).mp size

/-- A mantissa that rounding carried over is shifted once more. -/
theorem shift_rounded {rounded : ℕ} {place : ℤ}
    (full : 2 ^ 52 ≤ rounded) (fits : rounded ≤ 2 ^ 53)
    (least : -1074 ≤ place) (most : place < 971) :
    ∃ extended exponent, shiftToTargetExponent Format.binary64 rounded place
        .exact = (extended, exponent) ∧
      Normal extended.mantissa exponent ∧
        (rounded : ℚ) * 2 ^ place = extended.mantissa * 2 ^ exponent := by
  rcases fits.lt_or_eq with fits | rfl
  · have normal : Normal rounded place := ⟨full, fits, least, most.le⟩
    have shifted := shiftToTargetExponent_eq .exact 0 normal.log2
      (by simpa using least)
    refine ⟨_, _, shifted, ?_, ?_⟩
    · simpa [shiftRight_mantissa, ofMantissaAndAccuracy_mantissa]
        using normal
    · simp [shiftRight_mantissa, ofMantissaAndAccuracy_mantissa]
  · have log : (2 ^ 53).log2 = 52 + 1 := Nat.log2_two_pow
    have shifted := shiftToTargetExponent_eq .exact 1 log
      (show -1074 ≤ place + (1 : ℕ) by omega)
    refine ⟨_, _, shifted, ?_, ?_⟩
    · simp only [shiftRight_mantissa, ofMantissaAndAccuracy_mantissa]
      exact ⟨by norm_num, by norm_num, by push_cast; omega,
        by push_cast; omega⟩
    · simp only [shiftRight_mantissa, ofMantissaAndAccuracy_mantissa]
      rw [Nat.cast_one, zpow_add_one₀ two_ne_zero]
      norm_num
      ring

/-- Rounding to nearest is off by at most half of the last place. -/
theorem round_near (long : 52 ≤ mantissa.log2)
    (describes : Describes (.ofMantissaAndAccuracy mantissa accuracy) value)
    (tame : Tame (value * 2 ^ exponent)) :
    Near (roundWithAccuracy Format.binary64 .positive mantissa exponent
      accuracy) (value * 2 ^ exponent) := by
  obtain ⟨extra, log⟩ := Nat.exists_eq_add_of_le long
  have positive : mantissa ≠ 0 := by
    intro none
    simp [none] at long
  obtain ⟨below, above⟩ := describes.bounds
  rw [ofMantissaAndAccuracy_mantissa] at below above
  obtain ⟨least, most⟩ := tame.bounds positive below above
  rw [log] at least most
  push_cast at least most
  have described := describes.shiftRight extra
  obtain ⟨lower, upper⟩ := described.bounds
  have near := described.rounded
  unfold roundWithAccuracy
  rw [shiftToTargetExponent_eq accuracy extra log (by omega)]
  have kept : 2 ^ 52 ≤ mantissa / 2 ^ extra ∧
      mantissa / 2 ^ extra < 2 ^ 53 := by
    constructor
    · rw [Nat.le_div_iff_mul_le (by positivity), ← pow_add, ← log]
      exact Nat.log2_self_le positive
    · rw [Nat.div_lt_iff_lt_mul (by positivity), ← pow_add,
        show 53 + extra = mantissa.log2 + 1 by omega]
      exact Nat.lt_log2_self
  rw [shiftRight_mantissa, ofMantissaAndAccuracy_mantissa] at lower upper
  generalize ExtendedMantissa.ofMantissaAndAccuracy mantissa accuracy >>>
    extra = extended at near ⊢
  have low : (2 ^ 52 : ℚ) ≤ value / 2 ^ extra :=
    le_trans (by exact_mod_cast kept.1) lower
  have high : value / 2 ^ extra < 2 ^ 53 :=
    lt_of_lt_of_le upper (by exact_mod_cast kept.2)
  obtain ⟨down, up⟩ := abs_le.mp near
  have full : (2 ^ 52 : ℚ) < extended.roundedMantissa + 1 := by linarith
  have fits : (extended.roundedMantissa : ℚ) < 2 ^ 53 + 1 := by linarith
  obtain ⟨final, power, shifted, normal, same⟩ :=
    shift_rounded (Nat.le_of_lt_succ (by exact_mod_cast full))
      (Nat.le_of_lt_succ (by exact_mod_cast fits))
      (show -1074 ≤ exponent + extra by omega) (by omega)
  refine ⟨extended.roundedMantissa * 2 ^ (exponent + extra), ?_, ?_⟩
  · simp only [shifted]
    have nonzero : final.mantissa ≠ 0 := by
      have := normal.full
      omega
    rw [dif_neg nonzero, same]
    exact .finite _ normal
  · have unit : (0 : ℚ) < 2 ^ (exponent + extra) := by positivity
    have split : value * 2 ^ exponent =
        value / 2 ^ extra * 2 ^ (exponent + extra) := by
      rw [zpow_add₀ two_ne_zero, zpow_natCast]
      field_simp
    rw [split, ← sub_mul, abs_mul, abs_of_pos unit, mul_div_right_comm]
    gcongr
    refine near.trans ?_
    rw [le_div_iff₀ (by norm_num)]
    linarith

theorem log2_scaled (positive : mantissa ≠ 0)
    (count : ℕ) : (mantissa <<< count).log2 = mantissa.log2 + count := by
  rw [Nat.shiftLeft_eq, Nat.log2_eq_iff (by positivity), pow_add]
  constructor
  · gcongr
    exact Nat.log2_self_le positive
  · rw [add_right_comm, pow_add _ _ count]
    gcongr
    exact Nat.lt_log2_self

/-- Lowering the exponent keeps the value and fills the mantissa. -/
theorem decreaseExponent_target (positive : mantissa ≠ 0)
    (tame : Tame (mantissa * 2 ^ exponent)) :
    ∃ longer lowered, decreaseExponent mantissa exponent
        (Format.binary64.targetExponent (totalExponent mantissa exponent)) =
          (longer, lowered) ∧ 52 ≤ longer.log2 ∧
        (longer : ℚ) * 2 ^ lowered = mantissa * 2 ^ exponent ∧
          (mantissa < 2 ^ 53 → Normal longer lowered) := by
  obtain ⟨least, most⟩ := tame.bounds positive le_rfl
    (by linarith only [show (0 : ℚ) < 2 ^ exponent by positivity])
  have target : Format.binary64.targetExponent
      (totalExponent mantissa exponent) =
        exponent + mantissa.log2 - 52 := by
    simp only [Format.targetExponent, totalExponent, Format.mantissaBits,
      Format.minExponent]
    norm_num
    omega
  rw [target]
  refine ⟨_, _, rfl, ?_, ?_, ?_⟩
  · rw [log2_scaled positive]
    omega
  · rw [Nat.shiftLeft_eq, zpow_sub₀ two_ne_zero, zpow_natCast]
    push_cast
    field_simp
  · intro fits
    have short : mantissa.log2 ≤ 52 := by
      have := (Nat.log2_lt positive).mpr fits
      omega
    have log := log2_scaled positive
      (exponent - (exponent + mantissa.log2 - 52)).toNat
    rw [show mantissa.log2 + (exponent - (exponent + mantissa.log2 -
      52)).toNat = 52 by omega] at log
    have nonzero : mantissa <<< (exponent - (exponent + mantissa.log2 -
        52)).toNat ≠ 0 := by
      rw [Nat.shiftLeft_eq]
      positivity
    obtain ⟨full, fits⟩ := (Nat.log2_eq_iff nonzero).mp log
    exact ⟨full, fits, by omega, by omega⟩

/-- A normal number is not rounded. -/
theorem round_normal (normal : Normal mantissa exponent) :
    Holds (roundWithAccuracy Format.binary64 .positive mantissa exponent
      .exact) (mantissa * 2 ^ exponent) := by
  have kept : shiftToTargetExponent Format.binary64 mantissa exponent
      .exact = (⟨mantissa, false, false⟩, exponent) :=
    (shiftToTargetExponent_eq .exact 0 normal.log2
      (by simpa using normal.least)).trans
        (Prod.ext rfl (add_zero exponent))
  have nonzero : mantissa ≠ 0 := by
    have := normal.full
    omega
  simp only [roundWithAccuracy, kept, ExtendedMantissa.roundedMantissa,
    ExtendedMantissa.accuracy, Accuracy.roundToNearestEven]
  rw [dif_neg nonzero]
  exact .finite _ normal

theorem near_round (positive : mantissa ≠ 0)
    (tame : Tame (mantissa * 2 ^ exponent)) :
    Near (UnpackedFloat.round Format.binary64 .positive mantissa exponent)
        (mantissa * 2 ^ exponent) ∧
      (mantissa < 2 ^ 53 → Holds
        (UnpackedFloat.round Format.binary64 .positive mantissa exponent)
          (mantissa * 2 ^ exponent)) := by
  obtain ⟨longer, lowered, decreased, long, same, normal⟩ :=
    decreaseExponent_target positive tame
  simp only [UnpackedFloat.round, decreased]
  rw [← same] at tame ⊢
  constructor
  · exact round_near long rfl tame
  · intro fits
    exact round_normal (normal fits)

theorem near_zero : Near (.zero .positive) 0 :=
  ⟨0, .zero, by norm_num⟩

theorem near_normalize {mantissa : ℤ}
    (same : mantissa * 2 ^ exponent = value)
    (fair : value = 0 ∨ Tame value) :
    Near (UnpackedFloat.normalize Format.binary64 mantissa exponent
        .positive) value ∧
      (mantissa < 2 ^ 53 → Holds (UnpackedFloat.normalize Format.binary64
        mantissa exponent .positive) value) := by
  have unit : (0 : ℚ) < 2 ^ exponent := by positivity
  rcases fair with rfl | tame
  · have none : mantissa = 0 := by
      rcases mul_eq_zero.mp same with none | none
      · exact_mod_cast none
      · exact absurd none unit.ne'
    subst none
    exact ⟨near_zero, fun _ => .zero⟩
  · have positive : 0 < mantissa := by
      have least : (0 : ℚ) < value :=
        lt_of_lt_of_le (by positivity) tame.1
      rw [← same] at least
      exact_mod_cast (pos_iff_pos_of_mul_pos least).mpr unit
    obtain ⟨number, rfl⟩ := Int.eq_ofNat_of_zero_le positive.le
    have above : compare (number : ℤ) 0 = .gt := by
      rw [compare_gt_iff_gt]
      exact positive
    rw [← same] at tame ⊢
    simp only [UnpackedFloat.normalize, above, Int.toNat_natCast]
    have rounded := near_round (by omega) tame
    exact ⟨rounded.1, fun fits => rounded.2 (by exact_mod_cast fits)⟩

theorem Holds.stands {float : UnpackedFloat} (holds : Holds float value) :
    Stands (Float.Model.pack float) value := by
  rw [Stands, holds.unpack_pack]
  exact holds

theorem stands_ofNat (number : ℕ) (fits : number < 2 ^ 53) :
    Stands (Float.Model.ofNat number) number := by
  have same : ((number : ℤ) : ℚ) * 2 ^ (0 : ℤ) = number := by simp
  refine Holds.stands ((near_normalize same ?_).2 (by exact_mod_cast fits))
  rcases Nat.eq_zero_or_pos number with rfl | positive
  · exact .inl (by norm_num)
  · refine .inr ⟨?_, ?_⟩
    · have : (1 : ℚ) ≤ number := by exact_mod_cast positive
      exact le_trans (by norm_num) this
    · have : (number : ℚ) ≤ 2 ^ 53 := by exact_mod_cast fits.le
      exact this.trans (by norm_num)

/-- A float that is off by at most half of its last place. -/
def Rounds (float : Float.Model) (value : ℚ) : Prop :=
  ∃ rounded, Stands float rounded ∧ |rounded - value| ≤ value / 2 ^ 53

theorem Near.rounds {float : UnpackedFloat} (near : Near float value) :
    Rounds (Float.Model.pack float) value := by
  obtain ⟨rounded, holds, off⟩ := near
  exact ⟨rounded, holds.stands, off⟩

theorem decreaseExponent_value {target : ℤ} (lower : target ≤ exponent) :
    ((decreaseExponent mantissa exponent target).1 : ℚ) * 2 ^ target =
      mantissa * 2 ^ exponent := by
  obtain ⟨count, rfl⟩ := Int.le.dest lower
  rw [zpow_add₀ two_ne_zero, zpow_natCast]
  simp [decreaseExponent, Nat.shiftLeft_eq]
  ring

theorem Holds.nonneg {float : UnpackedFloat} (holds : Holds float value) :
    0 ≤ value := by
  cases holds with
  | zero => exact le_rfl
  | finite positive normal => positivity

section

variable {left right : UnpackedFloat} {first second : ℚ}

theorem Holds.near (holds : Holds left first) : Near left first :=
  ⟨first, holds, by
    have := holds.nonneg
    simp
    positivity⟩

theorem Holds.mul (holds : Holds left first) (other : Holds right second)
    (fair : first * second = 0 ∨ Tame (first * second)) :
    Near (UnpackedFloat.mul Format.binary64 left right)
      (first * second) := by
  cases holds with
  | zero =>
      rw [zero_mul]
      cases other <;> exact near_zero
  | @finite mantissa exponent positive normal =>
      cases other with
      | zero =>
          rw [mul_zero]
          exact near_zero
      | @finite mantissa' exponent' positive' normal' =>
          have same : ((mantissa * mantissa' : ℕ) : ℚ) *
              2 ^ (exponent + exponent') =
                mantissa * 2 ^ exponent * (mantissa' * 2 ^ exponent') := by
            rw [zpow_add₀ two_ne_zero]
            push_cast
            ring
          rw [← same] at fair ⊢
          have tame := fair.resolve_left (by positivity)
          have long : 52 ≤ (mantissa * mantissa').log2 := by
            rw [Nat.le_log2 (by positivity)]
            exact normal.full.trans (Nat.le_mul_of_pos_right _ positive')
          exact round_near long rfl tame

theorem divCore_eq (normal : Normal mantissa exponent)
    (normal' : Normal mantissa' exponent')
    (least : -900 ≤ exponent - exponent') :
    divCore Format.binary64 mantissa exponent mantissa' exponent' =
      (mantissa * 2 ^ 53 / mantissa', exponent - exponent' - 53,
        accuracyOfFraction (mantissa * 2 ^ 53 % mantissa') mantissa') := by
  have target : min (exponent - exponent')
      (Format.binary64.targetExponent (totalExponent mantissa exponent -
        totalExponent mantissa' exponent')) = exponent - exponent' - 53 := by
    simp only [Format.targetExponent, totalExponent, Format.mantissaBits,
      Format.minExponent, normal.log2, normal'.log2]
    norm_num
    omega
  have count : (exponent - exponent' - (exponent - exponent' - 53)).toNat =
      53 := by
    omega
  simp only [divCore, target, count, Nat.shiftLeft_eq]

theorem Holds.div (holds : Holds left first) (other : Holds right second)
    (divides : 0 < second)
    (fair : first / second = 0 ∨ Tame (first / second)) :
    Near (UnpackedFloat.div Format.binary64 left right)
      (first / second) := by
  cases other with
  | zero => exact absurd divides (lt_irrefl 0)
  | @finite mantissa' exponent' positive' normal' =>
      cases holds with
      | zero =>
          rw [zero_div]
          exact near_zero
      | @finite mantissa exponent positive normal =>
          have tame := fair.resolve_left (by positivity)
          have same : (mantissa : ℚ) * 2 ^ exponent /
              (mantissa' * 2 ^ exponent') =
                mantissa * 2 ^ 53 / mantissa' *
                  2 ^ (exponent - exponent' - 53) := by
            rw [zpow_sub₀ two_ne_zero, zpow_sub₀ two_ne_zero]
            field_simp
          have apart : -201 ≤ exponent - exponent' := by
            have size : (mantissa : ℚ) * 2 ^ exponent /
                (mantissa' * 2 ^ exponent') ≤
                  2 ^ (exponent - exponent' + 1) := by
              have twice : (mantissa : ℚ) ≤ 2 * mantissa' := by
                have full := normal'.full
                have fits := normal.fits
                exact_mod_cast (show mantissa ≤ 2 * mantissa' by omega)
              rw [div_le_iff₀ (by positivity), zpow_add_one₀ two_ne_zero,
                zpow_sub₀ two_ne_zero]
              calc (mantissa : ℚ) * 2 ^ exponent
                  ≤ 2 * mantissa' * 2 ^ exponent := by gcongr
                _ = _ := by field_simp
            have := (zpow_le_zpow_iff_right₀ one_lt_two).mp
              (tame.1.trans size)
            omega
          rw [same] at tame ⊢
          have long : 52 ≤ (mantissa * 2 ^ 53 / mantissa').log2 := by
            have full := normal.full
            have fits := normal'.fits
            have least : 2 ^ 52 ≤ mantissa * 2 ^ 53 / mantissa' := by
              rw [Nat.le_div_iff_mul_le positive']
              omega
            exact (Nat.le_log2 (by omega)).mpr least
          simp only [UnpackedFloat.div,
            divCore_eq normal normal' (by omega)]
          have described := describes_fraction (mantissa * 2 ^ 53) positive'
          push_cast at described
          exact round_near long described tame

theorem Holds.add (holds : Holds left first) (other : Holds right second)
    (fair : first + second = 0 ∨ Tame (first + second)) :
    Near (UnpackedFloat.add Format.binary64 left right)
      (first + second) := by
  cases holds with
  | zero =>
      rw [zero_add]
      cases other with
      | zero => exact near_zero
      | finite positive' normal' => exact (Holds.finite _ normal').near
  | @finite mantissa exponent positive normal =>
      cases other with
      | zero =>
          rw [add_zero]
          exact (Holds.finite _ normal).near
      | @finite mantissa' exponent' positive' normal' =>
          have same : (((decreaseExponent mantissa exponent
              (min exponent exponent')).1 +
                (decreaseExponent mantissa' exponent'
                  (min exponent exponent')).1 : ℤ) : ℚ) *
                    2 ^ min exponent exponent' =
              mantissa * 2 ^ exponent + mantissa' * 2 ^ exponent' := by
            push_cast
            rw [add_mul, decreaseExponent_value (min_le_left _ _),
              decreaseExponent_value (min_le_right _ _)]
          exact (near_normalize same fair).1

theorem Holds.sub (holds : Holds left first) (other : Holds right second)
    (fair : first - second = 0 ∨ Tame (first - second)) :
    Near (UnpackedFloat.sub Format.binary64 left right)
      (first - second) := by
  cases other with
  | zero =>
      rw [sub_zero]
      cases holds with
      | zero => exact near_zero
      | finite positive' normal' => exact (Holds.finite _ normal').near
  | @finite mantissa' exponent' positive' normal' =>
      cases holds with
      | zero =>
          have least : (0 : ℚ) < mantissa' * 2 ^ exponent' := by positivity
          rw [zero_sub] at fair
          rcases fair with none | tame
          · linarith only [least, none]
          · have bound := tame.1
            have : (0 : ℚ) < 2 ^ (-200 : ℤ) := by positivity
            linarith only [least, bound, this]
      | @finite mantissa exponent positive normal =>
          have same : (((decreaseExponent mantissa exponent
              (min exponent exponent')).1 -
                (decreaseExponent mantissa' exponent'
                  (min exponent exponent')).1 : ℤ) : ℚ) *
                    2 ^ min exponent exponent' =
              mantissa * 2 ^ exponent - mantissa' * 2 ^ exponent' := by
            push_cast
            rw [sub_mul, decreaseExponent_value (min_le_left _ _),
              decreaseExponent_value (min_le_right _ _)]
          exact (near_normalize same fair).1

end

variable {left right : Float.Model} {first second : ℚ}

theorem Stands.mul (stands : Stands left first)
    (other : Stands right second)
    (fair : first * second = 0 ∨ Tame (first * second)) :
    Rounds (left * right) (first * second) :=
  (Holds.mul stands other fair).rounds

theorem Stands.div (stands : Stands left first)
    (other : Stands right second) (divides : 0 < second)
    (fair : first / second = 0 ∨ Tame (first / second)) :
    Rounds (left / right) (first / second) :=
  (Holds.div stands other divides fair).rounds

theorem Stands.add (stands : Stands left first)
    (other : Stands right second)
    (fair : first + second = 0 ∨ Tame (first + second)) :
    Rounds (left + right) (first + second) :=
  (Holds.add stands other fair).rounds

theorem Stands.sub (stands : Stands left first)
    (other : Stands right second)
    (fair : first - second = 0 ∨ Tame (first - second)) :
    Rounds (left - right) (first - second) :=
  (Holds.sub stands other fair).rounds

theorem zpow_lt_of_lt (normal : Normal mantissa exponent)
    (normal' : Normal mantissa' exponent') (lower : exponent < exponent') :
    (mantissa : ℚ) * 2 ^ exponent < mantissa' * 2 ^ exponent' := by
  have next : (2 : ℚ) * 2 ^ exponent ≤ 2 ^ exponent' := by
    rw [mul_comm, ← zpow_add_one₀ two_ne_zero]
    exact zpow_le_zpow_right₀ one_le_two lower
  have fits : (mantissa : ℚ) < 2 ^ 53 := by exact_mod_cast normal.fits
  have full : (2 : ℚ) ^ 52 ≤ mantissa' := by exact_mod_cast normal'.full
  calc (mantissa : ℚ) * 2 ^ exponent < 2 ^ 53 * 2 ^ exponent := by gcongr
    _ = 2 ^ 52 * (2 * 2 ^ exponent) := by ring
    _ ≤ mantissa' * 2 ^ exponent' := by gcongr

/-- Floats are compared as the numbers they stand for. -/
theorem Stands.lt_iff (stands : Stands left first)
    (other : Stands right second) :
    left.lt right = true ↔ first < second := by
  have compared {left right : UnpackedFloat} (holds : Holds left first)
      (other : Holds right second) :
      left.lt right = true ↔ first < second := by
    cases holds with
    | zero =>
        cases other with
        | zero => simp [UnpackedFloat.lt, UnpackedFloat.compare]
        | finite positive normal =>
            exact iff_of_true rfl (by positivity)
    | @finite mantissa exponent positive normal =>
        cases other with
        | zero =>
            refine iff_of_false ?_ ?_
            · simp [UnpackedFloat.lt, UnpackedFloat.compare]
            · rw [not_lt]
              positivity
        | @finite mantissa' exponent' positive' normal' =>
            have ordered : (UnpackedFloat.finite .positive mantissa exponent
                positive).lt (.finite .positive mantissa' exponent'
                  positive') = true ↔
                (compare exponent exponent').then
                  (compare mantissa mantissa') = .lt := by
              simp [UnpackedFloat.lt, UnpackedFloat.compare]
            rw [ordered]
            rcases lt_trichotomy exponent exponent' with less | rfl | more
            · rw [compare_lt_iff_lt.mpr less]
              exact iff_of_true rfl (zpow_lt_of_lt normal normal' less)
            · have unit : (0 : ℚ) < 2 ^ exponent := by positivity
              rw [compare_eq_iff_eq.mpr rfl]
              simp [unit, compare_lt_iff_lt]
            · rw [compare_gt_iff_gt.mpr more]
              exact iff_of_false (by simp)
                (zpow_lt_of_lt normal' normal more).not_gt
  exact compared stands other

theorem roundToInt_eq (mantissa : ℕ) (exponent : ℤ) :
    roundToInt .positive mantissa exponent =
      (⌊(mantissa : ℚ) * 2 ^ exponent⌋₊ : ℤ) := by
  have shifted : roundToInt .positive mantissa exponent =
      ((mantissa <<< exponent.toNat / 2 ^ (-exponent).toNat : ℕ) : ℤ) := by
    have count : (0 - (exponent - (exponent - 0).toNat)).toNat =
        (-exponent).toNat := by
      omega
    simp only [roundToInt, decreaseExponent, shiftToExponent, count,
      shiftRight_mantissa, ofMantissaAndAccuracy_mantissa, Sign.apply]
    simp
  rw [shifted, Nat.shiftLeft_eq]
  congr 1
  obtain ⟨count, rfl | rfl⟩ := exponent.eq_nat_or_neg
  · have whole : (mantissa : ℚ) * 2 ^ (count : ℤ) =
        ((mantissa * 2 ^ count : ℕ) : ℚ) := by
      push_cast
      rw [zpow_natCast]
    rw [whole, Nat.floor_natCast]
    simp
  · have split : (mantissa : ℚ) * 2 ^ (-count : ℤ) =
        (mantissa : ℚ) / (2 ^ count : ℕ) := by
      rw [zpow_neg, zpow_natCast]
      push_cast
      rfl
    rw [split, Nat.floor_div_eq_div]
    simp

/-- Conversion to an unsigned word takes the floor. -/
theorem Stands.toUInt64 (stands : Stands left first)
    (fits : first < 2 ^ 53) : left.toUInt64.toNat = ⌊first⌋₊ := by
  have floored {float : UnpackedFloat} (holds : Holds float first) :
      float.toInt 0 (UInt64.size - 1) = (⌊first⌋₊ : ℤ) := by
    cases holds with
    | zero => simp [UnpackedFloat.toInt]
    | finite positive normal => exact roundToInt_eq _ _
  have small : ⌊first⌋₊ < 2 ^ 53 :=
    (Nat.floor_lt (Holds.nonneg stands)).mpr (by exact_mod_cast fits)
  show (UInt64.ofNatClamp (left.unpack.toInt 0 _).toNat).toNat = _
  rw [floored stands, Int.toNat_natCast, UInt64.ofNatClamp_eq_ofNat _
    (small.trans (by decide)), UInt64.toNat_ofNat_of_lt']
  exact small.trans (by decide)

/-- What the floor leaves is zero or far from the subnormal numbers. -/
theorem Stands.fract (stands : Stands left first) :
    first = ⌊first⌋₊ ∨ first / 2 ^ 53 ≤ first - ⌊first⌋₊ := by
  have split {float : UnpackedFloat} (holds : Holds float first) :
      first = ⌊first⌋₊ ∨ first / 2 ^ 53 ≤ first - ⌊first⌋₊ := by
    cases holds with
    | zero => simp
    | @finite mantissa exponent positive normal =>
        obtain ⟨count, rfl | rfl⟩ := exponent.eq_nat_or_neg
        · left
          rw [zpow_natCast]
          exact_mod_cast (Nat.floor_natCast (R := ℚ)
            (mantissa * 2 ^ count)).symm
        · have unit : (0 : ℚ) < 2 ^ count := by positivity
          have whole : (mantissa : ℚ) * 2 ^ (-count : ℤ) =
              mantissa / (2 ^ count : ℕ) := by
            rw [zpow_neg, zpow_natCast, Nat.cast_pow]
            rfl
          have rest : (mantissa : ℚ) = 2 ^ count *
              (mantissa / 2 ^ count : ℕ) + (mantissa % 2 ^ count : ℕ) := by
            exact_mod_cast (Nat.div_add_mod mantissa (2 ^ count)).symm
          rw [whole, Nat.floor_div_eq_div, Nat.cast_pow, Nat.cast_two,
            div_eq_iff unit.ne', div_div, div_le_iff₀ (by positivity)]
          rcases (mantissa % 2 ^ count).eq_zero_or_pos with none | some
          · left
            rw [none] at rest
            linarith only [rest]
          · right
            have fits : (mantissa : ℚ) ≤ 2 ^ 53 := by
              exact_mod_cast normal.fits.le
            have least : (1 : ℚ) ≤ (mantissa % 2 ^ count : ℕ) := by
              exact_mod_cast some
            have left : ((mantissa : ℚ) / 2 ^ count -
                (mantissa / 2 ^ count : ℕ)) * (2 ^ count * 2 ^ 53) =
                  (mantissa % 2 ^ count : ℕ) * 2 ^ 53 := by
              rw [← mul_assoc, sub_mul, div_mul_cancel₀ _ unit.ne']
              linarith only [rest]
            rw [left]
            linarith only [fits, least]
  exact split stands

end Tgdcfs.Lib.Binary64
