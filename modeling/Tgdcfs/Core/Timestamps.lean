/-!
# Timestamps in floating point

A descriptor stores dates as whole milliseconds, and `ts` and
`datetime.fromtimestamp` convert them through a `float` of seconds.  Both are
followed here operation by operation in double precision, for dates from the
epoch on.  The offset of the local time zone is added by one conversion and
taken off by the other, so it is left out.
-/

namespace Tgdcfs

/-- A naive `datetime` from the epoch on, by its microseconds. -/
structure LocalTime where
  micros : Nat
  deriving DecidableEq, Repr

def LocalTime.ofMillis (millis : Nat) : LocalTime := ⟨millis * 1000⟩

/-- `int` of a float that is not negative and below `2 ^ 64`. -/
def truncate (value : Float.Model) : Nat := value.toUInt64.toNat

/-- Rounding to an integer; a half goes to the even neighbour. -/
def roundHalfEven (value : Float.Model) : Nat :=
  let whole := truncate value
  let rest := value - .ofNat whole
  let half : Float.Model := .ofNat 1 / .ofNat 2
  if rest.lt half then whole
  else if half.lt rest then whole + 1
  else whole + whole % 2

/-- `datetime.timestamp`: the seconds and the microseconds are added as
floats. -/
def LocalTime.timestamp (date : LocalTime) : Float.Model :=
  .ofNat (date.micros / 1000000) +
    .ofNat (date.micros % 1000000) / .ofNat 1000000

/-- `ts`. -/
def ts (date : LocalTime) : Nat := truncate (date.timestamp * .ofNat 1000)

/-- `datetime.fromtimestamp`: the fraction of a second is rounded to
microseconds, and a full second is carried over. -/
def fromtimestamp (seconds : Float.Model) : LocalTime :=
  let whole := truncate seconds
  let fraction := (seconds - .ofNat whole) * .ofNat 1000000
  ⟨whole * 1000000 + roundHalfEven fraction⟩

/-- The date that `from_dict` makes of a stored timestamp; `none` stands for
`FIRST_DAY_OF_EPOCH`. -/
def readDate (timestamp : Int) : Option LocalTime :=
  if 0 < timestamp then
    some (fromtimestamp (.ofNat timestamp.toNat / .ofNat 1000))
  else none

/-- Writing and reading gives the date back. -/
def LocalTime.Restored (date : LocalTime) : Prop :=
  readDate (ts date) = some date

instance (date : LocalTime) : Decidable date.Restored :=
  inferInstanceAs (Decidable (_ = _))

example : (LocalTime.ofMillis 1700000000123).Restored := by decide +kernel

example : ts (LocalTime.ofMillis 1001) = 1000 := by decide +kernel

end Tgdcfs
