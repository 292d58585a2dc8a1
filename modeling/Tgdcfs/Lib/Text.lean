import Mathlib.Algebra.GroupWithZero.Nat
import Mathlib.Data.List.Basic
import Mathlib.Data.List.TakeWhile

/-!
# Splitting text and reading numbers

`splitLast` is the split at the last separator, and `parseInt` the decimal
integers as Python reads them.
-/

namespace Tgdcfs.Lib

/-- The text before and behind the last separator. -/
def splitLast (separator : Char) :
    List Char → Option (List Char × List Char)
  | [] => none
  | first :: rest =>
      match splitLast separator rest with
      | some (before, behind) => some (first :: before, behind)
      | none => if first = separator then some ([], rest) else none

section SplitLast

variable {separator : Char} {text before behind : List Char}

theorem splitLast_eq_none (absent : separator ∉ text) :
    splitLast separator text = none := by
  induction text with
  | nil => rfl
  | cons first rest ih =>
      rw [splitLast, ih fun later => absent (List.mem_cons_of_mem _ later)]
      refine if_neg ?_
      rintro rfl
      exact absent List.mem_cons_self

theorem absent_of_splitLast : ∀ {text : List Char},
    splitLast separator text = none → separator ∉ text
  | [], _ => List.not_mem_nil
  | first :: rest, splits => by
      rw [splitLast] at splits
      cases later : splitLast separator rest with
      | some pair =>
          rw [later] at splits
          cases splits
      | none =>
          rw [later] at splits
          intro present
          rcases List.mem_cons.mp present with same | behind
          · rw [if_pos same.symm] at splits
            cases splits
          · exact absent_of_splitLast later behind

theorem splitLast_append (absent : separator ∉ behind) :
    splitLast separator (before ++ separator :: behind) =
      some (before, behind) := by
  induction before with
  | nil =>
      rw [List.nil_append, splitLast, splitLast_eq_none absent]
      exact if_pos rfl
  | cons first rest ih => rw [List.cons_append, splitLast, ih]

theorem splitLast_spec : ∀ {text before behind : List Char},
    splitLast separator text = some (before, behind) →
      text = before ++ separator :: behind ∧ separator ∉ behind
  | [], _, _, splits => by cases splits
  | first :: rest, before, behind, splits => by
      rw [splitLast] at splits
      cases later : splitLast separator rest with
      | some pair =>
          rw [later] at splits
          obtain ⟨start, finish⟩ := pair
          cases splits
          obtain ⟨parts, absent⟩ := splitLast_spec later
          exact ⟨congrArg (List.cons first) parts, absent⟩
      | none =>
          rw [later] at splits
          dsimp only at splits
          split at splits
          · rename_i same
            cases splits
            exact ⟨congrArg (List.cons · rest) same,
              absent_of_splitLast later⟩
          · cases splits

end SplitLast

/-- `str.isspace` of a character. -/
def isSpace (character : Char) : Bool :=
  let code := character.toNat
  (0x9 ≤ code && code ≤ 0xD) || (0x1C ≤ code && code ≤ 0x20) ||
    (0x2000 ≤ code && code ≤ 0x200A) ||
    [0x85, 0xA0, 0x1680, 0x2028, 0x2029, 0x202F, 0x205F, 0x3000].contains code

/-- The decimal digits of Unicode come in runs of ten from these. -/
def decimalZeros : List Nat :=
  [0x30, 0x660, 0x6F0, 0x7C0, 0x966, 0x9E6, 0xA66, 0xAE6, 0xB66, 0xBE6, 0xC66,
    0xCE6, 0xD66, 0xDE6, 0xE50, 0xED0, 0xF20, 0x1040, 0x1090, 0x17E0, 0x1810,
    0x1946, 0x19D0, 0x1A80, 0x1A90, 0x1B50, 0x1BB0, 0x1C40, 0x1C50, 0xA620,
    0xA8D0, 0xA900, 0xA9D0, 0xA9F0, 0xAA50, 0xABF0, 0xFF10, 0x104A0, 0x10D30,
    0x11066, 0x110F0, 0x11136, 0x111D0, 0x112F0, 0x11450, 0x114D0, 0x11650,
    0x116C0, 0x11730, 0x118E0, 0x11950, 0x11C50, 0x11D50, 0x11DA0, 0x11F50,
    0x16A60, 0x16AC0, 0x16B50, 0x1D7CE, 0x1D7D8, 0x1D7E2, 0x1D7EC, 0x1D7F6,
    0x1E140, 0x1E2F0, 0x1E4F0, 0x1E950, 0x1FBF0]

def digitValue (character : Char) : Option Nat :=
  (decimalZeros.find? fun start =>
    start ≤ character.toNat && character.toNat < start + 10).map
      fun start => character.toNat - start

/-- Digits with single underscores between them; `value` is what was read
before. -/
def parseDigits (value : Nat) : List Char → Option Nat
  | [] => some value
  | ['_'] => none
  | '_' :: next :: rest =>
      (digitValue next).bind fun digit => parseDigits (10 * value + digit) rest
  | next :: rest =>
      (digitValue next).bind fun digit => parseDigits (10 * value + digit) rest

/-- Longer numbers are refused. -/
def maxDigits : Nat := 4300

def parseNat : List Char → Option Nat
  | [] => none
  | first :: rest =>
      if maxDigits < (first :: rest).countP (· ≠ '_') then none
      else (digitValue first).bind fun digit => parseDigits digit rest

/-- `int` of a string; `none` stands for the `ValueError`. -/
def parseInt (text : List Char) : Option Int :=
  let stripped := ((text.dropWhile isSpace).reverse.dropWhile isSpace).reverse
  match stripped with
  | '-' :: digits => (parseNat digits).map fun value => -(value : Int)
  | '+' :: digits => (parseNat digits).map fun value => (value : Int)
  | digits => (parseNat digits).map fun value => (value : Int)

/-- One ASCII digit or more. -/
structure Decimal where
  text : List Char
  nonempty : text ≠ []
  digits : ∀ character ∈ text, character.isDigit = true

namespace Decimal

def valueFrom (value : Nat) (text : List Char) : Nat :=
  text.foldl (fun value character => 10 * value + (character.toNat - 0x30))
    value

def value (decimal : Decimal) : Nat := valueFrom 0 decimal.text

end Decimal

variable {character : Char}

theorem isDigit_bounds (digit : character.isDigit = true) :
    0x30 ≤ character.toNat ∧ character.toNat ≤ 0x39 := by
  simp only [Char.isDigit, Bool.and_eq_true, decide_eq_true_eq] at digit
  exact ⟨UInt32.le_iff_toNat_le.mp digit.1, UInt32.le_iff_toNat_le.mp digit.2⟩

theorem digitValue_of_isDigit (digit : character.isDigit = true) :
    digitValue character = some (character.toNat - 0x30) := by
  have bounds := isDigit_bounds digit
  have first : (decide (0x30 ≤ character.toNat) &&
      decide (character.toNat < 0x30 + 10)) = true := by
    simp only [Bool.and_eq_true, decide_eq_true_eq]
    omega
  have zeros : ∃ rest, decimalZeros = 0x30 :: rest := ⟨_, rfl⟩
  obtain ⟨rest, shape⟩ := zeros
  rw [digitValue, shape, List.find?_cons, first]
  rfl

theorem isDigit_ne_underscore (digit : character.isDigit = true) :
    character ≠ '_' := by
  rintro rfl
  cases digit

theorem isDigit_not_space (digit : character.isDigit = true) :
    isSpace character = false := by
  have bounds := isDigit_bounds digit
  simp only [isSpace, Bool.or_eq_false_iff, Bool.and_eq_false_iff,
    decide_eq_false_iff_not, List.contains_eq_mem, List.mem_cons,
    List.not_mem_nil, or_false, not_or]
  omega

theorem parseDigits_digits {text : List Char}
    (digits : ∀ character ∈ text, character.isDigit = true) (value : Nat) :
    parseDigits value text = some (Decimal.valueFrom value text) := by
  induction text generalizing value with
  | nil => rfl
  | cons character text induction =>
      have digit := digits character List.mem_cons_self
      have other := isDigit_ne_underscore digit
      have rest := induction fun later member =>
        digits later (List.mem_cons_of_mem _ member)
      unfold parseDigits
      split
      · rename_i same
        cases same
      · rename_i same
        cases same
        exact (other rfl).elim
      · rename_i same
        cases same
        exact (other rfl).elim
      · rename_i same
        cases same
        rw [digitValue_of_isDigit digit, Option.bind_some, rest]
        rfl

/-- `int` reads a run of digits, unless there are too many of them. -/
theorem parseInt_decimal (decimal : Decimal) :
    parseInt decimal.text =
      if maxDigits < decimal.text.length then none
      else some (decimal.value : Int) := by
  obtain ⟨text, nonempty, digits⟩ := decimal
  have stripped : ((text.dropWhile isSpace).reverse.dropWhile
      isSpace).reverse = text := by
    have front : text.dropWhile isSpace = text :=
      List.dropWhile_eq_self_iff.mpr fun _ =>
        Bool.eq_false_iff.mp (isDigit_not_space
          (digits _ (List.getElem_mem _)))
    have back : text.reverse.dropWhile isSpace = text.reverse :=
      List.dropWhile_eq_self_iff.mpr fun _ =>
        Bool.eq_false_iff.mp (isDigit_not_space
          (digits _ (List.mem_reverse.mp (List.getElem_mem _))))
    rw [front, back, List.reverse_reverse]
  cases text with
  | nil => exact (nonempty rfl).elim
  | cons first rest =>
      have digit := digits first List.mem_cons_self
      have count : (first :: rest).countP (· ≠ '_') =
          (first :: rest).length := by
        rw [List.countP_eq_length]
        intro character member
        exact decide_eq_true
          (isDigit_ne_underscore (digits character member))
      have value := parseDigits_digits (fun character member =>
        digits character (List.mem_cons_of_mem _ member))
        (first.toNat - 0x30)
      have number : parseNat (first :: rest) =
          if maxDigits < (first :: rest).length then none
          else some (Decimal.valueFrom 0 (first :: rest)) := by
        rw [parseNat, count, digitValue_of_isDigit digit, Option.bind_some,
          value]
        simp only [Decimal.valueFrom, List.foldl_cons, Nat.mul_zero,
          Nat.zero_add]
      unfold parseInt
      rw [stripped]
      dsimp only
      split
      · rename_i same
        cases same
        cases digit
      · rename_i same
        cases same
        cases digit
      · rw [number]
        split
        · rfl
        · rfl

/-- The digits of a number. -/
def Decimal.ofNat (value : Nat) : Decimal where
  text := Nat.toDigits 10 value
  nonempty := Nat.toDigits_ne_nil
  digits := fun _ member =>
    Nat.isDigit_of_mem_toDigits (by omega) (by omega) member

theorem Decimal.value_ofNat (value : Nat) :
    (Decimal.ofNat value).value = value :=
  Nat.ofDigitChars_ten_toDigits

theorem toList_toString (value : Nat) :
    (toString (value : Int)).toList = (Decimal.ofNat value).text :=
  Nat.toList_repr

theorem parseInt_toString {value : Nat} (short : value < 10 ^ maxDigits) :
    parseInt (toString (value : Int)).toList = some (value : Int) := by
  have few : (Decimal.ofNat value).text.length ≤ maxDigits :=
    (Nat.length_toDigits_le_iff (by omega) (by decide)).mpr short
  rw [toList_toString, parseInt_decimal, if_neg (Nat.not_lt.mpr few),
    Decimal.value_ofNat]

end Tgdcfs.Lib
