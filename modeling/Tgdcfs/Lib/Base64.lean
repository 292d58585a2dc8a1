import Mathlib.Data.List.Basic
import Mathlib.Tactic.IntervalCases

/-!
# Base64 with the URL-safe alphabet

Three bytes become four symbols of six bits each, most significant bits
first.  A text is padded to whole groups of four with `=`; the symbols alone
determine the padding, so it can be cut off and put back.
-/

namespace Tgdcfs.Lib.Base64

/-- The symbol of a six-bit value. -/
def symbol (value : Nat) : Char :=
  if value < 26 then Char.ofNat (value + 65)
  else if value < 52 then Char.ofNat (value + 71)
  else if value < 62 then Char.ofNat (value - 4)
  else if value = 62 then '-'
  else '_'

/-- The six-bit value of a symbol. -/
def valueOf (character : Char) : Option Nat :=
  let code := character.toNat
  if 65 ≤ code ∧ code ≤ 90 then some (code - 65)
  else if 97 ≤ code ∧ code ≤ 122 then some (code - 71)
  else if 48 ≤ code ∧ code ≤ 57 then some (code + 4)
  else if character = '-' then some 62
  else if character = '_' then some 63
  else none

theorem valueOf_symbol {value : Nat} (small : value < 64) :
    valueOf (symbol value) = some value := by
  interval_cases value <;> rfl

theorem symbol_ne_padding (value : Nat) : symbol value ≠ '=' := by
  by_cases small : value < 64
  · interval_cases value <;> decide
  · unfold symbol
    rw [if_neg (by omega), if_neg (by omega), if_neg (by omega),
      if_neg (by omega)]
    decide

/-- The symbols of a byte string, without padding. -/
def symbols : List UInt8 → List Char
  | [] => []
  | [first] =>
      [symbol (first.toNat / 4), symbol (first.toNat % 4 * 16)]
  | [first, second] =>
      [symbol (first.toNat / 4),
        symbol (first.toNat % 4 * 16 + second.toNat / 16),
        symbol (second.toNat % 16 * 4)]
  | first :: second :: third :: rest =>
      symbol (first.toNat / 4) ::
        symbol (first.toNat % 4 * 16 + second.toNat / 16) ::
        symbol (second.toNat % 16 * 4 + third.toNat / 64) ::
        symbol (third.toNat % 64) :: symbols rest

/-- Fill the last group of four. -/
def pad (text : List Char) : List Char :=
  text ++ List.replicate ((4 - text.length % 4) % 4) '='

def encode (bytes : List UInt8) : List Char := pad (symbols bytes)

/-- `text.rstrip("=")`. -/
def stripPadding (text : List Char) : List Char :=
  (text.reverse.dropWhile (· = '=')).reverse

/-- A group of two, three or four symbols. -/
def decodeTwo (first second : Nat) : List UInt8 :=
  [UInt8.ofNat (first * 4 + second / 16)]

def decodeThree (first second third : Nat) : List UInt8 :=
  decodeTwo first second ++ [UInt8.ofNat (second % 16 * 16 + third / 4)]

def decodeFour (first second third fourth : Nat) : List UInt8 :=
  decodeThree first second third ++
    [UInt8.ofNat (third % 4 * 64 + fourth)]

/-- The bytes of a padded text; `none` for an incomplete group or a symbol
outside the alphabet. -/
def decode : List Char → Option (List UInt8)
  | [] => some []
  | first :: second :: third :: fourth :: rest => do
      let one ← valueOf first
      let two ← valueOf second
      if fourth = '=' ∧ rest = [] then
        if third = '=' then some (decodeTwo one two)
        else
          let three ← valueOf third
          some (decodeThree one two three)
      else
        let three ← valueOf third
        let four ← valueOf fourth
        let tail ← decode rest
        some (decodeFour one two three four ++ tail)
  | _ => none

theorem padding_not_mem_symbols (bytes : List UInt8) :
    '=' ∉ symbols bytes := by
  induction bytes using symbols.induct with
  | case1 => simp [symbols]
  | case2 first =>
      simp [symbols, (symbol_ne_padding _).symm]
  | case3 first second =>
      simp [symbols, (symbol_ne_padding _).symm]
  | case4 first second third rest induction =>
      simp [symbols, (symbol_ne_padding _).symm, induction]

theorem stripPadding_pad {text : List Char} (bare : '=' ∉ text) :
    stripPadding (pad text) = text := by
  have stops : ∀ (rest : List Char), '=' ∉ rest →
      rest.dropWhile (· = '=') = rest := by
    intro rest absent
    cases rest with
    | nil => rfl
    | cons head rest =>
        have different : ¬head = '=' := by
          rintro rfl
          exact absent (by simp)
        rw [List.dropWhile_cons, if_neg (by simpa using different)]
  have skips : ∀ (count : Nat) (rest : List Char), '=' ∉ rest →
      (List.replicate count '=' ++ rest).dropWhile (· = '=') = rest := by
    intro count rest absent
    induction count with
    | zero => exact stops rest absent
    | succ count induction =>
        rw [List.replicate_succ, List.cons_append, List.dropWhile_cons]
        simpa using induction
  unfold stripPadding pad
  rw [List.reverse_append, List.reverse_replicate,
    skips _ _ (by simpa using bare), List.reverse_reverse]

theorem pad_cons_four (first second third fourth : Char)
    (text : List Char) :
    pad (first :: second :: third :: fourth :: text) =
      first :: second :: third :: fourth :: pad text := by
  have length : (first :: second :: third :: fourth :: text).length % 4 =
      text.length % 4 := by
    simp only [List.length_cons]
    omega
  simp only [pad, length, List.cons_append]

theorem decodeTwo_symbols (first : UInt8) (rest : Nat) (small : rest < 16) :
    decodeTwo (first.toNat / 4) (first.toNat % 4 * 16 + rest) = [first] := by
  have bound := first.toNat_lt
  have value : first.toNat / 4 * 4 + (first.toNat % 4 * 16 + rest) / 16 =
      first.toNat := by omega
  rw [decodeTwo, value, UInt8.ofNat_toNat]

theorem decodeThree_symbols (first second : UInt8) (rest : Nat)
    (small : rest < 4) :
    decodeThree (first.toNat / 4)
        (first.toNat % 4 * 16 + second.toNat / 16)
        (second.toNat % 16 * 4 + rest) = [first, second] := by
  have bound := second.toNat_lt
  have value : (first.toNat % 4 * 16 + second.toNat / 16) % 16 * 16 +
      (second.toNat % 16 * 4 + rest) / 4 = second.toNat := by omega
  rw [decodeThree, decodeTwo_symbols first _ (by omega), value,
    UInt8.ofNat_toNat]
  rfl

theorem decodeFour_symbols (first second third : UInt8) :
    decodeFour (first.toNat / 4)
        (first.toNat % 4 * 16 + second.toNat / 16)
        (second.toNat % 16 * 4 + third.toNat / 64) (third.toNat % 64) =
      [first, second, third] := by
  have bound := third.toNat_lt
  have value : (second.toNat % 16 * 4 + third.toNat / 64) % 4 * 64 +
      third.toNat % 64 = third.toNat := by omega
  rw [decodeFour, decodeThree_symbols first second _ (by omega), value,
    UInt8.ofNat_toNat]
  rfl

theorem decode_encode (bytes : List UInt8) :
    decode (encode bytes) = some bytes := by
  unfold encode
  induction bytes using symbols.induct with
  | case1 => rfl
  | case2 first =>
      have bound := first.toNat_lt
      have one := valueOf_symbol (show first.toNat / 4 < 64 by omega)
      have two := valueOf_symbol (show first.toNat % 4 * 16 < 64 by omega)
      have padded : pad (symbols [first]) =
          [symbol (first.toNat / 4), symbol (first.toNat % 4 * 16), '=',
            '='] := rfl
      rw [padded]
      simp only [decode, one, two, Option.bind_eq_bind, Option.bind_some,
        and_self, if_true]
      exact congrArg some (decodeTwo_symbols first 0 (by decide))
  | case3 first second =>
      have bound := first.toNat_lt
      have boundSecond := second.toNat_lt
      have one := valueOf_symbol (show first.toNat / 4 < 64 by omega)
      have two := valueOf_symbol
        (show first.toNat % 4 * 16 + second.toNat / 16 < 64 by omega)
      have three := valueOf_symbol
        (show second.toNat % 16 * 4 < 64 by omega)
      have padded : pad (symbols [first, second]) =
          [symbol (first.toNat / 4),
            symbol (first.toNat % 4 * 16 + second.toNat / 16),
            symbol (second.toNat % 16 * 4), '='] := rfl
      rw [padded]
      simp only [decode, one, two, three, Option.bind_eq_bind,
        Option.bind_some, and_self, if_true,
        if_neg (symbol_ne_padding (second.toNat % 16 * 4))]
      exact congrArg some (decodeThree_symbols first second 0 (by decide))
  | case4 first second third rest induction =>
      have bound := first.toNat_lt
      have boundSecond := second.toNat_lt
      have boundThird := third.toNat_lt
      have one := valueOf_symbol (show first.toNat / 4 < 64 by omega)
      have two := valueOf_symbol
        (show first.toNat % 4 * 16 + second.toNat / 16 < 64 by omega)
      have three := valueOf_symbol
        (show second.toNat % 16 * 4 + third.toNat / 64 < 64 by omega)
      have four := valueOf_symbol (show third.toNat % 64 < 64 by omega)
      have notLast : ¬(symbol (third.toNat % 64) = '=' ∧
          pad (symbols rest) = []) :=
        fun both => symbol_ne_padding _ both.1
      rw [symbols, pad_cons_four]
      simp only [decode, one, two, three, four, induction,
        Option.bind_eq_bind, Option.bind_some, if_neg notLast]
      rw [decodeFour_symbols]
      rfl

/-- The symbols of both alphabets. -/
def lenientValueOf (character : Char) : Option Nat :=
  if character = '+' then some 62
  else if character = '/' then some 63
  else valueOf character

/-- From a position in a group, with the bits that are left over there and the
padding seen since the last symbol. -/
def decodeLenientFrom (position leftBits padding : Nat) :
    List Char → Option (List UInt8)
  | [] => if position = 0 then some [] else none
  | character :: rest =>
      if character = '=' then
        if position < 2 then decodeLenientFrom position leftBits padding rest
        else if 4 ≤ position + (padding + 1) then some []
        else decodeLenientFrom position leftBits (padding + 1) rest
      else
        match lenientValueOf character with
        | none => decodeLenientFrom position leftBits padding rest
        | some value =>
            match position with
            | 0 => decodeLenientFrom 1 value 0 rest
            | 1 =>
                (decodeLenientFrom 2 (value % 16) 0 rest).map
                  (UInt8.ofNat (leftBits * 4 + value / 16) :: ·)
            | 2 =>
                (decodeLenientFrom 3 (value % 4) 0 rest).map
                  (UInt8.ofNat (leftBits * 16 + value / 4) :: ·)
            | _ =>
                (decodeLenientFrom 0 0 0 rest).map
                  (UInt8.ofNat (leftBits * 64 + value) :: ·)

def decodeLenient (text : List Char) : Option (List UInt8) :=
  decodeLenientFrom 0 0 0 text

theorem lenientValueOf_symbol {value : Nat} (small : value < 64) :
    lenientValueOf (symbol value) = some value := by
  interval_cases value <;> rfl

section Lenient

variable {value leftBits padding : Nat} {rest : List Char}

theorem decodeLenientFrom_first (small : value < 64) :
    decodeLenientFrom 0 leftBits padding (symbol value :: rest) =
      decodeLenientFrom 1 value 0 rest := by
  simp only [decodeLenientFrom, symbol_ne_padding, if_false,
    lenientValueOf_symbol small]

theorem decodeLenientFrom_second (small : value < 64) :
    decodeLenientFrom 1 leftBits padding (symbol value :: rest) =
      (decodeLenientFrom 2 (value % 16) 0 rest).map
        (UInt8.ofNat (leftBits * 4 + value / 16) :: ·) := by
  simp only [decodeLenientFrom, symbol_ne_padding, if_false,
    lenientValueOf_symbol small]

theorem decodeLenientFrom_third (small : value < 64) :
    decodeLenientFrom 2 leftBits padding (symbol value :: rest) =
      (decodeLenientFrom 3 (value % 4) 0 rest).map
        (UInt8.ofNat (leftBits * 16 + value / 4) :: ·) := by
  simp only [decodeLenientFrom, symbol_ne_padding, if_false,
    lenientValueOf_symbol small]

theorem decodeLenientFrom_fourth (small : value < 64) :
    decodeLenientFrom 3 leftBits padding (symbol value :: rest) =
      (decodeLenientFrom 0 0 0 rest).map
        (UInt8.ofNat (leftBits * 64 + value) :: ·) := by
  simp only [decodeLenientFrom, symbol_ne_padding, if_false,
    lenientValueOf_symbol small]

end Lenient

theorem decodeLenient_encode (bytes : List UInt8) :
    decodeLenient (encode bytes) = some bytes := by
  have firstByte : ∀ (first : UInt8) (low : Nat), low < 16 →
      UInt8.ofNat (first.toNat / 4 * 4 +
        (first.toNat % 4 * 16 + low) / 16) = first := by
    intro first low small
    simpa [decodeTwo] using decodeTwo_symbols first low small
  have secondByte : ∀ (first second : UInt8) (low : Nat), low < 4 →
      UInt8.ofNat ((first.toNat % 4 * 16 + second.toNat / 16) % 16 * 16 +
        (second.toNat % 16 * 4 + low) / 4) = second := by
    intro first second low small
    simpa [decodeThree, decodeTwo]
      using (List.cons.inj (decodeThree_symbols first second low small)).2
  unfold encode decodeLenient
  induction bytes using symbols.induct with
  | case1 => rfl
  | case2 first =>
      have bound := first.toNat_lt
      have padded : pad (symbols [first]) =
          [symbol (first.toNat / 4), symbol (first.toNat % 4 * 16), '=',
            '='] := rfl
      have whole := firstByte first 0 (by decide)
      rw [Nat.add_zero] at whole
      rw [padded, decodeLenientFrom_first (by omega),
        decodeLenientFrom_second (by omega), whole]
      simp [decodeLenientFrom]
  | case3 first second =>
      have bound := first.toNat_lt
      have boundSecond := second.toNat_lt
      have padded : pad (symbols [first, second]) =
          [symbol (first.toNat / 4),
            symbol (first.toNat % 4 * 16 + second.toNat / 16),
            symbol (second.toNat % 16 * 4), '='] := rfl
      have whole := secondByte first second 0 (by decide)
      rw [Nat.add_zero] at whole
      rw [padded, decodeLenientFrom_first (by omega),
        decodeLenientFrom_second (by omega),
        decodeLenientFrom_third (by omega), firstByte first _ (by omega),
        whole]
      simp [decodeLenientFrom]
  | case4 first second third rest ih =>
      have bound := first.toNat_lt
      have boundSecond := second.toNat_lt
      have boundThird := third.toNat_lt
      have whole : (second.toNat % 16 * 4 + third.toNat / 64) % 4 * 64 +
          third.toNat % 64 = third.toNat := by omega
      rw [symbols, pad_cons_four, decodeLenientFrom_first (by omega),
        decodeLenientFrom_second (by omega),
        decodeLenientFrom_third (by omega),
        decodeLenientFrom_fourth (by omega), firstByte first _ (by omega),
        secondByte first second _ (by omega), whole, UInt8.ofNat_toNat, ih]
      rfl

theorem mem_symbols {character : Char} {bytes : List UInt8}
    (member : character ∈ symbols bytes) :
    ∃ value < 64, character = symbol value := by
  induction bytes using symbols.induct with
  | case1 => cases member
  | case2 first =>
      have bound := first.toNat_lt
      simp only [symbols, List.mem_cons, List.not_mem_nil, or_false] at member
      rcases member with rfl | rfl
      · exact ⟨_, by omega, rfl⟩
      · exact ⟨_, by omega, rfl⟩
  | case3 first second =>
      have bound := first.toNat_lt
      have boundSecond := second.toNat_lt
      simp only [symbols, List.mem_cons, List.not_mem_nil, or_false] at member
      rcases member with rfl | rfl | rfl
      · exact ⟨_, by omega, rfl⟩
      · exact ⟨_, by omega, rfl⟩
      · exact ⟨_, by omega, rfl⟩
  | case4 first second third rest ih =>
      have bound := first.toNat_lt
      have boundSecond := second.toNat_lt
      have boundThird := third.toNat_lt
      simp only [symbols, List.mem_cons] at member
      rcases member with rfl | rfl | rfl | rfl | further
      · exact ⟨_, by omega, rfl⟩
      · exact ⟨_, by omega, rfl⟩
      · exact ⟨_, by omega, rfl⟩
      · exact ⟨_, by omega, rfl⟩
      · exact ih further

end Tgdcfs.Lib.Base64
