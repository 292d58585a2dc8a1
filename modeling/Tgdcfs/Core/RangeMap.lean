import Mathlib.Algebra.BigOperators.Group.List.Basic
import Mathlib.Algebra.GroupWithZero.Nat
import Mathlib.Data.Int.Basic

/-!
# Byte ranges over the parts of a layout

A version is stored as a sequence of parts.  `mapRange` turns an inclusive
byte range of the version into one inclusive range per part it touches.  For
a complete layout and a range inside the version, the pieces it asks for are
exactly the bytes of the range, in order.
-/

namespace Tgdcfs

/-- Why a range cannot be mapped, with the values the message reports. -/
inductive RangeError where
  | invalidBegin (begin_ size : Int)
  | invalidRange (begin_ end_ : Int)
  | beyondParts (begin_ size : Int)
  | noMessage (part : Nat)
  deriving DecidableEq, Repr

/-- One download: the part, its message and inclusive bounds within it. -/
structure PartRange where
  part : Nat
  messageId : Int
  begin_ : Nat
  end_ : Nat
  deriving DecidableEq, Repr

def PartRange.length (range : PartRange) : Nat :=
  range.end_ + 1 - range.begin_

/-- Skip the parts that end before `begin`; the index and the offset of the
first part left, and the parts from there on. -/
def skipParts (begin_ : Nat) : List Nat → Nat → Nat → Nat × Nat × List Nat
  | [], part, offset => (part, offset, [])
  | partSize :: rest, part, offset =>
      if offset + partSize ≤ begin_ then
        skipParts begin_ rest (part + 1) (offset + partSize)
      else (part, offset, partSize :: rest)

/-- The ranges of the parts up to `end`. -/
def takeParts (messageIds : List Int) (begin_ end_ : Nat) :
    List Nat → Nat → Nat → Except RangeError (List PartRange)
  | [], _, _ => .ok []
  | partSize :: rest, part, offset =>
      if end_ < offset then .ok []
      else
        let partBegin := begin_ - offset
        let partStop := min partSize (end_ + 1 - offset)
        if partBegin < partStop then
          match messageIds[part]? with
          | none => .error (.noMessage part)
          | some messageId =>
              (takeParts messageIds begin_ end_ rest (part + 1)
                (offset + partSize)).map fun ranges =>
                  ⟨part, messageId, partBegin, partStop - 1⟩ :: ranges
        else
          takeParts messageIds begin_ end_ rest (part + 1)
            (offset + partSize)

/-- Map the inclusive byte range `[begin, end]` onto parts.  A negative end
means the end of the version, and an end past it is clamped there. -/
def mapRange (messageIds : List Int) (partSizes : List Nat)
    (size begin_ end_ : Int) : Except RangeError (List PartRange) :=
  if size ≤ 0 then .ok []
  else
    let stop := if end_ < 0 ∨ size ≤ end_ then size - 1 else end_
    if begin_ < 0 then .error (.invalidBegin begin_ size)
    else if stop < begin_ then .error (.invalidRange begin_ stop)
    else
      match skipParts begin_.toNat partSizes 0 0 with
      | (_, _, []) => .error (.beyondParts begin_ size)
      | (part, offset, rest) =>
          takeParts messageIds begin_.toNat stop.toNat rest part offset

section Content

variable {α : Type*}

/-- The bytes of `[begin, end]`, both inclusive. -/
def byteRange (content : List α) (begin_ end_ : Nat) : List α :=
  (content.drop begin_).take (end_ + 1 - begin_)

/-- The bytes of one part of a version cut along `partSizes`. -/
def partBytes (partSizes : List Nat) (content : List α) (part : Nat) :
    List α :=
  (content.drop (partSizes.take part).sum).take (partSizes.getD part 0)

/-- What a store that holds the part answers to a download of the range. -/
def PartRange.bytes (partSizes : List Nat) (content : List α)
    (range : PartRange) : List α :=
  byteRange (partBytes partSizes content range.part) range.begin_ range.end_

theorem take_drop_append (content : List α) (start first second : Nat) :
    (content.drop start).take first ++
        (content.drop (start + first)).take second =
      (content.drop start).take (first + second) := by
  rw [List.take_add, List.drop_drop]

/-- A piece of a list holds what the list has at its positions. -/
theorem take_drop_eq (content : List α) (start count : Nat) :
    (content.drop start).take count =
      (List.range' start count).filterMap (content[·]?) := by
  induction count generalizing start with
  | zero => rfl
  | succ count induction =>
      rw [List.range'_succ, List.filterMap_cons, ← induction]
      cases here : content[start]? with
      | none =>
          have beyond := List.getElem?_eq_none_iff.mp here
          rw [List.drop_eq_nil_of_le beyond,
            List.drop_eq_nil_of_le (Nat.le_succ_of_le beyond)]
          simp
      | some value =>
          obtain ⟨inside, rfl⟩ := List.getElem?_eq_some_iff.mp here
          rw [List.drop_eq_getElem_cons inside, List.take_succ_cons]

theorem byteRange_length {content : List α} {begin_ end_ : Nat}
    (inside : end_ < content.length) :
    (byteRange content begin_ end_).length = end_ + 1 - begin_ := by
  simp only [byteRange, List.length_take, List.length_drop]
  omega

theorem byteRange_drop (content : List α) (begin_ end_ count : Nat) :
    (byteRange content begin_ end_).drop count =
      byteRange content (begin_ + count) end_ := by
  rw [byteRange, byteRange, List.drop_take, List.drop_drop]
  congr 1
  omega

theorem PartRange.bytes_eq (partSizes : List Nat) (content : List α)
    {range : PartRange}
    (inside : range.end_ < partSizes.getD range.part 0) :
    range.bytes partSizes content =
      (content.drop ((partSizes.take range.part).sum + range.begin_)).take
        range.length := by
  simp only [PartRange.bytes, byteRange, partBytes, List.drop_take,
    List.drop_drop, List.take_take, PartRange.length]
  congr 1
  omega

end Content

/-- Where the first loop of `mapRange` stops: at the first part that reaches
past `begin`. -/
theorem skipParts_spec (begin_ : Nat) (partSizes : List Nat)
    {rest : List Nat} {part offset : Nat}
    (left : rest = partSizes.drop part)
    (start : offset = (partSizes.take part).sum) (reached : offset ≤ begin_)
    (total : begin_ < partSizes.sum) :
    ∃ first, ∃ partSize after,
      skipParts begin_ rest part offset =
        (first, (partSizes.take first).sum, partSize :: after) ∧
      partSize :: after = partSizes.drop first ∧
      (partSizes.take first).sum ≤ begin_ := by
  induction rest generalizing part offset with
  | nil =>
      have all : (partSizes.take part).sum = partSizes.sum := by
        rw [List.take_of_length_le (List.drop_eq_nil_iff.mp left.symm)]
      omega
  | cons partSize rest induction =>
      have next : rest = partSizes.drop (part + 1) := by
        rw [← List.tail_drop, ← left, List.tail_cons]
      have sum : (partSizes.take (part + 1)).sum = offset + partSize := by
        have size : partSizes[part]? = some partSize := by
          rw [← List.head?_drop, ← left, List.head?_cons]
        rw [List.take_add_one, size, List.sum_append, start]
        simp
      unfold skipParts
      split
      · rename_i before
        exact induction next sum.symm before
      · exact ⟨part, partSize, rest, by rw [start], left, start ▸ reached⟩

variable {messageIds : List Int} {partSizes : List Nat}

/-- The offsets of the version a piece stands for. -/
def PartRange.offsets (partSizes : List Nat) (range : PartRange) :
    List Nat :=
  List.range' ((partSizes.take range.part).sum + range.begin_) range.length

/-- A piece lies inside the part it names and carries that part's message. -/
structure PartRange.Fits (messageIds : List Int) (partSizes : List Nat)
    (range : PartRange) : Prop where
  ordered : range.begin_ ≤ range.end_
  inside : ∃ partSize, partSizes[range.part]? = some partSize ∧
    range.end_ < partSize
  message : messageIds[range.part]? = some range.messageId

theorem PartRange.Fits.bounded {range : PartRange}
    (fits : range.Fits messageIds partSizes) :
    range.begin_ ≤ range.end_ ∧
      range.end_ < partSizes.getD range.part 0 := by
  obtain ⟨partSize, size, inside⟩ := fits.inside
  exact ⟨fits.ordered, by simpa [List.getD_eq_getElem?_getD, size] using inside⟩

/-- What the second loop takes from the part at `offset` on: pieces of this
and later parts, which list the offsets of the range that are left. -/
theorem takeParts_tiles (begin_ end_ : Nat)
    (complete : messageIds.length = partSizes.length)
    (inside : end_ < partSizes.sum) {rest : List Nat} {part offset : Nat}
    (left : rest = partSizes.drop part)
    (start : offset = (partSizes.take part).sum) :
    ∃ ranges, takeParts messageIds begin_ end_ rest part offset =
        .ok ranges ∧
      (∀ range ∈ ranges, part ≤ range.part) ∧
      (ranges.map PartRange.part).Pairwise (· < ·) ∧
      (∀ range ∈ ranges, range.Fits messageIds partSizes) ∧
      ranges.flatMap (PartRange.offsets partSizes) =
        List.range' (max begin_ offset) (end_ + 1 - max begin_ offset) := by
  induction rest generalizing part offset with
  | nil =>
      have all : (partSizes.take part).sum = partSizes.sum := by
        rw [List.take_of_length_le (List.drop_eq_nil_iff.mp left.symm)]
      have nothing : end_ + 1 - max begin_ offset = 0 := by omega
      exact ⟨[], rfl, by simp, by simp, by simp, by simp [nothing]⟩
  | cons partSize rest induction =>
      have next : rest = partSizes.drop (part + 1) := by
        rw [← List.tail_drop, ← left, List.tail_cons]
      have size : partSizes[part]? = some partSize := by
        rw [← List.head?_drop, ← left, List.head?_cons]
      have sum : (partSizes.take (part + 1)).sum = offset + partSize := by
        rw [List.take_add_one, size, List.sum_append, start]
        simp
      obtain ⟨ranges, mapped, later, increasing, fits, offsets⟩ :=
        induction next sum.symm
      unfold takeParts
      by_cases past : end_ < offset
      · have nothing : end_ + 1 - max begin_ offset = 0 := by omega
        rw [if_pos past]
        exact ⟨[], rfl, by simp, by simp, by simp, by simp [nothing]⟩
      · rw [if_neg past]
        dsimp only
        by_cases touched : begin_ - offset <
            min partSize (end_ + 1 - offset)
        · have known : part < messageIds.length := by
            rw [complete]
            exact (List.getElem?_eq_some_iff.mp size).1
          rw [if_pos touched, List.getElem?_eq_getElem known, mapped]
          refine ⟨_, rfl, ?_, ?_, ?_, ?_⟩
          · intro range member
            cases member with
            | head => exact Nat.le_refl part
            | tail _ older => exact Nat.le_of_succ_le (later range older)
          · apply List.Pairwise.cons
            · intro other listed
              obtain ⟨range, older, rfl⟩ := List.mem_map.mp listed
              exact later range older
            · exact increasing
          · intro range member
            cases member with
            | head =>
                exact
                  { ordered := by dsimp only; omega
                    inside := ⟨partSize, size, by dsimp only; omega⟩
                    message := List.getElem?_eq_getElem known }
            | tail _ older => exact fits range older
          · rw [List.flatMap_cons, offsets]
            simp only [PartRange.offsets, PartRange.length, ← start]
            have begins : offset + (begin_ - offset) =
                max begin_ offset := by omega
            rw [begins]
            by_cases more : offset + partSize ≤ end_
            · -- The part is used to its end; the next one goes on there.
              have meets : max begin_ (offset + partSize) =
                  max begin_ offset +
                    (min partSize (end_ + 1 - offset) - 1 + 1 -
                      (begin_ - offset)) := by omega
              have whole : min partSize (end_ + 1 - offset) - 1 + 1 -
                    (begin_ - offset) +
                  (end_ + 1 - max begin_ (offset + partSize)) =
                    end_ + 1 - max begin_ offset := by omega
              rw [← whole, ← List.range'_append_1, ← meets]
            · have nothing :
                  end_ + 1 - max begin_ (offset + partSize) = 0 := by
                omega
              have all : min partSize (end_ + 1 - offset) - 1 + 1 -
                  (begin_ - offset) = end_ + 1 - max begin_ offset := by
                omega
              rw [nothing, all]
              simp
        · rw [if_neg touched]
          refine ⟨ranges, mapped, ?_, increasing, fits, ?_⟩
          · intro range member
            exact Nat.le_of_succ_le (later range member)
          · rw [offsets]
            -- An empty part, or one that ends where the range begins.
            have same : max begin_ (offset + partSize) =
                max begin_ offset ∨ end_ + 1 ≤ max begin_ offset := by
              omega
            cases same with
            | inl same => rw [same]
            | inr beyond =>
                have here : end_ + 1 - max begin_ offset = 0 := by omega
                have there :
                    end_ + 1 - max begin_ (offset + partSize) = 0 := by
                  omega
                simp [here, there]

variable {begin_ : Nat}

/-- A range inside a complete layout is mapped, and the mapped parts hold
exactly its bytes. -/
theorem mapRange_spec (complete : messageIds.length = partSizes.length)
    {end_ : Nat} (ordered : begin_ ≤ end_) (inside : end_ < partSizes.sum) :
    ∃ ranges, mapRange messageIds partSizes partSizes.sum begin_ end_ =
        .ok ranges ∧
      (∀ range ∈ ranges, range.begin_ ≤ range.end_ ∧
        range.end_ < partSizes.getD range.part 0) ∧
      ∀ {α : Type} (content : List α), content.length = partSizes.sum →
        ranges.flatMap (PartRange.bytes partSizes content) =
          byteRange content begin_ end_ := by
  obtain ⟨first, partSize, after, skipped, left, reached⟩ :=
    skipParts_spec begin_ partSizes (List.drop_zero).symm
      (by simp) (Nat.zero_le begin_) (by omega)
  obtain ⟨ranges, mapped, _, _, fits, offsets⟩ :=
    takeParts_tiles begin_ end_ complete inside left rfl
  refine ⟨ranges, ?_, fun range member => (fits range member).bounded, ?_⟩
  · unfold mapRange
    rw [if_neg (by omega)]
    dsimp only
    rw [if_neg (by omega : ¬((end_ : Int) < 0 ∨
      (partSizes.sum : Int) ≤ end_)), if_neg (by omega),
      if_neg (by omega)]
    simp only [Int.toNat_natCast, skipped]
    exact mapped
  · intro α content length
    have starting : max begin_ (partSizes.take first).sum = begin_ := by
      omega
    rw [starting] at offsets
    have each : ∀ range ∈ ranges, range.bytes partSizes content =
        (range.offsets partSizes).filterMap (content[·]?) := by
      intro range member
      rw [range.bytes_eq partSizes content (fits range member).bounded.2,
        take_drop_eq, PartRange.offsets]
    rw [List.flatMap_congr each, ← List.filterMap_flatMap, offsets, byteRange,
      take_drop_eq]

/-- Which bytes a download asks for, whatever message they come from. -/
def PartRange.span (range : PartRange) : Nat × Nat × Nat :=
  (range.part, range.begin_, range.end_)

theorem ok_of_map {ε α β : Type*} {change : α → β} {result : Except ε α}
    {value : β} (mapped : result.map change = .ok value) :
    ∃ before, result = .ok before ∧ change before = value := by
  cases result with
  | error failure => cases mapped
  | ok before =>
      cases mapped
      exact ⟨before, rfl, rfl⟩

private theorem takeParts_span {others : List Int} {end_ : Nat}
    {rest : List Nat} {part offset : Nat} {ranges expected : List PartRange}
    (mapped : takeParts messageIds begin_ end_ rest part offset =
      .ok ranges)
    (complete : takeParts others begin_ end_ rest part offset =
      .ok expected) :
    ranges.map PartRange.span = expected.map PartRange.span := by
  induction rest generalizing part offset ranges expected with
  | nil =>
      cases mapped
      cases complete
      rfl
  | cons partSize rest induction =>
      unfold takeParts at mapped complete
      split at mapped
      · rename_i past
        rw [if_pos past] at complete
        cases mapped
        cases complete
        rfl
      · rename_i more
        rw [if_neg more] at complete
        dsimp only at mapped complete
        split at mapped
        · rename_i nonempty
          rw [if_pos nonempty] at complete
          split at mapped
          · cases mapped
          · split at complete
            · cases complete
            · obtain ⟨later, laterMapped, rfl⟩ :=
                ok_of_map mapped
              obtain ⟨laterExpected, laterComplete, rfl⟩ :=
                ok_of_map complete
              rw [List.map_cons, List.map_cons,
                induction laterMapped laterComplete]
              rfl
        · rename_i empty
          rw [if_neg empty] at complete
          exact induction mapped complete

private theorem mapRange_inside (messageIds : List Int) {end_ : Nat}
    (ordered : begin_ ≤ end_) (inside : end_ < partSizes.sum) :
    mapRange messageIds partSizes partSizes.sum begin_ end_ =
      match skipParts begin_ partSizes 0 0 with
      | (_, _, []) => .error (.beyondParts begin_ partSizes.sum)
      | (part, offset, rest) =>
          takeParts messageIds begin_ end_ rest part offset := by
  unfold mapRange
  rw [if_neg (by omega)]
  dsimp only
  rw [if_neg (by omega : ¬((end_ : Int) < 0 ∨
    (partSizes.sum : Int) ≤ end_)), if_neg (by omega), if_neg (by omega)]
  rfl

/-- A range that is mapped at all is mapped to exactly its bytes. -/
theorem mapRange_ok {end_ : Nat} (ordered : begin_ ≤ end_)
    (inside : end_ < partSizes.sum) {ranges : List PartRange}
    (mapped : mapRange messageIds partSizes partSizes.sum begin_ end_ =
      .ok ranges) :
    (∀ range ∈ ranges, range.begin_ ≤ range.end_ ∧
      range.end_ < partSizes.getD range.part 0) ∧
    ∀ {α : Type} (content : List α), content.length = partSizes.sum →
      ranges.flatMap (PartRange.bytes partSizes content) =
        byteRange content begin_ end_ := by
  have everyPart : (List.replicate partSizes.length (0 : Int)).length =
      partSizes.length := by simp
  obtain ⟨expected, complete, bounded, bytes⟩ :=
    mapRange_spec everyPart ordered inside
  have spans : ranges.map PartRange.span = expected.map PartRange.span := by
    rw [mapRange_inside messageIds ordered inside] at mapped
    rw [mapRange_inside _ ordered inside] at complete
    rcases skipped : skipParts begin_ partSizes 0 0 with
      ⟨part, offset, rest⟩
    rw [skipped] at mapped complete
    cases rest with
    | nil => cases mapped
    | cons partSize rest => exact takeParts_span mapped complete
  refine ⟨?_, ?_⟩
  · intro range member
    have listed : range.span ∈ expected.map PartRange.span := by
      rw [← spans]
      exact List.mem_map.mpr ⟨range, member, rfl⟩
    obtain ⟨other, otherMember, same⟩ := List.mem_map.mp listed
    have bounds := bounded other otherMember
    cases range
    cases other
    cases same
    exact bounds
  · intro α content length
    rw [← bytes content length]
    have through : ∀ listed : List PartRange,
        listed.flatMap (PartRange.bytes partSizes content) =
          (listed.map PartRange.span).flatMap
            (fun span : Nat × Nat × Nat =>
              byteRange (partBytes partSizes content span.1) span.2.1
                span.2.2) := by
      intro listed
      rw [List.flatMap_map]
      rfl
    rw [through, through, spans]

theorem PartRange.bytes_ne_nil {α : Type*} {content : List α}
    (length : content.length = partSizes.sum) {range : PartRange}
    (ordered : range.begin_ ≤ range.end_)
    (inside : range.end_ < partSizes.getD range.part 0) :
    range.bytes partSizes content ≠ [] := by
  have size : partSizes[range.part]? =
      some (partSizes.getD range.part 0) := by
    rw [List.getD_eq_getElem?_getD] at inside ⊢
    cases found : partSizes[range.part]? with
    | none =>
        rw [found] at inside
        cases inside
    | some bytes => rfl
  have upTo : (partSizes.take (range.part + 1)).sum =
      (partSizes.take range.part).sum + partSizes.getD range.part 0 := by
    rw [List.take_add_one, size, List.sum_append]
    simp
  have total : (partSizes.take (range.part + 1)).sum +
      (partSizes.drop (range.part + 1)).sum = partSizes.sum := by
    rw [← List.sum_append, List.take_append_drop]
  rw [PartRange.bytes_eq partSizes content inside, PartRange.length]
  intro empty
  have lengths := congrArg List.length empty
  rw [List.length_take, List.length_drop, List.length_nil] at lengths
  omega

end Tgdcfs
