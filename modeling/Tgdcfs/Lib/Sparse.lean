import Mathlib.Data.List.Infix

/-!
# Sparse files

A file is a list of cells.  A positioned write replaces the cells it covers
and fills the distance to an offset behind the end with holes.  `Agrees` says
that one cell of a file is the cell of the reference the file is a copy of;
writes that carry fragments of the reference keep it and extend it.
-/

namespace Tgdcfs.Lib

variable {α : Type*}

/-- Write `data` at `offset`; an empty write leaves the file alone. -/
def writeAt (hole : α) (file : List α) (offset : Nat) (data : List α) :
    List α :=
  if data.isEmpty then file
  else
    file.take offset ++ List.replicate (offset - file.length) hole ++ data ++
      file.drop (offset + data.length)

/-- At most `length` cells from `offset` on. -/
def readAt (file : List α) (offset length : Nat) : List α :=
  (file.drop offset).take length

variable {hole : α} {truth file data : List α} {offset position : Nat}

theorem length_take_append_zeros (file : List α) (offset : Nat) :
    (file.take offset ++ List.replicate (offset - file.length) hole).length =
      offset := by
  simp only [List.length_append, List.length_take, List.length_replicate]
  omega

theorem length_le_writeAt (hole : α) (file : List α) (offset : Nat)
    (data : List α) : file.length ≤ (writeAt hole file offset data).length := by
  unfold writeAt
  split
  · exact le_rfl
  · rw [List.length_append, List.length_append, length_take_append_zeros,
      List.length_drop]
    omega

theorem writeAt_inside (from_ : offset ≤ position)
    (below : position < offset + data.length) :
    (writeAt hole file offset data)[position]? = data[position - offset]? := by
  have nonempty : data.isEmpty = false := by
    cases data with
    | nil => simp at below; omega
    | cons head rest => rfl
  rw [writeAt, nonempty, if_neg Bool.false_ne_true, List.append_assoc,
    List.getElem?_append_right (by rw [length_take_append_zeros]; exact from_),
    length_take_append_zeros, List.getElem?_append_left (by omega)]

theorem writeAt_before (inside : position < file.length)
    (before : position < offset) :
    (writeAt hole file offset data)[position]? = file[position]? := by
  unfold writeAt
  split
  · rfl
  · rw [List.append_assoc, List.append_assoc, List.getElem?_append_left
      (by rw [List.length_take]; omega), List.getElem?_take_of_lt before]

theorem writeAt_behind (behind : offset + data.length ≤ position) :
    (writeAt hole file offset data)[position]? = file[position]? := by
  unfold writeAt
  split
  · rfl
  · rw [List.getElem?_append_right (by
      rw [List.length_append, length_take_append_zeros]; exact behind),
      List.length_append, length_take_append_zeros, List.getElem?_drop]
    congr 1
    omega

theorem writeAt_hole (nonempty : data ≠ []) (behind : file.length ≤ position)
    (before : position < offset) :
    (writeAt hole file offset data)[position]? = some hole := by
  have content : data.isEmpty = false := by simpa using nonempty
  rw [writeAt, content, if_neg Bool.false_ne_true, List.append_assoc,
    List.getElem?_append_left (by rw [length_take_append_zeros]; exact before),
    List.getElem?_append_right (by rw [List.length_take]; omega),
    List.getElem?_replicate, if_pos]
  rw [List.length_take]
  omega

theorem length_writeAt_le {bound : Nat} (short : file.length ≤ bound)
    (ends : data ≠ [] → offset + data.length ≤ bound) :
    (writeAt hole file offset data).length ≤ bound := by
  unfold writeAt
  split
  · exact short
  · rename_i nonempty
    have inside := ends (by simpa using nonempty)
    rw [List.length_append, List.length_append, length_take_append_zeros,
      List.length_drop]
    omega

/-- Apply positioned writes in their order. -/
def applyWrites (hole : α) : List (Nat × List α) → List α → List α
  | [], file => file
  | (offset, data) :: writes, file =>
      applyWrites hole writes (writeAt hole file offset data)

/-- The write replaces the cell at `position`. -/
def Covers (position : Nat) (write : Nat × List α) : Prop :=
  write.1 ≤ position ∧ position < write.1 + write.2.length

/-- The write makes the file reach beyond `position`. -/
def Reaches (position : Nat) (write : Nat × List α) : Prop :=
  write.2 ≠ [] ∧ position < write.1 + write.2.length

section Writes

variable {writes : List (Nat × List α)} {base : List α}

theorem applyWrites_uncovered (inside : position < file.length)
    (uncovered : ∀ write ∈ writes, ¬Covers position write) :
    (applyWrites hole writes file)[position]? = file[position]? := by
  induction writes generalizing file with
  | nil => rfl
  | cons write writes induction =>
      obtain ⟨offset, data⟩ := write
      have missed := uncovered (offset, data) List.mem_cons_self
      have same : (writeAt hole file offset data)[position]? =
          file[position]? := by
        by_cases before : position < offset
        · exact writeAt_before inside before
        · apply writeAt_behind
          by_contra covered
          exact missed ⟨Nat.le_of_not_lt before, Nat.lt_of_not_le covered⟩
      rw [applyWrites, induction
        (lt_of_lt_of_le inside (length_le_writeAt _ _ _ _))
        (fun other member => uncovered other (List.mem_cons_of_mem _ member)),
        same]

/-- Behind the end of the file an uncovered cell is a hole, if the writes
reach it. -/
theorem applyWrites_behind (behind : file.length ≤ position)
    (uncovered : ∀ write ∈ writes, ¬Covers position write) :
    ((∃ write ∈ writes, Reaches position write) →
      (applyWrites hole writes file)[position]? = some hole) ∧
    ((∀ write ∈ writes, ¬Reaches position write) →
      (applyWrites hole writes file)[position]? = none) := by
  induction writes generalizing file with
  | nil =>
      refine ⟨?_, fun _ => List.getElem?_eq_none behind⟩
      rintro ⟨write, member, _⟩
      cases member
  | cons write writes induction =>
      obtain ⟨offset, data⟩ := write
      have missed := uncovered (offset, data) List.mem_cons_self
      have later : ∀ other ∈ writes, ¬Covers position other :=
        fun other member => uncovered other (List.mem_cons_of_mem _ member)
      by_cases reaches : Reaches position (offset, data)
      · have before : position < offset := by
          by_contra from_
          exact missed ⟨Nat.le_of_not_lt from_, reaches.2⟩
        have cell : (writeAt hole file offset data)[position]? = some hole :=
          writeAt_hole reaches.1 behind before
        refine ⟨fun _ => ?_, fun untouched =>
          absurd reaches (untouched _ List.mem_cons_self)⟩
        rw [applyWrites, applyWrites_uncovered
          (List.getElem?_eq_some_iff.mp cell).1 later, cell]
      · have short : (writeAt hole file offset data).length ≤ position := by
          apply length_writeAt_le behind
          intro nonempty
          by_contra far
          exact reaches ⟨nonempty, Nat.lt_of_not_le far⟩
        obtain ⟨reached, unreached⟩ := induction short later
        constructor
        · rintro ⟨other, member, there⟩
          rcases List.mem_cons.mp member with rfl | member
          · exact absurd there reaches
          · exact reached ⟨other, member, there⟩
        · intro untouched
          exact unreached fun other member =>
            untouched other (List.mem_cons_of_mem _ member)

/-- A covered cell is that of the last write over it, whatever the file was. -/
theorem applyWrites_covered (left right : List α)
    (covered : ∃ write ∈ writes, Covers position write) :
    (applyWrites hole writes left)[position]? =
      (applyWrites hole writes right)[position]? := by
  induction writes generalizing left right with
  | nil =>
      obtain ⟨write, member, _⟩ := covered
      cases member
  | cons write writes induction =>
      by_cases later : ∃ other ∈ writes, Covers position other
      · exact induction _ _ later
      · obtain ⟨offset, data⟩ := write
        have here : Covers position (offset, data) := by
          obtain ⟨other, member, covers⟩ := covered
          rcases List.mem_cons.mp member with rfl | member
          · exact covers
          · exact absurd ⟨other, member, covers⟩ later
        have uncovered : ∀ other ∈ writes, ¬Covers position other :=
          fun other member covers => later ⟨other, member, covers⟩
        have cell : ∀ file : List α,
            (writeAt hole file offset data)[position]? =
              data[position - offset]? :=
          fun file => writeAt_inside here.1 here.2
        have inside : ∀ file : List α,
            position < (writeAt hole file offset data).length := by
          intro file
          have from_ : offset ≤ position := here.1
          have below : position < offset + data.length := here.2
          have reached : position - offset < data.length := by omega
          have found := cell file
          rw [List.getElem?_eq_getElem reached] at found
          exact (List.getElem?_eq_some_iff.mp found).1
        rw [applyWrites, applyWrites,
          applyWrites_uncovered (inside left) uncovered,
          applyWrites_uncovered (inside right) uncovered, cell, cell]

/-- Writes to a file give what they give to an empty one exactly when each
cell of the file is covered, or is a hole that they reach. -/
theorem applyWrites_eq_empty_iff :
    applyWrites hole writes base = applyWrites hole writes [] ↔
      ∀ position cell, base[position]? = some cell →
        (∃ write ∈ writes, Covers position write) ∨
          cell = hole ∧ ∃ write ∈ writes, Reaches position write := by
  constructor
  · intro same position cell found
    by_cases covered : ∃ write ∈ writes, Covers position write
    · exact .inl covered
    · right
      have uncovered : ∀ write ∈ writes, ¬Covers position write :=
        fun write member covers => covered ⟨write, member, covers⟩
      have kept : (applyWrites hole writes base)[position]? = some cell := by
        rw [applyWrites_uncovered (List.getElem?_eq_some_iff.mp found).1
          uncovered, found]
      rw [same] at kept
      obtain ⟨reached, unreached⟩ := @applyWrites_behind α hole [] position
        writes (Nat.zero_le position) uncovered
      by_cases far : ∃ write ∈ writes, Reaches position write
      · rw [reached far] at kept
        exact ⟨(Option.some.inj kept).symm, far⟩
      · rw [unreached fun write member there =>
          far ⟨write, member, there⟩] at kept
        cases kept
  · intro each
    apply List.ext_getElem?
    intro position
    by_cases covered : ∃ write ∈ writes, Covers position write
    · exact applyWrites_covered _ _ covered
    · have uncovered : ∀ write ∈ writes, ¬Covers position write :=
        fun write member covers => covered ⟨write, member, covers⟩
      obtain ⟨reached, unreached⟩ := @applyWrites_behind α hole [] position
        writes (Nat.zero_le position) uncovered
      by_cases inside : position < base.length
      · rw [applyWrites_uncovered inside uncovered]
        have found := List.getElem?_eq_getElem inside
        obtain ⟨empty, far⟩ := (each position _ found).resolve_left covered
        rw [found, empty, reached far]
      · obtain ⟨far, near⟩ := @applyWrites_behind α hole base position
          writes (Nat.le_of_not_lt inside) uncovered
        by_cases touched : ∃ write ∈ writes, Reaches position write
        · rw [far touched, reached touched]
        · have untouched : ∀ write ∈ writes, ¬Reaches position write :=
            fun write member there => touched ⟨write, member, there⟩
          rw [near untouched, unreached untouched]

end Writes

/-- The cell at `position` exists and is the one of the reference. -/
def Agrees (truth file : List α) (position : Nat) : Prop :=
  position < file.length ∧ file[position]? = truth[position]?

theorem fragment_getElem? (fragment : data <+: truth.drop offset)
    (from_ : offset ≤ position) (below : position < offset + data.length) :
    data[position - offset]? = truth[position]? := by
  have inside : position - offset < data.length := by omega
  obtain ⟨rest, joined⟩ := fragment
  have cell : (truth.drop offset)[position - offset]? =
      data[position - offset]? := by
    rw [← joined, List.getElem?_append_left inside]
  rw [← cell, List.getElem?_drop]
  congr 1
  omega

theorem agrees_writeAt_inside (fragment : data <+: truth.drop offset)
    (from_ : offset ≤ position) (below : position < offset + data.length) :
    Agrees truth (writeAt hole file offset data) position := by
  have cell : (writeAt hole file offset data)[position]? =
      data[position - offset]? := writeAt_inside from_ below
  have inside : position - offset < data.length := by omega
  refine ⟨?_, cell.trans (fragment_getElem? fragment from_ below)⟩
  rw [List.getElem?_eq_getElem inside] at cell
  exact (List.getElem?_eq_some_iff.mp cell).1

theorem Agrees.writeAt (agrees : Agrees truth file position)
    (fragment : data <+: truth.drop offset) :
    Agrees truth (writeAt hole file offset data) position := by
  by_cases before : position < offset
  · exact ⟨lt_of_lt_of_le agrees.1 (length_le_writeAt _ _ _ _),
      (writeAt_before agrees.1 before).trans agrees.2⟩
  · by_cases behind : offset + data.length ≤ position
    · exact ⟨lt_of_lt_of_le agrees.1 (length_le_writeAt _ _ _ _),
        (writeAt_behind behind).trans agrees.2⟩
    · exact agrees_writeAt_inside fragment (Nat.le_of_not_lt before)
        (by omega)

/-- Reading cells that agree reads a fragment of the reference. -/
theorem readAt_fragment {length : Nat}
    (agree : ∀ position, offset ≤ position →
      position < offset + (readAt file offset length).length →
        Agrees truth file position) :
    readAt file offset length <+: truth.drop offset := by
  rw [List.prefix_iff_getElem?]
  intro index inside
  have agrees := agree (offset + index) (Nat.le_add_right _ _) (by omega)
  rw [List.getElem?_drop, ← agrees.2, ← List.getElem?_drop,
    ← List.getElem?_eq_getElem inside]
  rw [readAt, List.length_take] at inside
  rw [readAt, List.getElem?_take_of_lt (by omega)]

end Tgdcfs.Lib
