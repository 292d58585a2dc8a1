import Mathlib.Data.List.Range
import Mathlib.Tactic.Common

/-!
# Intervals of a decidable property

A scan over consecutive numbers collects the maximal intervals on which a
property holds.  It closes an interval when it comes to a number without the
property, so the last number it looks at has to be one of those.
-/

namespace Tgdcfs.Lib

/-- The intervals of `holds` among the numbers still to look at; `start` is
where the open interval began. -/
def intervalsFrom (holds : Nat → Bool) :
    List Nat → Option Nat → List (Nat × Nat)
  | [], _ => []
  | number :: rest, none =>
      if holds number then intervalsFrom holds rest (some number)
      else intervalsFrom holds rest none
  | number :: rest, some start =>
      if holds number then intervalsFrom holds rest (some start)
      else (start, number - 1) :: intervalsFrom holds rest none

/-- The intervals are what `holds` has from `first` up to `stop`: in order,
never touching, and together exactly the numbers with the property. -/
structure Intervals (holds : Nat → Bool) (first stop : Nat)
    (intervals : List (Nat × Nat)) : Prop where
  bounded : ∀ interval ∈ intervals, first ≤ interval.1 ∧
    interval.1 ≤ interval.2 ∧ interval.2 < stop
  separate : intervals.Pairwise fun earlier later =>
    earlier.2 + 1 < later.1
  covers : ∀ number, (∃ interval ∈ intervals,
    interval.1 ≤ number ∧ number ≤ interval.2) ↔
      first ≤ number ∧ number < stop ∧ holds number = true

namespace Intervals

variable {holds : Nat → Bool} {first stop : Nat}
  {intervals : List (Nat × Nat)}

theorem nil (empty : stop ≤ first) : Intervals holds first stop [] := by
  refine ⟨by simp, List.Pairwise.nil, ?_⟩
  intro number
  constructor
  · rintro ⟨interval, member, _⟩
    cases member
  · rintro ⟨from_, below, _⟩
    omega

/-- A number without the property in front changes nothing. -/
theorem skip (intervals_ : Intervals holds (first + 1) stop intervals)
    (absent : holds first = false) : Intervals holds first stop intervals := by
  refine ⟨?_, intervals_.separate, ?_⟩
  · intro interval member
    obtain ⟨from_, ordered, below⟩ := intervals_.bounded interval member
    exact ⟨by omega, ordered, below⟩
  · intro number
    rw [intervals_.covers number]
    constructor
    · rintro ⟨from_, below, held⟩
      exact ⟨by omega, below, held⟩
    · rintro ⟨from_, below, held⟩
      refine ⟨?_, below, held⟩
      by_contra early
      obtain rfl : number = first := by omega
      rw [absent] at held
      cases held

/-- An interval that ends right before a number without the property. -/
theorem cons {middle : Nat}
    (intervals_ : Intervals holds (middle + 1) stop intervals)
    (nonempty : first < middle) (inside : middle < stop)
    (held : ∀ number, first ≤ number → number < middle →
      holds number = true)
    (absent : holds middle = false) :
    Intervals holds first stop ((first, middle - 1) :: intervals) := by
  refine ⟨?_, ?_, ?_⟩
  · intro interval member
    cases member with
    | head =>
        dsimp only
        omega
    | tail _ later =>
        obtain ⟨from_, ordered, below⟩ := intervals_.bounded interval later
        exact ⟨by omega, ordered, below⟩
  · apply List.Pairwise.cons
    · intro interval later
      obtain ⟨from_, _, _⟩ := intervals_.bounded interval later
      dsimp only
      omega
    · exact intervals_.separate
  · intro number
    have rest := intervals_.covers number
    constructor
    · rintro ⟨interval, member, from_, upTo⟩
      cases member with
      | head =>
          dsimp only at from_ upTo
          exact ⟨from_, by omega, held number from_ (by omega)⟩
      | tail _ later =>
          obtain ⟨start, below, has⟩ :=
            rest.mp ⟨interval, later, from_, upTo⟩
          exact ⟨by omega, below, has⟩
    · rintro ⟨from_, below, has⟩
      by_cases early : number < middle
      · refine ⟨(first, middle - 1), List.mem_cons_self, from_, ?_⟩
        dsimp only
        omega
      · have beyond : middle + 1 ≤ number := by
          by_contra here
          obtain rfl : number = middle := by omega
          rw [absent] at has
          cases has
        obtain ⟨interval, later, bounds⟩ := rest.mpr ⟨beyond, below, has⟩
        exact ⟨interval, List.mem_cons_of_mem _ later, bounds⟩

end Intervals

/-- The scan from `number` on, without and with an open interval. -/
theorem intervalsFrom_spec (holds : Nat → Bool) (count : Nat) :
    (∀ number, (0 < count → holds (number + count - 1) = false) →
      Intervals holds number (number + count)
        (intervalsFrom holds (List.range' number count) none)) ∧
    ∀ start number, start < number → 0 < count →
      (∀ earlier, start ≤ earlier → earlier < number →
        holds earlier = true) →
      holds (number + count - 1) = false →
        Intervals holds start (number + count)
          (intervalsFrom holds (List.range' number count) (some start)) := by
  induction count with
  | zero =>
      constructor
      · intro number _
        exact .nil (Nat.le_refl number)
      · intro start number _ impossible
        cases impossible
  | succ count induction =>
      obtain ⟨closed, open_⟩ := induction
      have shift : ∀ number, number + 1 + count = number + (count + 1) := by
        intro number
        omega
      constructor
      · intro number sentinel
        rw [List.range'_succ, intervalsFrom]
        cases here : holds number with
        | true =>
            have more : 0 < count := by
              by_contra unfound
              obtain rfl : count = 0 := by omega
              have absent := sentinel Nat.one_pos
              rw [Nat.add_sub_cancel, here] at absent
              cases absent
            have later := open_ number (number + 1) (Nat.lt_succ_self _)
              more ?_ ?_
            · rw [shift] at later
              simpa using later
            · intro earlier from_ below
              obtain rfl : earlier = number := by omega
              exact here
            · rw [shift]
              exact sentinel (Nat.succ_pos _)
        | false =>
            have later := closed (number + 1) ?_
            · rw [shift] at later
              simpa using later.skip here
            · intro _
              rw [shift]
              exact sentinel (Nat.succ_pos _)
      · intro start number opened _ held sentinel
        rw [List.range'_succ, intervalsFrom]
        cases here : holds number with
        | true =>
            have more : 0 < count := by
              by_contra unfound
              obtain rfl : count = 0 := by omega
              rw [Nat.add_sub_cancel, here] at sentinel
              cases sentinel
            have later := open_ start (number + 1)
              (Nat.lt_succ_of_lt opened) more ?_ ?_
            · rw [shift] at later
              simpa using later
            · intro earlier from_ below
              by_cases early : earlier < number
              · exact held earlier from_ early
              · obtain rfl : earlier = number := by omega
                exact here
            · rw [shift]
              exact sentinel
        | false =>
            have later := closed (number + 1) ?_
            · rw [shift] at later
              have joined := later.cons opened (by omega) held here
              simpa using joined
            · intro _
              rw [shift]
              exact sentinel

/-- A scan whose last number lacks the property finds its intervals. -/
theorem intervalsFrom_intervals {holds : Nat → Bool} {first stop : Nat}
    (ordered : first < stop) (sentinel : holds (stop - 1) = false) :
    Intervals holds first stop
      (intervalsFrom holds (List.range' first (stop - first)) none) := by
  have found := (intervalsFrom_spec holds (stop - first)).1 first
  rw [Nat.add_sub_cancel' (Nat.le_of_lt ordered)] at found
  exact found fun _ => sentinel

theorem Intervals.eq_nil_iff {holds : Nat → Bool} {first stop : Nat}
    {intervals : List (Nat × Nat)}
    (intervals_ : Intervals holds first stop intervals) :
    intervals = [] ↔
      ∀ number, first ≤ number → number < stop → holds number = false := by
  constructor
  · rintro rfl number from_ below
    by_contra held
    obtain ⟨interval, member, _⟩ := (intervals_.covers number).mpr
      ⟨from_, below, by simpa using held⟩
    cases member
  · intro absent
    cases intervals with
    | nil => rfl
    | cons interval rest =>
        have bounds := intervals_.bounded interval List.mem_cons_self
        obtain ⟨from_, below, held⟩ :=
          (intervals_.covers interval.1).mp
            ⟨interval, List.mem_cons_self, Nat.le_refl _, bounds.2.1⟩
        rw [absent interval.1 from_ below] at held
        cases held

end Tgdcfs.Lib
