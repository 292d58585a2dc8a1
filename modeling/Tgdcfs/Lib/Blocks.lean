import Mathlib.Data.List.Infix

/-!
# Windows and blocks of a list

A long list is served in pieces: any contiguous part of it is a window, and
the windows of one size that start at its multiples are its blocks.
-/

namespace Tgdcfs.Lib

variable {α : Type*}

/-- The items from one position up to another. -/
def window (content : List α) (first stop : Nat) : List α :=
  (content.take stop).drop first

theorem window_eq_take_drop (content : List α) (first stop : Nat) :
    window content first stop = (content.drop first).take (stop - first) :=
  List.drop_take

@[simp] theorem window_length (content : List α) (first stop : Nat) :
    (window content first stop).length =
      min stop content.length - first := by
  simp [window]

theorem window_eq_nil {content : List α} {first stop : Nat}
    (reversed : stop ≤ first) : window content first stop = [] := by
  apply List.eq_nil_of_length_eq_zero
  simp
  omega

theorem window_min_length (content : List α) (first stop : Nat) :
    window content first (min stop content.length) =
      window content first stop := by
  rw [window, window, ← List.take_take, List.take_length]

theorem window_take (content : List α) (first stop count : Nat) :
    (window content first stop).take count =
      window content first (min stop (first + count)) := by
  rw [window_eq_take_drop, window_eq_take_drop, List.take_take]
  congr 1
  omega

theorem window_drop (content : List α) (first stop count : Nat) :
    (window content first stop).drop count =
      window content (first + count) stop := by
  rw [window, window, List.drop_drop]

theorem window_append (content : List α) {first middle stop : Nat}
    (left : first ≤ middle) (right : middle ≤ stop) :
    window content first middle ++ window content middle stop =
      window content first stop := by
  have front : window content first middle =
      (window content first stop).take (middle - first) := by
    rw [window_take]
    congr 1
    omega
  have back : window content middle stop =
      (window content first stop).drop (middle - first) := by
    rw [window_drop]
    congr 1
    omega
  rw [front, back, List.take_append_drop]

theorem window_prefix (content : List α) {first stop later : Nat}
    (ordered : stop ≤ later) :
    window content first stop <+: window content first later := by
  have front : window content first stop =
      (window content first later).take (stop - first) := by
    rw [window_take]
    by_cases reversed : stop ≤ first
    · rw [window_eq_nil reversed, window_eq_nil (by omega)]
    · congr 1
      omega
  rw [front]
  exact List.take_prefix _ _

def block (content : List α) (size index : Nat) : List α :=
  window content (index * size) ((index + 1) * size)

/-- The part of a block that lies in a range continues what the blocks before
it gave of that range. -/
theorem window_append_block (content : List α) (size index first stop : Nat) :
    window content first (min stop (index * size)) ++
        ((block content size index).take (stop - index * size)).drop
          (first - index * size) =
      window content first (min stop ((index + 1) * size)) := by
  have next : (index + 1) * size = index * size + size := Nat.succ_mul _ _
  rw [block, window_take, window_drop, next]
  by_cases before : first ≤ index * size
  · have here : index * size + (first - index * size) = index * size := by
      omega
    rw [here]
    by_cases behind : stop ≤ index * size
    · have nothing : window content (index * size)
          (min (index * size + size) (index * size + (stop - index * size))) =
            [] := window_eq_nil (by omega)
      rw [nothing, List.append_nil]
      congr 1
      omega
    · have reached : min stop (index * size) = index * size := by omega
      rw [reached, window_append content before (by omega)]
      congr 1
      omega
  · have here : index * size + (first - index * size) = first := by omega
    have nothing : window content first (min stop (index * size)) = [] :=
      window_eq_nil (by omega)
    rw [here, nothing, List.nil_append]
    by_cases behind : stop ≤ first
    · rw [window_eq_nil (by omega), window_eq_nil (by omega)]
    · congr 1
      omega

end Tgdcfs.Lib
