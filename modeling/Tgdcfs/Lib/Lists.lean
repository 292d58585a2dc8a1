import Mathlib.Algebra.BigOperators.Group.List.Basic
import Mathlib.Algebra.GroupWithZero.Nat
import Mathlib.Data.List.Basic

/-!
# Lists whose members change one at a time

A system of agents is a list in which one member is replaced per step.  What
a count or a sum over the agents gains or loses then depends on that member
alone, and every other member stays.
-/

namespace Tgdcfs.Lib

variable {α : Type*}

theorem countP_cons_toNat (test : α → Bool) (head : α) (members : List α) :
    (head :: members).countP test =
      members.countP test + (test head).toNat := by
  rw [List.countP_cons]
  cases test head <;> rfl

variable {members : List α} {position : Nat} {old : α}

/-- The count over a list after one of its members is replaced. -/
theorem countP_set_add (test : α → Bool) (here : members[position]? = some old)
    (new : α) :
    (members.set position new).countP test + (test old).toNat =
      members.countP test + (test new).toNat := by
  induction members generalizing position with
  | nil => simp at here
  | cons head members induction =>
      cases position with
      | zero =>
          simp only [List.getElem?_cons_zero, Option.some.injEq] at here
          subst old
          simp only [List.set_cons_zero, countP_cons_toNat]
          omega
      | succ position =>
          have tail := induction (by simpa using here)
          simp only [List.set_cons_succ, countP_cons_toNat]
          omega

/-- The sum over a list after one of its members is replaced. -/
theorem sum_map_set_add (weight : α → Nat)
    (here : members[position]? = some old) (new : α) :
    ((members.set position new).map weight).sum + weight old =
      (members.map weight).sum + weight new := by
  induction members generalizing position with
  | nil => cases here
  | cons head members induction =>
      cases position with
      | zero =>
          cases here
          simp only [List.set_cons_zero, List.map_cons, List.sum_cons]
          omega
      | succ position =>
          have tail := induction here
          simp only [List.set_cons_succ, List.map_cons, List.sum_cons]
          omega

theorem sum_map_set_lt (weight : α → Nat) {new : α}
    (here : members[position]? = some old) (less : weight new < weight old) :
    ((members.set position new).map weight).sum <
      (members.map weight).sum := by
  have balance := sum_map_set_add weight here new
  omega

/-- A value that a replaced member keeps is kept all over the list. -/
theorem map_set_of_eq {β : Type*} (value : α → β) {new : α}
    (here : members[position]? = some old) (same : value new = value old) :
    (members.set position new).map value = members.map value := by
  induction members generalizing position with
  | nil => rfl
  | cons head members induction =>
      cases position with
      | zero =>
          cases here
          rw [List.set_cons_zero, List.map_cons, List.map_cons, same]
      | succ position =>
          rw [List.set_cons_succ, List.map_cons, List.map_cons,
            induction here]

theorem mem_set_of_ne {new : α} (here : members[position]? = some old)
    {member : α} (inside : member ∈ members) (other : member ≠ old) :
    member ∈ members.set position new := by
  induction members generalizing position with
  | nil => cases inside
  | cons head members induction =>
      cases position with
      | zero =>
          cases here
          exact List.mem_cons_of_mem _
            ((List.mem_cons.mp inside).resolve_left other)
      | succ position =>
          rcases List.mem_cons.mp inside with rfl | later
          · exact List.mem_cons_self
          · exact List.mem_cons_of_mem _ (induction here later)

/-- Weights of at most one add up to at most the number of members that have
any. -/
theorem sum_map_le_countP (weight : α → Nat) (test : α → Bool)
    (light : ∀ member ∈ members, weight member ≤ (test member).toNat) :
    (members.map weight).sum ≤ members.countP test := by
  induction members with
  | nil => simp
  | cons head members induction =>
      have here := light head List.mem_cons_self
      have rest := induction fun member member_mem =>
        light member (List.mem_cons_of_mem head member_mem)
      simp only [List.map_cons, List.sum_cons, countP_cons_toNat]
      omega

end Tgdcfs.Lib
