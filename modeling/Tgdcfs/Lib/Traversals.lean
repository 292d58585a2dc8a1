import Mathlib.Data.List.Forall2

/-!
# Traversals that may fail

A traversal succeeds exactly when it does on every item, and its results are
those of the items, in their order.
-/

namespace Tgdcfs.Lib

section Exceptions

variable {α β ε : Type}

/-- An action with a result went on from the result of its first part. -/
theorem bind_ok {action : Except ε α} {next : α → Except ε β} {result : β}
    (done : action >>= next = .ok result) :
    ∃ value, action = .ok value ∧ next value = .ok result := by
  cases action with
  | error failure => cases done
  | ok value => exact ⟨value, rfl, done⟩

/-- Traverse a list with a function whose result is known on its items. -/
theorem mapM_ok {items : List α} {change : α → Except ε β} (result : α → β)
    (each : ∀ item ∈ items, change item = .ok (result item)) :
    items.mapM change = .ok (items.map result) := by
  induction items with
  | nil => rfl
  | cons item items induction =>
      have head := each item List.mem_cons_self
      have tail := induction fun other member =>
        each other (List.mem_cons_of_mem _ member)
      rw [List.mapM_cons, head, tail]
      rfl

theorem mapM_error {items : List α} (change : α → Except ε β) {item : α}
    (member : item ∈ items) {failure : ε}
    (fails : change item = .error failure) :
    ∃ other, items.mapM change = .error other := by
  induction items with
  | nil => cases member
  | cons head items induction =>
      rw [List.mapM_cons]
      cases first : change head with
      | error other => exact ⟨other, rfl⟩
      | ok value =>
          rcases List.mem_cons.mp member with rfl | member
          · rw [fails] at first
            cases first
          · obtain ⟨other, rest⟩ := induction member
            rw [rest]
            exact ⟨other, rfl⟩

theorem mem_of_mapM_ok {items : List α} {change : α → Except ε β}
    {results : List β} (all : items.mapM change = .ok results) {result : β}
    (member : result ∈ results) :
    ∃ item ∈ items, change item = .ok result := by
  induction items generalizing results with
  | nil =>
      cases all
      cases member
  | cons item items induction =>
      rw [List.mapM_cons] at all
      obtain ⟨value, first, all⟩ := bind_ok all
      obtain ⟨values, rest, made⟩ := bind_ok all
      cases made
      rcases List.mem_cons.mp member with rfl | later
      · exact ⟨item, List.mem_cons_self, first⟩
      · obtain ⟨other, listed, same⟩ := induction rest later
        exact ⟨other, List.mem_cons_of_mem item listed, same⟩

/-- Changing the items changes the results of a traversal alike. -/
theorem mapM_changed {items : List α} {change : α → Except ε β}
    {results : List β} (all : items.mapM change = .ok results)
    (moveItem : α → α) (moveResult : β → β)
    (each : ∀ item result, change item = .ok result →
      change (moveItem item) = .ok (moveResult result)) :
    (items.map moveItem).mapM change = .ok (results.map moveResult) := by
  induction items generalizing results with
  | nil =>
      cases all
      rfl
  | cons item items induction =>
      rw [List.mapM_cons] at all
      obtain ⟨first, head, rest⟩ := bind_ok all
      obtain ⟨others, tail, made⟩ := bind_ok rest
      cases made
      rw [List.map_cons, List.mapM_cons, each item first head,
        induction tail]
      rfl

end Exceptions

section Options

variable {α β : Type}

variable {items : List α} {change : α → Option β}

theorem mapM_some (result : α → β)
    (each : ∀ item ∈ items, change item = some (result item)) :
    items.mapM change = some (items.map result) := by
  induction items with
  | nil => rfl
  | cons item items induction =>
      have head := each item List.mem_cons_self
      have tail := induction fun other member =>
        each other (List.mem_cons_of_mem item member)
      rw [List.mapM_cons, head, tail]
      rfl

theorem mapM_none {item : α} (member : item ∈ items)
    (raises : change item = none) : items.mapM change = none := by
  induction items with
  | nil => cases member
  | cons head items induction =>
      rw [List.mapM_cons]
      cases first : change head with
      | none => rfl
      | some value =>
          rcases List.mem_cons.mp member with rfl | later
          · rw [raises] at first
            cases first
          · rw [induction later]
            rfl

theorem forall₂_of_mapM_some {results : List β}
    (all : items.mapM change = some results) :
    List.Forall₂ (fun item result => change item = some result)
      items results := by
  induction items generalizing results with
  | nil =>
      cases all
      exact .nil
  | cons item items induction =>
      rw [List.mapM_cons] at all
      obtain ⟨value, first, rest⟩ := Option.bind_eq_some_iff.mp all
      obtain ⟨values, tail, made⟩ := Option.bind_eq_some_iff.mp rest
      cases made
      exact .cons first (induction tail)

/-- A traversal whose items have results one by one has those results. -/
theorem mapM_of_forall₂ {results : List β}
    (each : List.Forall₂ (fun item result => change item = some result)
      items results) : items.mapM change = some results := by
  induction each with
  | nil => rfl
  | cons first _ induction =>
      rw [List.mapM_cons, first, induction]
      rfl

end Options

end Tgdcfs.Lib
