import Mathlib.Data.List.Sublists
import Tgdcfs.Lib.Dict
import Tgdcfs.Lib.Lists

/-!
# Agents that wait for each other's slots

Every resource has a number of slots; an agent takes them one at a time and
may have to wait for one while it holds others.  `holds agent waited held`
says that `agent` can hold a slot of `held` for as long as it waits for one of
`waited`.  A `Knot` is a set of waiting agents that can fill, among
themselves, every resource one of them waits for: it is what a system that has
run into a deadlock shows, and a system whose agents tie none goes on.
-/

namespace Tgdcfs.Lib

variable {κ ρ α : Type*}

/-- Agents, each with the resource it waits for, whose waiting cannot end by
itself. -/
structure Knot (slots : ρ → Nat) (holds : κ → ρ → ρ → Prop)
    (waits : Dict κ ρ) : Prop where
  nonempty : waits.items ≠ []
  full : ∀ waiting ∈ waits.items, ∃ holders : List (κ × ρ),
    holders.Sublist waits.items ∧ slots waiting.2 ≤ holders.length ∧
      ∀ holder ∈ holders, holds holder.1 holder.2 waiting.2

namespace Knot

variable {slots : ρ → Nat} {holds wider : κ → ρ → ρ → Prop}
  {waits : Dict κ ρ}

theorem mono (implied : ∀ agent waited held,
      holds agent waited held → wider agent waited held)
    (knot : Knot slots holds waits) : Knot slots wider waits := by
  refine ⟨knot.nonempty, fun waiting member => ?_⟩
  obtain ⟨holders, among, enough, held⟩ := knot.full waiting member
  exact ⟨holders, among, enough, fun holder here =>
    implied holder.1 holder.2 waiting.2 (held holder here)⟩

/-- Agents that hold nothing of what they wait for need one agent more than
there are slots to tie a knot. -/
theorem slots_lt (irreflexive : ∀ agent resource, ¬holds agent resource resource)
    (knot : Knot slots holds waits) {waiting : κ × ρ}
    (member : waiting ∈ waits.items) : slots waiting.2 < waits.size := by
  obtain ⟨holders, among, enough, held⟩ := knot.full waiting member
  apply Nat.lt_of_le_of_lt enough
  apply Nat.lt_of_le_of_ne among.length_le
  intro sameLength
  have everyone : holders = waits.items := among.eq_of_length sameLength
  have itself := held waiting (everyone ▸ member)
  exact irreflexive waiting.1 waiting.2 itself

/-- If every resource that is waited for is full, and whoever holds a slot
waits too, the waiting agents tie a knot. -/
theorem of_full [DecidableEq κ] (agents : Dict κ α) (held : ρ → α → Nat)
    (waitsAt : α → Option ρ)
    (once : ∀ agent value resource, agents.get? agent = some value →
      held resource value ≤ 1)
    (blocked : ∀ agent value resource, agents.get? agent = some value →
      0 < held resource value →
        ∃ waited, waitsAt value = some waited ∧ holds agent waited resource)
    (full : ∀ agent value waited, agents.get? agent = some value →
      waitsAt value = some waited →
        agents.weight (held waited) = slots waited)
    {agent : κ} {value : α} {waited : ρ}
    (stored : agents.get? agent = some value)
    (waiting : waitsAt value = some waited) :
    Knot slots holds (agents.filterMap waitsAt) := by
  have waiter : (agent, waited) ∈ (agents.filterMap waitsAt).items := by
    rw [Dict.mem_items_filterMap]
    exact ⟨value, stored, waiting⟩
  refine ⟨List.ne_nil_of_mem waiter, ?_⟩
  rintro ⟨other, resource⟩ member
  obtain ⟨otherValue, otherStored, otherWaits⟩ :=
    (Dict.mem_items_filterMap agents waitsAt other resource).mp member
  let entry : κ × α → Option (κ × ρ) :=
    fun item => (waitsAt item.2).map fun waited => (item.1, waited)
  let holding : List (κ × α) :=
    agents.items.filter fun item => 0 < held resource item.2
  refine ⟨holding.filterMap entry, ?_, ?_, ?_⟩
  · exact List.filter_sublist.filterMap entry
  · -- every holder waits somewhere, so none is lost
    have waitsToo : ∀ item ∈ holding, (entry item).isSome = true := by
      intro item here
      obtain ⟨stored, holds⟩ := List.mem_filter.mp here
      obtain ⟨waited, waits, _⟩ := blocked item.1 item.2 resource
        ((Dict.get?_eq_some_iff _ _ _).mpr stored) (by simpa using holds)
      simp [entry, waits]
    have count : (holding.filterMap entry).length = holding.length := by
      rw [List.length_filterMap_eq_countP, List.countP_eq_length]
      exact waitsToo
    have light : agents.weight (held resource) ≤ holding.length := by
      rw [← List.countP_eq_length_filter]
      apply sum_map_le_countP
      intro item here
      have atMost := once item.1 item.2 resource
        ((Dict.get?_eq_some_iff _ _ _).mpr here)
      rcases Nat.eq_zero_or_pos (held resource item.2) with none | one
      · simp [none]
      · simpa [one] using atMost
    rw [count, ← full other otherValue resource otherStored otherWaits]
    exact light
  · rintro ⟨holder, place⟩ here
    obtain ⟨item, inside, entered⟩ := List.mem_filterMap.mp here
    obtain ⟨stored, holdsOne⟩ := List.mem_filter.mp inside
    obtain ⟨waited, waits, possible⟩ := blocked item.1 item.2 resource
      ((Dict.get?_eq_some_iff _ _ _).mpr stored) (by simpa using holdsOne)
    simp only [entry, waits, Option.map_some, Option.some.injEq,
      Prod.mk.injEq] at entered
    obtain ⟨rfl, rfl⟩ := entered
    exact possible

end Knot

end Tgdcfs.Lib
