import Mathlib.Algebra.BigOperators.Group.List.Basic
import Mathlib.Algebra.GroupWithZero.Nat
import Mathlib.Data.List.Nodup

/-!
# Insertion-ordered dictionaries

The finite maps of the modelled programs iterate in insertion order and keep
the position of a key that is assigned again.  The structure carries the
uniqueness of its keys, so lookups and membership describe the same map.
-/

namespace Tgdcfs.Lib

universe u v

/-- A finite map that remembers the order in which its keys were added. -/
structure Dict (κ : Type u) (α : Type v) where
  items : List (κ × α)
  nodup : (items.map Prod.fst).Nodup
  deriving DecidableEq

namespace Dict

variable {κ : Type u} {α : Type v}

def empty : Dict κ α := ⟨[], by simp⟩

instance : Inhabited (Dict κ α) := ⟨empty⟩

def keys (dict : Dict κ α) : List κ := dict.items.map Prod.fst

def values (dict : Dict κ α) : List α := dict.items.map Prod.snd

def size (dict : Dict κ α) : Nat := dict.items.length

/-- Sum of the weights of the stored values. -/
def weight (measure : α → Nat) (dict : Dict κ α) : Nat :=
  (dict.items.map fun item => measure item.2).sum

variable [DecidableEq κ]

def get? (dict : Dict κ α) (key : κ) : Option α :=
  (dict.items.find? fun item => item.1 = key).map Prod.snd

def contains (dict : Dict κ α) (key : κ) : Bool := (dict.get? key).isSome

theorem get?_eq_some_iff (dict : Dict κ α) (key : κ) (value : α) :
    dict.get? key = some value ↔ (key, value) ∈ dict.items := by
  obtain ⟨items, nodup⟩ := dict
  simp only [get?]
  induction items with
  | nil => simp
  | cons item items induction =>
      obtain ⟨itemKey, itemValue⟩ := item
      simp only [List.map_cons, List.nodup_cons] at nodup
      by_cases same : itemKey = key
      · subst itemKey
        have absent : ∀ other, (key, other) ∉ items := by
          intro other member
          exact nodup.1 (List.mem_map.mpr ⟨(key, other), member, rfl⟩)
        simp [absent, eq_comm]
      · have different : key ≠ itemKey := Ne.symm same
        simpa [List.find?_cons, same, different] using induction nodup.2

theorem get?_eq_none_iff (dict : Dict κ α) (key : κ) :
    dict.get? key = none ↔ key ∉ dict.keys := by
  constructor
  · intro missing member
    obtain ⟨⟨_, value⟩, stored, rfl⟩ := List.mem_map.mp member
    have found := (get?_eq_some_iff dict _ value).mpr stored
    simp [missing] at found
  · intro absent
    cases found : dict.get? key with
    | none => rfl
    | some value =>
        have stored := (get?_eq_some_iff dict key value).mp found
        exact (absent (List.mem_map.mpr ⟨(key, value), stored, rfl⟩)).elim

theorem mem_values_iff (dict : Dict κ α) (value : α) :
    value ∈ dict.values ↔ ∃ key, dict.get? key = some value := by
  simp [values, get?_eq_some_iff]

/-- `del d[key]`, or `d.pop(key, None)` without its result. -/
def erase (dict : Dict κ α) (key : κ) : Dict κ α :=
  ⟨dict.items.filter fun item => item.1 ≠ key,
    dict.nodup.sublist (List.filter_sublist.map _)⟩

theorem mem_items_erase (dict : Dict κ α) (key : κ) (item : κ × α) :
    item ∈ (dict.erase key).items ↔ item ∈ dict.items ∧ item.1 ≠ key := by
  simp [erase]

theorem get?_erase (dict : Dict κ α) (key other : κ) :
    (dict.erase key).get? other =
      if other = key then none else dict.get? other := by
  apply Option.ext
  intro value
  rw [get?_eq_some_iff, mem_items_erase]
  by_cases same : other = key
  · simp [same]
  · simp [same, get?_eq_some_iff]

variable {key : κ} {value : α}

theorem get?_of_erase {dict : Dict κ α} {other : κ}
    (found : (dict.erase key).get? other = some value) :
    dict.get? other = some value := by
  rw [get?_erase] at found
  split at found
  · cases found
  · exact found

theorem items_filter_of_absent (dict : Dict κ α) (key : κ)
    (missing : dict.get? key = none) :
    (dict.items.filter fun item => item.1 ≠ key) = dict.items := by
  rw [List.filter_eq_self]
  intro item member
  have absent := (get?_eq_none_iff dict key).mp missing
  simp only [ne_eq, decide_not, Bool.not_eq_eq_eq_not, Bool.not_true,
    decide_eq_false_iff_not]
  intro same
  exact absent (List.mem_map.mpr ⟨item, member, same⟩)

theorem erase_of_absent (dict : Dict κ α) (key : κ)
    (missing : dict.get? key = none) : dict.erase key = dict := by
  cases dict
  simpa [erase] using items_filter_of_absent _ key missing

private theorem list_weight_filter (measure : α → Nat) (key : κ)
    (items : List (κ × α)) (nodup : (items.map Prod.fst).Nodup)
    (stored : (key, value) ∈ items) :
    ((items.filter fun item => item.1 ≠ key).map
        fun item => measure item.2).sum + measure value =
      (items.map fun item => measure item.2).sum := by
  induction items with
  | nil => simp at stored
  | cons item items induction =>
      obtain ⟨itemKey, itemValue⟩ := item
      simp only [List.map_cons, List.nodup_cons] at nodup
      rcases List.mem_cons.mp stored with here | later
      · cases here
        have kept : (items.filter fun item => item.1 ≠ key) = items := by
          rw [List.filter_eq_self]
          intro item member
          have different : item.1 ≠ key := fun same =>
            nodup.1 (List.mem_map.mpr ⟨item, member, same⟩)
          simpa using different
        simp only [ne_eq, decide_not] at kept
        simp [kept, Nat.add_comm]
      · have different : itemKey ≠ key := fun same =>
          nodup.1 (List.mem_map.mpr ⟨(key, value), later, same.symm⟩)
        have tail := induction nodup.2 later
        simp only [ne_eq, decide_not] at tail
        simp [different, Nat.add_assoc, tail]

theorem weight_erase (measure : α → Nat) (dict : Dict κ α)
    (found : dict.get? key = some value) :
    (dict.erase key).weight measure + measure value =
      dict.weight measure :=
  list_weight_filter measure key dict.items dict.nodup
    ((get?_eq_some_iff dict key value).mp found)

theorem weight_erase_le (measure : α → Nat) (dict : Dict κ α) (key : κ) :
    (dict.erase key).weight measure ≤ dict.weight measure := by
  cases found : dict.get? key with
  | none => exact Nat.le_of_eq (by rw [erase_of_absent dict key found])
  | some value =>
      have balance := weight_erase measure dict found
      omega

theorem size_erase_le (dict : Dict κ α) (key : κ) :
    (dict.erase key).size ≤ dict.size :=
  List.length_filter_le _ _

/-- Replace the value of `key` in place, or append a new item. -/
def assign : List (κ × α) → κ → α → List (κ × α)
  | [], key, value => [(key, value)]
  | item :: items, key, value =>
      if item.1 = key then (key, value) :: items
      else item :: assign items key value

theorem assign_keys_of_mem (items : List (κ × α)) (key : κ) (value : α)
    (member : key ∈ items.map Prod.fst) :
    (assign items key value).map Prod.fst = items.map Prod.fst := by
  induction items with
  | nil => simp at member
  | cons item items induction =>
      by_cases same : item.1 = key
      · simp [assign, same]
      · have later : key ∈ items.map Prod.fst := by
          simpa [Ne.symm same] using member
        simp [assign, same, induction later]

theorem assign_of_not_mem (items : List (κ × α)) (key : κ) (value : α)
    (absent : key ∉ items.map Prod.fst) :
    assign items key value = items ++ [(key, value)] := by
  induction items with
  | nil => rfl
  | cons item items induction =>
      simp only [List.map_cons, List.mem_cons, not_or] at absent
      have different : item.1 ≠ key := fun same => absent.1 same.symm
      simp [assign, different, induction absent.2]

theorem assign_nodup (items : List (κ × α)) (key : κ) (value : α)
    (nodup : (items.map Prod.fst).Nodup) :
    ((assign items key value).map Prod.fst).Nodup := by
  by_cases member : key ∈ items.map Prod.fst
  · rw [assign_keys_of_mem items key value member]
    exact nodup
  · rw [assign_of_not_mem items key value member, List.map_append]
    refine List.Nodup.append nodup (by simp) ?_
    intro other inItems inSingle
    have same : other = key := by simpa using inSingle
    exact member (same ▸ inItems)

/-- `d[key] = value`. -/
def set (dict : Dict κ α) (key : κ) (value : α) : Dict κ α :=
  ⟨assign dict.items key value, assign_nodup _ _ _ dict.nodup⟩

private theorem mem_assign (items : List (κ × α)) (key : κ) (value : α)
    (nodup : (items.map Prod.fst).Nodup) (item : κ × α) :
    item ∈ assign items key value ↔
      item = (key, value) ∨ item ∈ items ∧ item.1 ≠ key := by
  induction items with
  | nil => simp [assign]
  | cons head items induction =>
      simp only [List.map_cons, List.nodup_cons] at nodup
      by_cases same : head.1 = key
      · have others : ∀ other ∈ items, other.1 ≠ key := by
          intro other member equality
          exact nodup.1 (List.mem_map.mpr
            ⟨other, member, equality.trans same.symm⟩)
        simp only [assign, same, if_true, List.mem_cons]
        constructor
        · rintro (rfl | member)
          · exact .inl rfl
          · exact .inr ⟨.inr member, others item member⟩
        · rintro (rfl | ⟨rfl | member, different⟩)
          · exact .inl rfl
          · exact (different same).elim
          · exact .inr member
      · simp only [assign, same, if_false, List.mem_cons,
          induction nodup.2]
        constructor
        · rintro (rfl | rfl | ⟨member, different⟩)
          · exact .inr ⟨.inl rfl, same⟩
          · exact .inl rfl
          · exact .inr ⟨.inr member, different⟩
        · rintro (rfl | ⟨rfl | member, different⟩)
          · exact .inr (.inl rfl)
          · exact .inl rfl
          · exact .inr (.inr ⟨member, different⟩)

theorem mem_items_set (dict : Dict κ α) (key : κ) (value : α)
    (item : κ × α) :
    item ∈ (dict.set key value).items ↔
      item = (key, value) ∨ item ∈ dict.items ∧ item.1 ≠ key :=
  mem_assign dict.items key value dict.nodup item

theorem get?_set (dict : Dict κ α) (key other : κ) (value : α) :
    (dict.set key value).get? other =
      if other = key then some value else dict.get? other := by
  apply Option.ext
  intro found
  rw [get?_eq_some_iff, mem_items_set]
  by_cases same : other = key
  · simp [same, eq_comm]
  · simp [same, get?_eq_some_iff]

theorem weight_set_of_absent (measure : α → Nat) (dict : Dict κ α) (value : α)
    (missing : dict.get? key = none) :
    (dict.set key value).weight measure =
      dict.weight measure + measure value := by
  have absent : key ∉ dict.items.map Prod.fst :=
    (get?_eq_none_iff dict key).mp missing
  simp [weight, set, assign_of_not_mem _ _ value absent]

theorem size_set_of_absent (dict : Dict κ α) (value : α)
    (missing : dict.get? key = none) :
    (dict.set key value).size = dict.size + 1 := by
  have absent : key ∉ dict.items.map Prod.fst :=
    (get?_eq_none_iff dict key).mp missing
  simp [size, set, assign_of_not_mem _ _ value absent]

theorem values_set_of_absent (dict : Dict κ α) (value : α)
    (missing : dict.get? key = none) :
    (dict.set key value).values = dict.values ++ [value] := by
  have absent : key ∉ dict.items.map Prod.fst :=
    (get?_eq_none_iff dict key).mp missing
  simp [values, set, assign_of_not_mem _ _ value absent]

/-- Keep the keys that pass the test. -/
def filterKeys (dict : Dict κ α) (test : κ → Bool) : Dict κ α :=
  ⟨dict.items.filter fun item => test item.1,
    dict.nodup.sublist (List.filter_sublist.map Prod.fst)⟩

theorem get?_filterKeys (dict : Dict κ α) (test : κ → Bool) (key : κ) :
    (dict.filterKeys test).get? key =
      if test key then dict.get? key else none := by
  apply Option.ext
  intro found
  rw [get?_eq_some_iff]
  simp only [filterKeys, List.mem_filter]
  by_cases kept : test key
  · simp [kept, get?_eq_some_iff]
  · simp [kept]

/-- Mutate the value stored under `key`, if there is one. -/
def modify (dict : Dict κ α) (key : κ) (change : α → α) : Dict κ α :=
  ⟨dict.items.map fun item =>
      if item.1 = key then (item.1, change item.2) else item, by
    have sameKeys :
        (dict.items.map fun item =>
          if item.1 = key then (item.1, change item.2) else item).map
            Prod.fst = dict.items.map Prod.fst := by
      rw [List.map_map]
      apply List.map_congr_left
      intro item _
      by_cases same : item.1 = key <;> simp [same]
    rw [sameKeys]
    exact dict.nodup⟩

theorem get?_modify (dict : Dict κ α) (key other : κ) (change : α → α) :
    (dict.modify key change).get? other =
      if other = key then (dict.get? other).map change
      else dict.get? other := by
  apply Option.ext
  intro found
  rw [get?_eq_some_iff]
  simp only [modify, List.mem_map]
  by_cases same : other = key
  · subst other
    simp only [if_true, Option.map_eq_some_iff, get?_eq_some_iff]
    constructor
    · rintro ⟨⟨itemKey, itemValue⟩, member, equality⟩
      by_cases here : itemKey = key
      · subst itemKey
        simp only [if_true, Prod.mk.injEq, true_and] at equality
        exact ⟨itemValue, member, equality⟩
      · simp only [here, if_false, Prod.mk.injEq] at equality
        exact equality.1.elim
    · rintro ⟨value, member, rfl⟩
      exact ⟨(key, value), member, by simp⟩
  · simp only [same, if_false, get?_eq_some_iff]
    constructor
    · rintro ⟨⟨itemKey, itemValue⟩, member, equality⟩
      by_cases here : itemKey = key
      · simp only [here, if_true, Prod.mk.injEq] at equality
        exact (same equality.1.symm).elim
      · simp only [here, if_false] at equality
        exact equality ▸ member
    · intro member
      exact ⟨(other, found), member, by simp [same]⟩

theorem get?_none_of_modify {dict : Dict κ α} {key other : κ}
    {change : α → α}
    (missing : (dict.modify key change).get? other = none) :
    dict.get? other = none := by
  rw [get?_modify] at missing
  split at missing
  · exact Option.map_eq_none_iff.mp missing
  · exact missing

theorem get?_none_of_set {dict : Dict κ α} {key other : κ} {value : α}
    (missing : (dict.set key value).get? other = none) :
    dict.get? other = none := by
  rw [get?_set] at missing
  split at missing
  · cases missing
  · exact missing

theorem size_modify (dict : Dict κ α) (key : κ) (change : α → α) :
    (dict.modify key change).size = dict.size := by
  simp [size, modify]

private theorem list_weight_modify (measure : α → Nat) (key : κ)
    (change : α → α) (items : List (κ × α))
    (nodup : (items.map Prod.fst).Nodup) (stored : (key, value) ∈ items) :
    ((items.map fun item =>
        if item.1 = key then (item.1, change item.2) else item).map
          fun item => measure item.2).sum + measure value =
      (items.map fun item => measure item.2).sum +
        measure (change value) := by
  induction items with
  | nil => simp at stored
  | cons item items induction =>
      obtain ⟨itemKey, itemValue⟩ := item
      simp only [List.map_cons, List.nodup_cons] at nodup
      rcases List.mem_cons.mp stored with here | later
      · cases here
        have kept : (items.map fun item =>
            if item.1 = key then (item.1, change item.2) else item) =
              items := by
          conv_rhs => rw [← List.map_id items]
          apply List.map_congr_left
          intro item member
          have different : item.1 ≠ key := fun same =>
            nodup.1 (List.mem_map.mpr ⟨item, member, same⟩)
          simp [different]
        simp only [List.map_cons, if_true, kept, List.sum_cons]
        omega
      · have different : itemKey ≠ key := fun same =>
          nodup.1 (List.mem_map.mpr ⟨(key, value), later, same.symm⟩)
        have tail := induction nodup.2 later
        simp only [List.map_cons, different, if_false, List.sum_cons]
        omega

theorem weight_modify (measure : α → Nat) (dict : Dict κ α) (change : α → α)
    (found : dict.get? key = some value) :
    (dict.modify key change).weight measure + measure value =
      dict.weight measure + measure (change value) :=
  list_weight_modify measure key change dict.items dict.nodup
    ((get?_eq_some_iff dict key value).mp found)

theorem modify_of_absent (dict : Dict κ α) (key : κ) (change : α → α)
    (missing : dict.get? key = none) : dict.modify key change = dict := by
  have absent := (get?_eq_none_iff dict key).mp missing
  obtain ⟨items, nodup⟩ := dict
  have unchanged : (items.map fun item =>
      if item.1 = key then (item.1, change item.2) else item) = items := by
    conv_rhs => rw [← List.map_id items]
    apply List.map_congr_left
    intro item member
    have different : item.1 ≠ key := fun same =>
      absent (List.mem_map.mpr ⟨item, member, same⟩)
    simp [different]
  simp only [modify, unchanged]

/-- A change that never makes a value heavier never makes the map heavier. -/
theorem weight_modify_le (measure : α → Nat) (dict : Dict κ α) (key : κ)
    (change : α → α)
    (lighter : ∀ value, dict.get? key = some value →
      measure (change value) ≤ measure value) :
    (dict.modify key change).weight measure ≤ dict.weight measure := by
  cases found : dict.get? key with
  | none => exact Nat.le_of_eq (by rw [modify_of_absent dict key change found])
  | some value =>
      have balance := weight_modify measure dict change found
      have bound := lighter value found
      omega

theorem modify_modify (dict : Dict κ α) (key : κ) (first second : α → α) :
    (dict.modify key first).modify key second =
      dict.modify key fun value => second (first value) := by
  simp only [modify, List.map_map, mk.injEq]
  apply List.map_congr_left
  intro item _
  by_cases same : item.1 = key <;> simp [same]

variable {β : Type*}

theorem size_le_of_get? (fewer : Dict κ β) (dict : Dict κ α)
    (known : ∀ key value, fewer.get? key = some value →
      ∃ other, dict.get? key = some other) : fewer.size ≤ dict.size := by
  have sizes : fewer.keys.length ≤ dict.keys.length := by
    apply List.Subperm.length_le
    apply List.subperm_of_subset fewer.nodup
    intro key member
    obtain ⟨⟨itemKey, value⟩, stored, rfl⟩ := List.mem_map.mp member
    obtain ⟨other, found⟩ :=
      known itemKey value ((get?_eq_some_iff _ _ _).mpr stored)
    exact List.mem_map.mpr ⟨(itemKey, other),
      (get?_eq_some_iff _ _ _).mp found, rfl⟩
  simpa [keys, size] using sizes

/-- A map weighs no more than one that is at least as heavy under each of
its keys. -/
theorem weight_le_of_get? (measure : α → Nat) (heavier : β → Nat)
    (lighter : Dict κ α) (dict : Dict κ β)
    (bounded : ∀ key value, lighter.get? key = some value →
      measure value ≤ ((dict.get? key).map heavier).getD 0) :
    lighter.weight measure ≤ dict.weight heavier := by
  obtain ⟨items, nodup⟩ := lighter
  induction items generalizing dict with
  | nil => exact Nat.zero_le _
  | cons item items induction =>
      obtain ⟨key, value⟩ := item
      have distinct := nodup
      simp only [List.map_cons, List.nodup_cons] at distinct
      have rest : weight measure ⟨items, distinct.2⟩ ≤
          (dict.erase key).weight heavier := by
        apply induction
        intro other stored found
        have member := (get?_eq_some_iff _ _ _).mp found
        have different : other ≠ key := fun same =>
          distinct.1 (List.mem_map.mpr ⟨(other, stored), member, same⟩)
        rw [get?_erase, if_neg different]
        exact bounded other stored ((get?_eq_some_iff _ _ _).mpr
          (List.mem_cons_of_mem _ member))
      have first := bounded key value ((get?_eq_some_iff _ _ _).mpr
        List.mem_cons_self)
      have split : weight measure ⟨(key, value) :: items, nodup⟩ =
          measure value + weight measure ⟨items, distinct.2⟩ := rfl
      rw [split]
      cases found : dict.get? key with
      | none =>
          rw [found, Option.map_none, Option.getD_none] at first
          rw [erase_of_absent dict key found] at rest
          omega
      | some stored =>
          have balance := weight_erase heavier dict found
          rw [found, Option.map_some, Option.getD_some] at first
          omega

theorem erase_modify (dict : Dict κ α) (key : κ) (change : α → α) :
    (dict.modify key change).erase key = dict.erase key := by
  obtain ⟨items, nodup⟩ := dict
  simp only [erase, modify, mk.injEq]
  clear nodup
  induction items with
  | nil => rfl
  | cons item items induction =>
      by_cases same : item.1 = key
      · simpa [same] using induction
      · simpa [same] using induction

/-- Change every value in place. -/
def mapValues {β : Type*} (dict : Dict κ α) (change : α → β) : Dict κ β :=
  ⟨dict.items.map fun item => (item.1, change item.2), by
    rw [List.map_map]
    exact dict.nodup⟩

omit [DecidableEq κ] in
theorem values_mapValues (dict : Dict κ α) (change : α → β) :
    (dict.mapValues change).values = dict.values.map change := by
  simp [values, mapValues]

omit [DecidableEq κ] in
theorem mapValues_eq_self {dict : Dict κ α} {change : α → α}
    (fixed : ∀ value ∈ dict.values, change value = value) :
    dict.mapValues change = dict := by
  obtain ⟨items, nodup⟩ := dict
  have same : items.map (fun item => (item.1, change item.2)) = items := by
    conv_rhs => rw [← List.map_id items]
    apply List.map_congr_left
    intro item member
    have here := fixed item.2 (List.mem_map.mpr ⟨item, member, rfl⟩)
    rw [here]
    rfl
  simp only [mapValues, same]

theorem get?_mapValues (dict : Dict κ α) (change : α → β) (key : κ) :
    (dict.mapValues change).get? key = (dict.get? key).map change := by
  unfold get? mapValues
  rw [List.find?_map, Option.map_map, Option.map_map]
  rfl

/-- Change every value in place, with its key at hand. -/
def mapItems {β : Type*} (dict : Dict κ α) (change : κ → α → β) : Dict κ β :=
  ⟨dict.items.map fun item => (item.1, change item.1 item.2), by
    rw [List.map_map]
    exact dict.nodup⟩

theorem get?_mapItems (dict : Dict κ α) (change : κ → α → β) (key : κ) :
    (dict.mapItems change).get? key = (dict.get? key).map (change key) := by
  apply Option.ext
  intro found
  rw [get?_eq_some_iff, Option.map_eq_some_iff, mapItems, List.mem_map]
  constructor
  · rintro ⟨item, member, same⟩
    cases same
    exact ⟨item.2, (get?_eq_some_iff dict item.1 item.2).mpr member, rfl⟩
  · rintro ⟨value, stored, rfl⟩
    exact ⟨(key, value), (get?_eq_some_iff dict key value).mp stored, rfl⟩

/-- Keep the values that `select` has an answer for, changed into it. -/
def filterMap {β : Type*} (dict : Dict κ α) (select : α → Option β) :
    Dict κ β :=
  ⟨dict.items.filterMap fun item =>
      (select item.2).map fun value => (item.1, value), by
    have keysLeft : (dict.items.filterMap fun item =>
        (select item.2).map fun value => (item.1, value)).map Prod.fst =
          (dict.items.filter fun item => (select item.2).isSome).map
            Prod.fst := by
      induction dict.items with
      | nil => rfl
      | cons item items induction =>
          cases selected : select item.2 <;> simp [selected, induction]
    rw [keysLeft]
    exact dict.nodup.sublist (List.filter_sublist.map Prod.fst)⟩

theorem mem_items_filterMap (dict : Dict κ α) (select : α → Option β) (key : κ)
    (value : β) :
    (key, value) ∈ (dict.filterMap select).items ↔
      ∃ old, dict.get? key = some old ∧ select old = some value := by
  simp only [filterMap, List.mem_filterMap, Option.map_eq_some_iff,
    Prod.mk.injEq, get?_eq_some_iff]
  constructor
  · rintro ⟨⟨itemKey, old⟩, member, chosen, selected, rfl, rfl⟩
    exact ⟨old, member, selected⟩
  · rintro ⟨old, member, selected⟩
    exact ⟨(key, old), member, value, selected, rfl, rfl⟩

theorem exists_of_weight_pos (measure : α → Nat) (dict : Dict κ α)
    (heavy : 0 < dict.weight measure) :
    ∃ key value, dict.get? key = some value ∧ 0 < measure value := by
  by_contra light
  simp only [not_exists, not_and, Nat.not_lt, Nat.le_zero] at light
  have weightless : dict.weight measure = 0 := by
    apply List.sum_eq_zero
    intro weight member
    obtain ⟨item, inside, rfl⟩ := List.mem_map.mp member
    exact light item.1 item.2 ((get?_eq_some_iff _ _ _).mpr inside)
  omega

/-- `d.setdefault(key, value)`. -/
def setDefault (dict : Dict κ α) (key : κ) (value : α) : Dict κ α :=
  if dict.contains key then dict else dict.set key value

theorem get?_setDefault (dict : Dict κ α) (key other : κ) (value : α) :
    (dict.setDefault key value).get? other =
      if other = key then some ((dict.get? key).getD value)
      else dict.get? other := by
  unfold setDefault contains
  split
  · rename_i found
    obtain ⟨old, here⟩ := Option.isSome_iff_exists.mp found
    split
    · rename_i same
      rw [same, here, Option.getD_some]
    · rfl
  · rename_i missing
    have absent : dict.get? key = none := by simpa using missing
    rw [get?_set, absent, Option.getD_none]

/-- The dictionary of a list of assignments, made from left to right. -/
def ofList (items : List (κ × α)) : Dict κ α :=
  items.foldl (fun dict item => dict.set item.1 item.2) empty

theorem assign_map {β : Type*} (items : List (κ × α)) (key : κ) (value : α)
    (change : α → β) :
    assign (items.map fun item => (item.1, change item.2)) key
        (change value) =
      (assign items key value).map fun item => (item.1, change item.2) := by
  induction items with
  | nil => rfl
  | cons item items induction =>
      by_cases same : item.1 = key
      · simp [assign, same]
      · simp [assign, same, induction]

theorem set_mapValues {β : Type*} (dict : Dict κ α) (key : κ) (value : α)
    (change : α → β) :
    (dict.mapValues change).set key (change value) =
      (dict.set key value).mapValues change := by
  unfold set mapValues
  simp only [assign_map]

/-- Changing the values that are assigned changes those of the dictionary. -/
theorem ofList_map {β : Type*} (items : List (κ × α)) (change : α → β) :
    ofList (items.map fun item => (item.1, change item.2)) =
      (ofList items).mapValues change := by
  have folds : ∀ dict : Dict κ α,
      (items.map fun item => (item.1, change item.2)).foldl
          (fun dict item => dict.set item.1 item.2) (dict.mapValues change) =
        (items.foldl (fun dict item => dict.set item.1 item.2)
          dict).mapValues change := by
    induction items with
    | nil => exact fun _ => rfl
    | cons item items induction =>
        intro dict
        rw [List.map_cons, List.foldl_cons, List.foldl_cons, set_mapValues]
        exact induction (dict.set item.1 item.2)
  exact folds empty

private theorem foldl_set_items (items : List (κ × α)) (dict : Dict κ α)
    (nodup : (items.map Prod.fst).Nodup)
    (apart : ∀ item ∈ items, item.1 ∉ dict.items.map Prod.fst) :
    (items.foldl (fun dict item => dict.set item.1 item.2) dict).items =
      dict.items ++ items := by
  induction items generalizing dict with
  | nil => simp
  | cons item items induction =>
      simp only [List.map_cons, List.nodup_cons] at nodup
      have appended : (dict.set item.1 item.2).items = dict.items ++ [item] :=
        assign_of_not_mem _ _ _ (apart item (by simp))
      rw [List.foldl_cons, induction _ nodup.2, appended, List.append_assoc,
        List.singleton_append]
      intro other member repeated
      rw [appended, List.map_append, List.mem_append] at repeated
      rcases repeated with old | same
      · exact apart other (by simp [member]) old
      · have equal : other.1 = item.1 := by simpa using same
        exact nodup.1 (List.mem_map.mpr ⟨other, member, equal⟩)

theorem ofList_items (items : List (κ × α))
    (nodup : (items.map Prod.fst).Nodup) : (ofList items).items = items := by
  rw [ofList, foldl_set_items items empty nodup (by simp [empty])]
  simp [empty]

/-- Listing a dictionary and building it again gives it back. -/
theorem ofList_self (dict : Dict κ α) : ofList dict.items = dict := by
  obtain ⟨items, nodup⟩ := dict
  have same := ofList_items items nodup
  cases rebuilt : ofList items with
  | mk others distinct =>
      rw [rebuilt] at same
      cases same
      rfl

theorem mem_of_mem_ofList {items : List (κ × α)} {item : κ × α}
    (found : item ∈ (ofList items).items) : item ∈ items := by
  have assigned : ∀ (items : List (κ × α)) (dict : Dict κ α),
      item ∈ (items.foldl (fun dict item => dict.set item.1 item.2)
        dict).items → item ∈ dict.items ∨ item ∈ items := by
    intro items
    induction items with
    | nil =>
        intro dict member
        exact .inl member
    | cons head items induction =>
        intro dict member
        rcases induction _ member with early | late
        · rcases (mem_items_set _ _ _ _).mp early with rfl | ⟨old, _⟩
          · exact .inr List.mem_cons_self
          · exact .inl old
        · exact .inr (List.mem_cons_of_mem _ late)
  rcases assigned items empty found with impossible | member
  · cases impossible
  · exact member

theorem get?_ofList_none {items : List (κ × α)}
    (missing : (ofList items).get? key = none) :
    ∀ item ∈ items, item.1 ≠ key := by
  have kept : ∀ (items : List (κ × α)) (dict : Dict κ α),
      (items.foldl (fun dict item => dict.set item.1 item.2) dict).get? key =
        none → dict.get? key = none ∧ ∀ item ∈ items, item.1 ≠ key := by
    intro items
    induction items with
    | nil =>
        intro dict missing
        exact ⟨missing, fun _ absurd => by cases absurd⟩
    | cons head items induction =>
        intro dict missing
        obtain ⟨before, later⟩ := induction _ missing
        rw [get?_set] at before
        by_cases same : key = head.1
        · rw [if_pos same] at before
          cases before
        · rw [if_neg same] at before
          refine ⟨before, ?_⟩
          intro item member
          rcases List.mem_cons.mp member with rfl | behind
          · exact Ne.symm same
          · exact later item behind
  exact (kept items empty missing).2

/-- Assigning the values of a function, whatever is repeated. -/
theorem get?_ofList_map (keys : List κ) (value : κ → α) (member : key ∈ keys) :
    (ofList (keys.map fun key => (key, value key))).get? key =
      some (value key) := by
  have assigned : ∀ (keys : List κ) (dict : Dict κ α),
      key ∈ keys ∨ dict.get? key = some (value key) →
      ((keys.map fun key => (key, value key)).foldl
        (fun dict item => dict.set item.1 item.2) dict).get? key =
          some (value key) := by
    intro keys
    induction keys with
    | nil =>
        intro dict present
        rcases present with impossible | there
        · cases impossible
        · exact there
    | cons head keys induction =>
        intro dict present
        apply induction
        rw [get?_set]
        by_cases same : key = head
        · right
          rw [if_pos same, same]
        · rw [if_neg same]
          rcases present with listed | there
          · exact .inl ((List.mem_cons.mp listed).resolve_left same)
          · exact .inr there
  exact assigned keys empty (.inl member)

/-- Assigning several keys: what is found under a key was assigned to it, or
the key was left alone. -/
theorem get?_foldl_set (items : List (κ × α)) (dict : Dict κ α) (key : κ) :
    (∃ value, (key, value) ∈ items ∧
      (items.foldl (fun dict item => dict.set item.1 item.2) dict).get? key =
        some value) ∨
    (key ∉ items.map Prod.fst ∧
      (items.foldl (fun dict item => dict.set item.1 item.2) dict).get? key =
        dict.get? key) := by
  induction items generalizing dict with
  | nil => exact .inr ⟨by simp, rfl⟩
  | cons item items induction =>
      rw [List.foldl_cons]
      rcases induction (dict.set item.1 item.2) with
        ⟨value, later, found⟩ | ⟨absent, same⟩
      · exact .inl ⟨value, List.mem_cons_of_mem _ later, found⟩
      · rw [get?_set] at same
        by_cases here : key = item.1
        · left
          rw [if_pos here] at same
          refine ⟨item.2, ?_, same⟩
          rw [here]
          exact List.mem_cons_self
        · right
          rw [if_neg here] at same
          refine ⟨?_, same⟩
          rw [List.map_cons, List.mem_cons]
          rintro (first | later)
          · exact here first
          · exact absent later

end Dict

end Tgdcfs.Lib
