import Mathlib.Data.List.Dedup
import Mathlib.Data.List.Induction
import Mathlib.Data.List.Nodup

/-!
# Recency lists

A cache that evicts the least recently used entry is a list of entries in the
order of their last use.  Bounding it cuts the list, and cutting it after
every insertion is the same as cutting it once at the end.
-/

namespace Tgdcfs.Lib.Recency

universe u v

variable {κ : Type u} {α : Type v} [DecidableEq κ]

def keys (items : List (κ × α)) : List κ := items.map Prod.fst

/-- Store an entry as the most recent one. -/
def put (key : κ) (value : α) (items : List (κ × α)) : List (κ × α) :=
  (key, value) :: items.filter fun item => item.1 ≠ key

/-- Look an entry up, which makes it the most recent one. -/
def touch (key : κ) (items : List (κ × α)) : List (κ × α) :=
  match items.lookup key with
  | none => items
  | some value => put key value items

def putAll (entries : List (κ × α)) (items : List (κ × α)) : List (κ × α) :=
  entries.foldl (fun items entry => put entry.1 entry.2 items) items

def touchAll (touched : List κ) (items : List (κ × α)) : List (κ × α) :=
  touched.foldl (fun items key => touch key items) items

/-- Store entries in a cache that keeps `capacity` of them. -/
def putAllWithin (capacity : Nat) (entries : List (κ × α))
    (items : List (κ × α)) : List (κ × α) :=
  entries.foldl (fun items entry =>
    (put entry.1 entry.2 items).take capacity) items

/-- The keys in the order of their last use, after using `used`. -/
def recent (used old : List κ) : List κ :=
  used.dedup.reverse ++ old.filter (· ∉ used)

variable {items : List (κ × α)}

theorem lookup_eq_none_iff {key : κ} :
    items.lookup key = none ↔ key ∉ keys items := by
  induction items with
  | nil => simp [keys]
  | cons item items induction =>
      obtain ⟨itemKey, value⟩ := item
      rw [List.lookup_cons, keys, List.map_cons, List.mem_cons]
      by_cases same : key = itemKey
      · simp [same]
      · rw [beq_false_of_ne same]
        simpa [same, keys] using induction

theorem lookup_filter_ne {key other : κ} (different : other ≠ key) :
    (items.filter fun item => item.1 ≠ key).lookup other =
      items.lookup other := by
  induction items with
  | nil => rfl
  | cons item items induction =>
      obtain ⟨itemKey, value⟩ := item
      by_cases same : itemKey = key
      · subst itemKey
        rw [List.filter_cons_of_neg (by simp), induction, List.lookup_cons,
          beq_false_of_ne different]
      · rw [List.filter_cons_of_pos (by simpa using same), List.lookup_cons,
          List.lookup_cons, induction]

theorem lookup_put (items : List (κ × α)) (key : κ) (value : α)
    (other : κ) :
    (put key value items).lookup other =
      if other = key then some value else items.lookup other := by
  rw [put, List.lookup_cons]
  split
  · rename_i same
    rw [if_pos (eq_of_beq same)]
  · rename_i different
    have unequal : other ≠ key := by simpa using different
    rw [if_neg unequal, lookup_filter_ne unequal]

theorem lookup_touch (items : List (κ × α)) (key other : κ) :
    (touch key items).lookup other = items.lookup other := by
  unfold touch
  split
  · rfl
  · rename_i value found
    rw [lookup_put]
    split
    · rename_i same
      rw [same, found]
    · rfl

theorem lookup_touchAll (touched : List κ) (items : List (κ × α))
    (other : κ) :
    (touchAll touched items).lookup other = items.lookup other := by
  induction touched generalizing items with
  | nil => rfl
  | cons key touched induction =>
      exact (induction (touch key items)).trans (lookup_touch items key other)

theorem lookup_putAll {entries : List (κ × α)} {content : κ → α}
    (agree : ∀ entry ∈ entries, entry.2 = content entry.1)
    (items : List (κ × α)) (other : κ) :
    (putAll entries items).lookup other =
      if other ∈ keys entries then some (content other)
      else items.lookup other := by
  induction entries generalizing items with
  | nil => rfl
  | cons entry entries induction =>
      have later := induction
        (fun entry member => agree entry (List.mem_cons_of_mem _ member))
        (put entry.1 entry.2 items)
      have first := agree entry List.mem_cons_self
      change (putAll entries (put entry.1 entry.2 items)).lookup other = _
      rw [later, lookup_put, keys, keys, List.map_cons, first]
      by_cases again : other ∈ entries.map Prod.fst
      · rw [if_pos again, if_pos (List.mem_cons_of_mem _ again)]
      · rw [if_neg again]
        by_cases same : other = entry.1
        · rw [if_pos same, if_pos (same ▸ List.mem_cons_self), same]
        · rw [if_neg same, if_neg (by simp [same, again])]

omit [DecidableEq κ] in
theorem keys_filter (items : List (κ × α)) (test : κ → Bool) :
    keys (items.filter fun item => test item.1) =
      (keys items).filter test := by
  rw [keys, keys, List.filter_map]
  rfl

theorem keys_put (key : κ) (value : α) (items : List (κ × α)) :
    keys (put key value items) = key :: (keys items).filter (· ≠ key) := by
  rw [put, keys, List.map_cons]
  exact congrArg _ (keys_filter items fun other => other ≠ key)

theorem recent_cons (key : κ) (used old : List κ) :
    recent used (key :: old.filter (· ≠ key)) = recent (key :: used) old := by
  unfold recent
  by_cases again : key ∈ used
  · rw [List.dedup_cons_of_mem again, List.filter_cons_of_neg (by simpa),
      List.filter_filter]
    congr 1
    apply List.filter_congr
    intro other _
    by_cases same : other = key
    · simp [same, again]
    · simp [same]
  · rw [List.dedup_cons_of_notMem again, List.filter_cons_of_pos (by simpa),
      List.reverse_cons, List.append_assoc, List.filter_filter]
    congr 2
    apply List.filter_congr
    intro other _
    simp [Bool.and_comm]

theorem keys_putAll (entries items : List (κ × α)) :
    keys (putAll entries items) = recent (keys entries) (keys items) := by
  induction entries generalizing items with
  | nil => simp [putAll, recent, keys]
  | cons entry entries induction =>
      change keys (putAll entries (put entry.1 entry.2 items)) = _
      rw [induction, keys_put, recent_cons]
      rfl

theorem keys_touchAll (touched : List κ) (items : List (κ × α)) :
    keys (touchAll touched items) =
      recent (touched.filter (· ∈ keys items)) (keys items) := by
  induction touched generalizing items with
  | nil => simp [touchAll, recent]
  | cons key touched induction =>
      change keys (touchAll touched (touch key items)) = _
      rw [induction]
      unfold touch
      split
      · rename_i missing
        rw [List.filter_cons_of_neg (by
          simpa using lookup_eq_none_iff.mp missing)]
      · rename_i value found
        have member : key ∈ keys items := by
          by_contra absent
          rw [lookup_eq_none_iff.mpr absent] at found
          cases found
        rw [List.filter_cons_of_pos (by simpa using member), keys_put,
          ← recent_cons]
        congr 1
        apply List.filter_congr
        intro other _
        by_cases same : other = key
        · simp [same, member]
        · simp [same]

theorem recent_nodup {used old : List κ} (nodup : old.Nodup) :
    (recent used old).Nodup := by
  rw [recent, List.nodup_append]
  refine ⟨List.nodup_reverse.mpr (List.nodup_dedup used),
    nodup.filter _, ?_⟩
  intro first used_ second old_ same
  rw [List.mem_reverse, List.mem_dedup] at used_
  have unused := (List.mem_filter.mp old_).2
  rw [← same] at unused
  simp [used_] at unused

theorem mem_recent {used old : List κ} {key : κ} :
    key ∈ recent used old ↔ key ∈ used ∨ key ∈ old := by
  rw [recent, List.mem_append, List.mem_reverse, List.mem_dedup,
    List.mem_filter]
  by_cases member : key ∈ used <;> simp [member]

theorem touch_keys_perm (nodup : (keys items).Nodup) (key : κ) :
    (keys (touch key items)).Perm (keys items) := by
  have touched := keys_touchAll [key] items
  change keys (touch key items) = _ at touched
  rw [touched, List.perm_ext_iff_of_nodup (recent_nodup nodup) nodup]
  intro other
  rw [mem_recent, List.mem_filter]
  constructor
  · rintro (⟨_, member⟩ | member)
    · exact of_decide_eq_true member
    · exact member
  · exact .inr

omit [DecidableEq κ] in
/-- Cutting a list before one element is removed from it keeps all but the
last one of what is left. -/
theorem take_filter_take {test : κ × α → Bool} {count : Nat}
    (once : (items.filter fun item => !test item).length ≤ 1) :
    ((items.take (count + 1)).filter test).take count =
      (items.filter test).take count := by
  induction items generalizing count with
  | nil => simp
  | cons item items induction =>
      rw [List.take_succ_cons]
      cases tested : test item with
      | true =>
          rw [List.filter_cons_of_neg (by simp [tested])] at once
          rw [List.filter_cons_of_pos tested,
            List.filter_cons_of_pos tested]
          cases count with
          | zero => rfl
          | succ count =>
              rw [List.take_succ_cons, List.take_succ_cons, induction once]
      | false =>
          rw [List.filter_cons_of_pos (by simp [tested]),
            List.length_cons] at once
          have rest : ∀ item ∈ items, test item = true := by
            intro other member
            have empty : (items.filter fun item => !test item) = [] :=
              List.length_eq_zero_iff.mp (by omega)
            simpa using List.filter_eq_nil_iff.mp empty other member
          rw [List.filter_cons_of_neg (by simp [tested]),
            List.filter_cons_of_neg (by simp [tested]),
            List.filter_eq_self.mpr rest, List.filter_eq_self.mpr
              fun item member => rest item (List.mem_of_mem_take member),
            List.take_take, Nat.min_self]

theorem filter_key_length (nodup : (keys items).Nodup) (key : κ) :
    (items.filter fun item => !decide (item.1 ≠ key)).length ≤ 1 := by
  induction items with
  | nil => simp
  | cons item items induction =>
      rw [keys, List.map_cons, List.nodup_cons] at nodup
      by_cases same : item.1 = key
      · have rest : (items.filter fun item => !decide (item.1 ≠ key)) =
            [] := by
          rw [List.filter_eq_nil_iff]
          intro other member equal
          apply nodup.1
          rw [same]
          exact List.mem_map.mpr ⟨other, member, by simpa using equal⟩
        rw [List.filter_cons_of_pos (by simp [same]), rest]
        exact Nat.le_refl 1
      · rw [List.filter_cons_of_neg (by simp [same])]
        exact induction nodup.2

theorem take_put_take {capacity : Nat} (positive : 1 ≤ capacity)
    (nodup : (keys items).Nodup) (key : κ) (value : α) :
    (put key value (items.take capacity)).take capacity =
      (put key value items).take capacity := by
  obtain ⟨count, rfl⟩ : ∃ count, capacity = count + 1 :=
    ⟨capacity - 1, by omega⟩
  rw [put, put, List.take_succ_cons, List.take_succ_cons,
    take_filter_take (filter_key_length nodup key)]

theorem keys_putAll_nodup (entries : List (κ × α)) (nodup : (keys items).Nodup) :
    (keys (putAll entries items)).Nodup := by
  rw [keys_putAll]
  exact recent_nodup nodup

/-- A bounded cache is the beginning of the unbounded one. -/
theorem putAllWithin_eq {capacity : Nat} (positive : 1 ≤ capacity)
    (entries : List (κ × α)) (nodup : (keys items).Nodup) :
    putAllWithin capacity entries (items.take capacity) =
      (putAll entries items).take capacity := by
  induction entries generalizing items with
  | nil => rfl
  | cons entry entries induction =>
      have stored : (keys (put entry.1 entry.2 items)).Nodup :=
        keys_putAll_nodup [entry] nodup
      change putAllWithin capacity entries
        ((put entry.1 entry.2 (items.take capacity)).take capacity) = _
      rw [take_put_take positive nodup]
      exact induction stored

theorem lookup_take (count : Nat) (key : κ) :
    (items.take count).lookup key =
      if key ∈ (keys items).take count then items.lookup key else none := by
  split
  · rename_i member
    induction items generalizing count with
    | nil => simp
    | cons item items induction =>
        cases count with
        | zero => simp at member
        | succ count =>
            rw [List.take_succ_cons, List.lookup_cons, List.lookup_cons]
            split
            · rfl
            · rename_i different
              rw [keys, List.map_cons, List.take_succ_cons,
                List.mem_cons] at member
              rcases member with same | later
              · simp [same] at different
              · exact induction count later
  · rename_i absent
    rw [lookup_eq_none_iff, keys, List.map_take]
    exact absent

omit [DecidableEq κ] in
/-- The wanted keys of a list lie in its beginning when that reaches the last
one of them. -/
theorem wanted_in_take_iff (wanted : κ → Prop) [DecidablePred wanted]
    {first rest : List κ} (count : Nat) (nodup : (first ++ rest).Nodup) :
    (∀ key ∈ first, wanted key → key ∈ (first ++ rest).take count) ↔
      (first.reverse.dropWhile fun key => ¬wanted key).length ≤ count := by
  induction first using List.reverseRecOn generalizing rest with
  | nil => simp
  | append_singleton first last induction =>
      rw [List.append_assoc, List.singleton_append] at nodup ⊢
      rw [List.reverse_append, List.reverse_singleton,
        List.singleton_append]
      by_cases needed : wanted last
      · rw [List.dropWhile_cons_of_neg (by simpa using needed),
          List.length_cons, List.length_reverse]
        constructor
        · intro found
          have inside := found last (by simp) needed
          apply Nat.lt_of_not_le
          intro short
          rw [List.take_append_of_le_length short] at inside
          have earlier := List.mem_of_mem_take inside
          exact (List.nodup_append.mp nodup).2.2 last earlier last
            List.mem_cons_self rfl
        · intro reached key member _
          rw [List.append_cons, List.take_append,
            List.take_of_length_le (by simpa using reached)]
          exact List.mem_append_left _ member
      · rw [List.dropWhile_cons_of_pos (by simpa using needed),
          ← induction nodup]
        constructor
        · intro found key member wantedKey
          exact found key (List.mem_append_left _ member) wantedKey
        · intro found key member wantedKey
          rcases List.mem_append.mp member with earlier | isLast
          · exact found key earlier wantedKey
          · rw [List.mem_singleton.mp isLast] at wantedKey
            exact (needed wantedKey).elim

/-- A cache of at most `capacity` entries. -/
structure Bounded (κ : Type u) (α : Type v) (capacity : Nat) where
  items : List (κ × α)
  nodup : (keys items).Nodup
  bounded : items.length ≤ capacity

namespace Bounded

variable {capacity : Nat}

def empty : Bounded κ α capacity :=
  ⟨[], List.nodup_nil, Nat.zero_le _⟩

def touch (key : κ) (cache : Bounded κ α capacity) :
    Bounded κ α capacity :=
  have perm := touch_keys_perm cache.nodup key
  { items := Recency.touch key cache.items
    nodup := perm.nodup_iff.mpr cache.nodup
    bounded := by
      have length := perm.length_eq
      rw [keys, keys, List.length_map, List.length_map] at length
      exact length ▸ cache.bounded }

def put (key : κ) (value : α) (cache : Bounded κ α capacity) :
    Bounded κ α capacity :=
  { items := (Recency.put key value cache.items).take capacity
    nodup := by
      rw [keys, List.map_take]
      exact (keys_putAll_nodup [(key, value)] cache.nodup).sublist
        (List.take_sublist _ _)
    bounded := List.length_take_le _ _ }

end Bounded

end Tgdcfs.Lib.Recency
