import Tgdcfs.Lib.Dict

/-!
# A list indexed by a key

An index keeps the items of a list in one bucket per key, so that a lookup by
key need not scan the list.  It is kept up to date by adding items to and
dropping them from their buckets, which is right only where the list changes
in the same way.
-/

namespace Tgdcfs.Lib

variable {κ α : Type*} [DecidableEq κ]

/-- The items an index has under a key. -/
def bucket (index : Dict κ (List α)) (key : κ) : List α :=
  (index.get? key).getD []

variable (key : α → κ)

/-- Add an item at the end of its bucket. -/
def addTo (index : Dict κ (List α)) (item : α) : Dict κ (List α) :=
  index.set (key item) (bucket index (key item) ++ [item])

/-- Drop every occurrence of an item from its bucket, and the bucket when it
is left empty. -/
def dropFrom [DecidableEq α] (index : Dict κ (List α)) (item : α) :
    Dict κ (List α) :=
  match index.get? (key item) with
  | none => index
  | some items =>
      let kept := items.filter fun other => other ≠ item
      if kept = [] then index.erase (key item)
      else index.set (key item) kept

/-- The index of a list. -/
def indexOf (items : List α) : Dict κ (List α) :=
  items.foldl (addTo key) Dict.empty

/-- The bucket of every key is what a scan of the list finds. -/
def Indexes (index : Dict κ (List α)) (items : List α) : Prop :=
  ∀ name, bucket index name = items.filter fun item => key item = name

variable {key} {index : Dict κ (List α)} {items : List α}

theorem bucket_addTo (index : Dict κ (List α)) (item : α) (name : κ) :
    bucket (addTo key index item) name =
      if key item = name then bucket index name ++ [item]
      else bucket index name := by
  unfold addTo
  by_cases same : key item = name
  · subst same
    simp [bucket, Dict.get?_set]
  · simp [bucket, Dict.get?_set, same, Ne.symm same]

theorem bucket_dropFrom [DecidableEq α] (index : Dict κ (List α))
    (item : α) (name : κ) :
    bucket (dropFrom key index item) name =
      if key item = name then
        (bucket index name).filter fun other => other ≠ item
      else bucket index name := by
  unfold dropFrom
  cases found : index.get? (key item) with
  | none =>
      by_cases same : key item = name
      · subst same
        simp [bucket, found]
      · simp [same]
  | some items =>
      by_cases same : key item = name
      · subst same
        dsimp only
        split
        · rename_i absent
          simp [bucket, Dict.get?_erase, found] at absent ⊢
          exact absent
        · simp [bucket, Dict.get?_set, found]
      · dsimp only
        split
        · simp [bucket, Dict.get?_erase, Ne.symm same]
        · simp [bucket, Dict.get?_set, Ne.symm same]

theorem Indexes.empty : Indexes key (Dict.empty : Dict κ (List α)) [] :=
  fun _ => rfl

theorem Indexes.append (indexes : Indexes key index items) (item : α) :
    Indexes key (addTo key index item) (items ++ [item]) := by
  intro name
  rw [bucket_addTo, List.filter_append, indexes name]
  by_cases same : key item = name
  · simp [same]
  · simp [same]

theorem Indexes.extend (indexes : Indexes key index items)
    (more : List α) :
    Indexes key (more.foldl (addTo key) index) (items ++ more) := by
  induction more generalizing index items with
  | nil => simpa using indexes
  | cons item more induction =>
      have later := induction (indexes.append item)
      simpa using later

theorem indexOf_indexes (items : List α) :
    Indexes key (indexOf key items) items := by
  have built : Indexes key (indexOf key items) ([] ++ items) :=
    Indexes.empty.extend items
  simpa using built

private theorem cons_eq_append_singleton_iff {item : α} {rest : List α} :
    item :: rest = rest ++ [item] ↔ ∀ other ∈ rest, other = item := by
  induction rest with
  | nil => simp
  | cons first rest induction =>
      constructor
      · intro same
        obtain ⟨rfl, shifted⟩ := List.cons.inj same
        intro other member
        cases member with
        | head => rfl
        | tail _ later => exact induction.mp shifted other later
      · intro all
        obtain rfl : first = item := all first List.mem_cons_self
        have later := induction.mpr fun other member =>
          all other (List.mem_cons_of_mem _ member)
        rw [List.cons_append, ← later]

/-- Adding to the index goes with an insertion exactly when no other item of
the same key comes after it. -/
theorem Indexes.insert_iff {before after : List α}
    (indexes : Indexes key index (before ++ after)) (item : α) :
    Indexes key (addTo key index item) (before ++ item :: after) ↔
      ∀ other ∈ after, key other = key item → other = item := by
  constructor
  · intro inserted other member same
    have here := inserted (key item)
    rw [bucket_addTo, if_pos rfl, indexes (key item)] at here
    simp only [List.filter_append, List.append_assoc,
      List.append_cancel_left_eq] at here
    rw [List.filter_cons_of_pos (by simp)] at here
    exact cons_eq_append_singleton_iff.mp here.symm other
      (List.mem_filter.mpr ⟨member, by simpa using same⟩)
  · intro last name
    rw [bucket_addTo, indexes name]
    by_cases same : key item = name
    · subst same
      simp only [if_true, List.filter_append, List.append_assoc,
        List.append_cancel_left_eq]
      rw [List.filter_cons_of_pos (by simp)]
      apply Eq.symm
      apply cons_eq_append_singleton_iff.mpr
      intro other member
      obtain ⟨later, equal⟩ := List.mem_filter.mp member
      exact last other later (by simpa using equal)
    · simp [same]

/-- Dropping an item from the index goes with deleting one item of its key
exactly when that is the item and the list has it nowhere else. -/
theorem Indexes.delete_iff [DecidableEq α] {before after : List α}
    {deleted : α}
    (indexes : Indexes key index (before ++ deleted :: after)) {item : α}
    (same : key deleted = key item) :
    Indexes key (dropFrom key index item) (before ++ after) ↔
      deleted = item ∧ item ∉ before ∧ item ∉ after := by
  have bucketed : bucket (dropFrom key index item) (key item) =
      ((before ++ deleted :: after).filter fun other =>
        key other = key item).filter fun other => other ≠ item := by
    rw [bucket_dropFrom, if_pos rfl, indexes (key item)]
  constructor
  · intro agrees
    have here := (agrees (key item)).symm.trans bucketed
    have absent : item ∉ before ++ after := by
      intro member
      have kept : item ∈ (before ++ after).filter fun other =>
          key other = key item :=
        List.mem_filter.mpr ⟨member, by simp⟩
      rw [here] at kept
      simpa using (List.mem_filter.mp kept).2
    have gone : deleted = item := by
      by_contra other
      -- The bucket would keep one item more than the list.
      have lengths := congrArg List.length here
      have unchanged : ((before ++ after).filter fun other =>
          key other = key item).filter (fun other => other ≠ item) =
            (before ++ after).filter fun other => key other = key item := by
        apply List.filter_eq_self.mpr
        intro kept member
        have listed := (List.mem_filter.mp member).1
        have different : kept ≠ item := by
          rintro rfl
          exact absent listed
        simpa using different
      rw [← unchanged] at lengths
      simp [same, other] at lengths
    simp only [List.mem_append, not_or] at absent
    exact ⟨gone, absent⟩
  · rintro ⟨rfl, notBefore, notAfter⟩ name
    rw [bucket_dropFrom, indexes name]
    by_cases equal : key deleted = name
    · subst equal
      rw [if_pos rfl]
      have keep : ∀ list : List α, deleted ∉ list →
          (list.filter fun other => key other = key deleted).filter
              (fun other => other ≠ deleted) =
            list.filter fun other => key other = key deleted := by
        intro list absent
        apply List.filter_eq_self.mpr
        intro kept member
        have listed := (List.mem_filter.mp member).1
        have different : kept ≠ deleted := by
          rintro rfl
          exact absent listed
        simpa using different
      rw [List.filter_append, List.filter_append, List.filter_append,
        List.filter_cons_of_pos (by simp), keep before notBefore,
        List.filter_cons_of_neg (by simp), keep after notAfter]
    · simp [equal]

theorem Indexes.eraseIdx_iff [DecidableEq α]
    (indexes : Indexes key index items) {position : Nat} {deleted : α}
    (there : items[position]? = some deleted) {item : α}
    (same : key deleted = key item) :
    Indexes key (dropFrom key index item) (items.eraseIdx position) ↔
      deleted = item ∧ items.count item = 1 := by
  obtain ⟨inside, found⟩ := List.getElem?_eq_some_iff.mp there
  have parts : items =
      items.take position ++ deleted :: items.drop (position + 1) := by
    rw [← found, List.cons_getElem_drop_succ, List.take_append_drop]
  have once : deleted = item →
      (items.count item = 1 ↔ item ∉ items.take position ∧
        item ∉ items.drop (position + 1)) := by
    rintro rfl
    rw [← List.count_eq_zero, ← List.count_eq_zero]
    have total := congrArg (List.count deleted) parts
    rw [List.count_append, List.count_cons_self] at total
    omega
  rw [parts] at indexes
  rw [List.eraseIdx_eq_take_drop_succ, indexes.delete_iff same]
  exact and_congr_right fun gone => (once gone).symm

end Tgdcfs.Lib
