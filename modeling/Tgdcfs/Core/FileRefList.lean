import Tgdcfs.Core.Directory
import Tgdcfs.Lib.KeyIndex
import Tgdcfs.Lib.Run

/-!
# The file list of a directory and its name index

`FileRefList` is a list with an index by name.  Some of its mutators update
the index, the others rebuild it.  Refs are objects: the list and the index
hold identities, and `remove` looks for the first ref that compares equal to
its argument but drops the argument itself from the index.

The index follows the list as long as refs are inserted behind the others of
their name, and what is removed or popped is listed once and, for `remove`,
is the first ref that compares equal.
-/

namespace Tgdcfs

open Lib

/-- The fields of a file ref that `__eq__` compares.  `location` stands for
the tree behind the ref: directories that compare equal have one number. -/
structure LocatedFileRef extends FileRef where
  location : Nat

/-- Equality of dictionaries, whatever the order of their items. -/
def sameMirrors (left right : Dict String Int) : Bool :=
  left.size == right.size &&
    left.items.all fun item => right.get? item.1 == some item.2

/-- `TGFSFileRef.__eq__`. -/
def LocatedFileRef.equal (left right : LocatedFileRef) : Bool :=
  left.messageId == right.messageId && left.name == right.name &&
    left.location == right.location &&
    sameMirrors left.mirrors right.mirrors && left.store == right.store

/-- What identities refer to. -/
abbrev FileRefs := Nat → LocatedFileRef

def FileRefs.nameOf (refs : FileRefs) (ref : Nat) : Name := (refs ref).name

/-- Where `insert` puts an item. -/
def insertPosition (length : Nat) (index : Int) : Nat :=
  let position := if index < 0 then index + length else index
  min position.toNat length

/-- The item an index refers to; `none` is an `IndexError`. -/
def itemPosition (length : Nat) (index : Int) : Option Nat :=
  let position := if index < 0 then index + length else index
  if position < 0 ∨ (length : Int) ≤ position then none
  else some position.toNat

structure Slice where
  start : Option Int
  stop : Option Int
  step : Option Int
  deriving DecidableEq, Repr

/-- `slice.indices`; `none` is the error about a step of zero. -/
def Slice.indices (slice : Slice) (length : Nat) :
    Option (Int × Int × Int) :=
  let step := slice.step.getD 1
  if step = 0 then none
  else
    let lower : Int := if step < 0 then -1 else 0
    let upper : Int := if step < 0 then length - 1 else length
    let clamp (bound : Int) : Int :=
      if bound < 0 then max (bound + length) lower else min bound upper
    let first := if step < 0 then upper else lower
    let last := if step < 0 then lower else upper
    some ((slice.start.map clamp).getD first,
      (slice.stop.map clamp).getD last, step)

/-- The positions of `range(start, stop, step)`. -/
def slicePositions (start stop step : Int) : List Nat :=
  let count : Int :=
    if 0 < step then
      if start < stop then (stop - start - 1) / step + 1 else 0
    else if stop < start then (start - stop - 1) / (-step) + 1
    else 0
  (List.range count.toNat).map fun number : Nat =>
    (start + number * step).toNat

/-- `items[slice] = values` of a plain list. -/
def setSliceItems (items : List Nat) (slice : Slice) (values : List Nat) :
    Option (List Nat) :=
  (slice.indices items.length).bind fun (start, stop, step) =>
    if step = 1 then
      some (items.take start.toNat ++ values ++
        items.drop (max start stop).toNat)
    else
      let positions := slicePositions start stop step
      if values.length = positions.length then
        some ((positions.zip values).foldl
          (fun items change => items.set change.1 change.2) items)
      else none

/-- `del items[slice]` of a plain list. -/
def deleteSliceItems (items : List Nat) (slice : Slice) :
    Option (List Nat) :=
  (slice.indices items.length).map fun (start, stop, step) =>
    let positions := slicePositions start stop step
    (items.zipIdx.filter fun item => item.2 ∉ positions).map Prod.fst

structure FileRefList where
  items : List Nat
  byName : Dict Name (List Nat)

namespace FileRefList

variable (refs : FileRefs)

/-- `__init__`, and `_reindex` for the items of a list. -/
def ofRefs (items : List Nat) : FileRefList :=
  ⟨items, indexOf refs.nameOf items⟩

def named (list : FileRefList) (name : Name) : List Nat :=
  bucket list.byName name

def append (list : FileRefList) (ref : Nat) : FileRefList :=
  ⟨list.items ++ [ref], addTo refs.nameOf list.byName ref⟩

def extend (list : FileRefList) (more : List Nat) : FileRefList :=
  more.foldl (append refs) list

def insert (list : FileRefList) (index : Int) (ref : Nat) : FileRefList :=
  let position := insertPosition list.items.length index
  ⟨list.items.take position ++ ref :: list.items.drop position,
    addTo refs.nameOf list.byName ref⟩

/-- Where `remove` finds its argument: at the first item that is the object
or compares equal to it. -/
def firstEqual (list : FileRefList) (ref : Nat) : Option Nat :=
  list.items.findIdx? fun item =>
    item == ref || (refs item).equal (refs ref)

def remove (list : FileRefList) (ref : Nat) : Option FileRefList :=
  (list.firstEqual refs ref).map fun position =>
    ⟨list.items.eraseIdx position, dropFrom refs.nameOf list.byName ref⟩

def pop (list : FileRefList) (index : Int) : Option FileRefList :=
  (itemPosition list.items.length index).bind fun position =>
    list.items[position]?.map fun ref =>
      ⟨list.items.eraseIdx position, dropFrom refs.nameOf list.byName ref⟩

def clear : FileRefList := ⟨[], Dict.empty⟩

def setItem (list : FileRefList) (index : Int) (ref : Nat) :
    Option FileRefList :=
  (itemPosition list.items.length index).map fun position =>
    ofRefs refs (list.items.set position ref)

def setSlice (list : FileRefList) (slice : Slice) (values : List Nat) :
    Option FileRefList :=
  (setSliceItems list.items slice values).map (ofRefs refs)

def deleteItem (list : FileRefList) (index : Int) : Option FileRefList :=
  (itemPosition list.items.length index).map fun position =>
    ofRefs refs (list.items.eraseIdx position)

def deleteSlice (list : FileRefList) (slice : Slice) :
    Option FileRefList :=
  (deleteSliceItems list.items slice).map (ofRefs refs)

/-- `list *= times`. -/
def repeated (list : FileRefList) (times : Int) : FileRefList :=
  ofRefs refs (List.replicate times.toNat list.items).flatten

end FileRefList

/-- The ways of changing a file list. -/
inductive RefListMutation where
  | append (ref : Nat)
  | extend (more : List Nat)
  | insert (index : Int) (ref : Nat)
  | remove (ref : Nat)
  | pop (index : Int)
  | clear
  | setItem (index : Int) (ref : Nat)
  | setSlice (slice : Slice) (values : List Nat)
  | deleteItem (index : Int)
  | deleteSlice (slice : Slice)
  | addInPlace (more : List Nat)
  | repeatInPlace (times : Int)
  deriving DecidableEq, Repr

/-- The list a mutation leaves; `none` when it raises, which it does before
anything has changed. -/
def FileRefList.mutate (refs : FileRefs) (list : FileRefList) :
    RefListMutation → Option FileRefList
  | .append ref => some (list.append refs ref)
  | .extend more => some (list.extend refs more)
  | .insert index ref => some (list.insert refs index ref)
  | .remove ref => list.remove refs ref
  | .pop index => list.pop refs index
  | .clear => some .clear
  | .setItem index ref => list.setItem refs index ref
  | .setSlice slice values => list.setSlice refs slice values
  | .deleteItem index => list.deleteItem refs index
  | .deleteSlice slice => list.deleteSlice refs slice
  | .addInPlace more => some (list.extend refs more)
  | .repeatInPlace times => some (list.repeated refs times)

/-- The files of a directory and the objects they are. -/
structure DirectoryFiles where
  refs : FileRefs
  list : FileRefList

/-- A mutation of the list, or an assignment to fields of a ref other than
its name. -/
inductive DirectoryFilesAction where
  | mutate (mutation : RefListMutation)
  | assign (ref : Nat) (fields : LocatedFileRef)

namespace DirectoryFiles

def start (refs : FileRefs) (items : List Nat) : DirectoryFiles :=
  ⟨refs, .ofRefs refs items⟩

def step (files : DirectoryFiles) :
    DirectoryFilesAction → Option DirectoryFiles
  | .mutate mutation =>
      some { files with
        list := (files.list.mutate files.refs mutation).getD files.list }
  | .assign ref fields =>
      if fields.name = files.refs.nameOf ref then
        some { files with refs := Function.update files.refs ref fields }
      else none

/-- `find_files`: one name is looked up in the index. -/
def findFiles (files : DirectoryFiles) : List Name → List Nat
  | [] => files.list.items
  | [name] => files.list.named name
  | names => files.list.items.filter fun ref =>
      files.refs.nameOf ref ∈ names

/-- The refs of a name in list order. -/
def scan (files : DirectoryFiles) (name : Name) : List Nat :=
  files.list.items.filter fun ref => files.refs.nameOf ref = name

/-- The index and the list have the same refs under every name. -/
def Agrees (files : DirectoryFiles) : Prop :=
  ∀ name, files.list.named name = files.scan name

/-- When a mutation keeps the index in step with the list: an insertion has
no other ref of the name behind it, and what `remove` or `pop` takes from the
list is the very ref that is dropped from the index, listed only there. -/
def InStep (files : DirectoryFiles) : DirectoryFilesAction → Prop
  | .mutate (.insert index ref) =>
      ∀ other ∈ files.list.items.drop
          (insertPosition files.list.items.length index),
        files.refs.nameOf other = files.refs.nameOf ref → other = ref
  | .mutate (.remove ref) =>
      ∀ position, files.list.firstEqual files.refs ref = some position →
        files.list.items[position]? = some ref ∧
          files.list.items.count ref = 1
  | .mutate (.pop index) =>
      ∀ position ref,
        itemPosition files.list.items.length index = some position →
        files.list.items[position]? = some ref →
          files.list.items.count ref = 1
  | _ => True

end DirectoryFiles

namespace FileRefList

variable {refs : FileRefs} {list next : FileRefList}

/-- The index of the list is the one a scan would build. -/
def Indexed (refs : FileRefs) (list : FileRefList) : Prop :=
  Indexes refs.nameOf list.byName list.items

theorem ofRefs_indexed (refs : FileRefs) (items : List Nat) :
    (ofRefs refs items).Indexed refs :=
  indexOf_indexes items

theorem extend_eq (refs : FileRefs) (list : FileRefList)
    (more : List Nat) :
    list.extend refs more = ⟨list.items ++ more,
      more.foldl (addTo refs.nameOf) list.byName⟩ := by
  unfold extend
  induction more generalizing list with
  | nil => simp
  | cons ref more induction =>
      rw [List.foldl_cons, induction]
      simp [append]

theorem extend_indexed (indexed : list.Indexed refs) (more : List Nat) :
    (list.extend refs more).Indexed refs := by
  rw [extend_eq]
  exact Indexes.extend indexed more

theorem insert_indexed_iff (indexed : list.Indexed refs) (index : Int)
    (ref : Nat) :
    (list.insert refs index ref).Indexed refs ↔
      ∀ other ∈ list.items.drop (insertPosition list.items.length index),
        refs.nameOf other = refs.nameOf ref → other = ref := by
  have parts := List.take_append_drop
    (insertPosition list.items.length index) list.items
  unfold Indexed at indexed
  rw [← parts] at indexed
  exact indexed.insert_iff ref

theorem equal_name {left right : LocatedFileRef}
    (equal : left.equal right = true) : left.name = right.name := by
  simp only [LocatedFileRef.equal, Bool.and_eq_true, beq_iff_eq] at equal
  exact equal.1.1.1.2

theorem firstEqual_name {ref position found : Nat}
    (first : list.firstEqual refs ref = some position)
    (there : list.items[position]? = some found) :
    refs.nameOf found = refs.nameOf ref := by
  obtain ⟨inside, matches_, _⟩ := List.findIdx?_eq_some_iff_getElem.mp first
  rw [List.getElem?_eq_getElem inside] at there
  cases there
  simp only [Bool.or_eq_true, beq_iff_eq] at matches_
  cases matches_ with
  | inl same => rw [same]
  | inr equal => exact equal_name equal

theorem remove_indexed_iff (indexed : list.Indexed refs) {ref : Nat}
    (removed : list.remove refs ref = some next) :
    next.Indexed refs ↔
      ∀ position, list.firstEqual refs ref = some position →
        list.items[position]? = some ref ∧ list.items.count ref = 1 := by
  obtain ⟨position, first, rfl⟩ := Option.map_eq_some_iff.mp removed
  obtain ⟨inside, _⟩ := List.findIdx?_eq_some_iff_getElem.mp first
  have there := List.getElem?_eq_getElem inside
  have exact_ := Indexes.eraseIdx_iff indexed there
    (firstEqual_name first there)
  unfold Indexed
  rw [exact_, first]
  constructor
  · rintro ⟨same, once⟩ _ ⟨⟩
    exact ⟨by rw [there, same], once⟩
  · intro all
    obtain ⟨same, once⟩ := all position rfl
    rw [there] at same
    exact ⟨Option.some.inj same, once⟩

theorem pop_indexed_iff (indexed : list.Indexed refs) {index : Int}
    (popped : list.pop refs index = some next) :
    next.Indexed refs ↔ ∀ position ref,
      itemPosition list.items.length index = some position →
      list.items[position]? = some ref → list.items.count ref = 1 := by
  obtain ⟨position, known, found⟩ := Option.bind_eq_some_iff.mp popped
  obtain ⟨ref, there, rfl⟩ := Option.map_eq_some_iff.mp found
  have exact_ := Indexes.eraseIdx_iff indexed there rfl
  unfold Indexed
  rw [exact_, known]
  constructor
  · rintro ⟨_, once⟩ _ other ⟨⟩ same
    rw [there] at same
    cases same
    exact once
  · intro all
    exact ⟨rfl, all position ref rfl there⟩

theorem indexed_of_map_ofRefs {items : Option (List Nat)}
    (changed : items.map (ofRefs refs) = some next) : next.Indexed refs := by
  obtain ⟨items, _, rfl⟩ := Option.map_eq_some_iff.mp changed
  exact ofRefs_indexed refs items

end FileRefList

namespace DirectoryFiles

variable {files next : DirectoryFiles}

theorem agrees_iff (files : DirectoryFiles) :
    files.Agrees ↔ files.list.Indexed files.refs :=
  Iff.rfl

theorem mutate_indexed_iff (indexed : files.list.Indexed files.refs)
    {mutation : RefListMutation} {list : FileRefList}
    (mutated : files.list.mutate files.refs mutation = some list) :
    list.Indexed files.refs ↔ files.InStep (.mutate mutation) := by
  cases mutation with
  | append ref =>
      cases mutated
      exact iff_of_true (Indexes.append indexed ref) trivial
  | extend more =>
      cases mutated
      exact iff_of_true (FileRefList.extend_indexed indexed more) trivial
  | insert index ref =>
      cases mutated
      exact FileRefList.insert_indexed_iff indexed index ref
  | remove ref => exact FileRefList.remove_indexed_iff indexed mutated
  | pop index => exact FileRefList.pop_indexed_iff indexed mutated
  | clear =>
      cases mutated
      exact iff_of_true Indexes.empty trivial
  | setItem index ref =>
      obtain ⟨position, _, rfl⟩ := Option.map_eq_some_iff.mp mutated
      exact iff_of_true (FileRefList.ofRefs_indexed _ _) trivial
  | setSlice slice values =>
      exact iff_of_true (FileRefList.indexed_of_map_ofRefs mutated) trivial
  | deleteItem index =>
      obtain ⟨position, _, rfl⟩ := Option.map_eq_some_iff.mp mutated
      exact iff_of_true (FileRefList.ofRefs_indexed _ _) trivial
  | deleteSlice slice =>
      exact iff_of_true (FileRefList.indexed_of_map_ofRefs mutated) trivial
  | addInPlace more =>
      cases mutated
      exact iff_of_true (FileRefList.extend_indexed indexed more) trivial
  | repeatInPlace times =>
      cases mutated
      exact iff_of_true (FileRefList.ofRefs_indexed _ _) trivial

/-- A mutation that raises was in step: it changes nothing. -/
theorem inStep_of_raises {mutation : RefListMutation}
    (raises : files.list.mutate files.refs mutation = none) :
    files.InStep (.mutate mutation) := by
  cases mutation with
  | insert index ref => cases raises
  | remove ref =>
      intro position first
      have nowhere := Option.map_eq_none_iff.mp raises
      rw [first] at nowhere
      cases nowhere
  | pop index =>
      intro position ref known there
      simp [FileRefList.mutate, FileRefList.pop, known, there] at raises
  | _ => trivial

theorem update_nameOf {refs : FileRefs} {ref : Nat}
    {fields : LocatedFileRef} (same : fields.name = refs.nameOf ref) :
    FileRefs.nameOf (Function.update refs ref fields) = refs.nameOf := by
  funext other
  unfold FileRefs.nameOf
  by_cases here : other = ref
  · subst here
    rw [Function.update_self]
    exact same
  · rw [Function.update_of_ne here]

/-- A step keeps the index in agreement exactly when it is in step. -/
theorem step_agrees_iff {action : DirectoryFilesAction}
    (agrees : files.Agrees) (taken : files.step action = some next) :
    next.Agrees ↔ files.InStep action := by
  cases action with
  | mutate mutation =>
      cases taken
      cases mutated : files.list.mutate files.refs mutation with
      | none => exact iff_of_true agrees (inStep_of_raises mutated)
      | some list => exact mutate_indexed_iff agrees mutated
  | assign ref fields =>
      by_cases same : fields.name = files.refs.nameOf ref
      · rw [step, if_pos same] at taken
        cases taken
        refine iff_of_true ?_ trivial
        rw [agrees_iff, FileRefList.Indexed, update_nameOf same]
        exact agrees
      · rw [step, if_neg same] at taken
        cases taken

theorem start_agrees (refs : FileRefs) (items : List Nat) :
    (start refs items).Agrees :=
  FileRefList.ofRefs_indexed refs items

/-- Along every run whose steps are in step, a lookup by name is a scan of
the list; and a step that is not takes the index out of agreement. -/
theorem name_index_in_step (refs : FileRefs) (items : List Nat) :
    (∀ files, ReachableWithin step InStep (start refs items) files →
      ∀ name, files.list.named name = files.scan name ∧
        files.findFiles [name] = files.scan name) ∧
    ∀ files action next, files.Agrees → step files action = some next →
      (next.Agrees ↔ files.InStep action) := by
  constructor
  · intro files reached name
    have agrees := reached.invariant
      (fun _ _ _ held allowed taken =>
        (step_agrees_iff held taken).mpr allowed) (start_agrees refs items)
    exact ⟨agrees name, agrees name⟩
  · intro files action next agrees taken
    exact step_agrees_iff agrees taken

/-- Two files of one name with different descriptors. -/
def twins : FileRefs := fun ref =>
  { messageId := ref
    name := ['f']
    mirrors := Dict.empty
    store := none
    location := 0 }

/-- The second is inserted in front of the first, but the index has it
behind. -/
theorem inserted_out_of_order :
    ¬∀ (refs : FileRefs) (items : List Nat) (files : DirectoryFiles),
      Reachable step (start refs items) files →
        ∀ name, files.list.named name = files.scan name := by
  intro always
  have reached : Reachable step (start twins [1]) _ :=
    ⟨[.mutate (.insert 0 2)], rfl⟩
  have same := always twins [1] _ reached ['f']
  revert same
  decide

end DirectoryFiles

end Tgdcfs
