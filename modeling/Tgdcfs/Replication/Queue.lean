import Tgdcfs.Lib.Dict
import Tgdcfs.Lib.Run
import Mathlib.Data.List.Sort
import Mathlib.Algebra.Order.Field.Rat
import Mathlib.Algebra.Order.Ring.Pow

/-!
# The replication queue

Files wait for replication under the name of their file system and their
path.  A file queued twice is there once.  Times are seconds, and the float
arithmetic of the retry delay is exact up to the overflow that Python raises.
-/

namespace Tgdcfs

open Lib

def RETRY_BASE_SECONDS : ℚ := 15
def RETRY_MAX_SECONDS : ℚ := 15 * 60

/-- The least number that rounds to `2 ^ top` with 53 significant bits. -/
def roundsTo (top : Nat) : Nat := 2 ^ top - 2 ^ (top - 54)

/-- The least int that is too large for a float. -/
@[irreducible] def FLOAT_OVERFLOW : Nat := roundsTo 1024

/-- `int too large to convert to float`. -/
inductive OverflowError where
  | intTooLarge
  deriving DecidableEq

def fitsFloat (n : Int) : Bool := decide (n.natAbs < FLOAT_OVERFLOW)

/-- Whether `RETRY_BASE_SECONDS * 2 ** exponent` has a value.  An int power
becomes a float when it is multiplied; a negative exponent becomes one
itself. -/
def powerFits (exponent : Int) : Bool :=
  if 0 ≤ exponent then fitsFloat (2 ^ exponent.toNat)
  else fitsFloat exponent

/-- `min(RETRY_BASE_SECONDS * 2 ** exponent, RETRY_MAX_SECONDS)` -/
def retryDelay (exponent : Int) : Except OverflowError ℚ :=
  if powerFits exponent then
    .ok (min (RETRY_BASE_SECONDS * 2 ^ exponent) RETRY_MAX_SECONDS)
  else .error .intTooLarge

/-- The exponents with a delay. -/
def Delayable (exponent : Int) : Prop :=
  -(FLOAT_OVERFLOW : Int) < exponent ∧ exponent < 1024

theorem pow_lt_roundsTo_iff {top : Nat} (large : 54 ≤ top)
    (exponent : Nat) : 2 ^ exponent < roundsTo top ↔ exponent < top := by
  unfold roundsTo
  constructor
  · intro less
    have below : 2 ^ exponent < 2 ^ top := less.trans_le (Nat.sub_le _ _)
    exact (Nat.pow_lt_pow_iff_right Nat.one_lt_two).mp below
  · intro less
    have half : 2 ^ exponent ≤ 2 ^ (top - 1) :=
      Nat.pow_le_pow_right Nat.two_pos (by omega)
    have double : 2 ^ top = 2 * 2 ^ (top - 1) := by
      rw [← pow_succ', Nat.sub_add_cancel (by omega)]
    have small : 2 ^ (top - 54) < 2 ^ (top - 1) :=
      Nat.pow_lt_pow_right Nat.one_lt_two (by omega)
    omega

theorem pow_lt_floatOverflow_iff (exponent : Nat) :
    2 ^ exponent < FLOAT_OVERFLOW ↔ exponent < 1024 := by
  unfold FLOAT_OVERFLOW
  exact pow_lt_roundsTo_iff (by decide) exponent

theorem fitsFloat_pow (exponent : Nat) :
    fitsFloat (2 ^ exponent) = true ↔ exponent < 1024 := by
  have two : Int.natAbs 2 = 2 := rfl
  rw [fitsFloat, decide_eq_true_iff, Int.natAbs_pow, two]
  exact pow_lt_floatOverflow_iff exponent

theorem powerFits_iff (exponent : Int) :
    powerFits exponent = true ↔ Delayable exponent := by
  unfold powerFits Delayable
  split
  · have positive : 0 < FLOAT_OVERFLOW :=
      Nat.zero_lt_of_lt ((pow_lt_floatOverflow_iff 0).mpr (by decide))
    rw [fitsFloat_pow]
    omega
  · rw [fitsFloat, decide_eq_true_iff]
    omega

theorem retryDelay_le {exponent : Int} {delay : ℚ}
    (answered : retryDelay exponent = .ok delay) :
    delay ≤ RETRY_MAX_SECONDS := by
  unfold retryDelay at answered
  split at answered
  · cases answered
    exact min_le_right _ _
  · cases answered

structure QueueItem (π : Type) where
  path : π
  queuedAt : ℚ
  attempts : Int := 0
  lastError : Option String := none
  notBefore : ℚ := 0

/-- The items of one file system, each under its own path. -/
structure FileQueue (π : Type) where
  items : Dict π (QueueItem π)
  keyed : ∀ entry ∈ items.items, entry.2.path = entry.1

namespace FileQueue

variable {π : Type}

def empty : FileQueue π := ⟨Dict.empty, by simp [Dict.empty]⟩

variable [DecidableEq π]

def add (queue : FileQueue π) (item : QueueItem π) : FileQueue π :=
  ⟨queue.items.set item.path item, by
    rintro ⟨path, added⟩ member
    rw [Dict.mem_items_set] at member
    rcases member with ⟨rfl, rfl⟩ | ⟨before, _⟩
    · rfl
    · exact queue.keyed _ before⟩

def remove (queue : FileQueue π) (path : π) : FileQueue π :=
  ⟨queue.items.erase path, by
    intro entry member
    rw [Dict.mem_items_erase] at member
    exact queue.keyed entry member.1⟩

def change (queue : FileQueue π) (path : π)
    (update : QueueItem π → QueueItem π)
    (keeps : ∀ item, (update item).path = item.path) : FileQueue π :=
  ⟨queue.items.modify path update, by
    intro entry member
    simp only [Dict.modify, List.mem_map] at member
    obtain ⟨before, listed, same⟩ := member
    have path := queue.keyed before listed
    split at same
    · rw [← same, keeps, path]
    · rw [← same, path]⟩

omit [DecidableEq π] in
def changeAll (queue : FileQueue π) (update : QueueItem π → QueueItem π)
    (keeps : ∀ item, (update item).path = item.path) : FileQueue π :=
  ⟨queue.items.mapValues update, by
    intro entry member
    simp only [Dict.mapValues, List.mem_map] at member
    obtain ⟨before, listed, rfl⟩ := member
    rw [keeps, queue.keyed before listed]⟩

theorem path_of_get? (queue : FileQueue π) {path : π} {item : QueueItem π}
    (found : queue.items.get? path = some item) : item.path = path :=
  queue.keyed (path, item) ((Dict.get?_eq_some_iff _ _ _).mp found)

end FileQueue

structure ReplicationQueue (π : Type) where
  items : Dict String (FileQueue π)

namespace ReplicationQueue

variable {π : Type} [DecidableEq π]

def ofFileSystem (queue : ReplicationQueue π) (fs : String) : FileQueue π :=
  (queue.items.get? fs).getD FileQueue.empty

def item? (queue : ReplicationQueue π) (fs : String) (path : π) :
    Option (QueueItem π) :=
  (queue.ofFileSystem fs).items.get? path

def enqueue (queue : ReplicationQueue π) (fs : String) (path : π)
    (now : ℚ) : ReplicationQueue π :=
  let items := queue.ofFileSystem fs
  if items.items.contains path then { items := queue.items.set fs items }
  else
    { items := queue.items.set fs
        (items.add { path := path, queuedAt := now }) }

def pending (queue : ReplicationQueue π) (fs : String) :
    List (QueueItem π) :=
  (queue.ofFileSystem fs).items.values.insertionSort
    fun left right => left.queuedAt ≤ right.queuedAt

def ready (queue : ReplicationQueue π) (fs : String) (now : ℚ) :
    List (QueueItem π) :=
  (queue.pending fs).filter fun item => item.notBefore ≤ now

def done (queue : ReplicationQueue π) (fs : String) (path : π) :
    ReplicationQueue π :=
  match queue.items.get? fs with
  | none => queue
  | some items => { items := queue.items.set fs (items.remove path) }

/-- The item counts the attempt before its delay is computed. -/
def recordFailure (error : String) (item : QueueItem π) : QueueItem π :=
  { item with
    attempts := item.attempts + 1
    lastError := some error }

def backOff (error : String) (retryAt : ℚ) (item : QueueItem π) :
    QueueItem π :=
  { recordFailure error item with notBefore := retryAt }

omit [DecidableEq π] in
theorem recordFailure_path (error : String) (item : QueueItem π) :
    (recordFailure error item).path = item.path := rfl

omit [DecidableEq π] in
theorem backOff_path (error : String) (retryAt : ℚ) (item : QueueItem π) :
    (backOff error retryAt item).path = item.path := rfl

def changeItem (queue : ReplicationQueue π) (fs : String) (path : π)
    (update : QueueItem π → QueueItem π)
    (keeps : ∀ item, (update item).path = item.path) :
    ReplicationQueue π :=
  { items := queue.items.modify fs fun items =>
      items.change path update keeps }

/-- The item stays and backs off.  Where the delay overflows the call raises,
the attempt is counted and the retry time stays. -/
def failed (queue : ReplicationQueue π) (fs : String) (path : π)
    (error : String) (now : ℚ) :
    ReplicationQueue π × Except OverflowError Unit :=
  match queue.item? fs path with
  | none => (queue, .ok ())
  | some item =>
      match retryDelay (item.attempts + 1 - 1) with
      | .error overflow =>
          (queue.changeItem fs path (recordFailure error)
            (recordFailure_path error), .error overflow)
      | .ok delay =>
          (queue.changeItem fs path (backOff error (now + delay))
            (backOff_path error (now + delay)), .ok ())

/-- Clear the backoff of every item, of one file system or of all. -/
def retryNow (queue : ReplicationQueue π) (only : Option String) :
    ReplicationQueue π :=
  { items := queue.items.mapItems fun fs items =>
      if only = none ∨ only = some fs then
        items.changeAll (fun item => { item with notBefore := 0 })
          fun _ => rfl
      else items }

def holds (queue : ReplicationQueue π) (fs : String) (path : π) : Bool :=
  (queue.ofFileSystem fs).items.contains path

variable (queue : ReplicationQueue π)
include queue

theorem holds_eq (fs : String) (path : π) :
    queue.holds fs path = (queue.item? fs path).isSome := rfl

theorem item?_set (fs other : String) (items : FileQueue π) (path : π) :
    item? { items := queue.items.set fs items } other path =
      if other = fs then items.items.get? path
      else queue.item? other path := by
  unfold item? ofFileSystem
  rw [Dict.get?_set]
  split
  · rfl
  · rfl

theorem item?_enqueue (fs other : String) (path otherPath : π) (now : ℚ) :
    (queue.enqueue fs path now).item? other otherPath =
      if other = fs ∧ otherPath = path ∧ queue.holds fs path = false then
        some { path := path, queuedAt := now }
      else queue.item? other otherPath := by
  unfold enqueue
  dsimp only
  split
  · rename_i present
    have held : queue.holds fs path = true := present
    rw [item?_set, held]
    by_cases sameFs : other = fs
    · subst sameFs
      simp [item?]
    · simp [sameFs]
  · rename_i absent
    have missing : queue.holds fs path = false := by simpa [holds] using absent
    rw [item?_set, missing]
    by_cases sameFs : other = fs
    · subst sameFs
      rw [if_pos rfl, FileQueue.add, Dict.get?_set]
      by_cases samePath : otherPath = path
      · simp [samePath]
      · simp [samePath, item?]
    · simp [sameFs]

theorem item?_done (fs other : String) (path otherPath : π) :
    (queue.done fs path).item? other otherPath =
      if other = fs ∧ otherPath = path then none
      else queue.item? other otherPath := by
  unfold done
  cases found : queue.items.get? fs with
  | none =>
      dsimp only
      split
      · rename_i here
        rw [here.1, item?, ofFileSystem, found]
        rfl
      · rfl
  | some items =>
      dsimp only
      rw [item?_set]
      by_cases sameFs : other = fs
      · subst sameFs
        rw [if_pos rfl, FileQueue.remove, Dict.get?_erase]
        by_cases samePath : otherPath = path
        · simp [samePath]
        · simp [samePath, item?, ofFileSystem, found]
      · simp [sameFs]

theorem item?_changeItem (fs other : String) (path otherPath : π)
    (update : QueueItem π → QueueItem π)
    (keeps : ∀ item, (update item).path = item.path) :
    (queue.changeItem fs path update keeps).item? other otherPath =
      if other = fs ∧ otherPath = path then
        (queue.item? other otherPath).map update
      else queue.item? other otherPath := by
  unfold changeItem item? ofFileSystem
  rw [Dict.get?_modify]
  by_cases sameFs : other = fs
  · subst sameFs
    cases found : queue.items.get? other with
    | none => simp [FileQueue.empty]; intro _; rfl
    | some items =>
        rw [if_pos rfl, Option.map_some, Option.getD_some, Option.getD_some,
          FileQueue.change, Dict.get?_modify]
        simp
  · simp [sameFs]

theorem item?_retryNow (only : Option String) (fs : String) (path : π) :
    (queue.retryNow only).item? fs path =
      if only = none ∨ only = some fs then
        (queue.item? fs path).map fun item => { item with notBefore := 0 }
      else queue.item? fs path := by
  unfold retryNow item? ofFileSystem
  rw [Dict.get?_mapItems]
  cases queue.items.get? fs with
  | none => simp [FileQueue.empty, Dict.empty, Dict.get?]
  | some items =>
      rw [Option.map_some, Option.getD_some, Option.getD_some]
      split
      · rw [FileQueue.changeAll, Dict.get?_mapValues]
      · rfl

theorem holds_enqueue (fs other : String) (path otherPath : π) (now : ℚ) :
    (queue.enqueue fs path now).holds other otherPath =
      (decide (other = fs ∧ otherPath = path) ||
        queue.holds other otherPath) := by
  rw [holds_eq, item?_enqueue]
  by_cases here : other = fs ∧ otherPath = path
  · obtain ⟨rfl, rfl⟩ := here
    cases held : queue.holds other otherPath with
    | true => simpa [holds_eq] using held
    | false => simp
  · rw [if_neg fun all => here ⟨all.1, all.2.1⟩, decide_eq_false here]
    rfl

theorem holds_done (fs other : String) (path otherPath : π) :
    (queue.done fs path).holds other otherPath =
      (!decide (other = fs ∧ otherPath = path) &&
        queue.holds other otherPath) := by
  rw [holds_eq, item?_done]
  split
  · rename_i here
    simp [here]
  · rename_i elsewhere
    rw [decide_eq_false elsewhere]
    rfl

theorem holds_changeItem (fs other : String) (path otherPath : π)
    (update : QueueItem π → QueueItem π)
    (keeps : ∀ item, (update item).path = item.path) :
    (queue.changeItem fs path update keeps).holds other otherPath =
      queue.holds other otherPath := by
  rw [holds_eq, item?_changeItem]
  split
  · rw [Option.isSome_map, holds_eq]
  · rfl

theorem holds_failed (fs other : String) (path otherPath : π) (error : String)
    (now : ℚ) :
    (queue.failed fs path error now).1.holds other otherPath =
      queue.holds other otherPath := by
  unfold failed
  split
  · rfl
  · split
    · exact holds_changeItem _ _ _ _ _ _ _
    · exact holds_changeItem _ _ _ _ _ _ _

omit queue

/-- An item in the queue file; it does not say when the item may be tried
again. -/
structure StoredItem (π : Type) where
  path : π
  queuedAt : Option ℚ
  attempts : Option Int
  lastError : Option String

omit [DecidableEq π] in
def toDict (item : QueueItem π) : StoredItem π :=
  { path := item.path
    queuedAt := some item.queuedAt
    attempts := some item.attempts
    lastError := item.lastError }

def ofDict (now : ℚ) (stored : StoredItem π) : QueueItem π :=
  { path := stored.path
    queuedAt := stored.queuedAt.getD now
    attempts := stored.attempts.getD 0
    lastError := stored.lastError }

/-- What `_save` writes. -/
def saved (queue : ReplicationQueue π) :
    List (String × List (StoredItem π)) :=
  (queue.items.items.filter fun entry => 0 < entry.2.items.size).map
    fun entry => (entry.1, entry.2.items.values.map toDict)

def put (queue : ReplicationQueue π) (fs : String) (item : QueueItem π) :
    ReplicationQueue π :=
  { items := queue.items.set fs ((queue.ofFileSystem fs).add item) }

/-- The loop of `load` from any queue. -/
def loadInto (now : ℚ) (data : List (String × List (StoredItem π)))
    (queue : ReplicationQueue π) : ReplicationQueue π :=
  data.foldl
    (fun queue entry =>
      entry.2.foldl
        (fun queue stored => queue.put entry.1 (ofDict now stored)) queue)
    queue

def load (now : ℚ) (data : List (String × List (StoredItem π))) :
    ReplicationQueue π :=
  loadInto now data ⟨Dict.empty⟩

theorem item?_put (queue : ReplicationQueue π) (fs other : String)
    (item : QueueItem π) (path : π) :
    (queue.put fs item).item? other path =
      if other = fs ∧ path = item.path then some item
      else queue.item? other path := by
  rw [put, item?_set]
  by_cases sameFs : other = fs
  · subst sameFs
    rw [if_pos rfl, FileQueue.add, Dict.get?_set]
    by_cases samePath : path = item.path
    · simp [samePath]
    · simp [samePath, item?]
  · simp [sameFs]

/-- The items of a file, each with its file system. -/
def entriesOf (now : ℚ) (data : List (String × List (StoredItem π))) :
    List (String × QueueItem π) :=
  data.flatMap fun entry =>
    entry.2.map fun stored => (entry.1, ofDict now stored)

theorem loadInto_eq (now : ℚ) (data : List (String × List (StoredItem π)))
    (queue : ReplicationQueue π) :
    loadInto now data queue = (entriesOf now data).foldl
      (fun queue entry => queue.put entry.1 entry.2) queue := by
  simp only [loadInto, entriesOf, List.foldl_flatMap, List.foldl_map]

/-- Of the items that are put, the last one at a path stays. -/
theorem item?_putAll (entries : List (String × QueueItem π))
    (queue : ReplicationQueue π) (fs : String) (path : π) :
    (entries.foldl (fun queue entry => queue.put entry.1 entry.2)
        queue).item? fs path =
      ((entries.reverse.find? fun entry =>
        fs = entry.1 ∧ path = entry.2.path).map Prod.snd).or
          (queue.item? fs path) := by
  induction entries generalizing queue with
  | nil => simp
  | cons entry entries induction =>
      rw [List.foldl_cons, induction, item?_put, List.reverse_cons,
        List.find?_append, Option.map_or, Option.or_assoc]
      by_cases here : fs = entry.1 ∧ path = entry.2.path
      · simp [here]
      · simp [here]

omit [DecidableEq π] in
theorem distinct_paths (queue : FileQueue π) :
    (queue.items.values.map QueueItem.path).Nodup := by
  have keys : queue.items.values.map QueueItem.path = queue.items.keys := by
    rw [Dict.values, Dict.keys, List.map_map]
    apply List.map_congr_left
    exact queue.keyed
  rw [keys]
  exact queue.items.nodup

/-- The item as a restart gives it back. -/
def rested (item : QueueItem π) : QueueItem π := { item with notBefore := 0 }

theorem mem_entriesOf_saved (queue : ReplicationQueue π) (now : ℚ)
    (fs : String) (item : QueueItem π) :
    (fs, item) ∈ entriesOf now queue.saved ↔
      (queue.item? fs item.path).map rested = some item := by
  simp only [entriesOf, saved, List.mem_flatMap, List.mem_map,
    List.mem_filter, Option.map_eq_some_iff]
  constructor
  · rintro ⟨_, ⟨⟨name, items⟩, ⟨listed, _⟩, rfl⟩, _, inside, same⟩
    obtain ⟨original, value, rfl⟩ := List.mem_map.mp inside
    obtain ⟨rfl, rfl⟩ := Prod.mk.inj same
    obtain ⟨key, found⟩ := (Dict.mem_values_iff _ original).mp value
    have here := (Dict.get?_eq_some_iff _ _ _).mpr listed
    refine ⟨original, ?_, rfl⟩
    rw [item?, ofFileSystem, here, Option.getD_some]
    exact items.path_of_get? found ▸ found
  · rintro ⟨original, found, rfl⟩
    unfold item? ofFileSystem at found
    cases listed : queue.items.get? fs with
    | none =>
        rw [listed] at found
        cases found
    | some items =>
        rw [listed, Option.getD_some] at found
        have value := (Dict.mem_values_iff _ _).mpr ⟨_, found⟩
        have filled : 0 < items.items.size := by
          have longer := List.length_pos_of_mem value
          rwa [Dict.values, List.length_map] at longer
        exact ⟨_, ⟨(fs, items), ⟨(Dict.get?_eq_some_iff _ _ _).mp listed,
          by simpa using filled⟩, rfl⟩, _, List.mem_map_of_mem value, rfl⟩

theorem item?_load_saved (queue : ReplicationQueue π) (now : ℚ)
    (fs : String) (path : π) :
    (load now queue.saved).item? fs path =
      (queue.item? fs path).map rested := by
  have nothing : item? (⟨Dict.empty⟩ : ReplicationQueue π) fs path = none :=
    rfl
  rw [load, loadInto_eq, item?_putAll, nothing, Option.or_none]
  cases last : (entriesOf now queue.saved).reverse.find? fun entry =>
      fs = entry.1 ∧ path = entry.2.path with
  | none =>
      cases found : queue.item? fs path with
      | none => rfl
      | some item =>
          have samePath := (queue.ofFileSystem fs).path_of_get? found
          have listed : (fs, rested item) ∈ entriesOf now queue.saved := by
            rw [mem_entriesOf_saved]
            exact samePath.symm ▸ found ▸ rfl
          have missed := List.find?_eq_none.mp last _
            (List.mem_reverse.mpr listed)
          exact (missed (by simp [rested, samePath])).elim
  | some entry =>
      obtain ⟨name, item⟩ := entry
      have matches_ := List.find?_some last
      obtain ⟨rfl, rfl⟩ : fs = name ∧ path = item.path := by
        simpa using matches_
      exact ((mem_entriesOf_saved queue now fs item).mp
        (List.mem_reverse.mp (List.mem_of_find?_eq_some last))).symm

end ReplicationQueue

/-- The queue of the running process and its file, and whether the file is
behind the queue. -/
structure PersistedQueue (π : Type) where
  queue : ReplicationQueue π
  file : List (String × List (ReplicationQueue.StoredItem π)) := []
  behind : Bool := false

/-- The calls that change the queue, each with whether its save is written,
and a restart, which may not be able to read the file. -/
inductive QueueCall (π : Type) where
  | enqueue (fs : String) (path : π) (now : ℚ) (written : Bool)
  | done (fs : String) (path : π) (written : Bool)
  | failed (fs : String) (path : π) (error : String) (now : ℚ)
      (written : Bool)
  | retryNow (only : Option String)
  | restart (now : ℚ) (readable : Bool)

namespace PersistedQueue

open ReplicationQueue

variable {π : Type} [DecidableEq π] {state next : PersistedQueue π}

def save (state : PersistedQueue π) (queue : ReplicationQueue π)
    (written : Bool) : PersistedQueue π :=
  if written then ⟨queue, queue.saved, false⟩
  else ⟨queue, state.file, true⟩

/-- Nothing is saved where nothing changed, nor where the delay of a failed
item overflows. -/
def step (state : PersistedQueue π) :
    QueueCall π → Option (PersistedQueue π)
  | .enqueue fs path now written =>
      let queue := state.queue.enqueue fs path now
      if state.queue.holds fs path then some { state with queue }
      else some (state.save queue written)
  | .done fs path written =>
      let queue := state.queue.done fs path
      if state.queue.holds fs path then some (state.save queue written)
      else some { state with queue }
  | .failed fs path error now written =>
      if state.queue.holds fs path then
        match state.queue.failed fs path error now with
        | (queue, .ok ()) => some (state.save queue written)
        | (queue, .error _) => some ⟨queue, state.file, true⟩
      else some state
  | .retryNow only =>
      some { state with queue := state.queue.retryNow only }
  | .restart now readable =>
      if readable then some ⟨load now state.file, state.file, false⟩
      else some ⟨⟨Dict.empty⟩, state.file, true⟩

/-- The file has what was saved once, and the items of the queue unless it is
behind. -/
structure Synced (state : PersistedQueue π) : Prop where
  file : ∃ earlier : ReplicationQueue π, state.file = earlier.saved
  items : state.behind = false → ∀ now fs path,
    (load now state.file).item? fs path =
      (state.queue.item? fs path).map rested

theorem Synced.of_behind (synced : state.Synced)
    (file : next.file = state.file) (behind : next.behind = true) :
    next.Synced := by
  constructor
  · rw [file]
    exact synced.file
  · intro written
    rw [behind] at written
    cases written

theorem Synced.save (synced : state.Synced) (queue : ReplicationQueue π)
    (written : Bool) : (state.save queue written).Synced := by
  cases written with
  | false => exact synced.of_behind rfl rfl
  | true => exact ⟨⟨queue, rfl⟩, fun _ => item?_load_saved queue⟩

/-- The queue changes in nothing that a restart gives back. -/
theorem Synced.congr (synced : state.Synced) {queue : ReplicationQueue π}
    (same : ∀ fs path, (queue.item? fs path).map rested =
      (state.queue.item? fs path).map rested) :
    Synced { state with queue } := by
  refine ⟨synced.file, ?_⟩
  intro written now fs path
  rw [same]
  exact synced.items written now fs path

theorem Synced.step (synced : state.Synced) {call : QueueCall π}
    (taken : state.step call = some next) : next.Synced := by
  cases call with
  | enqueue fs path now written =>
      simp only [PersistedQueue.step] at taken
      split at taken
      · rename_i held
        cases taken
        apply synced.congr
        intro other otherPath
        rw [item?_enqueue, if_neg]
        simp [held]
      · cases taken
        exact synced.save _ written
  | done fs path written =>
      simp only [PersistedQueue.step] at taken
      split at taken
      · cases taken
        exact synced.save _ written
      · rename_i free
        cases taken
        apply synced.congr
        intro other otherPath
        rw [item?_done]
        split
        · rename_i here
          rw [holds_eq, Bool.not_eq_true, Option.isSome_eq_false_iff,
            Option.isNone_iff_eq_none] at free
          rw [here.1, here.2, free]
        · rfl
  | failed fs path error now written =>
      simp only [PersistedQueue.step] at taken
      split at taken
      · split at taken
        · cases taken
          exact synced.save _ written
        · cases taken
          exact synced.of_behind rfl rfl
      · cases taken
        exact synced
  | retryNow only =>
      cases taken
      apply synced.congr
      intro fs path
      rw [item?_retryNow]
      split
      · rw [Option.map_map]
        rfl
      · rfl
  | restart now readable =>
      cases readable with
      | false =>
          cases taken
          exact synced.of_behind rfl rfl
      | true =>
          cases taken
          obtain ⟨earlier, same⟩ := synced.file
          refine ⟨⟨earlier, same⟩, ?_⟩
          intro _ later fs path
          dsimp only
          rw [same, item?_load_saved, item?_load_saved, Option.map_map]
          rfl

/-- However often the process is restarted, whichever saves fail and whatever
is queued, done, retried and failed in between: unless the file is behind, a
restart gives back every item, with its attempts and its last error, and no
other. -/
theorem restart_keeps_items {state : PersistedQueue π}
    (reachable : Reachable step ⟨⟨Dict.empty⟩, [], false⟩ state)
    (written : state.behind = false) (now : ℚ) (fs : String) (path : π) :
    (load now state.file).item? fs path =
      (state.queue.item? fs path).map fun item =>
        { item with notBefore := 0 } := by
  have synced : state.Synced := by
    apply reachable.invariant
    · intro before call after held taken
      exact held.step taken
    · exact ⟨⟨⟨Dict.empty⟩, rfl⟩, fun _ => item?_load_saved ⟨Dict.empty⟩⟩
  exact synced.items written now fs path

/-- A file fails twice and is queued again by hand; the first failure is not
saved. -/
def failingFile : List (QueueCall String) :=
  [.enqueue "fs" "/a" 3 true, .failed "fs" "/a" "refused" 5 false,
    .failed "fs" "/a" "timeout" 40 true, .retryNow none]

theorem failingFile_restored :
    ∃ state, Reachable step ⟨⟨Dict.empty⟩, [], false⟩ state ∧
      state.behind = false ∧
      ((load 100 state.file).item? "fs" "/a").map QueueItem.attempts =
        some 2 := by
  have reached : (run step ⟨⟨Dict.empty⟩, [], false⟩ failingFile).map
      (fun state => (state.behind,
        (state.queue.item? "fs" "/a").map QueueItem.attempts)) =
      some (false, some 2) := by
    decide +kernel
  obtain ⟨state, finished, summary⟩ := Option.map_eq_some_iff.mp reached
  obtain ⟨written, counted⟩ := Prod.mk.inj summary
  refine ⟨state, ⟨failingFile, finished⟩, written, ?_⟩
  rw [restart_keeps_items ⟨failingFile, finished⟩ written, Option.map_map]
  exact counted

end PersistedQueue

end Tgdcfs
