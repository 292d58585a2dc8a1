import Tgdcfs.Lib.Dict
import Tgdcfs.Upload.Message

/-!
# The chunk cache

`ChunkCache` keeps complete blocks of message content and forgets the least
recently used ones when they exceed its budget of bytes.
-/

namespace Tgdcfs

open Lib

/-- `(channel id, message id, block index)`. -/
abbrev BlockKey := Int × Int × Nat

/-- The blocks stand in the order of their last use, the oldest first. -/
structure ChunkCache where
  budget : Int
  blocks : Dict BlockKey Bytes
  size : Int
  hits : Nat
  misses : Nat

namespace ChunkCache

/-- `ChunkCache(budget_bytes)`. -/
def new (budgetBytes : Int) : ChunkCache :=
  { budget := max 0 budgetBytes
    blocks := .empty
    size := 0
    hits := 0
    misses := 0 }

def enabled (cache : ChunkCache) : Bool := 0 < cache.budget

def get (key : BlockKey) (cache : ChunkCache) : ChunkCache × Option Bytes :=
  if cache.enabled then
    match cache.blocks.get? key with
    | none => ({ cache with misses := cache.misses + 1 }, none)
    | some block =>
        ({ cache with
            blocks := (cache.blocks.erase key).set key block
            hits := cache.hits + 1 }, some block)
  else (cache, none)

def contains (cache : ChunkCache) (key : BlockKey) : Bool :=
  cache.enabled && cache.blocks.contains key

/-- `self._size -= len(self._blocks.pop(key))`. -/
def pop (key : BlockKey) (cache : ChunkCache) : ChunkCache :=
  { cache with
    blocks := cache.blocks.erase key
    size := cache.size - ((cache.blocks.get? key).getD []).length }

/-- `popitem(last=False)` while the blocks exceed the budget. -/
def evict : List BlockKey → ChunkCache → ChunkCache
  | [], cache => cache
  | key :: keys, cache =>
      if cache.budget < cache.size then evict keys (cache.pop key) else cache

def put (key : BlockKey) (block : Bytes) (cache : ChunkCache) : ChunkCache :=
  if ¬cache.enabled ∨ block = [] then cache
  else if cache.budget < block.length then cache
  else
    let cache := if cache.blocks.contains key then cache.pop key else cache
    let cache :=
      { cache with
        blocks := cache.blocks.set key block
        size := cache.size + block.length }
    evict cache.blocks.keys cache

/-- Drop every block of one message. -/
def invalidate (channel messageId : Int) (cache : ChunkCache) : ChunkCache :=
  if cache.enabled then
    let stale := cache.blocks.keys.filter fun key =>
      key.1 = channel ∧ key.2.1 = messageId
    stale.foldl (fun cache key => cache.pop key) cache
  else cache

def clear (cache : ChunkCache) : ChunkCache :=
  { cache with
    blocks := .empty
    size := 0
    hits := 0
    misses := 0 }

/-- The account is right, within the budget, and every block is a `good`
one. -/
structure Sound (good : BlockKey → Bytes → Prop) (cache : ChunkCache) :
    Prop where
  size_eq : cache.size = cache.blocks.weight List.length
  bounded : cache.size ≤ cache.budget
  stored : ∀ key block, cache.blocks.get? key = some block → good key block

/-- As `Sound`, but the budget may be exceeded: what holds while blocks are
exchanged. -/
structure Counted (good : BlockKey → Bytes → Prop) (budget : Int)
    (cache : ChunkCache) : Prop where
  budget_eq : cache.budget = budget
  size_eq : cache.size = cache.blocks.weight List.length
  stored : ∀ key block, cache.blocks.get? key = some block → good key block

variable {good : BlockKey → Bytes → Prop} {budget : Int} {cache : ChunkCache}

theorem Sound.counted (sound : cache.Sound good) :
    cache.Counted good cache.budget :=
  ⟨rfl, sound.size_eq, sound.stored⟩

theorem Sound.budget_nonneg (sound : cache.Sound good) : 0 ≤ cache.budget := by
  have count := sound.size_eq
  have bound := sound.bounded
  omega

theorem new_sound (good : BlockKey → Bytes → Prop) (budgetBytes : Int) :
    (new budgetBytes).Sound good := by
  constructor
  · rfl
  · exact Int.le_max_left 0 budgetBytes
  · intro key block found
    cases found

theorem clear_sound (sound : cache.Sound good) : cache.clear.Sound good := by
  constructor
  · rfl
  · exact sound.budget_nonneg
  · intro key block found
    cases found

theorem Counted.pop (counted : cache.Counted good budget) (key : BlockKey) :
    (cache.pop key).Counted good budget := by
  constructor
  · exact counted.budget_eq
  · have before := counted.size_eq
    change cache.size - _ = ((cache.blocks.erase key).weight List.length : Nat)
    cases found : cache.blocks.get? key with
    | none =>
        rw [Dict.erase_of_absent cache.blocks key found]
        simpa using before
    | some block =>
        have balance := Dict.weight_erase List.length cache.blocks found
        simp only [Option.getD_some]
        omega
  · intro other block found
    exact counted.stored other block (Dict.get?_of_erase found)

theorem pop_size_le (key : BlockKey) (cache : ChunkCache) :
    (cache.pop key).size ≤ cache.size := by
  change cache.size - _ ≤ cache.size
  omega

theorem Counted.popAll (counted : cache.Counted good budget)
    (keys : List BlockKey) :
    (keys.foldl (fun cache key => cache.pop key) cache).Counted good budget ∧
      (keys.foldl (fun cache key => cache.pop key) cache).size ≤
        cache.size := by
  induction keys generalizing cache with
  | nil => exact ⟨counted, Int.le_refl _⟩
  | cons key keys induction =>
      obtain ⟨rest, smaller⟩ := induction (counted.pop key)
      exact ⟨rest, smaller.trans (pop_size_le key cache)⟩

/-- Evicting may go through all keys; then nothing is left to count. -/
theorem Counted.evict (counted : cache.Counted good budget)
    (nonneg : 0 ≤ budget) {keys : List BlockKey}
    (covers : ∀ key ∈ cache.blocks.keys, key ∈ keys) :
    (evict keys cache).Sound good := by
  induction keys generalizing cache with
  | nil =>
      have empty : cache.blocks.items = [] := by
        apply List.eq_nil_iff_forall_not_mem.mpr
        intro item member
        exact List.not_mem_nil
          (covers item.1 (List.mem_map.mpr ⟨item, member, rfl⟩))
      have vacant : cache.size = 0 := by
        simp [counted.size_eq, Dict.weight, empty]
      constructor
      · exact counted.size_eq
      · change cache.size ≤ cache.budget
        rw [vacant, counted.budget_eq]
        exact nonneg
      · exact counted.stored
  | cons key keys induction =>
      unfold ChunkCache.evict
      split
      · apply induction (counted.pop key)
        intro other member
        obtain ⟨item, inside, same⟩ := List.mem_map.mp member
        obtain ⟨before, different⟩ :=
          (Dict.mem_items_erase cache.blocks key item).mp inside
        have listed := covers other
          (List.mem_map.mpr ⟨item, before, same⟩)
        rcases List.mem_cons.mp listed with first | later
        · exact absurd (same.trans first) different
        · exact later
      · exact ⟨counted.size_eq, by omega, counted.stored⟩

theorem get_sound (sound : cache.Sound good) (key : BlockKey) :
    (cache.get key).1.Sound good := by
  unfold ChunkCache.get
  split
  · cases found : cache.blocks.get? key with
    | none => exact ⟨sound.size_eq, sound.bounded, sound.stored⟩
    | some block =>
        have missing : (cache.blocks.erase key).get? key = none := by
          simp [Dict.get?_erase]
        have added := Dict.weight_set_of_absent List.length _ block missing
        have taken := Dict.weight_erase List.length cache.blocks found
        have before := sound.size_eq
        constructor
        · change cache.size = _
          dsimp only
          omega
        · exact sound.bounded
        · intro other stored present
          dsimp only at present
          rw [Dict.get?_set] at present
          split at present
          · rename_i same
            cases present
            exact same ▸ sound.stored key block found
          · exact sound.stored other stored (Dict.get?_of_erase present)
  · exact sound

theorem get_good (sound : cache.Sound good) {key : BlockKey} {block : Bytes}
    (found : (cache.get key).2 = some block) : good key block := by
  unfold ChunkCache.get at found
  split at found
  · cases present : cache.blocks.get? key with
    | none =>
        rw [present] at found
        cases found
    | some stored =>
        rw [present] at found
        cases found
        exact sound.stored key block present
  · cases found

theorem put_sound (sound : cache.Sound good) {key : BlockKey} {block : Bytes}
    (complete : good key block) : (cache.put key block).Sound good := by
  unfold ChunkCache.put
  split
  · exact sound
  · split
    · exact sound
    · dsimp only
      have nonneg := sound.budget_nonneg
      -- An old block under the key is out of the account first.
      have room : ∃ before : ChunkCache,
          before = (if cache.blocks.contains key then cache.pop key
            else cache) ∧
          before.Counted good cache.budget ∧
            before.blocks.get? key = none := by
        refine ⟨_, rfl, ?_⟩
        split
        · refine ⟨sound.counted.pop key, ?_⟩
          simp [pop, Dict.get?_erase]
        · rename_i absent
          refine ⟨sound.counted, ?_⟩
          simpa [Dict.contains] using absent
      obtain ⟨before, same, counted, missing⟩ := room
      rw [← same]
      have added := Dict.weight_set_of_absent List.length _ block missing
      have count := counted.size_eq
      refine Counted.evict ?_ nonneg fun _ => id
      constructor
      · exact counted.budget_eq
      · dsimp only
        omega
      · intro other stored present
        dsimp only at present
        rw [Dict.get?_set] at present
        split at present
        · rename_i here
          cases present
          exact here ▸ complete
        · exact counted.stored other stored present

theorem invalidate_sound (sound : cache.Sound good)
    (channel messageId : Int) :
    (cache.invalidate channel messageId).Sound good := by
  unfold ChunkCache.invalidate
  split
  · dsimp only
    obtain ⟨counted, smaller⟩ := sound.counted.popAll
      (cache.blocks.keys.filter fun key =>
        key.1 = channel ∧ key.2.1 = messageId)
    have bound := sound.bounded
    have same := counted.budget_eq
    exact ⟨counted.size_eq, by omega, counted.stored⟩
  · exact sound

end ChunkCache

end Tgdcfs
