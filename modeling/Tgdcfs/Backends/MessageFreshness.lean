import Tgdcfs.Backends.MessageEdits
import Tgdcfs.Backends.MessageLookup

/-!
# Versions in the cache

A message that is fetched or cached is one of the versions of the channel.
Versions are only added, so what a lookup was answered with stays a version,
and an answer that is new enough stays new enough.
-/

namespace Tgdcfs

open Lib

namespace Channel

variable {channel next last : Channel}

/-- No version goes and no edit that returned is forgotten. -/
structure Grows (channel next : Channel) : Prop where
  versions : ∀ (id : Int) (version : Nat) message,
    (channel.versions id)[version]? = some message →
      (next.versions id)[version]? = some message
  completed : ∀ id edit, channel.completed id = some edit →
    ∃ later, next.completed id = some later ∧ edit ≤ later

theorem Grows.refl (channel : Channel) : channel.Grows channel :=
  ⟨fun _ _ _ found => found, fun _ edit found => ⟨edit, found, Nat.le_refl edit⟩⟩

theorem append_grows (channel : Channel) (id : Int) (message : MessageResp) :
    channel.Grows (channel.append id message) := by
  refine ⟨?_, fun _ edit found => ⟨edit, found, Nat.le_refl edit⟩⟩
  intro other version old found
  by_cases same : other = id
  · subst same
    obtain ⟨inside, _⟩ := List.getElem?_eq_some_iff.mp found
    simp only [append, Function.update_self]
    rw [List.getElem?_append_left inside]
    exact found
  · simp only [append, Function.update_of_ne same]
    exact found

theorem complete_grows (channel : Channel) (id : Int) (version : Nat) :
    channel.Grows (channel.complete id version) := by
  refine ⟨fun _ _ _ found => found, ?_⟩
  intro other edit found
  by_cases same : other = id
  · subst same
    simp only [complete, Function.update_self, found, Option.getD_some]
    exact ⟨_, rfl, Nat.le_max_left ..⟩
  · simp only [complete, Function.update_of_ne same]
    exact ⟨edit, found, Nat.le_refl edit⟩

/-- A bound on the newest edit that returned is one after another edit, if it
bounds that too. -/
theorem complete_le {id other : Int} {edit bound version : Nat}
    (bounded : ∀ edit, channel.completed other = some edit → edit ≤ bound)
    (newer : other = id → version ≤ bound)
    (found : (channel.complete id version).completed other = some edit) :
    edit ≤ bound := by
  by_cases same : other = id
  · subst same
    simp only [complete, Function.update_self, Option.some.injEq] at found
    have below : (channel.completed other).getD 0 ≤ bound := by
      cases known : channel.completed other with
      | none => exact Nat.zero_le _
      | some earlier => exact bounded earlier known
    rw [← found]
    exact Nat.max_le.mpr ⟨below, newer rfl⟩
  · simp only [complete, Function.update_of_ne same] at found
    exact bounded edit found

theorem read_spec {id : Int} {version : Nat} {message : MessageResp}
    (found : channel.read id = some (version, message)) :
    (channel.versions id)[version]? = some message ∧
      version + 1 = (channel.versions id).length := by
  obtain ⟨newest, isLast, same⟩ := Option.map_eq_some_iff.mp found
  cases same
  rw [List.getLast?_eq_getElem?] at isLast
  obtain ⟨inside, _⟩ := List.getElem?_eq_some_iff.mp isLast
  exact ⟨isLast, by omega⟩

/-- A version after an edit is an old one or the one of the edit. -/
theorem append_version {id other : Int} {version : Nat}
    {message found : MessageResp}
    (listed : ((channel.append id message).versions other)[version]? =
      some found) :
    (channel.versions other)[version]? = some found ∨
      (other = id ∧ version = (channel.versions id).length ∧
        found = message) := by
  by_cases same : other = id
  · subst same
    simp only [append, Function.update_self] at listed
    rw [List.getElem?_append] at listed
    split at listed
    · exact .inl listed
    · rename_i beyond
      right
      obtain ⟨inside, isMessage⟩ := List.getElem?_eq_some_iff.mp listed
      rw [List.length_singleton] at inside
      refine ⟨rfl, by omega, ?_⟩
      rw [← isMessage, List.getElem_singleton]
  · simp only [append, Function.update_of_ne same] at listed
    exact .inl listed

/-- The edits that a lookup knows of have returned. -/
def Returned (channel : Channel) (since : Int → Option Nat) : Prop :=
  ∀ id edit, since id = some edit →
    ∃ later, channel.completed id = some later ∧ edit ≤ later

theorem returned_completed (channel : Channel) :
    channel.Returned channel.completed :=
  fun _ edit known => ⟨edit, known, Nat.le_refl edit⟩

theorem Returned.grows {since : Int → Option Nat}
    (returned : channel.Returned since) (grows : channel.Grows next) :
    next.Returned since := by
  intro id edit known
  obtain ⟨later, completed, below⟩ := returned id edit known
  obtain ⟨last, completedNext, belowLast⟩ := grows.completed id later completed
  exact ⟨last, completedNext, Nat.le_trans below belowLast⟩

end Channel

theorem Answered.Shows.grows {answered : Answered} {channel next : Channel}
    (shows : answered.Shows channel) (grows : channel.Grows next) :
    answered.Shows next := by
  refine List.Forall₂.imp ?_ shows
  intro id message shown edit since
  obtain ⟨found, version, version', same, later, listed, text⟩ :=
    shown edit since
  exact ⟨found, version, version', same, later,
    grows.versions id version version' listed, text⟩

theorem Answered.shows_map {ids : List Int} {since : Int → Option Nat}
    {channel : Channel} (messageOf : Int → Option MessageResp)
    (shown : ∀ id ∈ ids, ∀ edit, since id = some edit →
      ∃ found version, messageOf id = some found ∧ edit ≤ version ∧
        (channel.versions id)[version]? = some found) :
    Answered.Shows ⟨ids, since, ids.map messageOf⟩ channel := by
  unfold Answered.Shows
  rw [List.forall₂_map_right_iff, List.forall₂_same]
  intro id member edit known
  obtain ⟨found, version, same, later, listed⟩ := shown id member edit known
  exact ⟨found, version, found, same, later, listed, rfl⟩

section Cache

variable {σ : Type} {lru : LRU σ Int (Option MessageResp)} {capacity : Nat}

/-- The message the cache answers for an id. -/
def cachedMessage (lru : LRU σ Int (Option MessageResp)) (cache : σ)
    (id : Int) : Option MessageResp :=
  ((lru.items cache).lookup id).join

variable (lawful : lru.Lawful capacity)
include lawful

theorem gets_messages (ids : List Int) (cache : σ) :
    (MessageCache.gets lru ids cache).2 =
      ids.map (cachedMessage lru cache) :=
  (gets_spec lawful ids cache).2

theorem cachedMessage_gets (ids : List Int) (cache : σ) (id : Int) :
    cachedMessage lru (MessageCache.gets lru ids cache).1 id =
      cachedMessage lru cache id := by
  unfold cachedMessage
  rw [(gets_spec lawful ids cache).1, Recency.lookup_touchAll]

theorem cachedMessage_findNonexistent (ids : List Int) (cache : σ) (id : Int) :
    cachedMessage lru (MessageCache.findNonexistent lru ids cache).1 id =
      cachedMessage lru cache id := by
  unfold cachedMessage
  rw [(findNonexistent_spec lawful ids cache).1, Recency.lookup_touchAll]

theorem findNonexistent_ids (ids : List Int) (cache : σ) :
    (MessageCache.findNonexistent lru ids cache).2 =
      ids.filter fun id => (cachedMessage lru cache id).isNone :=
  (findNonexistent_spec lawful ids cache).2

theorem cachedMessage_set {cache : σ} {key id : Int}
    {value : Option MessageResp} {message : MessageResp}
    (cached : cachedMessage lru (lru.set key value cache) id = some message) :
    (id = key ∧ value = some message) ∨
      (id ≠ key ∧ cachedMessage lru cache id = some message) := by
  unfold cachedMessage at cached
  rw [lawful.set_items, Recency.lookup_take] at cached
  split at cached
  · rw [Recency.lookup_put] at cached
    split at cached
    · rename_i same
      exact .inl ⟨same, cached⟩
    · rename_i different
      exact .inr ⟨different, cached⟩
  · cases cached

omit lawful

/-- The requested message is fetched or cached, and storing the fetched ones
does not push it out. -/
def Held (capacity : Nat) (fetched : List Int)
    (items : List (Int × Option MessageResp)) (id : Int) : Prop :=
  (id ∈ fetched ∨ ((items.lookup id).join).isSome) ∧
    id ∈ (Recency.recent fetched (Recency.keys items)).take capacity

variable {messageOf : Int → Option MessageResp} {missing : List Int}
  {cache stored : σ}

theorem fetchedEntries_names :
    Recency.keys (fetchedEntries messageOf missing) =
      missing.filter fun id => (messageOf id).isSome := by
  unfold fetchedEntries Recency.keys
  induction missing with
  | nil => rfl
  | cons id missing ih =>
      cases found : messageOf id with
      | none =>
          rw [List.filterMap_cons_none (by rw [found]; rfl), ih,
            List.filter_cons_of_neg (by simp [found])]
      | some message =>
          rw [List.filterMap_cons_some (by rw [found]; rfl), List.map_cons, ih,
            List.filter_cons_of_pos (by simp [found])]

theorem stored_items (positive : 1 ≤ capacity) (lawful : lru.Lawful capacity)
    (storing : lru.items stored = Recency.putAllWithin capacity
      (fetchedEntries messageOf missing) (lru.items cache)) (id : Int) :
    cachedMessage lru stored id =
      if id ∈ (Recency.recent
          (missing.filter fun id => (messageOf id).isSome)
          (Recency.keys (lru.items cache))).take capacity then
        if id ∈ missing.filter fun id => (messageOf id).isSome then
          messageOf id
        else cachedMessage lru cache id
      else none := by
  have whole : (lru.items cache).take capacity = lru.items cache :=
    List.take_of_length_le (lawful.items_length cache)
  rw [← whole, Recency.putAllWithin_eq positive _
    (lawful.items_nodup cache)] at storing
  unfold cachedMessage
  rw [storing, Recency.lookup_take, Recency.keys_putAll,
    Recency.lookup_putAll fetchedEntries_agree, fetchedEntries_names]
  split
  · split <;> rfl
  · rfl

/-- After the fetched messages were stored, a cached message is one of them
or was cached before. -/
theorem cachedMessage_stored (positive : 1 ≤ capacity)
    (lawful : lru.Lawful capacity)
    (storing : lru.items stored = Recency.putAllWithin capacity
      (fetchedEntries messageOf missing) (lru.items cache))
    {id : Int} {message : MessageResp}
    (cached : cachedMessage lru stored id = some message) :
    messageOf id = some message ∨
      cachedMessage lru cache id = some message := by
  rw [stored_items positive lawful storing] at cached
  split at cached
  · split at cached
    · exact .inl cached
    · exact .inr cached
  · cases cached

theorem Held.cached (positive : 1 ≤ capacity) (lawful : lru.Lawful capacity)
    (storing : lru.items stored = Recency.putAllWithin capacity
      (fetchedEntries messageOf missing) (lru.items cache)) {id : Int}
    (held : Held capacity (missing.filter fun id => (messageOf id).isSome)
      (lru.items cache) id) :
    ∃ message, cachedMessage lru stored id = some message := by
  rw [stored_items positive lawful storing, if_pos held.2]
  split
  · rename_i fetched
    exact Option.isSome_iff_exists.mp (List.mem_filter.mp fetched).2
  · rename_i kept
    exact Option.isSome_iff_exists.mp (held.1.resolve_left kept)

end Cache

end Tgdcfs
