import Tgdcfs.Backends.MessageCache

/-!
# When a lookup answers with every message

The answer of a lookup is read back out of the cache after the missing
messages were stored.  It holds every message of the channel exactly when
those that the lookup uses last fit into the cache.
-/

namespace Tgdcfs

open Lib

section Cache

variable {σ κ μ : Type} [DecidableEq κ] {lru : LRU σ κ (Option μ)}
  {capacity : Nat}

/-- A lookup of several keys uses them one after the other and answers with
what is stored. -/
theorem gets_spec (lawful : lru.Lawful capacity) (ids : List κ)
    (cache : σ) :
    lru.items (MessageCache.gets lru ids cache).1 =
        Recency.touchAll ids (lru.items cache) ∧
      (MessageCache.gets lru ids cache).2 =
        ids.map fun id => ((lru.items cache).lookup id).join := by
  induction ids generalizing cache with
  | nil => exact ⟨rfl, rfl⟩
  | cons id ids induction =>
      obtain ⟨items, values⟩ := induction (lru.get id cache).1
      rw [lawful.get_items] at items values
      refine ⟨items, ?_⟩
      change (lru.get id cache).2.join ::
        (MessageCache.gets lru ids (lru.get id cache).1).2 = _
      rw [values, lawful.get_value, List.map_cons]
      simp only [Recency.lookup_touch]

theorem findNonexistent_spec (lawful : lru.Lawful capacity) (ids : List κ)
    (cache : σ) :
    lru.items (MessageCache.findNonexistent lru ids cache).1 =
        Recency.touchAll ids (lru.items cache) ∧
      (MessageCache.findNonexistent lru ids cache).2 =
        ids.filter fun id =>
          ((lru.items cache).lookup id).join.isNone := by
  induction ids generalizing cache with
  | nil => exact ⟨rfl, rfl⟩
  | cons id ids induction =>
      obtain ⟨items, missing⟩ := induction (lru.get id cache).1
      rw [lawful.get_items] at items missing
      refine ⟨items, ?_⟩
      change (if (lru.get id cache).2.join.isNone then
        id :: (MessageCache.findNonexistent lru ids
          (lru.get id cache).1).2
        else (MessageCache.findNonexistent lru ids
          (lru.get id cache).1).2) = _
      simp only [Recency.lookup_touch] at missing
      rw [missing, lawful.get_value, List.filter_cons]

variable (channel : κ → Option μ) (ids : List κ) (items : List (κ × Option μ))

/-- The messages of the channel that the cache does not answer. -/
def toFetch : List κ :=
  ids.filter fun id => (items.lookup id).join.isNone && (channel id).isSome

/-- The requested keys that stay in the cache as they are. -/
def toKeep : List κ :=
  (ids.filter (· ∈ Recency.keys items)).dedup.filter
    (· ∉ toFetch channel ids items)

/-- The requested keys in the order of their last use, from the first one on
that names a message, fit into the cache. -/
def Fits (capacity : Nat) : Prop :=
  ((toKeep channel ids items ++ (toFetch channel ids items).dedup).dropWhile
    fun id => ¬(channel id).isSome).length ≤ capacity

/-- What the fetched messages are stored as. -/
def fetchedEntries (missing : List κ) : List (κ × Option μ) :=
  missing.filterMap fun id => (channel id).map fun message =>
    (id, some message)

variable {channel ids items}

theorem fetchedEntries_keys :
    Recency.keys (fetchedEntries channel
      (ids.filter fun id => (items.lookup id).join.isNone)) =
        toFetch channel ids items := by
  unfold fetchedEntries toFetch Recency.keys
  induction ids with
  | nil => rfl
  | cons id ids induction =>
      cases absent : (items.lookup id).join.isNone with
      | false =>
          rw [List.filter_cons_of_neg (by simp [absent]),
            List.filter_cons_of_neg (by simp [absent]), induction]
      | true =>
          rw [List.filter_cons_of_pos (by simp [absent])]
          cases exists_ : channel id with
          | none =>
              rw [List.filterMap_cons_none (by rw [exists_]; rfl),
                List.filter_cons_of_neg (by simp [exists_]), induction]
          | some message =>
              rw [List.filterMap_cons_some (by rw [exists_]; rfl),
                List.filter_cons_of_pos (by simp [exists_, absent]),
                List.map_cons, induction]

omit [DecidableEq κ] in
theorem fetchedEntries_agree {missing : List κ} :
    ∀ entry ∈ fetchedEntries channel missing,
      entry.2 = channel entry.1 := by
  intro entry member
  obtain ⟨id, _, made⟩ := List.mem_filterMap.mp member
  obtain ⟨message, found, same⟩ := Option.map_eq_some_iff.mp made
  cases same
  exact found.symm

/-- The keys in the order of their last use, the requested ones first. -/
theorem lookup_keys :
    Recency.keys (Recency.putAll (fetchedEntries channel
      (ids.filter fun id => (items.lookup id).join.isNone))
      (Recency.touchAll ids items)) =
    (toKeep channel ids items ++ (toFetch channel ids items).dedup).reverse ++
      ((Recency.keys items).filter
        (· ∉ ids.filter (· ∈ Recency.keys items))).filter
          (· ∉ toFetch channel ids items) := by
  rw [Recency.keys_putAll, fetchedEntries_keys, Recency.keys_touchAll,
    Recency.recent, Recency.recent, List.filter_append, List.reverse_append,
    List.append_assoc, toKeep, List.filter_reverse]

/-- Whether a requested message is answered depends on its place among the
keys. -/
theorem lookup_value
    (consistent : ∀ id message, (items.lookup id).join = some message →
      channel id = some message) {id : κ} (requested : id ∈ ids)
    (count : Nat) :
    (((Recency.putAll (fetchedEntries channel
      (ids.filter fun id => (items.lookup id).join.isNone))
      (Recency.touchAll ids items)).take count).lookup id).join =
        channel id ↔
      ((channel id).isSome → id ∈ (Recency.keys (Recency.putAll
        (fetchedEntries channel
          (ids.filter fun id => (items.lookup id).join.isNone))
        (Recency.touchAll ids items))).take count) := by
  have stored : ((Recency.putAll (fetchedEntries channel
      (ids.filter fun id => (items.lookup id).join.isNone))
      (Recency.touchAll ids items)).lookup id).join = channel id := by
    rw [Recency.lookup_putAll fetchedEntries_agree, fetchedEntries_keys,
      Recency.lookup_touchAll]
    split
    · rfl
    · rename_i kept
      cases found : (items.lookup id).join with
      | some message => exact (consistent id message found).symm
      | none =>
          by_contra different
          apply kept
          refine List.mem_filter.mpr ⟨requested, ?_⟩
          rw [found]
          exact Option.isSome_iff_ne_none.mpr (Ne.symm different)
  rw [Recency.lookup_take]
  split
  · rename_i inside
    exact ⟨fun _ _ => inside, fun _ => stored⟩
  · rename_i outside
    constructor
    · intro same exists_
      rw [← same] at exists_
      cases exists_
    · intro needed
      cases exists_ : channel id with
      | none => rfl
      | some message => exact (outside (needed (by rw [exists_]; rfl))).elim

theorem requested_iff {id : κ} (exists_ : (channel id).isSome) :
    id ∈ (toKeep channel ids items ++
      (toFetch channel ids items).dedup).reverse ↔ id ∈ ids := by
  rw [List.mem_reverse, List.mem_append, List.mem_dedup, toKeep,
    List.mem_filter, List.mem_dedup, List.mem_filter]
  constructor
  · rintro (⟨⟨requested, _⟩, _⟩ | fetched)
    · exact requested
    · exact (List.mem_filter.mp fetched).1
  · intro requested
    by_cases fetched : id ∈ toFetch channel ids items
    · exact .inr fetched
    · refine .inl ⟨⟨requested, ?_⟩, by simpa using fetched⟩
      by_contra missing
      apply fetched
      refine List.mem_filter.mpr ⟨requested, ?_⟩
      have absent := Recency.lookup_eq_none_iff.mpr (by simpa using missing)
      rw [absent, exists_]
      rfl

/-- The bounded cache answers with every requested message exactly when those
fit. -/
theorem lookup_complete_iff (nodup : (Recency.keys items).Nodup)
    (consistent : ∀ id message, (items.lookup id).join = some message →
      channel id = some message) (capacity : Nat) :
    (ids.map fun id => (((Recency.putAll (fetchedEntries channel
      (ids.filter fun id => (items.lookup id).join.isNone))
      (Recency.touchAll ids items)).take capacity).lookup id).join) =
        ids.map channel ↔
      Fits channel ids items capacity := by
  have distinct : (Recency.keys (Recency.putAll (fetchedEntries channel
      (ids.filter fun id => (items.lookup id).join.isNone))
      (Recency.touchAll ids items))).Nodup := by
    apply Recency.keys_putAll_nodup
    rw [Recency.keys_touchAll]
    exact Recency.recent_nodup nodup
  rw [lookup_keys] at distinct
  have reached := Recency.wanted_in_take_iff
    (fun id => (channel id).isSome) capacity distinct
  rw [List.reverse_reverse] at reached
  rw [List.map_inj_left, Fits, ← reached]
  constructor
  · intro answered id member exists_
    have requested := (requested_iff exists_).mp member
    have inside := (lookup_value consistent requested capacity).mp
      (answered id requested) exists_
    rwa [lookup_keys] at inside
  · intro inside id requested
    rw [lookup_value consistent requested, lookup_keys]
    intro exists_
    exact inside id ((requested_iff exists_).mpr requested)
      exists_

/-- The cache holds nothing that differs from the channel. -/
def Consistent (lru : LRU σ κ (Option μ)) (cache : σ)
    (channel : κ → Option μ) : Prop :=
  ∀ id message, ((lru.items cache).lookup id).join = some message →
    channel id = some message

/-- The answer read back after the missing messages were stored. -/
theorem gets_complete_iff {before used : σ} (stored : σ)
    (positive : 1 ≤ capacity) (lawful : lru.Lawful capacity)
    (consistent : Consistent lru before channel)
    (usedItems : lru.items used =
      Recency.touchAll ids (lru.items before))
    (storedItems : lru.items stored = Recency.putAllWithin capacity
      (fetchedEntries channel (ids.filter fun id =>
        ((lru.items before).lookup id).join.isNone)) (lru.items used)) :
    (MessageCache.gets lru ids stored).2 = ids.map channel ↔
      Fits channel ids (lru.items before) capacity := by
  have whole : lru.items used = (lru.items used).take capacity := by
    rw [List.take_of_length_le (lawful.items_length used)]
  rw [whole, Recency.putAllWithin_eq positive _ (lawful.items_nodup used),
    usedItems] at storedItems
  rw [(gets_spec lawful ids stored).2, storedItems]
  exact lookup_complete_iff (lawful.items_nodup before) consistent capacity

end Cache

section Stores

variable {σ : Type} {lru : LRU σ Int (Option MessageResp)} {capacity : Nat}

theorem storeMessages_items (lawful : lru.Lawful capacity)
    (messages : List MessageResp) (cache : σ) :
    lru.items (storeMessages lru messages cache) =
      Recency.putAllWithin capacity
        (messages.map fun message => (message.messageId, some message))
        (lru.items cache) := by
  induction messages generalizing cache with
  | nil => rfl
  | cons message messages induction =>
      change lru.items (storeMessages lru messages
        (lru.set message.messageId (some message) cache)) = _
      rw [induction, lawful.set_items]
      rfl

theorem transformed_entries {ρ : Type} (transform : ρ → MessageResp)
    {channel : Int → Option ρ}
    (named : ∀ id message, channel id = some message →
      (transform message).messageId = id) (missing : List Int) :
    (excludeNone ((missing.map channel).map (Option.map transform))).map
        (fun message => (message.messageId, some message)) =
      fetchedEntries (fun id => (channel id).map transform) missing := by
  unfold excludeNone fetchedEntries
  induction missing with
  | nil => rfl
  | cons id missing induction =>
      rw [List.map_cons, List.map_cons]
      cases found : channel id with
      | none =>
          rw [List.filterMap_cons_none (by rfl),
            List.filterMap_cons_none (by dsimp only; rw [found]; rfl), induction]
      | some message =>
          rw [List.filterMap_cons_some (by rfl),
            List.filterMap_cons_some (by dsimp only; rw [found]; rfl),
            List.map_cons, induction, named id message found]

variable {cache : σ}

theorem returns_iff {σ ε α : Type} {result : σ × α} {answer : α} :
    (∃ after, (Except.ok result : Except ε (σ × α)) =
      .ok (after, answer)) ↔ result.2 = answer := by
  constructor
  · rintro ⟨after, same⟩
    rw [Except.ok.inj same]
  · intro same
    exact ⟨result.1, by rw [← same]⟩

theorem telethon_complete_iff (positive : 1 ≤ capacity)
    (lawful : lru.Lawful capacity) {channel : Int → Option TelethonMessage}
    {fetch : List Int → TelethonResponse}
    (named : ∀ id message, channel id = some message → message.id = id)
    (answers : ∀ ids, fetch ids = .totalList (ids.map channel))
    (consistent : Consistent lru cache fun id =>
      (channel id).map TelethonMessage.transform) (ids : List Int) :
    (∃ after, telethonGetMessages lru fetch ids cache = .ok (after,
        ids.map fun id => (channel id).map TelethonMessage.transform)) ↔
      Fits (fun id => (channel id).map TelethonMessage.transform) ids
        (lru.items cache) capacity := by
  obtain ⟨usedItems, missing⟩ := findNonexistent_spec lawful ids cache
  have complete := fun stored => gets_complete_iff stored positive lawful
    consistent usedItems
  rw [← missing] at complete
  unfold telethonGetMessages
  dsimp only
  split
  · rename_i nothing
    rw [List.isEmpty_iff.mp nothing] at complete
    rw [returns_iff, complete _ rfl]
  · have stored := storeMessages_items lawful (excludeNone
      (((MessageCache.findNonexistent lru ids cache).2.map channel).map
        (Option.map TelethonMessage.transform)))
      (MessageCache.findNonexistent lru ids cache).1
    rw [transformed_entries TelethonMessage.transform named] at stored
    rw [answers, returns_iff, complete _ stored]

theorem pyrogram_complete_iff (positive : 1 ≤ capacity)
    (lawful : lru.Lawful capacity) {decode : String → FileId} {chat : Int}
    {channel : Int → Option PyrogramMessage}
    {fetch : List Int → PyrogramResponse}
    (named : ∀ id message, channel id = some message → message.id = id)
    (answers : ∀ ids, fetch ids = .messages (ids.map channel) ∨
      ∃ id message, ids = [id] ∧ channel id = some message ∧
        fetch ids = .message message)
    (consistent : Consistent lru cache fun id =>
      (channel id).map (PyrogramMessage.transform decode))
    (ids : List Int) :
    (∃ after, pyrogramGetMessages lru decode fetch chat ids cache =
        .ok (after, ids.map fun id =>
          (channel id).map (PyrogramMessage.transform decode))) ↔
      Fits (fun id => (channel id).map (PyrogramMessage.transform decode))
        ids (lru.items cache) capacity := by
  obtain ⟨usedItems, missing⟩ := findNonexistent_spec lawful ids cache
  have complete := fun stored => gets_complete_iff stored positive lawful
    consistent usedItems
  rw [← missing] at complete
  unfold pyrogramGetMessages
  dsimp only
  split
  · rename_i nothing
    rw [List.isEmpty_iff.mp nothing] at complete
    rw [returns_iff, complete _ rfl]
  · rename_i asked
    have stored := storeMessages_items lawful (excludeNone
      (((MessageCache.findNonexistent lru ids cache).2.map channel).map
        (Option.map (PyrogramMessage.transform decode))))
      (MessageCache.findNonexistent lru ids cache).1
    rw [transformed_entries (PyrogramMessage.transform decode) named]
      at stored
    rcases answers (MessageCache.findNonexistent lru ids cache).2 with
      many | ⟨id, message, single, found, one⟩
    · cases fetched : (MessageCache.findNonexistent lru ids cache).2 with
      | nil => simp [fetched] at asked
      | cons first rest =>
          rw [fetched, List.map_cons] at many
          rw [fetched] at complete stored
          rw [List.map_cons] at stored
          rw [many, returns_iff, complete _ stored]
    · rw [single, List.map_singleton, found] at stored
      rw [single] at one
      rw [single, one, returns_iff, complete _ (by rw [single]; exact stored)]

theorem retry_returned {α : Type} {action : Nat → Attempt α} {value : α}
    {count : Nat} (maxRetries : Nat) {left first : Nat} (enough : count < left)
    (before : ∀ earlier < count, action (first + earlier) = .transient)
    (answer : action (first + count) = .returned value) :
    retry action maxRetries left first = .ok value := by
  induction count generalizing left first with
  | zero =>
      obtain ⟨rest, rfl⟩ : ∃ rest, left = rest + 1 := ⟨left - 1, by omega⟩
      rw [Nat.add_zero] at answer
      rw [retry, answer]
  | succ count induction =>
      obtain ⟨rest, rfl⟩ : ∃ rest, left = rest + 1 := ⟨left - 1, by omega⟩
      have transient := before 0 (Nat.succ_pos _)
      rw [Nat.add_zero] at transient
      rw [retry, transient]
      apply induction (by omega)
      · intro earlier smaller
        have next := before (earlier + 1) (by omega)
        rwa [← Nat.add_assoc, Nat.add_right_comm] at next
      · rwa [← Nat.add_assoc, Nat.add_right_comm] at answer

theorem storeResolved_items (lawful : lru.Lawful capacity)
    {download : Int → Option String} {raw channel : Int → Option MessageResp}
    (absent : ∀ id, raw id = none → channel id = none)
    (resolves : ∀ id message, raw id = some message → ∃ resolved,
      resolveOverflow download message = .ok resolved ∧
        channel id = some resolved) (missing : List Int) (cache : σ) :
    ∃ stored, storeResolved lru download (missing.zip (missing.map raw))
        cache = .ok stored ∧
      lru.items stored = Recency.putAllWithin capacity
        (fetchedEntries channel missing) (lru.items cache) := by
  induction missing generalizing cache with
  | nil => exact ⟨cache, rfl, rfl⟩
  | cons id missing induction =>
      rw [List.map_cons, List.zip_cons_cons, fetchedEntries]
      cases found : raw id with
      | none =>
          rw [List.filterMap_cons_none (by rw [absent id found]; rfl)]
          exact induction cache
      | some message =>
          obtain ⟨resolved, resolving, exists_⟩ := resolves id message found
          rw [List.filterMap_cons_some (by rw [exists_]; rfl),
            storeResolved, resolving]
          obtain ⟨stored, storing, items⟩ :=
            induction (lru.set id (some resolved) cache)
          refine ⟨stored, storing, ?_⟩
          rw [items, lawful.set_items]
          rfl

theorem zip_missing {κ μ : Type} (ids : List κ) (value : κ → Option μ) :
    ((ids.zip (ids.map value)).filterMap fun entry =>
      if entry.2.isNone then some entry.1 else none) =
        ids.filter fun id => (value id).isNone := by
  induction ids with
  | nil => rfl
  | cons id ids induction =>
      rw [List.map_cons, List.zip_cons_cons, List.filter_cons,
        List.filterMap_cons, induction]
      cases value id <;> rfl

theorem discord_complete_iff (positive : 1 ≤ capacity)
    (lawful : lru.Lawful capacity) {download : Int → Option String}
    {raw channel : Int → Option MessageResp}
    {fetch : List Int → Nat → Attempt (List (Option MessageResp))}
    {maxRetries : Nat} (absent : ∀ id, raw id = none → channel id = none)
    (resolves : ∀ id message, raw id = some message → ∃ resolved,
      resolveOverflow download message = .ok resolved ∧
        channel id = some resolved)
    (answers : ∀ ids, ∃ count < maxRetries,
      (∀ earlier < count, fetch ids (1 + earlier) = .transient) ∧
        fetch ids (1 + count) = .returned (ids.map raw))
    (consistent : Consistent lru cache channel) (ids : List Int) :
    (∃ after, discordGetMessages lru download fetch maxRetries ids cache =
        .ok (after, ids.map channel)) ↔
      Fits channel ids (lru.items cache) capacity := by
  obtain ⟨usedItems, cached⟩ := gets_spec lawful ids cache
  have complete := fun stored => gets_complete_iff stored positive lawful
    consistent usedItems
  unfold discordGetMessages
  dsimp only
  rw [cached, zip_missing]
  split
  · rename_i nothing
    rw [List.isEmpty_iff.mp nothing] at complete
    rw [returns_iff, complete _ rfl]
  · obtain ⟨count, enough, before, answer⟩ := answers
      (ids.filter fun id => ((lru.items cache).lookup id).join.isNone)
    obtain ⟨stored, storing, items⟩ := storeResolved_items lawful absent
      resolves
      (ids.filter fun id => ((lru.items cache).lookup id).join.isNone)
      (MessageCache.gets lru ids cache).1
    rw [retry_returned maxRetries enough before answer]
    dsimp only
    rw [storing]
    dsimp only
    rw [returns_iff, complete _ items]

/-- Looking messages up answers with every message of the channel exactly
when those the lookup uses last fit into the cache. -/
theorem getMessages_complete_iff {σ : Type}
    (lru : LRU σ Int (Option MessageResp)) (capacity : Nat)
    (positive : 1 ≤ capacity) (lawful : lru.Lawful capacity) (cache : σ)
    (ids : List Int) :
    (∀ (channel : Int → Option TelethonMessage)
      (fetch : List Int → TelethonResponse),
      (∀ id message, channel id = some message → message.id = id) →
      (∀ ids, fetch ids = .totalList (ids.map channel)) →
      Consistent lru cache
        (fun id => (channel id).map TelethonMessage.transform) →
      ((∃ after, telethonGetMessages lru fetch ids cache = .ok (after,
          ids.map fun id => (channel id).map TelethonMessage.transform)) ↔
        Fits (fun id => (channel id).map TelethonMessage.transform) ids
          (lru.items cache) capacity)) ∧
    (∀ (decode : String → FileId) (channel : Int → Option PyrogramMessage)
      (fetch : List Int → PyrogramResponse) (chat : Int),
      (∀ id message, channel id = some message → message.id = id) →
      (∀ ids, fetch ids = .messages (ids.map channel) ∨
        ∃ id message, ids = [id] ∧ channel id = some message ∧
          fetch ids = .message message) →
      Consistent lru cache
        (fun id => (channel id).map (PyrogramMessage.transform decode)) →
      ((∃ after, pyrogramGetMessages lru decode fetch chat ids cache =
          .ok (after, ids.map fun id =>
            (channel id).map (PyrogramMessage.transform decode))) ↔
        Fits (fun id => (channel id).map (PyrogramMessage.transform decode))
          ids (lru.items cache) capacity)) ∧
    (∀ (download : Int → Option String)
      (raw channel : Int → Option MessageResp)
      (fetch : List Int → Nat → Attempt (List (Option MessageResp)))
      (maxRetries : Nat),
      (∀ id, raw id = none → channel id = none) →
      (∀ id message, raw id = some message → ∃ resolved,
        resolveOverflow download message = .ok resolved ∧
          channel id = some resolved) →
      (∀ ids, ∃ count < maxRetries,
        (∀ earlier < count, fetch ids (1 + earlier) = .transient) ∧
          fetch ids (1 + count) = .returned (ids.map raw)) →
      Consistent lru cache channel →
      ((∃ after, discordGetMessages lru download fetch maxRetries ids cache =
          .ok (after, ids.map channel)) ↔
        Fits channel ids (lru.items cache) capacity)) := by
  refine ⟨?_, ?_, ?_⟩
  · intro channel fetch named answers consistent
    exact telethon_complete_iff positive lawful named answers consistent ids
  · intro decode channel fetch chat named answers consistent
    exact pyrogram_complete_iff positive lawful named answers consistent ids
  · intro download raw channel fetch maxRetries absent resolves answers
      consistent
    exact discord_complete_iff positive lawful absent resolves answers
      consistent ids

end Stores

/-- A cache that behaves as documented. -/
def boundedLRU (κ α : Type) [DecidableEq κ] (capacity : Nat) :
    LRU (Recency.Bounded κ α capacity) κ α :=
  { items := fun cache => cache.items
    get := fun key cache => (cache.touch key, cache.items.lookup key)
    set := fun key value cache => cache.put key value }

theorem boundedLRU_lawful (κ α : Type) [DecidableEq κ] (capacity : Nat) :
    (boundedLRU κ α capacity).Lawful capacity :=
  ⟨fun cache => cache.nodup, fun cache => cache.bounded, fun _ _ => rfl,
    fun _ _ => rfl, fun _ _ _ => rfl⟩

/-- A channel with two messages. -/
def twoMessages {ρ : Type} (message : Int → ρ) (id : Int) : Option ρ :=
  if id = 1 ∨ id = 2 then some (message id) else none

/-- Two messages and a missing one through a cache of two entries. -/
theorem getMessages_complete_two :
    (∃ after, telethonGetMessages (boundedLRU Int (Option MessageResp) 2)
      (fun ids => .totalList (ids.map
        (twoMessages fun id => ⟨id, some "text", .none⟩))) [1, 3, 2, 1]
      .empty = .ok (after, [some ⟨1, "text", none⟩, none,
        some ⟨2, "text", none⟩, some ⟨1, "text", none⟩])) ∧
    (∃ after, pyrogramGetMessages (boundedLRU Int (Option MessageResp) 2)
      (fun _ => ⟨0, 0, []⟩) (fun ids => .messages (ids.map
        (twoMessages fun id => ⟨id, some "text", none⟩))) 7 [1, 3, 2, 1]
      .empty = .ok (after, [some ⟨1, "text", none⟩, none,
        some ⟨2, "text", none⟩, some ⟨1, "text", none⟩])) ∧
    (∃ after, discordGetMessages (boundedLRU Int (Option MessageResp) 2)
      (fun _ => none) (fun ids attempt =>
        if attempt = 1 then .transient
        else .returned (ids.map (twoMessages fun id => ⟨id, "text", none⟩)))
      3 [1, 3, 2, 1] .empty = .ok (after, [some ⟨1, "text", none⟩, none,
        some ⟨2, "text", none⟩, some ⟨1, "text", none⟩])) := by
  have lookup := getMessages_complete_iff
    (boundedLRU Int (Option MessageResp) 2) 2 (by decide)
    (boundedLRU_lawful _ _ 2) .empty [1, 3, 2, 1]
  obtain ⟨telethon, pyrogram, discord⟩ := lookup
  have named : ∀ {ρ : Type} (name : ρ → Int) (message : Int → ρ),
      (∀ id, name (message id) = id) → ∀ id found,
        twoMessages message id = some found → name found = id := by
    intro ρ name message names id found present
    unfold twoMessages at present
    split at present
    · cases present
      exact names id
    · cases present
  have fresh : ∀ channel, Consistent
      (boundedLRU Int (Option MessageResp) 2) .empty channel := by
    intro channel id message found
    cases found
  refine ⟨?_, ?_, ?_⟩
  · exact (telethon _ _ (named TelethonMessage.id _ fun _ => rfl)
      (fun _ => rfl) (fresh _)).mpr (by unfold Fits; decide)
  · exact (pyrogram _ _ _ 7 (named PyrogramMessage.id _ fun _ => rfl)
      (fun _ => .inl rfl) (fresh _)).mpr (by unfold Fits; decide)
  · refine (discord _ (twoMessages fun id => ⟨id, "text", none⟩)
      (twoMessages fun id => ⟨id, "text", none⟩) _ 3 (fun _ => id) ?_
      (fun ids => ⟨1, by decide, ?_, rfl⟩) (fresh _)).mpr
      (by unfold Fits; decide)
    · intro id message present
      refine ⟨message, ?_, present⟩
      unfold twoMessages at present
      split at present
      · cases present
        rfl
      · cases present
    · intro earlier smaller
      have first : earlier = 0 := by omega
      subst first
      rfl

/-- A cache of one entry: the first of two messages is lost. -/
theorem getMessages_evicted :
    ((telethonGetMessages (boundedLRU Int (Option MessageResp) 1)
      (fun ids => .totalList (ids.map
        (twoMessages fun id => ⟨id, some "text", .none⟩))) [1, 2]
      .empty).map Prod.snd = .ok [none, some ⟨2, "text", none⟩]) ∧
    ((pyrogramGetMessages (boundedLRU Int (Option MessageResp) 1)
      (fun _ => ⟨0, 0, []⟩) (fun ids => .messages (ids.map
        (twoMessages fun id => ⟨id, some "text", none⟩))) 7 [1, 2]
      .empty).map Prod.snd = .ok [none, some ⟨2, "text", none⟩]) ∧
    ((discordGetMessages (boundedLRU Int (Option MessageResp) 1)
      (fun _ => none) (fun ids _ => .returned
        (ids.map (twoMessages fun id => ⟨id, "text", none⟩)))
      3 [1, 2] .empty).map Prod.snd =
        .ok [none, some ⟨2, "text", none⟩]) ∧
    twoMessages (fun id => (⟨id, "text", none⟩ : MessageResp)) 1 =
      some ⟨1, "text", none⟩ :=
  ⟨rfl, rfl, rfl, rfl⟩

end Tgdcfs
