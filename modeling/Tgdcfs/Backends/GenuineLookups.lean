import Tgdcfs.Backends.OverflowStore

/-!
# Lookups answer with versions

Whatever a lookup is answered with was a version of the message it was asked
for, be it an old one.
-/

namespace Tgdcfs

open Lib

/-- Every answer is a version of the message. -/
def Answered.Genuine (answered : Answered) (channel : Channel) : Prop :=
  List.Forall₂ (fun id message => ∀ found, message = some found →
    ∃ version : Nat, (channel.versions id)[version]? = some found)
    answered.ids answered.messages

theorem Answered.Genuine.grows {answered : Answered} {channel next : Channel}
    (genuine : answered.Genuine channel) (grows : channel.Grows next) :
    answered.Genuine next := by
  refine List.Forall₂.imp ?_ genuine
  intro id message known found same
  obtain ⟨version, listed⟩ := known found same
  exact ⟨version, grows.versions id version found listed⟩

theorem Answered.genuine_map {ids : List Int} {since : Int → Option Nat}
    {channel : Channel} {messageOf : Int → Option MessageResp}
    (genuine : ∀ id ∈ ids, ∀ found, messageOf id = some found →
      ∃ version : Nat, (channel.versions id)[version]? = some found) :
    Answered.Genuine ⟨ids, since, ids.map messageOf⟩ channel := by
  unfold Answered.Genuine
  rw [List.forall₂_map_right_iff, List.forall₂_same]
  exact genuine

namespace TelegramState

theorem resolveAll_some (messages : List (Option MessageResp)) :
    resolveAll some messages = messages := by
  unfold resolveAll
  split
  · simp
  · rfl

variable {σ : Type} {lru : LRU σ Int (Option MessageResp)} {capacity : Nat}
  {state next : TelegramState σ} {bots : Nat}

structure Genuine (lru : LRU σ Int (Option MessageResp))
    (state : TelegramState σ) : Prop where
  named : ∀ (id : Int) (version : Nat) message,
    (state.channel.versions id)[version]? = some message →
      message.messageId = id
  cached : ∀ id message, cachedMessage lru state.cache id = some message →
    ∃ version : Nat, (state.channel.versions id)[version]? = some message
  reads : ∀ batch, state.batch = some batch →
    ∀ (id : Int) (version : Nat) message,
      batch.reads.get? id = some (some (version, message)) →
        (state.channel.versions id)[version]? = some message
  answered : ∀ answered ∈ state.answered, answered.Genuine state.channel

/-- A turn of a lookup changes neither the channel nor the edits. -/
theorem lookup_keeps {action : TelegramAction} (lookup : action.isLookup)
    (taken : step lru some bots state action = some next) :
    next.channel = state.channel ∧ next.edits = state.edits := by
  have attempts : ∀ (state : TelegramState σ) requests ids left,
      (attempt lru some state requests ids left).channel = state.channel ∧
        (attempt lru some state requests ids left).edits = state.edits := by
    intro state requests ids left
    unfold attempt
    dsimp only
    split
    · exact ⟨rfl, rfl⟩
    · exact ⟨rfl, rfl⟩
  cases action with
  | get ids =>
      simp only [step] at taken
      split at taken
      · cases taken
        exact ⟨rfl, rfl⟩
      · cases taken
        exact ⟨rfl, rfl⟩
  | flush ids =>
      simp only [step] at taken
      split at taken
      · cases taken
        exact attempts _ _ _ _
      · cases taken
  | read id =>
      obtain ⟨batch, _, rest⟩ := Option.bind_eq_some_iff.mp taken
      split at rest
      · cases rest
        exact ⟨rfl, rfl⟩
      · cases rest
  | store =>
      obtain ⟨batch, _, rest⟩ := Option.bind_eq_some_iff.mp taken
      split at rest
      · cases rest
        exact ⟨rfl, rfl⟩
      · cases rest
  | fetchFails =>
      obtain ⟨batch, _, rfl⟩ := Option.map_eq_some_iff.mp taken
      split
      · exact ⟨rfl, rfl⟩
      · exact attempts _ _ _ _
  | collectorFails =>
      cases taken
      exact ⟨rfl, rfl⟩
  | beginEdit call id text => cases lookup
  | applyEdit call => cases lookup
  | endEdit call => cases lookup
  | failEdit call => cases lookup

namespace Genuine

variable (genuine : state.Genuine lru)
include genuine

theorem withCache {cache : σ}
    (same : ∀ id message, cachedMessage lru cache id = some message →
      cachedMessage lru state.cache id = some message) :
    TelegramState.Genuine lru { state with cache := cache } :=
  { genuine with
    cached := fun id message cached =>
      genuine.cached id message (same id message cached) }

theorem grows {channel : Channel} (grows : state.channel.Grows channel)
    (named : ∀ (id : Int) (version : Nat) message,
      (channel.versions id)[version]? = some message →
        message.messageId = id) (edits : Dict Nat EditCall) :
    TelegramState.Genuine lru
      { state with channel := channel, edits := edits } := by
  refine ⟨named, ?_, ?_, ?_⟩
  · intro id message cached
    obtain ⟨version, listed⟩ := genuine.cached id message cached
    exact ⟨version, grows.versions id version message listed⟩
  · intro batch isBatch id version message read
    exact grows.versions id version message
      (genuine.reads batch isBatch id version message read)
  · intro answered member
    exact (genuine.answered answered member).grows grows

theorem messages {answered : Answered} (member : answered ∈ state.answered)
    (message : MessageResp) (inside : some message ∈ answered.messages) :
    ∃ version : Nat,
      (state.channel.versions message.messageId)[version]? =
        some message := by
  have known := genuine.answered answered member
  unfold Answered.Genuine at known
  generalize answered.ids = ids at known
  generalize answered.messages = found at known inside
  induction known with
  | nil => cases inside
  | cons first _ ih =>
      rcases List.mem_cons.mp inside with here | later
      · obtain ⟨version, listed⟩ := first message here.symm
        rw [genuine.named _ version message listed]
        exact ⟨version, listed⟩
      · exact ih later

theorem finish (lawful : lru.Lawful capacity) {batch : Batch} {cache : σ}
    (cached : ∀ id message, cachedMessage lru cache id = some message →
      ∃ version : Nat,
        (state.channel.versions id)[version]? = some message) :
    (finish lru some state batch cache).Genuine lru := by
  refine ⟨genuine.named, ?_, fun _ idle => (by cases idle), ?_⟩
  · intro id message here
    have before : cachedMessage lru (MessageCache.gets lru batch.ids cache).1
        id = some message := here
    rw [cachedMessage_gets lawful] at before
    exact cached id message before
  · intro answered member
    rcases List.mem_append.mp member with old | new
    · exact genuine.answered answered old
    · obtain ⟨request, _, rfl⟩ := List.mem_map.mp new
      rw [resolveAll_some]
      apply Answered.genuine_map
      intro id _ found there
      have item := Dict.mem_of_mem_ofList
        ((Dict.get?_eq_some_iff _ _ _).mp there)
      obtain ⟨message, isFound, same⟩ := List.mem_map.mp item
      cases same
      unfold excludeNone at isFound
      obtain ⟨entry, isEntry, same⟩ := List.mem_filterMap.mp isFound
      rw [gets_messages lawful] at isEntry
      obtain ⟨other, _, rfl⟩ := List.mem_map.mp isEntry
      obtain ⟨version, listed⟩ := cached other found same
      rw [genuine.named other version found listed]
      exact ⟨version, listed⟩

theorem attempt (lawful : lru.Lawful capacity) (requests : List BrokerRequest)
    (ids : List Int) (left : Nat) :
    (attempt lru some state requests ids left).Genuine lru := by
  have same := cachedMessage_findNonexistent lawful ids state.cache
  unfold TelegramState.attempt
  dsimp only
  split
  · apply genuine.finish lawful
    intro id message cached
    rw [same] at cached
    exact genuine.cached id message cached
  · have unchanged : TelegramState.Genuine lru { state with
        cache := (MessageCache.findNonexistent lru ids state.cache).1 } :=
      genuine.withCache fun id message cached => same id ▸ cached
    refine ⟨unchanged.named, unchanged.cached, ?_, unchanged.answered⟩
    intro batch isBatch id version message read
    cases isBatch
    cases read

theorem lookup (positive : 1 ≤ capacity) (lawful : lru.Lawful capacity)
    {action : TelegramAction} (isLookup : action.isLookup)
    (taken : step lru some bots state action = some next) :
    next.Genuine lru := by
  cases action with
  | get ids =>
      have same : ∀ id message,
          cachedMessage lru (MessageCache.gets lru ids state.cache).1 id =
            some message → cachedMessage lru state.cache id = some message := by
        intro id message cached
        rw [cachedMessage_gets lawful] at cached
        exact cached
      have unchanged := genuine.withCache same
      simp only [step] at taken
      split at taken
      · cases taken
        refine { unchanged with answered := ?_ }
        intro answered member
        rcases List.mem_append.mp member with old | new
        · exact genuine.answered answered old
        · cases List.mem_singleton.mp new
          rw [resolveAll_some, gets_messages lawful]
          apply Answered.genuine_map
          intro id _ found cached
          exact genuine.cached id found cached
      · cases taken
        exact { unchanged with }
  | flush ids =>
      simp only [step] at taken
      split at taken
      · cases taken
        have waiting : TelegramState.Genuine lru
            { state with requests := [] } := { genuine with }
        exact waiting.attempt lawful _ _ _
      · cases taken
  | read id =>
      obtain ⟨batch, isBatch, rest⟩ := Option.bind_eq_some_iff.mp taken
      split at rest
      · cases rest
        refine { genuine with reads := ?_ }
        intro changed same other version message read
        cases same
        dsimp only at read
        rw [Dict.get?_set] at read
        split at read
        · rename_i isId
          subst isId
          exact (Channel.read_spec (Option.some.inj read)).1
        · exact genuine.reads batch isBatch other version message read
      · cases rest
  | store =>
      obtain ⟨batch, isBatch, rest⟩ := Option.bind_eq_some_iff.mp taken
      split at rest
      · cases rest
        apply genuine.finish lawful
        have reads := genuine.reads batch isBatch
        have storing := storeMessages_items lawful batch.fetched state.cache
        rw [Batch.fetched_entries fun id version message read =>
          genuine.named id version message
            (reads id version message read)] at storing
        intro id message cached
        rcases cachedMessage_stored positive lawful storing cached with
          new | old
        · obtain ⟨⟨version, found⟩, read, rfl⟩ :=
            Option.map_eq_some_iff.mp new
          exact ⟨version, reads id version found
            (Option.join_eq_some_iff.mp read)⟩
        · exact genuine.cached id message old
      · cases rest
  | fetchFails =>
      obtain ⟨batch, _, rfl⟩ := Option.map_eq_some_iff.mp taken
      have dropped : TelegramState.Genuine lru { state with batch := none } :=
        { genuine with reads := fun _ idle => (by cases idle) }
      split
      · exact dropped
      · exact dropped.attempt lawful _ _ _
  | collectorFails =>
      cases taken
      exact { genuine with reads := fun _ idle => (by cases idle) }
  | beginEdit call id text => cases isLookup
  | applyEdit call => cases isLookup
  | endEdit call => cases isLookup
  | failEdit call => cases isLookup

end Genuine

end TelegramState

end Tgdcfs
