import Tgdcfs.Backends.TelegramEdits

/-!
# Edits through a Discord store

An edit stores its text in the cache when it returns.  A lookup that fetched
the message before the edit took effect, or an older edit that returns
later, puts the old text back.
-/

namespace Tgdcfs

open Lib

namespace DiscordState

variable {σ : Type} {lru : LRU σ Int (Option MessageResp)} {capacity : Nat}
  {state next : DiscordState σ} {download : Int → Option String}
  {maxRetries : Nat}

/-- No edit of the message that returned made a newer version. -/
def Current (state : DiscordState σ) (id : Int) (version : Nat) : Prop :=
  ∀ edit, state.channel.completed id = some edit → edit ≤ version

/-- Lookups and edits store no version older than one whose edit returned,
and lookups answer from the cache. -/
def Undisturbed (lru : LRU σ Int (Option MessageResp)) (capacity : Nat)
    (state : DiscordState σ) : DiscordAction → Prop
  | .store call => ∀ lookup, state.lookups.get? call = some lookup →
      (∀ id version message,
        lookup.reads.get? id = some (some (version, message)) →
          state.Current id version) ∧
      ∀ id ∈ lookup.ids, (lookup.since id).isSome → Held capacity
        (lookup.missing.filter fun id => (lookup.reads.get? id).join.isSome)
        (lru.items state.cache) id
  | .endEdit call => ∀ edit version, state.edits.get? call = some edit →
      edit.version = some version → state.Current edit.messageId version
  | _ => True

/-- The cache holds versions no older than the edits that returned. -/
structure Fresh (lru : LRU σ Int (Option MessageResp))
    (state : DiscordState σ) : Prop where
  named : ∀ (id : Int) (version : Nat) message,
    (state.channel.versions id)[version]? = some message →
      message.messageId = id
  plain : ∀ (id : Int) (version : Nat) message,
    (state.channel.versions id)[version]? = some message →
      message.text ≠ OVERFLOW_CAPTION ∨ message.document = none
  edits : ∀ call edit (version : Nat), state.edits.get? call = some edit →
    edit.version = some version →
      (state.channel.versions edit.messageId)[version]? =
        some ⟨edit.messageId, edit.text, none⟩
  cached : ∀ id message, cachedMessage lru state.cache id = some message →
    ∃ version : Nat, (state.channel.versions id)[version]? = some message ∧
      state.Current id version
  since : ∀ call lookup, state.lookups.get? call = some lookup →
    state.channel.Returned lookup.since
  reads : ∀ call lookup (id : Int) (version : Nat) message,
    state.lookups.get? call = some lookup →
      lookup.reads.get? id = some (some (version, message)) →
        (state.channel.versions id)[version]? = some message
  shown : ∀ answered ∈ state.answered, answered.Shows state.channel

theorem Fresh.withCache (fresh : state.Fresh lru) {cache : σ}
    (cached : ∀ id message, cachedMessage lru cache id = some message →
      ∃ version : Nat, (state.channel.versions id)[version]? = some message ∧
        state.Current id version) :
    DiscordState.Fresh lru { state with cache := cache } :=
  ⟨fresh.named, fresh.plain, fresh.edits, cached, fresh.since, fresh.reads,
    fresh.shown⟩

/-- A lookup is answered from a fresh cache that holds what it must see. -/
theorem Fresh.finish (fresh : state.Fresh lru) (lawful : lru.Lawful capacity)
    {ids : List Int} {since : Int → Option Nat} {cache : σ}
    (returned : state.channel.Returned since)
    (cached : ∀ id message, cachedMessage lru cache id = some message →
      ∃ version : Nat, (state.channel.versions id)[version]? = some message ∧
        state.Current id version)
    (held : ∀ id ∈ ids, (since id).isSome →
      ∃ message, cachedMessage lru cache id = some message) :
    (finish lru state ids since cache).Fresh lru := by
  refine ⟨fresh.named, fresh.plain, fresh.edits, ?_, fresh.since, fresh.reads,
    ?_⟩
  · intro id message here
    have before : cachedMessage lru (MessageCache.gets lru ids cache).1 id =
      some message := here
    rw [cachedMessage_gets lawful] at before
    exact cached id message before
  · intro answered member
    rcases List.mem_append.mp member with old | new
    · exact fresh.shown answered old
    · cases List.mem_singleton.mp new
      rw [gets_messages lawful]
      apply Answered.shows_map
      intro id inside edit known
      obtain ⟨message, here⟩ := held id inside (by rw [known]; rfl)
      obtain ⟨version, listed, current⟩ := cached id message here
      obtain ⟨later, completed, below⟩ := returned id edit known
      exact ⟨message, version, here,
        Nat.le_trans below (current later completed), listed⟩

theorem Fresh.lookups (fresh : state.Fresh lru)
    {lookups : Dict Nat DiscordLookup}
    (since : ∀ call lookup, lookups.get? call = some lookup →
      state.channel.Returned lookup.since)
    (reads : ∀ call lookup (id : Int) (version : Nat) message,
      lookups.get? call = some lookup →
        lookup.reads.get? id = some (some (version, message)) →
          (state.channel.versions id)[version]? = some message) :
    DiscordState.Fresh lru { state with lookups := lookups } :=
  ⟨fresh.named, fresh.plain, fresh.edits, fresh.cached, since, reads,
    fresh.shown⟩

variable {call : Nat}

theorem Fresh.setLookup (fresh : state.Fresh lru) {lookup : DiscordLookup}
    (since : state.channel.Returned lookup.since)
    (reads : ∀ (id : Int) (version : Nat) message,
      lookup.reads.get? id = some (some (version, message)) →
        (state.channel.versions id)[version]? = some message) :
    DiscordState.Fresh lru { state with
      lookups := state.lookups.set call lookup } := by
  apply fresh.lookups
  · intro other found known
    rw [Dict.get?_set] at known
    split at known
    · cases known
      exact since
    · exact fresh.since other found known
  · intro other found id version message known read
    rw [Dict.get?_set] at known
    split at known
    · cases known
      exact reads id version message read
    · exact fresh.reads other found id version message known read

theorem Fresh.eraseLookup (fresh : state.Fresh lru) (call : Nat) :
    DiscordState.Fresh lru { state with
      lookups := state.lookups.erase call } := by
  apply fresh.lookups
  · intro other found known
    exact fresh.since other found (Dict.get?_of_erase known)
  · intro other found id version message known read
    exact fresh.reads other found id version message
      (Dict.get?_of_erase known) read

theorem Fresh.get (fresh : state.Fresh lru) (lawful : lru.Lawful capacity)
    {ids : List Int}
    (taken : step lru download maxRetries state (.get call ids) =
      some next) : next.Fresh lru := by
  have same := cachedMessage_gets lawful ids state.cache
  have cached : ∀ id message,
      cachedMessage lru (MessageCache.gets lru ids state.cache).1 id =
        some message →
      ∃ version : Nat, (state.channel.versions id)[version]? = some message ∧
        state.Current id version :=
    fun id message here => fresh.cached id message (same id ▸ here)
  simp only [step, gets_messages lawful, zip_missing] at taken
  split at taken
  · cases taken
  · split at taken
    · rename_i nothing
      cases taken
      apply fresh.finish lawful state.channel.returned_completed cached
      intro id inside _
      have present := List.filter_eq_nil_iff.mp nothing id inside
      rw [same]
      simpa [Option.eq_none_iff_forall_ne_some] using present
    · cases taken
      exact (fresh.withCache cached).setLookup
        state.channel.returned_completed
        (fun _ _ _ read => (by cases read))

/-- Messages that stand for no overflow document are stored as they are. -/
theorem Fresh.storing (fresh : state.Fresh lru) (lawful : lru.Lawful capacity)
    {lookup : DiscordLookup} (known : state.lookups.get? call = some lookup)
    {cache : σ}
    (stored : storeResolved lru download (lookup.missing.zip
      (lookup.missing.map fun id => (lookup.reads.get? id).join.map Prod.snd))
        state.cache = .ok cache) :
    lru.items cache = Recency.putAllWithin capacity
      (fetchedEntries (fun id => (lookup.reads.get? id).join.map Prod.snd)
        lookup.missing) (lru.items state.cache) := by
  have resolves : ∀ id message,
      (lookup.reads.get? id).join.map Prod.snd = some message →
        ∃ resolved, resolveOverflow download message = .ok resolved ∧
          (lookup.reads.get? id).join.map Prod.snd = some resolved := by
    intro id message found
    refine ⟨message, ?_, found⟩
    obtain ⟨⟨version, read⟩, isRead, rfl⟩ := Option.map_eq_some_iff.mp found
    have listed := fresh.reads call lookup id version read known
      (Option.join_eq_some_iff.mp isRead)
    unfold resolveOverflow
    rw [if_pos]
    rcases fresh.plain id version read listed with text | document
    · exact .inl text
    · exact .inr (by rw [document]; rfl)
  obtain ⟨result, storing, items⟩ := storeResolved_items lawful
    (fun _ absent => absent) resolves lookup.missing state.cache
  have same := storing.symm.trans stored
  cases same
  exact items

theorem Fresh.store (fresh : state.Fresh lru) (positive : 1 ≤ capacity)
    (lawful : lru.Lawful capacity)
    (undisturbed : state.Undisturbed lru capacity (.store call))
    (taken : step lru download maxRetries state (.store call) = some next) :
    next.Fresh lru := by
  obtain ⟨lookup, known, rest⟩ := Option.bind_eq_some_iff.mp taken
  obtain ⟨current, held⟩ := undisturbed lookup known
  split at rest
  · dsimp only at rest
    split at rest
    · cases rest
    · rename_i cache stored
      cases rest
      have storing := fresh.storing lawful known stored
      apply (fresh.eraseLookup call).finish lawful
        (fresh.since call lookup known)
      · intro id message cached
        rcases cachedMessage_stored positive lawful storing cached with
          new | old
        · obtain ⟨⟨version, found⟩, read, rfl⟩ :=
            Option.map_eq_some_iff.mp new
          have isRead := Option.join_eq_some_iff.mp read
          exact ⟨version, fresh.reads call lookup id version found known
            isRead, current id version found isRead⟩
        · exact fresh.cached id message old
      · intro id inside isKnown
        apply Held.cached positive lawful storing
        simpa only [Option.isSome_map] using held id inside isKnown
  · cases rest

theorem Fresh.setEdit (fresh : state.Fresh lru) {channel : Channel}
    (grows : state.channel.Grows channel) {edit : EditCall}
    (completed : channel.completed = state.channel.completed)
    (named : ∀ (id : Int) (version : Nat) message,
      (channel.versions id)[version]? = some message →
        message.messageId = id)
    (plain : ∀ (id : Int) (version : Nat) message,
      (channel.versions id)[version]? = some message →
        message.text ≠ OVERFLOW_CAPTION ∨ message.document = none)
    (made : ∀ version : Nat, edit.version = some version →
      (channel.versions edit.messageId)[version]? =
        some ⟨edit.messageId, edit.text, none⟩) :
    DiscordState.Fresh lru { state with
      channel := channel
      edits := state.edits.set call edit } := by
  refine ⟨named, plain, ?_, ?_, ?_, ?_, ?_⟩
  · intro other otherEdit version known isMade
    dsimp only at known
    rw [Dict.get?_set] at known
    split at known
    · cases known
      exact made version isMade
    · exact grows.versions _ version _
        (fresh.edits other otherEdit version known isMade)
  · intro id message cached
    obtain ⟨version, listed, current⟩ := fresh.cached id message cached
    refine ⟨version, grows.versions id version message listed, ?_⟩
    intro newer returned
    dsimp only at returned
    rw [completed] at returned
    exact current newer returned
  · intro other lookup known
    exact (fresh.since other lookup known).grows grows
  · intro other lookup id version message known read
    exact grows.versions id version message
      (fresh.reads other lookup id version message known read)
  · intro answered member
    exact (fresh.shown answered member).grows grows

/-- An edit takes effect: it makes a text message of its own. -/
theorem Fresh.applyEdit (fresh : state.Fresh lru) {edit : EditCall}
    {version : Nat} {message : MessageResp}
    (read : state.channel.read edit.messageId = some (version, message)) :
    DiscordState.Fresh lru { state with
      channel := state.channel.append edit.messageId
        { message with text := edit.text, document := none }
      edits := state.edits.set call
        { edit with version := some (version + 1) } } := by
  obtain ⟨isVersion, isLast⟩ := Channel.read_spec read
  have isNamed := fresh.named _ version message isVersion
  apply fresh.setEdit (state.channel.append_grows _ _) rfl
  · intro id place other listed
    rcases Channel.append_version listed with old | ⟨rfl, _, rfl⟩
    · exact fresh.named id place other old
    · exact isNamed
  · intro id place other listed
    rcases Channel.append_version listed with old | ⟨_, _, rfl⟩
    · exact fresh.plain id place other old
    · exact .inr rfl
  · intro made same
    cases same
    simp only [Channel.append, Function.update_self]
    rw [isLast, List.getElem?_append_right (Nat.le_refl _), Nat.sub_self,
      ← isNamed]
    rfl

theorem Fresh.endEdit (fresh : state.Fresh lru) (lawful : lru.Lawful capacity)
    {edit : EditCall} (known : state.edits.get? call = some edit)
    {version : Nat} (made : edit.version = some version)
    (current : state.Current edit.messageId version) :
    DiscordState.Fresh lru { state with
      channel := state.channel.complete edit.messageId version
      cache := lru.set edit.messageId
        (some ⟨edit.messageId, edit.text, none⟩) state.cache
      edits := state.edits.erase call } := by
  have grows := state.channel.complete_grows edit.messageId version
  refine ⟨fresh.named, fresh.plain, ?_, ?_, ?_, fresh.reads, ?_⟩
  · intro other otherEdit place otherKnown isMade
    exact fresh.edits other otherEdit place (Dict.get?_of_erase otherKnown)
      isMade
  · intro id message cached
    rcases cachedMessage_set lawful cached with ⟨rfl, isText⟩ |
      ⟨different, here⟩
    · cases isText
      refine ⟨version, fresh.edits call edit version known made, ?_⟩
      intro newer returned
      exact Channel.complete_le current (fun _ => Nat.le_refl version) returned
    · obtain ⟨place, listed, newest⟩ := fresh.cached id message here
      refine ⟨place, listed, ?_⟩
      intro newer returned
      exact Channel.complete_le newest (fun same => (different same).elim)
        returned
  · intro other lookup otherKnown
    exact (fresh.since other lookup otherKnown).grows grows
  · intro answered member
    exact (fresh.shown answered member).grows grows

theorem Fresh.step (fresh : state.Fresh lru) (positive : 1 ≤ capacity)
    (lawful : lru.Lawful capacity) {action : DiscordAction}
    (undisturbed : state.Undisturbed lru capacity action)
    (taken : step lru download maxRetries state action = some next) :
    next.Fresh lru := by
  cases action with
  | get call ids => exact fresh.get lawful taken
  | read call id =>
      obtain ⟨lookup, known, rest⟩ := Option.bind_eq_some_iff.mp taken
      split at rest
      · cases rest
        refine fresh.setLookup ?_ ?_
        · exact fresh.since call lookup known
        intro other version message read
        rw [Dict.get?_set] at read
        split at read
        · rename_i same
          subst same
          exact (Channel.read_spec (Option.some.inj read)).1
        · exact fresh.reads call lookup other version message known read
      · cases rest
  | store call => exact fresh.store positive lawful undisturbed taken
  | fetchFails call transient =>
      obtain ⟨lookup, known, rfl⟩ := Option.map_eq_some_iff.mp taken
      split
      · refine fresh.setLookup ?_ (fun _ _ _ read => (by cases read))
        exact fresh.since call lookup known
      · exact fresh.eraseLookup call
  | beginEdit call id text =>
      simp only [DiscordState.step] at taken
      split at taken
      · cases taken
      · cases taken
        exact fresh.setEdit (.refl state.channel) rfl fresh.named fresh.plain
          (fun _ made => (by cases made))
  | applyEdit call =>
      obtain ⟨edit, known, rest⟩ := Option.bind_eq_some_iff.mp taken
      obtain ⟨⟨version, message⟩, read, rfl⟩ := Option.map_eq_some_iff.mp rest
      exact fresh.applyEdit read
  | endEdit call =>
      obtain ⟨edit, known, rest⟩ := Option.bind_eq_some_iff.mp taken
      obtain ⟨version, made, rfl⟩ := Option.map_eq_some_iff.mp rest
      exact fresh.endEdit lawful known made
        (undisturbed edit version known made)
  | failEdit call =>
      simp only [DiscordState.step] at taken
      split at taken
      · cases taken
        exact ⟨fresh.named, fresh.plain,
          fun other edit version known made =>
            fresh.edits other edit version (Dict.get?_of_erase known) made,
          fresh.cached, fresh.since, fresh.reads, fresh.shown⟩
      · cases taken

/-- Nothing is in flight and nothing cached, and no message stands for an
overflow document. -/
structure Started (lru : LRU σ Int (Option MessageResp))
    (state : DiscordState σ) : Prop where
  named : ∀ id, ∀ message ∈ state.channel.versions id, message.messageId = id
  plain : ∀ id, ∀ message ∈ state.channel.versions id,
    message.text ≠ OVERFLOW_CAPTION ∨ message.document = none
  completed : ∀ id, state.channel.completed id = none
  cache : lru.items state.cache = []
  lookups : state.lookups = .empty
  edits : state.edits = .empty
  answered : state.answered = []

theorem Started.fresh (started : state.Started lru) : state.Fresh lru := by
  refine ⟨?_, ?_, ?_, ?_, ?_, ?_, ?_⟩
  · intro id version message listed
    exact started.named id message (List.mem_of_getElem? listed)
  · intro id version message listed
    exact started.plain id message (List.mem_of_getElem? listed)
  · intro call edit version known
    rw [started.edits] at known
    cases known
  · intro id message cached
    rw [cachedMessage, started.cache] at cached
    cases cached
  · intro call lookup known
    rw [started.lookups] at known
    cases known
  · intro call lookup id version message known
    rw [started.lookups] at known
    cases known
  · intro answered member
    rw [started.answered] at member
    cases member

end DiscordState

/-- In every run that is undisturbed, a lookup that begins after an edit
returned shows that edit or a later one. -/
theorem undisturbed_lookups_show_edits {σ : Type}
    (lru : LRU σ Int (Option MessageResp)) (capacity : Nat)
    (positive : 1 ≤ capacity) (lawful : lru.Lawful capacity) :
    (∀ (parse : List Char → Option Int) (documents : Int → Option String)
      (bots : Nat) (start state : TelegramState σ), start.Started lru →
      ReachableWithin
        (TelegramState.step lru (resolveMarker parse documents) bots)
        (TelegramState.Undisturbed lru capacity) start state →
      ∀ answered ∈ state.answered, answered.Shows state.channel) ∧
    ∀ (download : Int → Option String) (maxRetries : Nat)
      (start state : DiscordState σ), start.Started lru →
      ReachableWithin (DiscordState.step lru download maxRetries)
        (DiscordState.Undisturbed lru capacity) start state →
      ∀ answered ∈ state.answered, answered.Shows state.channel := by
  constructor
  · intro parse documents bots start state started reachable
    have fresh : state.Fresh lru := reachable.invariant
      (fun _ _ _ fresh undisturbed taken =>
        fresh.step positive lawful undisturbed taken) started.fresh
    exact fresh.shown
  · intro download maxRetries start state started reachable
    have fresh : state.Fresh lru := reachable.invariant
      (fun _ _ _ fresh undisturbed taken =>
        fresh.step positive lawful undisturbed taken) started.fresh
    exact fresh.shown

/-- A channel with one message that was sent and never edited. -/
def sentOnce : Channel :=
  { versions := fun id => if id = 1 then [⟨1, "old", none⟩] else []
    completed := fun _ => none }

theorem sentOnce_sent {id : Int} {message : MessageResp}
    (sent : message ∈ sentOnce.versions id) :
    message.messageId = id ∧ message.document = none := by
  dsimp only [sentOnce] at sent
  split at sent
  · rename_i first
    cases List.mem_singleton.mp sent
    exact ⟨first.symm, rfl⟩
  · cases sent

def telegramStart (capacity : Nat) :
    TelegramState (Recency.Bounded Int (Option MessageResp) capacity) :=
  { channel := sentOnce
    cache := .empty
    requests := []
    batch := none
    edits := .empty
    answered := [] }

theorem telegramStart_started (capacity : Nat) :
    (telegramStart capacity).Started
      (boundedLRU Int (Option MessageResp) capacity) := by
  refine ⟨?_, fun _ _ sent => (sentOnce_sent sent).1, fun _ => rfl, rfl, rfl,
    rfl, rfl, rfl⟩
  intro id
  dsimp only [telegramStart, sentOnce]
  split
  · exact Nat.le_refl 1
  · exact Nat.zero_le 1

def discordStart (capacity : Nat) :
    DiscordState (Recency.Bounded Int (Option MessageResp) capacity) :=
  { channel := sentOnce
    cache := .empty
    lookups := .empty
    edits := .empty
    answered := [] }

theorem discordStart_started (capacity : Nat) :
    (discordStart capacity).Started
      (boundedLRU Int (Option MessageResp) capacity) :=
  ⟨fun _ _ sent => (sentOnce_sent sent).1,
    fun _ _ sent => .inr (sentOnce_sent sent).2, fun _ => rfl, rfl, rfl, rfl,
    rfl⟩

/-- An edit, then a lookup. -/
def telegramInTurn : List TelegramAction :=
  [.beginEdit 0 1 "new", .applyEdit 0, .endEdit 0, .get [1], .flush [1],
    .read 1, .store]

theorem telegramInTurn_guarded :
    Guarded (TelegramState.step (boundedLRU Int (Option MessageResp) 2)
      (resolveMarker (fun _ => none) fun _ => none) 1)
      (TelegramState.Undisturbed (boundedLRU Int (Option MessageResp) 2) 2)
      (telegramStart 2) telegramInTurn := by
  refine ⟨rfl, ?_⟩
  rintro begun ⟨⟩
  refine ⟨trivial, ?_⟩
  rintro applied ⟨⟩
  refine ⟨trivial, ?_⟩
  rintro ended ⟨⟩
  refine ⟨trivial, ?_⟩
  rintro waiting ⟨⟩
  refine ⟨trivial, ?_⟩
  rintro flushed ⟨⟩
  refine ⟨trivial, ?_⟩
  rintro read ⟨⟩
  refine ⟨?_, fun _ _ => trivial⟩
  rintro batch ⟨⟩
  constructor
  · intro id version message read
    have made : ((Dict.empty : Dict Int (Option (Nat × MessageResp))).set 1
        (some (1, ⟨1, "new", none⟩))).get? id =
          some (some (version, message)) := read
    rw [Dict.get?_set] at made
    split at made
    · rename_i first
      subst first
      cases made
      refine ⟨?_, ?_⟩
      · rintro edit ⟨⟩
        exact Nat.le_refl 1
      · rintro call edit ⟨⟩
    · cases made
  · intro request member id inside _
    have isRequest : request ∈ [BrokerRequest.mk [1] _] := member
    rw [List.mem_singleton.mp isRequest] at inside
    cases List.mem_singleton.mp inside
    constructor
    · exact .inl List.mem_cons_self
    · exact List.mem_cons_self

def discordInTurn : List DiscordAction :=
  [.beginEdit 0 1 "new", .applyEdit 0, .endEdit 0, .get 0 [1]]

theorem discordInTurn_guarded :
    Guarded (DiscordState.step (boundedLRU Int (Option MessageResp) 2)
      (fun _ => none) 3)
      (DiscordState.Undisturbed (boundedLRU Int (Option MessageResp) 2) 2)
      (discordStart 2) discordInTurn := by
  refine ⟨trivial, ?_⟩
  rintro begun ⟨⟩
  refine ⟨trivial, ?_⟩
  rintro applied ⟨⟩
  refine ⟨?_, ?_⟩
  · intro edit version _ _ newer returned
    cases returned
  rintro ended ⟨⟩
  exact ⟨trivial, fun _ _ => trivial⟩

theorem lookups_in_turn_show_edits :
    (∃ state, run (TelegramState.step
        (boundedLRU Int (Option MessageResp) 2)
        (resolveMarker (fun _ => none) fun _ => none) 1)
        (telegramStart 2) telegramInTurn = some state ∧
      state.answered.map Answered.messages = [[some ⟨1, "new", none⟩]] ∧
      ∀ answered ∈ state.answered, answered.Shows state.channel) ∧
    ∃ state, run (DiscordState.step (boundedLRU Int (Option MessageResp) 2)
        (fun _ => none) 3) (discordStart 2) discordInTurn = some state ∧
      state.answered.map Answered.messages = [[some ⟨1, "new", none⟩]] ∧
      ∀ answered ∈ state.answered, answered.Shows state.channel := by
  obtain ⟨telegram, discord⟩ := undisturbed_lookups_show_edits
    (boundedLRU Int (Option MessageResp) 2) 2 (by decide)
    (boundedLRU_lawful _ _ 2)
  constructor
  · exact ⟨_, rfl, rfl, telegram _ _ 1 _ _ (telegramStart_started 2)
      ⟨_, telegramInTurn_guarded, rfl⟩⟩
  · exact ⟨_, rfl, rfl, discord _ 3 _ _ (discordStart_started 2)
      ⟨_, discordInTurn_guarded, rfl⟩⟩

theorem oldText_hides {channel : Channel} {since : Int → Option Nat}
    (known : since 1 = some 1)
    (versions : channel.versions 1 = [⟨1, "old", none⟩, ⟨1, "new", none⟩]) :
    ¬Answered.Shows ⟨[1], since, [some ⟨1, "old", none⟩]⟩ channel := by
  intro shows
  obtain ⟨found, version, shown, isFound, late, listed, text⟩ :=
    (List.forall₂_cons.mp shows).1 1 known
  cases isFound
  rw [versions] at listed
  obtain ⟨inside, isShown⟩ := List.getElem?_eq_some_iff.mp listed
  have isSecond : version = 1 := by
    simp only [List.length_cons, List.length_nil] at inside
    omega
  subst isSecond
  cases isShown
  have same : ("old" : String) = "new" := text
  revert same
  decide

/-- The service answers a fetch, an edit begins and returns, the answer is
stored; the next lookup finds the old text in the cache. -/
theorem fetched_text_outlives_edit :
    (∃ start state, start.Started (boundedLRU Int (Option MessageResp) 2) ∧
      Reachable (TelegramState.step (boundedLRU Int (Option MessageResp) 2)
        (resolveMarker (fun _ => none) fun _ => none) 1) start state ∧
      ∃ answered ∈ state.answered, ¬answered.Shows state.channel) ∧
    ∃ start state, start.Started (boundedLRU Int (Option MessageResp) 2) ∧
      Reachable (DiscordState.step (boundedLRU Int (Option MessageResp) 2)
        (fun _ => none) 3) start state ∧
      ∃ answered ∈ state.answered, ¬answered.Shows state.channel := by
  constructor
  · refine ⟨telegramStart 2, _, telegramStart_started 2,
      ⟨[.get [1], .flush [1], .read 1, .beginEdit 0 1 "new", .applyEdit 0,
        .endEdit 0, .store, .get [1]], rfl⟩,
      ⟨[1], _, [some ⟨1, "old", none⟩]⟩, List.mem_cons_of_mem _
        (List.mem_singleton_self _), ?_⟩
    exact oldText_hides rfl rfl
  · refine ⟨discordStart 2, _, discordStart_started 2,
      ⟨[.get 0 [1], .read 0 1, .beginEdit 0 1 "new", .applyEdit 0,
        .endEdit 0, .store 0, .get 0 [1]], rfl⟩,
      ⟨[1], _, [some ⟨1, "old", none⟩]⟩, List.mem_cons_of_mem _
        (List.mem_singleton_self _), ?_⟩
    exact oldText_hides rfl rfl

end Tgdcfs
