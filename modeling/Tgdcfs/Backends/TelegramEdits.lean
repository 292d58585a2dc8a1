import Tgdcfs.Backends.MessageFreshness

/-!
# Edits through a Telegram store

An edit clears the cache before it is sent.  A batch that fetched the message
before the edit took effect stores the old text again when it comes in
later, and nothing clears it after that.  Batches that store only what no
edit has begun to replace keep the cache fresh.
-/

namespace Tgdcfs

open Lib

/-- The batch knows its requests and holds versions of the channel. -/
structure Batch.Sound (batch : Batch) (channel : Channel) : Prop where
  before : ∀ request ∈ batch.requests, channel.Returned request.since
  covers : ∀ request ∈ batch.requests, ∀ id ∈ request.ids, id ∈ batch.ids
  reads : ∀ (id : Int) (version : Nat) message,
    batch.reads.get? id = some (some (version, message)) →
      (channel.versions id)[version]? = some message

theorem Batch.Sound.grows {batch : Batch} {channel next : Channel}
    (sound : batch.Sound channel) (grows : channel.Grows next) :
    batch.Sound next :=
  ⟨fun request member => (sound.before request member).grows grows,
    sound.covers,
    fun id version message read =>
      grows.versions id version message (sound.reads id version message read)⟩

theorem Batch.fetched_entries {batch : Batch}
    (named : ∀ (id : Int) (version : Nat) message,
      batch.reads.get? id = some (some (version, message)) →
        message.messageId = id) :
    (batch.fetched.map fun message => (message.messageId, some message)) =
      fetchedEntries (fun id => (batch.reads.get? id).join.map Prod.snd)
        batch.missing := by
  unfold Batch.fetched fetchedEntries
  rw [List.map_filterMap]
  congr 1
  funext id
  dsimp only
  cases read : (batch.reads.get? id).join with
  | none => rfl
  | some found =>
      obtain ⟨version, message⟩ := found
      have same := named id version message (Option.join_eq_some_iff.mp read)
      simp [same]

namespace TelegramState

variable {σ : Type} {lru : LRU σ Int (Option MessageResp)} {capacity : Nat}
  {state next : TelegramState σ}

/-- Every edit of the message that has begun made this version or an older
one. -/
def Settled (state : TelegramState σ) (id : Int) (version : Nat) : Prop :=
  (∀ edit, state.channel.completed id = some edit → edit ≤ version) ∧
    ∀ call edit, state.edits.get? call = some edit → edit.messageId = id →
      ∃ made, edit.version = some made ∧ made ≤ version

/-- Batches store no message that an edit has begun to replace and answer
from the cache; no text looks like the marker of an overflow document. -/
def Undisturbed (lru : LRU σ Int (Option MessageResp)) (capacity : Nat)
    (state : TelegramState σ) : TelegramAction → Prop
  | .store => ∀ batch, state.batch = some batch →
      (∀ id version message,
        batch.reads.get? id = some (some (version, message)) →
          state.Settled id version) ∧
      ∀ request ∈ batch.requests, ∀ id ∈ request.ids,
        (request.since id).isSome → Held capacity
          (batch.missing.filter fun id => (batch.reads.get? id).join.isSome)
          (lru.items state.cache) id
  | .beginEdit _ _ text => isMarker text = false
  | _ => True

/-- The cache holds versions that no edit has begun to replace. -/
structure Fresh (lru : LRU σ Int (Option MessageResp))
    (state : TelegramState σ) : Prop where
  named : ∀ (id : Int) (version : Nat) message,
    (state.channel.versions id)[version]? = some message →
      message.messageId = id
  plain : ∀ (id : Int) (version : Nat) message, 1 ≤ version →
    (state.channel.versions id)[version]? = some message →
      isMarker message.text = false
  edits : ∀ call edit, state.edits.get? call = some edit →
    isMarker edit.text = false ∧
      ∀ version, edit.version = some version → 1 ≤ version
  completed : ∀ id edit, state.channel.completed id = some edit → 1 ≤ edit
  cached : ∀ id message, cachedMessage lru state.cache id = some message →
    ∃ version : Nat, (state.channel.versions id)[version]? = some message ∧
      state.Settled id version
  requests : ∀ request ∈ state.requests, state.channel.Returned request.since
  batch : ∀ batch, state.batch = some batch → batch.Sound state.channel
  shown : ∀ answered ∈ state.answered, answered.Shows state.channel

/-- The same where the texts from version `first` on are `plain`. -/
structure FreshFrom (first : Nat) (plain : String → Prop)
    (lru : LRU σ Int (Option MessageResp)) (state : TelegramState σ) :
    Prop where
  named : ∀ (id : Int) (version : Nat) message,
    (state.channel.versions id)[version]? = some message →
      message.messageId = id
  texts : ∀ (id : Int) (version : Nat) message, first ≤ version →
    (state.channel.versions id)[version]? = some message →
      plain message.text
  edits : ∀ call edit, state.edits.get? call = some edit →
    plain edit.text ∧
      ∀ version, edit.version = some version → first ≤ version
  completed : ∀ id edit, state.channel.completed id = some edit →
    first ≤ edit
  cached : ∀ id message, cachedMessage lru state.cache id = some message →
    ∃ version : Nat, (state.channel.versions id)[version]? = some message ∧
      state.Settled id version
  requests : ∀ request ∈ state.requests, state.channel.Returned request.since
  batch : ∀ batch, state.batch = some batch → batch.Sound state.channel
  shown : ∀ answered ∈ state.answered, answered.Shows state.channel

theorem fresh_iff : state.Fresh lru ↔
    state.FreshFrom 1 (fun text => isMarker text = false) lru := by
  constructor
  · intro fresh
    exact ⟨fresh.named, fresh.plain, fresh.edits, fresh.completed,
      fresh.cached, fresh.requests, fresh.batch, fresh.shown⟩
  · intro fresh
    exact ⟨fresh.named, fresh.texts, fresh.edits, fresh.completed,
      fresh.cached, fresh.requests, fresh.batch, fresh.shown⟩

section Fresh

variable {first : Nat} {plain : String → Prop}

theorem FreshFrom.withCache (fresh : state.FreshFrom first plain lru)
    {cache : σ} (same : ∀ id, cachedMessage lru cache id =
      cachedMessage lru state.cache id) :
    TelegramState.FreshFrom first plain lru
      { state with cache := cache } :=
  ⟨fresh.named, fresh.texts, fresh.edits, fresh.completed,
    fun id message cached => fresh.cached id message (same id ▸ cached),
    fresh.requests, fresh.batch, fresh.shown⟩

theorem FreshFrom.cached_shown (fresh : state.FreshFrom first plain lru)
    {id : Int} {edit later : Nat} {message : MessageResp}
    (returned : state.channel.completed id = some later)
    (below : edit ≤ later) {version : Nat}
    (listed : (state.channel.versions id)[version]? = some message)
    (settled : state.Settled id version) :
    edit ≤ version ∧ plain message.text := by
  have newest := settled.1 later returned
  have made := fresh.completed id later returned
  exact ⟨Nat.le_trans below newest,
    fresh.texts id version message (Nat.le_trans made newest) listed⟩

section Answers

variable {resolve : MessageResp → Option MessageResp}

theorem resolveMarker_plain {parse : List Char → Option Int}
    {documents : Int → Option String} {message : MessageResp}
    (plain : isMarker message.text = false) :
    resolveMarker parse documents message = some message := by
  simp [resolveMarker, plain]

/-- A message without a marker is answered as it was found. -/
theorem resolveAll_map (ids : List Int)
    (found : Int → Option MessageResp) :
    ∃ answer : Int → Option MessageResp,
      resolveAll resolve (ids.map found) = ids.map answer ∧
      ∀ id message, found id = some message →
        resolve message = some message → answer id = some message := by
  unfold resolveAll
  split
  · refine ⟨fun id => (found id).bind resolve,
      by rw [List.map_map]; rfl, ?_⟩
    intro id message isFound same
    simp only [isFound, Option.bind_some, same]
  · exact ⟨found, rfl, fun id message isFound _ => isFound⟩

theorem messagesMap_get {ids : List Int} {cached : Int → Option MessageResp}
    (named : ∀ id message, cached id = some message → message.messageId = id)
    {id : Int} {message : MessageResp} (member : id ∈ ids)
    (found : cached id = some message) :
    (Dict.ofList ((excludeNone (ids.map cached)).map fun message =>
      (message.messageId, message))).get? id = some message := by
  have entries : ((excludeNone (ids.map cached)).map fun message =>
      (message.messageId, message)) =
        (ids.filter fun id => (cached id).isSome).map fun id =>
          (id, (cached id).getD message) := by
    clear member found id
    unfold excludeNone
    induction ids with
    | nil => rfl
    | cons first ids ih =>
        cases isFirst : cached first with
        | none =>
            rw [List.map_cons, isFirst, List.filterMap_cons_none rfl, ih,
              List.filter_cons_of_neg (by simp [isFirst])]
        | some other =>
            have head : id (some other) = some other := rfl
            rw [List.map_cons, isFirst, List.filterMap_cons_some head,
              List.map_cons, ih, List.filter_cons_of_pos (by simp [isFirst]),
              List.map_cons, named first other isFirst, isFirst,
              Option.getD_some]
  rw [entries]
  have listed : id ∈ ids.filter fun id => (cached id).isSome :=
    List.mem_filter.mpr ⟨member, by simp [found]⟩
  rw [Dict.get?_ofList_map _ (fun id => (cached id).getD message) listed,
    found, Option.getD_some]

/-- The end of a batch: the requests are answered from a fresh cache that
holds what they must see. -/
theorem FreshFrom.finish (fresh : state.FreshFrom first plain lru)
    (passes : ∀ message : MessageResp, plain message.text →
      resolve message = some message)
    (lawful : lru.Lawful capacity)
    {batch : Batch} (sound : batch.Sound state.channel) {cache : σ}
    (cached : ∀ id message, cachedMessage lru cache id = some message →
      ∃ version : Nat, (state.channel.versions id)[version]? = some message ∧
        state.Settled id version)
    (held : ∀ request ∈ batch.requests, ∀ id ∈ request.ids,
      (request.since id).isSome →
        ∃ message, cachedMessage lru cache id = some message) :
    (finish lru resolve state batch cache).FreshFrom first plain
      lru := by
  refine ⟨fresh.named, fresh.texts, fresh.edits, fresh.completed, ?_,
    fresh.requests, fun batch none => (by cases none), ?_⟩
  · intro id message here
    have before : cachedMessage lru (MessageCache.gets lru batch.ids cache).1
        id = some message := here
    rw [cachedMessage_gets lawful] at before
    exact cached id message before
  · intro answered member
    rcases List.mem_append.mp member with old | new
    · exact fresh.shown answered old
    · obtain ⟨request, isRequest, rfl⟩ := List.mem_map.mp new
      obtain ⟨answer, answers, keeps⟩ :=
        @resolveAll_map resolve request.ids _
      rw [answers]
      apply Answered.shows_map
      intro id inside edit known
      obtain ⟨message, here⟩ := held request isRequest id inside
        (by rw [known]; rfl)
      obtain ⟨version, listed, settled⟩ := cached id message here
      obtain ⟨later, returned, below⟩ :=
        sound.before request isRequest id edit known
      obtain ⟨newEnough, plainText⟩ :=
        fresh.cached_shown returned below listed settled
      refine ⟨message, version, keeps id message ?_ (passes message plainText),
        newEnough, listed⟩
      rw [gets_messages lawful]
      apply messagesMap_get _ (sound.covers request isRequest id inside) here
      intro other found isCached
      obtain ⟨place, isVersion, _⟩ := cached other found isCached
      exact fresh.named other place found isVersion

theorem FreshFrom.attempt (fresh : state.FreshFrom first plain lru)
    (passes : ∀ message : MessageResp, plain message.text →
      resolve message = some message)
    (lawful : lru.Lawful capacity)
    {requests : List BrokerRequest} {ids : List Int} (left : Nat)
    (before : ∀ request ∈ requests, state.channel.Returned request.since)
    (covers : ∀ request ∈ requests, ∀ id ∈ request.ids, id ∈ ids) :
    (attempt lru resolve state requests ids left).FreshFrom first plain
      lru := by
  unfold TelegramState.attempt
  dsimp only
  have sound : ∀ missing, Batch.Sound ⟨requests, ids, left, missing, .empty⟩
      state.channel := by
    intro missing
    exact ⟨before, covers, fun _ _ _ read => (by cases read)⟩
  have same := cachedMessage_findNonexistent lawful ids state.cache
  split
  · rename_i nothing
    apply fresh.finish passes lawful (sound _)
    · intro id message cached
      exact fresh.cached id message (same id ▸ cached)
    · intro request member id inside _
      rw [findNonexistent_ids lawful, List.filter_eq_nil_iff] at nothing
      rw [same]
      have present := nothing id (covers request member id inside)
      simpa [Option.eq_none_iff_forall_ne_some] using present
  · obtain ⟨named, plain, edits, completed, cached, waiting, _, shown⟩ :=
      fresh.withCache same
    exact ⟨named, plain, edits, completed, cached, waiting,
      fun batch isBatch => Option.some.inj isBatch ▸ sound _, shown⟩

end Answers

theorem FreshFrom.clear (fresh : state.FreshFrom first plain lru)
    (lawful : lru.Lawful capacity) (id : Int) :
    TelegramState.FreshFrom first plain lru
      { state with cache := lru.set id none state.cache } := by
  refine ⟨fresh.named, fresh.texts, fresh.edits, fresh.completed, ?_,
    fresh.requests, fresh.batch, fresh.shown⟩
  intro other message cached
  rcases cachedMessage_set lawful cached with ⟨_, stored⟩ | ⟨_, here⟩
  · cases stored
  · exact fresh.cached other message here

theorem FreshFrom.addEdit (fresh : state.FreshFrom first plain lru)
    (call : Nat) (edit : EditCall) (plainText : plain edit.text)
    (late : ∀ version, edit.version = some version → first ≤ version)
    (absent : ∀ message,
      cachedMessage lru state.cache edit.messageId ≠ some message) :
    TelegramState.FreshFrom first plain lru
      { state with edits := state.edits.set call edit } := by
  refine ⟨fresh.named, fresh.texts, ?_, fresh.completed, ?_, fresh.requests,
    fresh.batch, fresh.shown⟩
  · intro other otherEdit known
    dsimp only at known
    rw [Dict.get?_set] at known
    split at known
    · cases known
      exact ⟨plainText, late⟩
    · exact fresh.edits other otherEdit known
  · intro id message cached
    obtain ⟨version, listed, newest, made⟩ := fresh.cached id message cached
    refine ⟨version, listed, newest, ?_⟩
    intro otherCall otherEdit known isEdit
    dsimp only at known
    rw [Dict.get?_set] at known
    split at known
    · cases known
      exact (absent message (isEdit ▸ cached)).elim
    · exact made otherCall otherEdit known isEdit

theorem FreshFrom.addMessage (fresh : state.FreshFrom first plain lru)
    (message : MessageResp) (plainText : plain message.text) :
    TelegramState.FreshFrom first plain lru { state with
      channel := state.channel.append message.messageId message } := by
  have grows := state.channel.append_grows message.messageId message
  refine ⟨?_, ?_, fresh.edits, fresh.completed, ?_, ?_, ?_, ?_⟩
  · intro id version other listed
    rcases Channel.append_version listed with old | ⟨rfl, _, rfl⟩
    · exact fresh.named id version other old
    · rfl
  · intro id version other late listed
    rcases Channel.append_version listed with old | ⟨rfl, _, rfl⟩
    · exact fresh.texts id version other late old
    · exact plainText
  · intro id other cached
    obtain ⟨version, listed, settled⟩ := fresh.cached id other cached
    exact ⟨version, grows.versions id version other listed, settled⟩
  · intro request member
    exact (fresh.requests request member).grows grows
  · intro batch isBatch
    exact (fresh.batch batch isBatch).grows grows
  · intro answered member
    exact (fresh.shown answered member).grows grows

theorem FreshFrom.beginEdit (fresh : state.FreshFrom first plain lru)
    (lawful : lru.Lawful capacity) {call : Nat} {id : Int} {text : String}
    (plainText : plain text) :
    TelegramState.FreshFrom first plain lru { state with
      cache := lru.set id none state.cache
      edits := state.edits.set call ⟨id, text, none⟩ } := by
  apply (fresh.clear lawful id).addEdit call ⟨id, text, none⟩ plainText
  · intro version made
    cases made
  · intro message cached
    rcases cachedMessage_set lawful cached with
      ⟨_, stored⟩ | ⟨different, _⟩
    · cases stored
    · exact different rfl

/-- An edit takes effect.  It has cleared the cache, and what was stored since
would have been settled. -/
theorem FreshFrom.applyEdit (fresh : state.FreshFrom first plain lru)
    (early : first ≤ 1) {call : Nat} {edit : EditCall}
    (known : state.edits.get? call = some edit)
    (begun : edit.version = none) {version : Nat} {message : MessageResp}
    (read : state.channel.read edit.messageId = some (version, message)) :
    TelegramState.FreshFrom first plain lru { state with
      channel := state.channel.append edit.messageId
        { message with text := edit.text }
      edits := state.edits.set call
        { edit with version := some (version + 1) } } := by
  obtain ⟨isVersion, isLast⟩ := Channel.read_spec read
  obtain ⟨plainText, _⟩ := fresh.edits call edit known
  have grows := state.channel.append_grows edit.messageId
    { message with text := edit.text }
  refine ⟨?_, ?_, ?_, fresh.completed, ?_, ?_, ?_, ?_⟩
  · intro id place other listed
    rcases Channel.append_version listed with old | ⟨rfl, _, rfl⟩
    · exact fresh.named id place other old
    · exact fresh.named _ version message isVersion
  · intro id place other late listed
    rcases Channel.append_version listed with old | ⟨rfl, _, rfl⟩
    · exact fresh.texts id place other late old
    · exact plainText
  · intro other otherEdit otherKnown
    dsimp only at otherKnown
    rw [Dict.get?_set] at otherKnown
    split at otherKnown
    · cases otherKnown
      refine ⟨plainText, ?_⟩
      intro made same
      cases same
      exact Nat.le_trans early (Nat.le_add_left 1 version)
    · exact fresh.edits other otherEdit otherKnown
  · intro id other cached
    obtain ⟨place, listed, newest, made⟩ := fresh.cached id other cached
    refine ⟨place, grows.versions id place other listed, newest, ?_⟩
    intro otherCall otherEdit otherKnown isEdit
    dsimp only at otherKnown
    rw [Dict.get?_set] at otherKnown
    split at otherKnown
    · cases otherKnown
      obtain ⟨earlier, isMade, _⟩ := made call edit known isEdit
      rw [begun] at isMade
      cases isMade
    · exact made otherCall otherEdit otherKnown isEdit
  · intro request member
    exact (fresh.requests request member).grows grows
  · intro batch isBatch
    exact (fresh.batch batch isBatch).grows grows
  · intro answered member
    exact (fresh.shown answered member).grows grows

theorem FreshFrom.endEdit (fresh : state.FreshFrom first plain lru)
    {call : Nat} {edit : EditCall} (known : state.edits.get? call = some edit)
    {version : Nat} (made : edit.version = some version) :
    TelegramState.FreshFrom first plain lru { state with
      channel := state.channel.complete edit.messageId version
      edits := state.edits.erase call } := by
  have grows := state.channel.complete_grows edit.messageId version
  refine ⟨fresh.named, fresh.texts, ?_, ?_, ?_, ?_, ?_, ?_⟩
  · intro other otherEdit otherKnown
    exact fresh.edits other otherEdit (Dict.get?_of_erase otherKnown)
  · intro id newest returned
    by_cases same : id = edit.messageId
    · subst same
      have late := (fresh.edits call edit known).2 version made
      simp only [Channel.complete, Function.update_self,
        Option.some.injEq] at returned
      omega
    · simp only [Channel.complete, Function.update_of_ne same] at returned
      exact fresh.completed id newest returned
  · intro id message cached
    obtain ⟨place, listed, newest, settled⟩ := fresh.cached id message cached
    refine ⟨place, listed, ?_, ?_⟩
    · intro newer returned
      refine Channel.complete_le newest ?_ returned
      intro isEdit
      obtain ⟨same, isMade, below⟩ := settled call edit known isEdit.symm
      rw [made] at isMade
      cases isMade
      exact below
    · intro other otherEdit otherKnown isEdit
      exact settled other otherEdit (Dict.get?_of_erase otherKnown)
        isEdit
  · intro request member
    exact (fresh.requests request member).grows grows
  · intro batch isBatch
    exact (fresh.batch batch isBatch).grows grows
  · intro answered member
    exact (fresh.shown answered member).grows grows

theorem FreshFrom.failEdit (fresh : state.FreshFrom first plain lru)
    (call : Nat) :
    TelegramState.FreshFrom first plain lru { state with
      edits := state.edits.erase call } := by
  refine ⟨fresh.named, fresh.texts, ?_, fresh.completed, ?_, fresh.requests,
    fresh.batch, fresh.shown⟩
  · intro other edit known
    exact fresh.edits other edit (Dict.get?_of_erase known)
  · intro id message cached
    obtain ⟨version, listed, newest, settled⟩ := fresh.cached id message cached
    exact ⟨version, listed, newest, fun other edit known =>
      settled other edit (Dict.get?_of_erase known)⟩

section Runs

variable {resolve : MessageResp → Option MessageResp} {bots : Nat}

theorem FreshFrom.get (fresh : state.FreshFrom first plain lru)
    (passes : ∀ message : MessageResp, plain message.text →
      resolve message = some message)
    (lawful : lru.Lawful capacity) {ids : List Int}
    (taken : step lru resolve bots state (.get ids) = some next) :
    next.FreshFrom first plain lru := by
  have same := cachedMessage_gets lawful ids state.cache
  obtain ⟨named, plain, edits, completed, cached, requests, batch, shown⟩ :=
    fresh.withCache same
  simp only [step] at taken
  split at taken
  · rename_i all
    cases taken
    refine ⟨named, plain, edits, completed, cached, requests, batch, ?_⟩
    intro answered member
    rcases List.mem_append.mp member with old | new
    · exact shown answered old
    · cases List.mem_singleton.mp new
      rw [gets_messages lawful] at all ⊢
      obtain ⟨answer, answers, keeps⟩ := @resolveAll_map resolve ids
        (cachedMessage lru state.cache)
      rw [answers]
      apply Answered.shows_map
      intro id inside edit known
      have present := List.all_eq_true.mp all.2 _
        (List.mem_map.mpr ⟨id, inside, rfl⟩)
      obtain ⟨message, here⟩ := Option.isSome_iff_exists.mp present
      obtain ⟨version, listed, settled⟩ := fresh.cached id message here
      obtain ⟨newEnough, plainText⟩ :=
        fresh.cached_shown known (Nat.le_refl edit) listed settled
      exact ⟨message, version,
        keeps id message here (passes message plainText), newEnough, listed⟩
  · cases taken
    refine ⟨named, plain, edits, completed, cached, ?_, batch, shown⟩
    intro request member
    rcases List.mem_append.mp member with old | new
    · exact requests request old
    · cases List.mem_singleton.mp new
      exact state.channel.returned_completed

theorem FreshFrom.read (fresh : state.FreshFrom first plain lru)
    {batch : Batch} {id : Int}
    (isBatch : state.batch = some batch) :
    TelegramState.FreshFrom first plain lru { state with
      batch := some { batch with
        reads := batch.reads.set id (state.channel.read id) } } := by
  obtain ⟨before, covers, reads⟩ := fresh.batch batch isBatch
  refine ⟨fresh.named, fresh.texts, fresh.edits, fresh.completed,
    fresh.cached, fresh.requests, ?_, fresh.shown⟩
  intro changed same
  cases same
  refine ⟨before, covers, ?_⟩
  intro other version message read
  dsimp only at read
  rw [Dict.get?_set] at read
  split at read
  · rename_i isId
    subst isId
    exact (Channel.read_spec (Option.some.inj read)).1
  · exact reads other version message read

theorem FreshFrom.store (fresh : state.FreshFrom first plain lru)
    (passes : ∀ message : MessageResp, plain message.text →
      resolve message = some message)
    (positive : 1 ≤ capacity) (lawful : lru.Lawful capacity) {batch : Batch}
    (isBatch : state.batch = some batch)
    (undisturbed : state.Undisturbed lru capacity .store) :
    TelegramState.FreshFrom first plain lru
      (TelegramState.finish lru resolve state batch
        (storeMessages lru batch.fetched state.cache)) := by
  obtain ⟨settled, held⟩ := undisturbed batch isBatch
  have sound := fresh.batch batch isBatch
  have storing := storeMessages_items lawful batch.fetched state.cache
  rw [Batch.fetched_entries fun id version message read =>
    fresh.named id version message
      (sound.reads id version message read)] at storing
  apply fresh.finish passes lawful sound
  · intro id message cached
    rcases cachedMessage_stored positive lawful storing cached with
      new | old
    · obtain ⟨⟨version, found⟩, read, rfl⟩ := Option.map_eq_some_iff.mp new
      have isRead := Option.join_eq_some_iff.mp read
      exact ⟨version, sound.reads id version found isRead,
        settled id version found isRead⟩
    · exact fresh.cached id message old
  · intro request member id inside known
    have holds := held request member id inside known
    apply Held.cached positive lawful storing
    simpa only [Option.isSome_map] using holds

theorem FreshFrom.step (fresh : state.FreshFrom first plain lru)
    (passes : ∀ message : MessageResp, plain message.text →
      resolve message = some message)
    (early : first ≤ 1) (positive : 1 ≤ capacity)
    (lawful : lru.Lawful capacity) {action : TelegramAction}
    (undisturbed : action = .store →
      state.Undisturbed lru capacity .store)
    (plainText : ∀ call id text, action = .beginEdit call id text →
      plain text)
    (taken : step lru resolve bots state action = some next) :
    next.FreshFrom first plain lru := by
  cases action with
  | get ids => exact fresh.get passes lawful taken
  | flush ids =>
      simp only [TelegramState.step] at taken
      split at taken
      · rename_i ready
        cases taken
        have waiting : TelegramState.FreshFrom first plain lru
            { state with requests := [] } :=
          ⟨fresh.named, fresh.texts, fresh.edits, fresh.completed,
            fresh.cached, fun _ none => (by cases none), fresh.batch,
            fresh.shown⟩
        apply waiting.attempt passes lawful _ fresh.requests
        intro request member id inside
        rw [ready.2.2.mem_iff, List.mem_dedup]
        exact List.mem_flatMap.mpr ⟨request, member, inside⟩
      · cases taken
  | read id =>
      obtain ⟨batch, isBatch, rest⟩ := Option.bind_eq_some_iff.mp taken
      split at rest
      · cases rest
        exact fresh.read isBatch
      · cases rest
  | store =>
      obtain ⟨batch, isBatch, rest⟩ := Option.bind_eq_some_iff.mp taken
      split at rest
      · cases rest
        exact fresh.store passes positive lawful isBatch (undisturbed rfl)
      · cases rest
  | fetchFails =>
      obtain ⟨batch, isBatch, rfl⟩ := Option.map_eq_some_iff.mp taken
      obtain ⟨before, covers, _⟩ := fresh.batch batch isBatch
      have dropped : TelegramState.FreshFrom first plain lru
          { state with batch := none } :=
        ⟨fresh.named, fresh.texts, fresh.edits, fresh.completed,
          fresh.cached, fresh.requests, fun _ none => (by cases none),
          fresh.shown⟩
      split
      · exact dropped
      · exact dropped.attempt passes lawful _ before covers
  | collectorFails =>
      cases taken
      exact ⟨fresh.named, fresh.texts, fresh.edits, fresh.completed,
        fresh.cached, fun _ none => (by cases none),
        fun _ none => (by cases none), fresh.shown⟩
  | beginEdit call id text =>
      simp only [TelegramState.step] at taken
      split at taken
      · cases taken
      · cases taken
        exact fresh.beginEdit lawful (plainText call id text rfl)
  | applyEdit call =>
      obtain ⟨edit, known, rest⟩ := Option.bind_eq_some_iff.mp taken
      split at rest
      · cases rest
      · rename_i begun
        obtain ⟨⟨version, message⟩, read, rfl⟩ :=
          Option.map_eq_some_iff.mp rest
        exact fresh.applyEdit early known (by simpa using begun) read
  | endEdit call =>
      obtain ⟨edit, known, rest⟩ := Option.bind_eq_some_iff.mp taken
      obtain ⟨version, made, rfl⟩ := Option.map_eq_some_iff.mp rest
      exact fresh.endEdit known made
  | failEdit call =>
      simp only [TelegramState.step] at taken
      split at taken
      · cases taken
        exact fresh.failEdit call
      · cases taken

end Runs

end Fresh

theorem Fresh.step (fresh : state.Fresh lru)
    {parse : List Char → Option Int} {documents : Int → Option String}
    {bots : Nat} (positive : 1 ≤ capacity) (lawful : lru.Lawful capacity)
    {action : TelegramAction}
    (undisturbed : state.Undisturbed lru capacity action)
    (taken : step lru (resolveMarker parse documents) bots state action =
      some next) : next.Fresh lru := by
  apply fresh_iff.mpr
  apply (fresh_iff.mp fresh).step (fun _ => resolveMarker_plain)
    (Nat.le_refl 1) positive lawful _ _ taken
  · rintro rfl
    exact undisturbed
  · rintro call id text rfl
    exact undisturbed

/-- Nothing is in flight and nothing cached; a message is as it was sent. -/
structure Started (lru : LRU σ Int (Option MessageResp))
    (state : TelegramState σ) : Prop where
  sent : ∀ id, (state.channel.versions id).length ≤ 1
  named : ∀ id, ∀ message ∈ state.channel.versions id, message.messageId = id
  completed : ∀ id, state.channel.completed id = none
  cache : lru.items state.cache = []
  requests : state.requests = []
  batch : state.batch = none
  edits : state.edits = .empty
  answered : state.answered = []

theorem Started.fresh (started : state.Started lru) : state.Fresh lru := by
  refine ⟨?_, ?_, ?_, ?_, ?_, ?_, ?_, ?_⟩
  · intro id version message listed
    exact started.named id message (List.mem_of_getElem? listed)
  · intro id version message late listed
    obtain ⟨inside, _⟩ := List.getElem?_eq_some_iff.mp listed
    have single := started.sent id
    omega
  · intro call edit known
    rw [started.edits] at known
    cases known
  · intro id edit returned
    rw [started.completed] at returned
    cases returned
  · intro id message cached
    rw [cachedMessage, started.cache] at cached
    cases cached
  · intro request member
    rw [started.requests] at member
    cases member
  · intro batch isBatch
    rw [started.batch] at isBatch
    cases isBatch
  · intro answered member
    rw [started.answered] at member
    cases member

end TelegramState

end Tgdcfs
