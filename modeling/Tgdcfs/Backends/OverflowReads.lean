import Tgdcfs.Backends.OverflowRuns

/-!
# What the lookups of the store return

A lookup that the cache answers with the current version of a message finds
the document the version points to, in memory or on the channel.  So a lookup
that runs while its messages stay as the last calls left them returns what
those calls wrote.
-/

namespace Tgdcfs

open Lib

section Messages

variable {channel next : Channel} {documents grown : Dict Int String}
  {since : Int → Option Nat} {id : Int}

theorem Channel.Grows.length_le (grows : channel.Grows next) (id : Int) :
    (channel.versions id).length ≤ (next.versions id).length := by
  by_contra shorter
  obtain ⟨message, listed⟩ : ∃ message,
      (channel.versions id)[(next.versions id).length]? = some message :=
    ⟨_, List.getElem?_eq_getElem (Nat.lt_of_not_le shorter)⟩
  have later := grows.versions id _ message listed
  exact Nat.lt_irrefl _ (List.getElem?_eq_some_iff.mp later).1

theorem OverflowState.meaning_grows
    (grows : ∀ document text, documents.get? document = some text →
      grown.get? document = some text)
    {message : MessageResp} {text : String}
    (means : OverflowState.meaning documents message = some text) :
    OverflowState.meaning grown message = some text := by
  unfold OverflowState.meaning at means ⊢
  cases marks : markerOf message with
  | none =>
      rw [marks] at means
      exact means
  | some document =>
      rw [marks] at means
      exact grows document text means

/-- What the lookup below answered. -/
structure RawMessage (channel : Channel) (since : Int → Option Nat) (id : Int)
    (message : Option MessageResp) : Prop where
  genuine : ∀ found, message = some found →
    ∃ version : Nat, (channel.versions id)[version]? = some found
  shows : ∀ edit, since id = some edit →
    ∃ found version shown, message = some found ∧ edit ≤ version ∧
      (channel.versions id)[version]? = some shown ∧ found.text = shown.text

/-- If the version that had returned is the current one still, it was resolved
to its text. -/
def ResolvedMessage (channel : Channel) (documents : Dict Int String)
    (since : Int → Option Nat) (id : Int) (message : Option MessageResp) :
    Prop :=
  ∀ version, since id = some version →
    ∃ shown, (channel.versions id)[version]? = some shown ∧
      ((channel.versions id).length = version + 1 → shown.document = none →
        ∃ text, OverflowState.meaning documents shown = some text ∧
          message = some ⟨id, text, none⟩)

variable {message : Option MessageResp}

theorem RawMessage.grows (raw : RawMessage channel since id message)
    (grows : channel.Grows next) : RawMessage next since id message := by
  constructor
  · intro found same
    obtain ⟨version, listed⟩ := raw.genuine found same
    exact ⟨version, grows.versions id version found listed⟩
  · intro edit known
    obtain ⟨found, version, shown, same, late, listed, text⟩ :=
      raw.shows edit known
    exact ⟨found, version, shown, same, late,
      grows.versions id version shown listed, text⟩

theorem ResolvedMessage.grows
    (resolved : ResolvedMessage channel documents since id message)
    (grows : channel.Grows next)
    (growsToo : ∀ document text, documents.get? document = some text →
      grown.get? document = some text) :
    ResolvedMessage next grown since id message := by
  intro version known
  obtain ⟨shown, listed, means⟩ := resolved version known
  refine ⟨shown, grows.versions id version shown listed, ?_⟩
  intro current plain
  have inside := (List.getElem?_eq_some_iff.mp listed).1
  have before := grows.length_le id
  obtain ⟨text, isText, same⟩ := means (by omega) plain
  exact ⟨text, OverflowState.meaning_grows growsToo isText, same⟩

/-- A message that was answered is resolved if its text is right, should it be
the current version. -/
theorem RawMessage.resolves {raw : Option MessageResp}
    (isRaw : RawMessage channel since id raw)
    (means : ∀ found version, raw = some found →
      (channel.versions id)[version]? = some found →
        version + 1 = (channel.versions id).length →
          found.messageId = id → found.document = none →
            ∃ text, OverflowState.meaning documents found = some text ∧
              message = some ⟨id, text, none⟩)
    (named : ∀ (version : Nat) found,
      (channel.versions id)[version]? = some found → found.messageId = id)
    (alike : ∀ shown ∈ channel.versions id, shown.document = none →
      ∀ found ∈ channel.versions id, found.document = none) :
    ResolvedMessage channel documents since id message := by
  intro version known
  obtain ⟨found, late, shown, same, order, listed, text⟩ :=
    isRaw.shows version known
  have bound := (List.getElem?_eq_some_iff.mp listed).1
  have inside : version < (channel.versions id).length := by omega
  refine ⟨_, List.getElem?_eq_getElem inside, ?_⟩
  intro current plain
  have isLast : late = version := by omega
  subst isLast
  have isShown := (List.getElem?_eq_some_iff.mp listed).2
  rw [isShown] at plain ⊢
  obtain ⟨place, isVersion⟩ := isRaw.genuine found same
  have foundPlain := alike shown (List.mem_of_getElem? listed) plain found
    (List.mem_of_getElem? isVersion)
  have isFound : found = shown := by
    obtain ⟨foundId, foundText, foundDocument⟩ := found
    obtain ⟨shownId, shownText, shownDocument⟩ := shown
    have first := named place _ isVersion
    have second := named late _ listed
    dsimp only at text plain foundPlain first second
    rw [text, plain, foundPlain, first, second]
  subst isFound
  exact means found late same listed current.symm
    (named late found listed) plain

end Messages

/-- The resolved messages of a lookup, the one that is waited for and those
that are left. -/
structure OverflowRead.Sound (read : OverflowRead) (channel : Channel)
    (documents : Dict Int String) : Prop where
  marks : markerOf read.message = some read.document
  parts : ∃ before here behind, read.answered.ids = before ++ here :: behind ∧
    List.Forall₂ (ResolvedMessage channel documents read.answered.since)
      before read.resolved ∧
    RawMessage channel read.answered.since here (some read.message) ∧
    List.Forall₂ (RawMessage channel read.answered.since) behind read.pending

theorem OverflowRead.Sound.grows {read : OverflowRead}
    {channel next : Channel} {documents grown : Dict Int String}
    (sound : read.Sound channel documents) (grows : channel.Grows next)
    (growsToo : ∀ document text, documents.get? document = some text →
      grown.get? document = some text) : read.Sound next grown := by
  obtain ⟨before, here, behind, ids, resolved, raw, pending⟩ := sound.parts
  refine ⟨sound.marks, before, here, behind, ids, ?_, raw.grows grows, ?_⟩
  · exact resolved.imp fun _ _ known => known.grows grows growsToo
  · exact pending.imp fun _ _ known => known.grows grows

namespace OverflowState

variable {σ τ : Type} {lru : LRU σ Int (Option MessageResp)}
  {texts : LRU τ Int (Option String)} {capacity depth bots : Nat}
  {state next : OverflowState σ τ}

/-- The text the memory answers for a document. -/
def knownText (texts : LRU τ Int (Option String)) (memory : τ)
    (document : Int) : Option String :=
  ((texts.items memory).lookup document).join

theorem knownText_get (lawful : texts.Lawful depth) (memory : τ)
    (document other : Int) :
    knownText texts (MessageCache.get texts document memory).1 other =
      knownText texts memory other := by
  unfold knownText MessageCache.get
  rw [lawful.get_items, Recency.lookup_touch]

theorem get_knownText (lawful : texts.Lawful depth) (memory : τ)
    (document : Int) :
    (MessageCache.get texts document memory).2 =
      knownText texts memory document := by
  unfold knownText MessageCache.get
  rw [lawful.get_value]

theorem knownText_set (lawful : texts.Lawful depth) {memory : τ}
    {document other : Int} {text found : String}
    (known : knownText texts (texts.set document (some text) memory) other =
      some found) :
    other = document ∧ found = text ∨
      knownText texts memory other = some found := by
  unfold knownText at known ⊢
  rw [lawful.set_items, Recency.lookup_take] at known
  split at known
  · rw [Recency.lookup_put] at known
    split at known
    · rename_i same
      cases known
      exact .inl ⟨same, rfl⟩
    · exact .inr known
  · cases known

/-- What the lookups rely on: nothing stale is cached, every text in memory
is that of its document, what the calls wrote is on the channel, and a version
is known to have returned or has its request in flight. -/
structure Truthful (lru : LRU σ Int (Option MessageResp))
    (texts : LRU τ Int (Option String)) (state : OverflowState σ τ) :
    Prop where
  fresh : state.service.FreshFrom 0 (fun _ => True) lru
  known : ∀ document text,
    knownText texts state.overflowText document = some text →
      state.documents.get? document = some text
  completed : ∀ id, state.service.channel.completed id =
    (state.written.get? id).map Prod.fst
  written : ∀ id version text,
    state.written.get? id = some (version, text) →
      ∃ message, (state.service.channel.versions id)[version]? =
          some message ∧
        message.document = none ∧
        meaning state.documents message = some text
  newest : ∀ id version, version < (state.service.channel.versions id).length →
    version = 0 ∨
      (∃ last, state.service.channel.completed id = some last ∧
        version ≤ last) ∨
      ∃ call edit made, state.service.edits.get? call = some edit ∧
        edit.messageId = id ∧ edit.version = some made ∧ version ≤ made
  reads : ∀ answer read, state.reads.get? answer = some read →
    read.Sound state.service.channel state.documents
  returned : ∀ answer ∈ state.returned, answer.ShowsWritten

theorem Coherent.resolves (coherent : state.Coherent lru)
    {since : Int → Option Nat} {id : Int} {raw message : Option MessageResp}
    (isRaw : RawMessage state.service.channel since id raw)
    (means : ∀ found version, raw = some found →
      (state.service.channel.versions id)[version]? = some found →
        version + 1 = (state.service.channel.versions id).length →
          found.messageId = id → found.document = none →
            ∃ text, meaning state.documents found = some text ∧
              message = some ⟨id, text, none⟩) :
    ResolvedMessage state.service.channel state.documents since id message :=
  isRaw.resolves means (coherent.genuine.named id) fun _ member plain =>
    (coherent.ledger.holdsText member plain).2

namespace Truthful

theorem grows (truthful : state.Truthful lru texts)
    {service : TelegramState σ} {documents : Dict Int String}
    {overflowText : τ}
    (fresh : service.FreshFrom 0 (fun _ => True) lru)
    (known : ∀ document text,
      knownText texts overflowText document = some text →
        documents.get? document = some text)
    (grows : state.service.channel.Grows service.channel)
    (growsToo : ∀ document text,
      state.documents.get? document = some text →
        documents.get? document = some text)
    (completed : service.channel.completed = state.service.channel.completed)
    (newest : ∀ id version, version < (service.channel.versions id).length →
      version = 0 ∨
        (∃ last, service.channel.completed id = some last ∧
          version ≤ last) ∨
        ∃ call edit made, service.edits.get? call = some edit ∧
          edit.messageId = id ∧ edit.version = some made ∧ version ≤ made)
    (calls : Dict Nat TextCall) (overflowOf : Dict Int Int)
    (deleted : List Int) (resumed : List Nat) :
    OverflowState.Truthful lru texts
      ⟨service, documents, deleted, calls, overflowOf, overflowText,
        state.reads, resumed, state.written, state.returned⟩ := by
  refine ⟨fresh, known, ?_, ?_, newest, ?_, truthful.returned⟩
  · intro id
    rw [completed]
    exact truthful.completed id
  · intro id version text wrote
    obtain ⟨message, listed, plain, means⟩ :=
      truthful.written id version text wrote
    exact ⟨message, grows.versions id version message listed, plain,
      meaning_grows growsToo means⟩
  · intro answer read found
    exact (truthful.reads answer read found).grows grows growsToo

/-- What was resolved without a change to the channel shows what was
written. -/
theorem shows_resolved (truthful : state.Truthful lru texts)
    {answered : Answered} {resolved : List (Option MessageResp)}
    (isResolved : List.Forall₂ (ResolvedMessage state.service.channel
      state.documents answered.since) answered.ids resolved) :
    OverflowAnswer.ShowsWritten ⟨answered.ids, answered.since,
      state.service.channel.newest, state.written, resolved⟩ := by
  refine isResolved.imp ?_
  intro id message means version text wrote known current
  obtain ⟨shown, listed, isMeant⟩ := means version known
  obtain ⟨found, read, isLast⟩ := Option.map_eq_some_iff.mp current
  have last := (Channel.read_spec read).2
  obtain ⟨wroteMessage, isWritten, plain, meant⟩ :=
    truthful.written id version text wrote
  cases listed.symm.trans isWritten
  obtain ⟨other, isOther, same⟩ := isMeant (by omega) plain
  cases meant.symm.trans isOther
  exact same

theorem resume (textsLawful : texts.Lawful depth)
    (coherent : state.Coherent lru) (truthful : state.Truthful lru texts)
    {answer : Nat} {answered : Answered} {before behind : List Int}
    {resolved pending : List (Option MessageResp)} {channel : Channel}
    (here : state.service.channel = channel)
    (ids : answered.ids = before ++ behind)
    (isResolved : List.Forall₂ (ResolvedMessage channel state.documents
      answered.since) before resolved)
    (isRaw : List.Forall₂ (RawMessage channel answered.since) behind
      pending) :
    (resume texts answer answered resolved pending state).Truthful lru
      texts := by
  induction isRaw generalizing before resolved state with
  | nil =>
      subst here
      refine { truthful with reads := ?_, returned := ?_ }
      · intro other read found
        exact truthful.reads other read (Dict.get?_of_erase found)
      · intro other member
        rcases List.mem_append.mp member with old | new
        · exact truthful.returned other old
        · cases List.mem_singleton.mp new
          rw [List.append_nil] at ids
          exact truthful.shows_resolved (ids ▸ isResolved)
  | @cons id message behind pending raw rest ih =>
      subst here
      have idsNext : answered.ids = (before ++ [id]) ++ behind := by
        rw [ids, List.append_assoc]
        rfl
      have resolves : ∀ answer, (∀ found version, message = some found →
          (state.service.channel.versions id)[version]? = some found →
            version + 1 = (state.service.channel.versions id).length →
              found.messageId = id → found.document = none →
                ∃ text, meaning state.documents found = some text ∧
                  answer = some ⟨id, text, none⟩) →
          List.Forall₂ (ResolvedMessage state.service.channel
            state.documents answered.since) (before ++ [id])
              (resolved ++ [answer]) := by
        intro answer means
        exact List.rel_append isResolved
          (.cons (coherent.resolves raw means) .nil)
      cases message with
      | none =>
          apply ih coherent truthful rfl idsNext (resolves none _)
          intro found version absurd
          cases absurd
      | some message =>
          simp only [OverflowState.resume]
          split
          · rename_i unmarked
            apply ih coherent truthful rfl idsNext (resolves (some message) _)
            rintro found version ⟨⟩ _ _ isId plain
            refine ⟨message.text, ?_, ?_⟩
            · rw [meaning, unmarked]
            · rw [← isId, ← plain]
          · rename_i document marks
            obtain ⟨version, listed⟩ := raw.genuine message rfl
            have remembered : OverflowState.Coherent lru { state with
                overflowOf :=
                  state.overflowOf.set message.messageId document
                overflowText := (MessageCache.get texts document
                  state.overflowText).1 } :=
              coherent.remember (coherent.genuine.named id version message
                listed ▸ listed) marks _
            have kept : OverflowState.Truthful lru texts { state with
                overflowOf :=
                  state.overflowOf.set message.messageId document
                overflowText := (MessageCache.get texts document
                  state.overflowText).1 } := by
              refine { truthful with known := ?_ }
              intro other text found
              rw [knownText_get textsLawful] at found
              exact truthful.known other text found
            split
            · rename_i text inMemory
              rw [get_knownText textsLawful] at inMemory
              have stored := truthful.known document text inMemory
              apply ih remembered kept rfl idsNext
                (resolves (some ⟨message.messageId, text, none⟩) _)
              rintro found version ⟨⟩ _ _ isId _
              refine ⟨text, ?_, ?_⟩
              · rw [meaning, marks]
                exact stored
              · rw [← isId]
            · refine { kept with reads := ?_ }
              intro other read found
              dsimp only at found
              rw [Dict.get?_set] at found
              split at found
              · cases found
                exact ⟨marks, before, id, behind, ids, isResolved, raw, rest⟩
              · exact truthful.reads other read found

end Truthful

end OverflowState

end Tgdcfs
