import Tgdcfs.Backends.OverflowReads

/-!
# Texts of any length stay readable

In a run whose lookups are not overtaken by edits, every message whose last
write had returned is read with that text, whatever mixture of short and long
texts came before.
-/

namespace Tgdcfs

open Lib

namespace OverflowState

variable {σ τ : Type} {lru : LRU σ Int (Option MessageResp)}
  {texts : LRU τ Int (Option String)} {capacity depth bots : Nat}
  {state next : OverflowState σ τ}

theorem Coherent.unedited (coherent : state.Coherent lru) {call : Nat}
    {request : TextCall} (known : state.calls.get? call = some request)
    (other : ∀ overflow, request.stage ≠ .sending overflow) :
    state.service.edits.get? call = none := by
  cases found : state.service.edits.get? call with
  | none => rfl
  | some edit =>
      obtain ⟨overflow, sends⟩ :=
        (coherent.ledger.sound call request known).sends edit found
      exact (other overflow sends.stage).elim

theorem Coherent.uncalled (coherent : state.Coherent lru) {call : Nat}
    (free : state.calls.contains call = false) :
    state.service.edits.get? call = none := by
  cases found : state.service.edits.get? call with
  | none => rfl
  | some edit =>
      obtain ⟨request, known⟩ := coherent.ledger.known call edit found
      rw [Dict.contains, known] at free
      cases free

namespace Truthful

theorem lookup (truthful : state.Truthful lru texts) (positive : 1 ≤ capacity)
    (lawful : lru.Lawful capacity) {action : TelegramAction}
    (isLookup : action.isLookup)
    (undisturbed : action = .store →
      state.service.Undisturbed lru capacity .store)
    (taken : serve lru bots state action = some next) :
    next.Truthful lru texts := by
  obtain ⟨service, stepped, rfl⟩ := Option.map_eq_some_iff.mp taken
  obtain ⟨channel, edits⟩ := TelegramState.lookup_keeps isLookup stepped
  have fresh := truthful.fresh.step (fun _ _ => rfl) (Nat.zero_le 1) positive
    lawful undisturbed (fun _ _ _ _ => trivial) stepped
  apply truthful.grows fresh truthful.known
  · rw [channel]
    exact .refl _
  · exact fun _ _ stored => stored
  · rw [channel]
  · rw [channel, edits]
    exact truthful.newest

variable {call : Nat} {request : TextCall}

theorem startSending (truthful : state.Truthful lru texts)
    (lawful : lru.Lawful capacity) {overflow : Option Int}
    (unedited : state.service.edits.get? call = none)
    (taken : startSending lru bots state call request overflow =
      some next) : next.Truthful lru texts := by
  obtain ⟨messageId, text, superseded, stage⟩ := request
  cases messageId with
  | none =>
      cases taken
      exact { truthful with }
  | some id =>
      obtain ⟨service, stepped, rfl⟩ := Option.map_eq_some_iff.mp taken
      simp only [TelegramState.step] at stepped
      split at stepped
      · cases stepped
      · cases stepped
        apply truthful.grows (truthful.fresh.beginEdit lawful trivial)
          truthful.known (.refl _) (fun _ _ stored => stored) rfl
        intro other version inside
        rcases truthful.newest other version inside with
          first | returned | ⟨busy, edit, made, isEdit, target, isMade, below⟩
        · exact .inl first
        · exact .inr (.inl returned)
        · refine .inr (.inr ⟨busy, edit, made, ?_, target, isMade, below⟩)
          rw [Dict.get?_set, if_neg]
          · exact isEdit
          · rintro rfl
            rw [unedited] at isEdit
            cases isEdit

theorem begin_ (truthful : state.Truthful lru texts)
    (coherent : state.Coherent lru) (lawful : lru.Lawful capacity)
    (taken : begin_ lru bots state call request = some next) :
    next.Truthful lru texts := by
  unfold OverflowState.begin_ at taken
  split at taken
  · cases taken
  · rename_i free
    rw [not_or, Bool.not_eq_true] at free
    split at taken
    · cases taken
      exact { truthful with }
    · exact truthful.startSending lawful (coherent.uncalled free.1) taken

theorem uploaded (truthful : state.Truthful lru texts)
    (coherent : state.Coherent lru) (lawful : lru.Lawful capacity)
    (textsLawful : texts.Lawful depth) {message : MessageResp}
    (known : state.calls.get? call = some request)
    (stage : request.stage = .uploading)
    (unused : state.service.channel.versions message.messageId = [])
    (taken : OverflowState.startSending lru bots
      { state with
        service := { state.service with
          channel := state.service.channel.append message.messageId message }
        documents := state.documents.set message.messageId request.text
        overflowText := texts.set message.messageId (some request.text)
          state.overflowText }
      call request (some message.messageId) = some next) :
    next.Truthful lru texts := by
  have unedited : state.service.edits.get? call = none :=
    coherent.unedited known fun overflow same => by
      rw [stage] at same
      cases same
  have unknown : ∀ text,
      state.documents.get? message.messageId ≠ some text :=
    fun text stored =>
      (coherent.ledger.valid _ text stored).2.1 unused
  have grown : ∀ document text,
      state.documents.get? document = some text →
        (state.documents.set message.messageId request.text).get? document =
          some text := by
    intro document text stored
    rw [Dict.get?_set, if_neg]
    · exact stored
    · rintro rfl
      exact unknown text stored
  have uploaded : OverflowState.Truthful lru texts { state with
      service := { state.service with
        channel := state.service.channel.append message.messageId message }
      documents := state.documents.set message.messageId request.text
      overflowText := texts.set message.messageId (some request.text)
        state.overflowText } := by
    apply truthful.grows (truthful.fresh.addMessage message trivial) _
      (state.service.channel.append_grows _ _) grown rfl
    · intro id version inside
      rw [Channel.append_length] at inside
      split at inside
      · rename_i same
        rw [same, unused] at inside
        exact .inl (Nat.lt_one_iff.mp inside)
      · exact truthful.newest id version inside
    · intro document text inMemory
      rcases knownText_set textsLawful inMemory with ⟨rfl, rfl⟩ | before
      · rw [Dict.get?_set, if_pos rfl]
      · exact grown document text (truthful.known document text before)
  exact uploaded.startSending lawful unedited taken

theorem applySend (truthful : state.Truthful lru texts) {id : Int}
    {text : String} (unedited : state.service.edits.contains call = false)
    (unused : state.service.channel.versions id = []) :
    OverflowState.Truthful lru texts { state with
      service := { state.service with
        channel := state.service.channel.append id ⟨id, text, none⟩
        edits := state.service.edits.set call ⟨id, text, some 0⟩ } } := by
  have uncached : ∀ message,
      cachedMessage lru state.service.cache id ≠ some message := by
    intro message cached
    obtain ⟨version, listed, _⟩ := truthful.fresh.cached id message cached
    rw [unused] at listed
    cases listed
  have fresh := TelegramState.FreshFrom.addEdit
    (truthful.fresh.addMessage ⟨id, text, none⟩ trivial) call
    ⟨id, text, some 0⟩ trivial
    (fun version _ => Nat.zero_le version) uncached
  apply truthful.grows fresh truthful.known
    (state.service.channel.append_grows _ _) (fun _ _ stored => stored) rfl
  intro other version inside
  rw [Channel.append_length] at inside
  split at inside
  · rename_i same
    rw [same, unused] at inside
    exact .inl (Nat.lt_one_iff.mp inside)
  · rcases truthful.newest other version inside with
      first | returned | ⟨busy, edit, made, isEdit, target, isMade, below⟩
    · exact .inl first
    · exact .inr (.inl returned)
    · refine .inr (.inr ⟨busy, edit, made, ?_, target, isMade, below⟩)
      rw [Dict.get?_set, if_neg]
      · exact isEdit
      · rintro rfl
        rw [Dict.contains, isEdit] at unedited
        cases unedited

theorem applyEdit (truthful : state.Truthful lru texts)
    (positive : 1 ≤ capacity) (lawful : lru.Lawful capacity)
    (taken : serve lru bots state (.applyEdit call) = some next) :
    next.Truthful lru texts := by
  obtain ⟨service, stepped, rfl⟩ := Option.map_eq_some_iff.mp taken
  have fresh := truthful.fresh.step (fun _ _ => rfl) (Nat.zero_le 1) positive
    lawful (fun absurd => by cases absurd) (fun _ _ _ _ => trivial) stepped
  obtain ⟨edit, isEdit, rest⟩ := Option.bind_eq_some_iff.mp stepped
  split at rest
  · cases rest
  · rename_i unmade
    obtain ⟨⟨last, message⟩, read, rfl⟩ := Option.map_eq_some_iff.mp rest
    have isLast := (Channel.read_spec read).2
    apply truthful.grows fresh truthful.known
      (state.service.channel.append_grows _ _) (fun _ _ stored => stored) rfl
    intro id version inside
    dsimp only at inside
    rw [Channel.append_length] at inside
    split at inside
    · rename_i same
      refine .inr (.inr ⟨call, { edit with version := some (last + 1) },
        last + 1, ?_, same.symm, rfl, ?_⟩)
      · rw [Dict.get?_set, if_pos rfl]
      · rw [same] at inside
        omega
    · rcases truthful.newest id version inside with
        first | returned | ⟨busy, other, made, isOther, target, isMade, below⟩
      · exact .inl first
      · exact .inr (.inl returned)
      · refine .inr (.inr ⟨busy, other, made, ?_, target, isMade, below⟩)
        rw [Dict.get?_set, if_neg]
        · exact isOther
        · rintro rfl
          rw [isEdit] at isOther
          cases isOther
          rw [isMade] at unmade
          exact (unmade rfl).elim

theorem fail (truthful : state.Truthful lru texts)
    (noEffect : ∀ edit version, state.service.edits.get? call = some edit →
      edit.version = some version → version = 0) :
    OverflowState.Truthful lru texts { state with
      service := { state.service with
        edits := state.service.edits.erase call }
      calls := state.calls.erase call } := by
  apply truthful.grows (truthful.fresh.failEdit call) truthful.known
    (.refl _) (fun _ _ stored => stored) rfl
  intro id version inside
  rcases truthful.newest id version inside with
    first | returned | ⟨busy, edit, made, isEdit, target, isMade, below⟩
  · exact .inl first
  · exact .inr (.inl returned)
  · by_cases same : busy = call
    · subst same
      have zero := noEffect edit made isEdit isMade
      exact .inl (by omega)
    · refine .inr (.inr ⟨busy, edit, made, ?_, target, isMade, below⟩)
      rw [Dict.get?_erase, if_neg same]
      exact isEdit

/-- What a call wrote is what the channel counts as returned. -/
theorem completed_write {channel : Channel} {written : OverflowState σ τ}
    (completed : ∀ id, channel.completed id =
      (written.written.get? id).map Prod.fst) (id : Int) (version : Nat)
    (text : String) (other : Int) :
    (channel.complete id version).completed other =
      ((written.write id version text).written.get? other).map Prod.fst := by
  have before := completed id
  by_cases same : other = id
  · subst same
    simp only [Channel.complete, Function.update_self]
    unfold OverflowState.write
    cases last : written.written.get? other with
    | none =>
        rw [last] at before
        simp [before, Dict.get?_set]
    | some entry =>
        rw [last] at before
        simp only [before, Option.any_some, decide_eq_true_eq,
          Option.map_some, Option.getD_some]
        split
        · rename_i newer
          rw [last, Option.map_some, Nat.max_eq_left (Nat.le_of_lt newer)]
        · rename_i older
          rw [Dict.get?_set, if_pos rfl, Option.map_some,
            Nat.max_eq_right (Nat.le_of_not_lt older)]
  · simp only [Channel.complete, Function.update_of_ne same]
    unfold OverflowState.write
    split
    · exact completed other
    · rw [Dict.get?_set, if_neg same]
      exact completed other

/-- The map and the calls do not matter to a reader, and neither does a
cleared cache. -/
theorem startDeleting (truthful : state.Truthful lru texts)
    (lawful : lru.Lawful capacity) (call : Nat) (request : TextCall)
    (superseded : Int) :
    (startDeleting lru state call request superseded).Truthful lru texts := by
  have cleared : ∀ (documents : List Int) {service : TelegramState σ},
      service.FreshFrom 0 (fun _ => True) lru →
        TelegramState.FreshFrom 0 (fun _ => True) lru { service with
          cache := documents.foldl (fun cache document =>
            lru.set document none cache) service.cache } := by
    intro documents
    induction documents with
    | nil => exact fun fresh => fresh
    | cons document documents ih =>
        intro service fresh
        exact ih (fresh.clear lawful document)
  unfold OverflowState.startDeleting
  dsimp only
  split
  · exact { truthful with }
  · exact { truthful with fresh := cleared _ truthful.fresh }

theorem finishCall (truthful : state.Truthful lru texts)
    (lawful : lru.Lawful capacity) (call : Nat) (request : TextCall)
    (id : Int) (overflow : Option Int) :
    (finishCall lru state call request id overflow).Truthful lru texts := by
  obtain ⟨messageId, text, superseded, stage⟩ := request
  unfold OverflowState.finishCall
  cases messageId with
  | none => exact { truthful with }
  | some _ =>
      cases superseded with
      | none => exact { truthful with }
      | some document =>
          dsimp only
          by_cases same : overflow = some document
          · rw [if_pos same]
            exact { truthful with }
          · rw [if_neg same]
            refine Truthful.startDeleting ?_ lawful call _ document
            exact { truthful with }

/-- The version that a call has made means what the call wrote. -/
theorem sent_means (coherent : state.Coherent lru) {overflow : Option Int}
    {edit : EditCall} {version : Nat}
    (known : state.calls.get? call = some request)
    (stage : request.stage = .sending overflow)
    (isEdit : state.service.edits.get? call = some edit)
    (made : edit.version = some version) :
    ∃ message, (state.service.channel.versions edit.messageId)[version]? =
      some message ∧ message.document = none ∧
        meaning state.documents message = some request.text := by
  have sound := coherent.ledger.sound call request known
  obtain ⟨other, sends⟩ := sound.sends edit isEdit
  cases stage.symm.trans sends.stage
  obtain ⟨message, listed, text⟩ := sends.made version made
  refine ⟨message, listed,
    sends.editable.2 message (List.mem_of_getElem? listed), ?_⟩
  cases overflow with
  | none =>
      have same : message.text = request.text := text.trans sends.text
      rw [meaning, markerOf_plain (same ▸ sound.plain), same]
  | some document =>
      obtain ⟨found, isFound, marks⟩ :=
        coherent.ledger.made_points known stage isEdit made
      cases listed.symm.trans isFound
      rw [meaning, marks]
      exact sound.stored document stage

/-- A version that an answered edit has made is not newer than the last one
that returned. -/
theorem newest_endEdit (truthful : state.Truthful lru texts)
    {edit : EditCall} {version : Nat}
    (isEdit : state.service.edits.get? call = some edit)
    (made : edit.version = some version) (id : Int) (place : Nat)
    (inside : place < (state.service.channel.versions id).length) :
    place = 0 ∨
      (∃ last, (state.service.channel.complete edit.messageId
        version).completed id = some last ∧ place ≤ last) ∨
      ∃ busy other made, (state.service.edits.erase call).get? busy =
        some other ∧ other.messageId = id ∧ other.version = some made ∧
          place ≤ made := by
  have grows := state.service.channel.complete_grows edit.messageId version
  rcases truthful.newest id place inside with
    first | ⟨last, returned, below⟩ |
      ⟨busy, other, later, isOther, target, isMade, below⟩
  · exact .inl first
  · obtain ⟨newer, isNewer, order⟩ := grows.completed id last returned
    exact .inr (.inl ⟨newer, isNewer, Nat.le_trans below order⟩)
  · by_cases same : busy = call
    · subst same
      cases isEdit.symm.trans isOther
      cases made.symm.trans isMade
      subst target
      refine .inr (.inl ⟨max ((state.service.channel.completed
        edit.messageId).getD 0) version, ?_, ?_⟩)
      · simp only [Channel.complete, Function.update_self]
      · exact Nat.le_trans below (Nat.le_max_right _ _)
    · refine .inr (.inr ⟨busy, other, later, ?_, target, isMade, below⟩)
      rw [Dict.get?_erase, if_neg same]
      exact isOther

/-- The request of a call is answered: its text is the last one now, unless a
later version was answered first. -/
theorem answered (truthful : state.Truthful lru texts)
    (coherent : state.Coherent lru) (lawful : lru.Lawful capacity)
    {overflow : Option Int} {edit : EditCall} {version : Nat}
    (known : state.calls.get? call = some request)
    (stage : request.stage = .sending overflow)
    (isEdit : state.service.edits.get? call = some edit)
    (made : edit.version = some version)
    (taken : serve lru bots state (.endEdit call) = some next) :
    (OverflowState.finishCall lru
      (next.write edit.messageId version request.text) call request
      edit.messageId overflow).Truthful lru texts := by
  obtain ⟨service, stepped, rfl⟩ := Option.map_eq_some_iff.mp taken
  simp only [TelegramState.step, isEdit, made, Option.bind_some,
    Option.map_some, Option.some.injEq] at stepped
  subst stepped
  obtain ⟨message, listed, plain, means⟩ :=
    sent_means coherent known stage isEdit made
  have grows := state.service.channel.complete_grows edit.messageId version
  apply Truthful.finishCall _ lawful
  have wrote : ∀ (id : Int) (later : Nat) (shown : String),
      (state.write edit.messageId version request.text).written.get? id =
        some (later, shown) →
          ∃ message, (state.service.channel.versions id)[later]? =
            some message ∧ message.document = none ∧
              meaning state.documents message = some shown := by
    intro id later shown found
    unfold OverflowState.write at found
    split at found
    · exact truthful.written id later shown found
    · rw [Dict.get?_set] at found
      split at found
      · rename_i same
        cases found
        exact ⟨message, same ▸ listed, plain, means⟩
      · exact truthful.written id later shown found
  have newest := truthful.newest_endEdit isEdit made
  have completed := completed_write truthful.completed edit.messageId version
    request.text
  have fresh := truthful.fresh.endEdit isEdit made
  have reads : ∀ answer read, state.reads.get? answer = some read →
      read.Sound (state.service.channel.complete edit.messageId version)
        state.documents := by
    intro answer read found
    exact (truthful.reads answer read found).grows grows
      fun _ _ stored => stored
  unfold OverflowState.write at wrote completed ⊢
  split
  · rename_i newer
    rw [if_pos newer] at wrote
    refine ⟨fresh, truthful.known, ?_, wrote, newest, reads,
      truthful.returned⟩
    intro id
    have same := completed id
    rw [if_pos newer] at same
    exact same
  · rename_i older
    rw [if_neg older] at wrote
    refine ⟨fresh, truthful.known, ?_, wrote, newest, reads,
      truthful.returned⟩
    intro id
    have same := completed id
    rw [if_neg older] at same
    exact same

theorem resumeAnswer (truthful : state.Truthful lru texts)
    (coherent : state.Coherent lru) (textsLawful : texts.Lawful depth)
    {answer : Nat} {answered : Answered}
    (member : answered ∈ state.service.answered) :
    (OverflowState.resume texts answer answered [] answered.messages
      { state with resumed := answer :: state.resumed }).Truthful lru
        texts := by
  have resumed : OverflowState.Coherent lru
      { state with resumed := answer :: state.resumed } :=
    ⟨coherent.ledger, coherent.genuine, coherent.reads⟩
  have kept : OverflowState.Truthful lru texts
      { state with resumed := answer :: state.resumed } := { truthful with }
  refine kept.resume textsLawful resumed rfl (List.nil_append _).symm .nil ?_
  refine List.Forall₂.mp ?_ (coherent.genuine.answered answered member)
    (truthful.fresh.shown answered member)
  intro id message genuine shows
  exact ⟨genuine, shows⟩

/-- The document of a message was downloaded, or could not be. -/
theorem resumeRead (truthful : state.Truthful lru texts)
    (coherent : state.Coherent lru) (textsLawful : texts.Lawful depth)
    {answer : Nat} {read : OverflowRead}
    (found : state.reads.get? answer = some read)
    {message : Option MessageResp}
    (means : read.document ∉ state.deleted →
      ∃ text, state.documents.get? read.document = some text ∧
        message = some ⟨read.message.messageId, text, none⟩) :
    (OverflowState.resume texts answer read.answered
      (read.resolved ++ [message]) read.pending state).Truthful lru
        texts := by
  obtain ⟨marks, before, here, behind, ids, resolved, raw, pending⟩ :=
    truthful.reads answer read found
  have idsNext : read.answered.ids = (before ++ [here]) ++ behind := by
    rw [ids, List.append_assoc]
    rfl
  refine truthful.resume textsLawful coherent rfl idsNext ?_ pending
  refine List.rel_append resolved (.cons (coherent.resolves raw ?_) .nil)
  rintro shown version ⟨⟩ listed current isId plain
  have stays := coherent.ledger.current_stays
    ⟨read.message, listed, marks⟩ current
  obtain ⟨text, stored, same⟩ := means stays
  refine ⟨text, ?_, ?_⟩
  · rw [meaning, marks]
    exact stored
  · rw [same, isId]

theorem step (truthful : state.Truthful lru texts)
    (coherent : state.Coherent lru) (positive : 1 ≤ capacity)
    (lawful : lru.Lawful capacity) (textsLawful : texts.Lawful depth)
    {action : OverflowAction}
    (undisturbed : state.Undisturbed lru capacity action)
    (taken : step lru texts bots state action = some next) :
    next.Truthful lru texts := by
  cases action with
  | lookup action =>
      simp only [OverflowState.step] at taken
      split at taken
      · rename_i isLookup
        apply truthful.lookup positive lawful isLookup _ taken
        rintro rfl
        exact undisturbed
      · cases taken
  | beginSend call text => exact truthful.begin_ coherent lawful taken
  | beginEdit call id text =>
      simp only [OverflowState.step] at taken
      split at taken
      · exact truthful.begin_ coherent lawful taken
      · cases taken
  | uploaded call message =>
      obtain ⟨request, known, rest⟩ := Option.bind_eq_some_iff.mp taken
      split at rest
      · rename_i stage
        split at rest
        · rename_i new
          exact truthful.uploaded coherent lawful textsLawful known stage
            new.2.2 rest
        · cases rest
      · cases rest
  | applySend call id =>
      obtain ⟨request, known, rest⟩ := Option.bind_eq_some_iff.mp taken
      split at rest
      · split at rest
        · rename_i new
          cases rest
          exact truthful.applySend new.1 new.2.2
        · cases rest
      · cases rest
  | applyEdit call => exact truthful.applyEdit positive lawful taken
  | answered call =>
      obtain ⟨request, known, rest⟩ := Option.bind_eq_some_iff.mp taken
      split at rest
      · rename_i overflow stage
        obtain ⟨edit, isEdit, rest⟩ := Option.bind_eq_some_iff.mp rest
        obtain ⟨version, made, rest⟩ := Option.bind_eq_some_iff.mp rest
        obtain ⟨served, ended, rfl⟩ := Option.map_eq_some_iff.mp rest
        exact truthful.answered coherent lawful known stage isEdit made ended
      · cases rest
  | fail call =>
      obtain ⟨request, known, rest⟩ := Option.bind_eq_some_iff.mp taken
      split at rest
      · cases rest
      · cases rest
        exact truthful.fail undisturbed
  | deleted call =>
      obtain ⟨request, known, rest⟩ := Option.bind_eq_some_iff.mp taken
      split at rest
      · cases rest
        exact { truthful with }
      · cases rest
  | endDelete call =>
      obtain ⟨request, known, rest⟩ := Option.bind_eq_some_iff.mp taken
      split at rest
      · cases rest
        exact { truthful with }
      · cases rest
  | resume answer =>
      obtain ⟨answered, found, rest⟩ := Option.bind_eq_some_iff.mp taken
      split at rest
      · cases rest
      · cases rest
        exact truthful.resumeAnswer coherent textsLawful
          (List.mem_of_getElem? found)
  | downloaded answer =>
      obtain ⟨read, found, rest⟩ := Option.bind_eq_some_iff.mp taken
      split at rest
      · cases rest
      · obtain ⟨text, stored, rfl⟩ := Option.map_eq_some_iff.mp rest
        have remembered : OverflowState.Coherent lru { state with
            overflowText :=
              texts.set read.document (some text) state.overflowText } :=
          ⟨coherent.ledger, coherent.genuine, coherent.reads⟩
        have kept : OverflowState.Truthful lru texts { state with
            overflowText :=
              texts.set read.document (some text) state.overflowText } := by
          refine { truthful with known := ?_ }
          intro document other inMemory
          rcases knownText_set textsLawful inMemory with ⟨rfl, rfl⟩ | before
          · exact stored
          · exact truthful.known document other before
        exact kept.resumeRead remembered textsLawful found
          fun _ => ⟨text, stored, rfl⟩
  | downloadFails answer =>
      obtain ⟨read, found, rfl⟩ := Option.map_eq_some_iff.mp taken
      exact truthful.resumeRead coherent textsLawful found
        fun stays => (stays (undisturbed read found)).elim

/-- With no call in progress every message is as the last call left it. -/
theorem quiet (truthful : state.Truthful lru texts)
    (coherent : state.Coherent lru) (idle : state.calls = .empty) {id : Int}
    {version : Nat} {text : String}
    (wrote : state.written.get? id = some (version, text)) :
    state.service.channel.completed id = some version ∧
      state.service.channel.newest id = some version := by
  have completed : state.service.channel.completed id = some version := by
    rw [truthful.completed, wrote]
    rfl
  refine ⟨completed, ?_⟩
  obtain ⟨message, listed, _⟩ := truthful.written id version text wrote
  have inside := (List.getElem?_eq_some_iff.mp listed).1
  have isLast : version + 1 = (state.service.channel.versions id).length := by
    rcases truthful.newest id
        ((state.service.channel.versions id).length - 1) (by omega) with
      first | ⟨last, returned, below⟩ | ⟨call, edit, _, isEdit, _⟩
    · omega
    · rw [completed] at returned
      cases returned
      omega
    · obtain ⟨request, known⟩ := coherent.ledger.known call edit isEdit
      rw [idle] at known
      cases known
  have current : (state.service.channel.versions id).getLast? =
      some message := by
    rw [List.getLast?_eq_getElem?, ← isLast]
    exact listed
  rw [Channel.newest, Channel.read, current, Option.map_some, Option.map_some,
    ← isLast]
  rfl

end Truthful

theorem Started.truthful (started : state.Started lru texts) :
    state.Truthful lru texts := by
  refine ⟨⟨?_, fun _ _ _ _ _ => trivial, ?_, fun _ _ _ => Nat.zero_le _, ?_,
    ?_, ?_, ?_⟩, ?_, started.completed, ?_, ?_, ?_, ?_⟩
  · intro id version message listed
    exact started.named id message (List.mem_of_getElem? listed)
  · intro call edit found
    rw [started.edits] at found
    cases found
  · intro id message cached
    rw [cachedMessage, started.cache] at cached
    cases cached
  · intro request member
    rw [started.requests] at member
    cases member
  · intro batch isBatch
    rw [started.batch] at isBatch
    cases isBatch
  · intro answered member
    rw [started.unanswered] at member
    cases member
  · intro document text inMemory
    rw [knownText, started.overflowText] at inMemory
    cases inMemory
  · intro id version text wrote
    obtain ⟨rfl, message, alone, plain, means⟩ :=
      started.written id version text wrote
    exact ⟨message, by rw [alone]; rfl, plain, means⟩
  · intro id version inside
    have short := started.sent id
    exact .inl (by omega)
  · intro answer read found
    rw [started.reads] at found
    cases found
  · intro answer member
    rw [started.returned] at member
    cases member

end OverflowState

/-- Documents that are pointed to stay in every run.  In a run whose lookups
no edit disturbs, every lookup returns what was written last, where nothing
changed the message meanwhile; nothing has when no call is in progress. -/
theorem overflowed_texts_stay {σ τ : Type}
    (lru : LRU σ Int (Option MessageResp)) (texts : LRU τ Int (Option String))
    (capacity depth bots : Nat) (positive : 1 ≤ capacity)
    (lawful : lru.Lawful capacity) (textsLawful : texts.Lawful depth)
    (start : OverflowState σ τ) (started : start.Started lru texts) :
    (∀ state, Reachable (OverflowState.step lru texts bots) start state →
      state.DocumentsStay) ∧
    ∀ state, ReachableWithin (OverflowState.step lru texts bots)
        (OverflowState.Undisturbed lru capacity) start state →
      (∀ answer ∈ state.returned, answer.ShowsWritten) ∧
      (state.calls = .empty → ∀ id version text,
        state.written.get? id = some (version, text) →
          state.service.channel.completed id = some version ∧
            state.service.channel.newest id = some version) := by
  constructor
  · intro state reachable
    have coherent : state.Coherent lru := reachable.invariant
      (fun _ _ _ coherent taken => coherent.step positive lawful taken)
      started.coherent
    exact coherent.documentsStay
  · intro state reachable
    have both : state.Coherent lru ∧ state.Truthful lru texts := by
      apply reachable.invariant _ _
      · intro before action after known undisturbed taken
        exact ⟨known.1.step positive lawful taken,
          known.2.step known.1 positive lawful textsLawful undisturbed taken⟩
      · exact ⟨started.coherent, started.truthful⟩
    obtain ⟨coherent, truthful⟩ := both
    exact ⟨truthful.returned, fun idle _ _ _ wrote =>
      truthful.quiet coherent idle wrote⟩

/-- A channel with one message that was sent earlier, and the document 7. -/
def openedStore (text : String) (meant : String) :
    OverflowState (Recency.Bounded Int (Option MessageResp) 2)
      (Recency.Bounded Int (Option String) 2) :=
  { service :=
      { channel :=
          { versions := fun id =>
              if id = 1 then [⟨1, text, none⟩]
              else if id = 7 then [⟨7, "", some ⟨4, 70, 700, [], none⟩⟩]
              else []
            completed := fun id => if id = 1 then some 0 else none }
        cache := .empty
        requests := []
        batch := none
        edits := .empty
        answered := [] }
    documents := Dict.empty.set 7 "long"
    deleted := []
    calls := .empty
    overflowOf := .empty
    overflowText := .empty
    reads := .empty
    resumed := []
    written := Dict.empty.set 1 (0, meant)
    returned := [] }

theorem openedStore_started {text meant : String}
    (marks : markerOf ⟨1, text, none⟩ = none ∧ text = meant ∨
      markerOf ⟨1, text, none⟩ = some 7 ∧ meant = "long") :
    (openedStore text meant).Started (boundedLRU Int (Option MessageResp) 2)
      (boundedLRU Int (Option String) 2) := by
  have versions : ∀ id, ∀ message ∈ (openedStore text
      meant).service.channel.versions id, id = 1 ∧ message = ⟨1, text, none⟩ ∨
        id = 7 ∧ message = ⟨7, "", some ⟨4, 70, 700, [], none⟩⟩ := by
    intro id message member
    dsimp only [openedStore] at member
    split at member
    · exact .inl ⟨‹_›, List.mem_singleton.mp member⟩
    · split at member
      · exact .inr ⟨‹_›, List.mem_singleton.mp member⟩
      · cases member
  have pointed : ∀ id, ∀ message ∈ (openedStore text
      meant).service.channel.versions id, ∀ document,
        markerOf message = some document → id = 1 ∧ document = 7 := by
    intro id message member document isMarked
    rcases versions id message member with ⟨first, rfl⟩ | ⟨_, rfl⟩
    · rcases marks with ⟨bare, _⟩ | ⟨linked, _⟩
      · cases bare.symm.trans isMarked
      · cases linked.symm.trans isMarked
        exact ⟨first, rfl⟩
    · cases isMarked
  refine ⟨?_, ?_, ?_, ?_, ?_, ?_, ?_, rfl, rfl, rfl, rfl, rfl, rfl, rfl, rfl,
    rfl, rfl, rfl⟩
  · intro id
    dsimp only [openedStore]
    split
    · exact Nat.le_refl 1
    · split
      · exact Nat.le_refl 1
      · exact Nat.zero_le 1
  · intro id message member
    rcases versions id message member with ⟨rfl, rfl⟩ | ⟨rfl, rfl⟩
    · rfl
    · rfl
  · intro document other found
    dsimp only [openedStore] at found
    rw [Dict.get?_set] at found
    split at found
    · rename_i same
      subst same
      exact ⟨by decide, _, rfl, rfl⟩
    · cases found
  · intro id message member document isMarked
    rw [(pointed id message member document isMarked).2]
    rfl
  · intro id message member other another memberToo document isMarked
      isMarkedToo
    rw [(pointed id message member document isMarked).1,
      (pointed other another memberToo document isMarkedToo).1]
  · intro id
    dsimp only [openedStore]
    rw [Dict.get?_set]
    split
    · rfl
    · rfl
  · intro id version other wrote
    dsimp only [openedStore] at wrote
    rw [Dict.get?_set] at wrote
    split at wrote
    · rename_i same
      subst same
      cases wrote
      refine ⟨rfl, _, rfl, rfl, ?_⟩
      rcases marks with ⟨bare, same⟩ | ⟨linked, same⟩
      · rw [OverflowState.meaning, bare, same]
      · rw [OverflowState.meaning, linked, same]
        rfl
    · cases wrote

/-- A lookup that downloads the document its message points to. -/
def readLong : List OverflowAction :=
  [.lookup (.get [1]), .lookup (.flush [1]), .lookup (.read 1),
    .lookup .store, .resume 0, .downloaded 0]

theorem readLong_guarded :
    Guarded (OverflowState.step (boundedLRU Int (Option MessageResp) 2)
      (boundedLRU Int (Option String) 2) 1)
      (OverflowState.Undisturbed (boundedLRU Int (Option MessageResp) 2) 2)
      (openedStore "TGDCFS_OVERFLOW:7" "long") readLong := by
  refine ⟨trivial, ?_⟩
  rintro waiting ⟨⟩
  refine ⟨trivial, ?_⟩
  rintro flushed ⟨⟩
  refine ⟨trivial, ?_⟩
  rintro read ⟨⟩
  refine ⟨?_, ?_⟩
  · rintro batch ⟨⟩
    constructor
    · intro id version message read
      have made : ((Dict.empty : Dict Int (Option (Nat × MessageResp))).set 1
          (some (0, ⟨1, "TGDCFS_OVERFLOW:7", none⟩))).get? id =
            some (some (version, message)) := read
      rw [Dict.get?_set] at made
      split at made
      · rename_i first
        subst first
        cases made
        refine ⟨?_, ?_⟩
        · rintro edit ⟨⟩
          exact Nat.le_refl 0
        · rintro call edit ⟨⟩
      · cases made
    · intro request member id inside _
      have isRequest : request ∈ [BrokerRequest.mk [1] _] := member
      rw [List.mem_singleton.mp isRequest] at inside
      cases List.mem_singleton.mp inside
      constructor
      · exact .inl List.mem_cons_self
      · exact List.mem_cons_self
  rintro stored ⟨⟩
  refine ⟨trivial, ?_⟩
  rintro resumed ⟨⟩
  exact ⟨trivial, fun _ _ => trivial⟩

theorem readLong_stays :
    ∃ state, run (OverflowState.step (boundedLRU Int (Option MessageResp) 2)
        (boundedLRU Int (Option String) 2) 1)
        (openedStore "TGDCFS_OVERFLOW:7" "long") readLong = some state ∧
      state.returned.map OverflowAnswer.messages =
        [[some ⟨1, "long", none⟩]] ∧
      state.DocumentsStay ∧
      ∀ answer ∈ state.returned, answer.ShowsWritten := by
  have stays := overflowed_texts_stay (boundedLRU Int (Option MessageResp) 2)
    (boundedLRU Int (Option String) 2) 2 2 1 (by decide)
    (boundedLRU_lawful _ _ 2) (boundedLRU_lawful _ _ 2)
    (openedStore "TGDCFS_OVERFLOW:7" "long")
    (openedStore_started (.inr ⟨by decide, rfl⟩))
  exact ⟨_, rfl, rfl, stays.1 _ ⟨readLong, rfl⟩,
    (stays.2 _ ⟨_, readLong_guarded, rfl⟩).1⟩

/-- The service answers a fetch, an edit begins and returns, the answer is
stored.  Then no call is in progress, and a lookup returns the old text. -/
theorem stale_text_returned :
    ∃ start quiet state, start.Started
        (boundedLRU Int (Option MessageResp) 2)
        (boundedLRU Int (Option String) 2) ∧
      Reachable (OverflowState.step (boundedLRU Int (Option MessageResp) 2)
        (boundedLRU Int (Option String) 2) 1) start quiet ∧
      quiet.calls = .empty ∧
      run (OverflowState.step (boundedLRU Int (Option MessageResp) 2)
        (boundedLRU Int (Option String) 2) 1) quiet
        [.lookup (.get [1]), .resume 1] = some state ∧
      ∃ answer ∈ state.returned, ¬answer.ShowsWritten := by
  refine ⟨openedStore "old" "old", _, _,
    openedStore_started (.inl ⟨by decide, rfl⟩),
    ⟨[.lookup (.get [1]), .lookup (.flush [1]), .lookup (.read 1),
      .beginEdit 0 1 "new", .applyEdit 0, .answered 0, .lookup .store], rfl⟩,
    rfl, rfl, _, List.mem_singleton_self _, ?_⟩
  intro shows
  have same := (List.forall₂_cons.mp shows).1 1 "new" rfl rfl rfl
  revert same
  decide

end Tgdcfs
