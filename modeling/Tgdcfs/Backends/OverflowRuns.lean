import Tgdcfs.Backends.OverflowLedger

/-!
# Runs of the store keep its ledger

Whatever the calls do and in whichever order, a document that the current text
of a message points to stays.
-/

namespace Tgdcfs

open Lib

/-- The messages that are left were versions of the channel. -/
structure OverflowRead.Genuine (read : OverflowRead) (channel : Channel) :
    Prop where
  marks : markerOf read.message = some read.document
  message : ∃ version : Nat,
    (channel.versions read.message.messageId)[version]? = some read.message
  pending : ∀ message, some message ∈ read.pending →
    ∃ version : Nat,
      (channel.versions message.messageId)[version]? = some message

theorem OverflowRead.Genuine.grows {read : OverflowRead}
    {channel next : Channel} (genuine : read.Genuine channel)
    (grows : channel.Grows next) : read.Genuine next := by
  refine ⟨genuine.marks, ?_, ?_⟩
  · obtain ⟨version, listed⟩ := genuine.message
    exact ⟨version, grows.versions _ _ _ listed⟩
  · intro message member
    obtain ⟨version, listed⟩ := genuine.pending message member
    exact ⟨version, grows.versions _ _ _ listed⟩

theorem TelegramState.Genuine.clear {σ : Type}
    {lru : LRU σ Int (Option MessageResp)} {capacity : Nat}
    {state : TelegramState σ} (genuine : state.Genuine lru)
    (lawful : lru.Lawful capacity) (id : Int) :
    TelegramState.Genuine lru
      { state with cache := lru.set id none state.cache } := by
  apply genuine.withCache
  intro other message cached
  rcases cachedMessage_set lawful cached with ⟨_, absurd⟩ | ⟨_, here⟩
  · cases absurd
  · exact here

namespace OverflowState

variable {σ τ : Type} {lru : LRU σ Int (Option MessageResp)}
  {texts : LRU τ Int (Option String)} {capacity bots : Nat}
  {state next : OverflowState σ τ}

structure Coherent (lru : LRU σ Int (Option MessageResp))
    (state : OverflowState σ τ) : Prop where
  ledger : Ledger state.service.channel state.service.edits state.documents
    state.calls state.overflowOf state.deleted
  genuine : state.service.Genuine lru
  reads : ∀ answer read, state.reads.get? answer = some read →
    read.Genuine state.service.channel

namespace Coherent

theorem documentsStay (coherent : state.Coherent lru) :
    state.DocumentsStay := by
  intro id version message document read marks
  obtain ⟨listed, current⟩ := Channel.read_spec read
  exact coherent.ledger.current_stays ⟨message, listed, marks⟩ current

theorem lookup (coherent : state.Coherent lru) (positive : 1 ≤ capacity)
    (lawful : lru.Lawful capacity) {action : TelegramAction}
    (isLookup : action.isLookup)
    (taken : serve lru bots state action = some next) :
    next.Coherent lru := by
  obtain ⟨service, stepped, rfl⟩ := Option.map_eq_some_iff.mp taken
  obtain ⟨channel, edits⟩ := TelegramState.lookup_keeps isLookup stepped
  refine ⟨?_, coherent.genuine.lookup positive lawful isLookup stepped, ?_⟩
  · dsimp only
    rw [channel, edits]
    exact coherent.ledger
  · dsimp only
    rw [channel]
    exact coherent.reads

theorem remember (coherent : state.Coherent lru) {message : MessageResp}
    {version : Nat} (listed :
      (state.service.channel.versions message.messageId)[version]? =
        some message) {document : Int}
    (marks : markerOf message = some document) (overflowText : τ) :
    OverflowState.Coherent lru { state with
      overflowOf := state.overflowOf.set message.messageId document
      overflowText := overflowText } := by
  refine ⟨{ coherent.ledger with mapped := ?_ }, coherent.genuine,
    coherent.reads⟩
  intro id other found
  rw [Dict.get?_set] at found
  split at found
  · rename_i same
    cases found
    exact ⟨version, message, same ▸ listed, marks⟩
  · exact coherent.ledger.mapped id other found

theorem resume {answer : Nat} {answered : Answered}
    {resolved pending : List (Option MessageResp)}
    (coherent : state.Coherent lru)
    (genuine : ∀ message, some message ∈ pending → ∃ version : Nat,
      (state.service.channel.versions message.messageId)[version]? =
        some message) :
    (resume texts answer answered resolved pending state).Coherent lru := by
  induction pending generalizing resolved state with
  | nil =>
      refine ⟨coherent.ledger, coherent.genuine, ?_⟩
      intro other read found
      exact coherent.reads other read (Dict.get?_of_erase found)
  | cons first pending ih =>
      have later : ∀ message, some message ∈ pending → ∃ version : Nat,
          (state.service.channel.versions message.messageId)[version]? =
            some message :=
        fun message member => genuine message (List.mem_cons_of_mem _ member)
      cases first with
      | none => exact ih coherent later
      | some message =>
          obtain ⟨version, listed⟩ := genuine message List.mem_cons_self
          simp only [OverflowState.resume]
          split
          · exact ih coherent later
          · rename_i document marks
            have remembered : OverflowState.Coherent lru { state with
                overflowOf :=
                  state.overflowOf.set message.messageId document
                overflowText := (MessageCache.get texts document
                  state.overflowText).1 } :=
              coherent.remember listed marks _
            split
            · exact ih remembered later
            · refine ⟨remembered.ledger, remembered.genuine, ?_⟩
              intro other read found
              dsimp only at found
              rw [Dict.get?_set] at found
              split at found
              · cases found
                exact ⟨marks, ⟨version, listed⟩, later⟩
              · exact coherent.reads other read found

variable {call : Nat} {request : TextCall} {overflow : Option Int}

theorem startSending (coherent : state.Coherent lru)
    (lawful : lru.Lawful capacity) (plain : isMarker request.text = false)
    (editable : ∀ id, request.messageId = some id →
      state.service.channel.HoldsText id)
    (superseded : ∀ document, request.superseded = some document →
      ∃ id version, request.messageId = some id ∧
        state.service.channel.Points id version document)
    (unedited : state.service.edits.get? call = none)
    (stored : ∀ document, overflow = some document →
      state.documents.get? document = some request.text)
    (carries : ∀ document, overflow = some document →
      (∀ id version,
        ¬state.service.channel.Points id version document) ∧
        ∀ other another, state.calls.get? other = some another →
          another.stage ≠ .sending (some document))
    (taken : startSending lru bots state call request overflow =
      some next) : next.Coherent lru := by
  obtain ⟨messageId, text, before, stage⟩ := request
  dsimp only at plain editable superseded stored
  have older : ∀ (edit : Option EditCall),
      (∀ current, edit = some current → current.version = none) →
      ∀ document, before = some document →
        ∃ id version, messageId = some id ∧
          state.service.channel.Points id version document ∧
          ∀ current made, edit = some current →
            current.version = some made → version < made := by
    intro edit unmade document isSuperseded
    obtain ⟨id, version, isTarget, points⟩ :=
      superseded document isSuperseded
    refine ⟨id, version, isTarget, points, ?_⟩
    intro current made same isMade
    rw [unmade current same] at isMade
    cases isMade
  have starts : ∀ document, TextStage.sending overflow =
      .sending (some document) → overflow = some document := by
    intro document same
    cases same
    rfl
  cases messageId with
  | none =>
      cases taken
      refine ⟨coherent.ledger.put (fun _ _ => rfl) ?_ ?_, coherent.genuine,
        coherent.reads⟩
      · refine ⟨plain, editable, fun document same =>
          stored document (starts document same), ?_, ?_, ?_⟩
        · intro current same
          rw [unedited] at same
          cases same
        · apply older
          intro current same
          rw [unedited] at same
          cases same
        · intro gone same
          cases same
      · exact fun document same => carries document (starts document same)
  | some id =>
      obtain ⟨service, stepped, rfl⟩ := Option.map_eq_some_iff.mp taken
      simp only [TelegramState.step] at stepped
      split at stepped
      · cases stepped
      · cases stepped
        refine ⟨coherent.ledger.put ?_ ?_ ?_,
          { coherent.genuine.clear lawful id with }, coherent.reads⟩
        · intro other different
          rw [Dict.get?_set, if_neg different]
        · rw [Dict.get?_set, if_pos rfl]
          refine ⟨plain, editable, fun document same =>
            stored document (starts document same), ?_, ?_, ?_⟩
          · intro current same
            cases same
            refine ⟨overflow, rfl, ?_, ?_, editable id rfl, ?_⟩
            · cases overflow with
              | none => rfl
              | some document => rfl
            · intro other isTarget
              exact Option.some.inj isTarget
            · intro version made
              cases made
          · apply older
            intro current same
            cases same
            rfl
          · intro gone same
            cases same
        · exact fun document same => carries document (starts document same)

theorem begin_ (coherent : state.Coherent lru) (lawful : lru.Lawful capacity)
    (stage : request.stage = .uploading)
    (editable : ∀ id, request.messageId = some id →
      state.service.channel.HoldsText id)
    (superseded : ∀ document, request.superseded = some document →
      ∃ id version, request.messageId = some id ∧
        state.service.channel.Points id version document)
    (taken : begin_ lru bots state call request = some next) :
    next.Coherent lru := by
  unfold OverflowState.begin_ at taken
  split at taken
  · cases taken
  · rename_i free
    rw [not_or] at free
    have plain : isMarker request.text = false :=
      Bool.not_eq_true _ ▸ free.2
    have unedited : state.service.edits.get? call = none := by
      cases found : state.service.edits.get? call with
      | none => rfl
      | some edit =>
          obtain ⟨another, isCall⟩ := coherent.ledger.known call edit found
          refine (free.1 ?_).elim
          rw [Dict.contains, isCall]
          rfl
    split at taken
    · cases taken
      refine ⟨coherent.ledger.put (fun _ _ => rfl) ?_ ?_, coherent.genuine,
        coherent.reads⟩
      · refine ⟨plain, editable, ?_, ?_, ?_, ?_⟩
        · intro document same
          rw [stage] at same
          cases same
        · intro current same
          rw [unedited] at same
          cases same
        · intro document isSuperseded
          obtain ⟨id, version, isTarget, points⟩ :=
            superseded document isSuperseded
          refine ⟨id, version, isTarget, points, ?_⟩
          intro current made same
          rw [unedited] at same
          cases same
        · intro gone same
          rw [stage] at same
          cases same
      · intro document same
        rw [stage] at same
        cases same
    · apply coherent.startSending lawful plain editable superseded unedited _ _
        taken
      · intro document absurd
        cases absurd
      · intro document absurd
        cases absurd

/-- An edit begins with what the map holds for its message. -/
theorem beginEdit (coherent : state.Coherent lru)
    (lawful : lru.Lawful capacity) {id : Int} {text : String}
    (isText : (state.service.channel.read id).any fun found =>
      found.2.document.isNone)
    (taken : OverflowState.begin_ lru bots state call
      ⟨some id, text, state.overflowOf.get? id, .uploading⟩ = some next) :
    next.Coherent lru := by
  have holds : state.service.channel.HoldsText id := by
    cases read : state.service.channel.read id with
    | none =>
        rw [read] at isText
        cases isText
    | some found =>
        rw [read] at isText
        obtain ⟨listed, _⟩ := Channel.read_spec read
        exact coherent.ledger.holdsText (List.mem_of_getElem? listed)
          (Option.isNone_iff_eq_none.mp isText)
  apply coherent.begin_ lawful rfl _ _ taken
  · rintro other ⟨⟩
    exact holds
  · intro document mapped
    obtain ⟨version, points⟩ := coherent.ledger.mapped id document mapped
    exact ⟨id, version, rfl, points⟩

theorem uploaded (coherent : state.Coherent lru) (lawful : lru.Lawful capacity)
    {message : MessageResp} (known : state.calls.get? call = some request)
    (stage : request.stage = .uploading) (attached : message.document.isSome)
    (valid : IsMessageId message.messageId)
    (unused : state.service.channel.versions message.messageId = [])
    (taken : OverflowState.startSending lru bots
      { state with
        service := { state.service with
          channel := state.service.channel.append message.messageId message }
        documents := state.documents.set message.messageId request.text
        overflowText := texts.set message.messageId (some request.text)
          state.overflowText }
      call request (some message.messageId) = some next) :
    next.Coherent lru := by
  have grows := state.service.channel.append_grows message.messageId message
  have ledger := coherent.ledger.upload attached valid unused request.text
  have before := coherent.ledger.sound call request known
  have sound := ledger.sound call request known
  have grown : OverflowState.Coherent lru { state with
      service := { state.service with
        channel := state.service.channel.append message.messageId message }
      documents := state.documents.set message.messageId request.text
      overflowText := texts.set message.messageId (some request.text)
        state.overflowText } := by
    refine ⟨ledger, coherent.genuine.grows grows ?_ _, ?_⟩
    · intro id version other listed
      rcases Channel.append_version listed with old | ⟨rfl, _, rfl⟩
      · exact coherent.genuine.named id version other old
      · rfl
    · intro answer read found
      exact (coherent.reads answer read found).grows grows
  have unedited : state.service.edits.get? call = none := by
    cases found : state.service.edits.get? call with
    | none => rfl
    | some edit =>
        obtain ⟨overflow, sends⟩ := before.sends edit found
        cases stage.symm.trans sends.stage
  have unknown : state.documents.get? message.messageId = none := by
    cases found : state.documents.get? message.messageId with
    | none => rfl
    | some other =>
        exact ((coherent.ledger.valid _ other found).2.1 unused).elim
  apply grown.startSending lawful sound.plain sound.editable _ unedited _ _
    taken
  · intro document isSuperseded
    obtain ⟨id, version, isTarget, points, _⟩ :=
      sound.superseded document isSuperseded
    exact ⟨id, version, isTarget, points⟩
  · rintro document ⟨⟩
    rw [Dict.get?_set, if_pos rfl]
  · rintro document ⟨⟩
    constructor
    · intro id version points
      rcases Channel.points_append points with old | ⟨_, _, marks⟩
      · obtain ⟨text, stored⟩ := coherent.ledger.stored _ _ _ old
        rw [unknown] at stored
        cases stored
      · rw [markerOf_document attached] at marks
        cases marks
    · intro other another isCall carries
      have stored := (coherent.ledger.sound other another isCall).stored _
        carries
      rw [unknown] at stored
      cases stored

theorem apply (coherent : state.Coherent lru) (message : MessageResp)
    (known : state.calls.get? call = some request)
    (stage : request.stage = .sending overflow)
    (unmade : ∀ edit, state.service.edits.get? call = some edit →
      edit.version = none) (text : message.text = request.sent overflow)
    (plain : message.document = none)
    (editable : state.service.channel.HoldsText message.messageId ∨
      state.service.channel.versions message.messageId = [])
    (target : ∀ id, request.messageId = some id → message.messageId = id) :
    OverflowState.Coherent lru { state with
      service := { state.service with
        channel := state.service.channel.append message.messageId message
        edits := state.service.edits.set call
          ⟨message.messageId, message.text,
            some (state.service.channel.versions
              message.messageId).length⟩ } } := by
  have grows := state.service.channel.append_grows message.messageId message
  refine ⟨coherent.ledger.apply known stage unmade text plain editable target,
    coherent.genuine.grows grows ?_ _, ?_⟩
  · intro id version other listed
    rcases Channel.append_version listed with old | ⟨rfl, _, rfl⟩
    · exact coherent.genuine.named id version other old
    · rfl
  · intro answer read found
    exact (coherent.reads answer read found).grows grows

theorem applySend (coherent : state.Coherent lru) {id : Int}
    (known : state.calls.get? call = some request)
    (stage : request.stage = .sending overflow)
    (isSend : request.messageId = none)
    (unedited : state.service.edits.contains call = false)
    (unused : state.service.channel.versions id = []) :
    OverflowState.Coherent lru { state with
      service := { state.service with
        channel := state.service.channel.append id
          ⟨id, request.sent overflow, none⟩
        edits := state.service.edits.set call
          ⟨id, request.sent overflow, some 0⟩ } } := by
  have unmade : ∀ edit, state.service.edits.get? call = some edit →
      edit.version = none := by
    intro edit found
    rw [Dict.contains, found] at unedited
    cases unedited
  have sent := coherent.apply ⟨id, request.sent overflow, none⟩ known stage
    unmade rfl rfl (.inr unused) fun other absurd => by
      rw [isSend] at absurd
      cases absurd
  dsimp only at sent
  rw [unused] at sent
  exact sent

theorem applyEdit (coherent : state.Coherent lru)
    (taken : serve lru bots state (.applyEdit call) = some next) :
    next.Coherent lru := by
  obtain ⟨service, stepped, rfl⟩ := Option.map_eq_some_iff.mp taken
  obtain ⟨edit, isEdit, rest⟩ := Option.bind_eq_some_iff.mp stepped
  split at rest
  · cases rest
  · rename_i unmade
    obtain ⟨⟨version, message⟩, read, rfl⟩ := Option.map_eq_some_iff.mp rest
    obtain ⟨request, known⟩ := coherent.ledger.known call edit isEdit
    obtain ⟨overflow, sends⟩ :=
      (coherent.ledger.sound call request known).sends edit isEdit
    obtain ⟨listed, current⟩ := Channel.read_spec read
    have named := coherent.genuine.named _ _ _ listed
    have plain := sends.editable.2 message (List.mem_of_getElem? listed)
    have isUnmade : ∀ other, state.service.edits.get? call = some other →
        other.version = none := by
      intro other found
      rw [isEdit] at found
      cases found
      simpa using unmade
    have applied := coherent.apply ⟨edit.messageId, edit.text, none⟩ known
      sends.stage isUnmade sends.text rfl (.inl sends.editable) sends.target
    dsimp only at applied
    rw [← current] at applied
    obtain ⟨messageId, text, document⟩ := message
    dsimp only at named plain
    subst plain
    rw [← named] at applied ⊢
    exact applied

theorem clearAll (lawful : lru.Lawful capacity) (documents : List Int)
    {service : TelegramState σ} (genuine : service.Genuine lru) :
    TelegramState.Genuine lru { service with
      cache := documents.foldl (fun cache document =>
        lru.set document none cache) service.cache } := by
  induction documents generalizing service with
  | nil => exact genuine
  | cons document documents ih => exact ih (genuine.clear lawful document)

/-- A superseded document points nowhere itself, so it is deleted alone. -/
theorem startDeleting (lawful : lru.Lawful capacity) {document : Int}
    (older : state.service.channel.Superseded document)
    (dropped : Ledger state.service.channel state.service.edits
      state.documents (state.calls.erase call) state.overflowOf state.deleted)
    (deleting : ∀ gone,
      (∀ document ∈ gone, state.service.channel.Superseded document) →
        Ledger state.service.channel state.service.edits state.documents
          (state.calls.set call { request with stage := .deleting gone })
          state.overflowOf state.deleted) (genuine : state.service.Genuine lru)
    (reads : ∀ answer read, state.reads.get? answer = some read →
      read.Genuine state.service.channel) :
    (startDeleting lru state call request document).Coherent lru := by
  have alone := dropped.unmapped (dropped.holdsDocument older)
  have only : ∀ gone ∈ ((document :: (state.overflowOf.get?
      document).toList).filter (0 < ·)).dedup,
        state.service.channel.Superseded gone := by
    intro gone member
    rw [alone, List.mem_dedup, List.mem_filter] at member
    cases List.mem_singleton.mp member.1
    exact older
  have mapped : ∀ other found,
      (state.overflowOf.erase document).get? other = some found →
        ∃ version, state.service.channel.Points other version found :=
    fun other found there =>
      dropped.mapped other found (Dict.get?_of_erase there)
  unfold OverflowState.startDeleting
  dsimp only
  split
  · exact ⟨{ dropped with mapped := mapped }, genuine, reads⟩
  · exact ⟨{ deleting _ only with mapped := mapped },
      clearAll lawful _ genuine, reads⟩

/-- A call whose request was answered remembers its document and lets go of
the superseded one. -/
theorem finishCall (lawful : lru.Lawful capacity) {id : Int}
    (dropped : Ledger state.service.channel state.service.edits
      state.documents (state.calls.erase call) state.overflowOf state.deleted)
    (deleting : ∀ gone,
      (∀ document ∈ gone, state.service.channel.Superseded document) →
        Ledger state.service.channel state.service.edits state.documents
          (state.calls.set call { request with stage := .deleting gone })
          state.overflowOf state.deleted)
    (points : ∀ document, overflow = some document →
      ∃ version, state.service.channel.Points id version document)
    (superseded : ∀ document, request.superseded = some document →
      state.service.channel.Superseded document)
    (genuine : state.service.Genuine lru)
    (reads : ∀ answer read, state.reads.get? answer = some read →
      read.Genuine state.service.channel) :
    (finishCall lru state call request id overflow).Coherent lru := by
  have remembers : ∀ (map : Dict Int Int),
      (∀ other document, map.get? other = some document →
        state.overflowOf.get? other = some document ∨
          other = id ∧ overflow = some document) →
      ∀ other document, map.get? other = some document →
        ∃ version, state.service.channel.Points other version document := by
    intro map changed other document found
    rcases changed other document found with before | ⟨rfl, same⟩
    · exact dropped.mapped other document before
    · exact points document same
  have isSet : ∀ document, overflow = some document →
      ∀ other found, (state.overflowOf.set id document).get? other =
        some found →
          state.overflowOf.get? other = some found ∨
            other = id ∧ overflow = some found := by
    intro document same other found there
    rw [Dict.get?_set] at there
    split at there
    · rename_i here
      cases there
      exact .inr ⟨here, same⟩
    · exact .inl there
  unfold OverflowState.finishCall
  split
  · refine ⟨{ dropped with mapped := remembers _ ?_ }, genuine, reads⟩
    intro other found there
    cases overflow with
    | none => exact .inl there
    | some document => exact isSet document rfl other found there
  · have mapped : ∀ map : Dict Int Int,
        (overflow = none → map = state.overflowOf.erase id) →
        (∀ document, overflow = some document →
          map = state.overflowOf.set id document) →
        ∀ other document, map.get? other = some document →
          ∃ version, state.service.channel.Points other version
            document := by
      intro map erased changed
      apply remembers
      intro other found there
      cases overflow with
      | none =>
          rw [erased rfl] at there
          exact .inl (Dict.get?_of_erase there)
      | some document =>
          rw [changed document rfl] at there
          exact isSet document rfl other found there
    dsimp only
    split
    · refine ⟨{ dropped with mapped := mapped _ ?_ ?_ }, genuine, reads⟩
      · simp +contextual
      · simp +contextual
    · rename_i document isSuperseded
      have older := superseded document isSuperseded
      split
      · refine ⟨{ dropped with mapped := mapped _ ?_ ?_ }, genuine, reads⟩
        · simp +contextual
        · simp +contextual
      · refine Coherent.startDeleting lawful ?_ ?_ ?_ ?_ ?_
        · exact older
        · refine { dropped with mapped := mapped _ ?_ ?_ }
          · simp +contextual
          · simp +contextual
        · intro gone all
          refine { deleting gone all with mapped := mapped _ ?_ ?_ }
          · simp +contextual
          · simp +contextual
        · exact genuine
        · exact reads

theorem answered (coherent : state.Coherent lru) (lawful : lru.Lawful capacity)
    {edit : EditCall} {version : Nat}
    (known : state.calls.get? call = some request)
    (stage : request.stage = .sending overflow)
    (isEdit : state.service.edits.get? call = some edit)
    (made : edit.version = some version)
    (taken : serve lru bots state (.endEdit call) = some next) :
    (OverflowState.finishCall lru
      (next.write edit.messageId version request.text) call request
      edit.messageId overflow).Coherent lru := by
  obtain ⟨service, stepped, rfl⟩ := Option.map_eq_some_iff.mp taken
  simp only [TelegramState.step, isEdit, made, Option.bind_some,
    Option.map_some, Option.some.injEq] at stepped
  subst stepped
  have sound := coherent.ledger.sound call request known
  have elsewhere : ∀ other, other ≠ call →
      (state.service.edits.erase call).get? other =
        state.service.edits.get? other := by
    intro other different
    rw [Dict.get?_erase, if_neg different]
  have gone : (state.service.edits.erase call).get? call = none := by
    rw [Dict.get?_erase, if_pos rfl]
  have genuine := coherent.genuine.grows
    (state.service.channel.complete_grows edit.messageId version)
    coherent.genuine.named (state.service.edits.erase call)
  have dropped := (coherent.ledger.drop elsewhere gone).complete
    edit.messageId version
  have deleting : ∀ documents, (∀ document ∈ documents,
      state.service.channel.Superseded document) →
      Ledger (state.service.channel.complete edit.messageId version)
        (state.service.edits.erase call) state.documents
        (state.calls.set call { request with stage := .deleting documents })
        state.overflowOf state.deleted := by
    intro documents older
    refine (coherent.ledger.put elsewhere ?_ ?_).complete edit.messageId
      version
    · rw [gone]
      refine ⟨sound.plain, sound.editable, ?_, ?_, ?_, ?_⟩
      · intro document absurd
        cases absurd
      · intro current absurd
        cases absurd
      · intro document isSuperseded
        obtain ⟨id, old, isTarget, points, _⟩ :=
          sound.superseded document isSuperseded
        refine ⟨id, old, isTarget, points, ?_⟩
        intro current later absurd
        cases absurd
      · rintro documents ⟨⟩
        exact older
    · intro document absurd
      cases absurd
  have points : ∀ document, overflow = some document →
      ∃ version, state.service.channel.Points edit.messageId version
        document := by
    rintro document rfl
    exact ⟨version, coherent.ledger.made_points known stage isEdit made⟩
  have superseded : ∀ document, request.superseded = some document →
      state.service.channel.Superseded document := by
    intro document isSuperseded
    exact coherent.ledger.superseded_below known isSuperseded isEdit made
  have reads : ∀ answer read, state.reads.get? answer = some read →
      read.Genuine
        (state.service.channel.complete edit.messageId version) := by
    intro answer read found
    exact (coherent.reads answer read found).grows
      (state.service.channel.complete_grows edit.messageId version)
  unfold OverflowState.write
  split
  · exact Coherent.finishCall lawful dropped deleting points superseded genuine
      reads
  · exact Coherent.finishCall lawful dropped deleting points superseded genuine
      reads

/-- A call that is not waiting for its request any more ends. -/
theorem ends (coherent : state.Coherent lru)
    (known : state.calls.get? call = some request) {documents : List Int}
    (stage : request.stage = .deleting documents) :
    OverflowState.Coherent lru
      { state with calls := state.calls.erase call } := by
  refine ⟨coherent.ledger.drop (fun _ _ => rfl) ?_, coherent.genuine,
    coherent.reads⟩
  cases found : state.service.edits.get? call with
  | none => rfl
  | some edit =>
      obtain ⟨overflow, sends⟩ :=
        (coherent.ledger.sound call request known).sends edit found
      cases stage.symm.trans sends.stage

theorem fail (coherent : state.Coherent lru) (call : Nat) :
    OverflowState.Coherent lru { state with
      service := { state.service with
        edits := state.service.edits.erase call }
      calls := state.calls.erase call } := by
  refine ⟨coherent.ledger.drop ?_ ?_, { coherent.genuine with },
    coherent.reads⟩
  · intro other different
    rw [Dict.get?_erase, if_neg different]
  · rw [Dict.get?_erase, if_pos rfl]

theorem step (coherent : state.Coherent lru) (positive : 1 ≤ capacity)
    (lawful : lru.Lawful capacity) {action : OverflowAction}
    (taken : step lru texts bots state action = some next) :
    next.Coherent lru := by
  cases action with
  | lookup action =>
      simp only [OverflowState.step] at taken
      split at taken
      · rename_i isLookup
        exact coherent.lookup positive lawful isLookup taken
      · cases taken
  | beginSend call text =>
      apply coherent.begin_ lawful rfl _ _ taken
      · intro id absurd
        cases absurd
      · intro document absurd
        cases absurd
  | beginEdit call id text =>
      simp only [OverflowState.step] at taken
      split at taken
      · rename_i isText
        exact coherent.beginEdit lawful isText taken
      · cases taken
  | uploaded call message =>
      obtain ⟨request, known, rest⟩ := Option.bind_eq_some_iff.mp taken
      split at rest
      · rename_i stage
        split at rest
        · rename_i new
          exact coherent.uploaded lawful known stage new.1 new.2.1 new.2.2 rest
        · cases rest
      · cases rest
  | applySend call id =>
      obtain ⟨request, known, rest⟩ := Option.bind_eq_some_iff.mp taken
      split at rest
      · rename_i isSend stage
        split at rest
        · rename_i new
          cases rest
          exact coherent.applySend known stage isSend new.1 new.2.2
        · cases rest
      · cases rest
  | applyEdit call => exact coherent.applyEdit taken
  | answered call =>
      obtain ⟨request, known, rest⟩ := Option.bind_eq_some_iff.mp taken
      split at rest
      · rename_i overflow stage
        obtain ⟨edit, isEdit, rest⟩ := Option.bind_eq_some_iff.mp rest
        obtain ⟨version, made, rest⟩ := Option.bind_eq_some_iff.mp rest
        obtain ⟨served, ended, rfl⟩ := Option.map_eq_some_iff.mp rest
        exact coherent.answered lawful known stage isEdit made ended
      · cases rest
  | fail call =>
      obtain ⟨request, known, rest⟩ := Option.bind_eq_some_iff.mp taken
      split at rest
      · cases rest
      · cases rest
        exact coherent.fail call
  | deleted call =>
      obtain ⟨request, known, rest⟩ := Option.bind_eq_some_iff.mp taken
      split at rest
      · rename_i documents stage
        cases rest
        refine ⟨{ coherent.ledger with gone := ?_ }, coherent.genuine,
          coherent.reads⟩
        intro document member
        rcases List.mem_append.mp member with new | old
        · exact (coherent.ledger.sound call request known).deleting documents
            stage document new
        · exact coherent.ledger.gone document old
      · cases rest
  | endDelete call =>
      obtain ⟨request, known, rest⟩ := Option.bind_eq_some_iff.mp taken
      split at rest
      · rename_i documents stage
        cases rest
        exact coherent.ends known stage
      · cases rest
  | resume answer =>
      obtain ⟨answered, found, rest⟩ := Option.bind_eq_some_iff.mp taken
      split at rest
      · cases rest
      · cases rest
        have resumed : OverflowState.Coherent lru
            { state with resumed := answer :: state.resumed } :=
          ⟨coherent.ledger, coherent.genuine, coherent.reads⟩
        exact resumed.resume
          (coherent.genuine.messages (List.mem_of_getElem? found))
  | downloaded answer =>
      obtain ⟨read, found, rest⟩ := Option.bind_eq_some_iff.mp taken
      split at rest
      · cases rest
      · obtain ⟨text, _, rfl⟩ := Option.map_eq_some_iff.mp rest
        have known : OverflowState.Coherent lru { state with
            overflowText :=
              texts.set read.document (some text) state.overflowText } :=
          ⟨coherent.ledger, coherent.genuine, coherent.reads⟩
        exact known.resume (coherent.reads answer read found).pending
  | downloadFails answer =>
      obtain ⟨read, found, rfl⟩ := Option.map_eq_some_iff.mp taken
      exact coherent.resume (coherent.reads answer read found).pending

end Coherent

theorem Started.coherent (started : state.Started lru texts) :
    state.Coherent lru := by
  have single : ∀ (id : Int) (version : Nat) message,
      (state.service.channel.versions id)[version]? = some message →
        version = 0 ∧ state.service.channel.versions id = [message] := by
    intro id version message listed
    have short := started.sent id
    have inside := (List.getElem?_eq_some_iff.mp listed).1
    obtain ⟨only, alone⟩ := List.length_eq_one_iff.mp
      (Nat.le_antisymm short (Nat.zero_lt_of_lt inside))
    rw [alone] at listed inside ⊢
    have first : version = 0 := Nat.lt_one_iff.mp inside
    subst first
    cases listed
    exact ⟨rfl, rfl⟩
  have noCall : ∀ call request,
      state.calls.get? call ≠ some request := by
    intro call request found
    rw [started.calls] at found
    cases found
  refine ⟨⟨?_, ?_, ?_, ?_, ?_, ?_, ?_, ?_, ?_, ?_⟩, ⟨?_, ?_, ?_, ?_⟩, ?_⟩
  · intro id
    cases versions : state.service.channel.versions id with
    | nil => exact .inl rfl
    | cons message rest =>
        have listed : (state.service.channel.versions id)[0]? =
            some message := by rw [versions]; rfl
        have alone := (single id 0 message listed).2
        right
        cases attached : message.document with
        | none =>
            left
            refine ⟨by rw [alone]; exact List.cons_ne_nil _ _, ?_⟩
            intro other member
            rw [alone] at member
            cases List.mem_singleton.mp member
            exact attached
        | some document =>
            right
            refine ⟨by rw [alone]; exact List.cons_ne_nil _ _, ?_⟩
            intro other member
            rw [alone] at member
            cases List.mem_singleton.mp member
            rw [attached]
            rfl
  · intro document text found
    obtain ⟨valid, message, alone, attached⟩ :=
      started.documents document text found
    refine ⟨valid, by rw [alone]; exact List.cons_ne_nil _ _, ?_⟩
    intro other member
    rw [alone] at member
    cases List.mem_singleton.mp member
    exact attached
  · rintro id version document ⟨message, listed, marks⟩
    exact Option.isSome_iff_exists.mp (started.pointed id message
      (List.mem_of_getElem? listed) document marks)
  · rintro id version other another document ⟨message, listed, marks⟩
      ⟨message', listed', marks'⟩
    refine ⟨started.once id message (List.mem_of_getElem? listed) other
      message' (List.mem_of_getElem? listed') document marks marks', ?_⟩
    rw [(single _ _ _ listed).1, (single _ _ _ listed').1]
  · intro call request found
    exact (noCall call request found).elim
  · intro call edit found
    rw [started.edits] at found
    cases found
  · intro call request other another document found
    exact (noCall call request found).elim
  · intro call request document id version found
    exact (noCall call request found).elim
  · intro id document found
    rw [started.overflowOf] at found
    cases found
  · intro document member
    rw [started.deleted] at member
    cases member
  · intro id version message listed
    exact started.named id message (List.mem_of_getElem? listed)
  · intro id message cached
    rw [cachedMessage, started.cache] at cached
    cases cached
  · intro batch isBatch
    rw [started.batch] at isBatch
    cases isBatch
  · intro answered member
    rw [started.unanswered] at member
    cases member
  · intro answer read found
    rw [started.reads] at found
    cases found

end OverflowState

end Tgdcfs
