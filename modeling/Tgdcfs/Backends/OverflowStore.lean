import Tgdcfs.Backends.TelegramEdits
import Tgdcfs.Lib.Text

/-!
# Texts that overflow into documents

A text that does not fit into a message goes into a document, and the message
points to it with a marker.  `send_text`, `edit_message_text` and
`get_messages` are coroutines over the lookups and edits of one store; every
turn between two of their awaits is one step.
-/

namespace Tgdcfs

open Lib

/-- Telegram numbers messages with positive 32-bit integers. -/
def IsMessageId (id : Int) : Prop := 0 < id ∧ id < 2 ^ 31

instance (id : Int) : Decidable (IsMessageId id) :=
  inferInstanceAs (Decidable (_ ∧ _))

def overflowMarker (document : Int) : String :=
  OVERFLOW_PREFIX ++ toString document

/-- The document whose text `_resolve_overflow` puts in the place of a
message. -/
def markerOf (message : MessageResp) : Option Int :=
  if message.document.isSome || !isMarker message.text then none
  else parseInt (message.text.toList.drop OVERFLOW_PREFIX.length)

/-- `deleting` is the end of an edit whose text is in place already. -/
inductive TextStage where
  | uploading
  | sending (overflow : Option Int)
  | deleting (documents : List Int)

/-- A call of `send_text`, whose `messageId` is `none`, or of
`edit_message_text`. -/
structure TextCall where
  messageId : Option Int
  text : String
  superseded : Option Int
  stage : TextStage

/-- The text of the message. -/
def TextCall.sent (call : TextCall) : Option Int → String
  | none => call.text
  | some document => overflowMarker document

/-- A `get_messages` that waits for the text of a document. -/
structure OverflowRead where
  answered : Answered
  resolved : List (Option MessageResp)
  message : MessageResp
  document : Int
  pending : List (Option MessageResp)

/-- What `get_messages` returned, with the newest versions at that moment and
what the last call that had taken effect and returned wrote. -/
structure OverflowAnswer where
  ids : List Int
  since : Int → Option Nat
  newest : Int → Option Nat
  written : Dict Int (Nat × String)
  messages : List (Option MessageResp)

/-- A message whose last write had returned when the lookup began, and that
no later one had changed when it returned, is answered with that text. -/
def OverflowAnswer.ShowsWritten (answer : OverflowAnswer) : Prop :=
  List.Forall₂ (fun id message => ∀ version text,
    answer.written.get? id = some (version, text) →
      answer.since id = some version → answer.newest id = some version →
        message = some ⟨id, text, none⟩) answer.ids answer.messages

/-- `service` has the channel, the message cache, the lookups and the requests
for edits; a request to send is one that makes version 0.  `documents` are the
texts of the documents that were uploaded, `deleted` those that are gone. -/
structure OverflowState (σ τ : Type) where
  service : TelegramState σ
  documents : Dict Int String
  deleted : List Int
  calls : Dict Nat TextCall
  overflowOf : Dict Int Int
  overflowText : τ
  reads : Dict Nat OverflowRead
  resumed : List Nat
  written : Dict Int (Nat × String)
  returned : List OverflowAnswer

inductive OverflowAction where
  /-- A turn of the lookups below. -/
  | lookup (action : TelegramAction)
  | beginSend (call : Nat) (text : String)
  | beginEdit (call : Nat) (id : Int) (text : String)
  /-- `_send_overflow` returns, with the message of the document. -/
  | uploaded (call : Nat) (message : MessageResp)
  | applySend (call : Nat) (id : Int)
  | applyEdit (call : Nat)
  /-- The request of a call is answered. -/
  | answered (call : Nat)
  | fail (call : Nat)
  | deleted (call : Nat)
  | endDelete (call : Nat)
  /-- `get_messages` goes on with what the lookup below answered. -/
  | resume (answer : Nat)
  | downloaded (answer : Nat)
  | downloadFails (answer : Nat)

def TelegramAction.isLookup : TelegramAction → Bool
  | .get _ | .flush _ | .read _ | .store | .fetchFails | .collectorFails =>
      true
  | .beginEdit _ _ _ | .applyEdit _ | .endEdit _ | .failEdit _ => false

/-- The versions that the channel shows. -/
def Channel.newest (channel : Channel) (id : Int) : Option Nat :=
  (channel.read id).map Prod.fst

namespace OverflowState

variable {σ τ : Type} (lru : LRU σ Int (Option MessageResp))
  (texts : LRU τ Int (Option String)) (bots : Nat)

/-- A step of the service, which hands markers on as they are. -/
def serve (state : OverflowState σ τ) (action : TelegramAction) :
    Option (OverflowState σ τ) :=
  (TelegramState.step lru some bots state.service action).map fun service =>
    { state with service := service }

/-- The message is sent, or the edit of it. -/
def startSending (state : OverflowState σ τ) (call : Nat)
    (request : TextCall) (overflow : Option Int) :
    Option (OverflowState σ τ) :=
  let state := { state with
    calls := state.calls.set call { request with stage := .sending overflow } }
  match request.messageId with
  | none => some state
  | some id =>
      serve lru bots state (.beginEdit call id (request.sent overflow))

def begin_ (state : OverflowState σ τ) (call : Nat) (request : TextCall) :
    Option (OverflowState σ τ) :=
  if state.calls.contains call ∨ isMarker request.text then none
  else if TELEGRAM_MAX_TEXT_CHARS < request.text.length then
    some { state with calls := state.calls.set call request }
  else startSending lru bots state call request none

/-- The text a call wrote, unless a later version returned first. -/
def write (state : OverflowState σ τ) (id : Int) (version : Nat)
    (text : String) : OverflowState σ τ :=
  if (state.written.get? id).any fun last => version < last.1 then state
  else { state with written := state.written.set id (version, text) }

/-- `delete_messages` of one document, with `force`. -/
def startDeleting (state : OverflowState σ τ) (call : Nat)
    (request : TextCall) (superseded : Int) : OverflowState σ τ :=
  let documents :=
    ((superseded :: (state.overflowOf.get? superseded).toList).filter
      (0 < ·)).dedup
  let state :=
    { state with overflowOf := state.overflowOf.erase superseded }
  if documents = [] then
    { state with calls := state.calls.erase call }
  else
    { state with
      service := { state.service with
        cache := documents.foldl (fun cache document =>
          lru.set document none cache) state.service.cache }
      calls := state.calls.set call
        { request with stage := .deleting documents } }

/-- What a call does after its request was answered. -/
def finishCall (state : OverflowState σ τ) (call : Nat) (request : TextCall)
    (id : Int) (overflow : Option Int) : OverflowState σ τ :=
  match request.messageId with
  | none =>
      { state with
        overflowOf :=
          match overflow with
          | some document => state.overflowOf.set id document
          | none => state.overflowOf
        calls := state.calls.erase call }
  | some _ =>
      let state := { state with
        overflowOf :=
          match overflow with
          | some document => state.overflowOf.set id document
          | none => state.overflowOf.erase id }
      match request.superseded with
      | none => { state with calls := state.calls.erase call }
      | some superseded =>
          if overflow = some superseded then
            { state with calls := state.calls.erase call }
          else startDeleting lru state call request superseded

/-- `get_messages` over the messages that are not resolved yet, until it has
to wait for a document or returns. -/
def resume (answer : Nat) (answered : Answered) :
    List (Option MessageResp) → List (Option MessageResp) →
      OverflowState σ τ → OverflowState σ τ
  | resolved, [], state =>
      { state with
        reads := state.reads.erase answer
        returned := state.returned ++
          [⟨answered.ids, answered.since, state.service.channel.newest,
            state.written, resolved⟩] }
  | resolved, none :: pending, state =>
      resume answer answered (resolved ++ [none]) pending state
  | resolved, some message :: pending, state =>
      match markerOf message with
      | none =>
          resume answer answered (resolved ++ [some message]) pending state
      | some document =>
          let (overflowText, found) :=
            MessageCache.get texts document state.overflowText
          let state := { state with
            overflowOf := state.overflowOf.set message.messageId document
            overflowText := overflowText }
          match found with
          | some text =>
              resume answer answered
                (resolved ++ [some ⟨message.messageId, text, none⟩])
                pending state
          | none =>
              { state with
                reads := state.reads.set answer
                  ⟨answered, resolved, message, document, pending⟩ }

/-- `edit_message_text` is called with the id of a text message. -/
def step (state : OverflowState σ τ) :
    OverflowAction → Option (OverflowState σ τ)
  | .lookup action =>
      if action.isLookup then serve lru bots state action else none
  | .beginSend call text =>
      begin_ lru bots state call ⟨none, text, none, .uploading⟩
  | .beginEdit call id text =>
      if (state.service.channel.read id).any fun found =>
          found.2.document.isNone then
        begin_ lru bots state call
          ⟨some id, text, state.overflowOf.get? id, .uploading⟩
      else none
  | .uploaded call message =>
      (state.calls.get? call).bind fun request =>
        match request.stage with
        | .uploading =>
            if message.document.isSome ∧ IsMessageId message.messageId ∧
                state.service.channel.versions message.messageId = [] then
              startSending lru bots
                { state with
                  service := { state.service with
                    channel := state.service.channel.append
                      message.messageId message }
                  documents :=
                    state.documents.set message.messageId request.text
                  overflowText := texts.set message.messageId
                    (some request.text) state.overflowText }
                call request (some message.messageId)
            else none
        | _ => none
  | .applySend call id =>
      (state.calls.get? call).bind fun request =>
        match request.messageId, request.stage with
        | none, .sending overflow =>
            if state.service.edits.contains call = false ∧ IsMessageId id ∧
                state.service.channel.versions id = [] then
              some { state with
                service := { state.service with
                  channel := state.service.channel.append id
                    ⟨id, request.sent overflow, none⟩
                  edits := state.service.edits.set call
                    ⟨id, request.sent overflow, some 0⟩ } }
            else none
        | _, _ => none
  | .applyEdit call => serve lru bots state (.applyEdit call)
  | .answered call =>
      (state.calls.get? call).bind fun request =>
        match request.stage with
        | .sending overflow =>
            (state.service.edits.get? call).bind fun edit =>
              edit.version.bind fun version =>
                (serve lru bots state (.endEdit call)).map fun state =>
                  finishCall lru
                    (state.write edit.messageId version request.text)
                    call request edit.messageId overflow
        | _ => none
  | .fail call =>
      (state.calls.get? call).bind fun request =>
        match request.stage with
        | .deleting _ => none
        | _ =>
            some { state with
              service := { state.service with
                edits := state.service.edits.erase call }
              calls := state.calls.erase call }
  | .deleted call =>
      (state.calls.get? call).bind fun request =>
        match request.stage with
        | .deleting documents =>
            some { state with deleted := documents ++ state.deleted }
        | _ => none
  | .endDelete call =>
      (state.calls.get? call).bind fun request =>
        match request.stage with
        | .deleting _ =>
            some { state with calls := state.calls.erase call }
        | _ => none
  | .resume answer =>
      (state.service.answered[answer]?).bind fun answered =>
        if answer ∈ state.resumed then none
        else
          some (resume texts answer answered [] answered.messages
            { state with resumed := answer :: state.resumed })
  | .downloaded answer =>
      (state.reads.get? answer).bind fun read =>
        if read.document ∈ state.deleted then none
        else
          (state.documents.get? read.document).map fun text =>
            resume texts answer read.answered
              (read.resolved ++ [some ⟨read.message.messageId, text, none⟩])
              read.pending
              { state with
                overflowText :=
                  texts.set read.document (some text) state.overflowText }
  | .downloadFails answer =>
      (state.reads.get? answer).map fun read =>
        resume texts answer read.answered (read.resolved ++ [none])
          read.pending state

/-- The text a message stands for. -/
def meaning (documents : Dict Int String) (message : MessageResp) :
    Option String :=
  match markerOf message with
  | none => some message.text
  | some document => documents.get? document

/-- No current text points to a document that is gone. -/
def DocumentsStay (state : OverflowState σ τ) : Prop :=
  ∀ id version message document,
    state.service.channel.read id = some (version, message) →
      markerOf message = some document → document ∉ state.deleted

/-- Batches store no message that a request has begun to replace and answer
from the cache, an edit that fails took no effect, and a document that is
there can be read. -/
def Undisturbed (capacity : Nat) (state : OverflowState σ τ) :
    OverflowAction → Prop
  | .lookup .store => state.service.Undisturbed lru capacity .store
  | .fail call => ∀ edit version,
      state.service.edits.get? call = some edit →
        edit.version = some version → version = 0
  | .downloadFails answer => ∀ read,
      state.reads.get? answer = some read → read.document ∈ state.deleted
  | _ => True

/-- A store that was just opened: its channel has messages and documents of
earlier runs, one version of each, nothing is cached and no call is under
way. -/
structure Started (state : OverflowState σ τ) : Prop where
  sent : ∀ id, (state.service.channel.versions id).length ≤ 1
  named : ∀ id, ∀ message ∈ state.service.channel.versions id,
    message.messageId = id
  documents : ∀ document text,
    state.documents.get? document = some text → IsMessageId document ∧
      ∃ message, state.service.channel.versions document = [message] ∧
        message.document.isSome
  pointed : ∀ id, ∀ message ∈ state.service.channel.versions id,
    ∀ document, markerOf message = some document →
      state.documents.contains document
  once : ∀ id, ∀ message ∈ state.service.channel.versions id,
    ∀ other, ∀ another ∈ state.service.channel.versions other,
    ∀ document, markerOf message = some document →
      markerOf another = some document → id = other
  completed : ∀ id, state.service.channel.completed id =
    (state.written.get? id).map Prod.fst
  written : ∀ id version text,
    state.written.get? id = some (version, text) → version = 0 ∧
      ∃ message, state.service.channel.versions id = [message] ∧
        message.document = none ∧
        meaning state.documents message = some text
  cache : lru.items state.service.cache = []
  requests : state.service.requests = []
  batch : state.service.batch = none
  edits : state.service.edits = .empty
  unanswered : state.service.answered = []
  calls : state.calls = .empty
  overflowOf : state.overflowOf = .empty
  overflowText : texts.items state.overflowText = []
  deleted : state.deleted = []
  reads : state.reads = .empty
  returned : state.returned = []

end OverflowState

end Tgdcfs
