import Tgdcfs.Backends.MessageCache
import Tgdcfs.Lib.Dict
import Tgdcfs.Lib.Run

/-!
# Lookups and edits side by side

Lookups and edits of one store are coroutines.  Between their awaits they
share the message cache; the remote service answers a fetch and applies an
edit at some moment in between.  The service keeps every version of a
message here, so that an answer can be compared with the edits that returned
before its lookup began.
-/

namespace Tgdcfs

open Lib

/-- A channel: the versions of its messages, the oldest first, and the newest
version whose edit has returned. -/
structure Channel where
  versions : Int → List MessageResp
  completed : Int → Option Nat

namespace Channel

/-- What a fetch is answered with. -/
def read (channel : Channel) (id : Int) : Option (Nat × MessageResp) :=
  (channel.versions id).getLast?.map fun message =>
    ((channel.versions id).length - 1, message)

def append (channel : Channel) (id : Int) (message : MessageResp) : Channel :=
  { channel with
    versions := Function.update channel.versions id
      (channel.versions id ++ [message]) }

def complete (channel : Channel) (id : Int) (version : Nat) : Channel :=
  { channel with
    completed := Function.update channel.completed id
      (some (max ((channel.completed id).getD 0) version)) }

end Channel

/-- An edit in flight; `version` is the one it made. -/
structure EditCall where
  messageId : Int
  text : String
  version : Option Nat

/-- A lookup that returned, with the edits that had returned when it began. -/
structure Answered where
  ids : List Int
  since : Int → Option Nat
  messages : List (Option MessageResp)

/-- Every message shows the edit that had returned or a later one. -/
def Answered.Shows (answered : Answered) (channel : Channel) : Prop :=
  List.Forall₂ (fun id message => ∀ edit, answered.since id = some edit →
    ∃ found version shown, message = some found ∧ edit ≤ version ∧
      (channel.versions id)[version]? = some shown ∧
      found.text = shown.text) answered.ids answered.messages

def OVERFLOW_PREFIX : String := "TGDCFS_OVERFLOW:"

def TELEGRAM_MAX_TEXT_CHARS : Nat := 4096

def isMarker (text : String) : Bool :=
  OVERFLOW_PREFIX.toList.isPrefixOf text.toList

/-- `TelegramStore._resolve_overflow`; `parse` is `int`, and `documents`
answers with the text of an overflow document unless it cannot be read. -/
def resolveMarker (parse : List Char → Option Int)
    (documents : Int → Option String) (message : MessageResp) :
    Option MessageResp :=
  if message.document.isSome || !isMarker message.text then some message
  else
    match parse (message.text.toList.drop OVERFLOW_PREFIX.length) with
    | none => some message
    | some id => (documents id).map fun text =>
        { messageId := message.messageId, text := text, document := none }

/-- A lookup that waits for the next batch. -/
structure BrokerRequest where
  ids : List Int
  since : Int → Option Nat

/-- The batch in flight: the attempts that are left, the ids that are fetched
and what the service has answered so far. -/
structure Batch where
  requests : List BrokerRequest
  ids : List Int
  left : Nat
  missing : List Int
  reads : Dict Int (Option (Nat × MessageResp))

/-- The messages of the answer of the service. -/
def Batch.fetched (batch : Batch) : List MessageResp :=
  batch.missing.filterMap fun id => (batch.reads.get? id).join.map Prod.snd

structure TelegramState (σ : Type) where
  channel : Channel
  cache : σ
  requests : List BrokerRequest
  batch : Option Batch
  edits : Dict Nat EditCall
  answered : List Answered

inductive TelegramAction where
  | get (ids : List Int)
  /-- The collector takes the requests; a set of ids has no order. -/
  | flush (ids : List Int)
  | read (id : Int)
  | store
  | fetchFails
  | collectorFails
  | beginEdit (call : Nat) (id : Int) (text : String)
  | applyEdit (call : Nat)
  | endEdit (call : Nat)
  | failEdit (call : Nat)

namespace TelegramState

variable {σ : Type} (lru : LRU σ Int (Option MessageResp))
  (resolve : MessageResp → Option MessageResp) (bots : Nat)

/-- `TelegramStore.get_messages` after the broker has answered. -/
def resolveAll (messages : List (Option MessageResp)) :
    List (Option MessageResp) :=
  if messages.any (·.any fun message => isMarker message.text) then
    messages.map (·.bind resolve)
  else messages

/-- The client reads the answer back out of the cache, the broker hands it to
the waiting requests. -/
def finish (state : TelegramState σ) (batch : Batch) (cache : σ) :
    TelegramState σ :=
  let (cache, messages) := MessageCache.gets lru batch.ids cache
  let found : Dict Int MessageResp := .ofList
    ((excludeNone messages).map fun message => (message.messageId, message))
  { state with
    cache := cache
    batch := none
    answered := state.answered ++ batch.requests.map fun request =>
      { ids := request.ids
        since := request.since
        messages := resolveAll resolve (request.ids.map found.get?) } }

/-- One turn of the loop of `process_requests`: what is not cached is
fetched. -/
def attempt (state : TelegramState σ) (requests : List BrokerRequest)
    (ids : List Int) (left : Nat) : TelegramState σ :=
  let (cache, missing) := MessageCache.findNonexistent lru ids state.cache
  let batch : Batch :=
    { requests := requests
      ids := ids
      left := left
      missing := missing
      reads := .empty }
  if missing = [] then finish lru resolve state batch cache
  else { state with cache := cache, batch := some batch }

def step (state : TelegramState σ) :
    TelegramAction → Option (TelegramState σ)
  | .get ids =>
      let (cache, messages) := MessageCache.gets lru ids state.cache
      if messages ≠ [] ∧ messages.all Option.isSome then
        some { state with
          cache := cache
          answered := state.answered ++
            [⟨ids, state.channel.completed, resolveAll resolve messages⟩] }
      else
        some { state with
          cache := cache
          requests := state.requests ++ [⟨ids, state.channel.completed⟩] }
  | .flush ids =>
      if state.batch.isNone ∧ state.requests ≠ [] ∧
          ids.Perm (state.requests.flatMap BrokerRequest.ids).dedup then
        some (attempt lru resolve { state with requests := [] }
          state.requests ids (max 1 bots))
      else none
  | .read id =>
      state.batch.bind fun batch =>
        if id ∈ batch.missing ∧ !batch.reads.contains id then
          some { state with
            batch := some { batch with
              reads := batch.reads.set id (state.channel.read id) } }
        else none
  | .store =>
      state.batch.bind fun batch =>
        if batch.missing.all batch.reads.contains then
          some (finish lru resolve state batch
            (storeMessages lru batch.fetched state.cache))
        else none
  | .fetchFails =>
      state.batch.map fun batch =>
        if batch.left ≤ 1 then { state with batch := none }
        else
          attempt lru resolve { state with batch := none } batch.requests
            batch.ids (batch.left - 1)
  | .collectorFails => some { state with requests := [], batch := none }
  | .beginEdit call id text =>
      if state.edits.contains call ∨
          text.length > TELEGRAM_MAX_TEXT_CHARS then none
      else
        some { state with
          cache := lru.set id none state.cache
          edits := state.edits.set call ⟨id, text, none⟩ }
  | .applyEdit call =>
      (state.edits.get? call).bind fun edit =>
        if edit.version.isSome then none
        else
          (state.channel.read edit.messageId).map fun (version, message) =>
            { state with
              channel := state.channel.append edit.messageId
                { message with text := edit.text }
              edits := state.edits.set call
                { edit with version := some (version + 1) } }
  | .endEdit call =>
      (state.edits.get? call).bind fun edit =>
        edit.version.map fun version =>
          { state with
            channel := state.channel.complete edit.messageId version
            edits := state.edits.erase call }
  | .failEdit call =>
      if state.edits.contains call then
        some { state with edits := state.edits.erase call }
      else none

end TelegramState

def DISCORD_MAX_TEXT_CHARS : Nat := 2000

/-- A lookup that fetches what was not cached. -/
structure DiscordLookup where
  ids : List Int
  since : Int → Option Nat
  left : Nat
  missing : List Int
  reads : Dict Int (Option (Nat × MessageResp))

structure DiscordState (σ : Type) where
  channel : Channel
  cache : σ
  lookups : Dict Nat DiscordLookup
  edits : Dict Nat EditCall
  answered : List Answered

inductive DiscordAction where
  | get (call : Nat) (ids : List Int)
  | read (call : Nat) (id : Int)
  | store (call : Nat)
  | fetchFails (call : Nat) (transient : Bool)
  | beginEdit (call : Nat) (id : Int) (text : String)
  /-- An attempt may take effect and fail, then there is another one. -/
  | applyEdit (call : Nat)
  | endEdit (call : Nat)
  | failEdit (call : Nat)

namespace DiscordState

variable {σ : Type} (lru : LRU σ Int (Option MessageResp))
  (download : Int → Option String) (maxRetries : Nat)

def finish (state : DiscordState σ) (ids : List Int)
    (since : Int → Option Nat) (cache : σ) : DiscordState σ :=
  let (cache, messages) := MessageCache.gets lru ids cache
  { state with
    cache := cache
    answered := state.answered ++ [⟨ids, since, messages⟩] }

def step (state : DiscordState σ) : DiscordAction → Option (DiscordState σ)
  | .get call ids =>
      if state.lookups.contains call then none
      else
        let (cache, cached) := MessageCache.gets lru ids state.cache
        let missing := (ids.zip cached).filterMap fun entry =>
          if entry.2.isNone then some entry.1 else none
        if missing = [] then
          some (finish lru state ids state.channel.completed cache)
        else
          some { state with
            cache := cache
            lookups := state.lookups.set call
              ⟨ids, state.channel.completed, maxRetries, missing, .empty⟩ }
  | .read call id =>
      (state.lookups.get? call).bind fun lookup =>
        if 0 < lookup.left ∧ id ∈ lookup.missing ∧
            !lookup.reads.contains id then
          some { state with
            lookups := state.lookups.set call { lookup with
              reads := lookup.reads.set id (state.channel.read id) } }
        else none
  | .store call =>
      (state.lookups.get? call).bind fun lookup =>
        if lookup.missing.all lookup.reads.contains then
          let fetched := lookup.missing.map fun id =>
            (lookup.reads.get? id).join.map Prod.snd
          match storeResolved lru download (lookup.missing.zip fetched)
              state.cache with
          | .error _ => none
          | .ok cache =>
              some (finish lru
                { state with lookups := state.lookups.erase call }
                lookup.ids lookup.since cache)
        else none
  | .fetchFails call transient =>
      (state.lookups.get? call).map fun lookup =>
        if transient ∧ 1 < lookup.left then
          { state with
            lookups := state.lookups.set call
              { lookup with left := lookup.left - 1, reads := .empty } }
        else { state with lookups := state.lookups.erase call }
  | .beginEdit call id text =>
      if state.edits.contains call ∨
          text.length > DISCORD_MAX_TEXT_CHARS then none
      else
        some { state with edits := state.edits.set call ⟨id, text, none⟩ }
  | .applyEdit call =>
      (state.edits.get? call).bind fun edit =>
        (state.channel.read edit.messageId).map fun (version, message) =>
          { state with
            channel := state.channel.append edit.messageId
              { message with text := edit.text, document := none }
            edits := state.edits.set call
              { edit with version := some (version + 1) } }
  | .endEdit call =>
      (state.edits.get? call).bind fun edit =>
        edit.version.map fun version =>
          { state with
            channel := state.channel.complete edit.messageId version
            cache := lru.set edit.messageId
              (some ⟨edit.messageId, edit.text, none⟩) state.cache
            edits := state.edits.erase call }
  | .failEdit call =>
      if state.edits.contains call then
        some { state with edits := state.edits.erase call }
      else none

end DiscordState

end Tgdcfs
