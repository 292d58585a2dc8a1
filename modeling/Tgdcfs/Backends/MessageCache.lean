import Tgdcfs.Lib.Recency

/-!
# Looking messages up

The stores keep the messages of a channel in a bounded cache and fetch the
ones it does not hold.  The cache rests on a third-party `LRU`, which is a
parameter here, as are the remote services.
-/

namespace Tgdcfs

/-- `lru.LRU`.  `items` lists its entries, the most recent one first. -/
structure LRU (σ κ α : Type) where
  items : σ → List (κ × α)
  get : κ → σ → σ × Option α
  set : κ → α → σ → σ

open Lib in
/-- What is documented of it: it holds one entry for a key and at most
`capacity` of them, a lookup makes an entry the most recent one, and storing
an entry drops the least recent ones beyond the capacity. -/
structure LRU.Lawful {σ κ α : Type} [DecidableEq κ] (lru : LRU σ κ α)
    (capacity : Nat) : Prop where
  items_nodup : ∀ cache, (Recency.keys (lru.items cache)).Nodup
  items_length : ∀ cache, (lru.items cache).length ≤ capacity
  get_value : ∀ key cache,
    (lru.get key cache).2 = (lru.items cache).lookup key
  get_items : ∀ key cache,
    lru.items (lru.get key cache).1 = Recency.touch key (lru.items cache)
  set_items : ∀ key value cache,
    lru.items (lru.set key value cache) =
      (Recency.put key value (lru.items cache)).take capacity

namespace MessageCache

variable {σ κ μ : Type} (lru : LRU σ κ (Option μ))

/-- `None` is answered for a missing key and for a stored `None`. -/
def get (key : κ) (cache : σ) : σ × Option μ :=
  ((lru.get key cache).1, (lru.get key cache).2.join)

def gets : List κ → σ → σ × List (Option μ)
  | [], cache => (cache, [])
  | key :: keys, cache =>
      let found := get lru key cache
      let rest := gets keys found.1
      (rest.1, found.2 :: rest.2)

def findNonexistent : List κ → σ → σ × List κ
  | [], cache => (cache, [])
  | key :: keys, cache =>
      let found := get lru key cache
      let rest := findNonexistent keys found.1
      (rest.1, if found.2.isNone then key :: rest.2 else rest.2)

end MessageCache

structure Document where
  size : Int
  id : Int
  accessHash : Int
  fileReference : List UInt8
  mimeType : Option String
  deriving DecidableEq, Repr

structure MessageResp where
  messageId : Int
  text : String
  document : Option Document
  deriving DecidableEq, Repr

inductive TechnicalError where
  | unexpectedResponse
  | failedToFetch (ids : List Int) (chat : Int)
  | failedAfter (attempts : Nat)
  | raised

def excludeNone {α : Type} (items : List (Option α)) : List α :=
  items.filterMap id

section Clients

variable {σ : Type} (lru : LRU σ Int (Option MessageResp))

/-- Store fetched messages under their own ids. -/
def storeMessages (messages : List MessageResp) (cache : σ) : σ :=
  messages.foldl
    (fun cache message => lru.set message.messageId (some message) cache)
    cache

inductive TelethonDocument where
  | empty
  | document (document : Document)

inductive TelethonMedia where
  | none
  | document (document : Option TelethonDocument)
  | other

structure TelethonMessage where
  id : Int
  message : Option String
  media : TelethonMedia

inductive TelethonResponse where
  | totalList (messages : List (Option TelethonMessage))
  | other

def TelethonMessage.transform (message : TelethonMessage) : MessageResp :=
  { messageId := message.id
    text := message.message.getD ""
    document :=
      match message.media with
      | .document (some (.document document)) => some document
      | _ => none }

def telethonGetMessages (fetch : List Int → TelethonResponse)
    (ids : List Int) (cache : σ) :
    Except TechnicalError (σ × List (Option MessageResp)) :=
  let (cache, toFetch) := MessageCache.findNonexistent lru ids cache
  if toFetch.isEmpty then .ok (MessageCache.gets lru ids cache)
  else
    match fetch toFetch with
    | .other => .error .unexpectedResponse
    | .totalList fetched =>
        let messages := excludeNone
          (fetched.map (Option.map TelethonMessage.transform))
        .ok (MessageCache.gets lru ids (storeMessages lru messages cache))

structure PyrogramDocument where
  fileSize : Int
  fileId : String
  mimeType : Option String

structure PyrogramMessage where
  id : Int
  text : Option String
  document : Option PyrogramDocument

/-- The parts of a decoded `file_id` that are used. -/
structure FileId where
  mediaId : Int
  accessHash : Int
  fileReference : List UInt8

inductive PyrogramResponse where
  | none
  | message (message : PyrogramMessage)
  | messages (messages : List (Option PyrogramMessage))

def PyrogramMessage.transform (decode : String → FileId)
    (message : PyrogramMessage) : MessageResp :=
  { messageId := message.id
    text := message.text.getD ""
    document := message.document.map fun document =>
      let file := decode document.fileId
      { size := document.fileSize
        id := file.mediaId
        accessHash := file.accessHash
        fileReference := file.fileReference
        mimeType := document.mimeType } }

def pyrogramGetMessages (decode : String → FileId)
    (fetch : List Int → PyrogramResponse) (chat : Int) (ids : List Int)
    (cache : σ) : Except TechnicalError (σ × List (Option MessageResp)) :=
  let (cache, toFetch) := MessageCache.findNonexistent lru ids cache
  if toFetch.isEmpty then .ok (MessageCache.gets lru ids cache)
  else
    let answer (fetched : List (Option PyrogramMessage)) :=
      let messages := excludeNone
        (fetched.map (Option.map (PyrogramMessage.transform decode)))
      .ok (MessageCache.gets lru ids (storeMessages lru messages cache))
    match fetch toFetch with
    | .none => .error (.failedToFetch toFetch chat)
    | .messages [] => .error (.failedToFetch toFetch chat)
    | .message message => answer [some message]
    | .messages fetched => answer fetched

def OVERFLOW_CAPTION : String := "TGDCFS_OVERFLOW"

inductive Attempt (α : Type) where
  | returned (value : α)
  | transient
  | raised

/-- `_retry`: `attempt` numbers the calls that were made. -/
def retry {α : Type} (action : Nat → Attempt α) (maxRetries : Nat) :
    Nat → Nat → Except TechnicalError α
  | 0, _ => .error (.failedAfter maxRetries)
  | left + 1, attempt =>
      match action attempt with
      | .returned value => .ok value
      | .raised => .error .raised
      | .transient => retry action maxRetries left (attempt + 1)

/-- Replace the overflow marker with the text it stands for; `download`
answers with the decoded document of a message. -/
def resolveOverflow (download : Int → Option String)
    (message : MessageResp) : Except TechnicalError MessageResp :=
  if message.text ≠ OVERFLOW_CAPTION ∨ message.document.isNone then
    .ok message
  else
    match download message.messageId with
    | none => .error .raised
    | some text => .ok { message with text := text }

def storeResolved (download : Int → Option String) :
    List (Int × Option MessageResp) → σ → Except TechnicalError σ
  | [], cache => .ok cache
  | (_, none) :: fetched, cache => storeResolved download fetched cache
  | (id, some message) :: fetched, cache =>
      match resolveOverflow download message with
      | .error failure => .error failure
      | .ok resolved =>
          storeResolved download fetched (lru.set id (some resolved) cache)

def discordGetMessages (download : Int → Option String)
    (fetch : List Int → Nat → Attempt (List (Option MessageResp)))
    (maxRetries : Nat) (ids : List Int) (cache : σ) :
    Except TechnicalError (σ × List (Option MessageResp)) :=
  let (cache, cached) := MessageCache.gets lru ids cache
  let missing := (ids.zip cached).filterMap fun entry =>
    if entry.2.isNone then some entry.1 else none
  if missing.isEmpty then .ok (MessageCache.gets lru ids cache)
  else
    match retry (fetch missing) maxRetries maxRetries 1 with
    | .error failure => .error failure
    | .ok fetched =>
        match storeResolved lru download (missing.zip fetched) cache with
        | .error failure => .error failure
        | .ok cache => .ok (MessageCache.gets lru ids cache)

end Clients

end Tgdcfs
