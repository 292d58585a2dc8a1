import Mathlib.Algebra.BigOperators.Group.List.Basic
import Mathlib.Algebra.GroupWithZero.Nat
import Mathlib.Data.List.SplitLengths

/-!
# Uploadable messages and partitioned uploads

An upload cuts a message into parts and reads each part between `open` and
`close`.  The same message object serves all parts of a sequential upload:
its size is overwritten and `next_part` moves it on.  A message is given by
its operations on a state; `none` stands for a raised exception.  The two
wrappers are generic in the message they wrap.
-/

namespace Tgdcfs

abbrev Bytes := List UInt8

/-- The operations of an `UploadableFileMessage`.  `part` is there for
seekable messages only. -/
structure Message (σ : Type) where
  setSize : Nat → σ → σ
  getSize : σ → Nat
  open_ : σ → σ
  read : σ → Nat → Option (σ × Bytes)
  close : σ → σ
  nextPart : Nat → σ → σ
  part : σ → Option (Nat → Nat → σ)

structure StreamMessage where
  size : Nat
  offset : Nat
  readSize : Nat
  stream : List Bytes
  buffer : Bytes

structure BufferMessage where
  size : Nat
  offset : Nat
  readSize : Nat
  buffer : Bytes
  rest : Bytes

/-- `rest` is what the file descriptor has not read yet. -/
structure PathMessage where
  size : Nat
  offset : Nat
  readSize : Nat
  content : Bytes
  rest : Bytes
  closed : Bool

structure CacheMessage where
  size : Nat
  offset : Nat
  readSize : Nat
  source : Bytes
  begin_ : Nat

inductive SourceMessage where
  | stream (message : StreamMessage)
  | buffer (message : BufferMessage)
  | path (message : PathMessage)
  | cache (message : CacheMessage)

/-- Take chunks off the stream until `need` bytes are buffered. -/
def pull (need : Nat) : List Bytes → Bytes → Option (List Bytes × Bytes)
  | [], buffer =>
      if need ≤ buffer.length then some ([], buffer) else none
  | chunk :: stream, buffer =>
      if need ≤ buffer.length then some (chunk :: stream, buffer)
      else pull need stream (buffer ++ chunk)

def StreamMessage.read (message : StreamMessage) (length : Nat) :
    Option (StreamMessage × Bytes) :=
  let sizeToReturn := min length (message.size - message.readSize)
  (pull sizeToReturn message.stream message.buffer).map fun pulled =>
    ({ message with
        stream := pulled.1
        buffer := pulled.2.drop sizeToReturn
        readSize := message.readSize + sizeToReturn },
      pulled.2.take sizeToReturn)

def BufferMessage.read (message : BufferMessage) (length : Nat) :
    BufferMessage × Bytes :=
  ({ message with rest := message.rest.drop length },
    message.rest.take length)

def PathMessage.read (message : PathMessage) (length : Nat) :
    Option (PathMessage × Bytes) :=
  if message.closed then none
  else
    some ({ message with rest := message.rest.drop length },
      message.rest.take length)

def CacheMessage.read (message : CacheMessage) (length : Nat) :
    CacheMessage × Bytes :=
  let position := message.begin_ + message.offset + message.readSize
  let stop := min (position + length) (message.begin_ + message.size)
  if stop ≤ position then (message, [])
  else
    let data := (message.source.drop position).take (stop - position)
    ({ message with readSize := message.readSize + data.length }, data)

def CacheMessage.part (message : CacheMessage) (offset size : Nat) :
    CacheMessage :=
  { size := size
    offset := 0
    readSize := 0
    source := message.source
    begin_ := message.begin_ + offset }

namespace SourceMessage

def setSize (size : Nat) : SourceMessage → SourceMessage
  | .stream message => .stream { message with size := size }
  | .buffer message => .buffer { message with size := size }
  | .path message => .path { message with size := size }
  | .cache message => .cache { message with size := size }

/-- `size or _get_size()`. -/
def getSize : SourceMessage → Nat
  | .stream message => message.size
  | .buffer message =>
      if message.size = 0 then message.buffer.length else message.size
  | .path message =>
      if message.size = 0 then message.content.length else message.size
  | .cache message => message.size

def open_ : SourceMessage → SourceMessage
  | .buffer message =>
      .buffer { message with rest := message.buffer.drop message.offset }
  | message => message

def read : SourceMessage → Nat → Option (SourceMessage × Bytes)
  | .stream message, length =>
      (message.read length).map fun result => (.stream result.1, result.2)
  | .buffer message, length =>
      some (.buffer (message.read length).1, (message.read length).2)
  | .path message, length =>
      (message.read length).map fun result => (.path result.1, result.2)
  | .cache message, length =>
      some (.cache (message.read length).1, (message.read length).2)

def close : SourceMessage → SourceMessage
  | .path message => .path { message with closed := true }
  | message => message

def nextPart (partSize : Nat) : SourceMessage → SourceMessage
  | .stream message => .stream
      { message with offset := message.offset + partSize, readSize := 0 }
  | .buffer message => .buffer
      { message with offset := message.offset + partSize, readSize := 0 }
  | .path message => .path
      { message with offset := message.offset + partSize, readSize := 0 }
  | .cache message => .cache
      { message with offset := message.offset + partSize, readSize := 0 }

def part : SourceMessage → Option (Nat → Nat → SourceMessage)
  | .cache message => some fun offset size =>
      .cache (message.part offset size)
  | _ => none

def operations : Message SourceMessage :=
  { setSize := setSize
    getSize := getSize
    open_ := open_
    read := read
    close := close
    nextPart := nextPart
    part := part }

end SourceMessage

inductive SourceKind where
  | stream
  | buffer
  | path
  | cache
  deriving DecidableEq, Repr

/-- A fresh message over a source that arrives in the given chunks; only a
stream sees where they end. -/
def SourceKind.new (kind : SourceKind) (chunks : List Bytes) :
    SourceMessage :=
  let content := chunks.flatten
  match kind with
  | .stream => .stream
      { size := content.length
        offset := 0
        readSize := 0
        stream := chunks
        buffer := [] }
  | .buffer => .buffer
      { size := content.length
        offset := 0
        readSize := 0
        buffer := content
        rest := [] }
  | .path => .path
      { size := content.length
        offset := 0
        readSize := 0
        content := content
        rest := content
        closed := false }
  | .cache => .cache
      { size := content.length
        offset := 0
        readSize := 0
        source := content
        begin_ := 0 }

/-- A message whose reads also land in the local cache. -/
structure StagedMessage (σ : Type) where
  size : Nat
  offset : Nat
  readSize : Nat
  inner : σ

namespace StagedMessage

variable {σ : Type} (inner : Message σ)

def wrap (message : σ) : StagedMessage σ :=
  { size := inner.getSize message
    offset := 0
    readSize := 0
    inner := message }

def operations : Message (StagedMessage σ) :=
  { setSize := fun size staged => { staged with size := size }
    getSize := fun staged => staged.size
    open_ := fun staged => { staged with inner := inner.open_ staged.inner }
    read := fun staged length =>
      (inner.read staged.inner length).map fun result =>
        ({ staged with inner := result.1 }, result.2)
    close := fun staged =>
      { staged with inner := inner.close staged.inner }
    nextPart := fun partSize staged =>
      { staged with
        inner := inner.nextPart partSize staged.inner
        offset := staged.offset + partSize
        readSize := 0 }
    part := fun _ => none }

end StagedMessage

def HEADER_SIZE : Nat := 60
def NONCE_SIZE : Nat := 12
def TAG_SIZE : Nat := 16
def CHUNK_OVERHEAD : Nat := NONCE_SIZE + TAG_SIZE

/-- A per-file cipher with the serialized header of its file.  `aead` is the
authenticated encryption under the file key, applied to a nonce and a
plaintext; it answers with ciphertext and tag. -/
structure ChunkCipher where
  salt : Bytes
  chunkSize : Nat
  header : Bytes
  aead : Bytes → Bytes → Bytes
  salt_length : 4 ≤ salt.length
  chunkSize_pos : 0 < chunkSize
  header_length : header.length = HEADER_SIZE

/-- `struct.pack(">Q", value)`. -/
def packUInt64 (value : Nat) : Bytes :=
  (List.range 8).map fun place => UInt8.ofNat (value / 256 ^ (7 - place))

namespace ChunkCipher

def chunkNonce (cipher : ChunkCipher) (index : Nat) : Option Bytes :=
  if 0xFFFFFFFFFFFFFFFF < index then none
  else some (cipher.salt.take 4 ++ packUInt64 index)

def encryptChunk (cipher : ChunkCipher) (plaintext : Bytes) (index : Nat) :
    Option Bytes :=
  if cipher.chunkSize < plaintext.length then none
  else
    (cipher.chunkNonce index).map fun nonce =>
      nonce ++ cipher.aead nonce plaintext

/-- `ciphertext_size_for_plaintext`. -/
def ciphertextSize (cipher : ChunkCipher) (plaintextSize : Nat) : Nat :=
  if plaintextSize = 0 then 0
  else
    plaintextSize +
      (plaintextSize / cipher.chunkSize +
        if plaintextSize % cipher.chunkSize = 0 then 0 else 1) *
          CHUNK_OVERHEAD

end ChunkCipher

structure EncryptingMessage (σ : Type) where
  size : Nat
  offset : Nat
  readSize : Nat
  inner : σ
  pending : Bytes := []
  chunkIndex : Nat := 0
  plaintextRead : Nat := 0
  headerEmitted : Bool := false

namespace EncryptingMessage

variable {σ : Type} (cipher : ChunkCipher) (inner : Message σ)

def wrap (message : σ) : EncryptingMessage σ :=
  { size := HEADER_SIZE + cipher.ciphertextSize (inner.getSize message)
    offset := 0
    readSize := 0
    inner := message }

def open_ (message : EncryptingMessage σ) : EncryptingMessage σ :=
  let opened := { message with inner := inner.open_ message.inner }
  if message.headerEmitted then opened
  else { opened with pending := cipher.header, headerEmitted := true }

/-- The loop of `_read_plaintext_chunk`; a round without progress ends it. -/
def gather (want : Nat) : Nat → σ → Bytes → Option (σ × Bytes)
  | 0, source, buffer => some (source, buffer)
  | rounds + 1, source, buffer =>
      if want ≤ buffer.length then some (source, buffer)
      else
        match inner.read source (want - buffer.length) with
        | none => none
        | some (source, piece) =>
            if piece.isEmpty then some (source, buffer)
            else gather want rounds source (buffer ++ piece)

/-- Read one plaintext chunk; empty at the end of the plaintext. -/
def readPlaintextChunk (message : EncryptingMessage σ) :
    Option (EncryptingMessage σ × Bytes) :=
  let remaining := inner.getSize message.inner - message.plaintextRead
  if remaining = 0 then some (message, [])
  else
    let want := min cipher.chunkSize remaining
    (gather inner want want message.inner []).map fun result =>
      ({ message with
          inner := result.1
          plaintextRead := message.plaintextRead + result.2.length },
        result.2)

/-- Take up to `length` bytes off the pending ones. -/
def drain (message : EncryptingMessage σ) (length : Nat) :
    EncryptingMessage σ × Bytes :=
  ({ message with pending := message.pending.drop length },
    message.pending.take length)

/-- The loop of `read`.  A round drains pending bytes, after filling them
again from the next chunk when there are none, so that it delivers at least
one byte and `length` rounds are enough. -/
def readLoop : Nat → Nat → EncryptingMessage σ → Bytes →
    Option (EncryptingMessage σ × Bytes)
  | 0, _, message, out => some (message, out)
  | rounds + 1, length, message, out =>
      if length ≤ out.length then some (message, out)
      else if !message.pending.isEmpty then
        let drained := message.drain (length - out.length)
        readLoop rounds length drained.1 (out ++ drained.2)
      else
        match readPlaintextChunk cipher inner message with
        | none => none
        | some (advanced, plaintext) =>
            if plaintext.isEmpty then some (advanced, out)
            else
              match cipher.encryptChunk plaintext advanced.chunkIndex with
              | none => none
              | some encrypted =>
                  let filled : EncryptingMessage σ :=
                    { advanced with
                      chunkIndex := advanced.chunkIndex + 1
                      pending := encrypted }
                  let drained := filled.drain (length - out.length)
                  readLoop rounds length drained.1 (out ++ drained.2)

def operations : Message (EncryptingMessage σ) :=
  { setSize := fun size message => { message with size := size }
    getSize := fun message => message.size
    open_ := open_ cipher inner
    read := fun message length =>
      readLoop cipher inner length length message []
    close := fun message =>
      { message with inner := inner.close message.inner }
    nextPart := fun partSize message =>
      { message with
        offset := message.offset + partSize
        readSize := 0 }
    part := fun _ => none }

end EncryptingMessage

/-- The sizes of the parts of an upload. -/
def partition (size partSize : Nat) : List Nat :=
  let parts := (size + partSize - 1) / partSize
  List.replicate (parts - 1) partSize ++ [size - (parts - 1) * partSize]

section Upload

variable {σ : Type} (message : Message σ)

/-- The reads of an uploader, one after the other. -/
def readAll : List Nat → σ → Option (σ × Bytes)
  | [], state => some (state, [])
  | length :: lengths, state =>
      match message.read state length with
      | none => none
      | some (state, data) =>
          (readAll lengths state).map fun rest => (rest.1, data ++ rest.2)

/-- One part between `open` and `close`. -/
def uploadPart (lengths : List Nat) (state : σ) : Option (σ × Bytes) :=
  (readAll message lengths (message.open_ state)).map fun result =>
    (message.close result.1, result.2)

/-- The parts of a stream, each with the lengths its uploader asks for. -/
def uploadSequential : List (Nat × List Nat) → σ → Option (List Bytes)
  | [], _ => some []
  | (part, lengths) :: parts, state =>
      match uploadPart message lengths (message.setSize part state) with
      | none => none
      | some (state, data) =>
          (uploadSequential parts (message.nextPart part state)).map
            (data :: ·)

/-- The parts of a seekable message, each through a message of its own. -/
def uploadParallel (partOf : Nat → Nat → σ) :
    List (Nat × List Nat) → Nat → Option (List Bytes)
  | [], _ => some []
  | (part, lengths) :: parts, offset =>
      match uploadPart message lengths
          (message.setSize part (partOf offset part)) with
      | none => none
      | some (_, data) =>
          (uploadParallel partOf parts (offset + part)).map (data :: ·)

/-- `TelegramStore.upload`: the bytes read for each part. -/
def upload (partSize inFlight : Nat) (lengths : List (List Nat))
    (state : σ) : Option (List Bytes) :=
  let parts := partition (message.getSize state) partSize
  match message.part state with
  | some partOf =>
      if 1 < parts.length ∧ 1 < inFlight then
        uploadParallel message partOf (parts.zip lengths) 0
      else uploadSequential message (parts.zip lengths) state
  | none => uploadSequential message (parts.zip lengths) state

end Upload

end Tgdcfs
