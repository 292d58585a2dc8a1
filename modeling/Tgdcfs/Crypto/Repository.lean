import Tgdcfs.Core.PrefetchingChain
import Tgdcfs.Crypto.Header
import Tgdcfs.Lib.Dict

/-!
# The encrypting content repository

`EncryptingFileContentRepository` encrypts what is saved and decrypts what is
read.  A read first decides whether the file is encrypted at all, from its
first bytes or from the header cache; then the plaintext range becomes a
range of whole ciphertext chunks, and the chunks are put together from the
pieces of the inner stream, decrypted one by one and trimmed.
-/

namespace Tgdcfs

open Lib

/-- The checks of the constructor are fields. -/
@[ext]
structure ChunkedAESGCM where
  fileKey : Bytes
  fileSalt : Bytes
  chunkSize : Nat
  key_length : fileKey.length = 32
  salt_length : 4 ≤ fileSalt.length
  chunkSize_pos : 0 < chunkSize

namespace ChunkedAESGCM

def new (key salt : Bytes) (chunkSize : Int) :
    Except CryptoError ChunkedAESGCM :=
  if keyed : key.length = 32 then
    if salted : 4 ≤ salt.length then
      if positive : 0 < chunkSize then
        .ok ⟨key, salt, chunkSize.toNat, keyed, salted, by omega⟩
      else .error (.chunkSizeNotPositive chunkSize)
    else .error .saltTooShort
  else .error (.badKeyLength key.length)

theorem new_ok {key salt : Bytes} {chunkSize : Int}
    {cipher : ChunkedAESGCM} (made : new key salt chunkSize = .ok cipher) :
    0 < chunkSize ∧ cipher.fileKey = key ∧ cipher.fileSalt = salt ∧
      cipher.chunkSize = chunkSize.toNat := by
  unfold new at made
  split at made
  · split at made
    · split at made
      · rename_i positive
        cases made
        exact ⟨positive, rfl, rfl, rfl⟩
      · cases made
    · cases made
  · cases made

def nonce (cipher : ChunkedAESGCM) (index : Nat) : Bytes :=
  cipher.fileSalt.take 4 ++ packUInt64 index

/-- The size of a full chunk on disk. -/
def stride (cipher : ChunkedAESGCM) : Nat :=
  cipher.chunkSize + CHUNK_OVERHEAD

/-- The same cipher as the encrypting message uses it. -/
def encryptor (primitives : CryptoPrimitives) (cipher : ChunkedAESGCM)
    (header : Bytes) (sized : header.length = HEADER_SIZE) : ChunkCipher :=
  { salt := cipher.fileSalt
    chunkSize := cipher.chunkSize
    header := header
    aead := primitives.encrypt cipher.fileKey
    salt_length := cipher.salt_length
    chunkSize_pos := cipher.chunkSize_pos
    header_length := sized }

def decryptChunk (primitives : CryptoPrimitives) (cipher : ChunkedAESGCM)
    (blob : Bytes) (index : Nat) : Except CryptoError Bytes :=
  if blob.length < CHUNK_OVERHEAD then .error (.blobTooShort blob.length)
  else if 0xFFFFFFFFFFFFFFFF < index then
    .error (.chunkIndexOutOfRange index)
  else if blob.take NONCE_SIZE ≠ cipher.nonce index then
    .error (.nonceMismatch index)
  else
    match primitives.decrypt cipher.fileKey (cipher.nonce index)
        (blob.drop NONCE_SIZE) with
    | none => .error (.authenticationFailed index)
    | some plaintext => .ok plaintext

end ChunkedAESGCM

/-- `_plaintext_size_from_ciphertext`. -/
def plaintextSize (ciphertextSize chunkSize : Nat) :
    Except CryptoError Nat :=
  if ciphertextSize ≤ HEADER_SIZE then .ok 0
  else
    let payload := ciphertextSize - HEADER_SIZE
    let fullChunks := payload / (chunkSize + CHUNK_OVERHEAD)
    let tail := payload % (chunkSize + CHUNK_OVERHEAD)
    if tail = 0 then .ok (fullChunks * chunkSize)
    else if tail < CHUNK_OVERHEAD then .error .inconsistentSize
    else .ok (fullChunks * chunkSize + (tail - CHUNK_OVERHEAD))

/-- The chunks of a read, and how their plaintext is trimmed. -/
structure DecryptPlan where
  startChunk : Nat
  nChunks : Nat
  trimHead : Nat
  trimTotal : Nat
  deriving DecidableEq, Repr

structure DecryptState where
  buf : Bytes
  chunkIndex : Nat
  emitted : Nat
  chunksDone : Nat
  trimHead : Nat
  deriving DecidableEq, Repr

/-- How a generator ends. -/
inductive StreamEnd where
  | returned
  | raised (error : CryptoError)
  deriving DecidableEq, Repr

def StreamEnd.error : StreamEnd → Option CryptoError
  | .returned => none
  | .raised error => some error

section Decrypting

variable (primitives : CryptoPrimitives) (cipher : ChunkedAESGCM)
  (plan : DecryptPlan)

/-- `_trim_and_count`. -/
def DecryptState.trimAndCount (state : DecryptState) (plaintext : Bytes) :
    DecryptState × Bytes :=
  let out := (plaintext.drop state.trimHead).take
    (plan.trimTotal - state.emitted)
  ({ state with trimHead := 0, emitted := state.emitted + out.length }, out)

/-- Only what is not empty is yielded. -/
def yielded (out : Bytes) : List Bytes :=
  if out.isEmpty then [] else [out]

/-- The inner loop: decrypt full chunks while the buffer holds one and it is
not the last chunk of the plan. -/
def decryptFull : Nat → DecryptState →
    List Bytes × Except StreamEnd DecryptState
  | 0, state => ([], .ok state)
  | remaining + 1, state =>
      if state.buf.length < cipher.stride then ([], .ok state)
      else
        match cipher.decryptChunk primitives
            (state.buf.take cipher.stride) state.chunkIndex with
        | .error error => ([], .error (.raised error))
        | .ok plaintext =>
            let trimmed := { state with
              buf := state.buf.drop cipher.stride
              chunkIndex := state.chunkIndex + 1
              chunksDone := state.chunksDone + 1
              }.trimAndCount plan plaintext
            if plan.trimTotal ≤ trimmed.1.emitted then
              (yielded trimmed.2, .error .returned)
            else
              let later := decryptFull remaining trimmed.1
              (yielded trimmed.2 ++ later.1, later.2)

/-- The stream is exhausted: what is left is the last chunk. -/
def decryptLast (state : DecryptState) : List Bytes × StreamEnd :=
  if state.chunksDone < plan.nChunks ∧ state.buf ≠ [] ∧
      state.emitted < plan.trimTotal then
    match cipher.decryptChunk primitives state.buf state.chunkIndex with
    | .error error => ([], .raised error)
    | .ok plaintext =>
        (yielded (state.trimAndCount plan plaintext).2, .returned)
  else ([], .returned)

def decryptPieces (failure : Option CryptoError) :
    List Bytes → DecryptState → List Bytes × StreamEnd
  | [], state =>
      match failure with
      | some error => ([], .raised error)
      | none => decryptLast primitives cipher plan state
  | piece :: pieces, state =>
      if plan.trimTotal ≤ state.emitted then
        decryptPieces failure pieces state
      else
        match decryptFull primitives cipher plan
            (plan.nChunks - 1 - state.chunksDone)
            { state with buf := state.buf ++ piece } with
        | (out, .error ended) => (out, ended)
        | (out, .ok next) =>
            let later := decryptPieces failure pieces next
            (out ++ later.1, later.2)

/-- `_decrypting_stream`. -/
def decryptingStream (inner : ByteStream CryptoError) :
    ByteStream CryptoError :=
  let result := decryptPieces primitives cipher plan inner.error inner.chunks
    { buf := []
      chunkIndex := plan.startChunk
      emitted := 0
      chunksDone := 0
      trimHead := plan.trimHead }
  ⟨result.1, result.2.error⟩

end Decrypting

def HEADER_CACHE_CAPACITY : Nat := 1024

/-- Headers by version id, oldest first; `none` marks a plaintext file. -/
structure HeaderCache where
  store : Dict String (Option (FileHeader × Bytes))
  order : List String

namespace HeaderCache

def empty : HeaderCache := ⟨.empty, []⟩

def lookup (cache : HeaderCache) (id : String) :
    Option (Option (FileHeader × Bytes)) :=
  cache.store.get? id

def put (cache : HeaderCache) (id : String)
    (entry : Option (FileHeader × Bytes)) : HeaderCache :=
  if cache.store.contains id then cache
  else if HEADER_CACHE_CAPACITY ≤ cache.store.size then
    match cache.order with
    | [] => ⟨cache.store.set id entry, [id]⟩
    | evict :: order =>
        ⟨(cache.store.erase evict).set id entry, order ++ [id]⟩
  else ⟨cache.store.set id entry, cache.order ++ [id]⟩

end HeaderCache

/-- `derive_file_key` refuses a master key of any other length. -/
structure EncryptingRepository where
  masterKey : Bytes
  chunkSize : Int
  masterKey_length : masterKey.length = 32

/-- The inner repository, as one call of the wrapper finds it: the stream it
answers to an inclusive range. -/
abbrev InnerGet := Int → Int → Except CryptoError (ByteStream CryptoError)

namespace EncryptingRepository

variable (primitives : CryptoPrimitives) (repo : EncryptingRepository)

/-- `save` with the salt that was drawn.  The inner repository reads the
encrypting message from one end to the other; `reads` says in which
portions. -/
def save (salt : Bytes) (source : SourceMessage) (reads : Nat → List Nat) :
    Except CryptoError Bytes :=
  let header := FileHeader.new repo.chunkSize salt
  let key := primitives.deriveFileKey repo.masterKey salt
  match ChunkedAESGCM.new key salt header.chunkSize with
  | .error error => .error error
  | .ok cipher =>
      match header.serialize primitives key with
      | .error error => .error error
      | .ok raw =>
          if sized : raw.length = HEADER_SIZE then
            let encryptor := cipher.encryptor primitives raw sized
            let message := EncryptingMessage.wrap encryptor
              SourceMessage.operations source
            match uploadPart (EncryptingMessage.operations encryptor
                SourceMessage.operations) (reads message.size) message with
            | none => .error .sourceFailed
            | some (_, stored) => .ok stored
          else .error .unexpectedHeaderSize

/-- Collect pieces until the probe has what it wants. -/
def probe (target : Nat) (failure : Option CryptoError) :
    List Bytes → Bytes → Except CryptoError Bytes
  | [], buf =>
      match failure with
      | some error => .error error
      | none => .ok buf
  | piece :: pieces, buf =>
      if target ≤ (buf ++ piece).length then .ok (buf ++ piece)
      else probe target failure pieces (buf ++ piece)

/-- What the probed bytes say about the file. -/
def classify (name : String) (buf : Bytes) :
    Except CryptoError (Option (FileHeader × Bytes)) :=
  if buf.length < MAGIC.length ∨ buf.take MAGIC.length ≠ MAGIC then .ok none
  else if buf.length < HEADER_SIZE then
    .error (.shorterThanHeader name buf.length)
  else
    match FileHeader.parse (buf.take HEADER_SIZE) with
    | .error error => .error error
    | .ok header =>
        let key := primitives.deriveFileKey repo.masterKey header.fileSalt
        match FileHeader.verify primitives (buf.take HEADER_SIZE) key with
        | .error error => .error error
        | .ok () => .ok (some (header, key))

/-- `_detect`. -/
def detect (cache : HeaderCache) (id : String) (size : Nat) (name : String)
    (inner : InnerGet) :
    HeaderCache × Except CryptoError (Option (FileHeader × Bytes)) :=
  match cache.lookup id with
  | some entry => (cache, .ok entry)
  | none =>
      if size < MAGIC.length then (cache.put id none, .ok none)
      else
        let target := min HEADER_SIZE size
        match inner 0 (target - 1) with
        | .error error => (cache, .error error)
        | .ok stream =>
            match probe target stream.error stream.chunks [] with
            | .error error => (cache, .error error)
            | .ok buf =>
                match repo.classify primitives name buf with
                | .error error => (cache, .error error)
                | .ok entry => (cache.put id entry, .ok entry)

/-- The end of a range: negative or past the end means the last byte. -/
def clampEnd (total : Nat) (end_ : Int) : Int :=
  if end_ < 0 ∨ total ≤ end_ then total - 1 else end_

/-- The chunks that hold the plaintext range. -/
def decryptPlan (chunkSize begin_ last : Nat) : DecryptPlan :=
  { startChunk := begin_ / chunkSize
    nChunks := last / chunkSize - begin_ / chunkSize + 1
    trimHead := begin_ % chunkSize
    trimTotal := last - begin_ + 1 }

/-- The range of an encrypted file. -/
def getEncrypted (header : FileHeader) (key : Bytes) (size : Nat)
    (begin_ end_ : Int) (inner : InnerGet) :
    Except CryptoError (ByteStream CryptoError) :=
  match ChunkedAESGCM.new key header.fileSalt header.chunkSize with
  | .error error => .error error
  | .ok cipher =>
      match plaintextSize size cipher.chunkSize with
      | .error error => .error error
      | .ok total =>
          let last := clampEnd total end_
          if last < begin_ ∨ total ≤ begin_ then .ok ⟨[], none⟩
          else if begin_ < 0 then .error (.negativeOffset begin_)
          else
            let plan := decryptPlan cipher.chunkSize begin_.toNat last.toNat
            let ctBegin := HEADER_SIZE + plan.startChunk * cipher.stride
            let ctEnd := min (HEADER_SIZE +
              (last.toNat / cipher.chunkSize + 1) * cipher.stride) size
            match inner ctBegin (ctEnd - 1) with
            | .error error => .error error
            | .ok stream =>
                .ok (decryptingStream primitives cipher plan stream)

def get (cache : HeaderCache) (id : String) (size : Nat) (name : String)
    (begin_ end_ : Int) (inner : InnerGet) :
    HeaderCache × Except CryptoError (ByteStream CryptoError) :=
  if size = 0 then (cache, .ok ⟨[], none⟩)
  else
    match repo.detect primitives cache id size name inner with
    | (cache, .error error) => (cache, .error error)
    | (cache, .ok none) => (cache, inner begin_ end_)
    | (cache, .ok (some (header, key))) =>
        (cache, getEncrypted primitives header key size begin_ end_ inner)

def contentLength (cache : HeaderCache) (id : String) (size : Nat)
    (inner : InnerGet) : HeaderCache × Except CryptoError Nat :=
  if size = 0 then (cache, .ok 0)
  else
    match repo.detect primitives cache id size "" inner with
    | (cache, .error error) => (cache, .error error)
    | (cache, .ok none) => (cache, .ok size)
    | (cache, .ok (some (header, _))) =>
        (cache, plaintextSize size header.chunkSize.toNat)

end EncryptingRepository

end Tgdcfs
