import Tgdcfs.Upload.Message

/-!
# The header of an encrypted file

An encrypted file begins with a header of fixed size: a magic number, the
version, the algorithm, the chunk size, the salt the file key is derived
from, and a tag over all of it.  The primitives are parameters.  A header
that was serialized parses to itself exactly when its chunk size is one the
parser accepts.
-/

namespace Tgdcfs

/-- Key derivation, message authentication and authenticated encryption.
`decrypt` answers `none` for an invalid tag. -/
structure CryptoPrimitives where
  deriveFileKey : Bytes → Bytes → Bytes
  hmac : Bytes → Bytes → Bytes
  encrypt : Bytes → Bytes → Bytes → Bytes
  decrypt : Bytes → Bytes → Bytes → Option Bytes

/-- The documented sizes, and that decryption undoes encryption. -/
structure CryptoPrimitives.Lawful (primitives : CryptoPrimitives) :
    Prop where
  key_length : ∀ master salt,
    (primitives.deriveFileKey master salt).length = 32
  hmac_length : ∀ key body, (primitives.hmac key body).length = 32
  encrypt_length : ∀ key nonce plaintext,
    (primitives.encrypt key nonce plaintext).length =
      plaintext.length + TAG_SIZE
  decrypt_encrypt : ∀ key nonce plaintext,
    primitives.decrypt key nonce (primitives.encrypt key nonce plaintext) =
      some plaintext

def MAGIC : Bytes := [0x54, 0x47, 0x46, 0x53]
def HEADER_VERSION : Nat := 1
def FILE_SALT_SIZE : Nat := 32
def HEADER_MAC_SIZE : Nat := 16
def BODY_SIZE : Nat := 44

/-- The ceiling on chunk sizes that only the parser knows. -/
def CHUNK_SIZE_CEILING : Nat := 16 * 1024 * 1024

inductive Algorithm where
  | aes256Gcm
  deriving DecidableEq, Repr

def Algorithm.id : Algorithm → Nat
  | .aes256Gcm => 1

def Algorithm.ofId? (id : Nat) : Option Algorithm :=
  if id = 1 then some .aes256Gcm else none

/-- Why an encrypted file cannot be written or read, with the values the
message reports. -/
inductive CryptoError where
  | headerTooShort (length : Nat)
  | shorterThanHeader (name : String) (length : Nat)
  | badMagic (magic : Bytes)
  | unsupportedVersion (version : Nat)
  | unsupportedAlgorithm (algorithm : Nat)
  | invalidChunkSize (chunkSize : Nat)
  | macFailed
  | badStructField
  | badKeyLength (length : Nat)
  | saltTooShort
  | chunkSizeNotPositive (chunkSize : Int)
  | unexpectedHeaderSize
  | sourceFailed
  | blobTooShort (length : Nat)
  | nonceMismatch (index : Nat)
  | authenticationFailed (index : Nat)
  | chunkIndexOutOfRange (index : Nat)
  | negativeOffset (offset : Int)
  | inconsistentSize
  | inner (message : String)
  deriving DecidableEq, Repr

/-- `struct.pack` of an unsigned big-endian integer of `width` bytes. -/
def packUInt (width value : Nat) : Bytes :=
  (List.range width).map fun place =>
    UInt8.ofNat (value / 256 ^ (width - 1 - place))

def unpackUInt (bytes : Bytes) : Nat :=
  bytes.foldl (fun total byte => total * 256 + byte.toNat) 0

theorem packUInt_length (width value : Nat) :
    (packUInt width value).length = width := by
  simp [packUInt]

theorem unpackUInt_packUInt_two {value : Nat} (small : value < 0x10000) :
    unpackUInt (packUInt 2 value) = value := by
  simp only [unpackUInt, packUInt, List.range_succ, List.range_zero,
    List.nil_append, List.cons_append, List.map_cons, List.map_nil,
    List.foldl_cons, List.foldl_nil, UInt8.toNat_ofNat', Nat.reducePow,
    Nat.reduceSub]
  omega

theorem unpackUInt_packUInt_four {value : Nat} (small : value < 0x100000000) :
    unpackUInt (packUInt 4 value) = value := by
  simp only [unpackUInt, packUInt, List.range_succ, List.range_zero,
    List.nil_append, List.cons_append, List.map_cons, List.map_nil,
    List.foldl_cons, List.foldl_nil, UInt8.toNat_ofNat', Nat.reducePow,
    Nat.reduceSub]
  omega

/-- `struct.pack` of a byte string of fixed width. -/
def packBytes (width : Nat) (bytes : Bytes) : Bytes :=
  (bytes ++ List.replicate width 0).take width

theorem packBytes_length (width : Nat) (bytes : Bytes) :
    (packBytes width bytes).length = width := by
  simp [packBytes]

theorem packBytes_exact {width : Nat} {bytes : Bytes}
    (fits : bytes.length = width) : packBytes width bytes = bytes := by
  rw [packBytes, List.take_left' fits]

structure FileHeader where
  version : Nat
  algorithm : Algorithm
  chunkSize : Int
  fileSalt : Bytes
  deriving DecidableEq, Repr

namespace FileHeader

/-- `FileHeader.new` with the salt that was drawn. -/
def new (chunkSize : Int) (salt : Bytes) : FileHeader :=
  { version := HEADER_VERSION
    algorithm := .aes256Gcm
    chunkSize := chunkSize
    fileSalt := salt }

/-- The packed fields, or nothing when one does not fit. -/
def packBody (header : FileHeader) : Option Bytes :=
  if header.version < 0x10000 ∧ 0 ≤ header.chunkSize ∧
      header.chunkSize < 0x100000000 then
    some (packBytes 4 MAGIC ++ packUInt 2 header.version ++
      packUInt 2 header.algorithm.id ++
      packUInt 4 header.chunkSize.toNat ++
      packBytes FILE_SALT_SIZE header.fileSalt)
  else none

def tag (primitives : CryptoPrimitives) (key body : Bytes) : Bytes :=
  (primitives.hmac key body).take HEADER_MAC_SIZE

def serialize (primitives : CryptoPrimitives) (header : FileHeader)
    (key : Bytes) : Except CryptoError Bytes :=
  match header.packBody with
  | none => .error .badStructField
  | some body => .ok (body ++ tag primitives key body)

def parse (raw : Bytes) : Except CryptoError FileHeader :=
  if raw.length < HEADER_SIZE then .error (.headerTooShort raw.length)
  else
    let magic := raw.take 4
    let version := unpackUInt ((raw.drop 4).take 2)
    let algorithm := unpackUInt ((raw.drop 6).take 2)
    let chunkSize := unpackUInt ((raw.drop 8).take 4)
    let salt := (raw.drop 12).take FILE_SALT_SIZE
    if magic ≠ MAGIC then .error (.badMagic magic)
    else if version ≠ HEADER_VERSION then
      .error (.unsupportedVersion version)
    else
      match Algorithm.ofId? algorithm with
      | none => .error (.unsupportedAlgorithm algorithm)
      | some algorithm =>
          if chunkSize = 0 ∨ CHUNK_SIZE_CEILING < chunkSize then
            .error (.invalidChunkSize chunkSize)
          else
            .ok
              { version := version
                algorithm := algorithm
                chunkSize := chunkSize
                fileSalt := salt }

def verify (primitives : CryptoPrimitives) (raw key : Bytes) :
    Except CryptoError Unit :=
  if raw.length < HEADER_SIZE then .error (.headerTooShort raw.length)
  else if (raw.drop BODY_SIZE).take HEADER_MAC_SIZE =
      tag primitives key (raw.take BODY_SIZE) then .ok ()
  else .error .macFailed

variable {primitives : CryptoPrimitives} {header : FileHeader}
  {key : Bytes}

theorem packBody_length {body : Bytes} (packed : header.packBody = some body) :
    body.length = BODY_SIZE := by
  unfold packBody at packed
  split at packed
  · cases packed
    simp only [List.length_append, packBytes_length, packUInt_length]
    rfl
  · cases packed

variable {raw : Bytes}

theorem serialize_fits (serialized : header.serialize primitives key = .ok raw)
    : header.chunkSize < 0x100000000 := by
  unfold serialize at serialized
  split at serialized
  · cases serialized
  · rename_i body packed
    unfold packBody at packed
    split at packed
    · rename_i fits
      exact fits.2.2
    · cases packed

theorem serialize_length (lawful : primitives.Lawful)
    (serialized : header.serialize primitives key = .ok raw) :
    raw.length = HEADER_SIZE := by
  unfold serialize at serialized
  split at serialized
  · cases serialized
  · rename_i body packed
    cases serialized
    rw [List.length_append, packBody_length packed, tag, List.length_take,
      lawful.hmac_length]
    rfl

theorem serialize_magic
    (serialized : header.serialize primitives key = .ok raw) :
    raw.take MAGIC.length = MAGIC := by
  unfold serialize at serialized
  split at serialized
  · cases serialized
  · rename_i body packed
    cases serialized
    unfold packBody at packed
    split at packed
    · cases packed
      simp only [List.append_assoc]
      exact List.take_left' rfl
    · cases packed

theorem verify_serialize (lawful : primitives.Lawful)
    (serialized : header.serialize primitives key = .ok raw) :
    verify primitives raw key = .ok () := by
  have length := serialize_length lawful serialized
  unfold serialize at serialized
  split at serialized
  · cases serialized
  · rename_i body packed
    cases serialized
    have bodyLength := packBody_length packed
    have tagLength : (tag primitives key body).length = HEADER_MAC_SIZE := by
      rw [tag, List.length_take, lawful.hmac_length]
      rfl
    rw [verify, if_neg (by omega), List.drop_left' bodyLength,
      List.take_left' bodyLength, List.take_of_length_le (by omega),
      if_pos rfl]

/-- What the parser makes of a header that `new` and `serialize` wrote. -/
theorem parse_serialize (lawful : primitives.Lawful) {chunkSize : Int}
    {salt : Bytes} (salted : salt.length = FILE_SALT_SIZE)
    (positive : 0 < chunkSize)
    (serialized : (new chunkSize salt).serialize primitives key = .ok raw) :
    parse raw =
      if chunkSize ≤ CHUNK_SIZE_CEILING then .ok (new chunkSize salt)
      else .error (.invalidChunkSize chunkSize.toNat) := by
  have length := serialize_length lawful serialized
  unfold serialize at serialized
  split at serialized
  · cases serialized
  · rename_i body packed
    cases serialized
    unfold packBody at packed
    split at packed
    · rename_i fits
      cases packed
      obtain ⟨_, _, bounded⟩ := fits
      have size : chunkSize.toNat < 0x100000000 := by
        change chunkSize < 0x100000000 at bounded
        omega
      have magic : packBytes 4 MAGIC = MAGIC := packBytes_exact rfl
      have saltBytes : packBytes FILE_SALT_SIZE salt = salt :=
        packBytes_exact salted
      simp only [new, magic, saltBytes] at length ⊢
      simp only [List.append_assoc] at length ⊢
      generalize tag primitives key _ = mac at length ⊢
      have afterMagic : ∀ rest : Bytes, (MAGIC ++ rest).drop 4 = rest :=
        fun rest => rfl
      have afterVersion : ∀ rest : Bytes,
          (packUInt 2 HEADER_VERSION ++ rest).drop 2 = rest :=
        fun rest => List.drop_left' (packUInt_length 2 _)
      have afterAlgorithm : ∀ rest : Bytes,
          (packUInt 2 Algorithm.aes256Gcm.id ++ rest).drop 2 = rest :=
        fun rest => List.drop_left' (packUInt_length 2 _)
      have afterSize : ∀ rest : Bytes,
          (packUInt 4 chunkSize.toNat ++ rest).drop 4 = rest :=
        fun rest => List.drop_left' (packUInt_length 4 _)
      rw [parse, if_neg (by omega)]
      have six : ∀ bytes : Bytes, bytes.drop 6 = (bytes.drop 4).drop 2 :=
        fun bytes => by rw [List.drop_drop]
      have eight : ∀ bytes : Bytes, bytes.drop 8 = (bytes.drop 6).drop 2 :=
        fun bytes => by rw [List.drop_drop]
      have twelve : ∀ bytes : Bytes, bytes.drop 12 = (bytes.drop 8).drop 4 :=
        fun bytes => by rw [List.drop_drop]
      simp only [twelve, eight, six, afterMagic, afterVersion,
        afterAlgorithm, afterSize, List.take_left' (packUInt_length _ _),
        List.take_left' salted,
        unpackUInt_packUInt_two (show HEADER_VERSION < 0x10000 by decide),
        unpackUInt_packUInt_two
          (show Algorithm.aes256Gcm.id < 0x10000 by decide),
        unpackUInt_packUInt_four size]
      have takeMagic : ∀ rest : Bytes, (MAGIC ++ rest).take 4 = MAGIC :=
        fun rest => rfl
      simp only [takeMagic, ne_eq, not_true_eq_false, if_false,
        Algorithm.ofId?, Algorithm.id, if_true]
      by_cases small : chunkSize ≤ CHUNK_SIZE_CEILING
      · rw [if_pos small, if_neg (by omega),
          Int.toNat_of_nonneg (by omega)]
      · rw [if_neg small, if_pos (.inr (by omega))]
    · cases packed

end FileHeader

end Tgdcfs
