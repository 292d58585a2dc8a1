import Tgdcfs.Crypto.Range

/-!
# Versions written under a master key

A written version has a salt, a chunk size and a plaintext; its stored bytes
are the header and the sealed chunks.  `save` writes such versions.  Any
stored bytes can be read as a written version: what comes out is its
plaintext as far as the chunks decrypt.
-/

namespace Tgdcfs

theorem ChunkedAESGCM.encryptor_congr {primitives : CryptoPrimitives}
    {cipher : ChunkedAESGCM} {raw other : Bytes} (same : raw = other)
    (sized : raw.length = HEADER_SIZE) (resized : other.length = HEADER_SIZE) :
    cipher.encryptor primitives raw sized =
      cipher.encryptor primitives other resized := by
  subst same
  rfl

theorem ChunkedAESGCM.encryptor_lawful {primitives : CryptoPrimitives}
    (lawful : primitives.Lawful) (cipher : ChunkedAESGCM) {raw : Bytes}
    (sized : raw.length = HEADER_SIZE) :
    (cipher.encryptor primitives raw sized).Lawful := by
  refine ⟨fun nonce plaintext => lawful.encrypt_length _ nonce plaintext, ?_⟩
  intro nonce first second same
  have undone := congrArg (primitives.decrypt cipher.fileKey nonce) same
  change primitives.decrypt cipher.fileKey nonce
      (primitives.encrypt cipher.fileKey nonce first) =
    primitives.decrypt cipher.fileKey nonce
      (primitives.encrypt cipher.fileKey nonce second) at undone
  rw [lawful.decrypt_encrypt, lawful.decrypt_encrypt] at undone
  exact Option.some.inj undone

structure WrittenVersion where
  chunkSize : Nat
  salt : Bytes
  content : Bytes
  chunkSize_pos : 0 < chunkSize
  chunkSize_fits : chunkSize < 0x100000000
  salt_length : salt.length = FILE_SALT_SIZE
  indexed : content.length ≤ MAX_CHUNKS * chunkSize

namespace WrittenVersion

def header (version : WrittenVersion) : FileHeader :=
  FileHeader.new version.chunkSize version.salt

def fileKey (primitives : CryptoPrimitives) (master : Bytes)
    (version : WrittenVersion) : Bytes :=
  primitives.deriveFileKey master version.salt

/-- The fields of the header, which all fit. -/
def headerBody (version : WrittenVersion) : Bytes :=
  version.header.packBody.getD []

/-- The serialized header. -/
def rawHeader (primitives : CryptoPrimitives) (master : Bytes)
    (version : WrittenVersion) : Bytes :=
  version.headerBody ++ FileHeader.tag primitives
    (version.fileKey primitives master) version.headerBody

variable {primitives : CryptoPrimitives} (lawful : primitives.Lawful)
  (master : Bytes) (version : WrittenVersion)

def cipher : ChunkedAESGCM :=
  { fileKey := version.fileKey primitives master
    fileSalt := version.salt
    chunkSize := version.chunkSize
    key_length := lawful.key_length master version.salt
    salt_length := by
      rw [version.salt_length]
      decide
    chunkSize_pos := version.chunkSize_pos }

theorem new_cipher : ChunkedAESGCM.new (version.fileKey primitives master)
    version.header.fileSalt version.header.chunkSize =
      .ok (version.cipher lawful master) := by
  have salted : 4 ≤ version.header.fileSalt.length := by
    change 4 ≤ version.salt.length
    rw [version.salt_length]
    decide
  have positive : 0 < version.header.chunkSize := by
    have natural := version.chunkSize_pos
    change 0 < (version.chunkSize : Int)
    omega
  have keyed : (version.fileKey primitives master).length = 32 :=
    lawful.key_length master version.salt
  rw [ChunkedAESGCM.new, dif_pos keyed, dif_pos salted, dif_pos positive]
  rfl

theorem packBody_header : version.header.packBody =
    some version.headerBody := by
  have positive : (0 : Int) ≤ version.chunkSize := Int.natCast_nonneg _
  have fits : (version.chunkSize : Int) < 0x100000000 := by
    have natural := version.chunkSize_fits
    omega
  have packs : ∃ body, version.header.packBody = some body :=
    ⟨_, if_pos ⟨show HEADER_VERSION < 0x10000 by decide, positive, fits⟩⟩
  obtain ⟨body, packed⟩ := packs
  rw [headerBody, packed, Option.getD_some]

theorem serialize_header : version.header.serialize primitives
    (version.fileKey primitives master) =
      .ok (version.rawHeader primitives master) := by
  rw [FileHeader.serialize, packBody_header, rawHeader]

include lawful in
theorem rawHeader_length :
    (version.rawHeader primitives master).length = HEADER_SIZE :=
  FileHeader.serialize_length lawful (version.serialize_header master)

/-- The version as the encrypting message produces it. -/
def encryptor : ChunkCipher :=
  (version.cipher lawful master).encryptor primitives
    (version.rawHeader primitives master)
    (version.rawHeader_length lawful master)

/-- The bytes of the version in its store. -/
def stored : Bytes := (version.encryptor lawful master).sealedSource
  version.content

/-- The plaintext of a chunk. -/
def plainChunk (index : Nat) : Bytes :=
  (version.content.drop (index * version.chunkSize)).take version.chunkSize

/-- A chunk as it is stored. -/
def sealedChunk (index : Nat) : Bytes :=
  (version.encryptor lawful master).sealChunk index
    (version.plainChunk index)

/-- The bytes another byte string has at the place of a chunk. -/
def window (bytes : Bytes) (index : Nat) : Bytes :=
  DecryptPlan.window (version.cipher lawful master) bytes index

theorem encryptor_lawful : (version.encryptor lawful master).Lawful :=
  (version.cipher lawful master).encryptor_lawful lawful _

theorem stored_length : (version.stored lawful master).length =
    HEADER_SIZE + (version.encryptor lawful master).ciphertextSize
      version.content.length :=
  sealedSource_length (version.encryptor_lawful lawful master)

theorem stored_ne_nil : (version.stored lawful master).length ≠ 0 := by
  have header : HEADER_SIZE = 60 := rfl
  rw [stored_length]
  omega

theorem stored_take_header : (version.stored lawful master).take HEADER_SIZE =
    version.rawHeader primitives master := by
  rw [stored, ChunkCipher.sealedSource, ChunkCipher.emits]
  exact List.take_left' (version.rawHeader_length lawful master)

theorem plaintextSize_stored :
    plaintextSize (version.stored lawful master).length version.chunkSize =
      .ok version.content.length :=
  (congrArg (plaintextSize · version.chunkSize)
    (version.stored_length lawful master)).trans
      (plaintextSize_ciphertextSize (version.encryptor lawful master) _)

theorem sealedChunk_length (index : Nat) :
    (version.sealedChunk lawful master index).length =
      (version.plainChunk index).length + CHUNK_OVERHEAD :=
  ChunkCipher.sealChunk_length (version.encryptor_lawful lawful master) index _

variable {version}

theorem decryptChunk_sealed {index : Nat}
    (small : index ≤ 0xFFFFFFFFFFFFFFFF) :
    (version.cipher lawful master).decryptChunk primitives
      (version.sealedChunk lawful master index) index =
        .ok (version.plainChunk index) := by
  have length := version.sealedChunk_length lawful master index
  have nonceLength : ((version.cipher lawful master).nonce index).length =
      NONCE_SIZE := by
    have salted := (version.cipher lawful master).salt_length
    rw [ChunkedAESGCM.nonce, List.length_append, List.length_take,
      packUInt64, List.length_map, List.length_range]
    unfold NONCE_SIZE
    omega
  have shape : version.sealedChunk lawful master index =
      (version.cipher lawful master).nonce index ++
        primitives.encrypt (version.fileKey primitives master)
          ((version.cipher lawful master).nonce index)
          (version.plainChunk index) := rfl
  rw [ChunkedAESGCM.decryptChunk, if_neg (by omega),
    if_neg (Nat.not_lt.mpr small), shape, List.take_left' nonceLength,
    if_neg (not_not_intro rfl), List.drop_left' nonceLength,
    show (version.cipher lawful master).fileKey =
      version.fileKey primitives master from rfl,
    lawful.decrypt_encrypt]

theorem window_stored {index : Nat}
    (inside : index * version.chunkSize < version.content.length) :
    version.window lawful master (version.stored lawful master) index =
      version.sealedChunk lawful master index := by
  let encryptor := version.encryptor lawful master
  have sealed := version.encryptor_lawful lawful master
  have counted : index < encryptor.chunkCount version.content.length :=
    ChunkCipher.lt_chunkCount_iff.mpr inside
  have lengths : ∀ count, (encryptor.emits
      (encryptor.plainChunk version.content) count).length =
        encryptor.boundary version.content.length count := fun count =>
    ChunkCipher.emits_length sealed fun place _ =>
      ChunkCipher.plainChunk_length version.content place
  have place : encryptor.boundary version.content.length index =
      HEADER_SIZE + index * (version.cipher lawful master).stride := by
    change HEADER_SIZE + min version.content.length
      (index * version.chunkSize) + index * CHUNK_OVERHEAD =
        HEADER_SIZE + index * (version.chunkSize + CHUNK_OVERHEAD)
    rw [Nat.mul_add]
    omega
  obtain ⟨rest, whole⟩ := emits_isPrefix
    (encryptor.plainChunk version.content)
    (show index + 1 ≤ encryptor.chunkCount version.content.length
      from counted)
  have shape : version.stored lawful master =
      encryptor.emits (encryptor.plainChunk version.content) index ++
        (version.sealedChunk lawful master index ++ rest) := by
    rw [ChunkCipher.emits_succ, List.append_assoc] at whole
    exact whole.symm
  have chunkLength : (version.sealedChunk lawful master index).length =
      min version.chunkSize (version.content.length -
        index * version.chunkSize) + CHUNK_OVERHEAD := by
    rw [sealedChunk_length, plainChunk, List.length_take, List.length_drop]
  rw [window, DecryptPlan.window, ← place, shape,
    List.drop_left' (lengths index)]
  by_cases full : (index + 1) * version.chunkSize ≤ version.content.length
  · rw [List.take_left']
    rw [chunkLength]
    change _ = version.chunkSize + CHUNK_OVERHEAD
    rw [Nat.add_mul, Nat.one_mul] at full
    omega
  · -- The last chunk is short, and nothing follows it.
    have last : encryptor.chunkCount version.content.length = index + 1 := by
      apply Nat.le_antisymm
      · apply Nat.le_of_not_lt
        intro more
        have beyond := ChunkCipher.lt_chunkCount_iff.mp more
        change (index + 1) * version.chunkSize < _ at beyond
        omega
      · exact counted
    have nothing : rest = [] := by
      have total := congrArg List.length whole
      rw [List.length_append, lengths, lengths, last] at total
      exact List.eq_nil_of_length_eq_zero (by omega)
    rw [nothing, List.append_nil, List.take_of_length_le]
    rw [chunkLength]
    change _ ≤ version.chunkSize + CHUNK_OVERHEAD
    omega

/-- The bytes at the place of a chunk decrypt. -/
def Decrypts (version : WrittenVersion) (bytes : Bytes) (index : Nat) :
    Prop :=
  ∃ plaintext, (version.cipher lawful master).decryptChunk primitives
    (version.window lawful master bytes index) index = .ok plaintext

/-- Where the bytes decrypt they hold the plaintext of the version. -/
def GenuineIn (version : WrittenVersion) (bytes : Bytes) : Prop :=
  ∀ index plaintext, (version.cipher lawful master).decryptChunk primitives
      (version.window lawful master bytes index) index = .ok plaintext →
    plaintext = version.plainChunk index ∧
      plaintext.length + CHUNK_OVERHEAD =
        (version.window lawful master bytes index).length

/-- The number of chunks a range reaches into. -/
def chunksOf (version : WrittenVersion) (begin_ last : Nat) : Nat :=
  last / version.chunkSize - begin_ / version.chunkSize + 1

/-- The beginning of a range that lies in its first `count` chunks. -/
def beginning (version : WrittenVersion) (begin_ last count : Nat) : Bytes :=
  (version.content.drop begin_).take (min (last - begin_ + 1)
    (count * version.chunkSize - begin_ % version.chunkSize))

theorem beginning_all {begin_ last : Nat} (ordered : begin_ ≤ last) :
    version.beginning begin_ last (version.chunksOf begin_ last) =
      byteRange version.content begin_ last := by
  have positive := version.chunkSize_pos
  have first := Nat.div_add_mod begin_ version.chunkSize
  have final := Nat.div_add_mod last version.chunkSize
  have short := Nat.mod_lt last positive
  have span := Nat.mul_le_mul_right version.chunkSize
    (Nat.div_le_div_right (c := version.chunkSize) ordered)
  rw [Nat.mul_comm] at first final
  rw [beginning, byteRange, chunksOf, Nat.add_mul, Nat.one_mul, Nat.sub_mul]
  congr 1
  omega

/-- The range up to the first chunk that does not decrypt. -/
theorem decryptingStream_reads {bytes : Bytes} {total begin_ last : Nat}
    (genuine : version.GenuineIn lawful master bytes)
    (sized : plaintextSize bytes.length version.chunkSize = .ok total)
    (ordered : begin_ ≤ last) (inside : last < total)
    {inner : ByteStream CryptoError}
    (whole : inner.chunks.flatten = DecryptPlan.ciphertext
      (version.cipher lawful master) bytes begin_ last)
    (healthy : inner.error = none) :
    ∃ count ≤ version.chunksOf begin_ last,
      (∀ place < count, version.Decrypts lawful master bytes
        (begin_ / version.chunkSize + place)) ∧
      (count < version.chunksOf begin_ last →
        ¬version.Decrypts lawful master bytes
          (begin_ / version.chunkSize + count)) ∧
      (decryptingStream primitives (version.cipher lawful master)
        (EncryptingRepository.decryptPlan version.chunkSize begin_ last)
        inner).chunks.flatten = version.beginning begin_ last count ∧
      ((decryptingStream primitives (version.cipher lawful master)
        (EncryptingRepository.decryptPlan version.chunkSize begin_ last)
        inner).error = none ↔ count = version.chunksOf begin_ last) := by
  have begins : HEADER_SIZE + last / (version.cipher lawful master).chunkSize *
      (version.cipher lawful master).stride < bytes.length :=
    chunk_begins_inside sized inside
  have covers := DecryptPlan.covers_range ordered begins
  have place_eq : ∀ place < version.chunksOf begin_ last,
      DecryptPlan.blob (version.cipher lawful master)
        (DecryptPlan.ciphertext (version.cipher lawful master) bytes begin_
          last) place =
        version.window lawful master bytes
          (begin_ / version.chunkSize + place) := fun place planned =>
    DecryptPlan.blob_ciphertext ordered begins planned
  have genuinePlan : (EncryptingRepository.decryptPlan
      (version.cipher lawful master).chunkSize begin_ last).Genuine primitives
        (version.cipher lawful master)
        (DecryptPlan.ciphertext (version.cipher lawful master) bytes begin_
          last) version.plainChunk := by
    intro place planned plaintext decrypts
    rw [place_eq place planned] at decrypts ⊢
    exact genuine _ plaintext decrypts
  obtain ⟨ended, ⟨count, bound, intact, failing, out, complete⟩, error⟩ :=
    decryptingStream_spec covers genuinePlan whole healthy
  have opened : ∀ place < version.chunksOf begin_ last,
      ((EncryptingRepository.decryptPlan
        (version.cipher lawful master).chunkSize begin_ last).Intact
          primitives (version.cipher lawful master)
          (DecryptPlan.ciphertext (version.cipher lawful master) bytes begin_
            last) place ↔
        version.Decrypts lawful master bytes
          (begin_ / version.chunkSize + place)) := by
    intro place planned
    rw [DecryptPlan.Intact, place_eq place planned]
    rfl
  refine ⟨count, bound, ?_, ?_, ?_, ?_⟩
  · intro place smaller
    exact (opened place (Nat.lt_of_lt_of_le smaller bound)).mp
      (intact place smaller)
  · intro early decrypts
    exact failing early ((opened count early).mpr decrypts)
  · exact out.trans (DecryptPlan.delivered_range
      (version.encryptor lawful master) version.content rfl count)
  · change (decryptingStream primitives (version.cipher lawful master)
      (EncryptingRepository.decryptPlan
        (version.cipher lawful master).chunkSize begin_ last)
      inner).error = none ↔ _
    rw [error]
    refine Iff.trans ?_ complete
    cases ended with
    | returned => exact ⟨fun _ => rfl, fun _ => rfl⟩
    | raised error =>
        constructor
        · intro absurd
          cases absurd
        · intro absurd
          cases absurd

end WrittenVersion

end Tgdcfs
