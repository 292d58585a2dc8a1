import Tgdcfs.Crypto.Written

/-!
# Reading back what was saved

A version that `save` has written is read back, range by range, exactly when
the parser accepts its chunk size.  The writer knows no such limit: every
chunk size that fits its field is written.
-/

namespace Tgdcfs

open Lib

/-- The bytes of a plaintext from `begin` to `end`, both inclusive, as far as
there are any; a negative end is the end of the file. -/
def plaintextRange (content : Bytes) (begin_ end_ : Int) : Bytes :=
  let last := if end_ < 0 then (content.length : Int) - 1
    else min end_ (content.length - 1)
  (content.drop begin_.toNat).take (last + 1 - begin_).toNat

/-- The inner repository answers with the stored bytes, in any pieces, and
refuses a range that is empty or begins before the file. -/
def Serves (stored : Bytes) (inner : InnerGet) : Prop :=
  ∀ begin_ end_,
    if begin_ < 0 ∨ EncryptingRepository.clampEnd stored.length end_ < begin_
    then ∃ error, inner begin_ end_ = .error error
    else ∃ stream, inner begin_ end_ = .ok stream ∧ stream.error = none ∧
      stream.chunks.flatten = byteRange stored begin_.toNat
        (EncryptingRepository.clampEnd stored.length end_).toNat

namespace EncryptingRepository

variable {primitives : CryptoPrimitives} {repo : EncryptingRepository}

/-- The header caches that calls on a store of files lead to. -/
inductive Reached (primitives : CryptoPrimitives)
    (repo : EncryptingRepository) (files : String → Bytes) :
    HeaderCache → Prop where
  | empty : Reached primitives repo files .empty
  | get {cache : HeaderCache} (earlier : Reached primitives repo files cache)
      (id name : String) (begin_ end_ : Int) (inner : InnerGet)
      (serves : Serves (files id) inner) :
      Reached primitives repo files (repo.get primitives cache id
        (files id).length name begin_ end_ inner).1
  | contentLength {cache : HeaderCache}
      (earlier : Reached primitives repo files cache) (id : String)
      (inner : InnerGet) (serves : Serves (files id) inner) :
      Reached primitives repo files (repo.contentLength primitives cache id
        (files id).length inner).1

theorem probe_flatten {target : Nat} {failure : Option CryptoError}
    (healthy : failure = none) (pieces : List Bytes) (buf : Bytes)
    (exact_ : (buf ++ pieces.flatten).length = target) :
    probe target failure pieces buf = .ok (buf ++ pieces.flatten) := by
  induction pieces generalizing buf with
  | nil =>
      subst healthy
      simp [probe]
  | cons piece pieces induction =>
      rw [List.flatten_cons, ← List.append_assoc] at exact_ ⊢
      unfold probe
      split
      · rename_i enough
        rw [List.length_append] at exact_
        have rest : pieces.flatten = [] :=
          List.eq_nil_of_length_eq_zero (by omega)
        rw [rest, List.append_nil]
      · exact induction _ exact_

variable {end_ : Int}

theorem clampEnd_inside {total : Nat} (low : 0 ≤ end_) (high : end_ < total) :
    clampEnd total end_ = end_ := by
  rw [clampEnd, if_neg (by omega)]

variable {inner : InnerGet}

/-- The probe of a file that is not cached reads its first bytes. -/
theorem probe_serves {bytes : Bytes} (serves : Serves bytes inner)
    (long : MAGIC.length ≤ bytes.length) :
    ∃ stream,
      inner 0 ((min HEADER_SIZE bytes.length : Nat) - 1) = .ok stream ∧
      probe (min HEADER_SIZE bytes.length) stream.error stream.chunks [] =
        .ok (bytes.take HEADER_SIZE) := by
  have header : HEADER_SIZE = 60 := rfl
  have magic : MAGIC.length = 4 := rfl
  have asked := serves 0 ((min HEADER_SIZE bytes.length : Nat) - 1)
  have clamped : clampEnd bytes.length
      ((min HEADER_SIZE bytes.length : Nat) - 1) =
        (min HEADER_SIZE bytes.length : Nat) - 1 :=
    clampEnd_inside (by omega) (by omega)
  rw [clamped, if_neg (by omega)] at asked
  obtain ⟨stream, answered, healthy, whole⟩ := asked
  have front : stream.chunks.flatten = bytes.take HEADER_SIZE := by
    rw [whole, byteRange, Int.toNat_zero, List.drop_zero,
      List.take_eq_take_iff]
    omega
  refine ⟨stream, answered, ?_⟩
  rw [probe_flatten healthy, List.nil_append, front]
  rw [List.nil_append, front, List.length_take]

section Fresh

variable {cache : HeaderCache} {id name : String} {bytes : Bytes}
  {inner : InnerGet} (serves : Serves bytes inner)
  (fresh : cache.lookup id = none) (long : MAGIC.length ≤ bytes.length)
include serves fresh long

theorem detect_ok {entry : Option (FileHeader × Bytes)}
    (found : repo.classify primitives name (bytes.take HEADER_SIZE) =
      .ok entry) :
    repo.detect primitives cache id bytes.length name inner =
      (cache.put id entry, .ok entry) := by
  obtain ⟨stream, answered, probed⟩ := probe_serves serves long
  unfold detect
  rw [fresh]
  dsimp only
  rw [if_neg (Nat.not_lt.mpr long), answered]
  dsimp only
  rw [probed]
  dsimp only
  rw [found]

theorem detect_error {error : CryptoError}
    (found : repo.classify primitives name (bytes.take HEADER_SIZE) =
      .error error) :
    repo.detect primitives cache id bytes.length name inner =
      (cache, .error error) := by
  obtain ⟨stream, answered, probed⟩ := probe_serves serves long
  unfold detect
  rw [fresh]
  dsimp only
  rw [if_neg (Nat.not_lt.mpr long), answered]
  dsimp only
  rw [probed]
  dsimp only
  rw [found]

end Fresh

/-- A cache agrees with the store: an entry of the file is what a probe of
it would find. -/
def Agrees (primitives : CryptoPrimitives) (repo : EncryptingRepository)
    (files : String → Bytes) (cache : HeaderCache) : Prop :=
  ∀ id entry, cache.lookup id = some entry →
    repo.classify primitives "" ((files id).take HEADER_SIZE) = .ok entry

variable {name : String} {entry : Option (FileHeader × Bytes)}

theorem classify_ok_name {other : String} {buf : Bytes}
    (found : repo.classify primitives name buf = .ok entry) :
    repo.classify primitives other buf = .ok entry := by
  unfold classify at found ⊢
  split at found
  · rename_i plain
    rw [if_pos plain]
    exact found
  · rename_i magic
    rw [if_neg magic]
    split at found
    · cases found
    · rename_i long
      rw [if_neg long]
      exact found

theorem classify_short {buf : Bytes} (short : buf.length < MAGIC.length) :
    repo.classify primitives name buf = .ok none := by
  rw [classify, if_pos (.inl short)]

variable {cache : HeaderCache} {id : String}

theorem lookup_put {other : String} {found : Option (FileHeader × Bytes)}
    (inside : (cache.put id entry).lookup other = some found) :
    (other = id ∧ found = entry) ∨ cache.lookup other = some found := by
  unfold HeaderCache.put at inside
  unfold HeaderCache.lookup at inside ⊢
  split at inside
  · exact .inr inside
  · split at inside
    · split at inside
      · rw [Dict.get?_set] at inside
        split at inside
        · rename_i same
          exact .inl ⟨same, (Option.some.inj inside).symm⟩
        · exact .inr inside
      · rw [Dict.get?_set] at inside
        split at inside
        · rename_i same
          exact .inl ⟨same, (Option.some.inj inside).symm⟩
        · rw [Dict.get?_erase] at inside
          split at inside
          · cases inside
          · exact .inr inside
    · rw [Dict.get?_set] at inside
      split at inside
      · rename_i same
        exact .inl ⟨same, (Option.some.inj inside).symm⟩
      · exact .inr inside

variable {files : String → Bytes}

theorem Agrees.put (agrees : Agrees primitives repo files cache)
    (found : repo.classify primitives "" ((files id).take HEADER_SIZE) =
      .ok entry) : Agrees primitives repo files (cache.put id entry) := by
  intro other value inside
  rcases lookup_put inside with ⟨rfl, rfl⟩ | earlier
  · exact found
  · exact agrees other value earlier

theorem Agrees.detect (agrees : Agrees primitives repo files cache)
    (name : String) (serves : Serves (files id) inner) :
    Agrees primitives repo files (repo.detect primitives cache id
      (files id).length name inner).1 := by
  cases fresh : cache.lookup id with
  | some entry =>
      unfold EncryptingRepository.detect
      rw [fresh]
      exact agrees
  | none =>
      by_cases long : MAGIC.length ≤ (files id).length
      · cases found : repo.classify primitives name
            ((files id).take HEADER_SIZE) with
        | error error =>
            rw [detect_error serves fresh long found]
            exact agrees
        | ok entry =>
            rw [detect_ok serves fresh long found]
            exact agrees.put (classify_ok_name found)
      · unfold EncryptingRepository.detect
        rw [fresh]
        dsimp only
        rw [if_pos (Nat.lt_of_not_le long)]
        refine agrees.put (classify_short ?_)
        rw [List.length_take]
        omega

variable {size : Nat} {begin_ : Int}

theorem get_cache (filled : size ≠ 0) :
    (repo.get primitives cache id size name begin_ end_ inner).1 =
      (repo.detect primitives cache id size name inner).1 := by
  unfold get
  rw [if_neg filled]
  generalize repo.detect primitives cache id size name inner = detected
  obtain ⟨next, result⟩ := detected
  cases result with
  | error error => rfl
  | ok entry =>
      cases entry with
      | none => rfl
      | some entry => rfl

theorem contentLength_cache (filled : size ≠ 0) :
    (repo.contentLength primitives cache id size inner).1 =
      (repo.detect primitives cache id size "" inner).1 := by
  unfold contentLength
  rw [if_neg filled]
  generalize repo.detect primitives cache id size "" inner = detected
  obtain ⟨next, result⟩ := detected
  cases result with
  | error error => rfl
  | ok entry =>
      cases entry with
      | none => rfl
      | some entry => rfl

/-- Every call leaves the cache in agreement with the store. -/
theorem Reached.agrees (reached : Reached primitives repo files cache) :
    Agrees primitives repo files cache := by
  induction reached with
  | empty =>
      intro id entry absurd
      cases absurd
  | @get cache _ id name begin_ end_ inner serves agrees =>
      by_cases empty : (files id).length = 0
      · rw [EncryptingRepository.get, if_pos empty]
        exact agrees
      · rw [get_cache empty]
        exact agrees.detect name serves
  | @contentLength cache _ id inner serves agrees =>
      by_cases empty : (files id).length = 0
      · rw [EncryptingRepository.contentLength, if_pos empty]
        exact agrees
      · rw [contentLength_cache empty]
        exact agrees.detect "" serves

/-- Whatever was called before, a file is taken for what its first bytes
say. -/
theorem detect_reached (reached : Reached primitives repo files cache)
    (serves : Serves (files id) inner)
    (long : MAGIC.length ≤ (files id).length)
    (found : repo.classify primitives "" ((files id).take HEADER_SIZE) =
      .ok entry) :
    (repo.detect primitives cache id (files id).length name inner).2 =
      .ok entry := by
  cases fresh : cache.lookup id with
  | some cached =>
      have same := reached.agrees id cached fresh
      rw [found] at same
      unfold detect
      rw [fresh]
      exact congrArg Except.ok (Except.ok.inj same).symm
  | none =>
      have named : repo.classify primitives name
          ((files id).take HEADER_SIZE) = .ok entry := classify_ok_name found
      rw [detect_ok serves fresh long named]

variable {header : FileHeader}

theorem classify_header {raw : Bytes} (magic : raw.take MAGIC.length = MAGIC)
    (length : raw.length = HEADER_SIZE)
    (parsed : FileHeader.parse raw = .ok header)
    (verified : FileHeader.verify primitives raw
      (primitives.deriveFileKey repo.masterKey header.fileSalt) = .ok ()) :
    repo.classify primitives name raw =
      .ok (some (header,
        primitives.deriveFileKey repo.masterKey header.fileSalt)) := by
  have small : MAGIC.length ≤ HEADER_SIZE := by decide
  have marked : ¬(raw.length < MAGIC.length ∨
      raw.take MAGIC.length ≠ MAGIC) := by
    rintro (short | other)
    · omega
    · exact other magic
  rw [classify, if_neg marked, if_neg (by omega),
    List.take_of_length_le (Nat.le_of_eq length), parsed]
  dsimp only
  rw [verified]

theorem classify_unparsed {raw : Bytes} {error : CryptoError}
    (magic : raw.take MAGIC.length = MAGIC) (length : raw.length = HEADER_SIZE)
    (parsed : FileHeader.parse raw = .error error) :
    repo.classify primitives name raw = .error error := by
  have small : MAGIC.length ≤ HEADER_SIZE := by decide
  have marked : ¬(raw.length < MAGIC.length ∨
      raw.take MAGIC.length ≠ MAGIC) := by
    rintro (short | other)
    · omega
    · exact other magic
  rw [classify, if_neg marked, if_neg (by omega),
    List.take_of_length_le (Nat.le_of_eq length), parsed]

/-- An encrypting message that is read once from one end to the other hands
out the ciphertext of its source. -/
theorem uploadPart_sealedSource {cipher : ChunkCipher}
    (lawful : cipher.Lawful) {kind : SourceKind} {chunks : List Bytes}
    {lengths : List Nat} {ended : EncryptingMessage SourceMessage}
    {data : Bytes}
    (whole : lengths.sum = HEADER_SIZE +
      cipher.ciphertextSize chunks.flatten.length)
    (sent : uploadPart (EncryptingMessage.operations cipher
        SourceMessage.operations) lengths
      (EncryptingMessage.wrap cipher SourceMessage.operations
        (kind.new chunks)) = some (ended, data)) :
    data = cipher.sealedSource chunks.flatten ∧
      cipher.chunkCount chunks.flatten.length ≤ MAX_CHUNKS := by
  have total : cipher.boundary chunks.flatten.length
      (cipher.chunkCount chunks.flatten.length) = lengths.sum := by
    rw [ChunkCipher.boundary_chunkCount, whole]
  have untouched : Untouched (SupplyReady cipher kind chunks.flatten)
      (EncryptingMessage.wrap cipher SourceMessage.operations
        (kind.new chunks)) :=
    ⟨rfl, rfl, rfl, new_supplyReady cipher kind chunks⟩
  have opened : Emitted cipher chunks.flatten.length
      (Supplied cipher kind chunks.flatten)
      (fun index data => data = cipher.plainChunk chunks.flatten index) []
      ((EncryptingMessage.operations cipher SourceMessage.operations).open_
        (EncryptingMessage.wrap cipher SourceMessage.operations
          (kind.new chunks))) :=
    untouched.opens (source_reopens cipher kind chunks.flatten)
      (fun _ => .inl rfl) _
  obtain ⟨⟨last, read⟩, allRead, same⟩ := Option.map_eq_some_iff.mp sent
  cases same
  have inside : ([] : Bytes).length + lengths.sum ≤
      cipher.boundary chunks.flatten.length
        (cipher.chunkCount chunks.flatten.length) := by
    rw [total, List.length_nil, Nat.zero_add]
  have outcome := readAll_emits lawful
    (source_supplies cipher kind chunks.flatten) opened inside
  rw [allRead] at outcome
  obtain ⟨absurd, _⟩ | ⟨_, _, same, emitted, length⟩ := outcome
  · cases absurd
  · cases same
    rw [List.nil_append] at emitted
    have sourceLength : (cipher.sealedSource chunks.flatten).length =
        lengths.sum := by
      rw [sealedSource_length lawful, whole]
    exact ⟨emitted.isPrefix.eq_of_length (length.trans sourceLength.symm),
      (emitted.complete lawful (length.trans total.symm)).1⟩

section Written

variable (lawful : primitives.Lawful) (repo : EncryptingRepository)
  {version : WrittenVersion}
include lawful

/-- The header of a version is recognized when the parser accepts its chunk
size. -/
theorem classify_written (name : String)
    (accepted : version.chunkSize ≤ CHUNK_SIZE_CEILING) :
    repo.classify primitives name
        (version.rawHeader primitives repo.masterKey) =
      .ok (some (version.header,
        version.fileKey primitives repo.masterKey)) := by
  have serialized : version.header.serialize primitives
      (version.fileKey primitives repo.masterKey) = .ok
        (version.rawHeader primitives repo.masterKey) :=
    version.serialize_header repo.masterKey
  have positive : (0 : Int) < version.chunkSize :=
    Int.natCast_pos.mpr version.chunkSize_pos
  have parsed := FileHeader.parse_serialize lawful version.salt_length
    positive serialized
  rw [if_pos (Int.ofNat_le.mpr accepted)] at parsed
  exact classify_header (FileHeader.serialize_magic serialized)
    (FileHeader.serialize_length lawful serialized) parsed
    (FileHeader.verify_serialize lawful serialized)

theorem classify_refused (name : String)
    (refused : CHUNK_SIZE_CEILING < version.chunkSize) :
    repo.classify primitives name
        (version.rawHeader primitives repo.masterKey) =
      .error (.invalidChunkSize version.chunkSize) := by
  have serialized : version.header.serialize primitives
      (version.fileKey primitives repo.masterKey) = .ok
        (version.rawHeader primitives repo.masterKey) :=
    version.serialize_header repo.masterKey
  have positive : (0 : Int) < version.chunkSize :=
    Int.natCast_pos.mpr version.chunkSize_pos
  have parsed := FileHeader.parse_serialize lawful version.salt_length
    positive serialized
  rw [if_neg (by exact_mod_cast Nat.not_le.mpr refused),
    Int.toNat_natCast] at parsed
  exact classify_unparsed (FileHeader.serialize_magic serialized)
    (FileHeader.serialize_length lawful serialized) parsed

/-- `save` writes a version: its chunk size fits the header, and its stored
bytes are the ciphertext of the source. -/
theorem save_written {salt stored : Bytes}
    (salted : salt.length = FILE_SALT_SIZE) {kind : SourceKind}
    {chunks : List Bytes} {reads : Nat → List Nat}
    (whole : ∀ size, (reads size).sum = size)
    (saved : repo.save primitives salt (kind.new chunks) reads =
      .ok stored) :
    ∃ version : WrittenVersion, (version.chunkSize : Int) = repo.chunkSize ∧
      version.content = chunks.flatten ∧
      stored = version.stored lawful repo.masterKey := by
  unfold save at saved
  dsimp only at saved
  split at saved
  · cases saved
  · rename_i cipher made
    split at saved
    · cases saved
    · rename_i raw serialized
      split at saved
      · rename_i sized
        split at saved
        · cases saved
        · rename_i ended data uploaded
          cases saved
          have fits : repo.chunkSize < 0x100000000 :=
            FileHeader.serialize_fits serialized
          obtain ⟨positive, keyed, saltOf, chunkSizeOf⟩ :=
            ChunkedAESGCM.new_ok made
          change 0 < repo.chunkSize at positive
          change cipher.chunkSize = repo.chunkSize.toNat at chunkSizeOf
          have size : (EncryptingMessage.wrap
              (cipher.encryptor primitives raw sized)
              SourceMessage.operations (kind.new chunks)).size =
                HEADER_SIZE +
                  (cipher.encryptor primitives raw sized).ciphertextSize
                    chunks.flatten.length :=
            congrArg (HEADER_SIZE + ChunkCipher.ciphertextSize _ ·)
              (new_getSize kind chunks)
          obtain ⟨ciphertext, small⟩ := uploadPart_sealedSource
            (cipher.encryptor_lawful lawful sized)
            ((whole _).trans size) uploaded
          have indexed : chunks.flatten.length ≤
              MAX_CHUNKS * repo.chunkSize.toNat := by
            have covered := ChunkCipher.le_chunkCount_mul
              (cipher.encryptor primitives raw sized) chunks.flatten.length
            have bounded := Nat.mul_le_mul_right cipher.chunkSize small
            rw [chunkSizeOf] at bounded
            change _ ≤ _ * cipher.chunkSize at covered
            rw [chunkSizeOf] at covered
            exact covered.trans bounded
          obtain ⟨version, chunkSize_eq, salt_eq, content_eq⟩ :
              ∃ version : WrittenVersion,
                version.chunkSize = repo.chunkSize.toNat ∧
                version.salt = salt ∧ version.content = chunks.flatten :=
            ⟨{ chunkSize := repo.chunkSize.toNat
               salt := salt
               content := chunks.flatten
               chunkSize_pos := by omega
               chunkSize_fits := by omega
               salt_length := salted
               indexed := indexed }, rfl, rfl, rfl⟩
          have chunkSizeInt : (version.chunkSize : Int) = repo.chunkSize := by
            omega
          refine ⟨version, chunkSizeInt, content_eq, ?_⟩
          subst salt_eq
          have sameCipher : cipher = version.cipher lawful repo.masterKey :=
            ChunkedAESGCM.ext keyed saltOf
              (chunkSizeOf.trans chunkSize_eq.symm)
          subst sameCipher
          rw [← chunkSizeInt] at serialized
          have sameRaw : raw = version.rawHeader primitives repo.masterKey :=
            Except.ok.inj (serialized.symm.trans
              (version.serialize_header repo.masterKey))
          rw [WrittenVersion.stored, content_eq, ciphertext]
          exact congrArg (ChunkCipher.sealedSource · chunks.flatten)
            (ChunkedAESGCM.encryptor_congr sameRaw sized _)
      · cases saved

section Ranges

variable {bytes : Bytes} {total : Nat}
  (sized : plaintextSize bytes.length version.chunkSize = .ok total)
include sized

theorem getEncrypted_outside {begin_ end_ : Int} (inner : InnerGet)
    (outside : clampEnd total end_ < begin_ ∨ total ≤ begin_) :
    getEncrypted primitives version.header
        (version.fileKey primitives repo.masterKey) bytes.length begin_ end_
        inner = .ok ⟨[], none⟩ := by
  unfold getEncrypted
  rw [version.new_cipher lawful repo.masterKey]
  dsimp only
  rw [show (version.cipher lawful repo.masterKey).chunkSize =
    version.chunkSize from rfl, sized]
  dsimp only
  rw [if_pos outside]

theorem getEncrypted_inside {inner : InnerGet} (serves : Serves bytes inner)
    {begin_ last : Nat} {end_ : Int} (ordered : begin_ ≤ last)
    (inside : last < total) (clamped : clampEnd total end_ = last) :
    ∃ stream,
      getEncrypted primitives version.header
          (version.fileKey primitives repo.masterKey) bytes.length begin_
          end_ inner =
        .ok (decryptingStream primitives
          (version.cipher lawful repo.masterKey)
          (decryptPlan version.chunkSize begin_ last) stream) ∧
      stream.error = none ∧
      stream.chunks.flatten = DecryptPlan.ciphertext
        (version.cipher lawful repo.masterKey) bytes begin_ last := by
  have begins := chunk_begins_inside sized inside
  have chunks := Nat.mul_le_mul_right (version.chunkSize + CHUNK_OVERHEAD)
    (Nat.div_le_div_right (c := version.chunkSize) ordered)
  have next : (last / version.chunkSize + 1) *
      (version.chunkSize + CHUNK_OVERHEAD) =
      last / version.chunkSize * (version.chunkSize + CHUNK_OVERHEAD) +
        (version.chunkSize + CHUNK_OVERHEAD) := by
    rw [Nat.add_mul, Nat.one_mul]
  have overhead : 0 < CHUNK_OVERHEAD := by decide
  have asked := serves
    (HEADER_SIZE + begin_ / version.chunkSize *
      (version.cipher lawful repo.masterKey).stride : Nat)
    ((min (HEADER_SIZE + (last / version.chunkSize + 1) *
      (version.cipher lawful repo.masterKey).stride) bytes.length : Nat) - 1)
  rw [show (version.cipher lawful repo.masterKey).stride =
    version.chunkSize + CHUNK_OVERHEAD from rfl] at asked
  rw [clampEnd_inside (by omega) (by omega), if_neg (by omega)] at asked
  obtain ⟨stream, answered, healthy, whole⟩ := asked
  refine ⟨stream, ?_, healthy, ?_⟩
  · unfold getEncrypted
    rw [version.new_cipher lawful repo.masterKey]
    dsimp only
    rw [show (version.cipher lawful repo.masterKey).chunkSize =
      version.chunkSize from rfl, sized]
    dsimp only
    rw [clamped, if_neg (by omega), if_neg (by omega), Int.toNat_natCast,
      Int.toNat_natCast]
    rw [show (version.cipher lawful repo.masterKey).stride =
      version.chunkSize + CHUNK_OVERHEAD from rfl,
      show (decryptPlan version.chunkSize begin_ last).startChunk =
        begin_ / version.chunkSize from rfl, answered]
  · rw [whole, DecryptPlan.ciphertext, Int.toNat_natCast]
    congr 1
    change _ = min (HEADER_SIZE + (last / version.chunkSize + 1) *
      (version.chunkSize + CHUNK_OVERHEAD)) bytes.length - 1
    omega

end Ranges

end Written

theorem plaintextRange_eq (content : Bytes) (begin_ end_ : Int) :
    plaintextRange content begin_ end_ =
      (content.drop begin_.toNat).take
        (clampEnd content.length end_ + 1 - begin_).toNat := by
  have same : (if end_ < 0 then (content.length : Int) - 1
      else min end_ (content.length - 1)) =
        clampEnd content.length end_ := by
    unfold clampEnd
    split <;> split <;> omega
  rw [plaintextRange, same]

theorem plaintextRange_outside {content : Bytes}
    (outside : clampEnd content.length end_ < begin_ ∨
      content.length ≤ begin_) : plaintextRange content begin_ end_ = [] := by
  have bound : clampEnd content.length end_ < content.length := by
    unfold clampEnd
    split <;> omega
  rw [plaintextRange_eq, show (clampEnd content.length end_ + 1 -
    begin_).toNat = 0 by omega, List.take_zero]

theorem plaintextRange_inside {content : Bytes} {begin_ last : Nat}
    (clamped : clampEnd content.length end_ = last) :
    plaintextRange content begin_ end_ = byteRange content begin_ last := by
  rw [plaintextRange_eq, clamped, byteRange, Int.toNat_natCast]
  congr 1
  omega

theorem get_detected (filled : size ≠ 0) {key : Bytes}
    (detected : (repo.detect primitives cache id size name inner).2 =
      .ok (some (header, key))) :
    (repo.get primitives cache id size name begin_ end_ inner).2 =
      getEncrypted primitives header key size begin_ end_ inner := by
  unfold get
  rw [if_neg filled]
  generalize repo.detect primitives cache id size name inner = result
    at detected
  obtain ⟨next, found⟩ := result
  cases detected
  rfl

theorem get_failed (filled : size ≠ 0) {error : CryptoError}
    (detected : (repo.detect primitives cache id size name inner).2 =
      .error error) :
    (repo.get primitives cache id size name begin_ end_ inner).2 =
      .error error := by
  unfold get
  rw [if_neg filled]
  generalize repo.detect primitives cache id size name inner = result
    at detected
  obtain ⟨next, found⟩ := result
  cases detected
  rfl

theorem contentLength_detected (filled : size ≠ 0) {key : Bytes}
    (detected : (repo.detect primitives cache id size "" inner).2 =
      .ok (some (header, key))) :
    (repo.contentLength primitives cache id size inner).2 =
      plaintextSize size header.chunkSize.toNat := by
  unfold contentLength
  rw [if_neg filled]
  generalize repo.detect primitives cache id size "" inner = result
    at detected
  obtain ⟨next, found⟩ := result
  cases detected
  rfl

/-- An inner repository that answers in one piece. -/
def serving (stored : Bytes) : InnerGet := fun begin_ end_ =>
  if begin_ < 0 ∨ clampEnd stored.length end_ < begin_ then
    .error (.inner "Invalid range")
  else
    .ok ⟨[byteRange stored begin_.toNat
      (clampEnd stored.length end_).toNat], none⟩

theorem serving_serves (stored : Bytes) : Serves stored (serving stored) := by
  intro begin_ end_
  unfold serving
  split
  · exact ⟨_, rfl⟩
  · exact ⟨_, rfl, rfl, by simp⟩

/-- Every read of the stored bytes, after any calls on any files, gives the
bytes of the plaintext, and so does its length. -/
def RoundTrips (primitives : CryptoPrimitives) (repo : EncryptingRepository)
    (stored content : Bytes) : Prop :=
  ∀ (files : String → Bytes) (cache : HeaderCache) (id name : String)
    (begin_ end_ : Int) (inner : InnerGet),
    files id = stored → Reached primitives repo files cache →
    Serves stored inner → 0 ≤ begin_ →
      (∃ stream,
        (repo.get primitives cache id stored.length name begin_ end_
          inner).2 = .ok stream ∧
        stream.error = none ∧
        stream.chunks.flatten = plaintextRange content begin_ end_) ∧
      (repo.contentLength primitives cache id stored.length inner).2 =
        .ok content.length

section Written

variable (lawful : primitives.Lawful) (repo : EncryptingRepository)
  {version : WrittenVersion}
include lawful

/-- All chunks of the stored bytes are the chunks of the version. -/
theorem stored_decrypts {index : Nat}
    (inside : index * version.chunkSize < version.content.length) :
    (version.cipher lawful repo.masterKey).decryptChunk primitives
      (version.window lawful repo.masterKey
        (version.stored lawful repo.masterKey) index) index =
        .ok (version.plainChunk index) := by
  have bounded := version.indexed
  have small : index < MAX_CHUNKS := by
    by_contra large
    have reach := Nat.mul_le_mul_right version.chunkSize
      (Nat.le_of_not_lt large)
    omega
  rw [version.window_stored lawful repo.masterKey inside]
  apply version.decryptChunk_sealed
  unfold MAX_CHUNKS at small
  omega

theorem window_behind {index : Nat}
    (behind : version.content.length ≤ index * version.chunkSize) :
    version.window lawful repo.masterKey
      (version.stored lawful repo.masterKey) index = [] := by
  have count : (version.encryptor lawful repo.masterKey).chunkCount
      version.content.length ≤ index := by
    apply Nat.le_of_not_lt
    intro before
    have inside := ChunkCipher.lt_chunkCount_iff.mp before
    change index * version.chunkSize < version.content.length at inside
    omega
  have overhead := Nat.mul_le_mul_right CHUNK_OVERHEAD count
  have ended : (version.stored lawful repo.masterKey).length ≤
      HEADER_SIZE + index *
        (version.cipher lawful repo.masterKey).stride := by
    rw [version.stored_length, ← ChunkCipher.boundary_chunkCount,
      ChunkCipher.boundary]
    change _ ≤ HEADER_SIZE + index * (version.chunkSize + CHUNK_OVERHEAD)
    rw [Nat.mul_add]
    omega
  rw [WrittenVersion.window, DecryptPlan.window,
    List.drop_eq_nil_of_le ended, List.take_nil]

theorem stored_genuine :
    version.GenuineIn lawful repo.masterKey
      (version.stored lawful repo.masterKey) := by
  intro index plaintext decrypts
  by_cases inside : index * version.chunkSize < version.content.length
  · rw [stored_decrypts lawful repo inside] at decrypts
    cases decrypts
    refine ⟨rfl, ?_⟩
    rw [version.window_stored lawful repo.masterKey inside,
      version.sealedChunk_length]
  · rw [window_behind lawful repo (Nat.le_of_not_lt inside),
      ChunkedAESGCM.decryptChunk, if_pos (by decide)] at decrypts
    cases decrypts

/-- A version whose chunk size the parser accepts is read back. -/
theorem written_round_trips
    (accepted : version.chunkSize ≤ CHUNK_SIZE_CEILING) :
    RoundTrips primitives repo (version.stored lawful repo.masterKey)
      version.content := by
  intro files cache id name begin_ end_ inner isFile reached serves natural
  have filled := version.stored_ne_nil lawful repo.masterKey
  have long : MAGIC.length ≤ (files id).length := by
    rw [isFile, version.stored_length]
    have small : MAGIC.length ≤ HEADER_SIZE := by decide
    omega
  have found := classify_written lawful repo "" accepted
  rw [← version.stored_take_header lawful repo.masterKey, ← isFile] at found
  have genuine : version.GenuineIn lawful repo.masterKey
      (version.stored lawful repo.masterKey) := stored_genuine lawful repo
  have stored_eq := isFile
  rw [← isFile] at serves filled genuine ⊢
  have sized : plaintextSize (files id).length version.chunkSize =
      .ok version.content.length := by
    rw [isFile]
    exact version.plaintextSize_stored lawful repo.masterKey
  refine ⟨?_, ?_⟩
  · rw [get_detected filled (detect_reached reached serves long found)]
    by_cases outside : clampEnd version.content.length end_ < begin_ ∨
        version.content.length ≤ begin_
    · rw [getEncrypted_outside lawful repo sized inner outside]
      exact ⟨_, rfl, rfl, (plaintextRange_outside outside).symm⟩
    · obtain ⟨first, rfl⟩ := Int.eq_ofNat_of_zero_le natural
      obtain ⟨last, clamped⟩ := Int.eq_ofNat_of_zero_le
        (show 0 ≤ clampEnd version.content.length end_ by omega)
      have bound : clampEnd version.content.length end_ <
          version.content.length := by
        unfold clampEnd
        split <;> omega
      have ordered : first ≤ last := by omega
      have inside : last < version.content.length := by omega
      obtain ⟨stream, opened, healthy, whole⟩ :=
        getEncrypted_inside lawful repo sized serves ordered inside clamped
      obtain ⟨count, least, _, failing, out, complete⟩ :=
        version.decryptingStream_reads lawful repo.masterKey genuine sized
          ordered inside whole healthy
      have all : count = version.chunksOf first last := by
        rcases Nat.eq_or_lt_of_le least with same | early
        · exact same
        · exfalso
          apply failing early
          have place : (first / version.chunkSize + count) *
              version.chunkSize < version.content.length := by
            have chunks := Nat.div_le_div_right (c := version.chunkSize)
              ordered
            unfold WrittenVersion.chunksOf at early
            have reach := Nat.mul_le_mul_right version.chunkSize
              (show first / version.chunkSize + count ≤
                last / version.chunkSize by omega)
            have floor := Nat.div_mul_le_self last version.chunkSize
            omega
          rw [stored_eq]
          exact ⟨_, stored_decrypts lawful repo place⟩
      refine ⟨_, opened, complete.mpr all, ?_⟩
      rw [out, all, version.beginning_all ordered,
        plaintextRange_inside clamped]
  · rw [contentLength_detected filled
      (detect_reached reached serves long found)]
    exact sized

/-- A version with a larger chunk size cannot be read at all. -/
theorem refused_not_read (refused : CHUNK_SIZE_CEILING < version.chunkSize) :
    ¬RoundTrips primitives repo (version.stored lawful repo.masterKey)
      version.content := by
  intro trips
  have serves := serving_serves (version.stored lawful repo.masterKey)
  have filled := version.stored_ne_nil lawful repo.masterKey
  have long : MAGIC.length ≤
      (version.stored lawful repo.masterKey).length := by
    rw [version.stored_length]
    have small : MAGIC.length ≤ HEADER_SIZE := by decide
    omega
  have found := classify_refused lawful repo "" refused
  rw [← version.stored_take_header lawful repo.masterKey] at found
  obtain ⟨⟨stream, read, _⟩, _⟩ := trips
    (fun _ => version.stored lawful repo.masterKey) .empty "" "" 0 (-1) _ rfl
    .empty serves le_rfl
  rw [get_failed filled (congrArg Prod.snd
    (detect_error serves rfl long found))] at read
  cases read

end Written

/-- What was saved is read back if and only if its chunk size is at most the
ceiling of the parser. -/
theorem save_round_trips_iff (lawful : primitives.Lawful)
    (repo : EncryptingRepository) {salt stored : Bytes}
    (salted : salt.length = FILE_SALT_SIZE) (kind : SourceKind)
    (chunks : List Bytes) {reads : Nat → List Nat}
    (whole : ∀ size, (reads size).sum = size)
    (saved : repo.save primitives salt (kind.new chunks) reads =
      .ok stored) :
    RoundTrips primitives repo stored chunks.flatten ↔
      repo.chunkSize ≤ 16 * 1024 * 1024 := by
  obtain ⟨version, chunkSize, content, stored_eq⟩ :=
    save_written lawful repo salted whole saved
  rw [stored_eq, ← content, ← chunkSize]
  clear saved
  constructor
  · intro trips
    by_contra large
    have refused : CHUNK_SIZE_CEILING < version.chunkSize := by
      unfold CHUNK_SIZE_CEILING
      omega
    exact refused_not_read lawful repo refused trips
  · intro small
    have accepted : version.chunkSize ≤ CHUNK_SIZE_CEILING := by
      unfold CHUNK_SIZE_CEILING
      omega
    exact written_round_trips lawful repo accepted

/-- Primitives that only keep the sizes: the tag repeats the key and the
nonce. -/
def plainPrimitives : CryptoPrimitives :=
  { deriveFileKey := fun _ salt => packBytes 32 salt
    hmac := fun key _ => packBytes 32 key
    encrypt := fun key nonce plaintext =>
      plaintext ++ packBytes TAG_SIZE (key.take 4 ++ nonce)
    decrypt := fun key nonce sealed =>
      if sealed.drop (sealed.length - TAG_SIZE) =
          packBytes TAG_SIZE (key.take 4 ++ nonce) then
        some (sealed.take (sealed.length - TAG_SIZE))
      else none }

theorem plainPrimitives_lawful : plainPrimitives.Lawful := by
  refine ⟨fun _ _ => packBytes_length _ _, fun _ _ => packBytes_length _ _,
    ?_, ?_⟩
  · intro key nonce plaintext
    change (plaintext ++ packBytes TAG_SIZE (key.take 4 ++ nonce)).length = _
    rw [List.length_append, packBytes_length]
  · intro key nonce plaintext
    have length : (plaintext ++ packBytes TAG_SIZE
        (key.take 4 ++ nonce)).length - TAG_SIZE = plaintext.length := by
      rw [List.length_append, packBytes_length, Nat.add_sub_cancel]
    simp only [plainPrimitives, length, List.drop_left, List.take_left,
      if_true]

def plainRepository (chunkSize : Int) : EncryptingRepository :=
  ⟨List.replicate 32 1, chunkSize, List.length_replicate⟩

/-- A stream saved with chunks of the given size. -/
def savedStream (chunkSize : Int) (chunks : List Bytes) :
    Except CryptoError Bytes :=
  (plainRepository chunkSize).save plainPrimitives
    (List.replicate 32 5) (SourceKind.stream.new chunks) fun size => [size]

/-- Three bytes in chunks of two. -/
theorem save_round_trips_short :
    ∃ stored, savedStream 2 [[1, 2], [3]] = .ok stored ∧
      RoundTrips plainPrimitives (plainRepository 2) stored [1, 2, 3] := by
  have saves : (savedStream 2 [[1, 2], [3]]).isOk = true := by
    decide +kernel
  cases saved : savedStream 2 [[1, 2], [3]] with
  | error error =>
      rw [saved] at saves
      cases saves
  | ok stored =>
      exact ⟨stored, rfl, (save_round_trips_iff plainPrimitives_lawful
        (plainRepository 2) (List.length_replicate ..) .stream [[1, 2], [3]]
        (fun size => List.sum_singleton) saved).mpr (by decide)⟩

/-- One byte under a chunk size just above the ceiling: it is saved, and the
header that was written is refused. -/
theorem large_chunks_not_read :
    ∃ stored, savedStream 16777217 [[1]] = .ok stored ∧
      ¬RoundTrips plainPrimitives (plainRepository 16777217) stored [1] := by
  have saves : (savedStream 16777217 [[1]]).isOk = true := by
    decide +kernel
  cases saved : savedStream 16777217 [[1]] with
  | error error =>
      rw [saved] at saves
      cases saves
  | ok stored =>
      obtain ⟨version, chunkSize, content, stored_eq⟩ :=
        save_written plainPrimitives_lawful (plainRepository 16777217)
          (List.length_replicate ..) (fun size => List.sum_singleton) saved
      have refused : CHUNK_SIZE_CEILING < version.chunkSize := by
        change (version.chunkSize : Int) = 16777217 at chunkSize
        unfold CHUNK_SIZE_CEILING
        omega
      have unread := refused_not_read plainPrimitives_lawful (plainRepository 16777217)
        refused
      rw [content, ← stored_eq] at unread
      exact ⟨stored, rfl, unread⟩

end EncryptingRepository

end Tgdcfs
