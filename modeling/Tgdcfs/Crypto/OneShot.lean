import Tgdcfs.Crypto.RoundTrip
import Tgdcfs.Lib.Traversals

/-!
# Streaming and one-shot encryption

`update` seals a whole buffer at once.  An encrypting message seals what it
reads from the message it wraps, in reads that are cut anyhow, and hands it
out in portions that are cut differently.  The bytes are the same.
-/

namespace Tgdcfs

open Lib

/-- The header and every chunk of the buffer; `none` where `encrypt_chunk`
raises. -/
def ChunkCipher.encryptBuffer (cipher : ChunkCipher) (buffer : Bytes) :
    Option Bytes :=
  ((List.range (cipher.chunkCount buffer.length)).mapM fun index =>
      cipher.encryptChunk (cipher.plainChunk buffer index) index).map
    fun parts => cipher.header ++ parts.flatten

namespace EncryptingRepository

variable (primitives : CryptoPrimitives) (repo : EncryptingRepository)

/-- The cipher and the serialized header of a new version, with the salt that
was drawn. -/
def newEncryptor (salt : Bytes) : Except CryptoError ChunkCipher :=
  let header := FileHeader.new repo.chunkSize salt
  let key := primitives.deriveFileKey repo.masterKey salt
  match ChunkedAESGCM.new key salt header.chunkSize with
  | .error error => .error error
  | .ok cipher =>
      match header.serialize primitives key with
      | .error error => .error error
      | .ok raw =>
          -- A header always has its size once it is serialized.
          if sized : raw.length = HEADER_SIZE then
            .ok (cipher.encryptor primitives raw sized)
          else .error .unexpectedHeaderSize

/-- The ciphertext that `update` hands on. -/
def update (salt buffer : Bytes) : Except CryptoError Bytes :=
  match repo.newEncryptor primitives salt with
  | .error error => .error error
  | .ok encryptor =>
      match encryptor.encryptBuffer buffer with
      | none => .error (.chunkIndexOutOfRange MAX_CHUNKS)
      | some ciphertext => .ok ciphertext

/-- What the cipher of a new version has from the repository. -/
theorem newEncryptor_ok {salt : Bytes} {encryptor : ChunkCipher}
    (made : repo.newEncryptor primitives salt = .ok encryptor) :
    ∃ (cipher : ChunkedAESGCM) (raw : Bytes)
      (sized : raw.length = HEADER_SIZE),
      encryptor = cipher.encryptor primitives raw sized ∧
        cipher.chunkSize = repo.chunkSize.toNat := by
  unfold newEncryptor at made
  dsimp only at made
  split at made
  · cases made
  · rename_i cipher new
    split at made
    · cases made
    · split at made
      · rename_i raw _ sized
        cases made
        exact ⟨cipher, raw, sized, rfl, (ChunkedAESGCM.new_ok new).2.2.2⟩
      · cases made

end EncryptingRepository

namespace ChunkCipher

variable {cipher : ChunkCipher}

/-- A buffer is sealed unless it has more chunks than there are nonces. -/
theorem encryptBuffer_eq (content : Bytes) :
    cipher.encryptBuffer content =
      if cipher.chunkCount content.length ≤ MAX_CHUNKS then
        some (cipher.sealedSource content)
      else none := by
  unfold encryptBuffer
  split
  · rename_i few
    rw [mapM_some fun index =>
      cipher.sealChunk index (cipher.plainChunk content index)]
    · rfl
    · intro index member
      apply encryptChunk_of_small
      · rw [plainChunk_length, chunkLength]
        exact Nat.min_le_left _ _
      · have inside := List.mem_range.mp member
        unfold MAX_CHUNKS at few
        omega
  · rename_i many
    rw [mapM_none (List.mem_range.mpr (Nat.lt_of_not_le many))]
    · rfl
    · cases encrypts : cipher.encryptChunk
        (cipher.plainChunk content MAX_CHUNKS) MAX_CHUNKS with
      | none => rfl
      | some encrypted =>
          have small := (encryptChunk_eq_some encrypts).1
          exact absurd small (by decide)

theorem nonce_injective {left right : Nat} (leftSmall : left < MAX_CHUNKS)
    (rightSmall : right < MAX_CHUNKS)
    (same : packUInt64 left = packUInt64 right) : left = right := by
  have digits : ∀ value < MAX_CHUNKS,
      unpackUInt (packUInt64 value) = value := by
    intro value small
    unfold MAX_CHUNKS at small
    simp only [unpackUInt, packUInt64, List.range_succ, List.range_zero,
      List.nil_append, List.cons_append, List.map_cons, List.map_nil,
      List.foldl_cons, List.foldl_nil, UInt8.toNat_ofNat', Nat.reducePow,
      Nat.reduceSub]
    omega
  rw [← digits left leftSmall, same, digits right rightSmall]

end ChunkCipher

/-- Before the end of `content` every read returns at least one byte, and at
most as many as were asked for.  `atByte` says how many bytes were read. -/
structure SplitsReads {σ : Type} (inner : Message σ) (content : Bytes)
    (atByte : Nat → σ → Prop) : Prop where
  sized : ∀ {count state}, atByte count state →
    inner.getSize state = content.length
  reads : ∀ {count state want}, atByte count state → 0 < want →
    count < content.length →
      ∃ next data, inner.read state want = some (next, data) ∧
        data ≠ [] ∧ data.length ≤ want ∧ data <+: content.drop count ∧
          atByte (count + data.length) next

section Splitting

variable {σ : Type} {inner : Message σ} {content : Bytes}
  {atByte : Nat → σ → Prop} {cipher : ChunkCipher}

/-- The message with its reads put together. -/
def gathered (inner : Message σ) : Message σ :=
  { inner with
    read := fun state want =>
      EncryptingMessage.gather inner want want state [] }

theorem SplitsReads.gather (splits : SplitsReads inner content atByte)
    {start want rounds : Nat} {state : σ} {buffer : Bytes}
    (here : atByte (start + buffer.length) state)
    (enough : want ≤ buffer.length + rounds) (sofar : buffer.length ≤ want)
    (inside : start + want ≤ content.length)
    (bytes : buffer = (content.drop start).take buffer.length) :
    ∃ next, EncryptingMessage.gather inner want rounds state buffer =
        some (next, (content.drop start).take want) ∧
      atByte (start + want) next := by
  induction rounds generalizing state buffer with
  | zero =>
      have full : buffer.length = want := by omega
      refine ⟨state, ?_, full ▸ here⟩
      unfold EncryptingMessage.gather
      rw [← full, ← bytes]
  | succ rounds induction =>
      unfold EncryptingMessage.gather
      split
      · have full : buffer.length = want := by omega
        refine ⟨state, ?_, full ▸ here⟩
        rw [← full, ← bytes]
      · obtain ⟨next, data, read, filled, most, beginning, moved⟩ :=
          splits.reads here (show 0 < want - buffer.length by omega)
            (by omega)
        have nonempty : data.isEmpty = false := by simpa using filled
        have positive : 0 < data.length := List.length_pos_iff.mpr filled
        rw [read]
        simp only [nonempty, Bool.false_eq_true, if_false]
        apply induction
        · rw [List.length_append, ← Nat.add_assoc]
          exact moved
        · rw [List.length_append]
          omega
        · rw [List.length_append]
          omega
        · have piece := List.prefix_iff_eq_take.mp beginning
          rw [List.length_append, List.take_add, ← bytes, List.drop_drop,
            ← piece]

/-- After `count` chunks. -/
def ChunksRead (cipher : ChunkCipher) (content : Bytes)
    (atByte : Nat → σ → Prop) (count : Nat) (state : σ) : Prop :=
  atByte (min content.length (count * cipher.chunkSize)) state

theorem SplitsReads.gathered_read (splits : SplitsReads inner content atByte)
    {count : Nat} {state : σ} (here : ChunksRead cipher content atByte count
      state) (more : count < cipher.chunkCount content.length) :
    ∃ next, (gathered inner).read state
        (cipher.chunkLength content.length count) =
          some (next, cipher.plainChunk content count) ∧
      ChunksRead cipher content atByte (count + 1) next := by
  have inside := ChunkCipher.lt_chunkCount_iff.mp more
  have place : min content.length (count * cipher.chunkSize) =
      count * cipher.chunkSize := by omega
  unfold ChunksRead at here
  rw [place] at here
  have fits : count * cipher.chunkSize +
      cipher.chunkLength content.length count ≤ content.length := by
    unfold ChunkCipher.chunkLength
    omega
  have start : atByte (count * cipher.chunkSize + ([] : Bytes).length) state :=
    here
  obtain ⟨next, read, moved⟩ := splits.gather start (Nat.le_add_left _ _)
    (Nat.zero_le _) fits rfl
  refine ⟨next, ?_, ?_⟩
  · have chunk : cipher.plainChunk content count =
        (content.drop (count * cipher.chunkSize)).take
          (cipher.chunkLength content.length count) := by
      rw [ChunkCipher.plainChunk, List.take_eq_take_iff,
        ChunkCipher.chunkLength, List.length_drop]
      omega
    rw [chunk]
    exact read
  · have reached : min content.length ((count + 1) * cipher.chunkSize) =
        count * cipher.chunkSize +
          cipher.chunkLength content.length count := by
      unfold ChunkCipher.chunkLength
      rw [Nat.add_mul, Nat.one_mul]
      omega
    unfold ChunksRead
    rw [reached]
    exact moved

theorem SplitsReads.supplies (splits : SplitsReads inner content atByte) :
    Supplies cipher (gathered inner) content.length
      (ChunksRead cipher content atByte)
      fun index data => data = cipher.plainChunk content index := by
  refine ⟨fun here => splits.sized here, ?_⟩
  intro count state next data here more read
  obtain ⟨other, same, moved⟩ := splits.gathered_read here more
  cases same.symm.trans read
  exact ⟨ChunkCipher.plainChunk_length content count, rfl, moved⟩

theorem gathered_gathers {supply : Nat → σ → Prop} :
    Gathers cipher inner (gathered inner) content.length supply :=
  ⟨fun _ => rfl, fun _ _ => rfl⟩

theorem SplitsReads.many_of_blocked (splits : SplitsReads inner content atByte)
    (blocked : Blocked cipher (gathered inner) content.length
      (ChunksRead cipher content atByte)) :
    MAX_CHUNKS < cipher.chunkCount content.length := by
  obtain ⟨count, state, here, more, why⟩ := blocked
  rcases why with raised | large
  · obtain ⟨next, read, _⟩ := splits.gathered_read here more
    rw [raised] at read
    cases read
  · exact Nat.lt_of_le_of_lt large more

/-- The wrapped message between `open` and the first read. -/
def openedMessage (cipher : ChunkCipher) (inner : Message σ) (source : σ) :
    EncryptingMessage σ :=
  EncryptingMessage.open_ cipher inner
    (EncryptingMessage.wrap cipher inner source)

/-- The reads after one `open` return the beginning of the ciphertext, and
fail only for want of nonces. -/
theorem SplitsReads.readAll (lawful : cipher.Lawful)
    (splits : SplitsReads inner content atByte) {source : σ}
    (begun : atByte 0 (inner.open_ source)) (lengths : List Nat) :
    (Tgdcfs.readAll (EncryptingMessage.operations cipher inner) lengths
        (openedMessage cipher inner source) = none ∧
      MAX_CHUNKS < cipher.chunkCount content.length) ∨
    ∃ next,
      Tgdcfs.readAll (EncryptingMessage.operations cipher inner) lengths
          (openedMessage cipher inner source) =
        some (next, (cipher.sealedSource content).take lengths.sum) ∧
      next.chunkIndex ≤ MAX_CHUNKS ∧
      ((cipher.sealedSource content).length ≤ lengths.sum →
        next.chunkIndex = cipher.chunkCount content.length) := by
  have start : Emitted cipher content.length (ChunksRead cipher content atByte)
      (fun index data => data = cipher.plainChunk content index) []
      (openedMessage cipher inner source) := by
    refine ⟨fun _ => [], 0, rfl, Nat.zero_le _, Nat.zero_le _, rfl, ?_, ?_,
      ?_, .inl rfl, ?_⟩
    · change 0 = _
      rw [Nat.zero_mul, Nat.min_zero]
    · change cipher.header = _
      simp [ChunkCipher.emits]
    · intro index smaller
      omega
    · unfold ChunksRead
      rw [Nat.zero_mul, Nat.min_zero]
      exact begun
  have total : cipher.boundary content.length
      (cipher.chunkCount content.length) =
        (cipher.sealedSource content).length := by
    rw [sealedSource_length lawful,
      ChunkCipher.boundary_chunkCount content.length]
  rcases readAll_upTo lawful gathered_gathers
    splits.supplies start with
    ⟨raised, blocked⟩ | ⟨next, data, read, moved, length⟩
  · exact .inl ⟨raised, splits.many_of_blocked blocked⟩
  rw [List.nil_append] at moved
  rw [total, List.length_nil, Nat.sub_zero] at length
  have bytes : data = (cipher.sealedSource content).take lengths.sum := by
    have taken := List.prefix_iff_eq_take.mp moved.isPrefix
    rw [length] at taken
    rw [taken, List.take_eq_take_iff]
    omega
  obtain ⟨plain, count, here⟩ := moved
  refine .inr ⟨next, by rw [read, bytes], ?_, ?_⟩
  · rw [here.index]
    exact here.small
  · intro all
    have ended := here.length_eq lawful
    have last : count = cipher.chunkCount content.length := by
      by_contra other
      have following : cipher.boundary content.length (count + 1) ≤
          cipher.boundary content.length
            (cipher.chunkCount content.length) :=
        ChunkCipher.boundary_mono (Nat.lt_of_le_of_ne here.bound other)
      rw [ChunkCipher.boundary_succ] at following
      unfold CHUNK_OVERHEAD NONCE_SIZE TAG_SIZE at following
      omega
    rw [here.index, last]

end Splitting

namespace EncryptingRepository

theorem newEncryptor_lawful {primitives : CryptoPrimitives}
    (lawful : primitives.Lawful) {repo : EncryptingRepository} {salt : Bytes}
    {encryptor : ChunkCipher}
    (made : repo.newEncryptor primitives salt = .ok encryptor) :
    encryptor.Lawful := by
  obtain ⟨cipher, raw, sized, rfl, _⟩ := newEncryptor_ok primitives repo made
  exact cipher.encryptor_lawful lawful sized

/-- The reads of an encrypting message after one `open`, to the end and cut
anyhow, are the ciphertext that `update` builds with the same salt, which is
as long as the message declares; reads that stop earlier are a beginning of
it.  Each chunk has a nonce of its own. -/
theorem streaming_equals_one_shot {σ : Type} {primitives : CryptoPrimitives}
    (lawful : primitives.Lawful) (repo : EncryptingRepository) (salt : Bytes)
    {encryptor : ChunkCipher}
    (made : repo.newEncryptor primitives salt = .ok encryptor)
    {inner : Message σ} {content : Bytes} {atByte : Nat → σ → Prop}
    (splits : SplitsReads inner content atByte) (source : σ)
    (declared : inner.getSize source = content.length)
    (begun : atByte 0 (inner.open_ source)) :
    (∀ lengths,
      (EncryptingMessage.wrap encryptor inner source).size ≤ lengths.sum →
        (readAll (EncryptingMessage.operations encryptor inner) lengths
            (openedMessage encryptor inner source)).map Prod.snd =
          (repo.update primitives salt content).toOption) ∧
    (∀ lengths next out,
      readAll (EncryptingMessage.operations encryptor inner) lengths
          (openedMessage encryptor inner source) = some (next, out) →
        out = (encryptor.sealedSource content).take lengths.sum ∧
        ((EncryptingMessage.wrap encryptor inner source).size ≤
            lengths.sum →
          next.chunkIndex = encryptor.chunkCount content.length)) ∧
    (∀ ciphertext, repo.update primitives salt content = .ok ciphertext →
      ciphertext = encryptor.sealedSource content ∧
      ciphertext.length =
        (EncryptingMessage.wrap encryptor inner source).size ∧
      ((List.range (encryptor.chunkCount content.length)).map
        encryptor.chunkNonce).Nodup) := by
  have sound := newEncryptor_lawful lawful made
  have size : (EncryptingMessage.wrap encryptor inner source).size =
      (encryptor.sealedSource content).length := by
    rw [sealedSource_length sound, ← declared]
    rfl
  have updated : (repo.update primitives salt content).toOption =
      encryptor.encryptBuffer content := by
    unfold update
    rw [made]
    dsimp only
    cases encryptor.encryptBuffer content with
    | none => rfl
    | some ciphertext => rfl
  rw [size]
  refine ⟨?_, ?_, ?_⟩
  · intro lengths all
    rw [updated, ChunkCipher.encryptBuffer_eq]
    rcases splits.readAll sound begun lengths with
      ⟨raised, many⟩ | ⟨next, read, few, last⟩
    · rw [raised, if_neg (Nat.not_le_of_lt many)]
      rfl
    · rw [last all] at few
      rw [read, if_pos few, Option.map_some, List.take_of_length_le all]
  · intro lengths next out read
    rcases splits.readAll sound begun lengths with
      ⟨raised, _⟩ | ⟨other, same, _, last⟩
    · rw [raised] at read
      cases read
    · cases same.symm.trans read
      exact ⟨rfl, last⟩
  · intro ciphertext built
    rw [built, ChunkCipher.encryptBuffer_eq] at updated
    split at updated
    · rename_i few
      cases updated
      refine ⟨rfl, rfl, ?_⟩
      rw [List.nodup_map_iff_inj_on List.nodup_range]
      intro left inLeft right inRight same
      rw [List.mem_range] at inLeft inRight
      unfold ChunkCipher.chunkNonce at same
      have leftSmall : ¬0xFFFFFFFFFFFFFFFF < left := by
        unfold MAX_CHUNKS at few
        omega
      have rightSmall : ¬0xFFFFFFFFFFFFFFFF < right := by
        unfold MAX_CHUNKS at few
        omega
      rw [if_neg leftSmall, if_neg rightSmall, Option.some_inj,
        List.append_cancel_left_eq] at same
      exact ChunkCipher.nonce_injective (by omega) (by omega) same
    · cases updated

/-- A message that returns at most two bytes a read. -/
def pairs (content : Bytes) : Message Nat where
  setSize := fun _ state => state
  getSize := fun _ => content.length
  open_ := fun _ => 0
  read := fun state want =>
    some (state + ((content.drop state).take (min want 2)).length,
      (content.drop state).take (min want 2))
  close := fun state => state
  nextPart := fun _ state => state
  part := fun _ => none

theorem pairs_splits (content : Bytes) :
    SplitsReads (pairs content) content fun count state => state = count := by
  refine ⟨fun _ => rfl, ?_⟩
  rintro count state want rfl wanted inside
  have length : ((content.drop state).take (min want 2)).length =
      min (min want 2) (content.length - state) := by
    rw [List.length_take, List.length_drop]
  refine ⟨_, _, rfl, ?_, ?_, List.take_prefix _ _, rfl⟩
  · rw [← List.length_pos_iff, length]
    omega
  · rw [length]
    omega

/-- Five bytes in chunks of three, read two at a time. -/
theorem streaming_equals_one_shot_pairs :
    ∃ encryptor, (plainRepository 3).newEncryptor
        plainPrimitives (List.replicate 32 5) = .ok encryptor ∧
      (readAll (EncryptingMessage.operations encryptor
        (pairs [1, 2, 3, 4, 5])) [70, 0, 1, 60]
          (openedMessage encryptor (pairs [1, 2, 3, 4, 5]) 0)).map
            Prod.snd =
        ((plainRepository 3).update plainPrimitives
          (List.replicate 32 5) [1, 2, 3, 4, 5]).toOption := by
  have makes : ((plainRepository 3).newEncryptor
      plainPrimitives (List.replicate 32 5)).isOk = true := by
    decide +kernel
  cases made : (plainRepository 3).newEncryptor
      plainPrimitives (List.replicate 32 5) with
  | error error =>
      rw [made] at makes
      cases makes
  | ok encryptor =>
      refine ⟨encryptor, rfl, ?_⟩
      apply (streaming_equals_one_shot plainPrimitives_lawful (plainRepository 3)
        (List.replicate 32 5) made (pairs_splits [1, 2, 3, 4, 5]) 0 rfl
        rfl).1
      obtain ⟨cipher, raw, sized, rfl, three⟩ := newEncryptor_ok _ _ made
      have chunks : (cipher.encryptor plainPrimitives raw sized).chunkSize =
          3 := three
      change HEADER_SIZE + ChunkCipher.ciphertextSize _ 5 ≤ 131
      unfold ChunkCipher.ciphertextSize
      rw [chunks]
      decide

end EncryptingRepository

end Tgdcfs
