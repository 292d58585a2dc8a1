import Tgdcfs.Core.RangeMap
import Tgdcfs.Crypto.Stream
import Tgdcfs.Upload.LostBytes

/-!
# Plaintext ranges of an encrypted file

A version that was written under a master key is described by its salt, its
chunk size and its plaintext.  Reading a range of any stored bytes as that
version delivers the plaintext of the version, chunk by chunk, as far as the
stored bytes hold its chunks.
-/

namespace Tgdcfs

section Sizes

variable {chunkSize : Nat}

/-- What the stored size says: full chunks, and a tail that is no chunk or a
short one. -/
theorem plaintextSize_ok {size total : Nat}
    (sized : plaintextSize size chunkSize = .ok total) :
    (size ≤ HEADER_SIZE ∧ total = 0) ∨
    ∃ full tail,
      size = HEADER_SIZE + full * (chunkSize + CHUNK_OVERHEAD) + tail ∧
      tail < chunkSize + CHUNK_OVERHEAD ∧
      ((tail = 0 ∧ total = full * chunkSize) ∨
        (CHUNK_OVERHEAD ≤ tail ∧
          total = full * chunkSize + (tail - CHUNK_OVERHEAD))) := by
  unfold plaintextSize at sized
  split at sized
  · rename_i small
    cases sized
    exact .inl ⟨small, rfl⟩
  · rename_i large
    refine .inr ⟨(size - HEADER_SIZE) / (chunkSize + CHUNK_OVERHEAD),
      (size - HEADER_SIZE) % (chunkSize + CHUNK_OVERHEAD), ?_, ?_, ?_⟩
    · have division := Nat.div_add_mod (size - HEADER_SIZE)
        (chunkSize + CHUNK_OVERHEAD)
      rw [Nat.mul_comm] at division
      omega
    · exact Nat.mod_lt _ (Nat.add_pos_right _ (by decide))
    · dsimp only at sized
      split at sized
      · rename_i empty
        cases sized
        exact .inl ⟨empty, rfl⟩
      · split at sized
        · cases sized
        · rename_i enough
          cases sized
          exact .inr ⟨Nat.le_of_not_lt enough, rfl⟩

/-- The chunk of a plaintext position begins inside the stored bytes. -/
theorem chunk_begins_inside {size total last : Nat}
    (sized : plaintextSize size chunkSize = .ok total)
    (inside : last < total) :
    HEADER_SIZE + last / chunkSize * (chunkSize + CHUNK_OVERHEAD) < size := by
  have overhead : 0 < CHUNK_OVERHEAD := by decide
  rcases plaintextSize_ok sized with ⟨_, empty⟩ |
    ⟨full, tail, size_eq, short, ends⟩
  · omega
  · have floor := Nat.div_mul_le_self last chunkSize
    rcases Nat.lt_or_ge (last / chunkSize) full with before | from_
    · have reach := Nat.mul_le_mul_right (chunkSize + CHUNK_OVERHEAD)
        (Nat.succ_le_of_lt before)
      rw [Nat.succ_mul] at reach
      omega
    · rcases ends with ⟨_, whole⟩ | ⟨enough, partial_⟩
      · have reach := Nat.mul_le_mul_right chunkSize from_
        omega
      · rcases Nat.eq_or_lt_of_le from_ with same | beyond
        · rw [← same] at floor ⊢
          omega
        · have reach := Nat.mul_le_mul_right chunkSize
            (Nat.succ_le_of_lt beyond)
          rw [Nat.succ_mul] at reach
          omega

theorem plaintextSize_tail {full tail : Nat}
    (short : tail < chunkSize + CHUNK_OVERHEAD)
    (filled : 0 < full ∨ 0 < tail) :
    plaintextSize (HEADER_SIZE +
        (full * (chunkSize + CHUNK_OVERHEAD) + tail)) chunkSize =
      if tail = 0 then .ok (full * chunkSize)
      else if tail < CHUNK_OVERHEAD then .error .inconsistentSize
      else .ok (full * chunkSize + (tail - CHUNK_OVERHEAD)) := by
  have stride : 0 < chunkSize + CHUNK_OVERHEAD := by omega
  have payload : 0 < full * (chunkSize + CHUNK_OVERHEAD) + tail := by
    rcases filled with chunks | rest
    · exact Nat.add_pos_left (Nat.mul_pos chunks stride) _
    · omega
  have chunks : (full * (chunkSize + CHUNK_OVERHEAD) + tail) /
      (chunkSize + CHUNK_OVERHEAD) = full := by
    rw [Nat.mul_comm, Nat.mul_add_div stride, Nat.div_eq_of_lt short,
      Nat.add_zero]
  have rest : (full * (chunkSize + CHUNK_OVERHEAD) + tail) %
      (chunkSize + CHUNK_OVERHEAD) = tail := by
    rw [Nat.mul_comm, Nat.mul_add_mod, Nat.mod_eq_of_lt short]
  unfold plaintextSize
  rw [if_neg (by omega), Nat.add_sub_cancel_left]
  dsimp only
  rw [chunks, rest]

/-- The size of a ciphertext gives the size of its plaintext back. -/
theorem plaintextSize_ciphertextSize (cipher : ChunkCipher) (size : Nat) :
    plaintextSize (HEADER_SIZE + cipher.ciphertextSize size)
      cipher.chunkSize = .ok size := by
  have positive := cipher.chunkSize_pos
  rcases Nat.eq_zero_or_pos size with rfl | nonempty
  · rfl
  have division := Nat.div_add_mod size cipher.chunkSize
  have remainder := Nat.mod_lt size positive
  rw [Nat.mul_comm] at division
  unfold ChunkCipher.ciphertextSize
  rw [if_neg (by omega)]
  by_cases whole : size % cipher.chunkSize = 0
  · have chunks : 0 < size / cipher.chunkSize := by
      apply Nat.pos_of_ne_zero
      intro empty
      rw [empty, Nat.zero_mul] at division
      omega
    have payload : size + (size / cipher.chunkSize +
        if size % cipher.chunkSize = 0 then 0 else 1) * CHUNK_OVERHEAD =
        size / cipher.chunkSize * (cipher.chunkSize + CHUNK_OVERHEAD) +
          0 := by
      rw [if_pos whole, Nat.mul_add, Nat.add_zero]
      omega
    rw [payload, plaintextSize_tail (by omega) (.inl chunks), if_pos rfl]
    congr 1
    omega
  · have payload : size + (size / cipher.chunkSize +
        if size % cipher.chunkSize = 0 then 0 else 1) * CHUNK_OVERHEAD =
        size / cipher.chunkSize * (cipher.chunkSize + CHUNK_OVERHEAD) +
          (size % cipher.chunkSize + CHUNK_OVERHEAD) := by
      rw [if_neg whole, Nat.mul_add, Nat.add_mul, Nat.one_mul]
      omega
    rw [payload, plaintextSize_tail (by omega) (.inr (by omega)),
      if_neg (by omega), if_neg (by omega), Nat.add_sub_cancel, division]

end Sizes

namespace DecryptPlan

variable {cipher : ChunkedAESGCM} {stored : Bytes} {begin_ last : Nat}

/-- The ciphertext of the chunks of a plan. -/
def ciphertext (cipher : ChunkedAESGCM) (stored : Bytes)
    (begin_ last : Nat) : Bytes :=
  byteRange stored
    (HEADER_SIZE + begin_ / cipher.chunkSize * cipher.stride)
    (min (HEADER_SIZE + (last / cipher.chunkSize + 1) * cipher.stride)
      stored.length - 1)

/-- The bytes stored at the place of a chunk. -/
def window (cipher : ChunkedAESGCM) (stored : Bytes) (index : Nat) : Bytes :=
  (stored.drop (HEADER_SIZE + index * cipher.stride)).take cipher.stride

theorem ciphertext_eq (inside : HEADER_SIZE +
      last / cipher.chunkSize * cipher.stride < stored.length) :
    ciphertext cipher stored begin_ last =
      (stored.drop (HEADER_SIZE +
        begin_ / cipher.chunkSize * cipher.stride)).take
          (min (HEADER_SIZE +
            (last / cipher.chunkSize + 1) * cipher.stride) stored.length -
            (HEADER_SIZE + begin_ / cipher.chunkSize * cipher.stride)) := by
  rw [ciphertext, byteRange]
  congr 1
  rw [Nat.add_mul, Nat.one_mul]
  have positive : 0 < cipher.stride :=
    Nat.add_pos_left cipher.chunkSize_pos _
  omega

variable (ordered : begin_ ≤ last)
  (inside : HEADER_SIZE + last / cipher.chunkSize * cipher.stride <
    stored.length)
include ordered inside

theorem covers_range :
    (EncryptingRepository.decryptPlan cipher.chunkSize begin_ last).Covers
      cipher (ciphertext cipher stored begin_ last) := by
  have positive := cipher.chunkSize_pos
  have stridePositive : 0 < cipher.stride := Nat.add_pos_left positive _
  have chunks : begin_ / cipher.chunkSize ≤ last / cipher.chunkSize :=
    Nat.div_le_div_right ordered
  have length : (ciphertext cipher stored begin_ last).length =
      min (HEADER_SIZE + (last / cipher.chunkSize + 1) * cipher.stride)
        stored.length -
          (HEADER_SIZE + begin_ / cipher.chunkSize * cipher.stride) := by
    rw [ciphertext_eq inside, List.length_take, List.length_drop]
    omega
  have count : last / cipher.chunkSize = begin_ / cipher.chunkSize +
      (last / cipher.chunkSize - begin_ / cipher.chunkSize) := by omega
  have span : last / cipher.chunkSize * cipher.stride =
      begin_ / cipher.chunkSize * cipher.stride +
        (last / cipher.chunkSize - begin_ / cipher.chunkSize) *
          cipher.stride := by
    rw [← Nat.add_mul, ← count]
  refine ⟨Nat.succ_pos _, ?_, ?_, Nat.mod_lt _ positive, Nat.succ_pos _, ?_⟩
  · change (last / cipher.chunkSize - begin_ / cipher.chunkSize + 1 - 1) *
      cipher.stride < _
    rw [length, Nat.add_sub_cancel, Nat.add_mul, Nat.one_mul]
    omega
  · change _ ≤ (last / cipher.chunkSize - begin_ / cipher.chunkSize + 1) *
      cipher.stride
    rw [length, Nat.add_mul, Nat.one_mul, Nat.add_mul, Nat.one_mul]
    omega
  · change (last / cipher.chunkSize - begin_ / cipher.chunkSize + 1 - 1) *
      cipher.chunkSize <
        begin_ % cipher.chunkSize + (last - begin_ + 1)
    have first := Nat.div_add_mod begin_ cipher.chunkSize
    have final := Nat.div_mul_le_self last cipher.chunkSize
    rw [Nat.mul_comm] at first
    rw [Nat.add_sub_cancel, Nat.sub_mul]
    omega

theorem blob_ciphertext {place : Nat}
    (planned : place < (EncryptingRepository.decryptPlan cipher.chunkSize
      begin_ last).nChunks) :
    blob cipher (ciphertext cipher stored begin_ last) place =
      window cipher stored (begin_ / cipher.chunkSize + place) := by
  have chunks : begin_ / cipher.chunkSize ≤ last / cipher.chunkSize :=
    Nat.div_le_div_right ordered
  change place < last / cipher.chunkSize - begin_ / cipher.chunkSize + 1
    at planned
  rw [blob, window, ciphertext_eq inside, List.drop_take, List.drop_drop,
    List.take_take]
  have spot : HEADER_SIZE + begin_ / cipher.chunkSize * cipher.stride +
      place * cipher.stride =
        HEADER_SIZE + (begin_ / cipher.chunkSize + place) *
          cipher.stride := by
    rw [Nat.add_mul]
    omega
  have reach := Nat.mul_le_mul_right cipher.stride
    (show begin_ / cipher.chunkSize + place + 1 ≤
      last / cipher.chunkSize + 1 by omega)
  have step : (begin_ / cipher.chunkSize + place + 1) * cipher.stride =
      begin_ / cipher.chunkSize * cipher.stride + place * cipher.stride +
        cipher.stride := by
    rw [Nat.add_mul, Nat.add_mul, Nat.one_mul]
  rw [spot, List.take_eq_take_iff, List.length_drop, ← spot]
  omega

omit ordered inside in
/-- What some chunks of a plaintext contribute to the range. -/
theorem delivered_range (encryptor : ChunkCipher) (content : Bytes)
    (same : encryptor.chunkSize = cipher.chunkSize) (count : Nat) :
    (EncryptingRepository.decryptPlan cipher.chunkSize begin_ last).delivered
        (encryptor.plainChunk content) count =
      (content.drop begin_).take (min (last - begin_ + 1)
        (count * cipher.chunkSize - begin_ % cipher.chunkSize)) := by
  have joined : ∀ count,
      (EncryptingRepository.decryptPlan cipher.chunkSize begin_ last).joined
          (encryptor.plainChunk content) count =
        (content.drop (begin_ / cipher.chunkSize * cipher.chunkSize)).take
          (count * cipher.chunkSize) := by
    intro count
    induction count with
    | zero => simp [DecryptPlan.joined]
    | succ count induction =>
        rw [joined_succ, induction, ChunkCipher.plainChunk, same,
          Nat.add_mul count, Nat.one_mul, List.take_add, List.drop_drop]
        congr 3
        change (begin_ / cipher.chunkSize + count) * cipher.chunkSize = _
        rw [Nat.add_mul]
  have first := Nat.div_add_mod begin_ cipher.chunkSize
  rw [Nat.mul_comm] at first
  rw [delivered, joined]
  change ((List.take _ _).drop (begin_ % cipher.chunkSize)).take
    (last - begin_ + 1) = _
  rw [List.drop_take, List.drop_drop, List.take_take, first]

end DecryptPlan

end Tgdcfs
