import Tgdcfs.Upload.Partition

/-!
# Encrypted uploads

An encrypting message emits a header and one sealed chunk per chunk of the
plaintext it reads from the message it wraps.  What it has emitted is
described by `Emitted`, whatever the plaintext chunks were; how the wrapped
message supplies them is a parameter.
-/

namespace Tgdcfs

namespace ChunkCipher

variable (cipher : ChunkCipher)

/-- The number of chunks of a plaintext. -/
def chunkCount (size : Nat) : Nat :=
  size / cipher.chunkSize + if size % cipher.chunkSize = 0 then 0 else 1

def chunkLength (size index : Nat) : Nat :=
  min cipher.chunkSize (size - index * cipher.chunkSize)

def plainChunk (content : Bytes) (index : Nat) : Bytes :=
  (content.drop (index * cipher.chunkSize)).take cipher.chunkSize

/-- `nonce || ciphertext || tag` of a chunk. -/
def sealChunk (index : Nat) (plaintext : Bytes) : Bytes :=
  cipher.salt.take 4 ++ packUInt64 index ++
    cipher.aead (cipher.salt.take 4 ++ packUInt64 index) plaintext

/-- The header and the first sealed chunks. -/
def emits (plain : Nat → Bytes) (count : Nat) : Bytes :=
  cipher.header ++ (List.range count).flatMap fun index =>
    cipher.sealChunk index (plain index)

/-- The ciphertext of a whole plaintext. -/
def sealedSource (content : Bytes) : Bytes :=
  cipher.emits (cipher.plainChunk content)
    (cipher.chunkCount content.length)

/-- Where the first `count` chunks of a ciphertext end. -/
def boundary (size count : Nat) : Nat :=
  HEADER_SIZE + min size (count * cipher.chunkSize) + count * CHUNK_OVERHEAD

/-- What the encryption is relied on for: the tag is all it adds, and it can
be undone. -/
structure Lawful : Prop where
  aead_length : ∀ nonce plaintext,
    (cipher.aead nonce plaintext).length = plaintext.length + TAG_SIZE
  aead_injective : ∀ nonce, Function.Injective (cipher.aead nonce)

variable {cipher}

theorem lt_chunkCount_iff {size index : Nat} :
    index < cipher.chunkCount size ↔ index * cipher.chunkSize < size := by
  have positive := cipher.chunkSize_pos
  have division := Nat.div_add_mod size cipher.chunkSize
  have remainder := Nat.mod_lt size positive
  have commuted := Nat.mul_comm cipher.chunkSize (size / cipher.chunkSize)
  unfold chunkCount
  split
  · rename_i whole
    rw [Nat.add_zero, Nat.lt_div_iff_mul_lt positive]
    constructor
    · intro before
      omega
    · intro inside
      by_contra beyond
      have last : size / cipher.chunkSize ≤ index := by
        apply Nat.le_of_not_lt
        intro smaller
        have step := Nat.mul_le_mul_right cipher.chunkSize smaller
        rw [Nat.succ_mul] at step
        omega
      have reach := Nat.mul_le_mul_right cipher.chunkSize last
      omega
  · rename_i partly
    constructor
    · intro before
      have last : index ≤ size / cipher.chunkSize := by omega
      have reach := Nat.mul_le_mul_right cipher.chunkSize last
      omega
    · intro inside
      by_contra beyond
      have last : size / cipher.chunkSize + 1 ≤ index := by omega
      have reach := Nat.mul_le_mul_right cipher.chunkSize last
      rw [Nat.add_mul, Nat.one_mul] at reach
      omega

theorem le_chunkCount_mul (cipher : ChunkCipher) (size : Nat) :
    size ≤ cipher.chunkCount size * cipher.chunkSize := by
  apply Nat.le_of_not_lt
  intro beyond
  exact lt_irrefl _ (lt_chunkCount_iff.mpr beyond)

theorem boundary_succ (size count : Nat) :
    cipher.boundary size (count + 1) = cipher.boundary size count +
      (cipher.chunkLength size count + CHUNK_OVERHEAD) := by
  unfold boundary chunkLength
  rw [Nat.add_mul, Nat.add_mul, Nat.one_mul, Nat.one_mul]
  omega

theorem boundary_mono {size first second : Nat} (ordered : first ≤ second) :
    cipher.boundary size first ≤ cipher.boundary size second := by
  induction second, ordered using Nat.le_induction with
  | base => exact le_rfl
  | succ count _ induction =>
      rw [boundary_succ]
      omega

theorem boundary_chunkCount (size : Nat) :
    cipher.boundary size (cipher.chunkCount size) =
      HEADER_SIZE + cipher.ciphertextSize size := by
  rcases Nat.eq_zero_or_pos size with rfl | nonempty
  · simp [boundary, ciphertextSize, chunkCount]
  have covered := cipher.le_chunkCount_mul size
  unfold boundary ciphertextSize
  rw [Nat.min_eq_left covered, if_neg (by omega)]
  unfold chunkCount
  omega

theorem sealChunk_length (lawful : cipher.Lawful) (index : Nat)
    (plaintext : Bytes) :
    (cipher.sealChunk index plaintext).length =
      plaintext.length + CHUNK_OVERHEAD := by
  have salt := cipher.salt_length
  unfold sealChunk packUInt64 CHUNK_OVERHEAD NONCE_SIZE TAG_SIZE
  rw [List.length_append, lawful.aead_length, List.length_append,
    List.length_take, List.length_map, List.length_range]
  unfold TAG_SIZE
  omega

theorem emits_succ (plain : Nat → Bytes) (count : Nat) :
    cipher.emits plain (count + 1) =
      cipher.emits plain count ++ cipher.sealChunk count (plain count) := by
  unfold emits
  rw [List.range_succ, List.flatMap_append, ← List.append_assoc,
    List.flatMap_singleton]

theorem emits_congr {plain other : Nat → Bytes} {count : Nat}
    (same : ∀ index < count, plain index = other index) :
    cipher.emits plain count = cipher.emits other count := by
  unfold emits
  congr 1
  apply List.flatMap_congr
  intro index member
  rw [same index (List.mem_range.mp member)]

theorem emits_length (lawful : cipher.Lawful) {size : Nat}
    {plain : Nat → Bytes} {count : Nat}
    (sized : ∀ index < count,
      (plain index).length = cipher.chunkLength size index) :
    (cipher.emits plain count).length = cipher.boundary size count := by
  induction count with
  | zero => simp [emits, boundary, cipher.header_length]
  | succ count induction =>
      rw [emits_succ, List.length_append, boundary_succ,
        sealChunk_length lawful, sized count (Nat.lt_succ_self _),
        induction fun index smaller =>
          sized index (Nat.lt_succ_of_lt smaller)]

theorem plainChunk_length (content : Bytes) (index : Nat) :
    (cipher.plainChunk content index).length =
      cipher.chunkLength content.length index := by
  rw [plainChunk, chunkLength, List.length_take, List.length_drop]

theorem encryptChunk_eq_some {plaintext encrypted : Bytes} {index : Nat}
    (encrypts : cipher.encryptChunk plaintext index = some encrypted) :
    index ≤ 0xFFFFFFFFFFFFFFFF ∧
      encrypted = cipher.sealChunk index plaintext := by
  unfold encryptChunk at encrypts
  split at encrypts
  · cases encrypts
  · obtain ⟨nonce, made, same⟩ := Option.map_eq_some_iff.mp encrypts
    unfold chunkNonce at made
    split at made
    · cases made
    · rename_i small
      cases made
      exact ⟨Nat.le_of_not_lt small, same.symm⟩

theorem encryptChunk_of_small {plaintext : Bytes} {index : Nat}
    (fits : plaintext.length ≤ cipher.chunkSize)
    (small : index ≤ 0xFFFFFFFFFFFFFFFF) :
    cipher.encryptChunk plaintext index =
      some (cipher.sealChunk index plaintext) := by
  unfold encryptChunk chunkNonce
  rw [if_neg (Nat.not_lt.mpr fits), if_neg (Nat.not_lt.mpr small)]
  rfl

end ChunkCipher

section Emission

variable {σ : Type} {cipher : ChunkCipher} {inner fetched : Message σ}
  {size : Nat} {ready supply : Nat → σ → Prop} {chunk : Nat → Bytes → Prop}

/-- Chunk indices are packed into eight bytes. -/
def MAX_CHUNKS : Nat := 0x10000000000000000

/-- The message has emitted `out`: with what is pending, that is the header
and `count` sealed chunks, the last of which was needed.  `source` says how
the wrapped message stands after `count` chunks. -/
structure EmittedAt (cipher : ChunkCipher) (size : Nat)
    (ready : Nat → σ → Prop) (chunk : Nat → Bytes → Prop) (out : Bytes)
    (message : EncryptingMessage σ) (plain : Nat → Bytes) (count : Nat) :
    Prop where
  header : message.headerEmitted = true
  bound : count ≤ cipher.chunkCount size
  small : count ≤ MAX_CHUNKS
  index : message.chunkIndex = count
  plaintext : message.plaintextRead = min size (count * cipher.chunkSize)
  bytes : out ++ message.pending = cipher.emits plain count
  chunks : ∀ index < count,
    (plain index).length = cipher.chunkLength size index ∧
      chunk index (plain index)
  needed : count = 0 ∨ cipher.boundary size (count - 1) < out.length
  source : ready count message.inner

def Emitted (cipher : ChunkCipher) (size : Nat) (ready : Nat → σ → Prop)
    (chunk : Nat → Bytes → Prop) (out : Bytes)
    (message : EncryptingMessage σ) : Prop :=
  ∃ plain count, EmittedAt cipher size ready chunk out message plain count

/-- The wrapped message hands out one chunk after the other. -/
structure Supplies (cipher : ChunkCipher) (inner : Message σ) (size : Nat)
    (supply : Nat → σ → Prop) (chunk : Nat → Bytes → Prop) : Prop where
  size_eq : ∀ {count state}, supply count state → inner.getSize state = size
  reads : ∀ {count state next data}, supply count state →
    count < cipher.chunkCount size →
      inner.read state (cipher.chunkLength size count) =
          some (next, data) →
        data.length = cipher.chunkLength size count ∧
          chunk count data ∧ supply (count + 1) next

/-- A message that answers a read in full answers it in one round. -/
theorem gather_of_full {want : Nat} {state : σ} (positive : 0 < want)
    (full : ∀ next data, inner.read state want = some (next, data) →
      data.length = want) :
    EncryptingMessage.gather inner want want state [] =
      inner.read state want := by
  obtain ⟨rounds, rfl⟩ : ∃ rounds, want = rounds + 1 :=
    ⟨want - 1, by omega⟩
  unfold EncryptingMessage.gather
  rw [if_neg (by simp)]
  simp only [List.length_nil, Nat.sub_zero, List.nil_append]
  cases read : inner.read state (rounds + 1) with
  | none => rfl
  | some result =>
      obtain ⟨next, data⟩ := result
      have whole := full next data read
      have nonempty : data.isEmpty = false := by
        cases data with
        | nil => simp at whole
        | cons head tail => rfl
      simp only [nonempty, Bool.false_eq_true, if_false]
      cases rounds with
      | zero => rfl
      | succ rounds =>
          unfold EncryptingMessage.gather
          rw [if_pos (Nat.le_of_eq whole.symm)]

/-- Gathering a chunk from `inner` in any number of reads is one read of
`fetched`. -/
structure Gathers (cipher : ChunkCipher) (inner fetched : Message σ)
    (size : Nat) (supply : Nat → σ → Prop) : Prop where
  size_eq : ∀ {count state}, supply count state →
    inner.getSize state = fetched.getSize state
  gather_eq : ∀ {count state}, supply count state →
    count < cipher.chunkCount size →
      EncryptingMessage.gather inner (cipher.chunkLength size count)
        (cipher.chunkLength size count) state [] =
          fetched.read state (cipher.chunkLength size count)

variable {count : Nat}

theorem chunkLength_pos (more : count < cipher.chunkCount size) :
    0 < cipher.chunkLength size count := by
  have inside := ChunkCipher.lt_chunkCount_iff.mp more
  have positive := cipher.chunkSize_pos
  unfold ChunkCipher.chunkLength
  omega

/-- A message that supplies whole chunks is read once for each. -/
theorem Supplies.gathers
    (supplies : Supplies cipher inner size supply chunk) :
    Gathers cipher inner inner size supply := by
  refine ⟨fun _ => rfl, ?_⟩
  intro count state here more
  apply gather_of_full (chunkLength_pos more)
  intro next data read
  exact (supplies.reads here more read).1

namespace EmittedAt

variable {out : Bytes} {message : EncryptingMessage σ}
  {plain : Nat → Bytes} {count : Nat}

theorem length_eq
    (here : EmittedAt cipher size ready chunk out message plain count)
    (lawful : cipher.Lawful) :
    out.length + message.pending.length = cipher.boundary size count := by
  rw [← ChunkCipher.emits_length lawful fun index smaller =>
    (here.chunks index smaller).1, ← here.bytes, List.length_append]

theorem drain
    (here : EmittedAt cipher size ready chunk out message plain count)
    (length : Nat) :
    EmittedAt cipher size ready chunk (out ++ (message.drain length).2)
      (message.drain length).1 plain count := by
  refine ⟨here.header, here.bound, here.small, here.index, here.plaintext,
    ?_, here.chunks, ?_, here.source⟩
  · change out ++ message.pending.take length ++
      message.pending.drop length = _
    rw [List.append_assoc, List.take_append_drop]
    exact here.bytes
  · rcases here.needed with first | before
    · exact .inl first
    · refine .inr (Nat.lt_of_lt_of_le before ?_)
      rw [List.length_append]
      omega

/-- What is read of the plaintext when a chunk is missing. -/
theorem readPlaintextChunk_eq
    (here : EmittedAt cipher size supply chunk out message plain count)
    (gathers : Gathers cipher inner fetched size supply)
    (supplies : Supplies cipher fetched size supply chunk)
    (more : count < cipher.chunkCount size) :
    EncryptingMessage.readPlaintextChunk cipher inner message =
      (fetched.read message.inner (cipher.chunkLength size count)).map
        fun result =>
          ({ message with
              inner := result.1
              plaintextRead := message.plaintextRead + result.2.length },
            result.2) := by
  have inside := ChunkCipher.lt_chunkCount_iff.mp more
  have positive := cipher.chunkSize_pos
  have remaining : inner.getSize message.inner - message.plaintextRead =
      size - count * cipher.chunkSize := by
    rw [gathers.size_eq here.source, supplies.size_eq here.source,
      here.plaintext]
    omega
  have full := gathers.gather_eq here.source more
  unfold EncryptingMessage.readPlaintextChunk
  rw [remaining]
  dsimp only
  rw [if_neg (by omega)]
  unfold ChunkCipher.chunkLength at full ⊢
  rw [full]

theorem refill
    (here : EmittedAt cipher size supply chunk out message plain count)
    (lawful : cipher.Lawful)
    (supplies : Supplies cipher fetched size supply chunk)
    (empty : message.pending = []) (more : count < cipher.chunkCount size)
    (small : count < MAX_CHUNKS) {next : σ} {data : Bytes}
    (read : fetched.read message.inner (cipher.chunkLength size count) =
      some (next, data)) {length : Nat} (wanted : 0 < length) :
    EmittedAt cipher size supply chunk
      (out ++ (cipher.sealChunk count data).take length)
      { message with
        inner := next
        plaintextRead := message.plaintextRead + data.length
        chunkIndex := message.chunkIndex + 1
        pending := (cipher.sealChunk count data).drop length }
      (Function.update plain count data) (count + 1) := by
  obtain ⟨sized, good, supplied⟩ := supplies.reads here.source more read
  have updated : ∀ index < count,
      Function.update plain count data index = plain index := by
    intro index smaller
    exact Function.update_of_ne (Nat.ne_of_lt smaller) _ _
  have ended := here.length_eq lawful
  have sealedLength := ChunkCipher.sealChunk_length lawful count data
  refine ⟨here.header, more, small, by rw [here.index], ?_, ?_, ?_,
    .inr ?_, supplied⟩
  · change message.plaintextRead + data.length = _
    rw [here.plaintext, sized, ChunkCipher.chunkLength, Nat.add_mul,
      Nat.one_mul]
    omega
  · rw [List.append_assoc, List.take_append_drop, ChunkCipher.emits_succ,
      ChunkCipher.emits_congr updated, Function.update_self, ← here.bytes,
      empty, List.append_nil]
  · intro index smaller
    by_cases same : index = count
    · subst index
      rw [Function.update_self]
      exact ⟨sized, good⟩
    · rw [Function.update_of_ne same]
      exact here.chunks index (by omega)
  · rw [empty, List.length_nil] at ended
    rw [Nat.add_sub_cancel, List.length_append, List.length_take,
      sealedLength]
    unfold CHUNK_OVERHEAD NONCE_SIZE TAG_SIZE
    omega

/-- Before the end of the ciphertext there is another chunk to seal. -/
theorem more_chunks
    (here : EmittedAt cipher size ready chunk out message plain count)
    (lawful : cipher.Lawful) (empty : message.pending = [])
    (inside : out.length <
      cipher.boundary size (cipher.chunkCount size)) :
    count < cipher.chunkCount size := by
  have ended := here.length_eq lawful
  rw [empty, List.length_nil, Nat.add_zero] at ended
  rcases Nat.lt_or_eq_of_le here.bound with more | all
  · exact more
  · rw [all] at ended
    omega

end EmittedAt

variable {out : Bytes} {message : EncryptingMessage σ}

theorem Emitted.length_le (lawful : cipher.Lawful)
    (here : Emitted cipher size ready chunk out message) :
    out.length ≤ cipher.boundary size (cipher.chunkCount size) := by
  obtain ⟨plain, count, here⟩ := here
  have ended := here.length_eq lawful
  have bound : cipher.boundary size count ≤
      cipher.boundary size (cipher.chunkCount size) :=
    ChunkCipher.boundary_mono here.bound
  omega

/-- Why a read raises: the wrapped message does, or the index of a chunk is
too large for its nonce. -/
def Blocked (cipher : ChunkCipher) (inner : Message σ) (size : Nat)
    (supply : Nat → σ → Prop) : Prop :=
  ∃ count state, supply count state ∧ count < cipher.chunkCount size ∧
    (inner.read state (cipher.chunkLength size count) = none ∨
      MAX_CHUNKS ≤ count)

theorem readLoop_succ (rounds length : Nat) (message : EncryptingMessage σ)
    (out : Bytes) :
    EncryptingMessage.readLoop cipher inner (rounds + 1) length message
        out =
      if length ≤ out.length then some (message, out)
      else if !message.pending.isEmpty then
        EncryptingMessage.readLoop cipher inner rounds length
          (message.drain (length - out.length)).1
          (out ++ (message.drain (length - out.length)).2)
      else
        match EncryptingMessage.readPlaintextChunk cipher inner message with
        | none => none
        | some (advanced, plaintext) =>
            if plaintext.isEmpty then some (advanced, out)
            else
              match cipher.encryptChunk plaintext advanced.chunkIndex with
              | none => none
              | some encrypted =>
                  EncryptingMessage.readLoop cipher inner rounds length
                    { advanced with
                      chunkIndex := advanced.chunkIndex + 1
                      pending := encrypted.drop (length - out.length) }
                    (out ++ encrypted.take (length - out.length)) := rfl

variable {rounds length : Nat} {before : Bytes}

/-- One round of a read either raises or hands out more bytes. -/
theorem readLoop_round (lawful : cipher.Lawful)
    (gathers : Gathers cipher inner fetched size supply)
    (supplies : Supplies cipher fetched size supply chunk)
    (here : Emitted cipher size supply chunk (before ++ out) message)
    (wanted : out.length < length)
    (inside : before.length + out.length <
      cipher.boundary size (cipher.chunkCount size)) :
    (EncryptingMessage.readLoop cipher inner (rounds + 1) length message
        out = none ∧ Blocked cipher fetched size supply) ∨
    ∃ next taken,
      EncryptingMessage.readLoop cipher inner (rounds + 1) length message
          out =
        EncryptingMessage.readLoop cipher inner rounds length next
          (out ++ taken) ∧
      Emitted cipher size supply chunk (before ++ (out ++ taken)) next ∧
      0 < taken.length ∧ out.length + taken.length ≤ length := by
  obtain ⟨plain, count, here⟩ := here
  rw [readLoop_succ, if_neg (Nat.not_le.mpr wanted)]
  split
  · rename_i pending
    have nonempty : 0 < message.pending.length := by
      rw [List.length_pos_iff]
      simpa using pending
    have drained := here.drain (length - out.length)
    rw [List.append_assoc] at drained
    have taken : (message.drain (length - out.length)).2.length =
        min (length - out.length) message.pending.length :=
      List.length_take
    exact .inr ⟨_, _, rfl, ⟨plain, count, drained⟩, by omega, by omega⟩
  · rename_i vacant
    have empty : message.pending = [] := by simpa using vacant
    have more := here.more_chunks lawful empty (by
      rw [List.length_append]
      omega)
    have inRange := ChunkCipher.lt_chunkCount_iff.mp more
    have positive := cipher.chunkSize_pos
    rw [here.readPlaintextChunk_eq gathers supplies more]
    cases innerRead : fetched.read message.inner
        (cipher.chunkLength size count) with
    | none =>
        exact .inl ⟨rfl, count, message.inner, here.source, more,
          .inl innerRead⟩
    | some result =>
        obtain ⟨source, plaintext⟩ := result
        have sized := (supplies.reads here.source more innerRead).1
        have fits : plaintext.length ≤ cipher.chunkSize := by
          rw [sized, ChunkCipher.chunkLength]
          omega
        have nonempty : plaintext.isEmpty = false := by
          cases plaintext with
          | nil =>
              rw [List.length_nil, ChunkCipher.chunkLength] at sized
              omega
          | cons head tail => rfl
        simp only [Option.map_some, nonempty, Bool.false_eq_true, if_false,
          here.index]
        by_cases small : count < MAX_CHUNKS
        · rw [ChunkCipher.encryptChunk_of_small fits (by
            unfold MAX_CHUNKS at small
            omega)]
          have missing : 0 < length - out.length := by omega
          have refilled := here.refill lawful supplies empty more small
            innerRead missing
          rw [List.append_assoc, here.index] at refilled
          have taken : ((cipher.sealChunk count plaintext).take
              (length - out.length)).length =
              min (length - out.length)
                (plaintext.length + CHUNK_OVERHEAD) := by
            rw [List.length_take, ChunkCipher.sealChunk_length lawful]
          unfold CHUNK_OVERHEAD NONCE_SIZE TAG_SIZE at taken
          exact .inr ⟨_, _, rfl, ⟨_, _, refilled⟩, by omega, by omega⟩
        · refine .inl ⟨?_, count, message.inner, here.source, more,
            .inr (Nat.le_of_not_lt small)⟩
          cases encrypts : cipher.encryptChunk plaintext count with
          | none => rfl
          | some encrypted =>
              have bounded := (ChunkCipher.encryptChunk_eq_some encrypts).1
              unfold MAX_CHUNKS at small
              omega

/-- At the end of the ciphertext a read returns what it has. -/
theorem readLoop_end (lawful : cipher.Lawful)
    (gathers : Gathers cipher inner fetched size supply)
    (supplies : Supplies cipher fetched size supply chunk)
    (here : Emitted cipher size supply chunk (before ++ out) message)
    (all : cipher.boundary size (cipher.chunkCount size) ≤
      before.length + out.length) :
    EncryptingMessage.readLoop cipher inner rounds length message out =
      some (message, out) := by
  obtain ⟨plain, count, here⟩ := here
  have ended := here.length_eq lawful
  have bound : cipher.boundary size count ≤
      cipher.boundary size (cipher.chunkCount size) :=
    ChunkCipher.boundary_mono here.bound
  rw [List.length_append] at ended
  have empty : message.pending = [] := by
    rw [← List.length_eq_zero_iff]
    omega
  have last : count = cipher.chunkCount size := by
    by_contra other
    have next : cipher.boundary size (count + 1) ≤
        cipher.boundary size (cipher.chunkCount size) :=
      ChunkCipher.boundary_mono (Nat.lt_of_le_of_ne here.bound other)
    rw [ChunkCipher.boundary_succ] at next
    unfold CHUNK_OVERHEAD NONCE_SIZE TAG_SIZE at next
    omega
  have covered := cipher.le_chunkCount_mul size
  have finished : inner.getSize message.inner - message.plaintextRead =
      0 := by
    rw [gathers.size_eq here.source, supplies.size_eq here.source,
      here.plaintext, last]
    omega
  cases rounds with
  | zero => rfl
  | succ rounds =>
      rw [readLoop_succ]
      split
      · rfl
      · simp [empty, EncryptingMessage.readPlaintextChunk, finished]

/-- A read of a message that has emitted `before` goes on from there, up to
the end of the ciphertext, or raises. -/
theorem readLoop_upTo (lawful : cipher.Lawful)
    (gathers : Gathers cipher inner fetched size supply)
    (supplies : Supplies cipher fetched size supply chunk)
    (here : Emitted cipher size supply chunk (before ++ out) message)
    (enough : length ≤ out.length + rounds) (sofar : out.length ≤ length)
    (inside : before.length + out.length ≤
      cipher.boundary size (cipher.chunkCount size)) :
    (EncryptingMessage.readLoop cipher inner rounds length message out =
        none ∧ Blocked cipher fetched size supply) ∨
    ∃ next data,
      EncryptingMessage.readLoop cipher inner rounds length message out =
        some (next, data) ∧
      Emitted cipher size supply chunk (before ++ data) next ∧
      data.length = min length
        (cipher.boundary size (cipher.chunkCount size) - before.length) := by
  induction rounds generalizing out message with
  | zero => exact .inr ⟨message, out, rfl, here, by omega⟩
  | succ rounds induction =>
      by_cases wanted : out.length < length
      · rcases Nat.lt_or_ge (before.length + out.length)
          (cipher.boundary size (cipher.chunkCount size)) with more | all
        · rcases readLoop_round lawful gathers supplies here wanted more with
            raised | ⟨next, taken, same, moved, progress, bound⟩
          · exact .inl raised
          · rw [same]
            have within := Emitted.length_le lawful moved
            rw [List.length_append, List.length_append] at within
            apply induction moved
            · rw [List.length_append]
              omega
            · rw [List.length_append]
              omega
            · rw [List.length_append]
              omega
        · refine .inr ⟨message, out, ?_, here, by omega⟩
          exact readLoop_end lawful gathers supplies here all
      · refine .inr ⟨message, out, ?_, here, by omega⟩
        rw [readLoop_succ, if_pos (Nat.le_of_not_lt wanted)]

/-- Inside the ciphertext a read returns all that was asked for. -/
theorem readLoop_emits (lawful : cipher.Lawful)
    (supplies : Supplies cipher inner size supply chunk)
    (here : Emitted cipher size supply chunk (before ++ out) message)
    (enough : length ≤ out.length + rounds) (sofar : out.length ≤ length)
    (inside : before.length + length ≤
      cipher.boundary size (cipher.chunkCount size)) :
    (EncryptingMessage.readLoop cipher inner rounds length message out =
        none ∧ Blocked cipher inner size supply) ∨
    ∃ next data,
      EncryptingMessage.readLoop cipher inner rounds length message out =
        some (next, data) ∧
      Emitted cipher size supply chunk (before ++ data) next ∧
      data.length = length := by
  rcases readLoop_upTo lawful supplies.gathers supplies here enough sofar
    (by omega) with raised | ⟨next, data, read, moved, length_eq⟩
  · exact .inl raised
  · exact .inr ⟨next, data, read, moved, by omega⟩

theorem readAll_upTo (lawful : cipher.Lawful)
    (gathers : Gathers cipher inner fetched size supply)
    (supplies : Supplies cipher fetched size supply chunk) {lengths : List Nat}
    (here : Emitted cipher size supply chunk out message) :
    (readAll (EncryptingMessage.operations cipher inner) lengths message =
        none ∧ Blocked cipher fetched size supply) ∨
    ∃ next data,
      readAll (EncryptingMessage.operations cipher inner) lengths message =
        some (next, data) ∧
      Emitted cipher size supply chunk (out ++ data) next ∧
      data.length = min lengths.sum
        (cipher.boundary size (cipher.chunkCount size) - out.length) := by
  induction lengths generalizing out message with
  | nil =>
      refine .inr ⟨message, [], rfl, ?_, by simp⟩
      rw [List.append_nil]
      exact here
  | cons length lengths induction =>
      have within := here.length_le lawful
      rw [← List.append_nil out] at here
      have outcome := readLoop_upTo lawful gathers supplies here
        (show length ≤ 0 + length by omega) (Nat.zero_le _) within
      change ((EncryptingMessage.operations cipher inner).read message
        length = none ∧ _) ∨ ∃ next data, (EncryptingMessage.operations
          cipher inner).read message length = some (next, data) ∧ _
        at outcome
      rcases outcome with ⟨raised, blocked⟩ |
        ⟨next, data, read, moved, exactLength⟩
      · refine .inl ⟨?_, blocked⟩
        unfold readAll
        rw [raised]
      · have first : readAll (EncryptingMessage.operations cipher inner)
            (length :: lengths) message =
            (readAll (EncryptingMessage.operations cipher inner) lengths
              next).map fun rest => (rest.1, data ++ rest.2) := by
          conv_lhs => unfold readAll
          rw [read]
        rcases induction moved with
          ⟨raised, blocked⟩ | ⟨last, rest, restRead, ended, restLength⟩
        · refine .inl ⟨?_, blocked⟩
          rw [first, raised]
          rfl
        · refine .inr ⟨last, data ++ rest, ?_, ?_, ?_⟩
          · rw [first, restRead]
            rfl
          · rw [← List.append_assoc]
            exact ended
          · rw [List.length_append] at restLength
            rw [List.length_append, List.sum_cons]
            omega

/-- How the wrapped message survives the end of one part and the beginning
of the next: `reopen` names the numbers of chunks after which it may be
opened. -/
structure Reopens (inner : Message σ) (reopen : Nat → Prop)
    (ready supply : Nat → σ → Prop) : Prop where
  opens : ∀ {count state}, ready count state → reopen count →
    supply count (inner.open_ state)
  closes : ∀ {count state}, supply count state →
    ready count (inner.close state)

/-- The message has not been opened yet. -/
structure Untouched (ready : Nat → σ → Prop)
    (message : EncryptingMessage σ) : Prop where
  header : message.headerEmitted = false
  index : message.chunkIndex = 0
  plaintext : message.plaintextRead = 0
  source : ready 0 message.inner

variable {reopen : Nat → Prop}

theorem Untouched.opens (untouched : Untouched ready message)
    (reopens : Reopens inner reopen ready supply) (first : reopen 0)
    (part : Nat) :
    Emitted cipher size supply chunk [] (EncryptingMessage.open_ cipher
      inner { message with size := part }) := by
  refine ⟨fun _ => [], 0, ?_⟩
  unfold EncryptingMessage.open_
  dsimp only
  rw [if_neg (by simp [untouched.header])]
  refine ⟨rfl, Nat.zero_le _, Nat.zero_le _, untouched.index, ?_, ?_, ?_,
    .inl rfl, reopens.opens untouched.source first⟩
  · change message.plaintextRead = _
    rw [untouched.plaintext, Nat.zero_mul, Nat.min_zero]
  · simp [ChunkCipher.emits]
  · intro index smaller
    omega

theorem EmittedAt.opens {plain : Nat → Bytes}
    (here : EmittedAt cipher size ready chunk out message plain count)
    (reopens : Reopens inner reopen ready supply) (again : reopen count)
    (part : Nat) :
    EmittedAt cipher size supply chunk out (EncryptingMessage.open_ cipher
      inner { message with size := part }) plain count := by
  unfold EncryptingMessage.open_
  dsimp only
  rw [if_pos here.header]
  exact ⟨here.header, here.bound, here.small, here.index, here.plaintext,
    here.bytes, here.chunks, here.needed, reopens.opens here.source again⟩

theorem EmittedAt.closes {plain : Nat → Bytes}
    (here : EmittedAt cipher size supply chunk out message plain count)
    (reopens : Reopens inner reopen ready supply) (part : Nat) :
    EmittedAt cipher size ready chunk out
      ((EncryptingMessage.operations cipher inner).nextPart part
        ((EncryptingMessage.operations cipher inner).close message))
      plain count :=
  ⟨here.header, here.bound, here.small, here.index, here.plaintext,
    here.bytes, here.chunks, here.needed, reopens.closes here.source⟩

variable {content : Bytes}

theorem sealedSource_length (lawful : cipher.Lawful) :
    (cipher.sealedSource content).length =
      HEADER_SIZE + cipher.ciphertextSize content.length := by
  rw [ChunkCipher.sealedSource, ChunkCipher.emits_length lawful
    fun index _ => ChunkCipher.plainChunk_length content index,
    ChunkCipher.boundary_chunkCount content.length]

theorem emits_isPrefix (plain : Nat → Bytes) {total : Nat}
    (ordered : count ≤ total) :
    cipher.emits plain count <+: cipher.emits plain total := by
  induction total, ordered using Nat.le_induction with
  | base => exact List.prefix_rfl
  | succ total _ induction =>
      rw [ChunkCipher.emits_succ]
      exact induction.trans (List.prefix_append _ _)

/-- What is emitted from the right chunks is a beginning of the
ciphertext. -/
theorem Emitted.isPrefix (here : Emitted cipher content.length ready
      (fun index data => data = cipher.plainChunk content index) out
      message) : out <+: cipher.sealedSource content := by
  obtain ⟨plain, count, here⟩ := here
  have right : cipher.emits plain count =
      cipher.emits (cipher.plainChunk content) count :=
    ChunkCipher.emits_congr fun index smaller =>
      (here.chunks index smaller).2
  have beginning : out <+: cipher.emits (cipher.plainChunk content)
      count := by
    rw [← right, ← here.bytes]
    exact List.prefix_append _ _
  exact beginning.trans (emits_isPrefix _ here.bound)

/-- An encrypting message whose source supplies the right chunks follows the
ciphertext.  A part may begin where the wrapped message may be opened
again. -/
theorem encrypting_follows (lawful : cipher.Lawful)
    (supplies : Supplies cipher inner content.length supply
      fun index data => data = cipher.plainChunk content index)
    (reopens : Reopens inner reopen ready supply) :
    Follows (EncryptingMessage.operations cipher inner)
      (cipher.sealedSource content)
      (fun offset => ∀ count ≤ cipher.chunkCount content.length,
        offset ≤ cipher.boundary content.length count →
        (count = 0 ∨
          cipher.boundary content.length (count - 1) < offset) →
        reopen count)
      (fun offset message =>
        (offset = 0 ∧ Untouched ready message) ∨
        Emitted cipher content.length ready
          (fun index data => data = cipher.plainChunk content index)
          ((cipher.sealedSource content).take offset) message)
      (fun offset part done message =>
        offset + part ≤ (cipher.sealedSource content).length ∧
        Emitted cipher content.length supply
          (fun index data => data = cipher.plainChunk content index)
          ((cipher.sealedSource content).take (offset + done))
          message) := by
  refine ⟨?_, ?_, ?_⟩
  · intro offset part message here place positive inside
    refine ⟨inside, ?_⟩
    rcases here with ⟨rfl, untouched⟩ | ⟨plain, count, here⟩
    · have first : reopen 0 :=
        place 0 (Nat.zero_le _) (Nat.zero_le _) (.inl rfl)
      rw [Nat.zero_add, List.take_zero]
      exact untouched.opens reopens first part
    · have ended := here.length_eq lawful
      have reached : ((cipher.sealedSource content).take offset).length =
          offset := by
        rw [List.length_take]
        omega
      have again : reopen count := by
        apply place count here.bound
        · omega
        · rcases here.needed with initial | before
          · exact .inl initial
          · rw [reached] at before
            exact .inr before
      exact ⟨plain, count, here.opens reopens again part⟩
  · intro offset part done message length next data here inside read
    obtain ⟨within, here⟩ := here
    have reached : ((cipher.sealedSource content).take
        (offset + done)).length = offset + done := by
      rw [List.length_take]
      omega
    have total : cipher.boundary content.length
        (cipher.chunkCount content.length) =
          (cipher.sealedSource content).length := by
      rw [sealedSource_length lawful,
        ChunkCipher.boundary_chunkCount content.length]
    rw [← List.append_nil ((cipher.sealedSource content).take
      (offset + done))] at here
    have outcome := readLoop_emits lawful supplies here
      (show length ≤ 0 + length by omega) (Nat.zero_le _)
      (by rw [reached, total]; omega)
    change EncryptingMessage.readLoop cipher inner length length message
      [] = some (next, data) at read
    rw [read] at outcome
    obtain ⟨raised, _⟩ | ⟨_, _, same, moved, exactLength⟩ := outcome
    · cases raised
    cases same
    have beginning := moved.isPrefix
    have all : (cipher.sealedSource content).take (offset + done) ++ data =
        (cipher.sealedSource content).take (offset + (done + length)) := by
      have taken := List.prefix_iff_eq_take.mp beginning
      rw [List.length_append, reached, exactLength, Nat.add_assoc] at taken
      exact taken
    refine ⟨?_, within, all ▸ moved⟩
    have split : (cipher.sealedSource content).take
        (offset + (done + length)) =
        (cipher.sealedSource content).take (offset + done) ++
          ((cipher.sealedSource content).drop (offset + done)).take
            length := by
      rw [← Nat.add_assoc, List.take_add]
    exact List.append_cancel_left (all.trans split)
  · intro offset part message here
    obtain ⟨_, plain, count, here⟩ := here
    exact .inr ⟨plain, count, here.closes reopens part⟩

end Emission

end Tgdcfs
