import Tgdcfs.Upload.Sources

/-!
# Uploads that lose bytes

The two exceptions are real.  The second part of a sequential upload of a
cached version is empty.  An encrypted buffer that is opened in the middle of
its plaintext seals its beginning once more, in the place of the chunk that
was due.
-/

namespace Tgdcfs

theorem uploadSequential_cons {σ : Type} {message : Message σ}
    {part : Nat} {lengths : List Nat} {parts : List (Nat × List Nat)}
    {state next : σ} {data : Bytes}
    (sent : uploadPart message lengths (message.setSize part state) =
      some (next, data)) :
    uploadSequential message ((part, lengths) :: parts) state =
      (uploadSequential message parts (message.nextPart part next)).map
        (data :: ·) := by
  conv_lhs => unfold uploadSequential
  rw [sent]

section Standing

variable {σ : Type} {cipher : ChunkCipher} {inner : Message σ} {size : Nat}
  {ready supply : Nat → σ → Prop} {chunk : Nat → Bytes → Prop}

/-- A message between two parts of an upload. -/
def Standing (cipher : ChunkCipher) (size : Nat) (ready : Nat → σ → Prop)
    (chunk : Nat → Bytes → Prop) (out : Bytes)
    (message : EncryptingMessage σ) : Prop :=
  (out = [] ∧ Untouched ready message) ∨
    Emitted cipher size ready chunk out message

variable {out : Bytes} {message : EncryptingMessage σ}

theorem readAll_emits (lawful : cipher.Lawful)
    (supplies : Supplies cipher inner size supply chunk) {lengths : List Nat}
    (here : Emitted cipher size supply chunk out message)
    (inside : out.length + lengths.sum ≤
      cipher.boundary size (cipher.chunkCount size)) :
    (readAll (EncryptingMessage.operations cipher inner) lengths message =
        none ∧ Blocked cipher inner size supply) ∨
    ∃ next data,
      readAll (EncryptingMessage.operations cipher inner) lengths message =
        some (next, data) ∧
      Emitted cipher size supply chunk (out ++ data) next ∧
      data.length = lengths.sum := by
  rcases readAll_upTo lawful supplies.gathers supplies here with
    raised | ⟨next, data, read, moved, length⟩
  · exact .inl raised
  · exact .inr ⟨next, data, read, moved, by omega⟩

theorem Standing.opens (here : Standing cipher size ready chunk out message)
    (reopens : Reopens inner (fun _ => True) ready supply) (part : Nat) :
    Emitted cipher size supply chunk out
      ((EncryptingMessage.operations cipher inner).open_
        ((EncryptingMessage.operations cipher inner).setSize part
          message)) := by
  rcases here with ⟨rfl, untouched⟩ | ⟨plain, count, here⟩
  · exact untouched.opens reopens trivial part
  · exact ⟨plain, count, here.opens reopens trivial part⟩

/-- The first parts of an upload through a message that may always be opened
again. -/
theorem uploadSequential_emits (lawful : cipher.Lawful)
    (supplies : Supplies cipher inner size supply chunk)
    (reopens : Reopens inner (fun _ => True) ready supply)
    (here : Standing cipher size ready chunk out message)
    (lengths : List (List Nat)) (rest : List (Nat × List Nat))
    (inside : out.length + (lengths.map List.sum).sum ≤
      cipher.boundary size (cipher.chunkCount size)) :
    (uploadSequential (EncryptingMessage.operations cipher inner)
        ((lengths.map List.sum).zip lengths ++ rest) message = none ∧
      Blocked cipher inner size supply) ∨
    ∃ last uploaded,
      uploadSequential (EncryptingMessage.operations cipher inner)
          ((lengths.map List.sum).zip lengths ++ rest) message =
        (uploadSequential (EncryptingMessage.operations cipher inner) rest
          last).map (uploaded ++ ·) ∧
      Standing cipher size ready chunk (out ++ uploaded.flatten) last ∧
      uploaded.map List.length = lengths.map List.sum := by
  induction lengths generalizing out message with
  | nil =>
      refine .inr ⟨message, [], ?_, ?_, rfl⟩
      · simp
      · rw [List.flatten_nil, List.append_nil]
        exact here
  | cons first lengths induction =>
      simp only [List.map_cons, List.sum_cons, List.zip_cons_cons,
        List.cons_append] at inside ⊢
      have opened := here.opens reopens first.sum
      rcases readAll_emits lawful supplies opened
          (show out.length + first.sum ≤ _ by omega) with
        ⟨raised, blocked⟩ | ⟨next, data, read, moved, exactLength⟩
      · refine .inl ⟨?_, blocked⟩
        unfold uploadSequential uploadPart
        rw [raised]
        rfl
      · obtain ⟨plain, count, moved⟩ := moved
        have closed := moved.closes reopens first.sum
        have sentPart : uploadPart (EncryptingMessage.operations cipher
            inner) first ((EncryptingMessage.operations cipher
              inner).setSize first.sum message) =
            some ((EncryptingMessage.operations cipher inner).close next,
              data) := by
          unfold uploadPart
          rw [read]
          rfl
        rw [uploadSequential_cons sentPart]
        rcases induction (.inr ⟨plain, count, closed⟩) (by
            rw [List.length_append]
            omega) with
          ⟨raised, blocked⟩ | ⟨last, uploaded, sent, ended, sizes⟩
        · refine .inl ⟨?_, blocked⟩
          rw [raised]
          rfl
        · refine .inr ⟨last, data :: uploaded, ?_, ?_, ?_⟩
          · rw [sent, Option.map_map]
            rfl
          · rw [List.flatten_cons, ← List.append_assoc]
            exact ended
          · rw [List.map_cons, exactLength, sizes]

/-- A message that has emitted everything has sealed every chunk. -/
theorem Emitted.complete (lawful : cipher.Lawful)
    (here : Emitted cipher size ready chunk out message)
    (whole : out.length = cipher.boundary size (cipher.chunkCount size)) :
    cipher.chunkCount size ≤ MAX_CHUNKS ∧
    ∃ plain, out = cipher.emits plain (cipher.chunkCount size) ∧
      ∀ index < cipher.chunkCount size,
        (plain index).length = cipher.chunkLength size index ∧
          chunk index (plain index) := by
  obtain ⟨plain, count, here⟩ := here
  have ended := here.length_eq lawful
  have all : count = cipher.chunkCount size := by
    rcases Nat.lt_or_eq_of_le here.bound with partly | all
    · have later : cipher.boundary size (count + 1) ≤
          cipher.boundary size (cipher.chunkCount size) :=
        ChunkCipher.boundary_mono partly
      rw [ChunkCipher.boundary_succ] at later
      unfold CHUNK_OVERHEAD NONCE_SIZE at later
      omega
    · exact all
  subst all
  have nothing : message.pending = [] := by
    rw [← List.length_eq_zero_iff]
    omega
  have bytes := here.bytes
  rw [nothing, List.append_nil] at bytes
  exact ⟨here.small, plain, bytes, here.chunks⟩

end Standing

variable {cipher : ChunkCipher} {plain : Nat → Bytes}

theorem ChunkCipher.emits_injective (lawful : cipher.Lawful)
    {other : Nat → Bytes} {count : Nat}
    (sized : ∀ index < count, (plain index).length = (other index).length)
    (same : cipher.emits plain count = cipher.emits other count) :
    ∀ index < count, plain index = other index := by
  induction count with
  | zero =>
      intro index smaller
      omega
  | succ count induction =>
      rw [emits_succ, emits_succ] at same
      have lastSized : (cipher.sealChunk count (plain count)).length =
          (cipher.sealChunk count (other count)).length := by
        rw [sealChunk_length lawful, sealChunk_length lawful,
          sized count (Nat.lt_succ_self _)]
      obtain ⟨before, last⟩ := List.append_inj' same lastSized
      have lastSame : plain count = other count :=
        lawful.aead_injective _ (List.append_cancel_left last)
      intro index smaller
      rcases Nat.lt_succ_iff_lt_or_eq.mp smaller with earlier | rfl
      · exact induction
          (fun index small => sized index (Nat.lt_succ_of_lt small)) before
          index earlier
      · exact lastSame

section Rewound

variable (cipher : ChunkCipher) (content : Bytes) (first : Nat)

/-- A buffer between two parts, at least `first` chunks of which are
sealed. -/
def Rewindable (count : Nat) (state : SourceMessage) : Prop :=
  first ≤ count ∧ ∃ message : BufferMessage, state = .buffer message ∧
    message.size = content.length ∧ message.offset = 0 ∧
      message.buffer = content

/-- A buffer that was opened after `first` chunks.  It stands at its
beginning when that chunk is due, and has enough left for the later ones. -/
def Rewound (count : Nat) (state : SourceMessage) : Prop :=
  first ≤ count ∧ ∃ message : BufferMessage, state = .buffer message ∧
    message.size = content.length ∧ message.offset = 0 ∧
      message.buffer = content ∧
        content.length - count * cipher.chunkSize ≤ message.rest.length ∧
          (count = first → message.rest = content)

theorem rewound_supplies :
    Supplies cipher SourceMessage.operations content.length
      (Rewound cipher content first) fun index data =>
        index = first →
          data = content.take (cipher.chunkLength content.length first) := by
  refine ⟨?_, ?_⟩
  · rintro count state ⟨_, message, rfl, size, _, whole, _⟩
    change (if message.size = 0 then _ else _) = _
    split
    · rw [whole]
    · exact size
  · rintro count state next data
      ⟨later, message, rfl, size, place, whole, enough, start⟩ more read
    have inside := ChunkCipher.lt_chunkCount_iff.mp more
    cases read
    refine ⟨?_, ?_, Nat.le_succ_of_le later, _, rfl, size, place, whole, ?_,
      ?_⟩
    · change (message.rest.take _).length = _
      rw [List.length_take, Nat.min_eq_left]
      apply Nat.le_trans (Nat.min_le_right _ _) enough
    · intro here
      subst here
      change message.rest.take _ = _
      rw [start rfl]
    · change _ ≤ (message.rest.drop _).length
      rw [List.length_drop, ChunkCipher.chunkLength, Nat.add_mul,
        Nat.one_mul]
      omega
    · intro here
      omega

theorem rewound_reopens :
    Reopens SourceMessage.operations (fun _ => True)
      (Rewindable content first) (Rewound cipher content first) := by
  refine ⟨?_, ?_⟩
  · rintro count state ⟨later, message, rfl, size, place, whole⟩ _
    have rewound : message.buffer.drop message.offset = content := by
      rw [place, whole, List.drop_zero]
    refine ⟨later, _, rfl, size, place, whole, ?_, fun _ => rewound⟩
    change _ ≤ (message.buffer.drop message.offset).length
    rw [rewound]
    exact Nat.sub_le _ _
  · rintro count state ⟨later, message, rfl, size, place, whole, _⟩
    exact ⟨later, message, rfl, size, place, whole⟩

variable {cipher content first}

/-- Reading a buffer never raises, so that only a chunk index can. -/
theorem rewound_not_blocked
    (small : cipher.chunkCount content.length ≤ MAX_CHUNKS) :
    ¬Blocked cipher SourceMessage.operations content.length
      (Rewound cipher content first) := by
  rintro ⟨count, state, ⟨_, message, rfl, _⟩, more, raised | large⟩
  · cases raised
  · omega

end Rewound

theorem buffer_standing {chunks : List Bytes} {chunk : Nat → Bytes → Prop} :
    Standing cipher chunks.flatten.length (Rewindable chunks.flatten 0)
      chunk [] (EncryptingMessage.wrap cipher SourceMessage.operations
        (SourceKind.buffer.new chunks)) :=
  .inl ⟨rfl, rfl, rfl, rfl, le_rfl, _, rfl, rfl, rfl, rfl⟩

variable {size : Nat}

theorem lt_partition_length {partSize place : Nat} (positive : 0 < partSize)
    (inside : place * partSize < size) :
    place < (partition size partSize).length := by
  have reached : place < (size + partSize - 1) / partSize := by
    rw [Nat.lt_iff_add_one_le, Nat.le_div_iff_mul_le positive, Nat.add_mul,
      Nat.one_mul]
    omega
  unfold partition
  dsimp only
  rw [List.length_append, List.length_replicate, List.length_singleton]
  omega

theorem last_chunk_lt (nonempty : 0 < size) :
    HEADER_SIZE + (cipher.chunkCount size - 1) *
        (cipher.chunkSize + CHUNK_OVERHEAD) <
      cipher.boundary size (cipher.chunkCount size) := by
  have positive : 0 < cipher.chunkCount size := by
    rw [ChunkCipher.lt_chunkCount_iff, Nat.zero_mul]
    exact nonempty
  have last : (cipher.chunkCount size - 1) * cipher.chunkSize < size :=
    ChunkCipher.lt_chunkCount_iff.mp (by omega)
  obtain ⟨before, all⟩ : ∃ before, cipher.chunkCount size = before + 1 :=
    ⟨cipher.chunkCount size - 1, by omega⟩
  rw [all] at last ⊢
  rw [Nat.add_sub_cancel] at last ⊢
  rw [ChunkCipher.boundary_succ, ChunkCipher.boundary,
    ChunkCipher.chunkLength, Nat.mul_add]
  unfold CHUNK_OVERHEAD NONCE_SIZE
  omega

/-- After more than the header and less than all chunks, some of the
plaintext is read and some is not. -/
theorem EmittedAt.mid_plaintext {σ : Type} {ready : Nat → σ → Prop}
    {chunk : Nat → Bytes → Prop} {out : Bytes} {message : EncryptingMessage σ}
    {count : Nat}
    (here : EmittedAt cipher size ready chunk out message plain count)
    (lawful : cipher.Lawful) (nonempty : 0 < size)
    (started : HEADER_SIZE < out.length)
    (unfinished : out.length ≤ HEADER_SIZE + (cipher.chunkCount size - 1) *
      (cipher.chunkSize + CHUNK_OVERHEAD)) :
    0 < count ∧ count < cipher.chunkCount size := by
  have ended := here.length_eq lawful
  have positive : 0 < count := by
    rcases Nat.eq_zero_or_pos count with zero | positive
    · rw [zero, ChunkCipher.boundary] at ended
      omega
    · exact positive
  have last : (cipher.chunkCount size - 1) * cipher.chunkSize < size := by
    apply ChunkCipher.lt_chunkCount_iff.mp
    have bound := here.bound
    omega
  have lastBoundary : cipher.boundary size (cipher.chunkCount size - 1) =
      HEADER_SIZE + (cipher.chunkCount size - 1) *
        (cipher.chunkSize + CHUNK_OVERHEAD) := by
    rw [ChunkCipher.boundary, Nat.mul_add]
    omega
  refine ⟨positive, ?_⟩
  rcases here.needed with zero | needed
  · omega
  · by_contra all
    have mono : cipher.boundary size (cipher.chunkCount size - 1) ≤
        cipher.boundary size (count - 1) :=
      ChunkCipher.boundary_mono (by omega)
    omega

section EncryptedBuffer

variable {cipher : ChunkCipher} {chunks : List Bytes} {partSize : Nat}
  {lengths : List (List Nat)}

theorem planned_sum (positive : 0 < partSize)
    (planned : lengths.map List.sum = partition (HEADER_SIZE +
      cipher.ciphertextSize chunks.flatten.length) partSize) :
    (lengths.map List.sum).sum = cipher.boundary chunks.flatten.length
      (cipher.chunkCount chunks.flatten.length) := by
  rw [planned, partition_sum (by unfold HEADER_SIZE; omega) positive,
    ChunkCipher.boundary_chunkCount _]

theorem large_buffer_raises (lawful : cipher.Lawful)
    (nonempty : 0 < chunks.flatten.length) (positive : 0 < partSize)
    (planned : lengths.map List.sum = partition (HEADER_SIZE +
      cipher.ciphertextSize chunks.flatten.length) partSize)
    (large : MAX_CHUNKS < cipher.chunkCount chunks.flatten.length) :
    uploadSequential (EncryptingMessage.operations cipher
      SourceMessage.operations) ((lengths.map List.sum).zip lengths)
      (EncryptingMessage.wrap cipher SourceMessage.operations
        (SourceKind.buffer.new chunks)) = none := by
  have whole := planned_sum positive planned
  have outcome := uploadSequential_emits lawful
    (rewound_supplies cipher chunks.flatten 0)
    (rewound_reopens cipher chunks.flatten 0) buffer_standing lengths []
    (by rw [whole, List.length_nil, Nat.zero_add])
  rw [List.append_nil] at outcome
  rcases outcome with ⟨raised, _⟩ | ⟨last, uploaded, _, ended, sizes⟩
  · exact raised
  · have sent : uploaded.flatten.length = cipher.boundary
        chunks.flatten.length
        (cipher.chunkCount chunks.flatten.length) := by
      rw [List.length_flatten, sizes, whole]
    rw [List.nil_append] at ended
    rcases ended with ⟨nothing, _⟩ | emitted
    · rw [nothing, List.length_nil] at sent
      unfold ChunkCipher.boundary HEADER_SIZE at sent
      omega
    · have few := (emitted.complete lawful sent).1
      omega

/-- An upload one of whose parts begins in the middle of the plaintext seals
the beginning of the buffer again. -/
theorem rewound_upload (lawful : cipher.Lawful)
    (nonempty : 0 < chunks.flatten.length) (positive : 0 < partSize)
    (planned : lengths.map List.sum = partition (HEADER_SIZE +
      cipher.ciphertextSize chunks.flatten.length) partSize)
    (small : cipher.chunkCount chunks.flatten.length ≤ MAX_CHUNKS)
    {place : Nat} (started : HEADER_SIZE < place * partSize)
    (unfinished : place * partSize ≤ HEADER_SIZE +
      (cipher.chunkCount chunks.flatten.length - 1) *
        (cipher.chunkSize + CHUNK_OVERHEAD)) :
    ∃ uploaded plain index,
      uploadSequential (EncryptingMessage.operations cipher
        SourceMessage.operations) ((lengths.map List.sum).zip lengths)
        (EncryptingMessage.wrap cipher SourceMessage.operations
          (SourceKind.buffer.new chunks)) = some uploaded ∧
      uploaded.flatten = cipher.emits plain
        (cipher.chunkCount chunks.flatten.length) ∧
      (∀ index < cipher.chunkCount chunks.flatten.length,
        (plain index).length =
          cipher.chunkLength chunks.flatten.length index) ∧
      0 < index ∧ index < cipher.chunkCount chunks.flatten.length ∧
      plain index = chunks.flatten.take
        (cipher.chunkLength chunks.flatten.length index) := by
  have whole := planned_sum positive planned
  have inside : place * partSize < cipher.boundary chunks.flatten.length
      (cipher.chunkCount chunks.flatten.length) :=
    Nat.lt_of_le_of_lt unfinished (last_chunk_lt nonempty)
  have cut : ((lengths.take place).map List.sum).sum = place * partSize := by
    rw [List.map_take, planned]
    apply partition_take_sum
    apply lt_partition_length positive
    rwa [← ChunkCipher.boundary_chunkCount _]
  have joined : ((lengths.take place).map List.sum).sum +
      ((lengths.drop place).map List.sum).sum =
        (lengths.map List.sum).sum := by
    rw [← List.sum_append, ← List.map_append, List.take_append_drop]
  have zipped : (lengths.map List.sum).zip lengths =
      ((lengths.take place).map List.sum).zip (lengths.take place) ++
        ((lengths.drop place).map List.sum).zip (lengths.drop place) := by
    rw [← List.zip_append (by rw [List.length_map]), ← List.map_append,
      List.take_append_drop]
  rw [zipped]
  rcases uploadSequential_emits lawful
      (rewound_supplies cipher chunks.flatten 0)
      (rewound_reopens cipher chunks.flatten 0) buffer_standing
      (lengths.take place)
      (((lengths.drop place).map List.sum).zip (lengths.drop place))
      (by rw [cut, List.length_nil]; omega) with
    ⟨_, blocked⟩ | ⟨middle, early, sentEarly, ended, earlySizes⟩
  · exact (rewound_not_blocked small blocked).elim
  have earlyLength : early.flatten.length = place * partSize := by
    rw [List.length_flatten, earlySizes, cut]
  rw [List.nil_append] at ended
  rcases ended with ⟨nothing, _⟩ | ⟨plain, count, ended⟩
  · rw [nothing, List.length_nil] at earlyLength
    omega
  obtain ⟨counted, partly⟩ := ended.mid_plaintext lawful nonempty
    (earlyLength ▸ started) (earlyLength ▸ unfinished)
  obtain ⟨_, isBuffer⟩ := ended.source
  have rewinds : EmittedAt cipher chunks.flatten.length
      (Rewindable chunks.flatten count) (fun index data => index = count →
        data = chunks.flatten.take
          (cipher.chunkLength chunks.flatten.length count))
      early.flatten middle plain count :=
    ⟨ended.header, ended.bound, ended.small, ended.index, ended.plaintext,
      ended.bytes, fun index smaller =>
        ⟨(ended.chunks index smaller).1, fun same => by omega⟩,
      ended.needed, le_rfl, isBuffer⟩
  rcases uploadSequential_emits lawful
      (rewound_supplies cipher chunks.flatten count)
      (rewound_reopens cipher chunks.flatten count)
      (.inr ⟨plain, count, rewinds⟩) (lengths.drop place) []
      (by rw [earlyLength, ← cut, joined, whole]) with
    ⟨_, blocked⟩ | ⟨last, late, sentLate, finished, lateSizes⟩
  · exact (rewound_not_blocked small blocked).elim
  rw [List.append_nil] at sentLate
  have total : (early.flatten ++ late.flatten).length = cipher.boundary
      chunks.flatten.length
      (cipher.chunkCount chunks.flatten.length) := by
    rw [List.length_append, List.length_flatten, List.length_flatten,
      earlySizes, lateSizes, joined, whole]
  rcases finished with ⟨nothing, _⟩ | emitted
  · rw [nothing, List.length_nil] at total
    omega
  obtain ⟨_, sealedPlain, bytes, chunkFacts⟩ := emitted.complete lawful total
  refine ⟨early ++ late, sealedPlain, count, ?_, ?_,
    fun index smaller => (chunkFacts index smaller).1, counted, partly,
    (chunkFacts count partly).2 rfl⟩
  · rw [sentEarly, sentLate]
    simp [uploadSequential]
  · rw [List.flatten_append, bytes]

end EncryptedBuffer

/-- A buffer whose rewound upload is not the ciphertext of its content. -/
def marked (size : Nat) : Bytes := 1 :: List.replicate (size - 1) 0

theorem marked_length (nonempty : 0 < size) : (marked size).length = size := by
  rw [marked, List.length_cons, List.length_replicate]
  omega

theorem marked_take_ne_drop {start length : Nat} (later : 0 < start)
    (inside : start < size) (positive : 0 < length) :
    (marked size).take length ≠ ((marked size).drop start).take length := by
  intro same
  have heads := congrArg (fun bytes => bytes[0]?) same
  rw [List.getElem?_take_of_lt positive, List.getElem?_take_of_lt positive,
    List.getElem?_drop, Nat.add_zero, marked, List.getElem?_cons_zero] at heads
  obtain ⟨before, rfl⟩ : ∃ before, start = before + 1 :=
    ⟨start - 1, by omega⟩
  rw [List.getElem?_cons_succ, List.getElem?_replicate_of_lt (by omega),
    Option.some_inj] at heads
  exact absurd heads (by decide)

theorem rewound_not_sealedSource (lawful : cipher.Lawful) {index : Nat}
    (nonempty : 0 < size)
    (sized : ∀ index < cipher.chunkCount size,
      (plain index).length = cipher.chunkLength size index) (later : 0 < index)
    (inside : index < cipher.chunkCount size)
    (rewound : plain index =
      (marked size).take (cipher.chunkLength size index)) :
    cipher.emits plain (cipher.chunkCount size) ≠
      cipher.sealedSource (marked size) := by
  intro same
  have length := marked_length nonempty
  rw [ChunkCipher.sealedSource, length] at same
  have chunkSame := ChunkCipher.emits_injective lawful
    (fun index smaller => by
      rw [sized index smaller, ChunkCipher.plainChunk_length, length])
    same index inside
  have before := ChunkCipher.lt_chunkCount_iff.mp inside
  have positive := cipher.chunkSize_pos
  have clipped : cipher.plainChunk (marked size) index =
      ((marked size).drop (index * cipher.chunkSize)).take
        (cipher.chunkLength size index) := by
    rw [ChunkCipher.plainChunk, List.take_eq_take_iff,
      ChunkCipher.chunkLength, List.length_drop, length]
    omega
  rw [rewound, clipped] at chunkSame
  refine marked_take_ne_drop (Nat.mul_pos later positive) before ?_ chunkSame
  unfold ChunkCipher.chunkLength
  omega

theorem cache_readAll (lengths : List Nat) (message : CacheMessage) :
    ∃ next data, readAll SourceMessage.operations lengths
      (.cache message) = some (.cache next, data) := by
  induction lengths generalizing message with
  | nil => exact ⟨message, [], rfl⟩
  | cons length lengths induction =>
      obtain ⟨next, data, read⟩ := induction (message.read length).1
      refine ⟨next, (message.read length).2 ++ data, ?_⟩
      change Option.map _ (readAll SourceMessage.operations lengths
        (.cache (message.read length).1)) = _
      rw [read]
      rfl

theorem cache_uploadSequential (parts : List (Nat × List Nat))
    (message : CacheMessage) :
    ∃ uploaded, uploadSequential SourceMessage.operations parts
      (.cache message) = some uploaded := by
  induction parts generalizing message with
  | nil => exact ⟨[], rfl⟩
  | cons head parts induction =>
      obtain ⟨part, lengths⟩ := head
      obtain ⟨next, data, read⟩ :=
        cache_readAll lengths { message with size := part }
      obtain ⟨rest, sent⟩ := induction
        { next with offset := next.offset + part, readSize := 0 }
      have sentPart : uploadPart SourceMessage.operations lengths
          (SourceMessage.operations.setSize part (.cache message)) =
            some (.cache next, data) := by
        change Option.map _ (readAll SourceMessage.operations lengths
          (.cache { message with size := part })) = _
        rw [read]
        rfl
      refine ⟨data :: rest, ?_⟩
      rw [uploadSequential_cons sentPart]
      change Option.map _ (uploadSequential SourceMessage.operations parts
        (.cache { next with offset := next.offset + part, readSize := 0 })) =
          _
      rw [sent]
      rfl

/-- The size of the second part is taken for the end of the version. -/
theorem cache_second_part (content : Bytes) {first second : Nat}
    (rest : List (Nat × List Nat)) (shorter : second ≤ first)
    (positive : 0 < first) (inside : first ≤ content.length) :
    ∃ uploaded, uploadSequential SourceMessage.operations
      ((first, [first]) :: (second, [second]) :: rest)
      (SourceKind.cache.new [content]) =
        some (content.take first :: [] :: uploaded) := by
  obtain ⟨uploaded, sent⟩ := cache_uploadSequential rest
    { size := second
      offset := first + second
      readSize := 0
      source := content
      begin_ := 0 }
  have firstPart : uploadPart SourceMessage.operations [first]
      (SourceMessage.operations.setSize first
        (SourceKind.cache.new [content])) =
      some (.cache
        { size := first
          offset := 0
          readSize := first
          source := content
          begin_ := 0 }, content.take first) := by
    change Option.map _ (readAll SourceMessage.operations [first] (.cache
      { size := first
        offset := 0
        readSize := 0
        source := [content].flatten
        begin_ := 0 })) = _
    simp only [readAll, SourceMessage.operations, SourceMessage.read,
      CacheMessage.read, List.flatten_singleton, Nat.zero_add, Nat.min_self,
      List.drop_zero, Nat.sub_zero, Option.map_some, List.append_nil]
    rw [if_neg (by omega), List.length_take, Nat.min_eq_left inside]
    rfl
  have secondPart : uploadPart SourceMessage.operations [second]
      (SourceMessage.operations.setSize second (.cache
        { size := first
          offset := first
          readSize := 0
          source := content
          begin_ := 0 })) =
      some (.cache
        { size := second
          offset := first
          readSize := 0
          source := content
          begin_ := 0 }, []) := by
    change Option.map _ (readAll SourceMessage.operations [second] (.cache
      { size := second
        offset := first
        readSize := 0
        source := content
        begin_ := 0 })) = _
    simp only [readAll, SourceMessage.operations, SourceMessage.read,
      CacheMessage.read, Nat.zero_add, Nat.add_zero, Option.map_some,
      List.append_nil]
    rw [if_pos (by omega)]
    rfl
  have moved : SourceMessage.operations.nextPart first (.cache
      { size := first
        offset := 0
        readSize := first
        source := content
        begin_ := 0 }) = .cache
      { size := first
        offset := first
        readSize := 0
        source := content
        begin_ := 0 } := by
    change SourceMessage.cache _ = _
    rw [Nat.zero_add]
  refine ⟨uploaded, ?_⟩
  rw [uploadSequential_cons firstPart, moved,
    uploadSequential_cons secondPart]
  change Option.map _ (Option.map _ (uploadSequential
    SourceMessage.operations rest (.cache
      { size := second
        offset := first + second
        readSize := 0
        source := content
        begin_ := 0 }))) = _
  rw [sent]
  rfl

theorem partition_two {partSize : Nat} (positive : 0 < partSize)
    (several : partSize < size) :
    ∃ second rest, partition size partSize = partSize :: second :: rest ∧
      second ≤ partSize := by
  have division := Nat.div_add_mod (size + partSize - 1) partSize
  have remainder := Nat.mod_lt (size + partSize - 1) positive
  have two : 2 ≤ (size + partSize - 1) / partSize := by
    rw [Nat.le_div_iff_mul_le positive]
    omega
  obtain ⟨more, count⟩ : ∃ more,
      (size + partSize - 1) / partSize = more + 2 :=
    ⟨(size + partSize - 1) / partSize - 2, by omega⟩
  unfold partition
  dsimp only
  rw [count] at division ⊢
  cases more with
  | zero =>
      refine ⟨size - 1 * partSize, [], rfl, ?_⟩
      omega
  | succ more => exact ⟨partSize, _, rfl, le_rfl⟩

theorem map_sum_singletons (parts : List Nat) :
    (parts.map ([·])).map List.sum = parts := by
  rw [List.map_map]
  exact List.map_id' parts

theorem zip_singletons (parts : List Nat) :
    parts.zip (parts.map ([·])) = parts.map fun part => (part, [part]) := by
  induction parts with
  | nil => rfl
  | cons part parts induction =>
      rw [List.map_cons, List.zip_cons_cons, List.map_cons, induction]

/-- Every upload that returns has read the parts of its source. -/
def LosesNothing (kind : SourceKind) (wrapping : Wrapping)
    (size partSize inFlight : Nat) : Prop :=
  ∀ chunks : List Bytes, chunks.flatten.length = size →
    ∀ lengths : List (List Nat),
      lengths.map List.sum =
        partition (wrapping.uploadSize size) partSize →
      ∀ uploaded, uploadFrom kind wrapping chunks partSize inFlight
          lengths = some uploaded →
        ReadsParts (wrapping.source chunks.flatten)
          (partition (wrapping.uploadSize size) partSize) uploaded

section Exactly

variable {size partSize inFlight : Nat}

theorem cache_loses (nonempty : 0 < size) (positive : 0 < partSize)
    (several : partSize < size) : ¬LosesNothing .cache .bare size partSize
      1 := by
  intro lossless
  obtain ⟨second, rest, parts, shorter⟩ := partition_two positive several
  have length := marked_length nonempty
  obtain ⟨uploaded, sent⟩ := cache_second_part (marked size)
    (rest.map fun part => (part, [part])) shorter positive (by omega)
  have nonemptySecond : 0 < second :=
    partition_pos nonempty positive second (by rw [parts]; simp)
  have zipped : (partition size partSize).zip
      ((partition size partSize).map ([·])) =
      (partSize, [partSize]) :: (second, [second]) ::
        rest.map fun part => (part, [part]) := by
    rw [parts, List.map_cons, List.map_cons, List.zip_cons_cons,
      List.zip_cons_cons, zip_singletons]
  have flat : [marked size].flatten = marked size := by simp
  have returned : uploadFrom .cache .bare [marked size] partSize 1
      ((partition size partSize).map ([·])) =
        some ((marked size).take partSize :: [] :: uploaded) := by
    have sized : SourceMessage.operations.getSize
        (SourceKind.cache.new [marked size]) = size := by
      change [marked size].flatten.length = size
      rw [flat, length]
    unfold uploadFrom
    dsimp only
    rw [upload_of_seekable rfl, if_neg (by omega), sized, zipped]
    exact sent
  have split := (lossless [marked size] (by rw [flat, length]) _
    (map_sum_singletons _) _ returned).1
  rw [Wrapping.uploadSize, Wrapping.source, flat, parts,
    List.splitLengths_cons, List.splitLengths_cons] at split
  have short := congrArg List.length
    (List.cons.inj (List.cons.inj split).2).1
  rw [List.length_nil, List.length_take, List.length_drop,
    length] at short
  omega

theorem encrypted_buffer_loses {cipher : ChunkCipher}
    (lawful : cipher.Lawful) (nonempty : 0 < size)
    (positive : 0 < partSize) (small : cipher.chunkCount size ≤ MAX_CHUNKS)
    {place : Nat} (started : HEADER_SIZE < place * partSize)
    (unfinished : place * partSize ≤ HEADER_SIZE +
      (cipher.chunkCount size - 1) * (cipher.chunkSize + CHUNK_OVERHEAD)) :
    ¬LosesNothing .buffer (.encrypting cipher) size partSize inFlight := by
  intro lossless
  have flat : [marked size].flatten = marked size := by simp
  have length : [marked size].flatten.length = size := by
    rw [flat, marked_length nonempty]
  have planned := map_sum_singletons (partition (HEADER_SIZE +
    cipher.ciphertextSize [marked size].flatten.length) partSize)
  have rewinds := rewound_upload lawful (by omega) positive planned
    (by rwa [length]) started (by rwa [length])
  rw [planned, length, flat] at rewinds
  rw [length] at planned
  obtain ⟨uploaded, plain, index, sent, bytes, sized, later, inside,
    rewound⟩ := rewinds
  have returned : uploadFrom .buffer (.encrypting cipher) [marked size]
      partSize inFlight ((partition (HEADER_SIZE +
        cipher.ciphertextSize size) partSize).map ([·])) =
        some uploaded := by
    unfold uploadFrom
    dsimp only
    rw [encrypting_upload, length]
    exact sent
  have whole := (lossless [marked size] length _ planned _ returned).2
  rw [Wrapping.source, flat, bytes] at whole
  exact rewound_not_sealedSource lawful nonempty sized later inside rewound
    whole

theorem encrypted_buffer_lossless {cipher : ChunkCipher}
    (lawful : cipher.Lawful) (nonempty : 0 < size)
    (positive : 0 < partSize)
    (safe : ¬LosesBytes .buffer (.encrypting cipher) size partSize
      inFlight) :
    LosesNothing .buffer (.encrypting cipher) size partSize inFlight := by
  intro chunks length lengths planned uploaded sent
  subst length
  rw [Wrapping.uploadSize] at planned ⊢
  by_cases small : cipher.chunkCount chunks.flatten.length ≤ MAX_CHUNKS
  · simp only [uploadFrom] at sent
    refine encrypting_reads_parts lawful positive planned ?_ sent
    intro _ place later bad
    exact safe ⟨small, place, later, bad⟩
  · have raised := large_buffer_raises lawful nonempty positive planned
      (Nat.lt_of_not_le small)
    unfold uploadFrom at sent
    dsimp only at sent
    rw [encrypting_upload, ← planned, raised] at sent
    cases sent

/-- An upload loses nothing unless it sends a cached version sequentially in
several parts, or an encrypted buffer of which a part begins after some of
the plaintext was read but not all of it. -/
theorem upload_losesNothing_iff (kind : SourceKind) (wrapping : Wrapping)
    (size partSize inFlight : Nat) (nonempty : 0 < size)
    (positive : 0 < partSize) (running : 1 ≤ inFlight)
    (lawful : ∀ cipher, wrapping = .encrypting cipher → cipher.Lawful) :
    LosesNothing kind wrapping size partSize inFlight ↔
      ¬LosesBytes kind wrapping size partSize inFlight := by
  constructor
  · intro lossless loses
    cases wrapping with
    | bare =>
        cases kind with
        | cache =>
            obtain ⟨rfl, several⟩ := loses
            exact cache_loses nonempty positive several lossless
        | stream => exact loses
        | buffer => exact loses
        | path => exact loses
    | staged => cases kind <;> exact loses
    | encrypting cipher =>
        cases kind with
        | buffer =>
            obtain ⟨small, place, _, started, unfinished⟩ := loses
            exact encrypted_buffer_loses (lawful cipher rfl) nonempty
              positive small started unfinished lossless
        | stream => exact loses
        | path => exact loses
        | cache => exact loses
  · intro safe
    cases wrapping with
    | bare =>
        intro chunks length lengths planned uploaded sent
        subst length
        exact bare_reads_parts nonempty positive running planned safe sent
    | staged =>
        intro chunks length lengths planned uploaded sent
        subst length
        simp only [uploadFrom] at sent
        exact staged_reads_parts nonempty positive planned sent
    | encrypting cipher =>
        by_cases isBuffer : kind = .buffer
        · subst isBuffer
          exact encrypted_buffer_lossless (lawful cipher rfl) nonempty
            positive safe
        · intro chunks length lengths planned uploaded sent
          subst length
          simp only [uploadFrom] at sent
          exact encrypting_reads_parts (lawful cipher rfl) positive
            planned (fun buffer => (isBuffer buffer).elim) sent

/-- A stream that arrives in chunks of its own, read in parts. -/
theorem upload_losesNothing_stream :
    ReadsParts [1, 2, 3] [2, 1] [[1, 2], [3]] :=
  (upload_losesNothing_iff .stream .bare 3 2 1 (by decide) (by decide)
    (by decide) (by intro cipher clash; cases clash)).mpr (fun loses => loses)
    [[1], [2, 3]] rfl [[1, 1], [1]] (by decide) [[1, 2], [3]] (by decide)

/-- The second part of a cached version is empty. -/
theorem upload_loses_cached :
    uploadFrom .cache .bare [[1, 2, 3]] 2 1 [[2], [1]] =
        some [[1, 2], []] ∧
      ¬ReadsParts [1, 2, 3] (partition 3 2) [[1, 2], []] := by
  constructor
  · decide
  · rintro ⟨_, whole⟩
    exact absurd whole (by decide)

end Exactly

end Tgdcfs
