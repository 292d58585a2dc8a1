import Tgdcfs.Upload.Encryption

/-!
# Which uploads lose no bytes

For every kind of source, plain, staged or encrypted, an upload that returns
has read the parts of the source, with two exceptions.  A message over the
cache loses its place when it is uploaded sequentially in several parts.  An
encrypted buffer is rewound when a part begins in the middle of its
plaintext.
-/

namespace Tgdcfs

inductive Wrapping where
  | bare
  | staged
  | encrypting (cipher : ChunkCipher)

/-- Upload a fresh message over a source that arrives in `chunks`. -/
def uploadFrom (kind : SourceKind) (wrapping : Wrapping)
    (chunks : List Bytes) (partSize inFlight : Nat)
    (lengths : List (List Nat)) : Option (List Bytes) :=
  match wrapping with
  | .bare => upload SourceMessage.operations partSize inFlight lengths
      (kind.new chunks)
  | .staged => upload (StagedMessage.operations SourceMessage.operations)
      partSize inFlight lengths
      (StagedMessage.wrap SourceMessage.operations (kind.new chunks))
  | .encrypting cipher =>
      upload (EncryptingMessage.operations cipher SourceMessage.operations)
        partSize inFlight lengths
        (EncryptingMessage.wrap cipher SourceMessage.operations
          (kind.new chunks))

/-- The bytes an upload has to read. -/
def Wrapping.source (wrapping : Wrapping) (content : Bytes) : Bytes :=
  match wrapping with
  | .bare => content
  | .staged => content
  | .encrypting cipher => cipher.sealedSource content

/-- The size the upload is planned with. -/
def Wrapping.uploadSize (wrapping : Wrapping) (size : Nat) : Nat :=
  match wrapping with
  | .bare => size
  | .staged => size
  | .encrypting cipher => HEADER_SIZE + cipher.ciphertextSize size

section Supply

variable (cipher : ChunkCipher) (kind : SourceKind) (content : Bytes)

/-- The source has handed out its first `count` chunks. -/
structure Supplied (count : Nat) (state : SourceMessage) : Prop where
  kind_eq : state.kind = kind
  size_eq : state.getSize = content.length
  placed : kind = .buffer → state.Placed content 0
  reading : count < cipher.chunkCount content.length →
    state.Reading content 0 content.length
      (min content.length (count * cipher.chunkSize))

/-- The same between two parts, where a buffer has to be opened again. -/
structure SupplyReady (count : Nat) (state : SourceMessage) : Prop where
  kind_eq : state.kind = kind
  size_eq : state.getSize = content.length
  placed : kind = .buffer → state.Placed content 0
  reading : kind ≠ .buffer → count < cipher.chunkCount content.length →
    state.Reading content 0 content.length
      (min content.length (count * cipher.chunkSize))

end Supply

theorem read_getSize {state next : SourceMessage} {length : Nat}
    {data : Bytes} (read : state.read length = some (next, data)) :
    next.getSize = state.getSize := by
  cases state with
  | stream message =>
      obtain ⟨⟨moved, taken⟩, streamRead, same⟩ :=
        Option.map_eq_some_iff.mp read
      cases same
      obtain ⟨pulled, _, same⟩ := Option.map_eq_some_iff.mp streamRead
      cases same
      rfl
  | buffer message =>
      cases read
      rfl
  | path message =>
      obtain ⟨⟨moved, taken⟩, pathRead, same⟩ :=
        Option.map_eq_some_iff.mp read
      cases same
      unfold PathMessage.read at pathRead
      split at pathRead
      · cases pathRead
      · cases pathRead
        rfl
  | cache message =>
      cases read
      change (message.read length).1.size = message.size
      unfold CacheMessage.read
      dsimp only
      split <;> rfl

theorem reading_placed {content : Bytes} {part done : Nat}
    {state : SourceMessage} (isBuffer : state.kind = .buffer)
    (here : state.Reading content 0 part done) : state.Placed content 0 := by
  cases state with
  | buffer message => exact ⟨here.1, here.2.1⟩
  | stream message => cases isBuffer
  | path message => cases isBuffer
  | cache message => cases isBuffer

/-- A source read front to back hands out the chunks of its content. -/
theorem source_supplies (cipher : ChunkCipher) (kind : SourceKind)
    (content : Bytes) :
    Supplies cipher SourceMessage.operations content.length
      (Supplied cipher kind content)
      fun index data => data = cipher.plainChunk content index := by
  refine ⟨fun here => here.size_eq, ?_⟩
  intro count state next data here more read
  have inside := ChunkCipher.lt_chunkCount_iff.mp more
  have position : min content.length (count * cipher.chunkSize) =
      count * cipher.chunkSize := by omega
  have reading := here.reading more
  rw [position] at reading
  obtain ⟨bytes, moved, kept, _⟩ := reading_reads reading
    (show count * cipher.chunkSize +
      cipher.chunkLength content.length count ≤ content.length by
        unfold ChunkCipher.chunkLength
        omega) read
  rw [Nat.zero_add] at bytes
  have exactChunk : data = cipher.plainChunk content count := by
    rw [bytes, ChunkCipher.plainChunk, List.take_eq_take_iff,
      ChunkCipher.chunkLength, List.length_drop]
    omega
  refine ⟨?_, exactChunk, ?_⟩
  · rw [exactChunk, ChunkCipher.plainChunk_length]
  · have buffered : kind = .buffer → next.Placed content 0 := by
      intro isBuffer
      exact reading_placed (by rw [kept, here.kind_eq, isBuffer]) moved
    refine ⟨kept.trans here.kind_eq, (read_getSize read).trans here.size_eq,
      buffered, ?_⟩
    intro _
    have reached : min content.length ((count + 1) * cipher.chunkSize) =
        count * cipher.chunkSize +
          cipher.chunkLength content.length count := by
      unfold ChunkCipher.chunkLength
      rw [Nat.add_mul, Nat.one_mul]
      omega
    rw [reached]
    exact moved

/-- Between parts every source but a buffer keeps its place; a buffer may be
opened before its first chunk and after its last one. -/
theorem source_reopens (cipher : ChunkCipher) (kind : SourceKind)
    (content : Bytes) :
    Reopens SourceMessage.operations
      (fun count => kind = .buffer →
        count = 0 ∨ cipher.chunkCount content.length ≤ count)
      (SupplyReady cipher kind content) (Supplied cipher kind content) := by
  refine ⟨?_, ?_⟩
  · intro count state here again
    cases state with
    | buffer message =>
        have isBuffer : kind = .buffer := here.kind_eq.symm
        obtain ⟨all, first⟩ := here.placed isBuffer
        refine ⟨here.kind_eq, here.size_eq, fun _ => ⟨all, first⟩, ?_⟩
        intro more
        rcases again isBuffer with start | ended
        · subst count
          refine ⟨all, first, ?_⟩
          change message.buffer.drop message.offset = _
          rw [all, first, Nat.zero_mul, Nat.min_zero]
        · omega
    | stream message =>
        have other : kind ≠ .buffer := by
          rw [← here.kind_eq]
          exact SourceKind.noConfusion
        exact ⟨here.kind_eq, here.size_eq, here.placed, here.reading other⟩
    | path message =>
        have other : kind ≠ .buffer := by
          rw [← here.kind_eq]
          exact SourceKind.noConfusion
        exact ⟨here.kind_eq, here.size_eq, here.placed, here.reading other⟩
    | cache message =>
        have other : kind ≠ .buffer := by
          rw [← here.kind_eq]
          exact SourceKind.noConfusion
        exact ⟨here.kind_eq, here.size_eq, here.placed, here.reading other⟩
  · intro count state here
    cases state with
    | path message =>
        refine ⟨here.kind_eq, here.size_eq, ?_, fun _ _ => .inl rfl⟩
        intro isBuffer
        have clash := here.kind_eq.trans isBuffer
        cases clash
    | stream message =>
        exact ⟨here.kind_eq, here.size_eq, here.placed,
          fun _ => here.reading⟩
    | buffer message =>
        exact ⟨here.kind_eq, here.size_eq, here.placed,
          fun _ => here.reading⟩
    | cache message =>
        exact ⟨here.kind_eq, here.size_eq, here.placed,
          fun _ => here.reading⟩

theorem new_supplyReady (cipher : ChunkCipher) (kind : SourceKind)
    (chunks : List Bytes) :
    SupplyReady cipher kind chunks.flatten 0 (kind.new chunks) := by
  obtain ⟨same, whole, placed⟩ := new_placed kind chunks
  refine ⟨same, new_getSize kind chunks, fun _ => placed, ?_⟩
  intro other _
  cases kind with
  | stream =>
      refine ⟨?_, ?_, le_rfl⟩
      · simp
      · simp
  | buffer => exact (other rfl).elim
  | path =>
      refine .inr ?_
      simp
  | cache =>
      refine ⟨rfl, rfl, ?_, ?_, ?_⟩
      · simp
      · exact Nat.le_of_eq (Nat.zero_add _)
      · exact Nat.le_of_eq (Nat.zero_add _)

/-- The uploads that lose bytes: a sequential upload of a cached version in
several parts, and an encrypted buffer one of whose parts begins after some
of the plaintext was read but not all of it. -/
def LosesBytes (kind : SourceKind) (wrapping : Wrapping)
    (size partSize inFlight : Nat) : Prop :=
  match wrapping, kind with
  | .bare, .cache => inFlight = 1 ∧ partSize < size
  | .encrypting cipher, .buffer =>
      cipher.chunkCount size ≤ MAX_CHUNKS ∧
        ∃ boundary, 0 < boundary ∧ HEADER_SIZE < boundary * partSize ∧
          boundary * partSize ≤ HEADER_SIZE +
            (cipher.chunkCount size - 1) *
              (cipher.chunkSize + CHUNK_OVERHEAD)
  | _, _ => False

/-- The parts that were read are the parts of the source. -/
def ReadsParts (source : Bytes) (parts : List Nat)
    (uploaded : List Bytes) : Prop :=
  uploaded = parts.splitLengths source ∧ uploaded.flatten = source

theorem readsParts_of_split {source : Bytes} {size partSize : Nat}
    (nonempty : 0 < size) (positive : 0 < partSize)
    (length : source.length = size) {uploaded : List Bytes}
    (split : uploaded = (partition size partSize).splitLengths source) :
    ReadsParts source (partition size partSize) uploaded := by
  refine ⟨split, ?_⟩
  rw [split]
  apply List.flatten_splitLengths
  rw [partition_sum nonempty positive, length]

theorem upload_of_not_seekable {σ : Type} {message : Message σ}
    {partSize inFlight : Nat} {lengths : List (List Nat)} {state : σ}
    (plain : message.part state = none) :
    upload message partSize inFlight lengths state =
      uploadSequential message
        ((partition (message.getSize state) partSize).zip lengths)
        state := by
  unfold upload
  rw [plain]

theorem upload_of_seekable {σ : Type} {message : Message σ}
    {partSize inFlight : Nat} {lengths : List (List Nat)} {state : σ}
    {partOf : Nat → Nat → σ} (seeks : message.part state = some partOf) :
    upload message partSize inFlight lengths state =
      if 1 < (partition (message.getSize state) partSize).length ∧
          1 < inFlight then
        uploadParallel message partOf
          ((partition (message.getSize state) partSize).zip lengths) 0
      else
        uploadSequential message
          ((partition (message.getSize state) partSize).zip lengths)
          state := by
  unfold upload
  rw [seeks]

/-- A followed message reads the parts of its source from the beginning. -/
theorem Follows.reads_parts {σ : Type} {message : Message σ}
    {source : Bytes} {allowed : Nat → Prop} {between : Nat → σ → Prop}
    {reading : Nat → Nat → Nat → σ → Prop}
    (follows : Follows message source allowed between reading)
    {state : σ} (start : between 0 state) {size partSize : Nat}
    (nonempty : 0 < size) (positive : 0 < partSize)
    (length : source.length = size) {lengths : List (List Nat)}
    (planned : lengths.map List.sum = partition size partSize)
    (places : ∀ count < (partition size partSize).length,
      allowed ((partition size partSize).take count).sum)
    {uploaded : List Bytes}
    (sent : Tgdcfs.uploadSequential message
      ((partition size partSize).zip lengths) state = some uploaded) :
    ReadsParts source (partition size partSize) uploaded := by
  apply readsParts_of_split nonempty positive length
  rw [← planned] at sent places ⊢
  have split := follows.uploadSequential start
    (planned ▸ partition_pos nonempty positive)
    (by rw [planned, partition_sum nonempty positive]; omega)
    (by
      intro count bound
      rw [Nat.zero_add]
      exact places count (by simpa using bound)) sent
  rwa [List.drop_zero] at split

/-- A part of an upload begins at a multiple of the part size. -/
theorem partition_take_sum {size partSize count : Nat}
    (inside : count < (partition size partSize).length) :
    ((partition size partSize).take count).sum = count * partSize := by
  unfold partition at inside ⊢
  dsimp only at inside ⊢
  rw [List.length_append, List.length_replicate,
    List.length_singleton] at inside
  rw [List.take_append_of_le_length (by
    rw [List.length_replicate]
    omega), List.take_replicate, List.sum_replicate_nat,
    Nat.min_eq_left (by omega)]

theorem bare_reads_parts {kind : SourceKind} {chunks : List Bytes}
    {partSize inFlight : Nat} {lengths : List (List Nat)}
    (nonempty : 0 < chunks.flatten.length) (positive : 0 < partSize)
    (running : 1 ≤ inFlight)
    (planned : lengths.map List.sum =
      partition chunks.flatten.length partSize)
    (safe : ¬LosesBytes kind .bare chunks.flatten.length partSize inFlight)
    {uploaded : List Bytes}
    (sent : upload SourceMessage.operations partSize inFlight lengths
      (kind.new chunks) = some uploaded) :
    ReadsParts chunks.flatten (partition chunks.flatten.length partSize)
      uploaded := by
  obtain ⟨same, _, placed⟩ := new_placed kind chunks
  have size := new_getSize kind chunks
  have sequential : (kind = .cache →
      (partition chunks.flatten.length partSize).length ≤ 1) →
      uploadSequential SourceMessage.operations
        ((partition chunks.flatten.length partSize).zip lengths)
        (kind.new chunks) = some uploaded →
      ReadsParts chunks.flatten (partition chunks.flatten.length partSize)
        uploaded := by
    intro single sent
    refine (source_follows kind chunks.flatten).reads_parts ⟨same, placed⟩
      nonempty positive rfl planned ?_ sent
    intro count bound isCache
    have first : count = 0 := by
      have one := single isCache
      omega
    rw [first]
    rfl
  have sized : SourceMessage.operations.getSize (kind.new chunks) =
      chunks.flatten.length := size
  cases kind with
  | stream =>
      rw [upload_of_not_seekable rfl, sized] at sent
      exact sequential (fun isCache => by cases isCache) sent
  | buffer =>
      rw [upload_of_not_seekable rfl, sized] at sent
      exact sequential (fun isCache => by cases isCache) sent
  | path =>
      rw [upload_of_not_seekable rfl, sized] at sent
      exact sequential (fun isCache => by cases isCache) sent
  | cache =>
      rw [upload_of_seekable rfl, sized] at sent
      split at sent
      · apply readsParts_of_split nonempty positive rfl
        rw [← planned] at sent ⊢
        refine uploadParallel_spec rfl ?_ sent
        rw [planned, partition_sum nonempty positive]
        exact Nat.le_of_eq (Nat.zero_add _)
      · rename_i together
        apply sequential _ sent
        intro _
        by_contra more
        have several := (one_lt_partition_length nonempty positive).mp
          (Nat.lt_of_not_le more)
        exact safe ⟨by omega, several⟩

theorem staged_reads_parts {kind : SourceKind} {chunks : List Bytes}
    {partSize inFlight : Nat} {lengths : List (List Nat)}
    (nonempty : 0 < chunks.flatten.length) (positive : 0 < partSize)
    (planned : lengths.map List.sum =
      partition chunks.flatten.length partSize)
    {uploaded : List Bytes}
    (sent : upload (StagedMessage.operations SourceMessage.operations)
      partSize inFlight lengths
      (StagedMessage.wrap SourceMessage.operations (kind.new chunks)) =
        some uploaded) :
    ReadsParts chunks.flatten (partition chunks.flatten.length partSize)
      uploaded := by
  obtain ⟨_, whole, placed⟩ := new_placed kind chunks
  have sized : (StagedMessage.operations SourceMessage.operations).getSize
      (StagedMessage.wrap SourceMessage.operations (kind.new chunks)) =
        chunks.flatten.length := new_getSize kind chunks
  rw [upload_of_not_seekable rfl, sized] at sent
  exact (source_follows_keepSize chunks.flatten).staged.reads_parts
    ⟨whole, placed⟩ nonempty positive rfl planned
    (fun _ _ => trivial) sent

/-- A part of an encrypted buffer may begin before any plaintext is read or
after all of it is. -/
theorem reopen_of_not_loses {cipher : ChunkCipher} {size offset : Nat}
    (safe : ¬(HEADER_SIZE < offset ∧ offset ≤ HEADER_SIZE +
      (cipher.chunkCount size - 1) * (cipher.chunkSize + CHUNK_OVERHEAD)))
    {count : Nat} (reached : offset ≤ cipher.boundary size count)
    (needed : count = 0 ∨ cipher.boundary size (count - 1) < offset) :
    count = 0 ∨ cipher.chunkCount size ≤ count := by
  by_contra neither
  have positive : 0 < count := by omega
  have partly : count ≤ cipher.chunkCount size - 1 := by omega
  rcases needed with zero | before
  · omega
  · apply safe
    refine ⟨?_, ?_⟩
    · have start : cipher.boundary size 0 ≤
          cipher.boundary size (count - 1) :=
        ChunkCipher.boundary_mono (Nat.zero_le _)
      unfold ChunkCipher.boundary at start before
      omega
    · have last : (cipher.chunkCount size - 1) * cipher.chunkSize <
          size := ChunkCipher.lt_chunkCount_iff.mp (by omega)
      have mono : cipher.boundary size count ≤
          cipher.boundary size (cipher.chunkCount size - 1) :=
        ChunkCipher.boundary_mono partly
      unfold ChunkCipher.boundary at mono reached
      rw [Nat.mul_add]
      omega

theorem encrypting_upload (cipher : ChunkCipher) (kind : SourceKind)
    (chunks : List Bytes) (partSize inFlight : Nat)
    (lengths : List (List Nat)) :
    upload (EncryptingMessage.operations cipher SourceMessage.operations)
        partSize inFlight lengths (EncryptingMessage.wrap cipher
          SourceMessage.operations (kind.new chunks)) =
      uploadSequential (EncryptingMessage.operations cipher
        SourceMessage.operations)
        ((partition (HEADER_SIZE + cipher.ciphertextSize
          chunks.flatten.length) partSize).zip lengths)
        (EncryptingMessage.wrap cipher SourceMessage.operations
          (kind.new chunks)) := by
  have sized : (EncryptingMessage.operations cipher
      SourceMessage.operations).getSize (EncryptingMessage.wrap cipher
        SourceMessage.operations (kind.new chunks)) =
          HEADER_SIZE + cipher.ciphertextSize chunks.flatten.length := by
    change HEADER_SIZE + cipher.ciphertextSize (kind.new chunks).getSize = _
    rw [new_getSize]
  rw [upload_of_not_seekable rfl, sized]

theorem encrypting_reads_parts {cipher : ChunkCipher}
    (lawful : cipher.Lawful) {kind : SourceKind} {chunks : List Bytes}
    {partSize inFlight : Nat} {lengths : List (List Nat)}
    (positive : 0 < partSize)
    (planned : lengths.map List.sum = partition (HEADER_SIZE +
      cipher.ciphertextSize chunks.flatten.length) partSize)
    (safe : kind = .buffer → ∀ boundary, 0 < boundary →
      ¬(HEADER_SIZE < boundary * partSize ∧
        boundary * partSize ≤ HEADER_SIZE +
          (cipher.chunkCount chunks.flatten.length - 1) *
            (cipher.chunkSize + CHUNK_OVERHEAD)))
    {uploaded : List Bytes}
    (sent : upload (EncryptingMessage.operations cipher
        SourceMessage.operations) partSize inFlight lengths
      (EncryptingMessage.wrap cipher SourceMessage.operations
        (kind.new chunks)) = some uploaded) :
    ReadsParts (cipher.sealedSource chunks.flatten)
      (partition (HEADER_SIZE +
        cipher.ciphertextSize chunks.flatten.length) partSize)
      uploaded := by
  rw [encrypting_upload] at sent
  have untouched : Untouched (SupplyReady cipher kind chunks.flatten)
      (EncryptingMessage.wrap cipher SourceMessage.operations
        (kind.new chunks)) :=
    ⟨rfl, rfl, rfl, new_supplyReady cipher kind chunks⟩
  refine (encrypting_follows lawful
    (source_supplies cipher kind chunks.flatten)
    (source_reopens cipher kind chunks.flatten)).reads_parts
    (.inl ⟨rfl, untouched⟩) (by unfold HEADER_SIZE; omega) positive
    (sealedSource_length lawful) planned ?_ sent
  intro part inside count _ reached needed isBuffer
  rw [partition_take_sum inside] at reached needed
  rcases Nat.eq_zero_or_pos part with first | later
  · subst part
    rw [Nat.zero_mul] at needed
    exact .inl (by omega)
  · exact reopen_of_not_loses (safe isBuffer part later) reached needed

end Tgdcfs
