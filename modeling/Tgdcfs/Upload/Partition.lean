import Tgdcfs.Upload.Message

/-!
# Following a message through the parts of an upload

`Follows` says how a message walks along a source: what holds between two
parts, and what holds while a part is being read.  A message that follows its
source uploads exactly its parts.  The plain messages and their staged copies
follow the bytes they were made from, with one exception: a message over the
cache loses its place when a sequential upload overwrites its size.
-/

namespace Tgdcfs

theorem partition_pos {size partSize : Nat} (nonempty : 0 < size)
    (positive : 0 < partSize) : ∀ part ∈ partition size partSize, 0 < part := by
  intro part member
  have division := Nat.div_add_mod (size + partSize - 1) partSize
  have remainder := Nat.mod_lt (size + partSize - 1) positive
  rcases List.mem_append.mp member with full | last
  · rw [List.eq_of_mem_replicate full]
    exact positive
  · rw [List.mem_singleton.mp last, Nat.mul_comm, Nat.mul_sub_one]
    omega

theorem partition_sum {size partSize : Nat} (nonempty : 0 < size)
    (positive : 0 < partSize) : (partition size partSize).sum = size := by
  have division := Nat.div_add_mod (size + partSize - 1) partSize
  have remainder := Nat.mod_lt (size + partSize - 1) positive
  unfold partition
  dsimp only
  rw [List.sum_append, List.sum_replicate_nat, List.sum_singleton,
    Nat.sub_mul, Nat.one_mul, Nat.mul_comm _ partSize]
  omega

/-- An upload has a second part exactly when the size exceeds one part. -/
theorem one_lt_partition_length {size partSize : Nat} (nonempty : 0 < size)
    (positive : 0 < partSize) :
    1 < (partition size partSize).length ↔ partSize < size := by
  unfold partition
  dsimp only
  rw [List.length_append, List.length_replicate, List.length_singleton]
  have bound : 1 < (size + partSize - 1) / partSize ↔ partSize < size := by
    rw [Nat.lt_iff_add_one_le, Nat.le_div_iff_mul_le positive]
    omega
  omega

section Follows

variable {σ : Type}

/-- How a message walks along `source`.  `between offset` holds of a message
that is about to begin the part at `offset`, `reading offset part done` while
`done` bytes of that part are read.  `allowed` names the offsets at which a
part may begin. -/
structure Follows (message : Message σ) (source : Bytes)
    (allowed : Nat → Prop) (between : Nat → σ → Prop)
    (reading : Nat → Nat → Nat → σ → Prop) : Prop where
  opens : ∀ {offset part state}, between offset state → allowed offset →
    0 < part → offset + part ≤ source.length →
      reading offset part 0 (message.open_ (message.setSize part state))
  reads : ∀ {offset part done state length next data},
    reading offset part done state → done + length ≤ part →
      message.read state length = some (next, data) →
        data = (source.drop (offset + done)).take length ∧
          reading offset part (done + length) next
  closes : ∀ {offset part state}, reading offset part part state →
    between (offset + part) (message.nextPart part (message.close state))

variable {message : Message σ} {source : Bytes} {allowed : Nat → Prop}
  {between : Nat → σ → Prop} {reading : Nat → Nat → Nat → σ → Prop}

theorem Follows.readAll
    (follows : Follows message source allowed between reading)
    {offset part done : Nat} {state next : σ} {lengths : List Nat}
    {data : Bytes} (here : reading offset part done state)
    (inside : done + lengths.sum ≤ part)
    (read : readAll message lengths state = some (next, data)) :
    data = (source.drop (offset + done)).take lengths.sum ∧
      reading offset part (done + lengths.sum) next := by
  induction lengths generalizing done state data with
  | nil =>
      cases read
      exact ⟨by simp, here⟩
  | cons length lengths induction =>
      rw [List.sum_cons] at inside ⊢
      unfold Tgdcfs.readAll at read
      split at read
      · cases read
      · rename_i middle first taken
        obtain ⟨rest, restRead, same⟩ := Option.map_eq_some_iff.mp read
        cases same
        obtain ⟨firstBytes, moved⟩ := follows.reads here (by omega) taken
        obtain ⟨restBytes, ended⟩ := induction moved (by omega) restRead
        refine ⟨?_, ?_⟩
        · rw [firstBytes, restBytes, List.take_add, List.drop_drop]
          congr 3
          omega
        · have total : done + length + lengths.sum =
              done + (length + lengths.sum) := by omega
          exact total ▸ ended

/-- A sequential upload of a message that follows its source reads the parts
of the source. -/
theorem Follows.uploadSequential
    (follows : Follows message source allowed between reading)
    {offset : Nat} {state : σ} {lengths : List (List Nat)}
    {uploaded : List Bytes} (here : between offset state)
    (positive : ∀ part ∈ lengths.map List.sum, 0 < part)
    (inside : offset + (lengths.map List.sum).sum ≤ source.length)
    (places : ∀ count < lengths.length,
      allowed (offset + ((lengths.map List.sum).take count).sum))
    (sent : uploadSequential message
      ((lengths.map List.sum).zip lengths) state = some uploaded) :
    uploaded = (lengths.map List.sum).splitLengths
      (source.drop offset) := by
  induction lengths generalizing offset state uploaded with
  | nil =>
      cases sent
      rfl
  | cons first lengths induction =>
      simp only [List.map_cons, List.sum_cons, List.zip_cons_cons,
        List.mem_cons, forall_eq_or_imp] at positive inside sent ⊢
      unfold Tgdcfs.uploadSequential at sent
      split at sent
      · cases sent
      · rename_i ended data part
        obtain ⟨rest, restSent, same⟩ := Option.map_eq_some_iff.mp sent
        subst same
        unfold uploadPart at part
        obtain ⟨⟨last, bytes⟩, allRead, same⟩ :=
          Option.map_eq_some_iff.mp part
        cases same
        have begins : allowed offset := by
          have place := places 0 (Nat.succ_pos _)
          simpa using place
        have opened := follows.opens here begins positive.1
          (show offset + first.sum ≤ source.length by omega)
        obtain ⟨exactBytes, done⟩ := follows.readAll opened (by omega)
          allRead
        rw [Nat.zero_add] at done
        have later := induction (follows.closes done) positive.2
          (by omega) (by
            intro count bound
            have place := places (count + 1) (by simpa using bound)
            simpa [Nat.add_assoc] using place) restSent
        rw [List.splitLengths_cons, later, exactBytes, Nat.add_zero,
          List.drop_drop]

end Follows

/-- The operations of a message whose size a wrapper keeps to itself. -/
def Message.keepSize {σ : Type} (message : Message σ) : Message σ :=
  { message with setSize := fun _ state => state }

/-- A staged message follows what the message it wraps follows. -/
theorem Follows.staged {σ : Type} {message : Message σ} {source : Bytes}
    {allowed : Nat → Prop} {between : Nat → σ → Prop}
    {reading : Nat → Nat → Nat → σ → Prop}
    (follows : Follows message.keepSize source allowed between reading) :
    Follows (StagedMessage.operations message) source allowed
      (fun offset staged => between offset staged.inner)
      (fun offset part done staged =>
        reading offset part done staged.inner) := by
  refine ⟨?_, ?_, ?_⟩
  · intro offset part state here place positive inside
    exact follows.opens here place positive inside
  · intro offset part done state length next data here inside read
    obtain ⟨⟨inner, bytes⟩, innerRead, same⟩ :=
      Option.map_eq_some_iff.mp read
    cases same
    exact follows.reads here inside innerRead
  · intro offset part state here
    exact follows.closes here

namespace SourceMessage

def kind : SourceMessage → SourceKind
  | .stream _ => .stream
  | .buffer _ => .buffer
  | .path _ => .path
  | .cache _ => .cache

/-- The message is about to begin the part at `offset`. -/
def Placed (source : Bytes) (offset : Nat) : SourceMessage → Prop
  | .stream message =>
      message.buffer ++ message.stream.flatten = source.drop offset ∧
        message.readSize = 0
  | .buffer message => message.buffer = source ∧ message.offset = offset
  | .path message =>
      message.closed = true ∨ message.rest = source.drop offset
  | .cache message =>
      message.source = source ∧ message.begin_ + message.offset = offset ∧
        message.readSize = 0

/-- The message has read `done` bytes of the part at `offset`. -/
def Reading (source : Bytes) (offset part done : Nat) :
    SourceMessage → Prop
  | .stream message =>
      message.buffer ++ message.stream.flatten =
          source.drop (offset + done) ∧
        message.readSize = done ∧ part ≤ message.size
  | .buffer message =>
      message.buffer = source ∧ message.offset = offset ∧
        message.rest = source.drop (offset + done)
  | .path message =>
      message.closed = true ∨ message.rest = source.drop (offset + done)
  | .cache message =>
      message.source = source ∧ message.begin_ + message.offset = offset ∧
        message.readSize = done ∧ message.offset + part ≤ message.size ∧
        offset + part ≤ source.length

/-- The message still has the size of its whole source. -/
def Whole (source : Bytes) : SourceMessage → Prop
  | .stream message => message.size = source.length
  | .buffer _ => True
  | .path _ => True
  | .cache message => message.size = source.length

end SourceMessage

theorem pull_spec {need : Nat} {stream rest : List Bytes}
    {buffer filled : Bytes}
    (pulled : pull need stream buffer = some (rest, filled)) :
    need ≤ filled.length ∧
      filled ++ rest.flatten = buffer ++ stream.flatten := by
  induction stream generalizing buffer with
  | nil =>
      unfold pull at pulled
      split at pulled
      · rename_i enough
        cases pulled
        exact ⟨enough, rfl⟩
      · cases pulled
  | cons chunk stream induction =>
      unfold pull at pulled
      split at pulled
      · rename_i enough
        cases pulled
        exact ⟨enough, rfl⟩
      · obtain ⟨enough, same⟩ := induction pulled
        refine ⟨enough, same.trans ?_⟩
        rw [List.flatten_cons, List.append_assoc]

/-- A stream hands out the next bytes and keeps the others. -/
theorem StreamMessage.read_spec {message next : StreamMessage}
    {length : Nat} {data : Bytes}
    (room : message.readSize + length ≤ message.size)
    (read : message.read length = some (next, data)) :
    data = (message.buffer ++ message.stream.flatten).take length ∧
      next.buffer ++ next.stream.flatten =
        (message.buffer ++ message.stream.flatten).drop length ∧
      next.readSize = message.readSize + length ∧
      next.size = message.size := by
  unfold StreamMessage.read at read
  have all : min length (message.size - message.readSize) = length := by
    omega
  rw [all] at read
  obtain ⟨⟨rest, filled⟩, pulled, same⟩ := Option.map_eq_some_iff.mp read
  cases same
  obtain ⟨enough, kept⟩ := pull_spec pulled
  rw [← kept]
  refine ⟨?_, ?_, rfl, rfl⟩
  · rw [List.take_append_of_le_length enough]
  · rw [List.drop_append_of_le_length enough]

theorem CacheMessage.read_spec {message : CacheMessage} {length : Nat}
    (room : message.offset + message.readSize + length ≤ message.size)
    (inside : message.begin_ + message.offset + message.readSize + length ≤
      message.source.length) :
    (message.read length).2 = (message.source.drop
        (message.begin_ + message.offset + message.readSize)).take length ∧
      (message.read length).1 =
        { message with readSize := message.readSize + length } := by
  unfold CacheMessage.read
  have stop : min (message.begin_ + message.offset + message.readSize +
        length) (message.begin_ + message.size) =
      message.begin_ + message.offset + message.readSize + length := by
    omega
  dsimp only
  rw [stop, Nat.add_sub_cancel_left]
  split
  · rename_i nothing
    have zero : length = 0 := by omega
    subst length
    exact ⟨by simp, rfl⟩
  · refine ⟨rfl, ?_⟩
    have taken : ((message.source.drop (message.begin_ + message.offset +
        message.readSize)).take length).length = length := by
      rw [List.length_take, List.length_drop]
      omega
    rw [taken]

theorem reading_reads {source : Bytes} {offset part done : Nat}
    {state next : SourceMessage} {length : Nat} {data : Bytes}
    (here : state.Reading source offset part done)
    (inside : done + length ≤ part)
    (read : state.read length = some (next, data)) :
    data = (source.drop (offset + done)).take length ∧
      next.Reading source offset part (done + length) ∧
      next.kind = state.kind ∧
      (state.Whole source → next.Whole source) := by
  cases state with
  | stream message =>
      obtain ⟨bytes, counted, fits⟩ := here
      obtain ⟨⟨moved, taken⟩, streamRead, same⟩ :=
        Option.map_eq_some_iff.mp read
      cases same
      obtain ⟨exactBytes, rest, counter, size⟩ :=
        StreamMessage.read_spec (by omega) streamRead
      rw [bytes] at exactBytes rest
      refine ⟨exactBytes, ⟨?_, ?_, ?_⟩, rfl, size.trans⟩
      · rw [rest, List.drop_drop, Nat.add_assoc]
      · rw [counter, counted]
      · rwa [size]
  | buffer message =>
      obtain ⟨all, place, rest⟩ := here
      cases read
      refine ⟨?_, ⟨all, place, ?_⟩, rfl, id⟩
      · rw [BufferMessage.read, rest]
      · change message.rest.drop length = _
        rw [rest, List.drop_drop, Nat.add_assoc]
  | path message =>
      obtain ⟨⟨moved, taken⟩, pathRead, same⟩ :=
        Option.map_eq_some_iff.mp read
      cases same
      unfold PathMessage.read at pathRead
      split at pathRead
      · cases pathRead
      · rename_i opened
        cases pathRead
        rcases here with closed | rest
        · exact (opened closed).elim
        · refine ⟨by rw [rest], .inr ?_, rfl, id⟩
          change message.rest.drop length = _
          rw [rest, List.drop_drop, Nat.add_assoc]
  | cache message =>
      obtain ⟨all, place, counted, size, within⟩ := here
      cases read
      obtain ⟨exactBytes, moved⟩ := CacheMessage.read_spec
        (show message.offset + message.readSize + length ≤ message.size by
          omega)
        (by rw [all]; omega)
      refine ⟨?_, ?_, rfl, ?_⟩
      · rw [exactBytes, all, place, counted]
      · rw [moved]
        refine ⟨all, place, ?_, size, within⟩
        change message.readSize + length = done + length
        rw [counted]
      · intro whole
        rw [moved]
        exact whole

theorem reading_closes {source : Bytes} {offset part : Nat}
    {state : SourceMessage} (here : state.Reading source offset part part) :
    (state.close.nextPart part).Placed source (offset + part) := by
  cases state with
  | stream message => exact ⟨here.1, rfl⟩
  | buffer message =>
      refine ⟨here.1, ?_⟩
      change message.offset + part = offset + part
      rw [here.2.1]
  | path message => exact .inl rfl
  | cache message =>
      refine ⟨here.1, ?_, rfl⟩
      change message.begin_ + (message.offset + part) = offset + part
      rw [← Nat.add_assoc, here.2.1]

/-- A plain message follows its source; over the cache only while there is
one part. -/
theorem source_follows (kind : SourceKind) (source : Bytes) :
    Follows SourceMessage.operations source
      (fun offset => kind = .cache → offset = 0)
      (fun offset state => state.kind = kind ∧ state.Placed source offset)
      (fun offset part done state =>
        state.kind = kind ∧ state.Reading source offset part done) := by
  refine ⟨?_, ?_, ?_⟩
  · intro offset part state here place positive inside
    obtain ⟨same, placed⟩ := here
    refine ⟨?_, ?_⟩
    · cases state <;> exact same
    · cases state with
      | stream message => exact ⟨placed.1, placed.2, le_rfl⟩
      | buffer message =>
          refine ⟨placed.1, placed.2, ?_⟩
          change message.buffer.drop message.offset = _
          rw [placed.1, placed.2, Nat.add_zero]
      | path message => exact placed
      | cache message =>
          have first := place same.symm
          have begins := placed.2.1
          refine ⟨placed.1, placed.2.1, placed.2.2, ?_, inside⟩
          change message.offset + part ≤ part
          omega
  · intro offset part done state length next data here inside read
    obtain ⟨exactBytes, moved, kind, _⟩ := reading_reads here.2 inside read
    exact ⟨exactBytes, kind.trans here.1, moved⟩
  · intro offset part state here
    refine ⟨?_, reading_closes here.2⟩
    cases state <;> exact here.1

/-- With its size left alone, every plain message follows its source. -/
theorem source_follows_keepSize (source : Bytes) :
    Follows SourceMessage.operations.keepSize source (fun _ => True)
      (fun offset state => state.Whole source ∧ state.Placed source offset)
      (fun offset part done state =>
        state.Whole source ∧ state.Reading source offset part done) := by
  refine ⟨?_, ?_, ?_⟩
  · intro offset part state here _ positive inside
    obtain ⟨whole, placed⟩ := here
    refine ⟨?_, ?_⟩
    · cases state <;> exact whole
    · cases state with
      | stream message =>
          have size : message.size = source.length := whole
          exact ⟨placed.1, placed.2, by omega⟩
      | buffer message =>
          refine ⟨placed.1, placed.2, ?_⟩
          change message.buffer.drop message.offset = _
          rw [placed.1, placed.2, Nat.add_zero]
      | path message => exact placed
      | cache message =>
          have size : message.size = source.length := whole
          have begins := placed.2.1
          exact ⟨placed.1, placed.2.1, placed.2.2, by omega, inside⟩
  · intro offset part done state length next data here inside read
    obtain ⟨exactBytes, moved, _, kept⟩ := reading_reads here.2 inside read
    exact ⟨exactBytes, kept here.1, moved⟩
  · intro offset part state here
    refine ⟨?_, reading_closes here.2⟩
    cases state <;> exact here.1

theorem new_placed (kind : SourceKind) (chunks : List Bytes) :
    (kind.new chunks).kind = kind ∧
      (kind.new chunks).Whole chunks.flatten ∧
      (kind.new chunks).Placed chunks.flatten 0 := by
  cases kind with
  | stream => exact ⟨rfl, rfl, rfl, rfl⟩
  | buffer => exact ⟨rfl, trivial, rfl, rfl⟩
  | path => exact ⟨rfl, trivial, .inr rfl⟩
  | cache => exact ⟨rfl, rfl, rfl, rfl, rfl⟩

theorem new_getSize (kind : SourceKind) (chunks : List Bytes) :
    (kind.new chunks).getSize = chunks.flatten.length := by
  cases kind with
  | stream => rfl
  | buffer =>
      simp only [SourceKind.new, SourceMessage.getSize]
      split <;> rfl
  | path =>
      simp only [SourceKind.new, SourceMessage.getSize]
      split <;> rfl
  | cache => rfl

/-- Parts cut out of a cached version are read independently. -/
theorem uploadParallel_spec {message : CacheMessage}
    (begins : message.begin_ = 0) {lengths : List (List Nat)}
    {offset : Nat} {uploaded : List Bytes}
    (inside : offset + (lengths.map List.sum).sum ≤ message.source.length)
    (sent : uploadParallel SourceMessage.operations
      (fun offset size => .cache (message.part offset size))
      ((lengths.map List.sum).zip lengths) offset = some uploaded) :
    uploaded = (lengths.map List.sum).splitLengths
      (message.source.drop offset) := by
  induction lengths generalizing offset uploaded with
  | nil =>
      cases sent
      rfl
  | cons first lengths induction =>
      simp only [List.map_cons, List.sum_cons,
        List.zip_cons_cons] at inside sent ⊢
      unfold uploadParallel at sent
      split at sent
      · cases sent
      · rename_i ended data part
        obtain ⟨rest, restSent, same⟩ := Option.map_eq_some_iff.mp sent
        subst same
        unfold uploadPart at part
        obtain ⟨⟨last, bytes⟩, allRead, same⟩ :=
          Option.map_eq_some_iff.mp part
        cases same
        have opened : SourceMessage.Reading message.source offset first.sum
            0 (.cache { message.part offset first.sum with
              size := first.sum }) := by
          refine ⟨rfl, ?_, rfl, ?_, by omega⟩
          · change message.begin_ + offset + 0 = offset
            omega
          · exact Nat.le_of_eq (Nat.zero_add _)
        obtain ⟨exactBytes, _⟩ :=
          (source_follows .cache message.source).readAll ⟨rfl, opened⟩
            (by omega) allRead
        have later := induction (by omega) restSent
        rw [List.splitLengths_cons, later, exactBytes, Nat.add_zero,
          List.drop_drop]

end Tgdcfs
