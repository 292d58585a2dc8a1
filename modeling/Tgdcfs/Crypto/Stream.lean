import Tgdcfs.Crypto.Repository

/-!
# What a decrypting stream delivers

The inner stream is cut into pieces anyhow; the chunks of the plan are the
same.  The stream delivers the plaintext of the chunks up to the first one
that does not decrypt, trimmed to the range, and raises there.
-/

namespace Tgdcfs

section Stream

variable (primitives : CryptoPrimitives) (cipher : ChunkedAESGCM)
  (plan : DecryptPlan) (data : Bytes) (plain : Nat → Bytes)

/-- The bytes of the `place`-th chunk of the plan. -/
def DecryptPlan.blob (place : Nat) : Bytes :=
  (data.drop (place * cipher.stride)).take cipher.stride

/-- The chunk decrypts. -/
def DecryptPlan.Intact (place : Nat) : Prop :=
  ∃ plaintext, cipher.decryptChunk primitives
    (DecryptPlan.blob cipher data place) (plan.startChunk + place) =
      .ok plaintext

/-- The plaintext of the first `count` chunks of the plan. -/
def DecryptPlan.joined (count : Nat) : Bytes :=
  (List.range count).flatMap fun place => plain (plan.startChunk + place)

/-- What the first `count` chunks contribute to the range. -/
def DecryptPlan.delivered (count : Nat) : Bytes :=
  ((plan.joined plain count).drop plan.trimHead).take plan.trimTotal

/-- A chunk that decrypts has the expected plaintext. -/
def DecryptPlan.Genuine : Prop :=
  ∀ place < plan.nChunks, ∀ plaintext,
    cipher.decryptChunk primitives (DecryptPlan.blob cipher data place)
        (plan.startChunk + place) = .ok plaintext →
      plaintext = plain (plan.startChunk + place) ∧
        plaintext.length + CHUNK_OVERHEAD =
          (DecryptPlan.blob cipher data place).length

/-- The chunks of the plan are full but for the last one, which is not
empty, and only the last one completes the range. -/
structure DecryptPlan.Covers : Prop where
  nonempty : 0 < plan.nChunks
  more : (plan.nChunks - 1) * cipher.stride < data.length
  fits : data.length ≤ plan.nChunks * cipher.stride
  head : plan.trimHead < cipher.chunkSize
  wanted : 0 < plan.trimTotal
  unfinished : (plan.nChunks - 1) * cipher.chunkSize <
    plan.trimHead + plan.trimTotal

variable {primitives cipher plan data plain}

theorem flatten_yielded (out : Bytes) : (yielded out).flatten = out := by
  unfold yielded
  cases out with
  | nil => rfl
  | cons first rest => simp

namespace DecryptPlan

theorem joined_succ (count : Nat) :
    plan.joined plain (count + 1) =
      plan.joined plain count ++ plain (plan.startChunk + count) := by
  rw [joined, joined, List.range_succ, List.flatMap_append,
    List.flatMap_singleton]

theorem blob_length (covers : plan.Covers cipher data) {place : Nat}
    (inside : place + 1 < plan.nChunks) :
    (blob cipher data place).length = cipher.stride := by
  have reach : (place + 1) * cipher.stride ≤
      (plan.nChunks - 1) * cipher.stride :=
    Nat.mul_le_mul_right _ (by omega)
  have more := covers.more
  rw [Nat.add_mul, Nat.one_mul] at reach
  rw [blob, List.length_take, List.length_drop]
  omega

theorem joined_length (covers : plan.Covers cipher data)
    (genuine : plan.Genuine primitives cipher data plain) {count : Nat}
    (bound : count < plan.nChunks)
    (intact : ∀ place < count, plan.Intact primitives cipher data place) :
    (plan.joined plain count).length = count * cipher.chunkSize := by
  induction count with
  | zero => simp [joined]
  | succ count induction =>
      obtain ⟨plaintext, decrypts⟩ := intact count (Nat.lt_succ_self _)
      obtain ⟨same, sized⟩ := genuine count (by omega) plaintext decrypts
      rw [blob_length covers (by omega), ChunkedAESGCM.stride] at sized
      rw [joined_succ, List.length_append, ← same,
        induction (by omega) fun place smaller =>
          intact place (Nat.lt_succ_of_lt smaller),
        Nat.add_mul, Nat.one_mul]
      omega

theorem delivered_lt (covers : plan.Covers cipher data)
    (genuine : plan.Genuine primitives cipher data plain) {count : Nat}
    (bound : count < plan.nChunks)
    (intact : ∀ place < count, plan.Intact primitives cipher data place) :
    (plan.delivered plain count).length < plan.trimTotal := by
  have length := joined_length covers genuine bound intact
  have reach : count * cipher.chunkSize ≤
      (plan.nChunks - 1) * cipher.chunkSize :=
    Nat.mul_le_mul_right _ (by omega)
  have unfinished := covers.unfinished
  have wanted := covers.wanted
  rw [delivered, List.length_take, List.length_drop, length]
  omega

theorem delivered_succ (covers : plan.Covers cipher data)
    (genuine : plan.Genuine primitives cipher data plain) {count : Nat}
    (bound : count < plan.nChunks)
    (intact : ∀ place < count, plan.Intact primitives cipher data place) :
    plan.delivered plain (count + 1) = plan.delivered plain count ++
      ((plain (plan.startChunk + count)).drop
        (if count = 0 then plan.trimHead else 0)).take
          (plan.trimTotal - (plan.delivered plain count).length) := by
  have length := joined_length covers genuine bound intact
  have head := covers.head
  rw [delivered, joined_succ]
  cases count with
  | zero => simp [delivered, joined]
  | succ count =>
      have reach : cipher.chunkSize ≤ (count + 1) * cipher.chunkSize :=
        Nat.le_mul_of_pos_left _ (Nat.succ_pos _)
      rw [List.drop_append_of_le_length (by omega), List.take_append,
        if_neg (Nat.succ_ne_zero _), List.drop_zero, delivered,
        List.length_take]
      congr 2
      omega

end DecryptPlan

/-- The stream has decrypted `count` chunks of the `received` bytes. -/
structure Decrypted (primitives : CryptoPrimitives) (cipher : ChunkedAESGCM)
    (plan : DecryptPlan) (data : Bytes) (plain : Nat → Bytes)
    (received : Bytes) (count : Nat) (state : DecryptState) : Prop where
  index : state.chunkIndex = plan.startChunk + count
  done : state.chunksDone = count
  bound : count < plan.nChunks
  reached : count * cipher.stride ≤ received.length
  buf : state.buf = received.drop (count * cipher.stride)
  emitted : state.emitted = (plan.delivered plain count).length
  head : state.trimHead = if count = 0 then plan.trimHead else 0
  intact : ∀ place < count, plan.Intact primitives cipher data place

/-- How a stream ends: with the range, or with what comes before the first
chunk that does not decrypt. -/
def Ends (primitives : CryptoPrimitives) (cipher : ChunkedAESGCM)
    (plan : DecryptPlan) (data : Bytes) (plain : Nat → Bytes) (out : Bytes)
    (ended : StreamEnd) : Prop :=
  ∃ count ≤ plan.nChunks,
    (∀ place < count, plan.Intact primitives cipher data place) ∧
    (count < plan.nChunks → ¬plan.Intact primitives cipher data count) ∧
    out = plan.delivered plain count ∧
    (ended = .returned ↔ count = plan.nChunks)

section Loops

variable (covers : plan.Covers cipher data)
  (genuine : plan.Genuine primitives cipher data plain)
include covers genuine

theorem Decrypted.next {received plaintext : Bytes} {count : Nat}
    {state : DecryptState}
    (here : Decrypted primitives cipher plan data plain received count state)
    (more : count + 1 < plan.nChunks)
    (enough : (count + 1) * cipher.stride ≤ received.length)
    (decrypts : cipher.decryptChunk primitives
      (DecryptPlan.blob cipher data count) (plan.startChunk + count) =
        .ok plaintext) :
    let trimmed := { state with
      buf := state.buf.drop cipher.stride
      chunkIndex := state.chunkIndex + 1
      chunksDone := state.chunksDone + 1 }.trimAndCount plan plaintext
    Decrypted primitives cipher plan data plain received (count + 1)
        trimmed.1 ∧
      plan.delivered plain (count + 1) =
        plan.delivered plain count ++ trimmed.2 := by
  obtain ⟨same, _⟩ := genuine count (by omega) plaintext decrypts
  have grown := DecryptPlan.delivered_succ covers genuine here.bound
    here.intact
  have out : plan.delivered plain (count + 1) = plan.delivered plain count ++
      (plaintext.drop state.trimHead).take
        (plan.trimTotal - state.emitted) := by
    rw [grown, same, here.head, here.emitted]
  refine ⟨⟨?_, ?_, more, enough, ?_, ?_, ?_, ?_⟩, out⟩
  · change state.chunkIndex + 1 = _
    rw [here.index, Nat.add_assoc]
  · change state.chunksDone + 1 = _
    rw [here.done]
  · change state.buf.drop cipher.stride = _
    rw [here.buf, List.drop_drop, Nat.add_mul, Nat.one_mul]
  · rw [out, List.length_append, ← here.emitted]
    rfl
  · rw [if_neg (Nat.succ_ne_zero _)]
    rfl
  · intro place smaller
    rcases Nat.lt_succ_iff_lt_or_eq.mp smaller with before | last
    · exact here.intact place before
    · rw [last]
      exact ⟨plaintext, decrypts⟩

/-- The inner loop decrypts what it can and stops at the first chunk that
does not decrypt. -/
theorem decryptFull_spec {received : Bytes} (prefixed : received <+: data) :
    ∀ (remaining count : Nat) (state : DecryptState),
      Decrypted primitives cipher plan data plain received count state →
      remaining = plan.nChunks - 1 - count →
      (∃ reached next,
        (decryptFull primitives cipher plan remaining state).2 = .ok next ∧
        Decrypted primitives cipher plan data plain received reached next ∧
        (next.buf.length < cipher.stride ∨ reached + 1 = plan.nChunks) ∧
        plan.delivered plain reached = plan.delivered plain count ++
          (decryptFull primitives cipher plan remaining state).1.flatten) ∨
      (∃ ended,
        (decryptFull primitives cipher plan remaining state).2 =
          .error ended ∧
        Ends primitives cipher plan data plain
          (plan.delivered plain count ++
            (decryptFull primitives cipher plan remaining state).1.flatten)
          ended) := by
  intro remaining
  induction remaining with
  | zero =>
      intro count state here last
      have bound := here.bound
      exact .inl ⟨count, state, rfl, here, .inr (by omega), by
        simp [decryptFull]⟩
  | succ remaining induction =>
      intro count state here left
      unfold decryptFull
      by_cases short : state.buf.length < cipher.stride
      · rw [if_pos short]
        exact .inl ⟨count, state, rfl, here, .inl short, by simp⟩
      · rw [if_neg short]
        have enough : (count + 1) * cipher.stride ≤ received.length := by
          rw [here.buf, List.length_drop] at short
          have reached := here.reached
          rw [Nat.add_mul, Nat.one_mul]
          omega
        -- The bytes received so far already hold the whole chunk.
        have window : state.buf.take cipher.stride =
            DecryptPlan.blob cipher data count := by
          obtain ⟨rest, whole⟩ := prefixed
          rw [DecryptPlan.blob, ← whole, here.buf,
            List.drop_append_of_le_length here.reached,
            List.take_append_of_le_length]
          rw [List.length_drop]
          rw [Nat.add_mul, Nat.one_mul] at enough
          omega
        rw [window, here.index]
        cases decrypts : cipher.decryptChunk primitives
            (DecryptPlan.blob cipher data count)
            (plan.startChunk + count) with
        | error error =>
            refine .inr ⟨.raised error, rfl, count, here.bound.le,
              here.intact, ?_, by simp, ?_⟩
            · intro _ intact
              obtain ⟨plaintext, succeeds⟩ := intact
              rw [decrypts] at succeeds
              cases succeeds
            · have bound := here.bound
              constructor
              · intro absurd
                cases absurd
              · intro all
                omega
        | ok plaintext =>
            obtain ⟨moved, grown⟩ := here.next covers genuine (by omega)
              enough decrypts
            rw [here.index] at moved grown
            dsimp only at moved grown ⊢
            rw [if_neg]
            · have later := induction (count + 1) _ moved (by omega)
              rw [grown, List.append_assoc] at later
              rw [List.flatten_append, flatten_yielded]
              exact later
            · have below := DecryptPlan.delivered_lt covers genuine
                moved.bound moved.intact
              rw [← moved.emitted] at below
              exact Nat.not_le.mpr below

/-- The last chunk is what is left when the inner stream has ended. -/
theorem decryptLast_spec {count : Nat} {state : DecryptState}
    (here : Decrypted primitives cipher plan data plain data count state)
    (last : count + 1 = plan.nChunks) :
    Ends primitives cipher plan data plain
      (plan.delivered plain count ++
        (decryptLast primitives cipher plan state).1.flatten)
      (decryptLast primitives cipher plan state).2 := by
  have more := covers.more
  have fits := covers.fits
  rw [← last] at more fits
  rw [Nat.add_sub_cancel] at more
  rw [Nat.add_mul, Nat.one_mul] at fits
  have whole : state.buf = DecryptPlan.blob cipher data count := by
    rw [here.buf, DecryptPlan.blob, List.take_of_length_le]
    rw [List.length_drop]
    omega
  have nonempty : state.buf ≠ [] := by
    rw [here.buf]
    intro empty
    have length := congrArg List.length empty
    rw [List.length_drop, List.length_nil] at length
    omega
  have unfinished := DecryptPlan.delivered_lt covers genuine here.bound
    here.intact
  rw [← here.emitted] at unfinished
  unfold decryptLast
  rw [if_pos ⟨here.done ▸ here.bound, nonempty, unfinished⟩, whole,
    here.index]
  cases decrypts : cipher.decryptChunk primitives
      (DecryptPlan.blob cipher data count) (plan.startChunk + count) with
  | error error =>
      refine ⟨count, here.bound.le, here.intact, ?_, by simp, ?_⟩
      · intro _ intact
        obtain ⟨plaintext, succeeds⟩ := intact
        rw [decrypts] at succeeds
        cases succeeds
      · constructor
        · intro absurd
          cases absurd
        · intro all
          omega
  | ok plaintext =>
      obtain ⟨same, _⟩ := genuine count here.bound plaintext decrypts
      have grown := DecryptPlan.delivered_succ covers genuine here.bound
        here.intact
      refine ⟨count + 1, last.le, ?_, fun less => (by omega), ?_,
        fun _ => last, fun _ => rfl⟩
      · intro place smaller
        rcases Nat.lt_succ_iff_lt_or_eq.mp smaller with before | final
        · exact here.intact place before
        · rw [final]
          exact ⟨plaintext, decrypts⟩
      · rw [flatten_yielded, grown, same, ← here.head, ← here.emitted]
        rfl

theorem decryptPieces_spec :
    ∀ (pieces : List Bytes) (received : Bytes) (count : Nat)
      (state : DecryptState),
      received ++ pieces.flatten = data →
      Decrypted primitives cipher plan data plain received count state →
      (state.buf.length < cipher.stride ∨ count + 1 = plan.nChunks) →
      Ends primitives cipher plan data plain
        (plan.delivered plain count ++
          (decryptPieces primitives cipher plan none pieces state).1.flatten)
        (decryptPieces primitives cipher plan none pieces state).2 := by
  intro pieces
  induction pieces with
  | nil =>
      intro received count state whole here drained
      rw [List.flatten_nil, List.append_nil] at whole
      subst whole
      have last : count + 1 = plan.nChunks := by
        rcases drained with short | last
        · have more := covers.more
          have bound := here.bound
          rw [here.buf, List.length_drop] at short
          by_contra other
          have reach : (count + 1) * cipher.stride ≤
              (plan.nChunks - 1) * cipher.stride :=
            Nat.mul_le_mul_right _ (by omega)
          rw [Nat.add_mul, Nat.one_mul] at reach
          omega
        · exact last
      exact decryptLast_spec covers genuine here last
  | cons piece pieces induction =>
      intro received count state whole here _
      have unfinished := DecryptPlan.delivered_lt covers genuine here.bound
        here.intact
      rw [← here.emitted] at unfinished
      rw [List.flatten_cons, ← List.append_assoc] at whole
      have filled : Decrypted primitives cipher plan data plain
          (received ++ piece) count
          { state with buf := state.buf ++ piece } := by
        refine ⟨here.index, here.done, here.bound, ?_, ?_, here.emitted,
          here.head, here.intact⟩
        · have reached := here.reached
          rw [List.length_append]
          omega
        · change state.buf ++ piece = _
          rw [here.buf, List.drop_append_of_le_length here.reached]
      have prefixed : received ++ piece <+: data :=
        ⟨pieces.flatten, whole⟩
      have outcome := decryptFull_spec covers genuine prefixed
        (plan.nChunks - 1 - state.chunksDone) count _ filled
        (by rw [here.done])
      unfold decryptPieces
      rw [if_neg (Nat.not_le.mpr unfinished)]
      generalize decryptFull primitives cipher plan
        (plan.nChunks - 1 - state.chunksDone)
        { state with buf := state.buf ++ piece } = result at outcome ⊢
      obtain ⟨out, ending⟩ := result
      rcases outcome with ⟨reached, next, rfl, moved, drained, grown⟩ |
        ⟨ended, rfl, ends⟩
      · have later := induction _ reached next whole moved drained
        dsimp only at grown ⊢
        rw [grown, List.append_assoc, ← List.flatten_append] at later
        exact later
      · exact ends

theorem decryptingStream_spec {inner : ByteStream CryptoError}
    (whole : inner.chunks.flatten = data) (healthy : inner.error = none) :
    ∃ ended,
      Ends primitives cipher plan data plain
        (decryptingStream primitives cipher plan inner).chunks.flatten
        ended ∧
      (decryptingStream primitives cipher plan inner).error = ended.error := by
  have initial : Decrypted primitives cipher plan data plain [] 0
      { buf := []
        chunkIndex := plan.startChunk
        emitted := 0
        chunksDone := 0
        trimHead := plan.trimHead } := by
    refine ⟨rfl, rfl, covers.nonempty, ?_, ?_, ?_, ?_, ?_⟩
    · rw [Nat.zero_mul]
      exact Nat.zero_le _
    · simp
    · simp [DecryptPlan.delivered, DecryptPlan.joined]
    · exact (if_pos rfl).symm
    · intro place absurd
      exact (Nat.not_lt_zero place absurd).elim
  have ends := decryptPieces_spec covers genuine inner.chunks [] 0 _
    (by simpa using whole) initial (.inl (by
      have positive := cipher.chunkSize_pos
      rw [ChunkedAESGCM.stride]
      exact Nat.add_pos_left positive _))
  have nothing : plan.delivered plain 0 = [] := by
    simp [DecryptPlan.delivered, DecryptPlan.joined]
  rw [nothing, List.nil_append] at ends
  refine ⟨_, ?_, rfl⟩
  unfold decryptingStream
  rw [healthy]
  exact ends

end Loops

end Stream

end Tgdcfs
