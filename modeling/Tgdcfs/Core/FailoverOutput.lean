import Tgdcfs.Core.Failover

/-!
# What a read that fails over delivers

The bytes handed out are at every moment a prefix of the range, and the read
ends normally after the whole range only.  A failure always leaves something
of the range to the next candidate or layout, so the resumed range is valid
there; a layout with a candidate that answers for every part ends the read.
-/

namespace Tgdcfs

open Lib

/-- The last byte that a range asks for. -/
def lastByte (size : Nat) (end_ : Int) : Int :=
  if end_ < 0 ∨ (size : Int) ≤ end_ then size - 1 else end_

/-- The bytes of a version that `[begin, end]` asks for. -/
def requested (content : List UInt8) (begin_ end_ : Int) : List UInt8 :=
  byteRange content begin_.toNat (lastByte content.length end_).toNat

/-- The range is not refused. -/
def ValidRange (size : Nat) (begin_ end_ : Int) : Prop :=
  size = 0 ∨ 0 ≤ begin_ ∧ begin_ ≤ lastByte size end_

/-- The bytes of a version that a request asks for. -/
def Request.owed (layout : Layout) (content : List UInt8)
    (request : Request) : List UInt8 :=
  byteRange (partBytes layout.partSizes content request.part)
    request.begin_ request.end_

/-- The request is one that a read with these layouts can make. -/
structure Request.Made (layouts : List Layout) (request : Request)
    (layout : Layout) : Prop where
  found : layouts[request.layout]? = some layout
  asked : (layout.candidates.getD request.part [])[request.candidate]? =
    some (request.store, request.messageId)
  ordered : request.begin_ ≤ request.end_
  inside : request.end_ < layout.partSizes.getD request.part 0

/-- A download yields exactly the bytes it was asked for, or a proper prefix
of them and then raises. -/
def Honest (answers : Request → ByteStream String) (layouts : List Layout)
    (content : List UInt8) : Prop :=
  ∀ request layout, request.Made layouts layout →
    ((answers request).error = none ∧
      (answers request).chunks.flatten = request.owed layout content) ∨
    ((answers request).error ≠ none ∧
      ∃ rest, rest ≠ [] ∧ request.owed layout content =
        (answers request).chunks.flatten ++ rest)

/-- No download from the candidate fails. -/
def Reliable (answers : Request → ByteStream String) (layouts : List Layout)
    (index part candidate : Nat) : Prop :=
  ∀ request layout, request.Made layouts layout →
    request.layout = index → request.part = part →
    request.candidate = candidate → (answers request).error = none

/-- The layout has, for every part, a candidate that does not fail. -/
def Dependable (answers : Request → ByteStream String)
    (layouts : List Layout) (index : Nat) (layout : Layout) : Prop :=
  layout.candidates.length = layout.partSizes.length ∧
    ∀ part sources, layout.candidates[part]? = some sources →
      ∃ candidate < sources.length,
        Reliable answers layouts index part candidate

/-- What a stream still delivers is the bytes owed, or a proper prefix of
them before an error. -/
def Delivers {ε : Type*} (owed : List UInt8)
    (outcome : List UInt8 × Option ε) : Prop :=
  ∃ rest, owed = outcome.1 ++ rest ∧ (outcome.2 = none → rest = []) ∧
    (outcome.2 ≠ none → rest ≠ [])

section Ranges

variable {content : List UInt8} {begin_ end_ : Int}

theorem lastByte_lt {size : Nat} (nonempty : 0 < size) (end_ : Int) :
    0 ≤ lastByte size end_ ∧ lastByte size end_ < size := by
  unfold lastByte
  split
  · omega
  · omega

theorem requested_drop (start : 0 ≤ begin_) (count : Nat) :
    (requested content begin_ end_).drop count =
      requested content (begin_ + count) end_ := by
  rw [requested, requested, byteRange_drop]
  congr 1
  omega

theorem requested_nil : requested [] begin_ end_ = [] := by
  simp [requested, byteRange]

theorem validRange_of_requested (start : 0 ≤ begin_)
    (left : requested content begin_ end_ ≠ []) :
    ValidRange content.length begin_ end_ := by
  rcases Nat.eq_zero_or_pos content.length with empty | nonempty
  · exact .inl empty
  right
  refine ⟨start, ?_⟩
  by_contra beyond
  apply left
  have known := lastByte_lt nonempty end_
  have past : (lastByte content.length end_).toNat + 1 - begin_.toNat = 0 := by
    omega
  rw [requested, byteRange, past, List.take_zero]

theorem mapRange_lastByte (messageIds : List Int) (partSizes : List Nat)
    (size : Nat) (begin_ end_ : Int) :
    mapRange messageIds partSizes size begin_ end_ =
      mapRange messageIds partSizes size begin_ (lastByte size end_) := by
  unfold mapRange
  by_cases empty : (size : Int) ≤ 0
  · rw [if_pos empty, if_pos empty]
  · have known := lastByte_lt (by omega : 0 < size) end_
    rw [if_neg empty, if_neg empty]
    dsimp only
    rw [if_neg (by omega : ¬(lastByte size end_ < 0 ∨
      (size : Int) ≤ lastByte size end_))]
    rfl

theorem validRange_of_mapped {messageIds : List Int} {partSizes : List Nat}
    {size : Nat} {ranges : List PartRange}
    (mapped : mapRange messageIds partSizes size begin_ end_ = .ok ranges) :
    ValidRange size begin_ end_ := by
  rcases Nat.eq_zero_or_pos size with empty | nonempty
  · exact .inl empty
  right
  rw [mapRange_lastByte] at mapped
  have known := lastByte_lt nonempty end_
  unfold mapRange at mapped
  rw [if_neg (by omega)] at mapped
  dsimp only at mapped
  rw [if_neg (by omega : ¬(lastByte size end_ < 0 ∨
    (size : Int) ≤ lastByte size end_))] at mapped
  split at mapped
  · cases mapped
  · split at mapped
    · cases mapped
    · omega

/-- A valid range of a version that is not empty, in natural numbers. -/
theorem ValidRange.bounds (valid : ValidRange content.length begin_ end_)
    (nonempty : 0 < content.length) :
    ∃ first last : Nat, begin_ = first ∧
      lastByte content.length end_ = last ∧ first ≤ last ∧
      last < content.length ∧
      requested content begin_ end_ = byteRange content first last := by
  rcases valid with empty | ⟨start, ordered⟩
  · omega
  · have known := lastByte_lt nonempty end_
    refine ⟨begin_.toNat, (lastByte content.length end_).toNat, by omega,
      by omega, by omega, by omega, rfl⟩

end Ranges

theorem Delivers.append {ε : Type*} {owed later first : List UInt8}
    {outcome : List UInt8 × Option ε} (delivers : Delivers later outcome)
    (joined : owed = first ++ later) :
    Delivers owed (first ++ outcome.1, outcome.2) := by
  obtain ⟨rest, split_, ends, more⟩ := delivers
  refine ⟨rest, ?_, ends, more⟩
  rw [joined, split_, List.append_assoc]

/-- Parts that deliver what they owe do so one after the other. -/
theorem delivers_joinOutcomes {ε ρ : Type*} {owed : ρ → List UInt8}
    {outcome : ρ → List UInt8 × Option ε} {ranges : List ρ}
    (each : ∀ range ∈ ranges, Delivers (owed range) (outcome range)) :
    Delivers (ranges.flatMap owed) (joinOutcomes (ranges.map outcome)) := by
  induction ranges with
  | nil => exact ⟨[], rfl, fun _ => rfl, fun failed => (failed rfl).elim⟩
  | cons range ranges induction =>
      have later := induction fun other member =>
        each other (List.mem_cons_of_mem _ member)
      obtain ⟨rest, split_, ends, more⟩ := each range List.mem_cons_self
      rw [List.map_cons, List.flatMap_cons]
      rcases result : outcome range with ⟨bytes, _ | error⟩
      · rw [result] at split_ ends
        rw [joinOutcomes]
        apply later.append
        rw [split_, ends rfl, List.append_nil]
      · rw [result] at split_ more
        rw [joinOutcomes]
        refine ⟨rest ++ ranges.flatMap owed, ?_, ?_, ?_⟩
        · rw [split_, List.append_assoc]
        · intro normal
          cases normal
        · intro failed nothing
          exact more failed (List.append_eq_nil_iff.mp nothing).1

theorem joinOutcomes_normal {ε ρ : Type*}
    {outcome : ρ → List UInt8 × Option ε} {ranges : List ρ}
    (each : ∀ range ∈ ranges, (outcome range).2 = none) :
    (joinOutcomes (ranges.map outcome)).2 = none := by
  induction ranges with
  | nil => rfl
  | cons range ranges induction =>
      have later := induction fun other member =>
        each other (List.mem_cons_of_mem _ member)
      have here := each range List.mem_cons_self
      rcases result : outcome range with ⟨bytes, _ | error⟩
      · rw [List.map_cons, result, joinOutcomes]
        exact later
      · rw [result] at here
        cases here

section Parts

variable {answers : Request → ByteStream String} {layouts : List Layout}
  {content : List UInt8} {index : Nat} {layout : Layout}

/-- The candidates of a part deliver what is left of it from where the
previous ones stopped. -/
theorem downloadPart_delivers (honest : Honest answers layouts content)
    (found : layouts[index]? = some layout)
    (sized : layout.size = content.length) {part begin_ end_ : Nat}
    (inside : end_ < layout.partSizes.getD part 0)
    {sources : List (String × Int)} {candidate served : Nat}
    (left : sources = (layout.candidates.getD part []).drop candidate)
    (ordered : begin_ + served ≤ end_) (lastError : Option FailoverError) :
    Delivers
      (byteRange (partBytes layout.partSizes content part)
        (begin_ + served) end_)
      (downloadPart answers index layout.label part begin_ end_ sources
        candidate served lastError).outcome := by
  induction sources generalizing candidate served lastError with
  | nil =>
      refine ⟨_, rfl, ?_, ?_⟩
      · intro normal
        cases normal
      · intro _
        have owing : PartRange.bytes layout.partSizes content
            ⟨part, 0, begin_ + served, end_⟩ ≠ [] :=
          PartRange.bytes_ne_nil sized.symm ordered inside
        exact owing
  | cons source sources induction =>
      obtain ⟨store, messageId⟩ := source
      have next : sources =
          (layout.candidates.getD part []).drop (candidate + 1) := by
        rw [← List.tail_drop, ← left, List.tail_cons]
      have asked : (layout.candidates.getD part [])[candidate]? =
          some (store, messageId) := by
        rw [← List.head?_drop, ← left, List.head?_cons]
      have answer := honest ⟨index, part, candidate, store, messageId,
        begin_ + served, end_⟩ layout ⟨found, asked, ordered, inside⟩
      rw [downloadPart]
      rcases answer with ⟨normal, all⟩ | ⟨failed, rest, owing, split_⟩
      · simp only [normal]
        refine ⟨[], ?_, fun _ => rfl, fun failed => (failed rfl).elim⟩
        rw [List.append_nil]
        exact all.symm
      · obtain ⟨message, raised⟩ := Option.ne_none_iff_exists'.mp failed
        simp only [raised]
        have later := congrArg (List.drop
          (answers ⟨index, part, candidate, store, messageId,
            begin_ + served, end_⟩).chunks.flatten.length) split_
        rw [List.drop_left, Request.owed, byteRange_drop] at later
        dsimp only at later
        have reached : begin_ + (served +
            (answers ⟨index, part, candidate, store, messageId,
              begin_ + served, end_⟩).chunks.flatten.length) ≤ end_ := by
          by_contra past
          apply owing
          rw [← later, byteRange, Nat.sub_eq_zero_of_le (by omega),
            List.take_zero]
        have rest_ := induction next reached (some (.download message))
        rw [← Nat.add_assoc, later] at rest_
        have whole := rest_.append split_
        rw [ByteStream.outcome] at whole ⊢
        rw [List.flatten_append]
        exact whole

theorem downloadPart_normal (found : layouts[index]? = some layout)
    (honest : Honest answers layouts content) {part begin_ end_ : Nat}
    (inside : end_ < layout.partSizes.getD part 0)
    {sources : List (String × Int)} {candidate served : Nat}
    (left : sources = (layout.candidates.getD part []).drop candidate)
    (ordered : begin_ + served ≤ end_) (lastError : Option FailoverError)
    {reliable : Nat} (ahead : candidate ≤ reliable)
    (listed : reliable < (layout.candidates.getD part []).length)
    (answering : Reliable answers layouts index part reliable) :
    (downloadPart answers index layout.label part begin_ end_ sources
      candidate served lastError).error = none := by
  induction sources generalizing candidate served lastError with
  | nil =>
      have done := List.drop_eq_nil_iff.mp left.symm
      omega
  | cons source sources induction =>
      obtain ⟨store, messageId⟩ := source
      have next : sources =
          (layout.candidates.getD part []).drop (candidate + 1) := by
        rw [← List.tail_drop, ← left, List.tail_cons]
      have asked : (layout.candidates.getD part [])[candidate]? =
          some (store, messageId) := by
        rw [← List.head?_drop, ← left, List.head?_cons]
      have made : Request.Made layouts ⟨index, part, candidate, store,
          messageId, begin_ + served, end_⟩ layout :=
        ⟨found, asked, ordered, inside⟩
      rw [downloadPart]
      rcases honest _ layout made with
        ⟨normal, _⟩ | ⟨failed, rest, owing, split_⟩
      · simp only [normal]
      · obtain ⟨message, raised⟩ := Option.ne_none_iff_exists'.mp failed
        simp only [raised]
        apply induction next
        · by_contra past
          apply owing
          have later := congrArg List.length split_
          rw [Request.owed, List.length_append, byteRange,
            List.length_take] at later
          dsimp only at later
          apply List.eq_nil_of_length_eq_zero
          omega
        · rcases Nat.lt_or_eq_of_le ahead with later | rfl
          · exact later
          · exact (failed (answering _ layout made rfl rfl rfl)).elim

/-- A layout delivers what it is asked for, or a proper prefix of it. -/
theorem streamLayout_delivers (honest : Honest answers layouts content)
    (found : layouts[index]? = some layout)
    (sized : layout.size = content.length) {begin_ end_ : Int}
    {chain : PrefetchingChain FailoverError}
    (opened : streamLayout answers index layout begin_ end_ = .ok chain) :
    chain.WellFormed ∧
      Delivers (requested content begin_ end_) chain.outcome ∧
      (Dependable answers layouts index layout →
        chain.outcome.2 = none) := by
  obtain ⟨ranges, mapped, rfl⟩ := ok_of_map opened
  refine ⟨PrefetchingChain.start_wellFormed _ _ _, ?_⟩
  rw [PrefetchingChain.start_outcome, List.map_map]
  rcases Nat.eq_zero_or_pos content.length with empty | nonempty
  · have rangeless : ranges = [] := by
      rw [sized, empty] at mapped
      cases mapped
      rfl
    rw [rangeless, List.eq_nil_of_length_eq_zero empty, requested_nil]
    exact ⟨⟨[], rfl, fun _ => rfl, fun failed => (failed rfl).elim⟩,
      fun _ => rfl⟩
  · have valid := validRange_of_mapped mapped
    rw [sized] at valid
    obtain ⟨first, last, rfl, stops, ordered, inside, same⟩ :=
      valid.bounds nonempty
    rw [mapRange_lastByte, sized, stops, ← sized] at mapped
    obtain ⟨bounded, bytes⟩ := mapRange_ok ordered
      (lt_of_lt_of_eq inside sized.symm) mapped
    constructor
    · rw [same, ← bytes content sized.symm]
      apply delivers_joinOutcomes
      intro range member
      obtain ⟨starts, stops⟩ := bounded range member
      rw [Function.comp_apply, Layout.downloadRange]
      split
      · refine ⟨_, rfl, ?_, ?_⟩
        · intro normal
          cases normal
        · intro _
          exact PartRange.bytes_ne_nil sized.symm starts stops
      · rename_i sources there
        have listed : sources =
            (layout.candidates.getD range.part []).drop 0 := by
          rw [List.getD_eq_getElem?_getD, there]
          rfl
        have started : range.begin_ + 0 ≤ range.end_ := starts
        exact downloadPart_delivers honest found sized stops listed started
          none
    · intro dependable
      apply joinOutcomes_normal
      intro range member
      obtain ⟨starts, stops⟩ := bounded range member
      rw [Function.comp_apply, Layout.downloadRange]
      split
      · rename_i missing
        rw [List.getElem?_eq_none_iff, dependable.1] at missing
        rw [List.getD_eq_getElem?_getD,
          List.getElem?_eq_none missing] at stops
        cases stops
      · rename_i sources there
        obtain ⟨reliable, listed, answering⟩ :=
          dependable.2 range.part sources there
        have same_ : layout.candidates.getD range.part [] = sources := by
          rw [List.getD_eq_getElem?_getD, there]
          rfl
        have all : sources =
            (layout.candidates.getD range.part []).drop 0 := by
          rw [same_]
          rfl
        rw [← same_] at listed
        have started : range.begin_ + 0 ≤ range.end_ := starts
        exact downloadPart_normal found honest stops all started none
          (Nat.zero_le reliable) listed answering

theorem Dependable.opens (dependable : Dependable answers layouts index
      layout) (sized : layout.size = content.length) {begin_ end_ : Int}
    (valid : ValidRange content.length begin_ end_) :
    ∃ chain, streamLayout answers index layout begin_ end_ = .ok chain := by
  have complete : layout.Complete := by
    refine ⟨dependable.1, ?_⟩
    intro sources member empty
    obtain ⟨part, there⟩ := List.mem_iff_getElem?.mp member
    obtain ⟨candidate, listed, _⟩ := dependable.2 part sources there
    rw [empty] at listed
    cases listed
  rcases Nat.eq_zero_or_pos content.length with empty | nonempty
  · refine ⟨PrefetchingChain.start [] PART_PREFETCH_CONCURRENCY
      DEFAULT_QUEUE_DEPTH, ?_⟩
    rw [streamLayout, sized, empty]
    rfl
  · obtain ⟨first, last, rfl, stops, ordered, inside, _⟩ :=
      valid.bounds nonempty
    obtain ⟨ranges, mapped, _⟩ := mapRange_spec
      complete.messageIds_length ordered
      (lt_of_lt_of_eq inside sized.symm)
    refine ⟨PrefetchingChain.start
      (ranges.map (layout.downloadRange answers index))
      PART_PREFETCH_CONCURRENCY DEFAULT_QUEUE_DEPTH, ?_⟩
    rw [streamLayout, mapRange_lastByte, sized, stops, ← sized,
      Layout.size, mapped]
    rfl

end Parts

/-- A layout from the given place on is dependable. -/
def DependableFrom (answers : Request → ByteStream String)
    (layouts : List Layout) (place : Nat) : Prop :=
  ∃ index layout, place ≤ index ∧ layouts[index]? = some layout ∧
    Dependable answers layouts index layout

/-- The range is valid and some layout is dependable. -/
def Hopeful (answers : Request → ByteStream String) (layouts : List Layout)
    (size : Nat) (begin_ end_ : Int) : Prop :=
  ValidRange size begin_ end_ ∧ DependableFrom answers layouts 0

namespace FailoverStream

/-- What a phase says about the rest of the range. -/
def PhaseServes (answers : Request → ByteStream String)
    (layouts : List Layout) (content : List UInt8) (begin_ end_ : Int)
    (served : Nat) : StreamPhase → Prop
  | .reading chain following untried =>
      chain.WellFormed ∧ untried = layouts.drop following ∧
        (content.length = 0 ∨ 0 ≤ begin_ + served) ∧
        Delivers (requested content (begin_ + served) end_) chain.outcome ∧
        (Hopeful answers layouts content.length begin_ end_ →
          chain.outcome.2 = none ∨ DependableFrom answers layouts following)
  | .ended => requested content (begin_ + served) end_ = []
  | .raised _ => ¬Hopeful answers layouts content.length begin_ end_

/-- What is true of a read at every moment: the bytes handed out and the rest
make up the range. -/
structure Serves (answers : Request → ByteStream String)
    (layouts : List Layout) (content : List UInt8) (begin_ end_ : Int)
    (stream : FailoverStream) : Prop where
  starts : stream.begin_ = begin_
  stops : stream.end_ = end_
  joined : stream.emitted ++
    requested content (begin_ + stream.served) end_ =
      requested content begin_ end_
  phase : PhaseServes answers layouts content begin_ end_ stream.served
    stream.phase

section Runs

variable {answers : Request → ByteStream String} {layouts : List Layout}
  {content : List UInt8} {begin_ end_ : Int}

variable {untried : List Layout}

theorem openNext_serves (honest : Honest answers layouts content)
    (sized : ∀ layout ∈ layouts, layout.size = content.length)
    {served place : Nat} {lastError : Option FailoverError}
    (left : untried = layouts.drop place)
    (tried : untried = [] → lastError ≠ none)
    (resumed : Hopeful answers layouts content.length begin_ end_ →
      ValidRange content.length (begin_ + served) end_ ∧
        DependableFrom answers layouts place) :
    PhaseServes answers layouts content begin_ end_ served
      (openNext answers (begin_ + served) end_ place untried lastError) := by
  induction untried generalizing place lastError with
  | nil =>
      cases lastError with
      | none => exact (tried rfl rfl).elim
      | some error =>
          intro hopeful
          obtain ⟨_, index, layout, ahead, found, _⟩ := resumed hopeful
          have all := List.drop_eq_nil_iff.mp left.symm
          have known := (List.getElem?_eq_some_iff.mp found).1
          omega
  | cons layout rest induction =>
      have next : rest = layouts.drop (place + 1) := by
        rw [← List.tail_drop, ← left, List.tail_cons]
      have found : layouts[place]? = some layout := by
        rw [← List.head?_drop, ← left, List.head?_cons]
      have size := sized layout (List.mem_of_getElem? found)
      rw [openNext]
      cases opened : streamLayout answers place layout (begin_ + served)
          end_ with
      | error failure =>
          apply induction next
          · intro _ nothing
            cases nothing
          · intro hopeful
            obtain ⟨valid, index, other, ahead, there, dependable⟩ :=
              resumed hopeful
            refine ⟨valid, index, other, ?_, there, dependable⟩
            rcases Nat.lt_or_eq_of_le ahead with later | rfl
            · exact later
            · rw [found] at there
              cases there
              obtain ⟨chain, opens⟩ := dependable.opens size valid
              rw [opened] at opens
              cases opens
      | ok chain =>
          obtain ⟨wellFormed, delivers, normal⟩ :=
            streamLayout_delivers honest found size opened
          obtain ⟨ranges, mapped, _⟩ := ok_of_map opened
          have valid := validRange_of_mapped mapped
          rw [size] at valid
          refine ⟨wellFormed, next, valid.imp_right And.left, delivers, ?_⟩
          intro hopeful
          obtain ⟨_, index, other, ahead, there, dependable⟩ :=
            resumed hopeful
          rcases Nat.lt_or_eq_of_le ahead with later | rfl
          · exact .inr ⟨index, other, later, there, dependable⟩
          · rw [found] at there
            cases there
            exact .inl (normal dependable)

theorem start_serves (honest : Honest answers layouts content)
    (sized : ∀ layout ∈ layouts, layout.size = content.length)
    (nonempty : layouts ≠ []) :
    Serves answers layouts content begin_ end_
      (start answers layouts begin_ end_) := by
  have here : begin_ + ((0 : Nat) : Int) = begin_ := by omega
  have opened : PhaseServes answers layouts content begin_ end_ 0
      (openNext answers (begin_ + ((0 : Nat) : Int)) end_ 0 layouts
        none) := by
    apply openNext_serves honest sized
    · exact (List.drop_zero).symm
    · intro empty
      exact (nonempty empty).elim
    · intro hopeful
      rw [here]
      exact hopeful
  refine ⟨rfl, rfl, ?_, ?_⟩
  · change [] ++ requested content (begin_ + ((0 : Nat) : Int)) end_ = _
    rw [here, List.nil_append]
  · simp only [start, if_neg nonempty]
    rw [here] at opened
    exact opened

variable {stream : FailoverStream}

private theorem receive_yielded {following : Nat} {bytes : List UInt8}
    {chain next : PrefetchingChain FailoverError}
    (serves : Serves answers layouts content begin_ end_ stream)
    (reading : stream.phase = .reading chain following untried)
    (taken : chain.get = some (.yielded bytes next)) :
    Serves answers layouts content begin_ end_
      (stream.receive answers following untried (.yielded bytes next)) := by
  have phase := serves.phase
  rw [reading] at phase
  obtain ⟨wellFormed, left, started, ⟨rest, split_, ends, more⟩, hope⟩ :=
    phase
  obtain ⟨outcome, kept, _⟩ := PrefetchingChain.get_yielded wellFormed taken
  rw [outcome] at split_ ends more hope
  dsimp only at split_ ends more hope
  rw [List.append_assoc] at split_
  have later : requested content
      (begin_ + ((stream.served + bytes.length : Nat) : Int)) end_ =
        next.outcome.1 ++ rest := by
    rcases started with empty | positive
    · have finished := List.eq_nil_of_length_eq_zero empty
      rw [finished, requested_nil] at split_ ⊢
      exact (List.append_eq_nil_iff.mp split_.symm).2.symm
    · have dropped := congrArg (List.drop bytes.length) split_
      rw [requested_drop positive, List.drop_left] at dropped
      rw [← dropped]
      congr 1
      omega
  refine ⟨serves.starts, serves.stops, ?_, kept, left, ?_, ⟨rest, later,
    ends, more⟩, hope⟩
  · change (stream.emitted ++ bytes) ++ requested content
      (begin_ + ((stream.served + bytes.length : Nat) : Int)) end_ = _
    rw [later, List.append_assoc, ← split_]
    exact serves.joined
  · change content.length = 0 ∨
      0 ≤ begin_ + ((stream.served + bytes.length : Nat) : Int)
    omega

variable {next : FailoverStream} {label : StreamLabel}

/-- A step belongs to a read from a layout: a pump moves, or the consumer
gets an answer. -/
theorem step_cases (taken : stream.step answers label = some next) :
    ∃ chain following untried,
      stream.phase = .reading chain following untried ∧
      ((∃ segment moved, chain.pump segment = some moved ∧
          next = { stream with
            phase := .reading moved following untried }) ∨
        ∃ answer, chain.get = some answer ∧
          next = stream.receive answers following untried answer) := by
  cases label with
  | pump segment =>
      simp only [step] at taken
      split at taken
      · rename_i chain following untried reading
        obtain ⟨moved, put, rfl⟩ := Option.map_eq_some_iff.mp taken
        exact ⟨chain, following, untried, reading,
          .inl ⟨segment, moved, put, rfl⟩⟩
      · cases taken
  | consume =>
      simp only [step] at taken
      split at taken
      · rename_i chain following untried reading
        obtain ⟨answer, got, rfl⟩ := Option.map_eq_some_iff.mp taken
        exact ⟨chain, following, untried, reading, .inr ⟨answer, got, rfl⟩⟩
      · cases taken

theorem step_serves (honest : Honest answers layouts content)
    (sized : ∀ layout ∈ layouts, layout.size = content.length)
    (serves : Serves answers layouts content begin_ end_ stream)
    (taken : stream.step answers label = some next) :
    Serves answers layouts content begin_ end_ next := by
  obtain ⟨chain, following, untried, reading, taken⟩ := step_cases taken
  have phase := serves.phase
  rw [reading] at phase
  obtain ⟨wellFormed, left, started, delivers, hope⟩ := phase
  rcases taken with ⟨segment, moved, put, rfl⟩ | ⟨answer, got, rfl⟩
  · obtain ⟨same, kept, _⟩ := PrefetchingChain.pump_some wellFormed put
    rw [← same] at delivers hope
    exact ⟨serves.starts, serves.stops, serves.joined, kept, left, started,
      delivers, hope⟩
  cases answer with
  | yielded bytes later => exact receive_yielded serves reading got
  | advanced later =>
      obtain ⟨same, kept, _⟩ :=
        PrefetchingChain.get_advanced wellFormed got
      rw [← same] at delivers hope
      exact ⟨serves.starts, serves.stops, serves.joined, kept, left,
        started, delivers, hope⟩
  | raised error =>
      have outcome := PrefetchingChain.get_raised got
      rw [outcome] at delivers hope
      obtain ⟨rest, split_, _, more⟩ := delivers
      refine ⟨serves.starts, serves.stops, serves.joined, ?_⟩
      simp only [receive, serves.starts, serves.stops]
      apply openNext_serves honest sized left
      · intro _ nothing
        cases nothing
      · intro hopeful
        constructor
        · rcases started with empty | positive
          · exact .inl empty
          · apply validRange_of_requested positive
            rw [split_]
            exact more (Option.some_ne_none error)
        · exact (hope hopeful).resolve_left (Option.some_ne_none error)
  | ended =>
      have outcome := PrefetchingChain.get_ended wellFormed got
      rw [outcome] at delivers
      obtain ⟨rest, split_, ends, _⟩ := delivers
      refine ⟨serves.starts, serves.stops, serves.joined, ?_⟩
      change requested content (begin_ + stream.served) end_ = []
      rw [split_, ends rfl]
      rfl

/-- Layouts left, then the work of the chain in use. -/
def rank (stream : FailoverStream) : Nat × Nat :=
  match stream.phase with
  | .reading chain _ untried => (untried.length + 1, chain.work)
  | _ => (0, 0)

def Less : Nat × Nat → Nat × Nat → Prop := Prod.Lex (· < ·) (· < ·)

theorem less_wellFounded : WellFounded Less :=
  WellFounded.prod_lex Nat.lt_wfRel.wf Nat.lt_wfRel.wf

theorem openNext_untried {served place : Nat}
    {lastError : Option FailoverError} {chain : PrefetchingChain FailoverError}
    {following : Nat} {later : List Layout}
    (opened : openNext answers (begin_ + served) end_ place untried
      lastError = .reading chain following later) :
    later.length < untried.length := by
  induction untried generalizing place lastError with
  | nil =>
      cases lastError with
      | none => cases opened
      | some error => cases opened
  | cons layout rest induction =>
      rw [openNext] at opened
      split at opened
      · have less := induction opened
        exact Nat.lt_succ_of_lt less
      · cases opened
        exact Nat.lt_succ_self _

theorem step_rank (serves : Serves answers layouts content begin_ end_ stream)
    (taken : stream.step answers label = some next) :
    Less next.rank stream.rank := by
  obtain ⟨chain, following, untried, reading, taken⟩ := step_cases taken
  have phase := serves.phase
  rw [reading] at phase
  simp only [rank, reading]
  rcases taken with ⟨segment, moved, put, rfl⟩ | ⟨answer, got, rfl⟩
  · obtain ⟨_, _, less⟩ := PrefetchingChain.pump_some phase.1 put
    exact Prod.Lex.right _ less
  cases answer with
  | yielded bytes later =>
      obtain ⟨_, _, less⟩ := PrefetchingChain.get_yielded phase.1 got
      exact Prod.Lex.right _ less
  | advanced later =>
      obtain ⟨_, _, less⟩ := PrefetchingChain.get_advanced phase.1 got
      exact Prod.Lex.right _ less
  | raised error =>
      simp only [receive]
      split
      · rename_i opened
        apply Prod.Lex.left
        exact Nat.succ_lt_succ (openNext_untried opened)
      · exact Prod.Lex.left _ _ (Nat.zero_lt_succ _)
  | ended => exact Prod.Lex.left _ _ (Nat.zero_lt_succ _)

/-- A read with a dependable layout left is never stuck before its end. -/
theorem step_enabled
    (hopeful : Hopeful answers layouts content.length begin_ end_)
    (serves : Serves answers layouts content begin_ end_ stream)
    (open_ : stream.phase ≠ .ended) :
    ∃ label next, stream.step answers label = some next := by
  have phase := serves.phase
  cases reading : stream.phase with
  | ended => exact (open_ reading).elim
  | raised error =>
      rw [reading] at phase
      exact (phase hopeful).elim
  | reading chain following untried =>
      rw [reading] at phase
      cases got : chain.get with
      | some answer =>
          refine ⟨.consume, stream.receive answers following untried answer,
            ?_⟩
          simp only [step, reading, got, Option.map_some]
      | none =>
          obtain ⟨moved, put⟩ := PrefetchingChain.get_none phase.1 got
          refine ⟨.pump 0, { stream with
            phase := .reading moved following untried }, ?_⟩
          simp only [step, reading, put, Option.map_some]

end Runs

end FailoverStream

namespace ContentReader

/-- The version has a primary layout, and every replica that a read can use
is a copy of the same bytes. -/
structure HoldsCopies (reader : ContentReader) (version : TGFSFileVersion)
    (content : List UInt8) : Prop where
  messages : version.messageIds ≠ []
  parts : version.partSizes.length = version.messageIds.length
  primary : version.partSizes.sum = content.length
  replicas : ∀ layout ∈ reader.replicaLayouts version,
    layout.size = content.length

variable {reader : ContentReader} {version : TGFSFileVersion}
  {content : List UInt8}

theorem mem_layouts {layout : Layout} :
    layout ∈ reader.layouts version ↔
      layout ∈ reader.primaryLayout version ∨
        layout ∈ reader.replicaLayouts version := by
  rw [layouts, (List.perm_insertionSort _ _).mem_iff, List.mem_append]

theorem HoldsCopies.primaryLayout_eq
    (copies : reader.HoldsCopies version content) :
    reader.primaryLayout version =
      [{ partSizes := version.partSizes
         candidates := version.messageIds.zipIdx.map fun entry =>
           reader.partSources version entry.2 entry.1
         label := "primary" }] :=
  if_pos ⟨copies.messages, copies.parts⟩

theorem HoldsCopies.sized (copies : reader.HoldsCopies version content) :
    ∀ layout ∈ reader.layouts version, layout.size = content.length := by
  intro layout member
  rcases mem_layouts.mp member with primary | replica
  · rw [copies.primaryLayout_eq, List.mem_singleton] at primary
    rw [primary]
    exact copies.primary
  · exact copies.replicas layout replica

theorem HoldsCopies.layouts_ne_nil
    (copies : reader.HoldsCopies version content) :
    reader.layouts version ≠ [] := by
  intro empty
  have listed : reader.primaryLayout version ≠ [] := by
    rw [copies.primaryLayout_eq]
    exact List.cons_ne_nil _ _
  obtain ⟨layout, member⟩ := List.exists_mem_of_ne_nil _ listed
  have there := mem_layouts.mpr (.inl member)
  rw [empty] at there
  cases there

/-- Failover reads are exact: at every moment of every schedule the bytes
handed out are a prefix of the range, the read ends normally after the whole
range only, and with a dependable layout every schedule ends it normally. -/
theorem failover_reads_exact (answers : Request → ByteStream String)
    (begin_ end_ : Int) (copies : reader.HoldsCopies version content)
    (honest : Honest answers (reader.layouts version) content) :
    (∀ stream, Reachable (FailoverStream.step answers)
        (FailoverStream.start answers (reader.layouts version) begin_ end_)
        stream →
      stream.emitted <+: requested content begin_ end_ ∧
        (stream.phase = .ended →
          stream.emitted = requested content begin_ end_)) ∧
      (Hopeful answers (reader.layouts version) content.length begin_ end_ →
        Inevitably (FailoverStream.step answers)
          (fun stream => stream.phase = .ended)
          (FailoverStream.start answers (reader.layouts version) begin_
            end_)) := by
  have initial : FailoverStream.Serves answers (reader.layouts version)
      content begin_ end_ (FailoverStream.start answers
        (reader.layouts version) begin_ end_) :=
    FailoverStream.start_serves honest copies.sized copies.layouts_ne_nil
  constructor
  · intro stream reachable
    have serves := reachable.invariant
      (fun _ _ _ kept taken =>
        FailoverStream.step_serves honest copies.sized kept taken) initial
    refine ⟨⟨_, serves.joined⟩, ?_⟩
    intro ended
    have phase := serves.phase
    rw [ended] at phase
    have joined := serves.joined
    rw [show requested content (begin_ + stream.served) end_ = [] from phase,
      List.append_nil] at joined
    exact joined
  · intro hopeful
    apply Inevitably.of_measure FailoverStream.rank
      FailoverStream.less_wellFounded _ _ initial
    · intro stream label next serves taken
      exact ⟨FailoverStream.step_serves honest copies.sized serves taken,
        FailoverStream.step_rank serves taken⟩
    · intro stream serves open_
      exact FailoverStream.step_enabled hopeful serves open_

end ContentReader

def mirroredReader : ContentReader :=
  ⟨"tg:1", some ⟨["tg:2"], false⟩, []⟩

def mirroredVersion : TGFSFileVersion :=
  { id := "a"
    updatedAt := ⟨0, false⟩
    messageIds := [10]
    partSizes := [3]
    mirrors := Dict.empty.set "tg:2" [20] }

def mirroredLayout : Layout :=
  { partSizes := [3]
    candidates := [[("tg:1", 10), ("tg:2", 20)]]
    label := "primary" }

/-- The first store breaks off every download, the mirror answers. -/
def primaryDown (request : Request) : ByteStream String :=
  if request.candidate = 0 then ⟨[], some "connection lost"⟩
  else ⟨[byteRange [1, 2, 3] request.begin_ request.end_], none⟩

theorem mirroredReader_layouts :
    mirroredReader.layouts mirroredVersion = [mirroredLayout] := by
  decide

theorem primaryDown_made {request : Request} {layout : Layout}
    (made : request.Made [mirroredLayout] layout) :
    layout = mirroredLayout ∧ request.layout = 0 ∧ request.part = 0 := by
  obtain ⟨found, _, _, inside⟩ := made
  obtain ⟨known, same⟩ := List.getElem?_eq_some_iff.mp found
  have first : request.layout = 0 := by simpa using known
  have here : layout = mirroredLayout := by
    rw [← same]
    simp [first]
  refine ⟨here, first, ?_⟩
  rw [here] at inside
  by_contra other
  obtain ⟨part, later⟩ := Nat.exists_eq_succ_of_ne_zero other
  rw [later] at inside
  cases inside

theorem primaryDown_honest :
    Honest primaryDown [mirroredLayout] [1, 2, 3] := by
  intro request layout made
  obtain ⟨rfl, _, part⟩ := primaryDown_made made
  by_cases first : request.candidate = 0
  · right
    have owing : PartRange.bytes mirroredLayout.partSizes
        ([1, 2, 3] : List UInt8)
        ⟨request.part, 0, request.begin_, request.end_⟩ ≠ [] :=
      PartRange.bytes_ne_nil rfl made.ordered made.inside
    rw [primaryDown, if_pos first]
    exact ⟨Option.some_ne_none _, _, owing, rfl⟩
  · left
    rw [primaryDown, if_neg first]
    refine ⟨rfl, ?_⟩
    rw [Request.owed, part]
    simp [mirroredLayout, partBytes]

theorem primaryDown_hopeful :
    Hopeful primaryDown [mirroredLayout] 3 0 (-1) := by
  refine ⟨.inr (by decide), 0, mirroredLayout, Nat.le_refl 0, rfl, rfl, ?_⟩
  intro part sources there
  have two : sources.length = 2 := by
    have listed := List.mem_of_getElem? there
    rw [List.mem_singleton.mp listed]
    rfl
  refine ⟨1, by omega, ?_⟩
  intro request layout made _ _ second
  rw [primaryDown, if_neg (by omega)]

namespace ContentReader

theorem failover_reads_exact_mirror :
    Inevitably (FailoverStream.step primaryDown)
      (fun stream => stream.phase = .ended)
      (FailoverStream.start primaryDown
        (mirroredReader.layouts mirroredVersion) 0 (-1)) := by
  have copies : mirroredReader.HoldsCopies mirroredVersion [1, 2, 3] := by
    refine ⟨by decide, by decide, by decide, ?_⟩
    intro layout member
    cases member
  have honest := primaryDown_honest
  have hopeful := primaryDown_hopeful
  rw [← mirroredReader_layouts] at honest hopeful
  exact (failover_reads_exact primaryDown 0 (-1) copies honest).2 hopeful

end ContentReader

end Tgdcfs
