import Tgdcfs.Upload.TeeBranch

/-!
# Runs of a tee branch

While the branch is attached, what was fed is what was delivered, then what
is queued, then the chunk that the producer waits with.  A detached branch
changes in nothing but its tasks.
-/

namespace Tgdcfs

open Lib

namespace TeeStream

theorem longestChunk_append (chunks : List Bytes) (data : Bytes) :
    longestChunk (chunks ++ [data]) = max (longestChunk chunks) data.length := by
  unfold longestChunk
  induction chunks with
  | nil => simp
  | cons head tail ih =>
      rw [List.cons_append, List.map_cons, List.foldr_cons, ih, List.map_cons,
        List.foldr_cons, Nat.max_assoc]

theorem length_le_longestChunk {chunks : List Bytes} {data : Bytes}
    (member : data ∈ chunks) : data.length ≤ longestChunk chunks := by
  unfold longestChunk
  induction chunks with
  | nil => cases member
  | cons head tail ih =>
      rw [List.map_cons, List.foldr_cons]
      rcases List.mem_cons.mp member with rfl | later
      · exact Nat.le_max_left _ _
      · exact (ih later).trans (Nat.le_max_right _ _)

/-- Where the bytes are while the branch is attached. -/
structure Attached (stream : TeeStream) : Prop where
  together : stream.delivered.flatten ++ stream.branch.chunks.flatten ++
    stream.producer.pending = stream.fed.flatten
  finished : ∀ fed, stream.finished = some fed →
    fed <+: stream.delivered.flatten ++ stream.branch.chunks.flatten

/-- What holds of the bytes. -/
structure Kept (stream : TeeStream) : Prop where
  counted : stream.branch.buffered =
    (stream.branch.chunks.map List.length).sum
  bounded : stream.branch.buffered ≤
    max stream.branch.capacity (longestChunk stream.fed)
  attached : stream.branch.detached = false → stream.Attached
  detached : stream.branch.detached = true → stream.branch.chunks = []
  in_order : stream.delivered.flatten <+: stream.fed.flatten
  pending_fed : ∀ data notified, stream.producer = .waiting data notified →
    data ∈ stream.fed
  eof : stream.branch.eof = true → stream.finished.isSome
  ended : stream.consumer = .ended → ∃ fed, stream.finished = some fed ∧
    fed <+: stream.delivered.flatten

/-- Besides, who was not notified waits for a reason. -/
structure Sound (stream : TeeStream) : Prop extends Kept stream where
  producer_waits : ∀ data, stream.producer = .waiting data false →
    stream.branch.FeedWaits data
  consumer_waits : stream.consumer = .waiting false →
    stream.branch.StreamWaits

theorem new_sound (capacity : Nat) : (TeeStream.new capacity).Sound where
  counted := rfl
  bounded := Nat.zero_le _
  attached _ := ⟨rfl, fun _ absurd => by cases absurd⟩
  detached absurd := by cases absurd
  in_order := List.prefix_rfl
  producer_waits _ absurd := by cases absurd
  pending_fed _ _ absurd := by cases absurd
  consumer_waits absurd := by cases absurd
  eof absurd := by cases absurd
  ended absurd := by cases absurd

variable {stream : TeeStream}

theorem Kept.notifyAll (kept : stream.Kept) : stream.notifyAll.Sound where
  counted := kept.counted
  bounded := kept.bounded
  attached stays := by
    obtain ⟨together, finished⟩ := kept.attached stays
    have pending : stream.notifyAll.producer.pending =
        stream.producer.pending := by
      unfold TeeStream.notifyAll
      cases stream.producer <;> rfl
    refine ⟨?_, finished⟩
    rw [pending]
    exact together
  detached := kept.detached
  in_order := kept.in_order
  pending_fed data notified waits := by
    unfold TeeStream.notifyAll at waits
    cases producer : stream.producer with
    | idle =>
        rw [producer] at waits
        cases waits
    | waiting other before =>
        rw [producer] at waits
        cases waits
        exact kept.pending_fed data before producer
  eof := kept.eof
  ended done := by
    unfold TeeStream.notifyAll at done
    cases consumer : stream.consumer with
    | ended => exact kept.ended consumer
    | idle | failed | closed | waiting _ =>
        rw [consumer] at done
        cases done
  producer_waits data waits := by
    unfold TeeStream.notifyAll at waits
    cases producer : stream.producer with
    | idle =>
        rw [producer] at waits
        cases waits
    | waiting other before =>
        rw [producer] at waits
        cases waits
  consumer_waits waits := by
    unfold TeeStream.notifyAll at waits
    cases consumer : stream.consumer with
    | idle | ended | failed | closed | waiting _ =>
        rw [consumer] at waits
        cases waits

namespace Sound

/-- The producer is in `feed` with a chunk: it waits, finds the branch
detached, or queues the chunk. -/
theorem feedTurn {data : Bytes}
    (sound : Sound { stream with producer := .waiting data true }) :
    (stream.feedTurn data).Sound := by
  unfold TeeStream.feedTurn
  by_cases waits : stream.branch.FeedWaits data
  · rw [if_pos waits]
    refine { sound with
      attached := fun stays => ⟨(sound.attached stays).together,
        (sound.attached stays).finished⟩
      pending_fed := ?_
      producer_waits := ?_ }
    · intro other notified same
      cases same
      exact sound.pending_fed data true rfl
    · intro other same
      cases same
      exact waits
  · rw [if_neg waits]
    cases detached : stream.branch.detached with
    | true =>
        rw [if_pos rfl]
        refine { sound with
          attached := ?_
          pending_fed := fun _ _ absurd => by cases absurd
          producer_waits := fun _ absurd => by cases absurd }
        intro stays
        exact absurd (detached.symm.trans stays) (by decide)
    | false =>
        obtain ⟨together, finished⟩ := sound.attached detached
        have member := sound.pending_fed data true rfl
        rw [if_neg (by decide)]
        apply Kept.notifyAll
        refine { sound.toKept with
          counted := ?_, bounded := ?_, attached := ?_, detached := ?_
          pending_fed := fun _ _ absurd => by cases absurd }
        · have counted := sound.counted
          dsimp only at counted
          simp only [TeeBranch.enqueue, counted, List.map_append,
            List.sum_append, List.map_singleton, List.sum_singleton]
        · have longest := length_le_longestChunk member
          have room : stream.branch.buffered = 0 ∨
              stream.branch.buffered + data.length ≤
                stream.branch.capacity := by
            unfold TeeBranch.FeedWaits at waits
            rw [detached] at waits
            by_contra unfed
            exact waits ⟨by omega, by omega, rfl⟩
          change stream.branch.buffered + data.length ≤
            max stream.branch.capacity (longestChunk stream.fed)
          dsimp only at longest
          omega
        · intro _
          refine ⟨?_, ?_⟩
          · simpa [TeeBranch.enqueue, TeeProducer.pending] using together
          · intro fed same
            obtain ⟨rest, joined⟩ := finished fed same
            refine ⟨rest ++ data, ?_⟩
            rw [← List.append_assoc, joined]
            simp [TeeBranch.enqueue]
        · intro absurd
          have stays : stream.branch.detached = true := absurd
          rw [detached] at stays
          cases stays

theorem feed (sound : stream.Sound) (idle : stream.producer = .idle)
    (data : Bytes) : (stream.feed data).Sound := by
  have longer : max stream.branch.capacity (longestChunk stream.fed) ≤
      max stream.branch.capacity (longestChunk (stream.fed ++ [data])) := by
    rw [longestChunk_append]
    omega
  have in_order : stream.delivered.flatten <+:
      (stream.fed ++ [data]).flatten := by
    rw [List.flatten_append]
    exact sound.in_order.trans (List.prefix_append _ _)
  unfold TeeStream.feed
  dsimp only
  by_cases nothing : data = [] ∨ stream.branch.detached = true
  · rw [if_pos nothing]
    refine { sound with
      bounded := sound.bounded.trans longer
      attached := ?_
      in_order := in_order
      pending_fed := fun other notified waits =>
        List.mem_append_left _ (sound.pending_fed other notified waits) }
    intro stays
    obtain ⟨together, finished⟩ := sound.attached stays
    rcases nothing with rfl | absurd
    · refine ⟨?_, finished⟩
      simpa using together
    · rw [stays] at absurd
      cases absurd
  · rw [if_neg nothing]
    apply feedTurn
    refine { sound with
      bounded := sound.bounded.trans longer
      attached := ?_
      in_order := in_order
      pending_fed := ?_
      producer_waits := fun _ absurd => by cases absurd }
    · intro stays
      obtain ⟨together, finished⟩ := sound.attached stays
      refine ⟨?_, finished⟩
      rw [idle] at together
      simp only [TeeProducer.pending, List.append_nil] at together
      simp [TeeProducer.pending, ← together]
    · intro other notified same
      cases same
      exact List.mem_append_right _ List.mem_cons_self

theorem finish (sound : stream.Sound) (idle : stream.producer = .idle) :
    stream.finish.Sound := by
  apply Kept.notifyAll
  refine { sound.toKept with attached := ?_, eof := fun _ => rfl, ended := ?_ }
  · intro stays
    obtain ⟨together, finished⟩ := sound.attached stays
    refine ⟨together, ?_⟩
    intro fed same
    cases same
    cases before : stream.finished with
    | some earlier => exact finished earlier before
    | none =>
        rw [idle] at together
        simp only [TeeProducer.pending, List.append_nil] at together
        rw [Option.getD_none, ← together]
        exact List.prefix_rfl
  · intro done
    obtain ⟨fed, finished, whole⟩ := sound.ended done
    exact ⟨fed, by rw [finished]; rfl, whole⟩

theorem detach (sound : stream.Sound) : stream.detach.Sound := by
  apply Kept.notifyAll
  exact { sound.toKept with
    counted := rfl
    bounded := Nat.zero_le _
    attached := fun absurd => by cases absurd
    detached := fun _ => rfl }

theorem streamTurn (sound : stream.Sound) : stream.streamTurn.Sound := by
  unfold TeeStream.streamTurn
  by_cases waits : stream.branch.StreamWaits
  · rw [if_pos waits]
    exact { sound with
      attached := fun stays => ⟨(sound.attached stays).together,
        (sound.attached stays).finished⟩
      ended := fun absurd => by cases absurd
      consumer_waits := fun _ => waits }
  · rw [if_neg waits]
    cases detached : stream.branch.detached with
    | true =>
        rw [if_pos rfl]
        exact { sound with
          attached := fun stays => ⟨(sound.attached stays).together,
            (sound.attached stays).finished⟩
          ended := fun absurd => by cases absurd
          consumer_waits := fun absurd => by cases absurd }
    | false =>
        obtain ⟨together, finished⟩ := sound.attached detached
        rw [if_neg (by decide)]
        cases queued : stream.branch.chunks with
        | nil =>
            refine { sound with
              attached := fun stays => ⟨(sound.attached stays).together,
                (sound.attached stays).finished⟩
              ended := ?_
              consumer_waits := fun absurd => by cases absurd }
            intro _
            have eof : stream.branch.eof = true := by
              cases open_ : stream.branch.eof with
              | true => rfl
              | false => exact (waits ⟨queued, open_, detached⟩).elim
            obtain ⟨fed, same⟩ := Option.isSome_iff_exists.mp (sound.eof eof)
            have whole := finished fed same
            rw [queued, List.flatten_nil, List.append_nil] at whole
            exact ⟨fed, same, whole⟩
        | cons data chunks =>
            have counted := sound.counted
            rw [queued, List.map_cons, List.sum_cons] at counted
            rw [queued, List.flatten_cons] at together finished
            apply Kept.notifyAll
            refine { sound.toKept with
              counted := ?_, bounded := ?_, attached := ?_, detached := ?_
              in_order := ?_, ended := fun absurd => by cases absurd }
            · change stream.branch.buffered - data.length =
                (chunks.map List.length).sum
              omega
            · exact (Nat.sub_le _ _).trans sound.bounded
            · intro _
              refine ⟨?_, ?_⟩
              · simpa using together
              · intro fed same
                simpa using finished fed same
            · intro absurd
              have stays : stream.branch.detached = true := absurd
              rw [detached] at stays
              cases stays
            · refine ⟨chunks.flatten ++ stream.producer.pending, ?_⟩
              simpa using together

theorem close (sound : stream.Sound) : stream.close.Sound := by
  have kept : ∀ state, stream.close.consumer = state →
      state = .closed ∨ stream.consumer = state ∧ state ≠ .waiting false := by
    rintro state rfl
    unfold TeeStream.close
    cases stream.consumer <;> simp
  refine { sound with
    attached := fun stays => ⟨(sound.attached stays).together,
      (sound.attached stays).finished⟩
    ended := ?_
    consumer_waits := ?_ }
  · intro done
    rcases kept _ done with absurd | ⟨before, _⟩
    · cases absurd
    · exact sound.ended before
  · intro waits
    rcases kept _ waits with absurd | ⟨_, absurd⟩
    · cases absurd
    · exact (absurd rfl).elim

theorem step (sound : stream.Sound) {action : TeeStreamAction}
    {next : TeeStream} (taken : stream.step action = some next) :
    next.Sound := by
  cases action with
  | feed data =>
      simp only [TeeStream.step] at taken
      split at taken
      · rename_i idle
        cases taken
        exact sound.feed idle data
      · cases taken
  | finish =>
      simp only [TeeStream.step] at taken
      split at taken
      · rename_i idle
        cases taken
        exact sound.finish idle
      · cases taken
  | detach =>
      cases taken
      exact sound.detach
  | wakeProducer =>
      simp only [TeeStream.step] at taken
      split at taken
      · rename_i data waits
        cases taken
        apply feedTurn
        rw [← waits]
        exact sound
      · cases taken
  | next =>
      simp only [TeeStream.step] at taken
      split at taken
      · cases taken
        exact sound.streamTurn
      · cases taken
  | wakeConsumer =>
      simp only [TeeStream.step] at taken
      split at taken
      · cases taken
        exact sound.streamTurn
      · cases taken
  | close =>
      cases taken
      exact sound.close

end Sound

/-- What a detached branch does not change any more. -/
def StaysDetached (stream later : TeeStream) : Prop :=
  later.branch.detached = true ∧ later.delivered = stream.delivered ∧
    (stream.consumer ≠ .ended → later.consumer ≠ .ended)

theorem notifyAll_ended :
    stream.notifyAll.consumer = .ended ↔ stream.consumer = .ended := by
  unfold notifyAll
  cases stream.consumer <;> simp

theorem feedTurn_detached (detached : stream.branch.detached = true)
    (data : Bytes) :
    stream.feedTurn data = { stream with producer := .idle } := by
  have free : ¬stream.branch.FeedWaits data := by
    rintro ⟨_, _, absurd⟩
    rw [detached] at absurd
    cases absurd
  rw [feedTurn, if_neg free, if_pos detached]

theorem streamTurn_detached (detached : stream.branch.detached = true) :
    stream.streamTurn = { stream with consumer := .failed } := by
  have free : ¬stream.branch.StreamWaits := by
    rintro ⟨_, _, absurd⟩
    rw [detached] at absurd
    cases absurd
  rw [streamTurn, if_neg free, if_pos detached]

theorem step_detached {action : TeeStreamAction} {next : TeeStream}
    (detached : stream.branch.detached = true)
    (taken : stream.step action = some next) : stream.StaysDetached next := by
  cases action with
  | feed data =>
      simp only [step] at taken
      split at taken
      · cases taken
        rw [feed, if_pos (.inr detached)]
        exact ⟨detached, rfl, id⟩
      · cases taken
  | finish =>
      simp only [step] at taken
      split at taken
      · cases taken
        exact ⟨detached, rfl, fun open_ => mt notifyAll_ended.mp open_⟩
      · cases taken
  | detach =>
      cases taken
      exact ⟨rfl, rfl, fun open_ => mt notifyAll_ended.mp open_⟩
  | wakeProducer =>
      simp only [step] at taken
      split at taken
      · cases taken
        rw [feedTurn_detached detached]
        exact ⟨detached, rfl, id⟩
      · cases taken
  | next =>
      simp only [step] at taken
      split at taken
      · cases taken
        rw [streamTurn_detached detached]
        exact ⟨detached, rfl, fun _ absurd => by cases absurd⟩
      · cases taken
  | wakeConsumer =>
      simp only [step] at taken
      split at taken
      · cases taken
        rw [streamTurn_detached detached]
        exact ⟨detached, rfl, fun _ absurd => by cases absurd⟩
      · cases taken
  | close =>
      cases taken
      refine ⟨detached, rfl, ?_⟩
      unfold close
      cases stream.consumer <;> simp

theorem run_detached {actions : List TeeStreamAction} {later : TeeStream}
    (detached : stream.branch.detached = true)
    (finished : run step stream actions = some later) :
    stream.StaysDetached later := by
  induction actions generalizing stream with
  | nil =>
      cases finished
      exact ⟨detached, rfl, id⟩
  | cons action actions ih =>
      obtain ⟨next, taken, rest⟩ := run_cons_eq_some finished
      obtain ⟨stays, same, open_⟩ := step_detached detached taken
      obtain ⟨laterStays, laterSame, laterOpen⟩ := ih stays rest
      exact ⟨laterStays, laterSame.trans same, laterOpen ∘ open_⟩

theorem Sound.faithful (sound : stream.Sound) : stream.Faithful where
  in_order := sound.in_order
  whole done := by
    obtain ⟨fed, finished, whole⟩ := sound.ended done
    refine ⟨fed, finished, whole, ?_⟩
    intro all
    have most := sound.in_order
    rw [all] at most
    exact most.eq_of_length_le whole.length_le
  bounded := sound.bounded
  producer_waits := sound.producer_waits
  consumer_waits := sound.consumer_waits
  empty detached := by
    rw [sound.counted, sound.detached detached]
    rfl
  not_blocked detached := by
    constructor
    · intro data called taken
      simp only [TeeStream.step] at taken
      split at taken
      · rename_i idle
        cases taken
        rw [TeeStream.feed, if_pos (.inr detached)]
        exact idle
      · cases taken
    · intro data notified waits
      cases notified with
      | false =>
          obtain ⟨_, _, attached⟩ := sound.producer_waits data waits
          rw [detached] at attached
          cases attached
      | true =>
          refine ⟨stream.feedTurn data, ?_, ?_⟩
          · simp only [TeeStream.step, waits]
          · rw [feedTurn_detached detached]
  raises detached idle := by
    refine ⟨stream.streamTurn, ?_, ?_⟩
    · simp only [TeeStream.step, idle]
    · rw [streamTurn_detached detached]
  raises_waiting detached notified waits := by
    cases notified with
    | false =>
        obtain ⟨_, _, attached⟩ := sound.consumer_waits waits
        rw [detached] at attached
        cases attached
    | true =>
        refine ⟨stream.streamTurn, ?_, ?_⟩
        · simp only [TeeStream.step, waits]
        · rw [streamTurn_detached detached]
  stays detached _ _ finished := run_detached detached finished

theorem feedTurn_adds (stream : TeeStream) (data : Bytes) :
    (stream.feedTurn data).fed = stream.fed ∧
      (stream.feedTurn data).delivered = stream.delivered := by
  unfold feedTurn
  split
  · exact ⟨rfl, rfl⟩
  · split
    · exact ⟨rfl, rfl⟩
    · exact ⟨rfl, rfl⟩

theorem feed_adds (stream : TeeStream) (data : Bytes) :
    (stream.feed data).fed = stream.fed ++ [data] ∧
      (stream.feed data).delivered = stream.delivered := by
  unfold feed
  dsimp only
  split
  · exact ⟨rfl, rfl⟩
  · exact feedTurn_adds _ _

theorem streamTurn_adds (stream : TeeStream) :
    stream.streamTurn.fed = stream.fed ∧
      stream.delivered <+: stream.streamTurn.delivered := by
  unfold streamTurn
  split
  · exact ⟨rfl, List.prefix_rfl⟩
  · split
    · exact ⟨rfl, List.prefix_rfl⟩
    · split
      · exact ⟨rfl, List.prefix_rfl⟩
      · exact ⟨rfl, List.prefix_append _ _⟩

/-- The chunks that an action feeds. -/
def feeds : TeeStreamAction → List Bytes
  | .feed data => [data]
  | _ => []

theorem step_adds {action : TeeStreamAction} {next : TeeStream}
    (taken : stream.step action = some next) :
    next.fed = stream.fed ++ feeds action ∧
      stream.delivered <+: next.delivered := by
  cases action with
  | feed data =>
      simp only [step] at taken
      split at taken
      · cases taken
        obtain ⟨fed, delivered⟩ := feed_adds stream data
        exact ⟨fed, delivered ▸ List.prefix_rfl⟩
      · cases taken
  | finish =>
      simp only [step] at taken
      split at taken
      · cases taken
        exact ⟨(List.append_nil _).symm, List.prefix_rfl⟩
      · cases taken
  | detach | close =>
      cases taken
      exact ⟨(List.append_nil _).symm, List.prefix_rfl⟩
  | wakeProducer =>
      simp only [step] at taken
      split at taken
      · rename_i data _
        cases taken
        obtain ⟨fed, delivered⟩ := feedTurn_adds stream data
        exact ⟨fed.trans (List.append_nil _).symm,
          delivered ▸ List.prefix_rfl⟩
      · cases taken
  | next | wakeConsumer =>
      simp only [step] at taken
      split at taken
      · cases taken
        obtain ⟨fed, delivered⟩ := streamTurn_adds stream
        exact ⟨fed.trans (List.append_nil _).symm, delivered⟩
      · cases taken

theorem reachable_sound {capacity : Nat}
    (reachable : Reachable step (new capacity) stream) : stream.Sound :=
  reachable.invariant (fun _ _ _ sound taken => sound.step taken)
    (new_sound capacity)

end TeeStream

end Tgdcfs
