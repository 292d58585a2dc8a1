import Mathlib.Data.List.Flatten
import Tgdcfs.Core.PrefetchingChain
import Tgdcfs.Lib.Run

/-!
# Runs of the prefetching chain

The pumps of the running sources and the consumer take their steps in any
order.  Whatever that order is, the consumer gets the sources one after the
other up to the first error, the window and the queues stay within their
bounds, and the chain goes on until it has ended.
-/

namespace Tgdcfs

open Lib

variable {ε : Type*}

/-- A chain under way: what the consumer has received, and what ended the
chain for it. -/
structure ChainRun (ε : Type*) where
  chain : PrefetchingChain ε
  received : List UInt8
  finished : Option (Option ε)

/-- What happens next: the pump of a running source puts an item into its
queue, or the consumer takes one. -/
inductive ChainAction where
  | pump (index : Nat)
  | take
  deriving DecidableEq, Repr

namespace ChainRun

def start (sources : List (ByteStream ε)) (concurrency queueDepth : Int) :
    ChainRun ε :=
  { chain := .start sources concurrency.toNat queueDepth.toNat
    received := []
    finished := none }

/-- The consumer goes on with what it got. -/
def answered (state : ChainRun ε) : ChainAnswer ε → ChainRun ε
  | .yielded bytes chain =>
      { state with chain := chain, received := state.received ++ bytes }
  | .advanced chain => { state with chain := chain }
  | .raised error => { state with finished := some (some error) }
  | .ended => { state with finished := some none }

/-- One step; the pumps are cancelled when the chain has ended. -/
def step (state : ChainRun ε) (action : ChainAction) :
    Option (ChainRun ε) :=
  match state.finished with
  | some _ => none
  | none =>
      match action with
      | .pump index =>
          (state.chain.pump index).map fun chain =>
            { state with chain := chain }
      | .take => state.chain.get.map state.answered

end ChainRun

def ByteStream.bytes (source : ByteStream ε) : List UInt8 :=
  source.chunks.flatten

theorem joinOutcomes_prefix (sources : List (ByteStream ε)) :
    (joinOutcomes (sources.map ByteStream.outcome)).1 <+:
      sources.flatMap ByteStream.bytes := by
  induction sources with
  | nil => exact List.prefix_rfl
  | cons source rest induction =>
      rw [List.map_cons, List.flatMap_cons]
      unfold ByteStream.outcome
      cases source.error with
      | none =>
          simp only [joinOutcomes]
          exact (List.prefix_append_right_inj _).mpr induction
      | some error => exact List.prefix_append _ _

theorem joinOutcomes_of_sound {sources : List (ByteStream ε)}
    (sound : ∀ source ∈ sources, source.error = none) :
    joinOutcomes (sources.map ByteStream.outcome) =
      (sources.flatMap ByteStream.bytes, none) := by
  induction sources with
  | nil => rfl
  | cons source rest induction =>
      have here : source.error = none := sound source List.mem_cons_self
      have later := induction fun other member =>
        sound other (List.mem_cons_of_mem _ member)
      simp [ByteStream.outcome, ByteStream.bytes, joinOutcomes, here] at later ⊢
      simp [later]

theorem joinOutcomes_of_first {before after : List (ByteStream ε)}
    {source : ByteStream ε} {error : ε}
    (sound : ∀ earlier ∈ before, earlier.error = none)
    (raises : source.error = some error) :
    joinOutcomes ((before ++ source :: after).map ByteStream.outcome) =
      ((before ++ [source]).flatMap ByteStream.bytes, some error) := by
  induction before with
  | nil => simp [ByteStream.outcome, ByteStream.bytes, joinOutcomes, raises]
  | cons first rest induction =>
      have here : first.error = none := sound first List.mem_cons_self
      have later := induction fun other member =>
        sound other (List.mem_cons_of_mem _ member)
      rw [List.cons_append, List.map_cons, ByteStream.outcome, here,
        joinOutcomes, later]
      rfl

namespace PrefetchingChain

variable {chain next : PrefetchingChain ε}

/-- No more sources run and no more items wait than the caller allowed. -/
structure Within (concurrency queueDepth : Nat)
    (chain : PrefetchingChain ε) : Prop where
  width : chain.concurrency = concurrency
  depth : chain.queueDepth = queueDepth
  window : chain.segments.length ≤ concurrency
  queues : ∀ segment ∈ chain.segments, segment.queue.length ≤ queueDepth

variable {concurrency queueDepth : Nat}

theorem Within.startWindow
    (within : chain.Within concurrency queueDepth) :
    chain.startWindow.Within concurrency queueDepth := by
  refine ⟨within.width, within.depth, ?_, ?_⟩
  · have window := within.window
    have count : chain.startWindow.segments.length =
        chain.segments.length + min (concurrency - chain.segments.length)
          chain.waiting.length := by
      simp [PrefetchingChain.startWindow, within.width]
    omega
  · intro segment member
    rcases List.mem_append.mp member with running | started
    · exact within.queues segment running
    · obtain ⟨source, _, rfl⟩ := List.mem_map.mp started
      exact Nat.zero_le _

theorem start_within (sources : List (ByteStream ε))
    (concurrency queueDepth : Nat) :
    (start sources concurrency queueDepth).Within (max 1 concurrency)
      (max 1 queueDepth) := by
  apply Within.startWindow
  refine ⟨rfl, rfl, Nat.zero_le _, ?_⟩
  intro segment member
  cases member

variable (within : chain.Within concurrency queueDepth)
include within

theorem Within.pump {index : Nat} (moved : chain.pump index = some next) :
    next.Within concurrency queueDepth := by
  obtain ⟨segment, put, rfl⟩ := Option.map_eq_some_iff.mp moved
  obtain ⟨old, found, put⟩ := Option.bind_eq_some_iff.mp put
  refine ⟨within.width, within.depth, ?_, ?_⟩
  · rw [List.length_set]
    exact within.window
  · intro other member
    rcases List.mem_or_eq_of_mem_set member with running | rfl
    · exact within.queues other running
    · unfold Segment.pump at put
      split at put
      · cases put
      · split at put
        · rename_i room
          cases put
          rw [within.depth] at room
          rw [List.length_append]
          exact room
        · cases put

/-- What the consumer takes makes room in a queue or in the window. -/
theorem Within.tail {segment : Segment ε} {later : List (Segment ε)}
    (running : chain.segments = segment :: later) :
    ({ chain with segments := later } : PrefetchingChain ε).Within
      concurrency queueDepth := by
  have window := within.window
  rw [running, List.length_cons] at window
  refine ⟨within.width, within.depth, Nat.le_of_succ_le window,
    ?_⟩
  intro other member
  exact within.queues other (running ▸ List.mem_cons_of_mem _ member)

theorem Within.yielded {bytes : List UInt8}
    (taken : chain.get = some (.yielded bytes next)) :
    next.Within concurrency queueDepth := by
  unfold get at taken
  split at taken
  · cases taken
  · rename_i segment later running
    split at taken
    · cases taken
    · rename_i chunk queue front
      cases taken
      have rest := within.tail running
      refine ⟨rest.width, rest.depth, ?_, ?_⟩
      · have window := within.window
        rw [running] at window
        exact window
      · intro other member
        cases member with
        | head =>
            have here := within.queues segment
              (running ▸ List.mem_cons_self)
            rw [front] at here
            exact Nat.le_of_succ_le here
        | tail _ behind => exact rest.queues other behind
    · cases taken
    · cases taken

theorem Within.advanced (taken : chain.get = some (.advanced next)) :
    next.Within concurrency queueDepth := by
  unfold get at taken
  split at taken
  · cases taken
  · rename_i segment later running
    split at taken
    · cases taken
    · cases taken
    · cases taken
      exact (within.tail running).startWindow
    · cases taken

end PrefetchingChain

namespace ChainRun

/-- What a run keeps: received and still to come make up the outcome of the
sources, and the chain stays well formed and within its bounds. -/
structure Delivers (sources : List (ByteStream ε))
    (concurrency queueDepth : Nat) (state : ChainRun ε) : Prop where
  wellFormed : state.chain.WellFormed
  within : state.chain.Within concurrency queueDepth
  running : state.finished = none →
    joinOutcomes (sources.map ByteStream.outcome) =
      (state.received ++ state.chain.outcome.1, state.chain.outcome.2)
  ended : ∀ ending, state.finished = some ending →
    joinOutcomes (sources.map ByteStream.outcome) =
      (state.received, ending)

variable {sources : List (ByteStream ε)} {concurrency queueDepth : Nat}
  {state next : ChainRun ε}

theorem start_delivers (sources : List (ByteStream ε))
    (concurrency queueDepth : Int) :
    Delivers sources (max 1 concurrency.toNat) (max 1 queueDepth.toNat)
      (start sources concurrency queueDepth) := by
  refine ⟨PrefetchingChain.start_wellFormed sources _ _,
    PrefetchingChain.start_within sources _ _, ?_, ?_⟩
  · intro _
    exact (PrefetchingChain.start_outcome sources _ _).symm
  · intro ending finished
    cases finished

/-- One step keeps what is delivered, and as long as the chain goes on there
is less work left. -/
theorem step_delivers {action : ChainAction}
    (delivers : Delivers sources concurrency queueDepth state)
    (taken : state.step action = some next) :
    Delivers sources concurrency queueDepth next ∧
      (next.finished = none → next.chain.work < state.chain.work) := by
  unfold step at taken
  cases open_ : state.finished with
  | some ending =>
      rw [open_] at taken
      cases taken
  | none =>
      rw [open_] at taken
      have outcome := delivers.running open_
      have unfinished : ∀ ending, state.finished ≠ some ending := by
        intro ending finished
        rw [open_] at finished
        cases finished
      cases action with
      | pump index =>
          obtain ⟨chain, moved, rfl⟩ := Option.map_eq_some_iff.mp taken
          obtain ⟨same, wellFormed, less⟩ :=
            PrefetchingChain.pump_some delivers.wellFormed moved
          refine ⟨⟨wellFormed, delivers.within.pump moved, ?_, ?_⟩,
            fun _ => less⟩
          · intro _
            rw [outcome]
            exact congrArg (fun rest : List UInt8 × Option ε =>
              (state.received ++ rest.1, rest.2)) same.symm
          · intro ending finished
            cases finished
      | take =>
          obtain ⟨answer, got, rfl⟩ := Option.map_eq_some_iff.mp taken
          cases answer with
          | yielded bytes chain =>
              obtain ⟨same, wellFormed, less⟩ :=
                PrefetchingChain.get_yielded delivers.wellFormed got
              refine ⟨⟨wellFormed, delivers.within.yielded got, ?_, ?_⟩,
                fun _ => less⟩
              · intro _
                rw [outcome, same]
                simp [answered]
              · intro ending finished
                exact absurd finished (unfinished ending)
          | advanced chain =>
              obtain ⟨same, wellFormed, less⟩ :=
                PrefetchingChain.get_advanced delivers.wellFormed got
              refine ⟨⟨wellFormed, delivers.within.advanced got, ?_, ?_⟩,
                fun _ => less⟩
              · intro _
                rw [outcome]
                exact congrArg (fun rest : List UInt8 × Option ε =>
                  (state.received ++ rest.1, rest.2)) same.symm
              · intro ending finished
                exact absurd finished (unfinished ending)
          | raised error =>
              have last := PrefetchingChain.get_raised got
              refine ⟨⟨delivers.wellFormed, delivers.within, ?_, ?_⟩, ?_⟩
              · intro running
                cases running
              · intro ending finished
                cases finished
                simp [outcome, last, answered]
              · intro running
                cases running
          | ended =>
              have last :=
                PrefetchingChain.get_ended delivers.wellFormed got
              refine ⟨⟨delivers.wellFormed, delivers.within, ?_, ?_⟩, ?_⟩
              · intro running
                cases running
              · intro ending finished
                cases finished
                simp [outcome, last, answered]
              · intro running
                cases running

/-- A chain that has not ended has a step: the consumer takes an item, or
waits for a running pump that has one. -/
theorem step_enabled (delivers : Delivers sources concurrency queueDepth
      state) (open_ : state.finished = none) :
    ∃ action next, state.step action = some next := by
  cases got : state.chain.get with
  | some answer =>
      refine ⟨.take, state.answered answer, ?_⟩
      simp [step, open_, got]
  | none =>
      obtain ⟨chain, moved⟩ :=
        PrefetchingChain.get_none delivers.wellFormed got
      refine ⟨.pump 0, { state with chain := chain }, ?_⟩
      simp [step, open_, moved]

/-- Steps left at most; the step that ends the chain is one of them. -/
def left (state : ChainRun ε) : Nat :=
  if state.finished.isSome then 0 else state.chain.work + 1

theorem step_left {action : ChainAction}
    (delivers : Delivers sources concurrency queueDepth state)
    (taken : state.step action = some next) : next.left < state.left := by
  have less := (step_delivers delivers taken).2
  have running : state.finished = none := by
    unfold step at taken
    cases open_ : state.finished with
    | none => rfl
    | some ending =>
        rw [open_] at taken
        cases taken
  unfold left
  cases ended : next.finished with
  | some ending => simp [running]
  | none =>
      have fewer := less ended
      simp [running]
      omega

theorem reachable_delivers {sources : List (ByteStream ε)}
    {concurrency queueDepth : Int}
    (reached : Reachable step (start sources concurrency queueDepth)
      state) :
    Delivers sources (max 1 concurrency.toNat) (max 1 queueDepth.toNat)
      state :=
  reached.invariant (fun _ _ _ delivers taken =>
    (step_delivers delivers taken).1)
    (start_delivers sources concurrency queueDepth)

end ChainRun

/-- What holds in every state of a chain over `sources`. -/
structure ChainRun.Concatenates (sources : List (ByteStream ε))
    (concurrency queueDepth : Int) (state : ChainRun ε) : Prop where
  inOrder : state.received <+: sources.flatMap ByteStream.bytes
  running : (state.chain.segments.length : Int) ≤ max 1 concurrency
  queued : ∀ segment ∈ state.chain.segments,
    (segment.queue.length : Int) ≤ max 1 queueDepth
  started : state.chain.segments = [] → state.chain.waiting = []
  waits : state.finished = none → state.chain.get = none →
    ∃ next, state.chain.pump 0 = some next
  whole : (∀ source ∈ sources, source.error = none) →
    ∀ ending, state.finished = some ending → ending = none ∧
      state.received = sources.flatMap ByteStream.bytes
  failed : ∀ before source after error,
    sources = before ++ source :: after →
    (∀ earlier ∈ before, earlier.error = none) →
    source.error = some error →
      ∀ ending, state.finished = some ending → ending = some error ∧
        state.received = (before ++ [source]).flatMap ByteStream.bytes

/-- In every state of every run the chain is the concatenation of its
sources, and no schedule keeps it from coming to its end. -/
theorem prefetching_chain_concatenates (sources : List (ByteStream ε))
    (concurrency queueDepth : Int) :
    (∀ state, Reachable ChainRun.step
        (ChainRun.start sources concurrency queueDepth) state →
      state.Concatenates sources concurrency queueDepth) ∧
    Inevitably ChainRun.step (fun state => state.finished.isSome = true)
      (ChainRun.start sources concurrency queueDepth) := by
  constructor
  · intro state reached
    have delivers := ChainRun.reachable_delivers reached
    have window := delivers.within.window
    refine ⟨?_, by omega, ?_, delivers.wellFormed.windowed,
      fun _ => PrefetchingChain.get_none delivers.wellFormed, ?_, ?_⟩
    · have front := joinOutcomes_prefix sources
      cases ended : state.finished with
      | none =>
          rw [delivers.running ended] at front
          exact (List.prefix_append _ _).trans front
      | some ending =>
          rw [delivers.ended ending ended] at front
          exact front
    · intro segment member
      have room := delivers.within.queues segment member
      omega
    · intro sound ending ended
      have outcome := delivers.ended ending ended
      rw [joinOutcomes_of_sound sound] at outcome
      obtain ⟨bytes, last⟩ := Prod.mk.inj outcome
      exact ⟨last.symm, bytes.symm⟩
    · rintro before source after error rfl sound raises ending ended
      have outcome := delivers.ended ending ended
      rw [joinOutcomes_of_first sound raises] at outcome
      obtain ⟨bytes, last⟩ := Prod.mk.inj outcome
      exact ⟨last.symm, bytes.symm⟩
  · apply Inevitably.of_measure ChainRun.left Nat.lt_wfRel.wf
      (fun state action next delivers taken =>
        ⟨(ChainRun.step_delivers delivers taken).1,
          ChainRun.step_left delivers taken⟩) ?_
      (ChainRun.start_delivers sources concurrency queueDepth)
    intro state delivers unfinished
    apply ChainRun.step_enabled delivers
    simpa using unfinished

end Tgdcfs
