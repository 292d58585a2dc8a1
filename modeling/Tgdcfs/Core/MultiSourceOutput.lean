import Tgdcfs.Core.MultiSourceProgress

/-!
# Output of multi-source reads

The stores of a read hold complete copies of one version, possibly cut along
different part sizes.  A store answers a download with the exact bytes, with
a wrong number of bytes, or not at all.  `fetch` compares only the total of a
piece with what it expects, so wrong answers can make up for each other; in
the runs in which they do not, the output is at every moment a prefix of the
requested bytes.
-/

namespace Tgdcfs

open Lib

/-- A read of `[first, last]` of a version every view holds completely. -/
structure ReadPlan.CompleteCopies (plan : ReadPlan) (content : List UInt8)
    (first last : Nat) : Prop where
  size : plan.size = content.length
  begin_ : plan.begin_ = first
  end_ : plan.end_ = last
  inside : last < content.length
  pieceSize_pos : 1 ≤ plan.pieceSize
  window_pos : 1 ≤ plan.window
  messages : ∀ view ∈ plan.views,
    view.messageIds.length = view.partSizes.length
  parts : ∀ view ∈ plan.views, view.partSizes.sum = content.length

/-- The bytes of the piece with the given index. -/
def ReadPlan.pieceBytes (plan : ReadPlan) (content : List UInt8)
    (index : Nat) : List UInt8 :=
  byteRange content (plan.piece index).begin_.toNat
    (plan.piece index).end_.toNat

namespace ReadPlan.CompleteCopies

variable {plan : ReadPlan} {content : List UInt8} {first last : Nat}

variable (copies : plan.CompleteCopies content first last)
include copies

theorem step_eq : plan.step = plan.pieceSize :=
  Nat.max_eq_right copies.pieceSize_pos

theorem reach_eq : plan.reach = plan.window :=
  Nat.max_eq_right copies.window_pos

theorem piece_begin (index : Nat) :
    (plan.piece index).begin_ =
      ((first + index * plan.pieceSize : Nat) : Int) := by
  simp only [ReadPlan.piece, copies.begin_, copies.step_eq]
  push_cast
  rfl

theorem piece_end (index : Nat) :
    (plan.piece index).end_ =
      ((min (first + index * plan.pieceSize + plan.pieceSize - 1) last :
        Nat) : Int) := by
  have positive := copies.pieceSize_pos
  have begins := copies.piece_begin index
  simp only [ReadPlan.piece] at begins ⊢
  rw [begins, copies.end_]
  omega

/-- Piece `index` exists exactly when it begins inside the range. -/
theorem lt_pieceCount_iff (index : Nat) :
    index < plan.pieceCount ↔ first + index * plan.pieceSize ≤ last := by
  have positive := copies.pieceSize_pos
  have natural : plan.pieceCount =
      (last + plan.pieceSize - first) / plan.pieceSize := by
    unfold ReadPlan.pieceCount
    rw [copies.begin_, copies.end_, copies.step_eq]
    by_cases ordered : first ≤ last + plan.pieceSize
    · have cast : (last : Int) + 1 - first + plan.pieceSize - 1 =
          ((last + plan.pieceSize - first : Nat) : Int) := by omega
      rw [cast, ← Int.natCast_ediv, Int.toNat_natCast]
    · have negative : ((last : Int) + 1 - first + plan.pieceSize - 1) /
          plan.pieceSize ≤ 0 := by
        apply Int.ediv_nonpos_of_nonpos_of_neg <;> omega
      have zero : last + plan.pieceSize - first = 0 := by omega
      rw [zero, Nat.zero_div]
      omega
  rw [natural, Nat.lt_iff_add_one_le, Nat.le_div_iff_mul_le positive,
    Nat.add_mul, Nat.one_mul]
  omega

theorem pieceBytes_eq (index : Nat) :
    plan.pieceBytes content index =
      (content.drop (first + index * plan.pieceSize)).take
        (min plan.pieceSize
          (last + 1 - (first + index * plan.pieceSize))) := by
  have positive := copies.pieceSize_pos
  unfold ReadPlan.pieceBytes byteRange
  rw [copies.piece_begin, copies.piece_end, Int.toNat_natCast,
    Int.toNat_natCast]
  congr 1
  omega

theorem flatten_pieceBytes (count : Nat) :
    ((List.range count).map (plan.pieceBytes content)).flatten =
      (content.drop first).take
        (min (count * plan.pieceSize) (last + 1 - first)) := by
  induction count with
  | zero => simp
  | succ count induction =>
      rw [List.range_succ, List.map_append, List.flatten_append, induction]
      simp only [List.map_cons, List.map_nil, List.flatten_cons,
        List.flatten_nil, List.append_nil]
      rw [copies.pieceBytes_eq]
      have grown : (count + 1) * plan.pieceSize =
          count * plan.pieceSize + plan.pieceSize := by
        rw [Nat.add_mul, Nat.one_mul]
      rw [grown]
      by_cases inside : first + count * plan.pieceSize ≤ last
      · have sofar : min (count * plan.pieceSize) (last + 1 - first) =
            count * plan.pieceSize := by omega
        have total : min (count * plan.pieceSize + plan.pieceSize)
              (last + 1 - first) = count * plan.pieceSize +
            min plan.pieceSize
              (last + 1 - (first + count * plan.pieceSize)) := by omega
        rw [sofar, total]
        exact take_drop_append content first _ _
      · have nothing : min plan.pieceSize
            (last + 1 - (first + count * plan.pieceSize)) = 0 := by omega
        have total : min (count * plan.pieceSize + plan.pieceSize)
            (last + 1 - first) =
              min (count * plan.pieceSize) (last + 1 - first) := by omega
        rw [nothing, List.take_zero, List.append_nil, total]

theorem flatten_isPrefix (count : Nat) :
    ((List.range count).map (plan.pieceBytes content)).flatten <+:
      byteRange content first last := by
  rw [copies.flatten_pieceBytes, byteRange]
  exact List.take_prefix_take_left (Nat.min_le_right _ _)

theorem flatten_all :
    ((List.range plan.pieceCount).map
        (plan.pieceBytes content)).flatten =
      byteRange content first last := by
  have beyond : last < first + plan.pieceCount * plan.pieceSize := by
    apply Nat.lt_of_not_le
    intro inside
    exact lt_irrefl _ ((copies.lt_pieceCount_iff _).mpr inside)
  rw [copies.flatten_pieceBytes, byteRange]
  congr 1
  omega

end ReadPlan.CompleteCopies

variable {responses : PartRange → Response}

theorem downloadParts_answered {ranges : List PartRange} {out : List UInt8}
    (downloaded : downloadParts responses ranges = some out) :
    ∀ range ∈ ranges, ∃ data, responses range = .bytes data := by
  induction ranges generalizing out with
  | nil => simp
  | cons head ranges induction =>
      unfold downloadParts at downloaded
      split at downloaded
      · cases downloaded
      · rename_i data answered
        obtain ⟨rest, restDownloaded, _⟩ :=
          Option.map_eq_some_iff.mp downloaded
        intro range member
        rcases List.mem_cons.mp member with rfl | later
        · exact ⟨data, answered⟩
        · exact induction restDownloaded range later

theorem downloadParts_exact {ranges : List PartRange}
    {bytes : PartRange → List UInt8}
    (exact_ : ∀ range ∈ ranges, responses range = .bytes (bytes range)) :
    downloadParts responses ranges = some (ranges.flatMap bytes) := by
  induction ranges with
  | nil => rfl
  | cons head ranges induction =>
      have here := exact_ head List.mem_cons_self
      have rest := induction fun range member =>
        exact_ range (List.mem_cons_of_mem _ member)
      unfold downloadParts
      rw [here, rest]
      rfl

/-- The answer of a store that holds the part: the exact bytes, a wrong
number of them, or an error. -/
def Response.Honest (partSizes : List Nat) (content : List UInt8)
    (range : PartRange) (response : Response) : Prop :=
  response = .raised ∨
    response = .bytes (range.bytes partSizes content) ∨
    ∃ data, response = .bytes data ∧ data.length ≠ range.length

/-- The ranges a worker asks its store for. -/
def requests (plan : ReadPlan) (view : StoreView) (piece : Piece) :
    List PartRange :=
  match mapRange view.messageIds view.partSizes plan.size piece.begin_
      piece.end_ with
  | .ok ranges => ranges
  | .error _ => []

/-- Every answer of the step is an honest one. -/
def HonestAnswers (plan : ReadPlan) (content : List UInt8)
    (state : ReadState) : ReadAction → Prop
  | .fetched position responses =>
      ∀ worker piece, state.workers[position]? = some worker →
        worker.phase = .fetching piece →
        ∀ range ∈ requests plan worker.view piece,
          (responses range).Honest worker.view.partSizes content range
  | _ => True

/-- Wrong numbers of bytes do not add up to the length of the piece: when
the total is right, every single answer has the length asked for. -/
def Uncompensated (plan : ReadPlan) (state : ReadState) :
    ReadAction → Prop
  | .fetched position responses =>
      ∀ worker piece out, state.workers[position]? = some worker →
        worker.phase = .fetching piece →
        downloadParts responses (requests plan worker.view piece) =
          some out →
        (out.length : Int) = piece.end_ - piece.begin_ + 1 →
        ∀ range ∈ requests plan worker.view piece, ∀ data,
          responses range = .bytes data → data.length = range.length
  | _ => True

/-- A download whose answers all have the right length is the piece. -/
theorem fetch_exact {plan : ReadPlan} {content : List UInt8} {first last : Nat}
    (copies : plan.CompleteCopies content first last) {view : StoreView}
    (known : view ∈ plan.views) {piece : Piece}
    (begins : piece.begin_ = (plan.piece piece.index).begin_)
    (ends : piece.end_ = (plan.piece piece.index).end_)
    (valid : piece.index < plan.pieceCount)
    (honest : ∀ range ∈ requests plan view piece,
      (responses range).Honest view.partSizes content range)
    (sized : ∀ out, downloadParts responses (requests plan view piece) =
        some out →
      (out.length : Int) = piece.end_ - piece.begin_ + 1 →
      ∀ range ∈ requests plan view piece, ∀ data,
        responses range = .bytes data → data.length = range.length)
    {data : List UInt8} (arrived : fetch plan view piece responses = some data)
    : data = plan.pieceBytes content piece.index := by
  have positive := copies.pieceSize_pos
  have inside := (copies.lt_pieceCount_iff piece.index).mp valid
  have parts := copies.parts view known
  have size : plan.size = view.partSizes.sum := by
    rw [copies.size, parts]
  have within := copies.inside
  obtain ⟨ranges, mapped, _, bytes⟩ := mapRange_spec
    (copies.messages view known)
    (show first + piece.index * plan.pieceSize ≤
      min (first + piece.index * plan.pieceSize + plan.pieceSize - 1) last
      by omega)
    (show min (first + piece.index * plan.pieceSize +
      plan.pieceSize - 1) last < view.partSizes.sum by omega)
  rw [← size, ← copies.piece_begin, ← copies.piece_end, ← begins, ← ends]
    at mapped
  have asked : requests plan view piece = ranges := by
    rw [requests, mapped]
  rw [asked] at honest sized
  unfold fetch at arrived
  rw [mapped] at arrived
  dsimp only at arrived
  split at arrived
  · cases arrived
  · rename_i out downloaded
    split at arrived
    · rename_i expected
      cases arrived
      have answers : ∀ range ∈ ranges, responses range =
          .bytes (range.bytes view.partSizes content) := by
        intro range member
        obtain ⟨answer, answered⟩ :=
          downloadParts_answered downloaded range member
        rcases honest range member with raised | exact_ | ⟨wrong, same, off⟩
        · rw [answered] at raised
          cases raised
        · exact exact_
        · exact (off (sized data downloaded expected range member wrong
            same)).elim
      have whole := downloadParts_exact answers
      rw [downloaded, Option.some.injEq] at whole
      rw [whole, bytes content parts.symm, ReadPlan.pieceBytes,
        copies.piece_begin, copies.piece_end, Int.toNat_natCast,
        Int.toNat_natCast]
    · cases arrived

/-- The piece is the one the read was cut into, whatever was tried. -/
def ReadPlan.Cuts (plan : ReadPlan) (piece : Piece) : Prop :=
  piece.begin_ = (plan.piece piece.index).begin_ ∧
    piece.end_ = (plan.piece piece.index).end_

structure OutputInvariant (plan : ReadPlan) (content : List UInt8)
    (state : ReadState) : Prop where
  pending : ∀ piece ∈ state.pending, plan.Cuts piece
  views : ∀ worker ∈ state.workers, worker.view ∈ plan.views
  held : ∀ worker ∈ state.workers, ∀ piece,
    worker.phase = .fetching piece →
      plan.Cuts piece ∧ piece.index < state.nextToEmit + plan.reach
  results : ∀ index data, state.results.get? index = some data →
    data = plan.pieceBytes content index ∧
      index < state.nextToEmit + plan.reach
  emitted : state.emitted = (List.range state.nextToEmit).map fun index =>
    (index, plan.pieceBytes content index)
  finished : state.consumer = .finished → plan.pieceCount ≤ state.nextToEmit

theorem wake_fetching {worker : Worker} {piece : Piece}
    (busy : worker.wake.phase = .fetching piece) :
    worker.phase = .fetching piece := by
  obtain ⟨view, phase⟩ := worker
  cases phase <;> simp_all [Worker.wake]

/-- A piece in the hands of a worker is one of the read, not emitted yet. -/
theorem Accounted.held_range {plan : ReadPlan} {state : ReadState}
    (accounted : Accounted plan state) {worker : Worker} {index : Nat}
    (member : worker ∈ state.workers) (held : worker.holds index = true) :
    state.nextToEmit ≤ index ∧ index < plan.pieceCount := by
  have counted : 0 < state.workers.countP (Worker.holds index) :=
    List.countP_pos_iff.mpr ⟨worker, member, held⟩
  have bounded := accounted.bounded index
  unfold copies owed at bounded
  split at bounded
  · rename_i due
    exact due
  · omega

theorem Accounted.filed_range {plan : ReadPlan} {state : ReadState}
    (accounted : Accounted plan state) {index : Nat}
    (filed : state.results.contains index = true) :
    state.nextToEmit ≤ index ∧ index < plan.pieceCount := by
  have bounded := accounted.bounded index
  unfold copies owed at bounded
  rw [filed, Bool.toNat_true] at bounded
  split at bounded
  · rename_i due
    exact due
  · omega

namespace OutputInvariant

variable {plan : ReadPlan} {content : List UInt8} {state : ReadState}

theorem initial (plan : ReadPlan) (content : List UInt8) :
    OutputInvariant plan content (ReadState.initial plan) := by
  refine ⟨?_, ?_, ?_, ?_, rfl, ?_⟩
  · intro piece member
    obtain ⟨index, _, rfl⟩ := List.mem_map.mp member
    exact ⟨rfl, rfl⟩
  · intro worker member
    obtain ⟨view, known, replicated⟩ := List.mem_flatMap.mp member
    rw [List.eq_of_mem_replicate replicated]
    exact known
  · intro worker member piece busy
    obtain ⟨view, _, replicated⟩ := List.mem_flatMap.mp member
    rw [List.eq_of_mem_replicate replicated] at busy
    cases busy
  · intro index data found
    cases found
  · intro finished
    cases finished

variable (invariant : OutputInvariant plan content state)
include invariant

private theorem notifyAll : OutputInvariant plan content state.notifyAll := by
  refine ⟨invariant.pending, ?_, ?_, invariant.results, invariant.emitted,
    ?_⟩
  · intro worker member
    obtain ⟨earlier, older, rfl⟩ := List.mem_map.mp member
    rw [wake_view]
    exact invariant.views earlier older
  · intro worker member piece busy
    obtain ⟨earlier, older, rfl⟩ := List.mem_map.mp member
    exact invariant.held earlier older piece (wake_fetching busy)
  · intro ended
    exact invariant.finished (consumer_wake_finished ended)

/-- A worker changes its phase, and the pieces left are known ones. -/
private theorem setPhase {position : Nat} {worker : Worker}
    (here : state.workers[position]? = some worker) (phase : WorkerPhase)
    {pending : List Piece} (cuts : ∀ piece ∈ pending, plan.Cuts piece)
    (held : ∀ piece, phase = .fetching piece →
      plan.Cuts piece ∧ piece.index < state.nextToEmit + plan.reach) :
    OutputInvariant plan content
      { state.setPhase position worker phase with pending := pending } := by
  refine ⟨cuts, ?_, ?_, invariant.results, invariant.emitted,
    invariant.finished⟩
  · intro other member
    rcases List.mem_or_eq_of_mem_set member with older | rfl
    · exact invariant.views other older
    · exact invariant.views worker (List.mem_of_getElem? here)
  · intro other member piece busy
    rcases List.mem_or_eq_of_mem_set member with older | rfl
    · exact invariant.held other older piece busy
    · exact held piece busy

private theorem fetchFailed {position : Nat} {worker : Worker} {piece : Piece}
    (here : state.workers[position]? = some worker)
    (busy : worker.phase = .fetching piece) :
    OutputInvariant plan content
      (state.fetchFailed plan position worker piece) := by
  have cut := (invariant.held worker (List.mem_of_getElem? here) piece
    busy).1
  have idle : ∀ other,
      (if worker.view.key ∈ state.benchedAfter worker.view.key then
        WorkerPhase.done else .ready) = .fetching other →
        plan.Cuts other ∧ other.index < state.nextToEmit + plan.reach := by
    intro other fetching
    split at fetching <;> cases fetching
  unfold ReadState.fetchFailed
  dsimp only
  split
  · have dropped := invariant.setPhase here _ invariant.pending idle
    exact notifyAll ⟨dropped.pending, dropped.views, dropped.held,
      dropped.results, dropped.emitted, dropped.finished⟩
  · have cuts : ∀ other ∈ (state.pending ++ [{ piece with
        tried := worker.view.key :: piece.tried }]).insertionSort
          fun left right : Piece => left.index ≤ right.index,
        plan.Cuts other := by
      intro other member
      have listed := (List.perm_insertionSort _ _).mem_iff.mp member
      rcases List.mem_append.mp listed with older | failed
      · exact invariant.pending other older
      · rw [List.mem_singleton] at failed
        subst other
        exact cut
    have requeued := invariant.setPhase here _ cuts idle
    exact notifyAll ⟨requeued.pending, requeued.views, requeued.held,
      requeued.results, requeued.emitted, requeued.finished⟩

private theorem fetchDone {position : Nat} {worker : Worker} {piece : Piece}
    (here : state.workers[position]? = some worker)
    (busy : worker.phase = .fetching piece) {data : List UInt8}
    (exact_ : data = plan.pieceBytes content piece.index) :
    OutputInvariant plan content
      (state.fetchDone position worker piece data) := by
  have inWindow := (invariant.held worker (List.mem_of_getElem? here) piece
    busy).2
  have freed := invariant.setPhase here .ready invariant.pending (by
    intro other fetching
    cases fetching)
  refine notifyAll ⟨freed.pending, freed.views, freed.held, ?_,
    freed.emitted, freed.finished⟩
  intro index stored found
  change (state.results.set piece.index data).get? index = some stored
    at found
  rw [Dict.get?_set] at found
  by_cases same : index = piece.index
  · rw [if_pos same, Option.some.injEq] at found
    rw [← found, same]
    exact ⟨exact_, inWindow⟩
  · rw [if_neg same] at found
    exact invariant.results index stored found

private theorem endStream {phase : ConsumerPhase}
    (finished : phase = .finished → plan.pieceCount ≤ state.nextToEmit) :
    OutputInvariant plan content (state.endStream phase) := by
  refine ⟨invariant.pending, ?_, ?_, invariant.results,
    invariant.emitted, finished⟩
  · intro worker member
    obtain ⟨earlier, older, rfl⟩ := List.mem_map.mp member
    exact invariant.views earlier older
  · intro worker member piece busy
    obtain ⟨earlier, _, rfl⟩ := List.mem_map.mp member
    cases busy

private theorem emit {data : List UInt8}
    (found : state.results.get? state.nextToEmit = some data) :
    OutputInvariant plan content (state.emit data) := by
  refine notifyAll ⟨invariant.pending, invariant.views, ?_, ?_, ?_, ?_⟩
  · intro worker member piece busy
    obtain ⟨cut, inWindow⟩ := invariant.held worker member piece busy
    exact ⟨cut, by dsimp only; omega⟩
  · intro index stored later
    change (state.results.erase state.nextToEmit).get? index = some stored
      at later
    rw [Dict.get?_erase] at later
    split at later
    · cases later
    · obtain ⟨exact_, inWindow⟩ := invariant.results index stored later
      exact ⟨exact_, by dsimp only; omega⟩
  · change state.emitted ++ [(state.nextToEmit, data)] =
      (List.range (state.nextToEmit + 1)).map _
    rw [List.range_succ, List.map_append, ← invariant.emitted,
      (invariant.results _ data found).1]
    rfl
  · intro ended
    exact Nat.le_succ_of_le (invariant.finished ended)

omit invariant

theorem step {first last : Nat} {after : ReadState} {action : ReadAction}
    (copies : plan.CompleteCopies content first last)
    (accounted : Accounted plan state)
    (invariant : OutputInvariant plan content state)
    (honest : HonestAnswers plan content state action)
    (uncompensated : Uncompensated plan state action)
    (transition : ReadTransition plan state action after) :
    OutputInvariant plan content after := by
  cases transition with
  | stop here ready reason =>
      refine invariant.setPhase here _ invariant.pending ?_
      intro piece fetching
      cases fetching
  | take here ready claimed =>
      rename_i position worker piece rest
      obtain ⟨perm, fewer, inWindow, _⟩ := claimFrom_some claimed
      refine invariant.setPhase here _ ?_ ?_
      · intro other member
        exact invariant.pending other (fewer.subset member)
      · intro other fetching
        cases fetching
        exact ⟨invariant.pending piece
          (perm.mem_iff.mpr List.mem_cons_self), inWindow⟩
  | park here ready nothing =>
      refine invariant.setPhase here _ invariant.pending ?_
      intro piece fetching
      cases fetching
  | fail here busy failed => exact invariant.fetchFailed here busy
  | store here busy arrived =>
      rename_i position worker piece responses data
      have member := List.mem_of_getElem? here
      have holding : worker.holds piece.index = true := by
        simp [Worker.holds, busy]
      have valid := (accounted.held_range member holding).2
      obtain ⟨⟨begins, ends⟩, _⟩ := invariant.held worker member piece busy
      refine invariant.fetchDone here busy ?_
      exact fetch_exact copies (invariant.views worker member) begins ends
        valid (honest worker piece here busy)
        (fun out => uncompensated worker piece out here busy) arrived
  | finish all => exact invariant.endStream fun _ => all
  | raise failed =>
      refine invariant.endStream ?_
      intro finished
      cases finished
  | giveUp more healthy missing left =>
      refine invariant.endStream ?_
      intro finished
      cases finished
  | wait more healthy missing =>
      refine ⟨invariant.pending, invariant.views, invariant.held,
        invariant.results, invariant.emitted, ?_⟩
      intro finished
      cases finished
  | emit more found => exact invariant.emit found

theorem reachable {first last : Nat}
    (copies : plan.CompleteCopies content first last)
    (reached : ReachableWithin (readStep plan)
      (fun state action => HonestAnswers plan content state action ∧
        Uncompensated plan state action)
      (ReadState.initial plan) state) :
    Accounted plan state ∧ OutputInvariant plan content state := by
  have kept : ∀ before action after,
      (Accounted plan before ∧ OutputInvariant plan content before) →
      (HonestAnswers plan content before action ∧
        Uncompensated plan before action) →
      readStep plan before action = some after →
        Accounted plan after ∧ OutputInvariant plan content after := by
    intro before action after holds guard taken
    have transition := readStep_transition taken
    exact ⟨holds.1.step transition,
      step copies holds.1 holds.2 guard.1 guard.2 transition⟩
  exact reached.invariant kept ⟨.initial plan, initial plan content⟩

theorem output_eq (invariant : OutputInvariant plan content state) :
    (state.emitted.map Prod.snd).flatten =
      ((List.range state.nextToEmit).map
        (plan.pieceBytes content)).flatten := by
  rw [invariant.emitted, List.map_map]
  rfl

end OutputInvariant

/-- In the runs in which wrong answers do not make up for each other, the
output grows along the requested bytes, every piece is handed out once and in
order, and what is held back stays inside the window. -/
theorem multiSourceRead_output (plan : ReadPlan) (content : List UInt8)
    (first last : Nat) (copies : plan.CompleteCopies content first last)
    (state : ReadState)
    (reached : ReachableWithin (readStep plan)
      (fun state action => HonestAnswers plan content state action ∧
        Uncompensated plan state action)
      (ReadState.initial plan) state) :
    (state.emitted.map Prod.snd).flatten <+: byteRange content first last ∧
    (state.consumer = .finished →
      (state.emitted.map Prod.snd).flatten = byteRange content first last ∧
      state.emitted.map Prod.fst = List.range plan.pieceCount) ∧
    state.emitted.map Prod.fst = List.range state.nextToEmit ∧
    (∀ index, state.results.contains index = true →
      state.nextToEmit ≤ index ∧
        index < state.nextToEmit + plan.window) ∧
    ∀ worker ∈ state.workers, ∀ index, worker.holds index = true →
      state.nextToEmit ≤ index ∧
        index < state.nextToEmit + plan.window := by
  obtain ⟨accounted, invariant⟩ := OutputInvariant.reachable copies reached
  have indices : state.emitted.map Prod.fst =
      List.range state.nextToEmit := by
    rw [invariant.emitted, List.map_map]
    exact List.map_id _
  refine ⟨?_, ?_, indices, ?_, ?_⟩
  · rw [invariant.output_eq]
    exact copies.flatten_isPrefix state.nextToEmit
  · intro finished
    have all := Nat.le_antisymm accounted.within
      (invariant.finished finished)
    refine ⟨?_, all ▸ indices⟩
    rw [invariant.output_eq, all]
    exact copies.flatten_all
  · intro index filed
    refine ⟨(accounted.filed_range filed).1, ?_⟩
    obtain ⟨data, found⟩ := Option.isSome_iff_exists.mp filed
    rw [← copies.reach_eq]
    exact (invariant.results index data found).2
  · intro worker member index held
    refine ⟨(accounted.held_range member held).1, ?_⟩
    unfold Worker.holds at held
    split at held
    · rename_i piece busy
      rw [← copies.reach_eq, ← eq_of_beq held]
      exact (invariant.held worker member piece busy).2
    · cases held

/-- Six bytes in two parts, read as one piece. -/
private def twoPartPlan : ReadPlan :=
  { views := [⟨"A", [1, 2], [3, 3], 1⟩]
    size := 6
    begin_ := 0
    end_ := 5
    pieceSize := 6
    window := 1
    views_ne := by simp }

private theorem twoPartPlan_copies :
    twoPartPlan.CompleteCopies [1, 2, 3, 4, 5, 6] 0 5 := by
  refine ⟨rfl, rfl, rfl, by decide, by decide, by decide, ?_, ?_⟩
  · intro view member
    cases List.mem_singleton.mp member
    rfl
  · intro view member
    cases List.mem_singleton.mp member
    rfl

/-- Both parts arrive and the whole version is handed out. -/
theorem multiSourceRead_output_two_parts :
    ∃ state, ReachableWithin (readStep twoPartPlan)
        (fun state action =>
          HonestAnswers twoPartPlan [1, 2, 3, 4, 5, 6] state action ∧
            Uncompensated twoPartPlan state action)
        (ReadState.initial twoPartPlan) state ∧
      state.consumer = .finished ∧
      (state.emitted.map Prod.snd).flatten = [1, 2, 3, 4, 5, 6] := by
  let answers : PartRange → Response := fun range =>
    .bytes (range.bytes [3, 3] [1, 2, 3, 4, 5, 6])
  have guarded : Guarded (readStep twoPartPlan)
      (fun state action =>
        HonestAnswers twoPartPlan [1, 2, 3, 4, 5, 6] state action ∧
          Uncompensated twoPartPlan state action)
      (ReadState.initial twoPartPlan)
      [.claim 0, .fetched 0 answers, .consume, .consume] := by
    refine ⟨⟨trivial, trivial⟩, ?_⟩
    intro next taken
    cases Option.some.inj taken
    refine ⟨⟨?_, ?_⟩, fun _ _ => ⟨⟨trivial, trivial⟩, fun _ _ =>
      ⟨⟨trivial, trivial⟩, fun _ _ => trivial⟩⟩⟩
    · intro worker piece here busy range member
      cases Option.some.inj here
      exact .inr (.inl rfl)
    · intro worker piece out here busy _ _ range member data answered
      cases Option.some.inj here
      cases busy
      cases answered
      revert range
      decide
  have reached : ReachableWithin (readStep twoPartPlan) _
      (ReadState.initial twoPartPlan) _ :=
    ⟨[.claim 0, .fetched 0 answers, .consume, .consume], guarded, rfl⟩
  exact ⟨_, reached, rfl, ((multiSourceRead_output twoPartPlan
    [1, 2, 3, 4, 5, 6] 0 5 twoPartPlan_copies _ reached).2.1 rfl).1⟩

/-- Two honest answers, one byte short and one byte long, pass the check of
the total and come out as wrong bytes. -/
theorem multiSourceRead_compensated :
    ∃ (plan : ReadPlan) (content : List UInt8) (first last : Nat)
      (state : ReadState), plan.CompleteCopies content first last ∧
      ReachableWithin (readStep plan) (HonestAnswers plan content)
        (ReadState.initial plan) state ∧
      ¬(state.emitted.map Prod.snd).flatten <+:
        byteRange content first last := by
  let answers : PartRange → Response := fun range =>
    if range.part = 0 then .bytes [1, 2] else .bytes [4, 5, 6, 9]
  have guarded : Guarded (readStep twoPartPlan)
      (HonestAnswers twoPartPlan [1, 2, 3, 4, 5, 6])
      (ReadState.initial twoPartPlan)
      [.claim 0, .fetched 0 answers, .consume] := by
    refine ⟨trivial, ?_⟩
    intro next taken
    cases Option.some.inj taken
    refine ⟨?_, fun _ _ => ⟨trivial, fun _ _ => trivial⟩⟩
    intro worker piece here busy range member
    cases Option.some.inj here
    cases busy
    change range ∈ [⟨0, 1, 0, 2⟩, ⟨1, 2, 0, 2⟩] at member
    rcases List.mem_cons.mp member with rfl | later
    · exact .inr (.inr ⟨[1, 2], rfl, by decide⟩)
    · cases List.mem_singleton.mp later
      exact .inr (.inr ⟨[4, 5, 6, 9], rfl, by decide⟩)
  have reached : ReachableWithin (readStep twoPartPlan)
      (HonestAnswers twoPartPlan [1, 2, 3, 4, 5, 6])
      (ReadState.initial twoPartPlan) _ :=
    ⟨[.claim 0, .fetched 0 answers, .consume], guarded, rfl⟩
  exact ⟨twoPartPlan, [1, 2, 3, 4, 5, 6], 0, 5, _, twoPartPlan_copies,
    reached, by decide⟩

end Tgdcfs
