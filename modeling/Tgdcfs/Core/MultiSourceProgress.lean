import Tgdcfs.Core.MultiSource
import Tgdcfs.Lib.Lists

/-!
# Progress of multi-source reads

Every piece that is not emitted yet is in exactly one place: among the
results, with a worker, or pending.  A pending piece is useful only while
some store may still take it, and a store that is benched for other pieces
can break that.  Runs in which no failure benches the last store of a
pending piece cannot get stuck.
-/

namespace Tgdcfs

open Lib

theorem claimFrom_some {key : String} {limit : Nat} {pending : List Piece}
    {piece : Piece} {rest : List Piece}
    (claimed : claimFrom key limit pending = some (piece, rest)) :
    pending.Perm (piece :: rest) ∧ rest.Sublist pending ∧
      piece.index < limit ∧ key ∉ piece.tried := by
  induction pending generalizing rest with
  | nil => cases claimed
  | cons head pending induction =>
      unfold claimFrom at claimed
      split at claimed
      · cases claimed
      · rename_i inside
        split at claimed
        · rename_i untried
          cases claimed
          exact ⟨.refl _, List.sublist_cons_self _ _,
            Nat.lt_of_not_le inside, untried⟩
        · obtain ⟨⟨other, others⟩, found, same⟩ :=
            Option.map_eq_some_iff.mp claimed
          cases same
          obtain ⟨perm, sublist, inside, untried⟩ := induction found
          exact ⟨(perm.cons head).trans (.swap _ _ _),
            sublist.cons_cons head, inside, untried⟩

/-- On sorted pieces the scan misses nothing inside the window. -/
theorem claimFrom_eq_none_iff {key : String} {limit : Nat}
    {pending : List Piece}
    (sorted : pending.Pairwise fun left right => left.index ≤ right.index) :
    claimFrom key limit pending = none ↔
      ∀ piece ∈ pending, piece.index < limit → key ∈ piece.tried := by
  induction pending with
  | nil => simp [claimFrom]
  | cons head pending induction =>
      obtain ⟨first, sorted⟩ := List.pairwise_cons.mp sorted
      unfold claimFrom
      split
      · rename_i outside
        refine ⟨?_, fun _ => rfl⟩
        intro _ piece member inside
        rcases List.mem_cons.mp member with rfl | later
        · omega
        · have behind := first piece later
          omega
      · rename_i inside
        split
        · rename_i untried
          constructor
          · intro claimed
            cases claimed
          intro all
          exact (untried (all head List.mem_cons_self
            (Nat.lt_of_not_le inside))).elim
        · rename_i tried
          rw [Option.map_eq_none_iff, induction sorted]
          refine ⟨?_, fun all piece member =>
            all piece (List.mem_cons_of_mem _ member)⟩
          intro all piece member
          rcases List.mem_cons.mp member with rfl | later
          · exact fun _ => not_not.mp tried
          · exact all piece later

/-- How many places hold the piece with this index. -/
def copies (state : ReadState) (index : Nat) : Nat :=
  (state.results.contains index).toNat +
    state.pending.countP (fun piece => piece.index == index) +
    state.workers.countP (Worker.holds index)

/-- A piece of the read that is not emitted yet is somewhere, once. -/
def owed (plan : ReadPlan) (state : ReadState) (index : Nat) : Nat :=
  if state.nextToEmit ≤ index ∧ index < plan.pieceCount then 1 else 0

/-- Only a piece that ended the read for good may be nowhere. -/
structure Accounted (plan : ReadPlan) (state : ReadState) : Prop where
  within : state.nextToEmit ≤ plan.pieceCount
  bounded : ∀ index, copies state index ≤ owed plan state index
  complete : state.fatal = none →
    ∀ index, copies state index = owed plan state index

theorem owed_le_one (plan : ReadPlan) (state : ReadState) (index : Nat) :
    owed plan state index ≤ 1 := by
  unfold owed
  split <;> omega

@[simp] theorem holds_wake (index : Nat) (worker : Worker) :
    worker.wake.holds index = worker.holds index := by
  obtain ⟨view, phase⟩ := worker
  cases phase <;> rfl

theorem countP_holds_wake (index : Nat) (workers : List Worker) :
    (workers.map Worker.wake).countP (Worker.holds index) =
      workers.countP (Worker.holds index) := by
  rw [List.countP_map]
  congr 1
  funext worker
  exact holds_wake index worker

@[simp] theorem copies_notifyAll (state : ReadState) (index : Nat) :
    copies state.notifyAll index = copies state index := by
  unfold copies ReadState.notifyAll
  rw [countP_holds_wake]

theorem countP_holds_cancel (index : Nat) (workers : List Worker) :
    (workers.map Worker.cancel).countP (Worker.holds index) = 0 := by
  rw [List.countP_map, List.countP_eq_zero]
  intro worker _
  simp [Worker.cancel, Worker.holds]

private theorem holds_ready {worker : Worker}
    (ready : worker.phase = .ready) (index : Nat) :
    worker.holds index = false := by
  simp [Worker.holds, ready]

private theorem holds_fetching {worker : Worker} {piece : Piece}
    (busy : worker.phase = .fetching piece) (index : Nat) :
    worker.holds index = (piece.index == index) := by
  simp [Worker.holds, busy]

namespace Accounted

theorem initial (plan : ReadPlan) :
    Accounted plan (ReadState.initial plan) := by
  have all : ∀ index, copies (ReadState.initial plan) index =
      owed plan (ReadState.initial plan) index := by
    intro index
    have idle : (ReadState.initial plan).workers.countP
        (Worker.holds index) = 0 := by
      rw [List.countP_eq_zero]
      intro worker member
      obtain ⟨view, _, replicated⟩ := List.mem_flatMap.mp member
      rw [List.eq_of_mem_replicate replicated]
      simp [Worker.holds]
    have once : plan.pieces.countP (fun piece => piece.index == index) =
        (List.range plan.pieceCount).count index := by
      rw [ReadPlan.pieces, List.countP_map]
      rfl
    have filed : (ReadState.initial plan).results.contains index =
        false := rfl
    unfold copies owed
    rw [idle, filed]
    change _ + plan.pieces.countP _ + 0 = _
    rw [once]
    by_cases inside : index < plan.pieceCount
    · rw [List.count_eq_one_of_mem List.nodup_range
        (List.mem_range.mpr inside)]
      simp [ReadState.initial, inside]
    · rw [List.count_eq_zero_of_not_mem (by simpa using inside)]
      simp [inside]
  exact ⟨Nat.zero_le _, fun index => Nat.le_of_eq (all index),
    fun _ => all⟩

variable {plan : ReadPlan} {state : ReadState}

/-- A step that moves a piece without changing what is owed. -/
private theorem of_copies_eq {after : ReadState}
    (accounted : Accounted plan state)
    (copied : ∀ index, copies after index = copies state index)
    (emitted : after.nextToEmit = state.nextToEmit)
    (fatal : after.fatal = none → state.fatal = none) :
    Accounted plan after := by
  have same : ∀ index, owed plan after index = owed plan state index := by
    intro index
    rw [owed, owed, emitted]
  refine ⟨emitted ▸ accounted.within, ?_, ?_⟩
  · intro index
    rw [copied, same]
    exact accounted.bounded index
  · intro healthy index
    rw [copied, same]
    exact accounted.complete (fatal healthy) index

variable {position : Nat} {worker : Worker}

private theorem copies_setPhase (here : state.workers[position]? = some worker)
    (phase : WorkerPhase) (index : Nat) :
    copies (state.setPhase position worker phase) index +
        (worker.holds index).toNat =
      copies state index +
        (Worker.holds index ⟨worker.view, phase⟩).toNat := by
  have moved := countP_set_add (Worker.holds index) here
    ⟨worker.view, phase⟩
  unfold copies ReadState.setPhase
  dsimp only
  omega

/-- A worker that holds nothing before and after changes nothing. -/
private theorem copies_idle (here : state.workers[position]? = some worker)
    (ready : worker.phase = .ready) {phase : WorkerPhase}
    (idle : ∀ {index}, Worker.holds index ⟨worker.view, phase⟩ = false)
    (index : Nat) :
    copies (state.setPhase position worker phase) index =
      copies state index := by
  have moved := copies_setPhase here phase index
  rw [holds_ready ready, idle] at moved
  exact moved

variable (accounted : Accounted plan state)
include accounted

private theorem fetchFailed {piece : Piece}
    (here : state.workers[position]? = some worker)
    (busy : worker.phase = .fetching piece) :
    Accounted plan (state.fetchFailed plan position worker piece) := by
  have idle : ∀ index, Worker.holds index ⟨worker.view,
      if worker.view.key ∈ state.benchedAfter worker.view.key then .done
      else .ready⟩ = false := by
    intro index
    split <;> rfl
  have moved := fun index => copies_setPhase here
    (if worker.view.key ∈ state.benchedAfter worker.view.key then .done
      else .ready) index
  unfold ReadState.fetchFailed
  dsimp only
  split
  · refine ⟨accounted.within, ?_, fun healthy => by cases healthy⟩
    intro index
    rw [copies_notifyAll]
    have fewer := moved index
    rw [idle] at fewer
    refine Nat.le_trans ?_ (accounted.bounded index)
    exact Nat.le_trans (Nat.le_add_right _ _) (Nat.le_of_eq fewer)
  · refine accounted.of_copies_eq ?_ rfl fun healthy => healthy
    intro index
    rw [copies_notifyAll]
    have fewer := moved index
    rw [idle, holds_fetching busy] at fewer
    have listed := (List.perm_insertionSort
      (fun left right : Piece => left.index ≤ right.index)
      (state.pending ++ [{ piece with
        tried := worker.view.key :: piece.tried }])).countP_eq
        fun piece => piece.index == index
    simp only [copies, ReadState.setPhase, List.countP_append,
      countP_cons_toNat, List.countP_nil, Bool.toNat_false]
      at fewer listed ⊢
    omega

private theorem fetchDone {piece : Piece}
    (here : state.workers[position]? = some worker)
    (busy : worker.phase = .fetching piece) (data : List UInt8) :
    Accounted plan (state.fetchDone position worker piece data) := by
  unfold ReadState.fetchDone
  refine accounted.of_copies_eq ?_ rfl fun healthy => healthy
  intro index
  rw [copies_notifyAll]
  have moved := copies_setPhase here .ready index
  have room := (accounted.bounded index).trans (owed_le_one plan state index)
  have holder : worker.holds index = true →
      0 < state.workers.countP (Worker.holds index) := by
    intro held
    exact List.countP_pos_iff.mpr ⟨worker, List.mem_of_getElem? here, held⟩
  rw [holds_fetching busy] at moved holder
  have filed : (state.results.set piece.index data).contains index =
      (state.results.contains index || piece.index == index) := by
    unfold Dict.contains
    rw [Dict.get?_set]
    by_cases same : index = piece.index
    · simp [same]
    · have different : (piece.index == index) = false := by
        simpa using Ne.symm same
      simp [same, different]
  cases same : piece.index == index with
  | true =>
      have positive := holder same
      simp only [copies, ReadState.setPhase, Worker.holds, filed, same,
        Bool.or_true, Bool.toNat_true, Bool.toNat_false] at moved room ⊢
      omega
  | false =>
      simp only [copies, ReadState.setPhase, Worker.holds, filed, same,
        Bool.or_false, Bool.toNat_false] at moved ⊢
      omega

/-- A stream ends when nothing is owed, when it failed, or when no worker
holds a piece. -/
private theorem endStream {phase : ConsumerPhase}
    (ended : (∀ index, owed plan state index = 0) ∨ state.fatal ≠ none ∨
      ∀ worker ∈ state.workers, ∀ index, worker.holds index = false) :
    Accounted plan (state.endStream phase) := by
  have fewer : ∀ index,
      copies (state.endStream phase) index ≤ copies state index := by
    intro index
    unfold copies ReadState.endStream
    dsimp only
    rw [countP_holds_cancel]
    omega
  refine ⟨accounted.within,
    fun index => (fewer index).trans (accounted.bounded index), ?_⟩
  intro healthy index
  have before := accounted.complete healthy index
  rcases ended with nothing | failed | idle
  · have less := fewer index
    have empty := nothing index
    change _ = owed plan state index
    omega
  · exact (failed healthy).elim
  · change _ = owed plan state index
    rw [← before]
    unfold copies ReadState.endStream
    dsimp only
    have zero : state.workers.countP (Worker.holds index) = 0 := by
      rw [List.countP_eq_zero]
      intro worker member
      simp [idle worker member index]
    rw [countP_holds_cancel, zero]

private theorem emit {data : List UInt8}
    (more : state.nextToEmit < plan.pieceCount)
    (found : state.results.get? state.nextToEmit = some data) :
    Accounted plan (state.emit data) := by
  have filed : ∀ index,
      (state.results.erase state.nextToEmit).contains index =
        (state.results.contains index &&
          decide (index ≠ state.nextToEmit)) := by
    intro index
    unfold Dict.contains
    rw [Dict.get?_erase]
    by_cases same : index = state.nextToEmit
    · simp [same]
    · simp [same]
  have emitted : ∀ index, copies (state.emit data) index +
      (if index = state.nextToEmit then 1 else 0) = copies state index := by
    intro index
    unfold ReadState.emit
    rw [copies_notifyAll]
    unfold copies
    dsimp only
    rw [filed]
    by_cases same : index = state.nextToEmit
    · have present : state.results.contains index = true := by
        rw [same, Dict.contains, found]
        rfl
      rw [present, if_pos same]
      simp only [same, ne_eq, not_true_eq_false, decide_false,
        Bool.and_false, Bool.toNat_false, Bool.toNat_true]
      omega
    · simp [same]
  have due : ∀ index, owed plan (state.emit data) index +
      (if index = state.nextToEmit then 1 else 0) =
        owed plan state index := by
    intro index
    change (if state.nextToEmit + 1 ≤ index ∧ index < plan.pieceCount then 1
      else 0) + _ = _
    unfold owed
    by_cases same : index = state.nextToEmit
    · subst index
      rw [if_neg (by omega), if_pos rfl, if_pos ⟨le_rfl, more⟩]
    · rw [if_neg same]
      split <;> split <;> omega
  refine ⟨more, ?_, ?_⟩
  · intro index
    have before := accounted.bounded index
    have counted := emitted index
    have owing := due index
    omega
  · intro healthy index
    have before := accounted.complete healthy index
    have counted := emitted index
    have owing := due index
    omega

theorem step {after : ReadState} {action : ReadAction}
    (transition : ReadTransition plan state action after) :
    Accounted plan after := by
  cases transition with
  | stop here ready reason =>
      refine accounted.of_copies_eq ?_ rfl fun healthy => healthy
      exact copies_idle here ready rfl
  | take here ready claimed =>
      rename_i position worker piece rest
      refine accounted.of_copies_eq ?_ rfl fun healthy => healthy
      intro index
      have moved := copies_setPhase here (.fetching piece) index
      have listed := (claimFrom_some claimed).1.countP_eq
        fun piece => piece.index == index
      rw [holds_ready ready] at moved
      simp only [copies, ReadState.setPhase, Worker.holds,
        countP_cons_toNat, Bool.toNat_false] at moved listed ⊢
      omega
  | park here ready nothing =>
      refine accounted.of_copies_eq ?_ rfl fun healthy => healthy
      exact copies_idle here ready rfl
  | fail here busy failed =>
      exact accounted.fetchFailed here busy
  | store here busy arrived =>
      exact accounted.fetchDone here busy _
  | finish all =>
      have nothing : ∀ index, owed plan state index = 0 := by
        intro index
        rw [owed, if_neg (by omega)]
      exact accounted.endStream (.inl nothing)
  | raise failed =>
      exact accounted.endStream (.inr (.inl (by simp [failed])))
  | giveUp more healthy missing left =>
      refine accounted.endStream (.inr (.inr ?_))
      intro worker member index
      simp [Worker.holds, left worker member]
  | wait more healthy missing =>
      exact accounted.of_copies_eq (fun _ => rfl) rfl fun healthy => healthy
  | emit more found =>
      exact accounted.emit more found

end Accounted

/-- Some store may still take the piece. -/
def Serviceable (plan : ReadPlan) (benched : List String) (piece : Piece) :
    Prop :=
  ∃ view ∈ plan.views, view.key ∉ piece.tried ∧ view.key ∉ benched

/-- A failed download that benches its store leaves every pending piece to
some other store, unless it ends the read. -/
def BenchSparesPending (plan : ReadPlan) (state : ReadState) :
    ReadAction → Prop
  | .fetched position responses =>
      ∀ worker piece, state.workers[position]? = some worker →
        worker.phase = .fetching piece →
        fetch plan worker.view piece responses = none →
        BENCH_AFTER ≤ state.failures worker.view.key + 1 →
        state.fatal = none →
        Serviceable plan (worker.view.key :: state.benched) piece →
        ∀ other ∈ state.pending,
          Serviceable plan (worker.view.key :: state.benched) other
  | _ => True

structure ProgressInvariant (plan : ReadPlan) (state : ReadState) :
    Prop where
  accounted : Accounted plan state
  sorted : state.pending.Pairwise fun left right => left.index ≤ right.index
  staffed : ∀ view ∈ plan.views, ∃ worker ∈ state.workers,
    worker.view = view
  left : ∀ worker ∈ state.workers, worker.phase = .done →
    state.fatal ≠ none ∨ plan.pieceCount ≤ state.nextToEmit ∨
      worker.view.key ∈ state.benched
  parked : ∀ worker ∈ state.workers, worker.phase = .waiting →
    claimFrom worker.view.key (state.nextToEmit + plan.reach)
      state.pending = none
  serviceable : state.fatal = none → ∀ piece ∈ state.pending,
    Serviceable plan state.benched piece
  waiting : state.consumer = .waiting → state.fatal = none ∧
    state.nextToEmit < plan.pieceCount ∧
      state.results.get? state.nextToEmit = none
  finished : state.consumer = .finished → plan.pieceCount ≤ state.nextToEmit
  emitted : state.emitted.map Prod.fst = List.range state.nextToEmit

theorem wake_not_waiting (worker : Worker) :
    worker.wake.phase ≠ .waiting := by
  obtain ⟨view, phase⟩ := worker
  cases phase <;> simp [Worker.wake]

theorem wake_view (worker : Worker) : worker.wake.view = worker.view := by
  obtain ⟨view, phase⟩ := worker
  cases phase <;> rfl

theorem wake_done {worker : Worker} (done : worker.wake.phase = .done) :
    worker.phase = .done := by
  obtain ⟨view, phase⟩ := worker
  cases phase <;> simp_all [Worker.wake]

theorem consumer_wake_not_waiting (phase : ConsumerPhase) :
    phase.wake ≠ .waiting := by
  cases phase <;> simp [ConsumerPhase.wake]

theorem consumer_wake_finished {phase : ConsumerPhase}
    (finished : phase.wake = .finished) : phase = .finished := by
  cases phase <;> simp_all [ConsumerPhase.wake]

namespace ProgressInvariant

theorem initial (plan : ReadPlan) :
    ProgressInvariant plan (ReadState.initial plan) := by
  have fresh : ∀ worker ∈ (ReadState.initial plan).workers,
      worker.phase = .ready := by
    intro worker member
    obtain ⟨view, _, replicated⟩ := List.mem_flatMap.mp member
    rw [List.eq_of_mem_replicate replicated]
  refine ⟨.initial plan, ?_, ?_, ?_, ?_, ?_, ?_, ?_, rfl⟩
  · change plan.pieces.Pairwise _
    rw [ReadPlan.pieces, List.pairwise_map]
    exact List.pairwise_lt_range.imp fun smaller => Nat.le_of_lt smaller
  · intro view member
    refine ⟨⟨view, .ready⟩, ?_, rfl⟩
    apply List.mem_flatMap.mpr
    refine ⟨view, member, ?_⟩
    rw [List.mem_replicate]
    exact ⟨by omega, rfl⟩
  · intro worker member done
    rw [fresh worker member] at done
    cases done
  · intro worker member waiting
    rw [fresh worker member] at waiting
    cases waiting
  · intro _ piece member
    obtain ⟨index, _, rfl⟩ := List.mem_map.mp member
    obtain ⟨view, views⟩ := List.exists_mem_of_ne_nil _ plan.views_ne
    refine ⟨view, views, ?_, ?_⟩
    · simp [ReadPlan.piece]
    · simp [ReadState.initial]
  · intro waiting
    cases waiting
  · intro finished
    cases finished

variable {plan : ReadPlan} {worker : Worker} {position : Nat}

private theorem staffed_set {workers : List Worker}
    (staffed : ∀ view ∈ plan.views, ∃ worker ∈ workers,
      worker.view = view) (here : workers[position]? = some worker)
    (phase : WorkerPhase) :
    ∀ view ∈ plan.views, ∃ other ∈ workers.set position
      ⟨worker.view, phase⟩, other.view = view := by
  intro view member
  obtain ⟨other, otherMember, same⟩ := staffed view member
  obtain ⟨otherPosition, inside, found⟩ :=
    List.mem_iff_getElem.mp otherMember
  by_cases here_ : otherPosition = position
  · refine ⟨⟨worker.view, phase⟩, ?_, ?_⟩
    · obtain ⟨bound, _⟩ := List.getElem?_eq_some_iff.mp here
      exact List.mem_set bound _
    · subst otherPosition
      rw [List.getElem?_eq_getElem inside, found, Option.some.injEq] at here
      rw [← same, here]
  · refine ⟨other, ?_, same⟩
    apply List.mem_iff_getElem?.mpr
    refine ⟨otherPosition, ?_⟩
    rw [List.getElem?_set_ne (Ne.symm here_),
      List.getElem?_eq_getElem inside, found]

private theorem staffed_map {workers : List Worker}
    (staffed : ∀ view ∈ plan.views, ∃ worker ∈ workers,
      worker.view = view) {change : Worker → Worker}
    (kept : ∀ worker, (change worker).view = worker.view) :
    ∀ view ∈ plan.views, ∃ worker ∈ workers.map change,
      worker.view = view := by
  intro view member
  obtain ⟨worker, workerMember, same⟩ := staffed view member
  exact ⟨change worker, List.mem_map_of_mem workerMember,
    (kept worker).trans same⟩

variable {state : ReadState}

/-- A worker stops, takes a piece or parks; nobody is notified. -/
private theorem setPhase (invariant : ProgressInvariant plan state)
    (here : state.workers[position]? = some worker) {phase : WorkerPhase}
    {rest : List Piece} (fewer : rest.Sublist state.pending)
    (accounted : Accounted plan
      { state.setPhase position worker phase with pending := rest })
    (stopped : phase = .done → state.fatal ≠ none ∨
      plan.pieceCount ≤ state.nextToEmit ∨ worker.view.key ∈ state.benched)
    (nothing : phase = .waiting →
      claimFrom worker.view.key (state.nextToEmit + plan.reach) rest =
        none) :
    ProgressInvariant plan
      { state.setPhase position worker phase with pending := rest } := by
  have sorted := invariant.sorted.sublist fewer
  refine ⟨accounted, sorted, staffed_set invariant.staffed here phase,
    ?_, ?_, ?_, invariant.waiting, invariant.finished, invariant.emitted⟩
  · intro other member done
    rcases List.mem_or_eq_of_mem_set member with older | rfl
    · exact invariant.left other older done
    · exact stopped done
  · intro other member waiting
    rcases List.mem_or_eq_of_mem_set member with older | rfl
    · have before := invariant.parked other older waiting
      rw [claimFrom_eq_none_iff invariant.sorted] at before
      apply (claimFrom_eq_none_iff sorted).mpr
      intro piece listed
      exact before piece (fewer.subset listed)
    · exact nothing waiting
  · intro healthy piece member
    exact invariant.serviceable healthy piece (fewer.subset member)

private theorem notifyAll (accounted : Accounted plan state.notifyAll)
    (sorted : state.pending.Pairwise fun left right =>
      left.index ≤ right.index)
    (staffed : ∀ view ∈ plan.views, ∃ worker ∈ state.workers,
      worker.view = view)
    (left : ∀ worker ∈ state.workers, worker.phase = .done →
      state.fatal ≠ none ∨ plan.pieceCount ≤ state.nextToEmit ∨
        worker.view.key ∈ state.benched)
    (serviceable : state.fatal = none → ∀ piece ∈ state.pending,
      Serviceable plan state.benched piece)
    (finished : state.consumer = .finished →
      plan.pieceCount ≤ state.nextToEmit)
    (emitted : state.emitted.map Prod.fst = List.range state.nextToEmit) :
    ProgressInvariant plan state.notifyAll := by
  refine ⟨accounted, sorted, staffed_map staffed wake_view, ?_, ?_,
    serviceable, ?_, ?_, emitted⟩
  · intro worker member done
    obtain ⟨earlier, older, rfl⟩ := List.mem_map.mp member
    rw [wake_view]
    exact left earlier older (wake_done done)
  · intro worker member waiting
    obtain ⟨earlier, _, rfl⟩ := List.mem_map.mp member
    exact (wake_not_waiting earlier waiting).elim
  · intro waiting
    exact (consumer_wake_not_waiting state.consumer waiting).elim
  · intro ended
    exact finished (consumer_wake_finished ended)

variable (invariant : ProgressInvariant plan state)
include invariant

private theorem fetchFailed {piece : Piece}
    (here : state.workers[position]? = some worker)
    (accounted : Accounted plan
      (state.fetchFailed plan position worker piece))
    (spared : BENCH_AFTER ≤ state.failures worker.view.key + 1 →
      state.fatal = none →
      Serviceable plan (worker.view.key :: state.benched) piece →
      ∀ other ∈ state.pending,
        Serviceable plan (worker.view.key :: state.benched) other) :
    ProgressInvariant plan
      (state.fetchFailed plan position worker piece) := by
  have grown : ∀ key ∈ state.benched,
      key ∈ state.benchedAfter worker.view.key := by
    intro key member
    unfold ReadState.benchedAfter
    split
    · exact List.mem_cons_of_mem _ member
    · exact member
  have left : ∀ other ∈ state.workers.set position ⟨worker.view,
      if worker.view.key ∈ state.benchedAfter worker.view.key then .done
      else .ready⟩, other.phase = .done →
        state.fatal ≠ none ∨ plan.pieceCount ≤ state.nextToEmit ∨
          other.view.key ∈ state.benchedAfter worker.view.key := by
    intro other member done
    rcases List.mem_or_eq_of_mem_set member with older | rfl
    · rcases invariant.left other older done with failed | all | benched
      · exact .inl failed
      · exact .inr (.inl all)
      · exact .inr (.inr (grown _ benched))
    · by_cases benched :
          worker.view.key ∈ state.benchedAfter worker.view.key
      · exact .inr (.inr benched)
      · simp [benched] at done
  have staffed := staffed_set invariant.staffed here
    (if worker.view.key ∈ state.benchedAfter worker.view.key then .done
      else .ready)
  unfold ReadState.fetchFailed at accounted ⊢
  dsimp only at accounted ⊢
  split at accounted
  · rename_i nobody
    rw [if_pos nobody]
    refine notifyAll accounted invariant.sorted staffed ?_ ?_
      invariant.finished invariant.emitted
    · intro other _ _
      exact .inl (Option.some_ne_none _)
    · intro healthy
      cases healthy
  · rename_i somebody
    rw [if_neg somebody]
    obtain ⟨view, remains⟩ := List.exists_mem_of_ne_nil _
      (fun empty => somebody (List.isEmpty_iff.mpr empty))
    obtain ⟨viewMember, allowed⟩ := List.mem_filter.mp remains
    obtain ⟨untried, unbenched⟩ := Bool.and_eq_true_iff.mp allowed
    have untried := of_decide_eq_true untried
    have unbenched := of_decide_eq_true unbenched
    refine notifyAll accounted
      (List.pairwise_insertionSort _ _) staffed left ?_
      invariant.finished invariant.emitted
    intro healthy other member
    have listed := (List.perm_insertionSort _ _).mem_iff.mp member
    rcases List.mem_append.mp listed with older | failed
    · have before := invariant.serviceable healthy other older
      change Serviceable plan (state.benchedAfter worker.view.key) other
      unfold ReadState.benchedAfter
      split
      · rename_i enough
        refine spared enough healthy ?_ other older
        refine ⟨view, viewMember, ?_, ?_⟩
        · exact fun tried => untried (List.mem_cons_of_mem _ tried)
        · intro benched
          apply unbenched
          unfold ReadState.benchedAfter
          rw [if_pos enough]
          exact benched
      · exact before
    · rw [List.mem_singleton] at failed
      subst other
      exact ⟨view, viewMember, untried, unbenched⟩

private theorem fetchDone (here : state.workers[position]? = some worker)
    {piece : Piece} {data : List UInt8}
    (accounted : Accounted plan
      (state.fetchDone position worker piece data)) :
    ProgressInvariant plan (state.fetchDone position worker piece data) := by
  refine notifyAll accounted invariant.sorted
    (staffed_set invariant.staffed here .ready) ?_ invariant.serviceable
    invariant.finished invariant.emitted
  intro other member done
  rcases List.mem_or_eq_of_mem_set member with older | rfl
  · exact invariant.left other older done
  · cases done

private theorem endStream {phase : ConsumerPhase}
    (accounted : Accounted plan (state.endStream phase))
    (left : ∀ worker ∈ state.workers,
      state.fatal ≠ none ∨ plan.pieceCount ≤ state.nextToEmit ∨
        worker.view.key ∈ state.benched) (ended : phase ≠ .waiting)
    (finished : phase = .finished → plan.pieceCount ≤ state.nextToEmit) :
    ProgressInvariant plan (state.endStream phase) := by
  refine ⟨accounted, invariant.sorted,
    staffed_map invariant.staffed fun _ => rfl, ?_, ?_,
    invariant.serviceable, fun waiting => (ended waiting).elim, finished,
    invariant.emitted⟩
  · intro worker member _
    obtain ⟨earlier, older, rfl⟩ := List.mem_map.mp member
    exact left earlier older
  · intro worker member waiting
    obtain ⟨earlier, _, rfl⟩ := List.mem_map.mp member
    cases waiting

private theorem emit {data : List UInt8}
    (accounted : Accounted plan (state.emit data)) :
    ProgressInvariant plan (state.emit data) := by
  refine notifyAll accounted invariant.sorted invariant.staffed ?_
    invariant.serviceable ?_ ?_
  · intro worker member done
    rcases invariant.left worker member done with failed | all | benched
    · exact .inl failed
    · exact .inr (.inl (Nat.le_succ_of_le all))
    · exact .inr (.inr benched)
  · intro ended
    exact Nat.le_succ_of_le (invariant.finished ended)
  · change (state.emitted ++ [(state.nextToEmit, data)]).map Prod.fst =
      List.range (state.nextToEmit + 1)
    rw [List.map_append, invariant.emitted, List.range_succ]
    rfl

theorem step {after : ReadState} {action : ReadAction}
    (spared : BenchSparesPending plan state action)
    (taken : readStep plan state action = some after) :
    ProgressInvariant plan after := by
  have transition := readStep_transition taken
  have accounted := invariant.accounted.step transition
  cases transition with
  | stop here ready reason =>
      refine invariant.setPhase here (.refl _) accounted ?_ ?_
      · intro _
        rcases reason with failed | all | benched
        · exact .inl (Option.isSome_iff_ne_none.mp failed)
        · exact .inr (.inl all)
        · exact .inr (.inr benched)
      · intro waiting
        cases waiting
  | take here ready claimed =>
      refine invariant.setPhase here (claimFrom_some claimed).2.1 accounted
        ?_ ?_
      · intro done
        cases done
      · intro waiting
        cases waiting
  | park here ready nothing =>
      refine invariant.setPhase here (.refl _) accounted ?_ fun _ => nothing
      intro done
      cases done
  | fail here busy failed =>
      exact invariant.fetchFailed here accounted
        (spared _ _ here busy failed)
  | store here busy arrived =>
      exact invariant.fetchDone here accounted
  | finish all =>
      refine invariant.endStream accounted (fun _ _ => .inr (.inl all)) ?_
        fun _ => all
      intro waiting
      cases waiting
  | raise failed =>
      refine invariant.endStream accounted ?_ ?_ ?_
      · intro _ _
        exact .inl (by simp [failed])
      · intro waiting
        cases waiting
      · intro finished
        cases finished
  | giveUp more healthy missing left =>
      refine invariant.endStream accounted ?_ ?_ ?_
      · intro worker member
        exact invariant.left worker member (left worker member)
      · intro waiting
        cases waiting
      · intro finished
        cases finished
  | wait more healthy missing =>
      refine ⟨accounted, invariant.sorted, invariant.staffed,
        invariant.left, invariant.parked, invariant.serviceable,
        fun _ => ⟨healthy, more, missing⟩, ?_, invariant.emitted⟩
      intro finished
      cases finished
  | emit more found =>
      exact invariant.emit accounted

end ProgressInvariant

/-- The next piece is ready to be emitted, is being fetched, or is pending
and a worker of a store that has not tried it is still there to take it. -/
def CanAdvance (state : ReadState) : Prop :=
  state.results.contains state.nextToEmit = true ∨
    (∃ worker ∈ state.workers, worker.holds state.nextToEmit = true) ∨
    ∃ piece ∈ state.pending, piece.index = state.nextToEmit ∧
      ∃ worker ∈ state.workers, worker.phase ≠ .done ∧
        worker.view.key ∉ piece.tried ∧ worker.view.key ∉ state.benched

/-- No task of the read can take a step. -/
def Quiescent (plan : ReadPlan) (state : ReadState) : Prop :=
  ∀ action, readStep plan state action = none

theorem quiescent_of_idle {plan : ReadPlan} {state : ReadState}
    (idle : ∀ worker ∈ state.workers,
      worker.phase = .waiting ∨ worker.phase = .done)
    (stopped : state.consumer ≠ .ready) : Quiescent plan state := by
  intro action
  cases action with
  | claim position =>
      cases here : state.workers[position]? with
      | none => simp [readStep, here]
      | some worker =>
          rcases idle worker (List.mem_of_getElem? here) with phase | phase
          · simp [readStep, here, phase]
          · simp [readStep, here, phase]
  | fetched position responses =>
      cases here : state.workers[position]? with
      | none => simp [readStep, here]
      | some worker =>
          rcases idle worker (List.mem_of_getElem? here) with phase | phase
          · simp [readStep, here, phase]
          · simp [readStep, here, phase]
  | consume => simp [readStep, stopped]

/-- What is left to do in a state in which nothing can move. -/
theorem Quiescent.idle {plan : ReadPlan} {state : ReadState}
    (quiescent : Quiescent plan state) :
    (∀ worker ∈ state.workers,
      worker.phase = .waiting ∨ worker.phase = .done) ∧
    state.consumer ≠ .ready := by
  refine ⟨?_, ?_⟩
  · intro worker member
    obtain ⟨position, here⟩ := List.mem_iff_getElem?.mp member
    cases phase : worker.phase with
    | waiting => exact .inl rfl
    | done => exact .inr rfl
    | ready =>
        have stuck := quiescent (.claim position)
        simp [readStep, here, phase] at stuck
    | fetching piece =>
        have stuck := quiescent (.fetched position fun _ => .raised)
        simp only [readStep, here, Option.bind_eq_bind, Option.bind_some,
          phase] at stuck
        split at stuck <;> cases stuck
  · intro ready
    have stuck := quiescent .consume
    simp [readStep, ready] at stuck

namespace ProgressInvariant

variable {state : ReadState}

theorem canAdvance {plan : ReadPlan} (invariant : ProgressInvariant plan state)
    (healthy : state.fatal = none) (more : state.nextToEmit < plan.pieceCount) :
    CanAdvance state := by
  have somewhere := invariant.accounted.complete healthy state.nextToEmit
  rw [owed, if_pos ⟨le_rfl, more⟩] at somewhere
  cases filed : state.results.contains state.nextToEmit with
  | true => exact .inl filed
  | false =>
      rw [copies, filed, Bool.toNat_false, Nat.zero_add] at somewhere
      by_cases held : 0 < state.workers.countP
          (Worker.holds state.nextToEmit)
      · exact .inr (.inl (List.countP_pos_iff.mp held))
      · have listed : 0 < state.pending.countP
            (fun piece => piece.index == state.nextToEmit) := by
          omega
        obtain ⟨piece, member, same⟩ := List.countP_pos_iff.mp listed
        obtain ⟨view, viewMember, untried, unbenched⟩ :=
          invariant.serviceable healthy piece member
        obtain ⟨worker, workerMember, rfl⟩ :=
          invariant.staffed view viewMember
        refine .inr (.inr ⟨piece, member, eq_of_beq same, worker,
          workerMember, ?_, untried, unbenched⟩)
        intro done
        rcases invariant.left worker workerMember done with
          failed | all | benched
        · exact failed healthy
        · omega
        · exact unbenched benched

theorem not_quiescent_of_waiting {plan : ReadPlan}
    (invariant : ProgressInvariant plan state)
    (waiting : state.consumer = .waiting) : ¬Quiescent plan state := by
  intro quiescent
  obtain ⟨idle, _⟩ := quiescent.idle
  obtain ⟨healthy, more, missing⟩ := invariant.waiting waiting
  rcases invariant.canAdvance healthy more with
    filed | ⟨worker, member, held⟩ |
      ⟨piece, listed, same, worker, member, active, untried, _⟩
  · simp [Dict.contains, missing] at filed
  · rcases idle worker member with phase | phase
    · simp [Worker.holds, phase] at held
    · simp [Worker.holds, phase] at held
  · rcases idle worker member with phase | phase
    · have nothing := invariant.parked worker member phase
      rw [claimFrom_eq_none_iff invariant.sorted] at nothing
      apply untried
      apply nothing piece listed
      have ahead : 0 < plan.reach := Nat.le_max_left 1 plan.window
      omega
    · exact active phase

theorem reachable {plan : ReadPlan}
    (reached : ReachableWithin (readStep plan) (BenchSparesPending plan)
      (ReadState.initial plan) state) : ProgressInvariant plan state :=
  reached.invariant (fun _ _ _ invariant spared taken =>
    step invariant spared taken) (initial plan)

end ProgressInvariant

/-- As long as no failure benches the last store of a pending piece, a read
can always advance, and it comes to rest only with its whole output or with
an error. -/
theorem multiSourceRead_progress (plan : ReadPlan) (state : ReadState)
    (reached : ReachableWithin (readStep plan) (BenchSparesPending plan)
      (ReadState.initial plan) state) :
    (state.fatal = none → state.nextToEmit < plan.pieceCount →
      CanAdvance state) ∧
    (Quiescent plan state →
      (state.consumer = .finished ∧
        state.emitted.map Prod.fst = List.range plan.pieceCount) ∨
      ∃ error, state.consumer = .raised error) := by
  have invariant := ProgressInvariant.reachable reached
  refine ⟨invariant.canAdvance, ?_⟩
  intro quiescent
  cases phase : state.consumer with
  | ready => exact (quiescent.idle.2 phase).elim
  | waiting =>
      exact (invariant.not_quiescent_of_waiting phase quiescent).elim
  | finished =>
      have all := Nat.le_antisymm invariant.accounted.within
        (invariant.finished phase)
      exact .inl ⟨rfl, all ▸ invariant.emitted⟩
  | raised error => exact .inr ⟨error, rfl⟩

/-- Two stores, one with a single worker; four pieces of one byte. -/
private def benchedPlan : ReadPlan :=
  { views := [⟨"A", [1], [4], 1⟩, ⟨"B", [1], [4], 2⟩]
    size := 4
    begin_ := 0
    end_ := 3
    pieceSize := 1
    window := 4
    views_ne := by simp }

/-- One failure that leaves the second store for the piece. -/
theorem multiSourceRead_progress_after_failure :
    ∃ state, ReachableWithin (readStep benchedPlan)
        (BenchSparesPending benchedPlan) (ReadState.initial benchedPlan)
        state ∧
      state.failures "A" = 1 ∧ CanAdvance state := by
  have guarded : Guarded (readStep benchedPlan)
      (BenchSparesPending benchedPlan) (ReadState.initial benchedPlan)
      [.claim 0, .fetched 0 fun _ => .raised] := by
    refine ⟨trivial, ?_⟩
    intro next taken
    cases Option.some.inj taken
    refine ⟨?_, fun _ _ => trivial⟩
    intro worker piece _ _ _ enough
    exact absurd enough (by decide : ¬2 ≤ 0 + 1)
  have reached : ReachableWithin (readStep benchedPlan)
      (BenchSparesPending benchedPlan) (ReadState.initial benchedPlan) _ :=
    ⟨[.claim 0, .fetched 0 fun _ => .raised], guarded, rfl⟩
  exact ⟨_, reached, rfl,
    (multiSourceRead_progress benchedPlan _ reached).1 rfl (by decide)⟩

/-- A store benched through other pieces strands a piece that waits for it:
nothing can move, and the consumer is neither served nor told. -/
theorem multiSourceRead_stranded :
    ∃ (plan : ReadPlan) (state : ReadState),
      1 ≤ plan.pieceSize ∧ 1 ≤ plan.window ∧
      Reachable (readStep plan) (ReadState.initial plan) state ∧
      state.fatal = none ∧ state.nextToEmit < plan.pieceCount ∧
      ¬CanAdvance state ∧
      Quiescent plan state ∧ state.consumer = .waiting := by
  have reached : Reachable (readStep benchedPlan)
      (ReadState.initial benchedPlan) _ :=
    ⟨[.consume, .claim 0, .claim 1, .claim 2,
      .fetched 1 fun _ => .raised, .consume, .claim 1,
      .fetched 0 fun _ => .raised, .consume, .claim 0,
      .fetched 2 fun _ => .raised, .consume,
      .fetched 0 fun _ => .bytes [0], .consume, .claim 0,
      .fetched 0 fun _ => .bytes [0], .consume, .claim 0,
      .fetched 1 fun _ => .bytes [0], .consume, .claim 0, .claim 1], rfl⟩
  refine ⟨benchedPlan, _, by decide, by decide, reached, rfl, by decide,
    ?_, quiescent_of_idle ?_ ?_, rfl⟩
  · unfold CanAdvance
    decide
  · decide
  · decide

end Tgdcfs
