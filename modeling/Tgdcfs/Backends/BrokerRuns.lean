import Tgdcfs.Backends.MessageBroker

/-!
# Runs of the message broker

The field `task` names the one collector there is, and is empty only when
nothing is pending.  So whoever waits has a collector to wait for, and each of
its steps brings the answer closer.
-/

namespace Tgdcfs

open Lib

namespace MessageBroker

variable {ε : Type}

section Futures

variable {completed : List (Nat × Outcome ε)} {outcome : Request → Outcome ε}

theorem isDone_iff {future : Nat} :
    isDone completed future = true ↔ future ∈ completed.map Prod.fst := by
  simp [isDone]

theorem settleFuture_keys (future : Nat) (outcome : Outcome ε) (other : Nat) :
    other ∈ (settleFuture completed future outcome).map Prod.fst ↔
      other ∈ completed.map Prod.fst ∨ other = future := by
  unfold settleFuture
  by_cases done : isDone completed future = true
  · rw [if_pos done]
    constructor
    · exact .inl
    · rintro (before | rfl)
      · exact before
      · exact isDone_iff.mp done
  · rw [if_neg done]
    simp

theorem settleFuture_nodup (once : (completed.map Prod.fst).Nodup)
    (future : Nat) (outcome : Outcome ε) :
    ((settleFuture completed future outcome).map Prod.fst).Nodup := by
  unfold settleFuture
  by_cases done : isDone completed future = true
  · rw [if_pos done]
    exact once
  · rw [if_neg done, List.map_append, List.map_singleton, List.nodup_append]
    refine ⟨once, List.nodup_singleton _, ?_⟩
    rintro other before last there rfl
    apply done
    rw [List.mem_singleton.mp there] at before
    exact isDone_iff.mpr before

theorem mem_settleFuture {future : Nat} {result : Outcome ε}
    {completion : Nat × Outcome ε}
    (member : completion ∈ settleFuture completed future result) :
    completion ∈ completed ∨ completion = (future, result) := by
  unfold settleFuture at member
  by_cases done : isDone completed future = true
  · rw [if_pos done] at member
    exact .inl member
  · rw [if_neg done] at member
    simpa using member

theorem settleAll_keys (requests : List Request) (other : Nat) :
    other ∈ (settleAll outcome requests completed).map Prod.fst ↔
      other ∈ completed.map Prod.fst ∨
        ∃ request ∈ requests, request.future = other := by
  induction requests generalizing completed with
  | nil => simp [settleAll]
  | cons request requests ih =>
      rw [settleAll, ih, settleFuture_keys, or_assoc]
      simp [eq_comm]

theorem settleAll_nodup (once : (completed.map Prod.fst).Nodup)
    (requests : List Request) :
    ((settleAll outcome requests completed).map Prod.fst).Nodup := by
  induction requests generalizing completed with
  | nil => exact once
  | cons request requests ih =>
      exact ih (settleFuture_nodup once _ _)

theorem mem_settleAll {requests : List Request}
    {completion : Nat × Outcome ε}
    (member : completion ∈ settleAll outcome requests completed) :
    completion ∈ completed ∨
      ∃ request ∈ requests, completion = (request.future, outcome request) := by
  induction requests generalizing completed with
  | nil => exact .inl member
  | cons request requests ih =>
      rcases ih member with before | ⟨later, there, same⟩
      · rcases mem_settleFuture before with older | rfl
        · exact .inl older
        · exact .inr ⟨request, List.mem_cons_self, rfl⟩
      · exact .inr ⟨later, List.mem_cons_of_mem _ there, same⟩

end Futures

theorem answer_answers (messages : List (Option MessageResp))
    (ids : List Int) : Answers messages ids (answer messages ids) := by
  have listed : ∀ message, message ∈ excludeNone messages ↔
      some message ∈ messages := by
    intro message
    simp [excludeNone]
  unfold Answers answer
  rw [List.forall₂_map_right_iff, List.forall₂_same]
  intro id _
  constructor
  · intro message found
    have member := Dict.mem_of_mem_ofList
      ((Dict.get?_eq_some_iff _ _ _).mp found)
    obtain ⟨original, there, same⟩ := List.mem_map.mp member
    cases same
    exact ⟨(listed _).mp there, rfl⟩
  · intro missing message there named
    exact Dict.get?_ofList_none missing (message.messageId, message)
      (List.mem_map.mpr ⟨message, (listed _).mpr there, rfl⟩) named

/-- The turns that are left are those of the retry loop. -/
def Collector.Turns (bots : Nat) : Collector ε → Prop
  | .created | .sleeping => True
  | .fetching _ left | .asking _ left _ => 1 ≤ left ∧ left ≤ max 1 bots

structure Orderly (bots : Nat) (broker : MessageBroker ε) : Prop where
  current : ∀ task collector, broker.collectors.get? task = some collector →
    broker.task = some task
  alive : ∀ task, broker.task = some task →
    ∃ collector, broker.collectors.get? task = some collector
  idle : broker.task = none → broker.requests = []
  waiting : ∀ future < broker.issued.length, ¬broker.Done future →
    broker.Waiting future
  pending : ∀ request ∈ broker.requests,
    broker.issued[request.future]? = some request.ids
  inFlight : ∀ task collector,
    broker.collectors.get? task = some collector →
      ∀ request ∈ collector.inFlight,
        broker.issued[request.future]? = some request.ids
  turns : ∀ task collector, broker.collectors.get? task = some collector →
    collector.Turns bots
  once : (broker.completed.map Prod.fst).Nodup
  right : ∀ completion ∈ broker.completed, broker.Right completion

namespace Orderly

variable {bots : Nat} {broker : MessageBroker ε}

theorem init : Orderly bots (MessageBroker.init : MessageBroker ε) where
  current task collector found := by cases found
  alive task named := by cases named
  idle _ := rfl
  waiting future issued := by cases issued
  pending request member := by cases member
  inFlight task collector found := by cases found
  turns task collector found := by cases found
  once := List.nodup_nil
  right completion member := by cases member

variable {task : Nat} {collector : Collector ε}

/-- Who waits is pending or in the batch of the one collector. -/
theorem waits (orderly : Orderly bots broker)
    (found : broker.collectors.get? task = some collector) {future : Nat}
    (issued : future < broker.issued.length) :
    broker.Done future ∨
      ∃ request ∈ broker.requests ++ collector.inFlight,
        request.future = future := by
  by_cases done : broker.Done future
  · exact .inl done
  · right
    rcases orderly.waiting future issued done with
      ⟨request, member, same⟩ | ⟨other, running, there, request, member, same⟩
    · exact ⟨request, List.mem_append_left _ member, same⟩
    · have one := orderly.current task collector found
      rw [orderly.current other running there] at one
      cases one
      rw [found] at there
      cases there
      exact ⟨request, List.mem_append_right _ member, same⟩

variable {request : Request}

theorem issued_of_mem (orderly : Orderly bots broker)
    (found : broker.collectors.get? task = some collector)
    (member : request ∈ broker.requests ++ collector.inFlight) :
    broker.issued[request.future]? = some request.ids := by
  rcases List.mem_append.mp member with pending | batch
  · exact orderly.pending request pending
  · exact orderly.inFlight task collector found request batch

theorem done_of_idle (orderly : Orderly bots broker)
    (idle : broker.task = none) {future : Nat}
    (issued : future < broker.issued.length) : broker.Done future := by
  by_contra undone
  rcases orderly.waiting future issued undone with
    ⟨request, member, _⟩ | ⟨task, collector, found, _⟩
  · rw [orderly.idle idle] at member
    cases member
  · rw [orderly.current task collector found] at idle
    cases idle

variable {outcome : Request → Outcome ε}

theorem settles (orderly : Orderly bots broker) {requests : List Request}
    (right : ∀ request ∈ requests,
      broker.Right (request.future, outcome request)) :
    Orderly bots { broker with
      completed := settleAll outcome requests broker.completed } := by
  refine { orderly with waiting := ?_, once := ?_, right := ?_ }
  · intro future issued undone
    apply orderly.waiting future issued
    intro done
    apply undone
    exact isDone_iff.mpr ((settleAll_keys _ _).mpr (.inl (isDone_iff.mp done)))
  · exact settleAll_nodup orderly.once requests
  · intro completion member
    rcases mem_settleAll member with before | ⟨request, there, rfl⟩
    · exact orderly.right completion before
    · exact right request there

theorem fetches (orderly : Orderly bots broker)
    (answered : List Request × List (Option MessageResp)) :
    Orderly bots { broker with fetched := broker.fetched ++ [answered] } := by
  refine { orderly with right := ?_ }
  intro completion member
  obtain ⟨ids, issued, found⟩ := orderly.right completion member
  refine ⟨ids, issued, ?_⟩
  intro messages result
  obtain ⟨inFlight, fetched, there, rest⟩ := found messages result
  exact ⟨inFlight, fetched, List.mem_append_left _ there, rest⟩

/-- The collector goes on with requests that were pending or its own. -/
theorem moves (orderly : Orderly bots broker) {next : Collector ε}
    (found : broker.collectors.get? task = some collector)
    {rest : List Request}
    (comes : ∀ request ∈ rest ++ next.inFlight,
      request ∈ broker.requests ++ collector.inFlight)
    (stays : ∀ request ∈ broker.requests ++ collector.inFlight,
      broker.Done request.future ∨ request ∈ rest ++ next.inFlight)
    (turns : next.Turns bots) :
    Orderly bots { broker with
      requests := rest
      collectors := broker.collectors.set task next } := by
  have named := orderly.current task collector found
  have only : ∀ other running,
      (broker.collectors.set task next).get? other = some running →
        other = task ∧ running = next := by
    intro other running there
    rw [Dict.get?_set] at there
    by_cases same : other = task
    · rw [if_pos same] at there
      cases there
      exact ⟨same, rfl⟩
    · rw [if_neg same] at there
      have again := orderly.current other running there
      rw [named] at again
      cases again
      exact (same rfl).elim
  have here : (broker.collectors.set task next).get? task = some next := by
    rw [Dict.get?_set, if_pos rfl]
  refine { orderly with
    current := ?_, alive := ?_, idle := ?_, waiting := ?_, pending := ?_,
    inFlight := ?_, turns := ?_ }
  · intro other running there
    rw [(only other running there).1]
    exact named
  · intro other same
    rw [named] at same
    cases same
    exact ⟨next, here⟩
  · intro idle
    rw [named] at idle
    cases idle
  · intro future issued undone
    rcases orderly.waits found issued with done | ⟨request, member, rfl⟩
    · exact (undone done).elim
    · rcases stays request member with done | staying
      · exact (undone done).elim
      · rcases List.mem_append.mp staying with pending | batch
        · exact .inl ⟨request, pending, rfl⟩
        · exact .inr ⟨task, next, here, request, batch, rfl⟩
  · intro request member
    exact orderly.issued_of_mem found
      (comes request (List.mem_append_left _ member))
  · intro other running there request member
    obtain ⟨rfl, rfl⟩ := only other running there
    exact orderly.issued_of_mem found
      (comes request (List.mem_append_right _ member))
  · intro other running there
    rw [(only other running there).2]
    exact turns

theorem retires (orderly : Orderly bots broker)
    (found : broker.collectors.get? task = some collector)
    (done : ∀ request ∈ broker.requests ++ collector.inFlight,
      broker.Done request.future) :
    Orderly bots { broker with
      requests := []
      task := none
      collectors := broker.collectors.erase task } := by
  have named := orderly.current task collector found
  have nobody : ∀ other, (broker.collectors.erase task).get? other = none := by
    intro other
    rw [Dict.get?_erase]
    by_cases same : other = task
    · rw [if_pos same]
    · rw [if_neg same]
      cases there : broker.collectors.get? other with
      | none => rfl
      | some running =>
          have again := orderly.current other running there
          rw [named] at again
          cases again
          exact (same rfl).elim
  refine { orderly with
    current := ?_, alive := ?_, idle := fun _ => rfl, waiting := ?_,
    pending := ?_, inFlight := ?_, turns := ?_ }
  · intro other running there
    rw [nobody other] at there
    cases there
  · intro other absurd
    cases absurd
  · intro future issued undone
    rcases orderly.waits found issued with settled | ⟨request, member, rfl⟩
    · exact (undone settled).elim
    · exact (undone (done request member)).elim
  · intro request member
    cases member
  · intro other running there
    rw [nobody other] at there
    cases there
  · intro other running there
    rw [nobody other] at there
    cases there

theorem settled_done {requests : List Request} (member : request ∈ requests) :
    Done { broker with
      completed := settleAll outcome requests broker.completed }
        request.future :=
  isDone_iff.mpr ((settleAll_keys _ _).mpr (.inr ⟨request, member, rfl⟩))

theorem right_of_issued {outcome : Outcome ε}
    (issued : broker.issued[request.future]? = some request.ids)
    (other : ∀ found, outcome ≠ .result found) :
    broker.Right (request.future, outcome) :=
  ⟨request.ids, issued, fun found same => (other found same).elim⟩

variable (orderly : Orderly bots broker)
include orderly

theorem dies (found : broker.collectors.get? task = some collector)
    (failure : Failure ε) :
    Orderly bots (broker.dies task collector.inFlight failure) := by
  have right : ∀ request ∈ collector.inFlight ++ broker.requests,
      broker.Right (request.future, .exception failure) := by
    intro request member
    refine right_of_issued (orderly.issued_of_mem found ?_) ?_
    · exact List.mem_append.mpr (List.mem_append.mp member).symm
    · intro messages absurd
      cases absurd
  refine (orderly.settles right).retires found ?_
  intro request member
  exact settled_done (List.mem_append.mpr (List.mem_append.mp member).symm)

theorem nextWindow (found : broker.collectors.get? task = some collector)
    (done : ∀ request ∈ collector.inFlight, broker.Done request.future) :
    Orderly bots (broker.nextWindow task) := by
  unfold MessageBroker.nextWindow
  by_cases empty : broker.requests = []
  · rw [if_pos empty]
    have retired := orderly.retires found (by
      intro request member
      rw [empty] at member
      exact done request member)
    rw [← empty] at retired
    exact retired
  · rw [if_neg empty]
    refine orderly.moves found ?_ ?_ trivial
    · intro request member
      rcases List.mem_append.mp member with pending | batch
      · exact List.mem_append_left _ pending
      · cases batch
    · intro request member
      rcases List.mem_append.mp member with pending | batch
      · exact .inr (List.mem_append_left _ pending)
      · exact .inl (done request batch)

theorem completes (found : broker.collectors.get? task = some collector)
    (right : ∀ request ∈ collector.inFlight,
      broker.Right (request.future, outcome request)) :
    Orderly bots (broker.completes task collector.inFlight outcome) :=
  (orderly.settles right).nextWindow found fun _ member =>
    settled_done member

theorem getMessages (ids : List Int) (cached : List (Option MessageResp)) :
    Orderly bots (broker.getMessages ids cached) := by
  have issued_before : ∀ {future : Nat} {found : List Int},
      broker.issued[future]? = some found →
        (broker.issued ++ [ids])[future]? = some found := by
    intro future found there
    have bound := (List.getElem?_eq_some_iff.mp there).1
    rw [List.getElem?_append_left bound]
    exact there
  have right_before : ∀ completion ∈ broker.completed,
      ∃ found, (broker.issued ++ [ids])[completion.1]? = some found ∧
        ∀ messages, completion.2 = .result messages →
          ∃ inFlight fetched, (inFlight, fetched) ∈ broker.fetched ∧
            ⟨found, completion.1⟩ ∈ inFlight ∧
              Answers fetched found messages := by
    intro completion member
    obtain ⟨found, there, rest⟩ := orderly.right completion member
    exact ⟨found, issued_before there, rest⟩
  have pending_after : ∀ request ∈ broker.requests ++
      [⟨ids, broker.issued.length⟩],
        (broker.issued ++ [ids])[request.future]? = some request.ids := by
    intro request member
    rcases List.mem_append.mp member with before | last
    · exact issued_before (orderly.pending request before)
    · rw [List.mem_singleton.mp last]
      simp
  have earlier : ∀ future < (broker.issued ++ [ids]).length,
      future ≠ broker.issued.length → future < broker.issued.length := by
    intro future bound different
    rw [List.length_append, List.length_singleton] at bound
    omega
  unfold MessageBroker.getMessages
  by_cases known : cached ≠ [] ∧ cached.all Option.isSome
  · rw [if_pos known]
    exact orderly
  rw [if_neg known]
  dsimp only
  by_cases named : broker.task = none
  · rw [if_pos (by simp [named])]
    have nobody : ∀ task, broker.collectors.get? task = none := by
      intro task
      cases there : broker.collectors.get? task with
      | none => rfl
      | some running =>
          rw [orderly.current task running there] at named
          cases named
    have only : ∀ task running,
        (broker.collectors.set broker.started .created).get? task =
          some running → task = broker.started ∧ running = .created := by
      intro task running there
      rw [Dict.get?_set] at there
      by_cases same : task = broker.started
      · rw [if_pos same] at there
        cases there
        exact ⟨same, rfl⟩
      · rw [if_neg same, nobody] at there
        cases there
    refine {
      current := ?_, alive := ?_, idle := ?_, waiting := ?_,
      pending := pending_after, inFlight := ?_, turns := ?_,
      once := orderly.once, right := right_before }
    · intro task running there
      rw [(only task running there).1]
    · intro task same
      cases same
      exact ⟨.created, by simp [Dict.get?_set]⟩
    · intro absurd
      cases absurd
    · intro future issued undone
      by_cases last : future = broker.issued.length
      · exact .inl ⟨_, List.mem_append_right _ List.mem_cons_self,
          last.symm⟩
      · have before := earlier future issued last
        exact (undone (orderly.done_of_idle named before)).elim
    · intro task running there request member
      rw [(only task running there).2] at member
      cases member
    · intro task running there
      rw [(only task running there).2]
      trivial
  · rw [if_neg (by simp [named])]
    refine { orderly with
      idle := ?_, waiting := ?_, pending := pending_after, inFlight := ?_,
      right := right_before }
    · intro absurd
      exact (named absurd).elim
    · intro future issued undone
      by_cases last : future = broker.issued.length
      · exact .inl ⟨_, List.mem_append_right _ List.mem_cons_self,
          last.symm⟩
      · have before := earlier future issued last
        rcases orderly.waiting future before undone with
          ⟨request, member, same⟩ | batch
        · exact .inl ⟨request, List.mem_append_left _ member, same⟩
        · exact .inr batch
    · intro other running there request member
      exact issued_before (orderly.inFlight other running there request member)

theorem step {action : Action ε} {next : MessageBroker ε}
    (first : broker.RunsFirst action)
    (taken : broker.step bots action = some next) : Orderly bots next := by
  cases action with
  | getMessages ids cached =>
      cases taken
      exact orderly.getMessages ids cached
  | cancelWaiter future =>
      simp only [MessageBroker.step] at taken
      split at taken
      · rename_i issued
        cases taken
        have right : ∀ request ∈ [Request.mk broker.issued[future] future],
            broker.Right (request.future, .cancelled) := by
          intro request member
          rw [List.mem_singleton.mp member]
          refine right_of_issued (by simp) ?_
          intro found absurd
          cases absurd
        exact orderly.settles right
      · cases taken
  | start task =>
      simp only [MessageBroker.step] at taken
      split at taken
      · rename_i found
        cases taken
        exact orderly.moves found (fun _ same => same) (fun _ same => .inr same)
          trivial
      · cases taken
  | flush task =>
      simp only [MessageBroker.step] at taken
      split at taken
      · rename_i found
        split at taken
        · rename_i empty
          cases taken
          have window := orderly.nextWindow found fun _ absurd => by
            cases absurd
          rw [← empty]
          exact window
        · split at taken
          · cases taken
            have ended := orderly.dies found .runtimeError
            simpa [MessageBroker.dies, Collector.inFlight] using ended
          · cases taken
            refine orderly.moves found ?_ ?_ ?_
            · intro request member
              exact List.mem_append_left _ member
            · intro request member
              rcases List.mem_append.mp member with pending | batch
              · exact .inr pending
              · cases batch
            · exact ⟨Nat.le_max_left _ _, Nat.le_refl _⟩
      · cases taken
  | fetched task messages =>
      simp only [MessageBroker.step] at taken
      split at taken
      · rename_i inFlight left found
        cases taken
        refine (orderly.fetches (inFlight, messages)).completes found ?_
        intro request member
        refine ⟨request.ids, orderly.inFlight task _ found request member, ?_⟩
        intro answered same
        cases same
        exact ⟨inFlight, messages, by simp, member, answer_answers _ _⟩
      · cases taken
  | fetchFails task error =>
      simp only [MessageBroker.step] at taken
      split at taken
      · rename_i inFlight left found
        cases taken
        have turns := orderly.turns task _ found
        exact orderly.moves found (fun _ same => same) (fun _ same => .inr same)
          turns
      · cases taken
  | named task =>
      simp only [MessageBroker.step] at taken
      split at taken
      · rename_i inFlight left error found
        split at taken
        · cases taken
          refine orderly.completes found ?_
          intro request member
          refine right_of_issued
            (orderly.inFlight task _ found request member) ?_
          intro answered absurd
          cases absurd
        · rename_i more
          cases taken
          obtain ⟨_, most⟩ := orderly.turns task _ found
          exact orderly.moves found (fun _ same => same)
            (fun _ same => .inr same) ⟨by omega, by omega⟩
      · cases taken
  | raises task error =>
      simp only [MessageBroker.step] at taken
      split at taken
      · rename_i inFlight left found
        cases taken
        exact orderly.dies found (.raised error)
      · rename_i inFlight left before found
        cases taken
        exact orderly.dies found (.raised error)
      · cases taken
  | cancelCollector task =>
      simp only [MessageBroker.step] at taken
      split at taken
      · cases taken
      · rename_i found
        exact (first task rfl _ found rfl).elim
      · rename_i collector _ found
        cases taken
        exact orderly.dies found .cancelledError

end Orderly

variable {broker : MessageBroker ε} {future : Nat}

theorem done_settleAll (done : broker.Done future)
    (outcome : Request → Outcome ε) (requests : List Request) :
    isDone (settleAll outcome requests broker.completed) future = true :=
  isDone_iff.mpr ((settleAll_keys _ _).mpr (.inl (isDone_iff.mp done)))

theorem nextWindow_keeps (task : Nat) (broker : MessageBroker ε) :
    (broker.nextWindow task).issued = broker.issued ∧
      (broker.nextWindow task).completed = broker.completed := by
  unfold nextWindow
  by_cases empty : broker.requests = []
  · rw [if_pos empty]
    exact ⟨rfl, rfl⟩
  · rw [if_neg empty]
    exact ⟨rfl, rfl⟩

variable {bots : Nat}

/-- A lookup or one turn of a collector leaves issued and done what was. -/
theorem step_keeps {next : MessageBroker ε} {action : Action ε}
    (taken : broker.step bots action = some next) :
    broker.issued.length ≤ next.issued.length ∧
      ∀ future, broker.Done future → next.Done future := by
  cases action with
  | getMessages ids cached =>
      cases taken
      unfold getMessages
      split
      · exact ⟨Nat.le_refl _, fun _ done => done⟩
      · dsimp only
        split
        · exact ⟨by simp, fun _ done => done⟩
        · exact ⟨by simp, fun _ done => done⟩
  | cancelWaiter future =>
      simp only [step] at taken
      split at taken
      · cases taken
        refine ⟨Nat.le_refl _, fun other done => ?_⟩
        exact isDone_iff.mpr
          ((settleFuture_keys _ _ _).mpr (.inl (isDone_iff.mp done)))
      · cases taken
  | start task =>
      simp only [step] at taken
      split at taken
      · cases taken
        exact ⟨Nat.le_refl _, fun _ done => done⟩
      · cases taken
  | flush task =>
      simp only [step] at taken
      split at taken
      · split at taken
        · cases taken
          obtain ⟨issued, completed⟩ := nextWindow_keeps task
            { broker with requests := [] }
          rw [issued]
          refine ⟨Nat.le_refl _, fun future done => ?_⟩
          rw [Done, completed]
          exact done
        · split at taken
          · cases taken
            exact ⟨Nat.le_refl _, fun _ done => done_settleAll done _ _⟩
          · cases taken
            exact ⟨Nat.le_refl _, fun _ done => done⟩
      · cases taken
  | fetched task messages =>
      simp only [step] at taken
      split at taken
      · cases taken
        rw [completes, (nextWindow_keeps _ _).1]
        refine ⟨Nat.le_refl _, fun future done => ?_⟩
        rw [Done, (nextWindow_keeps _ _).2]
        exact done_settleAll done _ _
      · cases taken
  | fetchFails task error =>
      simp only [step] at taken
      split at taken
      · cases taken
        exact ⟨Nat.le_refl _, fun _ done => done⟩
      · cases taken
  | named task =>
      simp only [step] at taken
      split at taken
      · split at taken
        · cases taken
          rw [completes, (nextWindow_keeps _ _).1]
          refine ⟨Nat.le_refl _, fun future done => ?_⟩
          rw [Done, (nextWindow_keeps _ _).2]
          exact done_settleAll done _ _
        · cases taken
          exact ⟨Nat.le_refl _, fun _ done => done⟩
      · cases taken
  | raises task error =>
      simp only [step] at taken
      split at taken
      · cases taken
        exact ⟨Nat.le_refl _, fun _ done => done_settleAll done _ _⟩
      · cases taken
        exact ⟨Nat.le_refl _, fun _ done => done_settleAll done _ _⟩
      · cases taken
  | cancelCollector task =>
      simp only [step] at taken
      split at taken
      · cases taken
      · cases taken
        exact ⟨Nat.le_refl _, fun _ done => done⟩
      · cases taken
        exact ⟨Nat.le_refl _, fun _ done => done_settleAll done _ _⟩

/-- The steps a collector takes until it sleeps again. -/
def Collector.toSleep : Collector ε → Nat
  | created => 1
  | sleeping => 0
  | fetching _ left => 2 * left
  | asking _ left _ => 2 * left - 1

/-- The steps of the collector until a future is done at the latest: its batch
comes first, then one window and the batch with the pending ones. -/
def Collector.remaining (bots : Nat) (collector : Collector ε) (future : Nat) :
    Nat :=
  collector.toSleep +
    if collector.inFlight.any (·.future = future) then 0
    else 1 + 2 * max 1 bots

theorem Collector.remaining_le {collector : Collector ε}
    (turns : collector.Turns bots) (future : Nat) :
    collector.remaining bots future ≤ 4 * max 1 bots + 1 := by
  have sleeps : collector.toSleep ≤ 2 * max 1 bots := by
    cases collector with
    | created => simp only [toSleep]; omega
    | sleeping => simp only [toSleep]; omega
    | fetching inFlight left =>
        obtain ⟨_, most⟩ := turns
        simp only [toSleep]
        omega
    | asking inFlight left error =>
        obtain ⟨_, most⟩ := turns
        simp only [toSleep]
        omega
  unfold remaining
  split
  · omega
  · omega

theorem Collector.remaining_lt (next collector : Collector ε)
    (same : next.inFlight = collector.inFlight)
    (lower : next.toSleep + 1 ≤ collector.toSleep) :
    next.remaining bots future + 1 ≤ collector.remaining bots future := by
  rw [remaining, remaining, same]
  omega

/-- The steps until a future is done, from the current collector. -/
def remaining (bots : Nat) (broker : MessageBroker ε) (future : Nat) : Nat :=
  ((broker.task.bind broker.collectors.get?).map
    (·.remaining bots future)).getD 0

section Remaining

variable {bots : Nat} {broker : MessageBroker ε} {task future : Nat}
  {collector : Collector ε}

theorem remaining_of_found (named : broker.task = some task)
    (found : broker.collectors.get? task = some collector) :
    broker.remaining bots future = collector.remaining bots future := by
  rw [remaining, named, Option.bind_some, found]
  rfl

theorem remaining_moves (named : broker.task = some task)
    (collector : Collector ε) (rest : List Request) :
    MessageBroker.remaining bots { broker with
      requests := rest
      collectors := broker.collectors.set task collector } future =
        collector.remaining bots future := by
  unfold remaining
  simp only [named, Option.bind_some, Dict.get?_set, if_true]
  rfl

/-- At the end of a turn somebody who still waits is pending. -/
theorem remaining_nextWindow (named : broker.task = some task)
    (waiting : broker.requests ≠ []) :
    (broker.nextWindow task).remaining bots future =
      1 + 2 * max 1 bots := by
  rw [nextWindow, if_neg waiting]
  refine (remaining_moves named .sleeping broker.requests).trans ?_
  simp [Collector.remaining, Collector.toSleep, Collector.inFlight]

theorem remaining_batch (member : ∃ request ∈ collector.inFlight,
      request.future = future) :
    collector.remaining bots future = collector.toSleep := by
  rw [Collector.remaining, if_pos (by simpa using member), Nat.add_zero]

theorem remaining_pending (absent : ¬∃ request ∈ collector.inFlight,
      request.future = future) :
    collector.remaining bots future =
      collector.toSleep + (1 + 2 * max 1 bots) := by
  rw [Collector.remaining, if_neg (by simpa using absent)]

variable (orderly : Orderly bots broker)
include orderly

/-- The end of a batch: who is not done has to wait for the next one. -/
theorem remaining_completes
    (found : broker.collectors.get? task = some collector)
    (issued : future < broker.issued.length) {outcome : Request → Outcome ε}
    (undone : ¬(broker.completes task collector.inFlight
      outcome).Done future) :
    (broker.completes task collector.inFlight outcome).remaining bots future +
        collector.toSleep = collector.remaining bots future := by
  have named := orderly.current task collector found
  rw [Done, completes, (nextWindow_keeps _ _).2] at undone
  have absent : ¬∃ request ∈ collector.inFlight, request.future = future := by
    rintro ⟨request, member, rfl⟩
    exact undone (Orderly.settled_done member)
  rcases orderly.waits found issued with done | ⟨request, member, same⟩
  · exact (undone (done_settleAll done _ _)).elim
  · rcases List.mem_append.mp member with pending | batch
    · have waiting := List.ne_nil_of_mem pending
      have window : (broker.completes task collector.inFlight
          outcome).remaining bots future = 1 + 2 * max 1 bots :=
        remaining_nextWindow named waiting
      rw [window, remaining_pending absent, Nat.add_comm]
    · exact (absent ⟨request, batch, same⟩).elim

theorem done_of_dies (found : broker.collectors.get? task = some collector)
    (issued : future < broker.issued.length) (failure : Failure ε) :
    (broker.dies task collector.inFlight failure).Done future := by
  rcases orderly.waits found issued with done | ⟨request, member, rfl⟩
  · exact done_settleAll done _ _
  · exact Orderly.settled_done
      (List.mem_append.mpr (List.mem_append.mp member).symm)

/-- A collector that keeps its batch and comes nearer to its sleep. -/
theorem lowers_moves (found : broker.collectors.get? task = some collector)
    {next : Collector ε} (same : next.inFlight = collector.inFlight)
    (lower : next.toSleep + 1 ≤ collector.toSleep) :
    (broker.moves task next).remaining bots future + 1 ≤
      broker.remaining bots future := by
  have named := orderly.current task _ found
  have moved : (broker.moves task next).remaining bots future =
      next.remaining bots future := remaining_moves named _ broker.requests
  rw [moved, remaining_of_found named found]
  exact Collector.remaining_lt next collector same lower

theorem lowers_completes (found : broker.collectors.get? task = some collector)
    (awake : 0 < collector.toSleep) (issued : future < broker.issued.length)
    {outcome : Request → Outcome ε}
    (undone :
      ¬(broker.completes task collector.inFlight outcome).Done future) :
    (broker.completes task collector.inFlight outcome).remaining bots future +
        1 ≤ broker.remaining bots future := by
  have ended := remaining_completes orderly found issued undone
  rw [remaining_of_found (orderly.current task _ found) found, ← ended]
  omega

/-- A window that closes puts whoever still waits into the batch. -/
theorem lowers_flush {next : MessageBroker ε} (before : ¬broker.Done future)
    (taken : broker.step bots (.flush task) = some next)
    (issued : future < broker.issued.length) (undone : ¬next.Done future) :
    next.remaining bots future + 1 ≤ broker.remaining bots future := by
  simp only [step] at taken
  split at taken
  · rename_i found
    have named := orderly.current task _ found
    obtain ⟨request, member, same⟩ :=
      (orderly.waits found issued).resolve_left before
    have pending : request ∈ broker.requests := by
      simpa [Collector.inFlight] using member
    split at taken
    · rename_i empty
      rw [empty] at pending
      cases pending
    · split at taken
      · cases taken
        have ended : Done (MessageBroker.dies task broker.requests
            .runtimeError { broker with requests := [] }) future := by
          refine isDone_iff.mpr ((settleAll_keys _ _).mpr (.inr ?_))
          exact ⟨request, List.mem_append_left _ pending, same⟩
        exact (undone ended).elim
      · cases taken
        rw [remaining_of_found named found]
        have fetching : MessageBroker.remaining bots
            (MessageBroker.moves task
              (.fetching broker.requests (max 1 bots))
              { broker with requests := [] }) future =
            2 * max 1 bots := by
          refine (remaining_moves named _ []).trans ?_
          exact remaining_batch ⟨request, pending, same⟩
        rw [fetching]
        simp only [Collector.remaining, Collector.toSleep,
          Collector.inFlight, List.any_nil, Bool.false_eq_true, if_false]
        omega
  · cases taken

theorem remaining_getMessages (before : ¬broker.Done future)
    (issued : future < broker.issued.length) (ids : List Int)
    (cached : List (Option MessageResp)) :
    (broker.getMessages ids cached).remaining bots future ≤
      broker.remaining bots future := by
  unfold getMessages
  split
  · exact Nat.le_refl _
  · dsimp only
    split
    · rename_i idle
      have named : broker.task = none := by simpa using idle
      exact (before (orderly.done_of_idle named issued)).elim
    · exact Nat.le_refl _

theorem step_lowers {action : Action ε} {next : MessageBroker ε}
    (first : broker.RunsFirst action)
    (taken : broker.step bots action = some next)
    (issued : future < broker.issued.length) (undone : ¬next.Done future) :
    next.remaining bots future + (if action.collects then 1 else 0) ≤
      broker.remaining bots future := by
  have before : ¬broker.Done future := fun done =>
    undone ((step_keeps taken).2 future done)
  cases action with
  | getMessages ids cached =>
      cases taken
      exact remaining_getMessages orderly before issued ids cached
  | cancelWaiter other =>
      simp only [step] at taken
      split at taken
      · cases taken
        exact Nat.le_refl _
      · cases taken
  | start task =>
      simp only [step] at taken
      split at taken
      · rename_i found
        cases taken
        exact lowers_moves orderly found rfl (by simp [Collector.toSleep])
      · cases taken
  | flush task => exact lowers_flush orderly before taken issued undone
  | fetched task messages =>
      simp only [step] at taken
      split at taken
      · rename_i inFlight left found
        cases taken
        obtain ⟨least, _⟩ := orderly.turns task _ found
        exact lowers_completes (orderly.fetches (inFlight, messages)) found
          (by simp only [Collector.toSleep]; omega) issued undone
      · cases taken
  | fetchFails task error =>
      simp only [step] at taken
      split at taken
      · rename_i inFlight left found
        cases taken
        obtain ⟨least, _⟩ := orderly.turns task _ found
        exact lowers_moves orderly found rfl
          (by simp only [Collector.toSleep]; omega)
      · cases taken
  | named task =>
      simp only [step] at taken
      split at taken
      · rename_i inFlight left error found
        obtain ⟨least, _⟩ := orderly.turns task _ found
        split at taken
        · cases taken
          exact lowers_completes orderly found
            (by simp only [Collector.toSleep]; omega) issued undone
        · cases taken
          exact lowers_moves orderly found rfl
            (by simp only [Collector.toSleep]; omega)
      · cases taken
  | raises task error =>
      simp only [step] at taken
      split at taken
      · cases taken
        exact (undone (done_of_dies orderly ‹_› issued _)).elim
      · cases taken
        exact (undone (done_of_dies orderly ‹_› issued _)).elim
      · cases taken
  | cancelCollector task =>
      simp only [step] at taken
      split at taken
      · cases taken
      · rename_i found
        exact (first task rfl _ found rfl).elim
      · cases taken
        exact (undone (done_of_dies orderly ‹_› issued _)).elim

/-- As long as somebody waits, the steps of the collectors are few. -/
theorem run_lowers {actions : List (Action ε)} {later : MessageBroker ε}
    (guarded : Guarded (step bots) RunsFirst broker actions)
    (finished : run (step bots) broker actions = some later)
    (issued : future < broker.issued.length) (undone : ¬later.Done future) :
    (actions.filter Action.collects).length + later.remaining bots future ≤
      broker.remaining bots future := by
  have kept : ∀ (actions : List (Action ε)) (broker : MessageBroker ε),
      run (step bots) broker actions = some later →
        broker.Done future → later.Done future := by
    intro actions
    induction actions with
    | nil =>
        intro broker finished done
        cases finished
        exact done
    | cons action actions ih =>
        intro broker finished done
        obtain ⟨next, taken, rest⟩ := run_cons_eq_some finished
        exact ih next rest ((step_keeps taken).2 future done)
  induction actions generalizing broker with
  | nil =>
      cases finished
      simp
  | cons action actions ih =>
      obtain ⟨next, taken, rest⟩ := run_cons_eq_some finished
      have lower := step_lowers orderly guarded.1 taken issued
        fun done => undone (kept actions next rest done)
      have later_ := ih (orderly.step guarded.1 taken)
        (guarded.2 next taken) rest
        (Nat.lt_of_lt_of_le issued (step_keeps taken).1)
      rw [List.filter_cons]
      split at lower
      · rename_i collects
        rw [if_pos collects, List.length_cons]
        omega
      · rename_i other
        rw [if_neg other]
        omega

end Remaining

theorem Orderly.answersEveryone (orderly : Orderly bots broker) :
    broker.AnswersEveryone bots := by
  refine ⟨orderly.waiting, ?_, orderly.once, orderly.right, ?_⟩
  · intro task other first second found there
    have named := orderly.current task first found
    rw [orderly.current other second there] at named
    cases named
    rfl
  · intro actions later guarded finished enough future issued
    by_contra undone
    have bound := run_lowers orderly guarded finished issued undone
    have most : broker.remaining bots future ≤ 4 * max 1 bots + 1 := by
      unfold remaining
      cases named : broker.task with
      | none => simp
      | some task =>
          obtain ⟨collector, found⟩ := orderly.alive task named
          rw [Option.bind_some, found]
          exact Collector.remaining_le (orderly.turns task collector found) _
    omega

/-- A broker whose collectors are not cancelled before their first step answers
everyone. -/
theorem reachable_answersEveryone (bots : Nat) {broker : MessageBroker ε}
    (reachable : ReachableWithin (step bots) RunsFirst init broker) :
    broker.AnswersEveryone bots := by
  have orderly : Orderly bots broker :=
    reachable.invariant (fun _ _ _ holds allowed taken =>
      holds.step allowed taken) .init
  exact orderly.answersEveryone

/-- Two lookups, of which one is cancelled, and a bot that fails once. -/
def busyRun : List (Action String) :=
  [.getMessages [7, 8] [], .start 0, .getMessages [8] [none], .flush 0,
    .cancelWaiter 1, .fetchFails 0 "flood", .named 0,
    .fetched 0 [some ⟨8, "eight", none⟩, none]]

theorem busyRun_answersEveryone :
    ∃ broker : MessageBroker String,
      run (step 2) init busyRun = some broker ∧ broker.AnswersEveryone 2 ∧
        (broker.completed.map fun completion => completion.1) = [1, 0] := by
  have first : Guarded (step 2) RunsFirst (init : MessageBroker String)
      busyRun := by
    iterate 8
      refine ⟨fun _ absurd => (by cases absurd), ?_⟩
      rintro _ ⟨⟩
    trivial
  exact ⟨_, rfl, reachable_answersEveryone 2 ⟨busyRun, first, rfl⟩, rfl⟩

/-- There is a task, so none is started, but it is gone. -/
def Stranded (broker : MessageBroker ε) (future : Nat) : Prop :=
  ¬broker.Done future ∧ broker.task ≠ none ∧
    ∀ task, broker.collectors.get? task = none

theorem Stranded.step {next : MessageBroker ε}
    (stranded : broker.Stranded future) {action : Action ε}
    (patient : action ≠ .cancelWaiter future)
    (taken : broker.step bots action = some next) : next.Stranded future := by
  obtain ⟨undone, named, nobody⟩ := stranded
  cases action with
  | getMessages ids cached =>
      cases taken
      unfold getMessages
      split
      · exact ⟨undone, named, nobody⟩
      · dsimp only
        split
        · rename_i idle
          exact (named (by simpa using idle)).elim
        · exact ⟨undone, named, nobody⟩
  | cancelWaiter other =>
      simp only [MessageBroker.step] at taken
      split at taken
      · cases taken
        refine ⟨?_, named, nobody⟩
        intro done
        rcases (settleFuture_keys _ _ _).mp (isDone_iff.mp done) with
          before | same
        · exact undone (isDone_iff.mpr before)
        · exact patient (by rw [same])
      · cases taken
  | start task | flush task | named task | cancelCollector task =>
      simp [MessageBroker.step, nobody] at taken
  | fetched task messages =>
      simp [MessageBroker.step, nobody] at taken
  | fetchFails task error | raises task error =>
      simp [MessageBroker.step, nobody] at taken

theorem Stranded.run {later : MessageBroker ε}
    (stranded : broker.Stranded future) {actions : List (Action ε)}
    (patient : .cancelWaiter future ∉ actions)
    (finished : Lib.run (MessageBroker.step bots) broker actions =
      some later) : later.Stranded future := by
  induction actions generalizing broker with
  | nil =>
      cases finished
      exact stranded
  | cons action actions ih =>
      obtain ⟨next, taken, rest⟩ := run_cons_eq_some finished
      have here : action ≠ .cancelWaiter future := by
        rintro rfl
        exact patient List.mem_cons_self
      exact ih (stranded.step here taken)
        (fun later => patient (List.mem_cons_of_mem _ later)) rest

/-- The collector is cancelled before its first step, and the lookup that made
it is never answered. -/
theorem cancelled_first_strands :
    ∃ broker : MessageBroker String,
      run (step 1) init [.getMessages [7] [], .cancelCollector 0] =
        some broker ∧
      broker.issued = [[7]] ∧
      ∀ actions later, .cancelWaiter 0 ∉ actions →
        run (step 1) broker actions = some later → ¬later.Done 0 := by
  refine ⟨_, rfl, rfl, ?_⟩
  intro actions later patient finished
  refine (Stranded.run ⟨?_, ?_, ?_⟩ patient finished).1
  · intro done
    cases done
  · intro absurd
    cases absurd
  · intro task
    rfl

end MessageBroker

end Tgdcfs
