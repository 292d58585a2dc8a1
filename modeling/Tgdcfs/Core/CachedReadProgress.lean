import Tgdcfs.Core.CachedReadOutput

/-!
# A read through the cache to its end

Every step of the reader keeps what was yielded right and brings it nearer to
its end, as long as the entry stays while there are gaps to be read.
-/

namespace Tgdcfs

open Lib

variable {config : CacheConfig} {request : ReadRequest}

structure ReadInvariant (request : ReadRequest) (state : CachedRead) :
    Prop where
  ready : CacheReady request state.tasks.cache
  ok : PhaseOk request state.tasks.cache state.output state.phase

/-- The reader is where it should be and nearer to its end. -/
def Advanced (request : ReadRequest) (before after : CachedRead) : Prop :=
  ReadInvariant request after ∧
    after.phase.effort request < before.phase.effort request

/-- A layout may fail: bytes are still owed and a complete layout is left. -/
def LayoutStream.CanFail (stream : LayoutStream) : Prop :=
  stream.position ≤ stream.stop ∧
    ∃ layout ∈ stream.untried, layout.Complete

namespace CachedRead

/-- While the reader needs the entry, no other task drops or replaces it, and
the disk takes the blocks the reader files: a fill that fails drops the
entry. -/
def Undisturbed (config : CacheConfig) (request : ReadRequest)
    (state : CachedRead) : CacheReadAction → Prop
  | .other action =>
      state.phase.needsEntry request.end_ = true →
        ∀ tasks, cacheStep config state.tasks action = some tasks →
          Stays request.versionId state.tasks.cache tasks.cache
  | .storeFailed _ _ => state.phase.needsEntry request.end_ = false
  | _ => True

/-- The stores serve the read: a layout fails only while it may. -/
def StoresServe (state : CachedRead) : CacheReadAction → Prop
  | .layoutFails =>
      match state.phase with
      | .plain stream => stream.CanFail
      | .fetching fetch => fetch.stream.CanFail
      | _ => True
  | _ => True

def Steady (config : CacheConfig) (request : ReadRequest)
    (state : CachedRead) (action : CacheReadAction) : Prop :=
  Undisturbed config request state action ∧ StoresServe state action

end CachedRead

variable {state : CachedRead} {cache : LocalCache} {output : List UInt8}

variable {fetch : Fetch}

theorem FetchOk.afterRun (readable : Readable request)
    (ready : CacheReady request cache)
    (ok : FetchOk request cache output fetch)
    (passed : fetch.runEnd < fetch.stream.position) (now : Int) :
    ∃ next phase, request.afterRun cache now fetch = (next, phase) ∧
      CacheReady request next ∧ PhaseOk request next output phase ∧
      phase.effort request ≤
        runsEffort request (min fetch.runEnd request.end_ + 1)
          fetch.rest := by
  have reaches := ok.reaches
  have ordered := readable.ordered
  have bounded := ok.bounded
  apply follow_ok readable ready ok.blocks (by omega) (by omega)
  · rw [ok.output]
    congr 1
    omega
  · exact ok.plan.imp_right fun kept => kept.2

theorem FetchOk.continue_ (state : CachedRead) (readable : Readable request)
    (ready : CacheReady request cache)
    (ok : FetchOk request cache state.output fetch) (now : Int) :
    ReadInvariant request (state.continue_ request fetch cache now) ∧
      (state.continue_ request fetch cache now).phase.effort request ≤
        fetchEffort request fetch := by
  unfold CachedRead.continue_
  split
  · rename_i ended
    obtain ⟨next, phase, result, nextReady, nextOk, effort⟩ :=
      ok.afterRun readable ready (ok.ended ended) now
    rw [result]
    refine ⟨⟨nextReady, nextOk⟩, effort.trans ?_⟩
    unfold fetchEffort
    omega
  · rename_i running
    exact ⟨⟨ready, ok, by simpa using running⟩, le_rfl⟩

theorem FetchOk.grows {before after : LocalCache}
    {admits : String → Nat → Prop} (ok : FetchOk request before output fetch)
    (ready : CacheReady request before) (grows : Grows admits before after)
    (stays : cachedAhead request.end_ (min fetch.runEnd request.end_ + 1)
        fetch.rest = true → Stays request.versionId before after) :
    FetchOk request after output fetch :=
  { ok with plan := ok.plan.grows ready grows stays }

theorem FetchOk.claim (config : CacheConfig) (fetch : Fetch)
    (readable : Readable request)
    (ready : CacheReady request state.tasks.cache)
    (ok : FetchOk request state.tasks.cache state.output fetch)
    (begin_ : Nat) (data : List UInt8) (free : FreeSpace) (now : Int) :
    ReadInvariant request
        (state.claim config request fetch begin_ data free now) ∧
      (state.claim config request fetch begin_ data free now).phase.effort
          request ≤ fetchEffort request fetch + 1 := by
  have grows : Grows (fun _ _ => False) state.tasks.cache
      (state.tasks.cache.claimBlocks config request.versionId begin_ data
        free).1 :=
    .claimBlocks config ready.keyed request.versionId begin_ data free
  have stays : Stays request.versionId state.tasks.cache
      (state.tasks.cache.claimBlocks config request.versionId begin_ data
        free).1 :=
    .claimBlocks config ready.keyed begin_ data free
  have nextReady := ready.grows grows fun _ never => never.elim
  have nextOk := ok.grows ready grows fun _ => stays
  unfold CachedRead.claim
  dsimp only
  split
  · exact ⟨⟨nextReady, nextOk⟩, le_rfl⟩
  · obtain ⟨invariant, effort⟩ :=
      FetchOk.continue_ state readable nextReady nextOk now
    exact ⟨invariant, effort.trans (Nat.le_succ _)⟩

variable {offset : Nat} {rest : List (Nat × Nat)} {entry : CacheEntry}

theorem resume_ok (readable : Readable request)
    (ready : CacheReady request cache) {blockSize stop : Nat}
    (blocks : 0 < blockSize) (gap : stop + 1 = gapStop request.end_ rest)
    (found : cache.entry request.versionId = some entry)
    (yielded : output = request.served (stop + 1))
    (planned : entry.Planned request.begin_ request.end_ offset rest) :
    PhaseOk request cache output (request.resume blockSize rest) ∧
      (request.resume blockSize rest).effort request ≤
        resumeEffort request rest := by
  rw [gap] at yielded
  cases rest with
  | nil => exact ⟨yielded, le_rfl⟩
  | cons run rest =>
      obtain ⟨runBegin, runEnd⟩ := run
      obtain ⟨_, starts, runs, asked, reaches, within, continued⟩ := planned
      have whole := readable.ordered
      have sized := ready.sized entry found
      apply openFetch_ok readable blocks runs reaches (by omega)
      · rw [yielded, min_eq_left (by omega)]
        rfl
      · exact .of_planned found continued (by omega)

theorem planned_gap {stop : Nat}
    (planned : entry.Planned request.begin_ request.end_ offset rest)
    (gap : stop + 1 = gapStop request.end_ rest) :
    entry.OnDisk offset (stop + 1) ∧ stop ≤ request.end_ := by
  rw [gap]
  cases rest with
  | nil =>
      rw [gapStop] at gap
      exact ⟨planned, by omega⟩
  | cons run rest =>
      have asked := planned.2.2.2.1
      rw [gapStop] at gap
      exact ⟨planned.1, by omega⟩

theorem planned_advance {later stop : Nat}
    (planned : entry.Planned request.begin_ request.end_ offset rest)
    (gap : stop + 1 = gapStop request.end_ rest) (further : offset ≤ later)
    (inside : later ≤ stop) :
    entry.Planned request.begin_ request.end_ later rest := by
  cases rest with
  | nil => exact CacheEntry.OnDisk.mono planned further le_rfl
  | cons run rest =>
      rw [gapStop] at gap
      obtain ⟨onDisk, _, others⟩ := planned
      exact ⟨onDisk.mono further le_rfl, .inl (by omega), others⟩

theorem ReadInvariant.pread (readable : Readable request)
    (invariant : ReadInvariant request state) {stop blockSize : Nat}
    (here : state.phase = .reading offset stop blockSize rest)
    (holes : Nat → UInt8) :
    Advanced request state
      (state.pread request holes offset stop blockSize rest) := by
  have ok := invariant.ok
  rw [here] at ok
  obtain ⟨blocks, from_, ordered, gap, yielded, entry, found, planned⟩ := ok
  have sized := invariant.ready.sized entry found
  have length : 0 < min READ_CHUNK (stop + 1 - offset) := by
    have positive : 0 < READ_CHUNK := by decide
    omega
  obtain ⟨onDisk, asked⟩ := planned_gap planned gap
  have inside := readable.inside
  have bytes := preadBytes_eq sized holes
    (by omega : offset + min READ_CHUNK (stop + 1 - offset) ≤
      request.content.length)
    (onDisk.mono le_rfl (by omega))
  have count : (preadBytes entry request.content holes offset
      (min READ_CHUNK (stop + 1 - offset))).length =
        min READ_CHUNK (stop + 1 - offset) := by
    rw [bytes, List.length_take, List.length_drop]
    omega
  have continued := request.served_append from_
    (min READ_CHUNK (stop + 1 - offset))
  unfold CachedRead.pread
  rw [found]
  dsimp only
  rw [if_neg (by
    rw [List.isEmpty_iff, ← List.length_eq_zero_iff, count]
    omega), count, bytes, yielded, continued]
  have most : min READ_CHUNK (stop + 1 - offset) ≤ stop + 1 - offset :=
    min_le_right _ _
  generalize min READ_CHUNK (stop + 1 - offset) = size at *
  unfold Advanced
  rw [here]
  dsimp only
  split
  · rename_i more
    refine ⟨⟨invariant.ready, blocks, by omega, more, gap, rfl, entry, found,
      planned_advance planned gap (by omega) more⟩, ?_⟩
    dsimp only [ReadPhase.effort]
    omega
  · rename_i last
    have whole : offset + size = stop + 1 := by omega
    rw [whole]
    obtain ⟨ok, effort⟩ := resume_ok readable invariant.ready blocks gap
      found rfl planned
    refine ⟨⟨invariant.ready, ok⟩, lt_of_le_of_lt effort ?_⟩
    dsimp only [ReadPhase.effort]
    omega

variable {stream : LayoutStream}

theorem ReadInvariant.plainChunk (invariant : ReadInvariant request state)
    (here : state.phase = .plain stream) {count : Nat} (positive : 0 < count)
    (available : count ≤ stream.remaining.length) :
    Advanced request state
      { state with
        output := state.output ++ stream.remaining.take count
        phase := .plain (stream.take count) } := by
  have ok := invariant.ok
  rw [here] at ok
  obtain ⟨serves, stop, from_, bounded, yielded⟩ := ok
  have left := serves.bounded
  unfold Advanced
  rw [here]
  refine ⟨⟨invariant.ready, serves.take available, stop, ?_, ?_, ?_⟩, ?_⟩
  · dsimp only [LayoutStream.take]
    omega
  · dsimp only [LayoutStream.take]
    omega
  · dsimp only [LayoutStream.take]
    rw [yielded, serves.chunk available, request.served_append from_]
  · dsimp only [ReadPhase.effort, LayoutStream.take]
    omega

theorem ReadInvariant.fetchChunk (readable : Readable request)
    (invariant : ReadInvariant request state)
    (here : state.phase = .fetching fetch) {count : Nat} (positive : 0 < count)
    (available : count ≤ fetch.stream.remaining.length) :
    Advanced request state
      { state with
        output := state.output ++
          clip request.begin_ request.end_ fetch.stream.position
            (fetch.stream.remaining.take count)
        phase := .fetching
          { fetch with
            stream := fetch.stream.take count
            block := fetch.block ++ fetch.stream.remaining.take count } } := by
  have ok := invariant.ok
  rw [here] at ok
  obtain ⟨ok, running⟩ := ok
  have left := ok.serves.bounded
  have stop := ok.stop
  have inside := ok.serves.inside
  have taken : (fetch.stream.remaining.take count).length = count := by
    rw [List.length_take, min_eq_left available]
  unfold Advanced
  rw [here]
  refine ⟨⟨invariant.ready, ⟨ok.serves.take available, stop, ?_, ok.reaches,
    ok.blocks, ?_, ?_, ok.plan⟩, running⟩, ?_⟩
  · dsimp only [LayoutStream.take]
    omega
  · intro ended
    dsimp only at ended
    rw [running] at ended
    cases ended
  · dsimp only [LayoutStream.take]
    rw [ok.output, ok.serves.chunk available]
    exact clip_served request readable.ordered (by omega)
  · dsimp only [ReadPhase.effort, fetchEffort, LayoutStream.take]
    rw [List.length_append, taken]
    omega

theorem ReadInvariant.plainFails (invariant : ReadInvariant request state)
    (here : state.phase = .plain stream) (canFail : stream.CanFail) :
    Advanced request state
      { state with
        phase :=
          match stream.failOver request.content with
          | none => .failed .stores
          | some next => .plain next } := by
  have ok := invariant.ok
  rw [here] at ok
  obtain ⟨serves, stop, from_, bounded, yielded⟩ := ok
  obtain ⟨next, opened, nextServes, position, nextStop⟩ :=
    serves.failOver canFail.1 canFail.2
  have shorter := openNext_untried opened
  unfold Advanced
  rw [here, opened]
  refine ⟨⟨invariant.ready, nextServes, nextStop.trans stop, ?_, ?_, ?_⟩,
    ?_⟩
  · omega
  · omega
  · rw [position]
    exact yielded
  · dsimp only [ReadPhase.effort]
    omega

theorem ReadInvariant.fetchFails (invariant : ReadInvariant request state)
    (here : state.phase = .fetching fetch) (canFail : fetch.stream.CanFail) :
    Advanced request state
      { state with
        phase :=
          match fetch.stream.failOver request.content with
          | none => .failed .stores
          | some next => .fetching { fetch with stream := next } } := by
  have ok := invariant.ok
  rw [here] at ok
  obtain ⟨ok, running⟩ := ok
  obtain ⟨next, opened, serves, position, stop⟩ :=
    ok.serves.failOver canFail.1 canFail.2
  have shorter := openNext_untried opened
  have bounded := ok.bounded
  unfold Advanced
  rw [here, opened]
  refine ⟨⟨invariant.ready, ⟨serves, stop.trans ok.stop, ?_, ok.reaches,
    ok.blocks, ?_, ?_, ok.plan⟩, running⟩, ?_⟩
  · dsimp only
    omega
  · intro ended
    dsimp only at ended
    rw [running] at ended
    cases ended
  · dsimp only
    rw [position]
    exact ok.output
  · dsimp only [ReadPhase.effort, fetchEffort]
    omega

theorem ReadInvariant.store (readable : Readable request)
    (invariant : ReadInvariant request state)
    (here : state.phase = .fetching fetch)
    (full : fetch.blockSize ≤ fetch.block.length) (free : FreeSpace) :
    Advanced request state
      (state.claim config request
        { fetch with
          block := fetch.block.drop fetch.blockSize
          blockBegin := fetch.blockBegin + fetch.blockSize }
        fetch.blockBegin (fetch.block.take fetch.blockSize) free 0) := by
  have ok := invariant.ok
  rw [here] at ok
  obtain ⟨ok, running⟩ := ok
  have blocks := ok.blocks
  obtain ⟨next, effort⟩ := FetchOk.claim config
    { fetch with
      block := fetch.block.drop fetch.blockSize
      blockBegin := fetch.blockBegin + fetch.blockSize }
    readable invariant.ready { ok with } fetch.blockBegin
    (fetch.block.take fetch.blockSize) free 0
  refine ⟨next, lt_of_le_of_lt effort ?_⟩
  rw [here]
  dsimp only [ReadPhase.effort, fetchEffort]
  rw [List.length_drop]
  omega

theorem ReadInvariant.finishRun (readable : Readable request)
    (invariant : ReadInvariant request state)
    (here : state.phase = .fetching fetch) (ended : fetch.stream.ended = true)
    (now : Int) :
    Advanced request state
      (state.move (request.afterRun state.tasks.cache now fetch)) := by
  have ok := invariant.ok
  rw [here] at ok
  obtain ⟨ok, running⟩ := ok
  have passed := ok.serves.finished ended
  rw [ok.stop] at passed
  obtain ⟨next, phase, result, ready, nextOk, effort⟩ :=
    ok.afterRun readable invariant.ready passed now
  rw [result]
  refine ⟨⟨ready, nextOk⟩, lt_of_le_of_lt effort ?_⟩
  rw [here]
  dsimp only [ReadPhase.effort, fetchEffort]
  omega

theorem ReadInvariant.plainEnds (invariant : ReadInvariant request state)
    (here : state.phase = .plain stream) (ended : stream.ended = true) :
    Advanced request state { state with phase := .done } := by
  have ok := invariant.ok
  rw [here] at ok
  obtain ⟨serves, stop, from_, bounded, yielded⟩ := ok
  have passed := serves.finished ended
  unfold Advanced
  rw [here]
  refine ⟨⟨invariant.ready, ?_⟩, Nat.succ_pos _⟩
  have last : stream.position = request.end_ + 1 := by omega
  rw [last] at yielded
  exact yielded

theorem ReadInvariant.finishBlock (readable : Readable request)
    (invariant : ReadInvariant request state)
    (here : state.phase = .fetching fetch) (ended : fetch.stream.ended = true)
    (filled : fetch.block ≠ []) (free : FreeSpace) (now : Int) :
    Advanced request state
      (state.claim config request
        { fetch with block := [], ended := true } fetch.blockBegin
        fetch.block free now) := by
  have ok := invariant.ok
  rw [here] at ok
  obtain ⟨ok, running⟩ := ok
  have passed := ok.serves.finished ended
  rw [ok.stop] at passed
  have positive := List.length_pos_of_ne_nil filled
  obtain ⟨next, effort⟩ := FetchOk.claim config
    { fetch with block := [], ended := true } readable invariant.ready
    { ok with ended := fun _ => passed } fetch.blockBegin fetch.block free now
  refine ⟨next, lt_of_le_of_lt effort ?_⟩
  rw [here]
  dsimp only [ReadPhase.effort, fetchEffort]
  rw [List.length_nil]
  omega

theorem ReadInvariant.stored (readable : Readable request)
    (invariant : ReadInvariant request state) {fill : Fill}
    (here : state.phase = .filling fetch fill) {after : LocalCache}
    (grows : Grows (fun _ _ => False) state.tasks.cache after)
    (stays : state.phase.needsEntry request.end_ = true →
      Stays request.versionId state.tasks.cache after) (now : Int) :
    Advanced request state (state.continue_ request fetch after now) := by
  have ok := invariant.ok
  rw [here] at ok stays
  have ready := invariant.ready.grows grows fun _ never => never.elim
  obtain ⟨next, effort⟩ := FetchOk.continue_ state readable ready
    (FetchOk.grows ok invariant.ready grows stays) now
  refine ⟨next, lt_of_le_of_lt effort ?_⟩
  rw [here]
  exact Nat.lt_succ_self _

theorem ReadInvariant.other (invariant : ReadInvariant request state)
    {action : CacheAction} (sizes : request.sizes action = true)
    {tasks : CacheState}
    (taken : cacheStep config state.tasks action = some tasks)
    (stays : state.phase.needsEntry request.end_ = true →
      Stays request.versionId state.tasks.cache tasks.cache) :
    ReadInvariant request { state with tasks := tasks } := by
  have grows := cacheStep_grows invariant.ready.keyed taken
  refine ⟨invariant.ready.grows grows ?_,
    invariant.ok.grows invariant.ready grows stays⟩
  intro size admitted
  cases action with
  | openStaging fs versionId bytes now free refused =>
      obtain ⟨rfl, rfl⟩ := admitted
      simp only [ReadRequest.sizes, ne_eq, not_true_eq_false, decide_false,
        Bool.false_or, decide_eq_true_eq] at sizes
      rw [sizes]
      rfl
  | reserve fs versionId bytes now free refused =>
      obtain ⟨rfl, rfl⟩ := admitted
      simp only [ReadRequest.sizes, ne_eq, not_true_eq_false, decide_false,
        Bool.false_or, decide_eq_true_eq] at sizes
      rw [sizes]
      rfl
  | _ => exact admitted.elim

theorem Readable.size_eq (readable : Readable request) :
    request.size = request.content.length := by
  obtain ⟨sized, layout, member, _⟩ := readable.servable
  unfold ReadRequest.size
  cases layouts : request.layouts with
  | nil =>
      rw [layouts] at member
      cases member
  | cons first rest =>
      rw [layouts] at sized
      exact sized first List.mem_cons_self

theorem follow_entry (readable : Readable request)
    (ready : CacheReady request cache)
    (found : cache.entry request.versionId = some entry)
    (empty : state.output = []) (now : Int) :
    ReadInvariant request (state.move
      (request.follow cache now entry.blockSize request.begin_
        (entry.missingRuns request.begin_ request.end_))) := by
  have ordered := readable.ordered
  have inside : request.end_ < entry.size := by
    rw [ready.sized entry found]
    exact readable.inside
  have planned := CacheEntry.missingRuns_planned ordered inside
  have begun : state.output = request.served request.begin_ := by
    rw [empty, request.served_of_le le_rfl]
  obtain ⟨next, phase, result, nextReady, ok, _⟩ :=
    follow_ok readable ready entry.blockSize_pos le_rfl (by omega) begun
      (.inr ⟨entry, found, planned⟩)
  rw [result]
  exact ⟨nextReady, ok⟩

theorem reserve_filed {config : CacheConfig} {cache : LocalCache}
    {fs versionId : String} {size now : Int} {free : FreeSpace}
    {refused : Option FileKind}
    (admitted : (cache.reserve config fs versionId size now free
      refused).2 = some entry) :
    (cache.reserve config fs versionId size now free refused).1.entry
      versionId = some entry := by
  unfold LocalCache.reserve at admitted ⊢
  split at admitted
  · cases admitted
  · rename_i enabled
    rw [if_neg enabled]
    exact (CacheInvariant.admitEntry_filed admitted).1

theorem ReadInvariant.start (readable : Readable request)
    (invariant : ReadInvariant request state) (here : state.phase = .idle)
    (now : Int) (free : FreeSpace) (refused : Option FileKind) :
    ReadInvariant request (state.start config request now free refused) := by
  have ready := invariant.ready
  have empty : state.output = [] := by
    have ok := invariant.ok
    rw [here] at ok
    exact ok
  unfold CachedRead.start
  dsimp only
  cases found : state.tasks.cache.entry request.versionId with
  | some entry => exact follow_entry readable ready found empty now
  | none =>
      dsimp only
      split
      · have grows : Grows (fun versionId size =>
            versionId = request.versionId ∧ size = request.content.length)
            state.tasks.cache
            (state.tasks.cache.reserve config request.scope
              request.versionId request.size now free refused).1 := by
          apply Grows.reserve config ready.keyed
          exact ⟨rfl, readable.size_eq⟩
        have reserved := ready.grows grows fun _ sized => sized.2
        cases admitted : (state.tasks.cache.reserve config request.scope
            request.versionId request.size now free refused).2 with
        | some entry =>
            exact follow_entry readable reserved (reserve_filed admitted)
              empty now
        | none => exact ⟨reserved, openPlain_ok readable empty⟩
      · exact ⟨ready, openPlain_ok readable empty⟩

def CacheReadAction.ofReader : CacheReadAction → Bool
  | .other _ => false
  | _ => true

variable {action : CacheReadAction} {after : CachedRead}

/-- Every steady step of the reader advances it, and the steps of the other
tasks leave it where it is. -/
theorem ReadInvariant.step (readable : Readable request)
    (invariant : ReadInvariant request state) (begun : state.phase ≠ .idle)
    (steady : state.Steady config request action)
    (taken : state.step config request action = some after) :
    ReadInvariant request after ∧
      after.phase.effort request + (if action.ofReader then 1 else 0) ≤
        state.phase.effort request := by
  obtain ⟨undisturbed, serve⟩ := steady
  unfold CachedRead.step at taken
  split at taken
  · split at taken
    · rename_i sizes
      obtain ⟨tasks, moved, rfl⟩ := Option.map_eq_some_iff.mp taken
      exact ⟨invariant.other sizes moved fun needed =>
        undisturbed needed tasks moved, le_rfl⟩
    · cases taken
  · rename_i idle
    exact (begun idle).elim
  · rename_i here
    cases taken
    exact invariant.pread readable here _
  · rename_i here
    split at taken
    · rename_i bounds
      cases taken
      exact invariant.plainChunk here bounds.1 bounds.2
    · cases taken
  · rename_i here
    split at taken
    · rename_i bounds
      cases taken
      exact invariant.fetchChunk readable here bounds.1 bounds.2.1
    · cases taken
  · rename_i here
    cases taken
    dsimp only [CachedRead.StoresServe] at serve
    rw [here] at serve
    exact invariant.plainFails here serve
  · rename_i here
    split at taken
    · cases taken
      dsimp only [CachedRead.StoresServe] at serve
      rw [here] at serve
      exact invariant.fetchFails here serve
    · cases taken
  · rename_i here
    split at taken
    · rename_i full
      cases taken
      exact invariant.store readable here full _
    · cases taken
  · rename_i here
    cases taken
    exact invariant.stored readable here (.commitBlocks _ _ _)
      (fun _ => .commitBlocks _ _ _) _
  · rename_i here
    cases taken
    apply invariant.stored readable here (.failBlocks _ _ _)
    intro needed
    rw [undisturbed] at needed
    cases needed
  · rename_i here
    split at taken
    · rename_i ended
      cases taken
      exact invariant.plainEnds here ended
    · cases taken
  · rename_i here
    split at taken
    · rename_i ended
      split at taken
      · rename_i short
        cases taken
        exact invariant.finishBlock readable here ended.1 short.1 _ _
      · cases taken
        exact invariant.finishRun readable here ended.1 _
    · cases taken
  · cases taken

theorem ReadRequest.openFetch_begun (blockSize runBegin runEnd : Nat)
    (rest : List (Nat × Nat)) :
    request.openFetch blockSize runBegin runEnd rest ≠ .idle := by
  unfold ReadRequest.openFetch
  split
  · simp
  · simp

theorem ReadRequest.openRead_begun (cache : LocalCache) (now : Int)
    (blockSize position stop : Nat) (rest : List (Nat × Nat)) :
    (request.openRead cache now blockSize position stop rest).2 ≠ .idle := by
  unfold ReadRequest.openRead
  split
  · simp
  · rename_i entry _
    dsimp only
    generalize (if entry.size ≤ stop then entry.size - 1 else stop) = last
    split
    · simp
    · simp

theorem ReadRequest.follow_begun (cache : LocalCache) (now : Int)
    (blockSize position : Nat) (rest : List (Nat × Nat)) :
    (request.follow cache now blockSize position rest).2 ≠ .idle := by
  cases rest with
  | nil =>
      rw [ReadRequest.follow]
      split
      · exact request.openRead_begun _ _ _ _ _ _
      · simp
  | cons run rest =>
      rw [ReadRequest.follow]
      split
      · exact request.openRead_begun _ _ _ _ _ _
      · exact request.openFetch_begun _ _ _ _

theorem ReadRequest.resume_begun (blockSize : Nat)
    (rest : List (Nat × Nat)) : request.resume blockSize rest ≠ .idle := by
  cases rest with
  | nil => simp [ReadRequest.resume]
  | cons run rest => exact request.openFetch_begun _ _ _ _

theorem CachedRead.continue_begun (fetch : Fetch) (cache : LocalCache)
    (now : Int) : (state.continue_ request fetch cache now).phase ≠ .idle := by
  unfold CachedRead.continue_
  split
  · exact request.follow_begun _ _ _ _ _
  · simp [CachedRead.move]

theorem CachedRead.claim_begun (fetch : Fetch) (begin_ : Nat)
    (data : List UInt8) (free : FreeSpace) (now : Int) :
    (state.claim config request fetch begin_ data free now).phase ≠
      .idle := by
  unfold CachedRead.claim
  dsimp only
  split
  · simp [CachedRead.move]
  · exact CachedRead.continue_begun fetch _ now

theorem CachedRead.step_begun (begun : state.phase ≠ .idle)
    (taken : state.step config request action = some after) :
    after.phase ≠ .idle := by
  unfold CachedRead.step at taken
  split at taken
  · split at taken
    · obtain ⟨tasks, _, rfl⟩ := Option.map_eq_some_iff.mp taken
      exact begun
    · cases taken
  · rename_i idle
    exact (begun idle).elim
  · cases taken
    unfold CachedRead.pread
    split
    · simp
    · dsimp only
      split
      · simp
      · dsimp only
        split
        · simp
        · exact request.resume_begun _ _
  · split at taken <;> cases taken
    simp
  · split at taken <;> cases taken
    simp
  · cases taken
    dsimp only
    split <;> simp
  · split at taken <;> cases taken
    dsimp only
    split <;> simp
  · split at taken <;> cases taken
    exact CachedRead.claim_begun _ _ _ _ _
  · cases taken
    exact CachedRead.continue_begun _ _ _
  · cases taken
    exact CachedRead.continue_begun _ _ _
  · split at taken <;> cases taken
    simp
  · split at taken
    · split at taken
      · cases taken
        exact CachedRead.claim_begun _ _ _ _ _
      · cases taken
        exact request.follow_begun _ _ _ _ _
    · cases taken
  · cases taken

theorem ReadInvariant.enabled (config : CacheConfig)
    (invariant : ReadInvariant request state)
    (unfinished : state.phase ≠ .done) :
    ∃ action : CacheReadAction, action.ofReader = true ∧
      state.Steady config request action ∧
      (state.step config request action).isSome = true := by
  have ok := invariant.ok
  cases here : state.phase with
  | idle =>
      refine ⟨.start 0 (fun _ => none) none, rfl, ⟨trivial, trivial⟩, ?_⟩
      simp [CachedRead.step, here]
  | plain stream =>
      rw [here] at ok
      by_cases empty : stream.remaining = []
      · by_cases ended : stream.ended = true
        · refine ⟨.finish 0 fun _ => none, rfl, ⟨trivial, trivial⟩, ?_⟩
          simp [CachedRead.step, here, ended]
        · have stuck := ok.1.stuck empty (by simpa using ended)
          refine ⟨.layoutFails, rfl, ⟨trivial, ?_⟩, ?_⟩
          · rw [CachedRead.StoresServe, here]
            exact stuck
          · simp [CachedRead.step, here]
      · have filled := List.length_pos_of_ne_nil empty
        refine ⟨.chunk 1, rfl, ⟨trivial, trivial⟩, ?_⟩
        simp only [CachedRead.step, here]
        rw [if_pos ⟨Nat.one_pos, filled⟩]
        rfl
  | reading offset stop blockSize rest =>
      refine ⟨.pread fun _ => 0, rfl, ⟨trivial, trivial⟩, ?_⟩
      simp [CachedRead.step, here]
  | fetching fetch =>
      rw [here] at ok
      by_cases full : fetch.blockSize ≤ fetch.block.length
      · refine ⟨.store fun _ => none, rfl, ⟨trivial, trivial⟩, ?_⟩
        simp [CachedRead.step, here, full]
      · have room := Nat.lt_of_not_le full
        by_cases empty : fetch.stream.remaining = []
        · by_cases ended : fetch.stream.ended = true
          · refine ⟨.finish 0 fun _ => none, rfl, ⟨trivial, trivial⟩, ?_⟩
            simp only [CachedRead.step, here]
            rw [if_pos ⟨ended, room⟩]
            split
            · rfl
            · rfl
          · have stuck := ok.1.serves.stuck empty (by simpa using ended)
            refine ⟨.layoutFails, rfl, ⟨trivial, ?_⟩, ?_⟩
            · rw [CachedRead.StoresServe, here]
              exact stuck
            · simp [CachedRead.step, here, room]
        · have filled := List.length_pos_of_ne_nil empty
          refine ⟨.chunk 1, rfl, ⟨trivial, trivial⟩, ?_⟩
          simp only [CachedRead.step, here]
          rw [if_pos ⟨Nat.one_pos, filled, room⟩]
          rfl
  | filling fetch fill =>
      refine ⟨.stored 0, rfl, ⟨trivial, trivial⟩, ?_⟩
      simp [CachedRead.step, here]
  | done => exact (unfinished here).elim
  | failed error =>
      rw [here] at ok
      exact ok.elim

/-- The stream was created over a cache whose entry of the version, if there
is one, has its size. -/
structure CachedRead.Begins (request : ReadRequest) (state : CachedRead) :
    Prop where
  idle : state.phase = .idle
  empty : state.output = []
  ready : CacheReady request state.tasks.cache

theorem CachedRead.Begins.invariant (begins : state.Begins request) :
    ReadInvariant request state := by
  refine ⟨begins.ready, ?_⟩
  rw [begins.idle]
  exact begins.empty

/-- Before the stream starts, only its start concerns the reader. -/
theorem ReadInvariant.idleStep (readable : Readable request)
    (invariant : ReadInvariant request state) (idle : state.phase = .idle)
    (steady : state.Steady config request action)
    (taken : state.step config request action = some after) :
    ReadInvariant request after := by
  cases action with
  | other action =>
      simp only [CachedRead.step] at taken
      split at taken
      · rename_i sizes
        obtain ⟨tasks, moved, rfl⟩ := Option.map_eq_some_iff.mp taken
        exact invariant.other sizes moved fun needed =>
          steady.1 needed tasks moved
      · cases taken
  | start now free refused =>
      simp only [CachedRead.step, idle, Option.some.injEq] at taken
      rw [← taken]
      exact invariant.start readable idle now free refused
  | _ => simp [CachedRead.step, idle] at taken

theorem ReadInvariant.reached (readable : Readable request)
    {start : CachedRead} (begins : start.Begins request)
    (reached : ReachableWithin (CachedRead.step config request)
      (CachedRead.Steady config request) start state) :
    ReadInvariant request state := by
  have kept : ∀ (before : CachedRead) action after,
      ReadInvariant request before →
      before.Steady config request action →
        before.step config request action = some after →
          ReadInvariant request after := by
    intro before action after invariant steady taken
    by_cases begun : before.phase = .idle
    · exact invariant.idleStep readable begun steady taken
    · exact (invariant.step readable begun steady taken).1
  exact reached.invariant kept begins.invariant

theorem ReadInvariant.output_isPrefix
    (invariant : ReadInvariant request state) :
    state.output <+:
      byteRange request.content request.begin_ request.end_ := by
  have ok := invariant.ok
  cases here : state.phase with
  | idle =>
      rw [here] at ok
      rw [show state.output = [] from ok]
      exact List.nil_prefix
  | plain stream =>
      rw [here] at ok
      obtain ⟨_, _, _, bounded, yielded⟩ := ok
      rw [yielded]
      exact request.served_isPrefix bounded
  | reading offset stop blockSize rest =>
      rw [here] at ok
      obtain ⟨_, _, ordered, gap, yielded, _, _, planned⟩ := ok
      have asked := (planned_gap planned gap).2
      rw [yielded]
      exact request.served_isPrefix (by omega)
  | fetching fetch =>
      rw [here] at ok
      rw [ok.1.output]
      exact request.served_isPrefix (min_le_right _ _)
  | filling fetch fill =>
      rw [here] at ok
      rw [FetchOk.output ok]
      exact request.served_isPrefix (min_le_right _ _)
  | done =>
      rw [here] at ok
      rw [show state.output = request.served (request.end_ + 1) from ok]
      exact request.served_isPrefix le_rfl
  | failed error =>
      rw [here] at ok
      exact ok.elim

/-- As long as the entry of the version stays in the cache while the reader
has gaps to read, and the stores serve it, a read through the cache yields
what the layouts alone yield: it never fails, what it has yielded is right,
it ends with the whole range, and it comes to its end in a bounded number of
its own steps. -/
theorem cachedRead_refines (config : CacheConfig) (request : ReadRequest)
    (readable : Readable request) (start state : CachedRead)
    (begins : start.Begins request)
    (reached : ReachableWithin (CachedRead.step config request)
      (CachedRead.Steady config request) start state) :
    ∃ plain, streamLayouts request.content request.layouts request.begin_
        request.end_ = some plain ∧
      (∀ error, state.phase ≠ .failed error) ∧ state.output <+: plain ∧
      (state.phase = .done → state.output = plain) ∧
      (state.phase ≠ .done → ∃ action : CacheReadAction,
        action.ofReader = true ∧ state.Steady config request action ∧
          (state.step config request action).isSome = true) ∧
      (state.phase ≠ .idle → ∃ bound, ∀ actions later,
        Guarded (CachedRead.step config request)
            (CachedRead.Steady config request) state actions →
          run (CachedRead.step config request) state actions = some later →
            (actions.filter CacheReadAction.ofReader).length ≤ bound) := by
  have invariant := ReadInvariant.reached readable begins reached
  refine ⟨_, streamLayouts_eq readable.servable readable.ordered
    readable.inside, ?_, invariant.output_isPrefix, ?_,
    fun unfinished => invariant.enabled config unfinished, ?_⟩
  · intro error here
    have ok := invariant.ok
    rw [here] at ok
    exact ok
  · intro here
    have ok := invariant.ok
    rw [here] at ok
    exact ok
  · intro begun
    refine ⟨state.phase.effort request, ?_⟩
    intro actions later guarded finished
    have lowered : ∀ (before : CachedRead) action after,
        (ReadInvariant request before ∧ before.phase ≠ .idle) →
        before.Steady config request action →
          before.step config request action = some after →
            (ReadInvariant request after ∧ after.phase ≠ .idle) ∧
              after.phase.effort request +
                  (if action.ofReader then 1 else 0) ≤
                before.phase.effort request := by
      intro before action after holds steady taken
      obtain ⟨next, lower⟩ := holds.1.step readable holds.2 steady taken
      exact ⟨⟨next, CachedRead.step_begun holds.2 taken⟩, lower⟩
    have bound := run_count_le lowered ⟨invariant, begun⟩ guarded finished
    omega

/-- Three blocks of a kilobyte in two messages. -/
def threeBlocksRead : ReadRequest :=
  { versionId := "v"
    scope := "fs"
    content := List.replicate 1024 1 ++ List.replicate 1024 2 ++
      List.replicate 452 3
    layouts :=
      [⟨[1500, 1000], [[("primary", 10)], [("primary", 11)]], "primary"⟩]
    begin_ := 500
    end_ := 2400
    admits := true }

theorem threeBlocksRead_readable : Readable threeBlocksRead := by
  have length : threeBlocksRead.content.length = 2500 := by
    simp only [threeBlocksRead, List.length_append, List.length_replicate]
  refine ⟨by decide, ?_, ?_, ?_⟩
  · rw [length]
    decide
  · intro layout member
    rw [length, List.mem_singleton.mp member]
    rfl
  · exact ⟨_, List.mem_cons_self, rfl, by decide⟩

def kilobyteConfig : CacheConfig :=
  ⟨true, 1, 4, 0, 1, true, 0, 0, 100, by decide⟩

/-- Nothing is cached yet. -/
def emptyStart : CachedRead := ⟨CacheState.initial, .idle, []⟩

theorem emptyStart_begins (request : ReadRequest) :
    emptyStart.Begins request := by
  refine ⟨rfl, rfl, ?_, ?_, ?_⟩
  · intro versionId entry found
    cases found
  · intro versionId entry found
    cases found
  · intro entry found
    cases found

/-- A block is fetched and stored, and the entry is dropped while the rest is
on the way. -/
def fetchThreeBlocks : List CacheReadAction :=
  [.start 0 (fun _ => none) none, .chunk 1100, .store fun _ => none,
    .stored 1, .other (.remove "v"), .chunk 1400, .store fun _ => none,
    .finish 2 fun _ => none]

set_option maxRecDepth 20000 in
theorem cachedRead_refines_blocks :
    ∃ state, run (CachedRead.step kilobyteConfig threeBlocksRead) emptyStart
        fetchThreeBlocks = some state ∧ state.phase = .done ∧
      streamLayouts threeBlocksRead.content threeBlocksRead.layouts 500 2400 =
        some state.output := by
  obtain ⟨state, ran⟩ : ∃ state, run
      (CachedRead.step kilobyteConfig threeBlocksRead) emptyStart
        fetchThreeBlocks = some state := ⟨_, rfl⟩
  have phase : (run (CachedRead.step kilobyteConfig threeBlocksRead)
      emptyStart fetchThreeBlocks).map CachedRead.phase = some .done := rfl
  rw [ran] at phase
  have last : state.phase = .done := Option.some.inj phase
  have guarded : Guarded (CachedRead.step kilobyteConfig threeBlocksRead)
      (CachedRead.Steady kilobyteConfig threeBlocksRead) emptyStart
        fetchThreeBlocks := by
    iterate 4
      refine ⟨⟨trivial, trivial⟩, ?_⟩
      rintro _ ⟨⟩
    refine ⟨⟨fun needed => (by cases needed), trivial⟩, ?_⟩
    rintro dropped ⟨⟩
    iterate 3
      refine ⟨⟨trivial, trivial⟩, ?_⟩
      rintro _ ⟨⟩
    trivial
  obtain ⟨plain, served, _, _, done, _⟩ :=
    cachedRead_refines kilobyteConfig threeBlocksRead threeBlocksRead_readable
      emptyStart state (emptyStart_begins _) ⟨fetchThreeBlocks, guarded, ran⟩
  refine ⟨state, ran, last, ?_⟩
  rw [done last]
  exact served

/-- One byte in one message. -/
def oneByteRead : ReadRequest :=
  { versionId := "v"
    scope := "fs"
    content := [5]
    layouts := [⟨[1], [[("primary", 10)]], "primary"⟩]
    begin_ := 0
    end_ := 0
    admits := true }

/-- The version is staged, the reader finds it on disk, and the entry is
dropped before the disk is read. -/
def dropBeforeRead : List CacheReadAction :=
  [.other (.openStaging "fs" "v" 1 0 (fun _ => none) none),
    .other (.write 0 [5]), .other (.finish 0),
    .start 0 (fun _ => none) none, .other (.remove "v"),
    .pread fun _ => 0]

theorem cachedRead_fails :
    ∃ state, run (CachedRead.step kilobyteConfig oneByteRead) emptyStart
        dropBeforeRead = some state ∧
      state.phase = .failed .noFile ∧ state.output = [] ∧
      streamLayouts [5] oneByteRead.layouts 0 0 = some [5] :=
  ⟨_, rfl, rfl, rfl, rfl⟩

end Tgdcfs
