import Tgdcfs.Core.CachedRead

/-!
# What a read through the cache yields

A reader that finds the entry it planned with whenever it turns to the disk
hands out the bytes of the range, in order and once, and comes to its end.
-/

namespace Tgdcfs

open Lib

namespace ReadRequest

variable (request : ReadRequest)

/-- The requested bytes before `position`. -/
def served (position : Nat) : List UInt8 :=
  (request.content.drop request.begin_).take (position - request.begin_)

theorem served_of_le {position : Nat} (early : position ≤ request.begin_) :
    request.served position = [] := by
  rw [served, Nat.sub_eq_zero_of_le early, List.take_zero]

theorem served_append {position : Nat} (from_ : request.begin_ ≤ position)
    (count : Nat) :
    request.served position ++
        (request.content.drop position).take count =
      request.served (position + count) := by
  have joined := take_drop_append request.content request.begin_
    (position - request.begin_) count
  rw [Nat.add_sub_cancel' from_] at joined
  rw [served, joined, served]
  congr 1
  omega

theorem served_end :
    request.served (request.end_ + 1) =
      byteRange request.content request.begin_ request.end_ :=
  rfl

theorem served_isPrefix {position : Nat} (bounded : position ≤ request.end_ + 1) :
    request.served position <+:
      byteRange request.content request.begin_ request.end_ := by
  rw [← served_end]
  exact List.take_prefix_take_left (by omega)

end ReadRequest

theorem getD_range_map (content : List UInt8) {offset length : Nat}
    (inside : offset + length ≤ content.length) :
    (List.range' offset length).map (content.getD · 0) =
      (content.drop offset).take length := by
  apply List.ext_getElem
  · rw [List.length_map, List.length_range', List.length_take,
      List.length_drop]
    omega
  · intro index left right
    rw [List.getElem_map, List.getElem_range', List.getElem_take,
      List.getElem_drop, Nat.one_mul]
    rw [List.length_map, List.length_range'] at left
    have here : offset + index < content.length := by omega
    rw [List.getD_eq_getElem?_getD, List.getElem?_eq_getElem here,
      Option.getD_some]

variable {entry : CacheEntry}

theorem preadBytes_eq {content : List UInt8}
    (sized : entry.size = content.length) (holes : Nat → UInt8)
    {offset length : Nat} (inside : offset + length ≤ content.length)
    (onDisk : entry.OnDisk offset (offset + length)) :
    preadBytes entry content holes offset length =
      (content.drop offset).take length := by
  rw [preadBytes, sized, min_eq_left (by omega),
    ← getD_range_map content inside]
  apply List.map_congr_left
  intro index member
  rw [List.mem_range'_1] at member
  rw [if_pos (onDisk index member.1 member.2)]

variable {position : Nat}

theorem clip_served (request : ReadRequest)
    (ordered : request.begin_ ≤ request.end_) {count : Nat}
    (inside : position + count ≤ request.content.length) :
    request.served (min position (request.end_ + 1)) ++
        clip request.begin_ request.end_ position
          ((request.content.drop position).take count) =
      request.served (min (position + count) (request.end_ + 1)) := by
  have length : ((request.content.drop position).take count).length =
      count := by
    rw [List.length_take, List.length_drop]
    omega
  unfold clip
  dsimp only
  rw [length, List.drop_take, List.drop_drop, List.take_take]
  rcases Nat.le_total position request.begin_ with early | late
  · rw [max_eq_right early,
      request.served_of_le (by omega : min position (request.end_ + 1) ≤
        request.begin_), List.nil_append, Nat.add_sub_cancel' early,
      ReadRequest.served]
    congr 1
    omega
  · simp only [max_eq_left late, Nat.sub_self, Nat.add_zero, Nat.sub_zero]
    rcases Nat.le_total position (request.end_ + 1) with inRange | beyond
    · rw [min_eq_left inRange, request.served_append late]
      congr 1
      omega
    · have nothing : min (min (position + count) (request.end_ + 1) -
          position) count = 0 := by omega
      rw [nothing, List.take_zero, List.append_nil, min_eq_right beyond,
        min_eq_right (by omega)]

/-- Entries are filed under their version and identity, and the one of the
version has its size. -/
structure CacheReady (request : ReadRequest) (cache : LocalCache) : Prop where
  keyed : Keyed cache
  fresh : ∀ versionId entry, cache.entry versionId = some entry →
    entry.uid < cache.nextUid
  sized : ∀ entry, cache.entry request.versionId = some entry →
    entry.size = request.content.length

variable {request : ReadRequest} {before after : LocalCache}
  {admits : String → Nat → Prop}

theorem CacheReady.grows (ready : CacheReady request before)
    (grows : Grows admits before after)
    (sizes : ∀ size, admits request.versionId size →
      size = request.content.length) : CacheReady request after := by
  refine ⟨?_, ?_, ?_⟩
  · intro versionId later found
    rcases grows.entries versionId later found with
      ⟨earlier, earlierFound, grown⟩ | ⟨_, _, named, _⟩
    · rw [grown.versionId]
      exact ready.keyed versionId earlier earlierFound
    · exact named
  · intro versionId later found
    rcases grows.entries versionId later found with
      ⟨earlier, earlierFound, grown⟩ | ⟨_, supplied, _, _⟩
    · rw [grown.uid]
      exact lt_of_lt_of_le (ready.fresh versionId earlier earlierFound)
        grows.nextUid
    · exact supplied
  · intro later found
    rcases grows.entries _ later found with
      ⟨earlier, earlierFound, grown⟩ | ⟨_, _, _, size⟩
    · rw [grown.size]
      exact ready.sized earlier earlierFound
    · exact sizes _ size

/-- An entry that stays is the same entry with no block less. -/
theorem CacheReady.grown (ready : CacheReady request before)
    (grows : Grows admits before after)
    (stays : Stays request.versionId before after)
    (found : before.entry request.versionId = some entry) :
    ∃ later, after.entry request.versionId = some later ∧
      entry.Grown later := by
  obtain ⟨later, laterFound, same⟩ := stays entry found
  rcases grows.entries _ later laterFound with
    ⟨earlier, earlierFound, grown⟩ | ⟨supplied, _⟩
  · rw [found] at earlierFound
    cases earlierFound
    exact ⟨later, laterFound, grown⟩
  · have older := ready.fresh _ entry found
    omega

/-- Whether there is a gap left to be read from the disk. -/
def cachedAhead (end_ : Nat) : Nat → List (Nat × Nat) → Bool
  | position, [] => position ≤ end_
  | position, (runBegin, runEnd) :: rest =>
      position < runBegin || cachedAhead end_ (min runEnd end_ + 1) rest

/-- The reader has to find the entry it planned with. -/
def ReadPhase.needsEntry (end_ : Nat) : ReadPhase → Bool
  | .reading _ _ _ _ => true
  | .fetching fetch | .filling fetch _ =>
      cachedAhead end_ (min fetch.runEnd end_ + 1) fetch.rest
  | _ => false

/-- Nothing is left after `position`, or the entry is there to follow the
plan. -/
def PlanKept (request : ReadRequest) (cache : LocalCache) (position : Nat)
    (rest : List (Nat × Nat)) : Prop :=
  (rest = [] ∧ request.end_ < position) ∨
    (cachedAhead request.end_ position rest = true ∧
      ∃ entry, cache.entry request.versionId = some entry ∧
        entry.Planned request.begin_ request.end_ position rest)

variable {rest : List (Nat × Nat)}

theorem PlanKept.of_planned {cache : LocalCache}
    (found : cache.entry request.versionId = some entry)
    (planned : entry.Planned request.begin_ request.end_ position rest)
    (past : request.begin_ < position) :
    PlanKept request cache position rest := by
  cases rest with
  | nil =>
      by_cases more : position ≤ request.end_
      · exact .inr ⟨decide_eq_true more, entry, found, planned⟩
      · exact .inl ⟨rfl, Nat.lt_of_not_le more⟩
  | cons run rest =>
      have gap : position < run.1 := by
        rcases planned.2.1 with before_ | first
        · exact before_
        · omega
      refine .inr ⟨?_, entry, found, planned⟩
      rw [cachedAhead, decide_eq_true gap, Bool.true_or]

theorem PlanKept.grows (kept : PlanKept request before position rest)
    (ready : CacheReady request before) (grows : Grows admits before after)
    (stays : cachedAhead request.end_ position rest = true →
      Stays request.versionId before after) :
    PlanKept request after position rest := by
  rcases kept with passed | ⟨ahead, entry, found, planned⟩
  · exact .inl passed
  · obtain ⟨later, laterFound, grown⟩ :=
      ready.grown grows (stays ahead) found
    exact .inr ⟨ahead, later, laterFound, grown.planned planned⟩

/-- The first byte after a gap. -/
def gapStop (end_ : Nat) : List (Nat × Nat) → Nat
  | [] => end_ + 1
  | (runBegin, _) :: _ => runBegin

structure FetchOk (request : ReadRequest) (cache : LocalCache)
    (output : List UInt8) (fetch : Fetch) : Prop where
  serves : fetch.stream.Serves request.content
  stop : fetch.stream.stop = fetch.runEnd
  bounded : fetch.stream.position ≤ fetch.runEnd + 1
  reaches : request.begin_ ≤ fetch.runEnd
  blocks : 0 < fetch.blockSize
  ended : fetch.ended = true → fetch.runEnd < fetch.stream.position
  output : output =
    request.served (min fetch.stream.position (request.end_ + 1))
  plan : PlanKept request cache (min fetch.runEnd request.end_ + 1)
    fetch.rest

/-- What holds of the reader wherever it waits. -/
def PhaseOk (request : ReadRequest) (cache : LocalCache)
    (output : List UInt8) : ReadPhase → Prop
  | .idle => output = []
  | .plain stream =>
      stream.Serves request.content ∧ stream.stop = request.end_ ∧
      request.begin_ ≤ stream.position ∧
      stream.position ≤ request.end_ + 1 ∧
      output = request.served stream.position
  | .reading offset stop blockSize rest =>
      0 < blockSize ∧ request.begin_ ≤ offset ∧ offset ≤ stop ∧
      stop + 1 = gapStop request.end_ rest ∧
      output = request.served offset ∧
      ∃ entry, cache.entry request.versionId = some entry ∧
        entry.Planned request.begin_ request.end_ offset rest
  | .fetching fetch =>
      FetchOk request cache output fetch ∧ fetch.ended = false
  | .filling fetch _ => FetchOk request cache output fetch
  | .done => output = request.served (request.end_ + 1)
  | .failed _ => False

/-- A change of the cache that keeps the entry while it is needed. -/
theorem PhaseOk.grows {output : List UInt8} {phase : ReadPhase}
    (ok : PhaseOk request before output phase)
    (ready : CacheReady request before) (grows : Grows admits before after)
    (stays : phase.needsEntry request.end_ = true →
      Stays request.versionId before after) :
    PhaseOk request after output phase := by
  cases phase with
  | reading offset stop blockSize rest =>
      obtain ⟨blocks, from_, ordered, gap, yielded, entry, found, planned⟩ :=
        ok
      obtain ⟨later, laterFound, grown⟩ :=
        ready.grown grows (stays rfl) found
      exact ⟨blocks, from_, ordered, gap, yielded, later, laterFound,
        grown.planned planned⟩
  | fetching fetch =>
      obtain ⟨fetchOk, running⟩ := ok
      exact ⟨{ fetchOk with plan := fetchOk.plan.grows ready grows stays },
        running⟩
  | filling fetch fill =>
      exact { (show FetchOk request before output fetch from ok) with
        plan := PlanKept.grows
          (show FetchOk request before output fetch from ok).plan ready grows
          stays }
  | idle => exact ok
  | plain stream => exact ok
  | done => exact ok
  | failed error => exact ok

/-- The effort of following the runs from `position` on. -/
def runsEffort (request : ReadRequest) : Nat → List (Nat × Nat) → Nat
  | position, [] => request.end_ + 1 - position + 1
  | position, (runBegin, runEnd) :: rest =>
      runBegin - position + 1 +
        (3 * (runEnd + 1 - runBegin) + request.layouts.length + 2 +
          runsEffort request (min runEnd request.end_ + 1) rest)

/-- The effort once the gap before the next run is read. -/
def resumeEffort (request : ReadRequest) : List (Nat × Nat) → Nat
  | [] => 0
  | (runBegin, runEnd) :: rest =>
      3 * (runEnd + 1 - runBegin) + request.layouts.length + 2 +
        runsEffort request (min runEnd request.end_ + 1) rest

def fetchEffort (request : ReadRequest) (fetch : Fetch) : Nat :=
  3 * (fetch.stream.stop + 1 - fetch.stream.position) +
    fetch.stream.untried.length + 2 * fetch.block.length + 2 +
    runsEffort request (min fetch.runEnd request.end_ + 1) fetch.rest

def ReadPhase.effort (request : ReadRequest) : ReadPhase → Nat
  | .plain stream =>
      stream.stop + 1 - stream.position + stream.untried.length + 1
  | .reading offset stop _ rest =>
      stop + 1 - offset + 1 + resumeEffort request rest
  | .fetching fetch => fetchEffort request fetch
  | .filling fetch _ => fetchEffort request fetch + 1
  | _ => 0

theorem openNext_untried {content : List UInt8} {stop : Nat}
    {layouts : List Layout} {stream : LayoutStream}
    (opened : LayoutStream.openNext content position stop layouts =
      some stream) : stream.untried.length < layouts.length := by
  induction layouts with
  | nil => cases opened
  | cons layout rest induction =>
      rw [LayoutStream.openNext] at opened
      split at opened
      · exact Nat.lt_succ_of_lt (induction opened)
      · cases opened
        exact Nat.lt_succ_self _

/-- What the version and the request promise. -/
structure Readable (request : ReadRequest) : Prop where
  ordered : request.begin_ ≤ request.end_
  inside : request.end_ < request.content.length
  servable : Servable request.content request.layouts

variable {cache : LocalCache} {output : List UInt8}

theorem openFetch_ok (readable : Readable request)
    {blockSize runBegin runEnd : Nat} (blocks : 0 < blockSize)
    (ordered : runBegin ≤ runEnd) (reaches : request.begin_ ≤ runEnd)
    (inside : runEnd < request.content.length)
    (yielded : output =
      request.served (min runBegin (request.end_ + 1)))
    (plan : PlanKept request cache (min runEnd request.end_ + 1) rest) :
    PhaseOk request cache output
        (request.openFetch blockSize runBegin runEnd rest) ∧
      (request.openFetch blockSize runBegin runEnd rest).effort request ≤
        resumeEffort request ((runBegin, runEnd) :: rest) := by
  obtain ⟨stream, opened, serves, position, stop⟩ :=
    LayoutStream.openNext_serves readable.servable ordered inside
  have shorter := openNext_untried opened
  rw [ReadRequest.openFetch, opened]
  refine ⟨⟨⟨serves, stop, ?_, reaches, blocks, ?_, ?_, plan⟩, rfl⟩, ?_⟩
  · dsimp only
    omega
  · intro ended
    cases ended
  · dsimp only
    rw [position]
    exact yielded
  · dsimp only [ReadPhase.effort, fetchEffort, resumeEffort]
    rw [position, stop, List.length_nil]
    omega

theorem openPlain_ok (readable : Readable request)
    (empty : output = []) :
    PhaseOk request cache output request.openPlain := by
  obtain ⟨stream, opened, serves, position, stop⟩ :=
    LayoutStream.openNext_serves readable.servable readable.ordered
      readable.inside
  have ordered := readable.ordered
  rw [ReadRequest.openPlain, opened]
  refine ⟨serves, stop, position.ge, by omega, ?_⟩
  rw [position, request.served_of_le le_rfl]
  exact empty

theorem openRead_ok (ready : CacheReady request cache)
    (found : cache.entry request.versionId = some entry) (now : Int)
    (rest : List (Nat × Nat)) {blockSize stop : Nat} (blocks : 0 < blockSize)
    (from_ : request.begin_ ≤ position) (ordered : position ≤ stop)
    (inside : stop < request.content.length)
    (gap : stop + 1 = gapStop request.end_ rest)
    (onDisk : entry.OnDisk position (stop + 1))
    (yielded : output = request.served position)
    (planned : entry.Planned request.begin_ request.end_ position rest) :
    ∃ next, request.openRead cache now blockSize position stop rest =
        (next, .reading position stop blockSize rest) ∧
      CacheReady request next ∧
      PhaseOk request next output
        (.reading position stop blockSize rest) := by
  have sized := ready.sized entry found
  have touched : Grows (fun _ _ => False) cache
      (cache.update request.versionId entry.uid fun entry =>
        { entry with lastAccess := now }) :=
    .relabelled cache _ _ fun _ => ⟨rfl, rfl, rfl, rfl, rfl⟩
  have stays : Stays request.versionId cache
      (cache.update request.versionId entry.uid fun entry =>
        { entry with lastAccess := now }) :=
    .update cache _ _ fun _ => rfl
  refine ⟨_, ?_, ready.grows touched (fun _ never => never.elim), ?_⟩
  · rw [ReadRequest.openRead, found]
    dsimp only
    have short : ¬entry.size ≤ stop := by omega
    rw [if_neg short, if_pos (CacheEntry.hasRange_of_onDisk ordered
      (Nat.lt_of_not_le short) onDisk)]
  · obtain ⟨later, laterFound, grown⟩ := ready.grown touched stays found
    exact ⟨blocks, from_, ordered, gap, yielded, later, laterFound,
      grown.planned planned⟩

theorem follow_ok (readable : Readable request)
    (ready : CacheReady request cache) {now : Int} {blockSize : Nat}
    (blocks : 0 < blockSize) (from_ : request.begin_ ≤ position)
    (bounded : position ≤ request.end_ + 1)
    (yielded : output = request.served position)
    (plan : (rest = [] ∧ request.end_ < position) ∨
      ∃ entry, cache.entry request.versionId = some entry ∧
        entry.Planned request.begin_ request.end_ position rest) :
    ∃ next phase, request.follow cache now blockSize position rest =
        (next, phase) ∧ CacheReady request next ∧
      PhaseOk request next output phase ∧
      phase.effort request ≤ runsEffort request position rest := by
  have inside := readable.inside
  have whole := readable.ordered
  rcases plan with ⟨rfl, passed⟩ | ⟨entry, found, planned⟩
  · refine ⟨cache, .done, ?_, ready, ?_, Nat.zero_le _⟩
    · rw [ReadRequest.follow, if_neg (by omega)]
    · have here : position = request.end_ + 1 := by omega
      rw [here] at yielded
      exact yielded
  · cases rest with
    | nil =>
        by_cases more : position ≤ request.end_
        · obtain ⟨next, opened, nextReady, ok⟩ :=
            openRead_ok ready found now [] blocks from_ more inside rfl
              planned yielded planned
          refine ⟨next, _, ?_, nextReady, ok, ?_⟩
          · rw [ReadRequest.follow, if_pos more]
            exact opened
          · exact le_rfl
        · refine ⟨cache, .done, ?_, ready, ?_, Nat.zero_le _⟩
          · rw [ReadRequest.follow, if_neg more]
          · have here : position = request.end_ + 1 := by omega
            rw [here] at yielded
            exact yielded
    | cons run rest =>
        obtain ⟨runBegin, runEnd⟩ := run
        obtain ⟨onDisk, starts, ordered, asked, reaches, within,
          continued⟩ := planned
        have sized := ready.sized entry found
        by_cases gap : position < runBegin
        · have last : runBegin - 1 + 1 = runBegin := by omega
          obtain ⟨next, opened, nextReady, ok⟩ :=
            openRead_ok ready found now ((runBegin, runEnd) :: rest) blocks
              from_ (by omega)
              (by omega : runBegin - 1 < request.content.length) last
              (last.symm ▸ onDisk) yielded
              ⟨onDisk, starts, ordered, asked, reaches, within, continued⟩
          refine ⟨next, _, ?_, nextReady, ok, ?_⟩
          · rw [ReadRequest.follow, if_pos gap]
            exact opened
          · dsimp only [ReadPhase.effort, runsEffort, resumeEffort]
            omega
        · have first : position = request.begin_ := by omega
          have plan : PlanKept request cache
              (min runEnd request.end_ + 1) rest :=
            .of_planned found continued (by omega)
          have begun : output =
              request.served (min runBegin (request.end_ + 1)) := by
            rw [yielded, first, request.served_of_le le_rfl,
              request.served_of_le (by omega)]
          obtain ⟨ok, effort⟩ := openFetch_ok readable
            blocks ordered reaches (by omega) begun plan
          refine ⟨cache, _, ?_, ready, ok, effort.trans ?_⟩
          · rw [ReadRequest.follow, if_neg gap]
          · dsimp only [runsEffort, resumeEffort]
            omega

end Tgdcfs
