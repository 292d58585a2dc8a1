import Mathlib.Data.List.Sort
import Tgdcfs.Backends.CachedDownloadOutput

/-!
# The chunk cache is transparent

The downloads and read-ahead tasks that share the cache take turns.  Each of
them keeps the blocks in it complete, so what a download finds there is what
it would have fetched.
-/

namespace Tgdcfs

open Lib

variable {ε : Type*}

def ReadAheadTask.Ok (setting : DownloadSetting) (task : ReadAheadTask ε) :
    Prop :=
  task.fetch.Ok (setting.content task.key.1 task.key.2.1) (fun _ => True) ∧
    task.fetch.blockSize = setting.blockSize

namespace DownloadSystem

structure Ok (setting : DownloadSetting) (errors : Nat → ε → Prop)
    (system : DownloadSystem ε) : Prop where
  cache : system.cache.Sound (CompleteBlock setting)
  downloads : ∀ (position : Nat) (download : CachedDownload ε),
    system.downloads[position]? = some download →
      download.Ok setting (errors position)
  tasks : ∀ task ∈ system.tasks, task.Ok setting

/-- Every answer of the uncached download is the requested range of the
document, or a beginning of it and an exception. -/
def Faithful (setting : DownloadSetting) (system : DownloadSystem ε) :
    DownloadAction ε → Prop
  | .answer position answer =>
      match system.downloads[position]? with
      | none => True
      | some download =>
          match download.phase with
          | .inRun _ fetch =>
              fetch.Answers
                (setting.content download.channel download.messageId) answer
          | _ => True
  | .taskAnswer position answer =>
      match system.tasks[position]? with
      | none => True
      | some task =>
          task.fetch.Answers (setting.content task.key.1 task.key.2.1) answer
  | _ => True

/-- The uncached download raises this for the download at `position`. -/
def Raises (position : Nat) (error : ε) (action : DownloadAction ε) : Prop :=
  ∃ answer, action = .answer position answer ∧ Answer.Raises answer error

variable {setting : DownloadSetting} {errors : Nat → ε → Prop}
  {system : DownloadSystem ε}

variable {cache : ChunkCache}

theorem Ok.withCache (ok : system.Ok setting errors)
    (sound : cache.Sound (CompleteBlock setting)) :
    Ok setting errors { system with cache := cache } :=
  ⟨sound, ok.downloads, ok.tasks⟩

variable {position : Nat} {download : CachedDownload ε}

theorem Ok.setDownload (ok : system.Ok setting errors)
    (sound : cache.Sound (CompleteBlock setting))
    (kept : download.Ok setting (errors position)) :
    (system.setDownload position download cache).Ok setting errors := by
  refine ⟨sound, ?_, ok.tasks⟩
  intro other found present
  change (system.downloads.set position download)[other]? = _ at present
  rw [List.getElem?_set] at present
  split at present
  · rename_i same
    subst same
    split at present
    · cases present
      exact kept
    · cases present
  · exact ok.downloads other found present

theorem Ok.addDownload (ok : system.Ok setting errors)
    (fresh : ∀ errors : ε → Prop, download.Ok setting errors) :
    (system.addDownload download).Ok setting errors := by
  refine ⟨ok.cache, ?_, ok.tasks⟩
  intro other found present
  change (system.downloads ++ [download])[other]? = _ at present
  rw [List.getElem?_append] at present
  split at present
  · exact ok.downloads other found present
  · have inside := List.mem_of_getElem? present
    rw [List.mem_singleton.mp inside]
    exact fresh _

variable {task : ReadAheadTask ε}

theorem Ok.setTask (ok : system.Ok setting errors) (position : Nat)
    (sound : cache.Sound (CompleteBlock setting)) (kept : task.Ok setting) :
    (system.setTask position task cache).Ok setting errors := by
  refine ⟨sound, ok.downloads, ?_⟩
  intro other member
  rcases List.mem_or_eq_of_mem_set member with before | rfl
  · exact ok.tasks other before
  · exact kept

theorem Ok.discard (ok : system.Ok setting errors) (position : Nat)
    (kept : task.Ok setting) :
    (system.discard position task).Ok setting errors := by
  have isOver : ReadAheadTask.Ok setting { task with done := true } := kept
  have stopped := ok.setTask position ok.cache isOver
  exact ⟨stopped.cache, stopped.downloads, stopped.tasks⟩

theorem Ok.scheduleReadahead (ok : system.Ok setting errors)
    (positive : 0 < setting.blockSize) {channel messageId : Int}
    (afterBlock : Nat)
    (nonempty : 0 < (setting.content channel messageId).length) :
    (system.scheduleReadahead setting channel messageId afterBlock
      (setting.content channel messageId).length).Ok setting errors := by
  unfold DownloadSystem.scheduleReadahead
  dsimp only
  split
  · exact ok
  · split
    · rename_i first last isFirst isLast
      split
      · exact ok
      · refine ⟨ok.cache, ok.downloads, ?_⟩
        intro task member
        rcases List.mem_append.mp member with before | new
        · exact ok.tasks task before
        · rw [List.mem_singleton.mp new]
          -- The wanted blocks ascend and lie inside the document.
          have sorted : List.Pairwise (· < ·)
              ((List.range' (afterBlock + 1)
                (min (afterBlock + setting.readahead)
                    (((setting.content channel messageId).length - 1) /
                      setting.blockSize) + 1 - (afterBlock + 1))).filter
                fun index => !system.cache.contains
                  (channel, messageId, index)) :=
            List.Pairwise.filter _ (List.pairwise_lt_range' ..)
          have lastMember := List.mem_of_getLast? isLast
          have inRange := List.mem_range'_1.mp
            (List.mem_of_mem_filter lastMember)
          have ordered : first ≤ last := by
            obtain ⟨rest, shape⟩ := List.head?_eq_some_iff.mp isFirst
            rw [shape] at sorted lastMember
            rcases List.mem_cons.mp lastMember with same | later
            · exact Nat.le_of_eq same.symm
            · exact Nat.le_of_lt ((List.pairwise_cons.mp sorted).1 _ later)
          have below : last ≤
              ((setting.content channel messageId).length - 1) /
                setting.blockSize := by omega
          have before := (Nat.le_div_iff_mul_le positive).mp below
          have inside : last * setting.blockSize <
              (setting.content channel messageId).length := by omega
          exact ⟨BlockFetch.start_ok channel messageId positive ordered
            inside, rfl⟩
    · exact ok

theorem Ok.downloadCached (ok : system.Ok setting errors)
    (positive : 0 < setting.blockSize) {channel messageId : Int}
    (begin_ end_ : Int) (sizeKnown : Bool) {answer : DownloadSystem ε × Int}
    (answered : system.downloadCached setting
      (if sizeKnown then some (setting.content channel messageId).length
        else none) channel messageId begin_ end_ = some answer) :
    answer.1.Ok setting errors := by
  unfold DownloadSystem.downloadCached at answered
  split at answered
  · cases answered
  · split at answered
    · cases answered
    · rename_i size known
      have whole : size = (setting.content channel messageId).length := by
        cases sizeKnown with
        | false => simp at known
        | true => simpa using known.symm
      subst whole
      split at answered
      · cases answered
      · rename_i nonempty
        dsimp only at answered
        generalize (if end_ < 0 ∨ _ < end_ then _ else end_) = stop at answered
        split at answered
        · cases answered
        · cases answered
          apply Ok.addDownload
          · exact ok.scheduleReadahead positive _ (by omega)
          · intro errors
            exact CachedDownload.start_ok setting channel messageId _ _

variable {next : DownloadSystem ε}

theorem Ok.resumeTask (ok : system.Ok setting errors) (position : Nat)
    (kept : task.Ok setting)
    (resumed : system.resumeTask position task = some next) :
    next.Ok setting errors := by
  have advanced : ∀ cache, cache = system.cache ∨
        (∃ index bytes, task.fetch.next.2 = some (index, bytes, true) ∧
          cache = system.cache.put (task.key.1, task.key.2.1, index)
            bytes) →
      (system.setTask position { task with fetch := task.fetch.next.1 }
        cache).Ok setting errors := by
    intro cache same
    have stepped := BlockFetch.next_ok kept.1
    refine ok.setTask position ?_
      ⟨stepped.ok, stepped.blockSize_eq.trans kept.2⟩
    have event := stepped.yielded
    rcases same with rfl | ⟨index, bytes, yielded, rfl⟩
    · exact ok.cache
    · rw [yielded] at event
      obtain ⟨_, rfl, within, rfl, _⟩ := event
      refine ChunkCache.put_sound ok.cache ⟨?_, by rw [kept.2]⟩
      have before : task.fetch.index * task.fetch.blockSize ≤
          task.fetch.last * task.fetch.blockSize :=
        Nat.mul_le_mul_right _ within
      have inside := before.trans_lt kept.1.inside
      rw [kept.2] at inside
      exact inside
  unfold DownloadSystem.resumeTask at resumed
  split at resumed
  · cases resumed
  · cases resumed
    exact ok.discard position kept
  · cases resumed
    exact ok.discard position kept
  · cases resumed
    refine advanced _ ?_
    split
    · exact .inr ⟨_, _, ‹_›, rfl⟩
    · exact .inl rfl
  · cases resumed
    refine advanced _ ?_
    split
    · exact .inr ⟨_, _, ‹_›, rfl⟩
    · exact .inl rfl

theorem Ok.step (ok : system.Ok setting errors)
    (positive : 0 < setting.blockSize) {action : DownloadAction ε}
    (faithful : system.Faithful setting action)
    (raises : ∀ position error, Raises position error action →
      errors position error) (taken : system.step setting action = some next) :
    next.Ok setting errors := by
  cases action with
  | downloadCached channel messageId begin_ end_ sizeKnown =>
      obtain ⟨answer, answered, rfl⟩ := Option.map_eq_some_iff.mp taken
      exact ok.downloadCached positive begin_ end_ sizeKnown answered
  | cachedDownload channel messageId begin_ end_ =>
      cases taken
      exact ok.addDownload fun errors =>
        CachedDownload.start_ok setting channel messageId begin_ end_
  | resume position =>
      obtain ⟨download, found, moved⟩ := Option.bind_eq_some_iff.mp taken
      obtain ⟨⟨cache, later⟩, resumed, rfl⟩ :=
        Option.map_eq_some_iff.mp moved
      obtain ⟨sound, kept⟩ := CachedDownload.resume_ok positive
        (ok.downloads position download found) ok.cache resumed
      exact ok.setDownload sound kept
  | answer position answer =>
      obtain ⟨download, found, moved⟩ := Option.bind_eq_some_iff.mp taken
      obtain ⟨later, answered, rfl⟩ := Option.map_eq_some_iff.mp moved
      apply ok.setDownload ok.cache
      apply CachedDownload.answered_ok (ok.downloads position download found)
      · intro runEnd fetch here
        simpa [Faithful, found, here] using faithful
      · intro error raised
        exact raises position error ⟨answer, rfl, raised⟩
      · exact answered
  | close position =>
      obtain ⟨download, found, moved⟩ := Option.bind_eq_some_iff.mp taken
      obtain ⟨later, closed, rfl⟩ := Option.map_eq_some_iff.mp moved
      exact ok.setDownload ok.cache
        (CachedDownload.close_ok (ok.downloads position download found)
          closed)
  | taskResume position =>
      obtain ⟨task, found, moved⟩ := Option.bind_eq_some_iff.mp taken
      split at moved
      · cases moved
      · exact ok.resumeTask position
          (ok.tasks task (List.mem_of_getElem? found)) moved
  | taskAnswer position answer =>
      obtain ⟨task, found, moved⟩ := Option.bind_eq_some_iff.mp taken
      have kept := ok.tasks task (List.mem_of_getElem? found)
      split at moved
      · rename_i waiting
        split at moved
        · cases moved
        · cases moved
          refine ok.setTask position ok.cache ⟨?_, ?_⟩
          · apply BlockFetch.answered_ok kept.1 waiting
            · simpa [Faithful, found] using faithful
            · exact fun _ _ => trivial
          · cases answer with
            | error failure => exact kept.2
            | ok stream => exact kept.2
      · cases moved
  | invalidate channel messageId =>
      cases taken
      exact ok.withCache (ChunkCache.invalidate_sound ok.cache _ _)
  | clear =>
      cases taken
      exact ok.withCache (ChunkCache.clear_sound ok.cache)

theorem scheduleReadahead_downloads (setting : DownloadSetting)
    (channel messageId : Int) (afterBlock size : Nat)
    (system : DownloadSystem ε) :
    (system.scheduleReadahead setting channel messageId afterBlock
      size).downloads = system.downloads := by
  unfold DownloadSystem.scheduleReadahead
  dsimp only
  split
  · rfl
  · split
    · split <;> rfl
    · rfl

theorem resumeTask_downloads
    (resumed : system.resumeTask position task = some next) :
    next.downloads = system.downloads := by
  unfold DownloadSystem.resumeTask at resumed
  split at resumed
  · cases resumed
  all_goals
    cases resumed
    rfl

/-- A download is at its place with no more steps to go than before. -/
def Advanced (system : DownloadSystem ε) (position : Nat)
    (download : CachedDownload ε) : Prop :=
  ∃ later, system.downloads[position]? = some later ∧
    (later = download ∨ later.remaining < download.remaining)

theorem advanced_of_same (here : system.downloads[position]? = some download)
    (same : next.downloads = system.downloads) :
    next.Advanced position download :=
  ⟨download, by rw [same, here], .inl rfl⟩

theorem advanced_setDownload {other : Nat} {before later : CachedDownload ε}
    (here : system.downloads[position]? = some download)
    (there : system.downloads[other]? = some before)
    (lower : later.remaining < before.remaining) :
    (system.setDownload other later cache).Advanced position download := by
  have inside := (List.getElem?_eq_some_iff.mp there).1
  by_cases same : other = position
  · subst same
    cases there.symm.trans here
    exact ⟨later, List.getElem?_set_self inside, .inr lower⟩
  · exact ⟨download, (List.getElem?_set_ne same).trans here, .inl rfl⟩

theorem advanced_addDownload {new : CachedDownload ε}
    (here : system.downloads[position]? = some download) :
    (system.addDownload new).Advanced position download := by
  have inside := (List.getElem?_eq_some_iff.mp here).1
  exact ⟨download, (List.getElem?_append_left inside).trans here, .inl rfl⟩

/-- Steps of other tasks leave a download where it is; its own ones are
limited in number. -/
theorem Ok.advanced (ok : system.Ok setting errors)
    (here : system.downloads[position]? = some download)
    {action : DownloadAction ε}
    (taken : system.step setting action = some next) :
    next.Advanced position download := by
  cases action with
  | downloadCached channel messageId begin_ end_ sizeKnown =>
      obtain ⟨answer, answered, rfl⟩ := Option.map_eq_some_iff.mp taken
      unfold DownloadSystem.downloadCached at answered
      split at answered
      · cases answered
      · split at answered
        · cases answered
        · split at answered
          · cases answered
          · dsimp only at answered
            generalize (if end_ < 0 ∨ _ < end_ then _ else end_) = stop
              at answered
            split at answered
            · cases answered
            · cases answered
              apply advanced_addDownload
              rw [scheduleReadahead_downloads]
              exact here
  | cachedDownload channel messageId begin_ end_ =>
      cases taken
      exact advanced_addDownload here
  | resume other =>
      obtain ⟨before, there, moved⟩ := Option.bind_eq_some_iff.mp taken
      obtain ⟨⟨cache, later⟩, resumed, rfl⟩ :=
        Option.map_eq_some_iff.mp moved
      exact advanced_setDownload here there (CachedDownload.resume_lowers
        (ok.downloads other before there) resumed)
  | answer other answer =>
      obtain ⟨before, there, moved⟩ := Option.bind_eq_some_iff.mp taken
      obtain ⟨later, answered, rfl⟩ := Option.map_eq_some_iff.mp moved
      exact advanced_setDownload here there
        (CachedDownload.answered_lowers answered)
  | close other =>
      obtain ⟨before, there, moved⟩ := Option.bind_eq_some_iff.mp taken
      obtain ⟨later, closed, rfl⟩ := Option.map_eq_some_iff.mp moved
      exact advanced_setDownload here there (CachedDownload.close_lowers
        (ok.downloads other before there) closed)
  | taskResume other =>
      obtain ⟨task, found, moved⟩ := Option.bind_eq_some_iff.mp taken
      split at moved
      · cases moved
      · exact advanced_of_same here (resumeTask_downloads moved)
  | taskAnswer other answer =>
      obtain ⟨task, found, moved⟩ := Option.bind_eq_some_iff.mp taken
      split at moved
      · split at moved
        · cases moved
        · cases moved
          exact advanced_of_same here rfl
      · cases moved
  | invalidate channel messageId =>
      cases taken
      exact advanced_of_same here rfl
  | clear =>
      cases taken
      exact advanced_of_same here rfl

/-- No download, no read-ahead task, and correct blocks in the cache. -/
structure Fresh (setting : DownloadSetting) (system : DownloadSystem ε) :
    Prop where
  cache : system.cache.Sound (CompleteBlock setting)
  downloads : system.downloads = []
  tasks : system.tasks = []

theorem Fresh.ok (fresh : system.Fresh setting) (errors : Nat → ε → Prop) :
    system.Ok setting errors := by
  constructor
  · exact fresh.cache
  · intro position download present
    simp [fresh.downloads] at present
  · intro task member
    simp [fresh.tasks] at member

/-- In every state of every run the cache is sound, and a download has
delivered a beginning of the range: all of it when it is finished, and less
only when the uncached download raised for it or its consumer left.  Until
then it can go on, and its own steps are limited in number. -/
theorem cached_downloads_transparent {start finish : DownloadSystem ε}
    {actions : List (DownloadAction ε)} (positive : 0 < setting.blockSize)
    (fresh : start.Fresh setting)
    (faithful : Guarded (DownloadSystem.step setting)
      (Faithful setting) start actions)
    (finished : run (DownloadSystem.step setting) start actions =
      some finish) :
    finish.cache.Sound (CompleteBlock setting) ∧
      ∀ position download, finish.downloads[position]? = some download →
        let content := setting.content download.channel download.messageId
        download.output.flatten <+: download.wanted content ∧
        (download.phase = .finished →
          download.output.flatten = download.wanted content) ∧
        (∀ error, download.phase = .raised error →
          ∃ action ∈ actions, Raises position error action) ∧
        (download.Running → ¬download.Waiting →
          (finish.step setting (.resume position)).isSome) ∧
        ∀ action next, finish.step setting action = some next →
          next.Advanced position download := by
  have ok : finish.Ok setting fun position error =>
      ∃ action ∈ actions, Raises position error action :=
    run_invariant
      (fun system action next ok guard taken =>
        ok.step positive guard.1
          (fun position error raised => ⟨action, guard.2, raised⟩) taken)
      (fresh.ok _) faithful.with_mem finished
  refine ⟨ok.cache, ?_⟩
  intro position download here
  have kept := ok.downloads position download here
  have phase := kept.phase
  dsimp only at phase ⊢
  refine ⟨?_, ?_, ?_, ?_, fun action next taken => ok.advanced here taken⟩
  · split at phase
    · exact phase ▸ CachedDownload.served_prefix _ _ _
    · exact phase.2.2.2.2 ▸ CachedDownload.served_prefix _ _ _
    · exact phase ▸ List.prefix_refl _
    · exact phase
    · exact phase.1
  · intro isOver
    rw [isOver] at phase
    exact phase
  · intro error isOver
    rw [isOver] at phase
    exact phase.2
  · intro running ready
    have enabled :=
      CachedDownload.resume_enabled running finish.cache ready
    simpa [DownloadSystem.step, here] using enabled

/-- A message of five bytes in blocks of two. -/
def fiveBytes : DownloadSetting :=
  { blockSize := 2
    readahead := 1
    content := fun _ messageId =>
      if messageId = 7 then [1, 2, 3, 4, 5] else [] }

/-- The middle block is in a cache that has room for two. -/
def primed : DownloadSystem Unit :=
  { cache := (ChunkCache.new 4).put (1, 7, 1) [3, 4]
    downloads := []
    readahead := []
    tasks := [] }

def primedActions : List (DownloadAction Unit) :=
  [.downloadCached 1 7 1 9 true, .resume 0,
    .answer 0 (.ok ⟨[[1], [2]], none⟩), .resume 0, .resume 0, .resume 0,
    .resume 0, .resume 0, .resume 0, .resume 0, .resume 0, .resume 0,
    .answer 0 (.ok ⟨[[5]], none⟩), .resume 0, .resume 0, .resume 0,
    .resume 0, .resume 0, .resume 0]

theorem primed_fresh : primed.Fresh fiveBytes := by
  have block_ : CompleteBlock fiveBytes (1, 7, 1) [3, 4] :=
    ⟨by decide, rfl⟩
  exact ⟨ChunkCache.put_sound (ChunkCache.new_sound _ 4) block_, rfl, rfl⟩

theorem primedActions_faithful :
    Guarded (DownloadSystem.step fiveBytes) (Faithful fiveBytes) primed
      primedActions := by
  iterate 2
    refine ⟨trivial, ?_⟩
    rintro _ ⟨⟩
  refine ⟨⟨by decide, fun _ => by decide⟩, ?_⟩
  rintro _ ⟨⟩
  iterate 9
    refine ⟨trivial, ?_⟩
    rintro _ ⟨⟩
  refine ⟨⟨by decide, fun _ => by decide⟩, ?_⟩
  rintro _ ⟨⟩
  iterate 6
    refine ⟨trivial, ?_⟩
    rintro _ ⟨⟩
  trivial

/-- The blocks around the cached one are fetched, and the first one makes room
for the last. -/
theorem cached_downloads_transparent_primed :
    ∃ finish download,
      run (DownloadSystem.step fiveBytes) primed primedActions =
        some finish ∧
      finish.downloads[0]? = some download ∧
      download.output = [[2], [3, 4], [5]] ∧
      finish.cache.blocks.keys = [(1, 7, 1), (1, 7, 2)] ∧
      finish.cache.Sound (CompleteBlock fiveBytes) ∧
      download.output.flatten = download.wanted [1, 2, 3, 4, 5] := by
  obtain ⟨sound, downloads⟩ := cached_downloads_transparent (by decide)
    primed_fresh primedActions_faithful rfl
  exact ⟨_, _, rfl, rfl, rfl, rfl, sound, (downloads 0 _ rfl).2.1 rfl⟩

end DownloadSystem

end Tgdcfs
