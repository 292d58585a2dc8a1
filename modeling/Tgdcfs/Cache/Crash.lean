import Tgdcfs.Cache.Load

/-!
# Crash consistency

A process may stop after any number of the file-system steps of an operation.
What it leaves behind mirrors a cache between the two sides of the operation,
and `load` recovers the settled entries of that cache.  Runs continue with
the next process, so that the invariant covers any number of crashes.
-/

namespace Tgdcfs

open Lib

variable {content : String → List UInt8} {config : CacheConfig}
  {mtime : String → Int}

namespace Recovers

variable {before middle after loaded : LocalCache}

theorem complete (recovers : Recovers middle loaded)
    {versionId : String} (whole : loaded.complete versionId = true) :
    middle.complete versionId = true := by
  obtain ⟨entry, found, _, all⟩ := LocalCache.complete_iff.mp whole
  obtain ⟨earlier, earlierFound, size, _, present, settled, _⟩ :=
    recovers.entries versionId entry found
  exact LocalCache.complete_iff.mpr ⟨earlier, earlierFound, settled,
    (CacheEntry.isComplete_congr size present).symm.trans all⟩

theorem pinned (recovers : Recovers middle loaded) {versionId : String}
    {earlier : CacheEntry} (found : middle.entry versionId = some earlier)
    (whole : middle.complete versionId = true) (pins : 0 < earlier.pins) :
    loaded.complete versionId = true ∧
      ∃ entry, loaded.entry versionId = some entry ∧ 1 ≤ entry.pins := by
  obtain ⟨earlier', found', settled, all⟩ := LocalCache.complete_iff.mp whole
  rw [found] at found'
  cases found'
  obtain ⟨entry, loadedFound, stillPinned⟩ :=
    recovers.kept versionId earlier found settled
  obtain ⟨other, otherFound, size, _, present, _, writing, _⟩ :=
    recovers.entries versionId entry loadedFound
  rw [found] at otherFound
  cases otherFound
  exact ⟨LocalCache.complete_iff.mpr ⟨entry, loadedFound, writing,
    (CacheEntry.isComplete_congr size present).trans all⟩, entry,
    loadedFound, stillPinned pins⟩

theorem usedBytes (recovers : Recovers middle loaded)
    (between : Between before middle after) :
    loaded.usedBytes ≤ before.usedBytes := by
  apply Dict.weight_le_of_get?
  intro versionId entry found
  obtain ⟨earlier, earlierFound, size, blockSize, present, settled, writing,
    inflight⟩ := recovers.entries versionId entry found
  have bound := between.bounded versionId earlier earlierFound settled
  rw [CacheEntry.chargedBytes_of_idle writing, inflight, Nat.add_zero,
    CacheEntry.presentBytes_congr size blockSize present]
  exact bound

theorem size (recovers : Recovers middle loaded) :
    loaded.entries.size ≤ middle.entries.size := by
  apply Dict.size_le_of_get?
  intro versionId entry found
  obtain ⟨earlier, earlierFound, _⟩ := recovers.entries versionId entry found
  exact ⟨earlier, earlierFound⟩

end Recovers

variable {now : DiskState}

/-- What the steps of an operation leave in the directory, wherever they
stop. -/
theorem DiskInvariant.interrupted
    (invariant : DiskInvariant config content now) {action : CacheAction}
    {next : CacheState} (taken : cacheStep config now.state action = some next)
    (ready : DiskState.ready now.disk now.state action = true)
    (honest : action.Honest content now.state) (count : Nat) :
    ∃ middle, Between now.state.cache middle next.cache ∧
      Mirrors content middle (now.interrupted next count).closeAll := by
  obtain ⟨steps, passage⟩ := invariant.carries taken ready honest
  obtain ⟨middle, between, mirrors⟩ := passage.passes count
  refine ⟨middle, between, ?_⟩
  rw [DiskState.interrupted, issuedSince_eq passage.issued]
  exact mirrors.of_files rfl rfl rfl rfl

theorem CacheInvariant.recovered {state next : CacheState}
    (before : CacheInvariant config state)
    (after : CacheInvariant config next) {middle loaded : LocalCache}
    {disk : Disk} (between : Between state.cache middle next.cache)
    (recovers : Recovers middle loaded)
    (aligned : Aligned content false loaded disk) :
    CacheInvariant config ⟨loaded, [], []⟩ := by
  refine ⟨?_, ?_, aligned.keyed, aligned.fresh, ?_, ?_, ?_, ?_, ?_⟩
  · intro budget
    exact (recovers.usedBytes between).trans (before.bytes budget)
  · intro limit
    refine recovers.size.trans ?_
    rcases between.size with fewer | fewer
    · exact fewer.trans (before.files limit)
    · exact fewer.trans (after.files limit)
  · intro fill member
    cases member
  · intro versionId entry found staging
    obtain ⟨_, _, _, _, _, _, settled, _⟩ :=
      recovers.entries versionId entry found
    rw [show entry.writing = true from staging] at settled
    cases settled
  · intro versionId entry _
    exact Nat.zero_le _
  · intro fill member
    cases member
  · intro writer member
    cases member

variable {later : DiskState}

theorem DiskInvariant.step {action : DiskAction}
    (invariant : DiskInvariant config content now)
    (honest : action.Honest content now)
    (taken : diskStep config now action = some later) :
    DiskInvariant config content later := by
  cases action with
  | perform action =>
      obtain ⟨next, operated, rest⟩ := Option.bind_eq_some_iff.mp taken
      split at rest
      · rename_i ready
        cases rest
        obtain ⟨steps, passage⟩ := invariant.carries operated ready honest
        have done := invariant.operate operated ready honest passage
        rw [issuedSince_eq passage.issued]
        unfold DiskState.closeFor
        split
        · split
          · exact done
          · exact done.closeHandle _
        · split
          · exact done
          · exact done.closeHandle _
        · exact done
      · cases rest
  | openHandle position =>
      obtain ⟨writer, here, rest⟩ := Option.bind_eq_some_iff.mp taken
      split at rest
      · cases rest
      · cases rest
        exact invariant.openHandle (List.mem_of_getElem? here)
  | landBlocks position count =>
      obtain ⟨fill, here, rest⟩ := Option.bind_eq_some_iff.mp taken
      cases rest
      have on := invariant.fills fill (List.mem_of_getElem? here)
      exact invariant.landed
        (.of_path ((List.take_prefix count _).trans on.honest))
  | landStaged position data count =>
      obtain ⟨writer, here, rest⟩ := Option.bind_eq_some_iff.mp taken
      split at rest
      · cases rest
      · cases rest
        have on := invariant.writers writer (List.mem_of_getElem? here)
        exact invariant.landed
          (on.faithful ((List.take_prefix count _).trans
            (honest writer here)))
  | crash action count mtime =>
      obtain ⟨next, operated, rest⟩ := Option.bind_eq_some_iff.mp taken
      split at rest
      · rename_i ready
        cases rest
        obtain ⟨middle, between, mirrors⟩ :=
          invariant.interrupted operated ready honest count
        have recovers : Recovers middle (LocalCache.load
            (now.interrupted next count).closeAll mtime) :=
          load_recovers mirrors
        have aligned : Aligned content false (LocalCache.load
            (now.interrupted next count).closeAll mtime) _ :=
          load_aligned mirrors
        refine ⟨invariant.budget.recovered (invariant.budget.step operated)
          between recovers aligned, aligned, ?_, ?_, ?_, ?_⟩
        · intro writer member
          cases member
        · intro writer member
          cases member
        · intro uid inode found
          rw [Disk.replay_handles] at found
          cases found
        · intro fill member
          cases member
      · cases rest

theorem DiskInvariant.reachable
    (reached : ReachableWithin (diskStep config) (DiskAction.Honest content)
      DiskState.initial now) : DiskInvariant config content now :=
  reached.invariant
    (fun _ _ _ invariant honest taken => invariant.step honest taken)
    .initial

theorem diskStep_perform {action : CacheAction}
    (taken : diskStep config now (.perform action) = some later) :
    cacheStep config now.state action = some later.state := by
  obtain ⟨next, operated, rest⟩ := Option.bind_eq_some_iff.mp taken
  split at rest
  · cases rest
    exact operated
  · cases rest

/-- The steps of the worker threads leave the cache to itself. -/
theorem diskStep_state {action : DiskAction}
    (taken : diskStep config now action = some later) :
    later.state = now.state ∨
      (∃ operation, action = .perform operation ∧
        cacheStep config now.state operation = some later.state) ∨
      ∃ operation count mtime, action = .crash operation count mtime ∧
        later.state.writers = [] := by
  cases action with
  | perform operation => exact .inr (.inl ⟨_, rfl, diskStep_perform taken⟩)
  | openHandle position =>
      obtain ⟨writer, _, rest⟩ := Option.bind_eq_some_iff.mp taken
      split at rest
      · cases rest
      · cases rest
        exact .inl rfl
  | landBlocks position count =>
      obtain ⟨fill, _, rest⟩ := Option.bind_eq_some_iff.mp taken
      cases rest
      exact .inl rfl
  | landStaged position data count =>
      obtain ⟨writer, _, rest⟩ := Option.bind_eq_some_iff.mp taken
      split at rest
      · cases rest
      · cases rest
        exact .inl rfl
  | crash operation count mtime =>
      obtain ⟨next, _, rest⟩ := Option.bind_eq_some_iff.mp taken
      split at rest
      · cases rest
        exact .inr (.inr ⟨_, _, _, rfl, rfl⟩)
      · cases rest

end Tgdcfs
