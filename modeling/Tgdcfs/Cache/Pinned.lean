import Tgdcfs.Cache.Crash
import Tgdcfs.Cache.Growth

/-!
# Pinned entries

A pinned version leaves the cache only by an operation that lets go of it: it
is released, unpinned, removed or created again.  Nothing else drops it or
takes its blocks, so a version that was written completely is loaded by every
later process until then.
-/

namespace Tgdcfs

open Lib

variable {content : String → List UInt8} {config : CacheConfig}
  {versionId : String}

/-- The operation releases, unpins, removes or creates the version again.  A
writer that aborts and a fill that the disk refuses remove it, and a sweep
releases a pin that is stale. -/
def CacheAction.LetsGo (config : CacheConfig) (state : CacheState)
    (versionId : String) : CacheAction → Prop
  | .openStaging _ other size _ _ _ | .reserve _ other size _ _ _ =>
      other = versionId ∧ config.enabled = true ∧ 0 ≤ size
  | .endAbort position =>
      ∃ writer, state.writers[position]? = some writer ∧
        writer.versionId = versionId
  | .failBlocks position _ =>
      ∃ fill, state.fills[position]? = some fill ∧
        fill.versionId = versionId
  | .unpin other | .release other | .remove other => other = versionId
  | .removeMany others => versionId ∈ others
  | .sweep _ queueEmpty now _ =>
      ∃ entry, state.cache.entry versionId = some entry ∧
        LocalCache.stalePin queueEmpty now entry = true
  | _ => False

/-- The same holds for an operation in which the process stops. -/
def DiskAction.LetsGo (config : CacheConfig) (now : DiskState)
    (versionId : String) : DiskAction → Prop
  | .perform action | .crash action _ _ =>
      action.LetsGo config now.state versionId
  | _ => False

/-- The same entry, pinned and not staged again. -/
structure CacheEntry.Keeps (before after : CacheEntry) : Prop where
  uid : after.uid = before.uid
  size : after.size = before.size
  pinned : 0 < after.pins
  writing : before.writing = false → after.writing = false
  complete : before.isComplete = true → after.isComplete = true

/-- The entry of the version stays if it is pinned. -/
def KeepsPinned (versionId : String) (before after : LocalCache) : Prop :=
  ∀ entry, before.entry versionId = some entry → 0 < entry.pins →
    ∃ later, after.entry versionId = some later ∧ entry.Keeps later

theorem CacheEntry.isComplete_marked (entry : CacheEntry)
    (indices : List Nat) (complete : entry.isComplete = true) :
    (entry.mark indices).isComplete = true := by
  rw [← entry.mark_nil] at complete
  exact isComplete_mark (List.nil_subset indices) complete

namespace KeepsPinned

variable {before middle after : LocalCache}

theorem of_entry (same : after.entry versionId = before.entry versionId) :
    KeepsPinned versionId before after := by
  intro entry found pinned
  exact ⟨entry, same.trans found, rfl, rfl, pinned, fun settled => settled,
    fun complete => complete⟩

theorem refl (cache : LocalCache) : KeepsPinned versionId cache cache :=
  of_entry rfl

theorem trans (first : KeepsPinned versionId before middle)
    (second : KeepsPinned versionId middle after) :
    KeepsPinned versionId before after := by
  intro entry found pinned
  obtain ⟨between, foundBetween, keeps⟩ := first entry found pinned
  obtain ⟨later, foundLater, again⟩ :=
    second between foundBetween keeps.pinned
  refine ⟨later, foundLater, again.uid.trans keeps.uid,
    again.size.trans keeps.size, again.pinned, ?_, ?_⟩
  · exact fun settled => again.writing (keeps.writing settled)
  · exact fun complete => again.complete (keeps.complete complete)

theorem of_spared (spared : Spared before after) :
    KeepsPinned versionId before after := by
  intro entry found pinned
  have kept := spared versionId entry found
    (CacheEntry.Busy.not_evictable (.inl pinned))
  exact of_entry (kept.trans found.symm) entry found pinned

theorem update (cache : LocalCache) (other : String) (uid : Nat)
    {change : CacheEntry → CacheEntry}
    (keeps : ∀ entry : CacheEntry, 0 < entry.pins →
      entry.Keeps (change entry)) :
    KeepsPinned versionId cache (cache.update other uid change) := by
  intro entry found pinned
  rw [LocalCache.update_entry, found]
  split
  · refine ⟨_, rfl, ?_⟩
    dsimp only
    split
    · exact keeps entry pinned
    · exact ⟨rfl, rfl, pinned, fun settled => settled,
        fun complete => complete⟩
  · exact ⟨entry, rfl, rfl, rfl, pinned, fun settled => settled,
      fun complete => complete⟩

theorem markPresent (cache : LocalCache) (other : String) (uid : Nat)
    (indices : List Nat) :
    KeepsPinned versionId cache (cache.markPresent other uid indices) := by
  intro entry found pinned
  rw [CacheInvariant.markPresent_entry, found]
  split
  · refine ⟨_, rfl, ?_⟩
    dsimp only
    split
    · exact ⟨rfl, rfl, pinned, fun settled => settled,
        entry.isComplete_marked indices⟩
    · exact ⟨rfl, rfl, pinned, fun settled => settled,
        fun complete => complete⟩
  · exact ⟨entry, rfl, rfl, rfl, pinned, fun settled => settled,
      fun complete => complete⟩

variable {other : String}

theorem remove (cache : LocalCache) (apart : other ≠ versionId) :
    KeepsPinned versionId cache (cache.remove other) := by
  apply of_entry
  unfold LocalCache.remove LocalCache.drop
  cases found : cache.entries.get? other with
  | none => rfl
  | some entry =>
      simp [LocalCache.entry, LocalCache.saveIndex, LocalCache.unlink,
        LocalCache.issue, Dict.get?_erase, Ne.symm apart]

theorem removeExisting (cache : LocalCache) (apart : other ≠ versionId) :
    KeepsPinned versionId cache (cache.removeExisting other) := by
  unfold LocalCache.removeExisting
  split
  · exact remove cache apart
  · exact refl cache

theorem settled (cache : LocalCache) (other : String) (uid : Nat) :
    KeepsPinned versionId cache (cache.update other uid fun entry =>
      { entry with writing := false }) :=
  update cache other uid fun _ pinned =>
    ⟨rfl, rfl, pinned, fun _ => rfl, fun complete => complete⟩

theorem claimed (cache : LocalCache) (other : String) (uid : Nat)
    (inflight : CacheEntry → Nat) :
    KeepsPinned versionId cache (cache.update other uid fun entry =>
      entry.withInflight (inflight entry)) :=
  update cache other uid fun _ pinned =>
    ⟨rfl, rfl, pinned, fun settled => settled, fun complete => complete⟩

variable {cache : LocalCache}

/-- An admission files another version and evicts what is not pinned. -/
theorem admitEntry (config : CacheConfig) (keyed : Keyed cache) (fs : String)
    (apart : other ≠ versionId) (size charge : Nat) (now : Int)
    (writing : Bool) (free : FreeSpace) (refused : Option FileKind) :
    KeepsPinned versionId cache (cache.admitEntry config fs other size charge
      now writing free refused).1 := by
  have room : KeepsPinned versionId cache
      (cache.makeRoom config charge true none free).1 :=
    of_spared (makeRoom_spared config cache charge true none free keyed)
  unfold LocalCache.admitEntry
  dsimp only
  split
  · exact room
  · refine room.trans (of_entry ?_)
    unfold LocalCache.createFiles
    rcases refused with _ | _ | _
    · simp [LocalCache.entry, LocalCache.saveIndex, LocalCache.issue,
        Dict.get?_set, Ne.symm apart]
    · rfl
    · rfl

theorem openStaging (config : CacheConfig) (keyed : Keyed cache)
    (fs other : String) (size now : Int) (free : FreeSpace)
    (refused : Option FileKind)
    (holds : ¬(other = versionId ∧ config.enabled = true ∧ 0 ≤ size)) :
    KeepsPinned versionId cache (cache.openStaging config fs other size now
      free refused).1 := by
  unfold LocalCache.openStaging
  split
  · exact refl cache
  · rename_i admits
    have apart : other ≠ versionId := by
      intro same
      apply holds
      simpa [same] using admits
    have cleared := removeExisting cache apart
    dsimp only
    split
    · exact cleared
    · exact cleared.trans (admitEntry config
        (keyed.evolves (.removeExisting cache other)) fs apart _ _ now true
        free refused)

theorem reserve (config : CacheConfig) (keyed : Keyed cache)
    (fs other : String) (size now : Int) (free : FreeSpace)
    (refused : Option FileKind)
    (holds : ¬(other = versionId ∧ config.enabled = true ∧ 0 ≤ size)) :
    KeepsPinned versionId cache (cache.reserve config fs other size now free
      refused).1 := by
  unfold LocalCache.reserve
  split
  · exact refl cache
  · rename_i admits
    have apart : other ≠ versionId := by
      intro same
      apply holds
      simpa [same] using admits
    exact (removeExisting cache apart).trans (admitEntry config
      (keyed.evolves (.removeExisting cache other)) fs apart _ _ now false
      free refused)

theorem claimBlocks (config : CacheConfig) (keyed : Keyed cache)
    (other : String) (begin_ : Nat) (data : List UInt8) (free : FreeSpace) :
    KeepsPinned versionId cache
      (cache.claimBlocks config other begin_ data free).1 := by
  have room : ∀ needed keep, KeepsPinned versionId cache
      (cache.makeRoom config needed false keep free).1 :=
    fun _ _ => of_spared (makeRoom_spared config cache _ false _ free keyed)
  apply LocalCache.claimBlocks_cases (P := fun later _ =>
    KeepsPinned versionId cache later) (refl cache) fun _ _ _ => room _ _
  intro entry fill roomy _ _ _ _ made _
  refine .trans ?_ (claimed _ other entry.uid _)
  rcases made with ⟨_, rfl⟩ | rfl
  · exact refl cache
  · exact room _ _

theorem commitBlocks (cache : LocalCache) (fill : Fill) (now : Int) :
    KeepsPinned versionId cache (cache.commitBlocks fill now) := by
  have written : KeepsPinned versionId cache (cache.issue
      [.writeData (.path fill.versionId) fill.begin_ fill.data]) :=
    refl cache
  have returned := written.trans
    (claimed _ fill.versionId fill.uid fun entry =>
      entry.inflight - fill.added)
  have marked := returned.trans
    (markPresent _ fill.versionId fill.uid fill.blocks)
  exact marked.trans (update _ fill.versionId fill.uid fun _ pinned =>
    ⟨rfl, rfl, pinned, fun settled => settled, fun complete => complete⟩)

theorem pin (cache : LocalCache) (other : String) (now : Int) :
    KeepsPinned versionId cache (cache.pin other now) := by
  unfold LocalCache.pin
  split
  · exact refl cache
  · rename_i entry found
    have pins : KeepsPinned versionId cache
        (cache.update other entry.uid fun entry =>
          { entry with
            pinnedAt := if entry.pins = 0 then now else entry.pinnedAt
            pins := entry.pins + 1 }) :=
      update cache other entry.uid fun _ _ =>
        ⟨rfl, rfl, Nat.succ_pos _, fun settled => settled,
          fun complete => complete⟩
    exact pins.trans (refl _)

theorem unpin (cache : LocalCache) (apart : other ≠ versionId) :
    KeepsPinned versionId cache (cache.unpin other) := by
  apply of_entry
  unfold LocalCache.unpin
  split
  · rfl
  · rw [LocalCache.update_entry, if_neg (Ne.symm apart)]

theorem release (config : CacheConfig) (cache : LocalCache)
    (apart : other ≠ versionId) :
    KeepsPinned versionId cache (cache.release config other) := by
  unfold LocalCache.release
  split
  · exact refl cache
  · rename_i entry found
    have unpinned : KeepsPinned versionId cache
        (cache.update other entry.uid fun entry =>
          { entry with pins := 0, pinnedAt := 0 }) := by
      apply of_entry
      rw [LocalCache.update_entry, if_neg (Ne.symm apart)]
    dsimp only
    split
    · exact unpinned.trans (refl _)
    · exact unpinned.trans (remove _ apart)

theorem drop (cache : LocalCache) (apart : other ≠ versionId) :
    KeepsPinned versionId cache (cache.drop other).1 := by
  apply of_entry
  unfold LocalCache.drop
  split
  · rfl
  · simp [LocalCache.entry, LocalCache.unlink, LocalCache.issue,
      Dict.get?_erase, Ne.symm apart]

theorem removeMany (cache : LocalCache) {others : List String}
    (outside : versionId ∉ others) :
    KeepsPinned versionId cache (cache.removeMany others) := by
  have dropped : KeepsPinned versionId cache (cache.dropAll others) := by
    unfold LocalCache.dropAll
    induction others generalizing cache with
    | nil => exact refl cache
    | cons other others induction =>
        simp only [List.mem_cons, not_or] at outside
        rw [List.foldl_cons]
        exact (drop cache (Ne.symm outside.1)).trans (induction _ outside.2)
  unfold LocalCache.removeMany
  dsimp only
  split
  · exact dropped.trans (refl _)
  · exact dropped

theorem releaseStale (config : CacheConfig) (queueEmpty : String → Bool)
    (now : Int) (keyed : Keyed cache)
    (holds : ¬∃ entry, cache.entry versionId = some entry ∧
      LocalCache.stalePin queueEmpty now entry = true) :
    KeepsPinned versionId cache
      (cache.releaseStale config queueEmpty now).1 := by
  have apart : ∀ entry ∈ cache.entries.values.filter
      (LocalCache.stalePin queueEmpty now), entry.versionId ≠ versionId := by
    intro entry member same
    obtain ⟨stored, stale⟩ := List.mem_filter.mp member
    exact holds ⟨entry, same ▸ mem_values_of_keyed keyed stored, stale⟩
  unfold LocalCache.releaseStale
  dsimp only
  generalize cache.entries.values.filter
    (LocalCache.stalePin queueEmpty now) = stale at apart
  clear holds keyed
  induction stale generalizing cache with
  | nil => exact refl cache
  | cons entry stale induction =>
      rw [List.foldl_cons]
      refine (release config cache (apart entry List.mem_cons_self)).trans
        (induction ?_)
      exact fun other member =>
        apart other (List.mem_cons_of_mem entry member)

theorem sweep (config : CacheConfig) (keyed : Keyed cache)
    (listing : List (String × FileKind)) (queueEmpty : String → Bool)
    (now : Int) (free : FreeSpace)
    (holds : ¬∃ entry, cache.entry versionId = some entry ∧
      LocalCache.stalePin queueEmpty now entry = true) :
    KeepsPinned versionId cache
      (cache.sweep config listing queueEmpty now free).1 := by
  have released : KeepsPinned versionId cache
      (sweepReleased config cache listing queueEmpty now) :=
    @releaseStale _ (cache.sweepOrphans listing).1 config queueEmpty now
      keyed holds
  exact released.trans
    (of_spared (sweep_spec config cache listing queueEmpty now free keyed).2)

theorem write (cache : LocalCache) (writer : StagingWriter)
    (data : List UInt8) :
    KeepsPinned versionId cache (writer.write cache data).2 := by
  unfold StagingWriter.write
  split
  · exact refl cache
  · have written : KeepsPinned versionId cache (cache.issue
        [.writeData (.handle writer.uid) writer.offset data]) :=
      refl cache
    exact written.trans (markPresent _ _ _ _)

end KeepsPinned

/-- A step that does not let go of a pinned version keeps it. -/
theorem cacheStep_keepsPinned {state after : CacheState}
    {action : CacheAction} (keyed : Keyed state.cache)
    (holds : ¬action.LetsGo config state versionId)
    (taken : cacheStep config state action = some after) :
    KeepsPinned versionId state.cache after.cache := by
  cases cacheMove taken with
  | openStaging fs other size now free refused =>
      exact .openStaging config keyed fs other size now free refused holds
  | @write _ writer data here => exact .write state.cache writer data
  | @writeFailed _ writer data written here =>
      apply KeepsPinned.of_entry
      unfold CacheState.withWriter StagingWriter.writeFailed
      dsimp only
      split <;> rfl
  | finish here finishing =>
      exact (KeepsPinned.settled _ _ _).trans (.refl _)
  | abort here | close here | cancelBlocks here => exact .refl state.cache
  | @endAbort _ writer here =>
      have apart : writer.versionId ≠ versionId := fun same =>
        holds ⟨writer, here, same⟩
      exact (KeepsPinned.settled _ _ _).trans (.remove _ apart)
  | reserve fs other size now free refused =>
      exact .reserve config keyed fs other size now free refused holds
  | claimBlocks other begin_ data free =>
      exact .claimBlocks config keyed other begin_ data free
  | @commitBlocks _ fill now here => exact .commitBlocks state.cache fill now
  | @failBlocks _ fill written here =>
      have apart : fill.versionId ≠ versionId := fun same =>
        holds ⟨fill, here, same⟩
      have partly : KeepsPinned versionId state.cache (state.cache.issue
          [.writeData (.path fill.versionId) fill.begin_
            (fill.data.take written)]) := .refl state.cache
      exact (partly.trans (.claimed _ fill.versionId fill.uid _)).trans
        (.remove _ apart)
  | pin other now => exact .pin state.cache other now
  | unpin other => exact .unpin state.cache holds
  | release other => exact .release config state.cache holds
  | remove other => exact .remove state.cache holds
  | removeMany others => exact .removeMany state.cache holds
  | evictUnpinned => exact .of_spared (evictUnpinned_spared state.cache keyed)
  | sweep listing queueEmpty now free =>
      exact .sweep config keyed listing queueEmpty now free holds

/-- The version is written completely, and its pin is not released. -/
def DiskState.HoldsPinned (now : DiskState) (versionId : String) : Prop :=
  now.state.cache.complete versionId = true ∧
    ∃ entry, now.state.cache.entry versionId = some entry ∧ 0 < entry.pins

variable {later : DiskState}

theorem KeepsPinned.holdsPinned {now : DiskState}
    (keeps : KeepsPinned versionId now.state.cache later.state.cache)
    (holds : now.HoldsPinned versionId) : later.HoldsPinned versionId := by
  obtain ⟨complete, entry, found, pinned⟩ := holds
  obtain ⟨known, foundKnown, settled, whole⟩ :=
    LocalCache.complete_iff.mp complete
  rw [found] at foundKnown
  cases foundKnown
  obtain ⟨after, foundAfter, kept⟩ := keeps entry found pinned
  exact ⟨LocalCache.complete_iff.mpr ⟨after, foundAfter,
    kept.writing settled, kept.complete whole⟩, after, foundAfter,
    kept.pinned⟩

/-- What a process leaves behind when it stops during an operation, and what
the next one makes of it. -/
theorem diskStep_crash {now : DiskState} {action : CacheAction} {count : Nat}
    {mtime : String → Int} (invariant : DiskInvariant config content now)
    (honest : action.Honest content now.state)
    (crashed : diskStep config now (.crash action count mtime) =
      some later) :
    ∃ next middle, cacheStep config now.state action = some next ∧
      Between now.state.cache middle next.cache ∧
      Recovers middle later.state.cache := by
  obtain ⟨next, operated, rest⟩ := Option.bind_eq_some_iff.mp crashed
  split at rest
  · rename_i ready
    cases rest
    obtain ⟨middle, between, mirrors⟩ :=
      invariant.interrupted operated ready honest count
    exact ⟨next, middle, operated, between, load_recovers mirrors⟩
  · cases rest

theorem diskStep_holdsPinned {now : DiskState} {action : DiskAction}
    (invariant : DiskInvariant config content now)
    (honest : action.Honest content now)
    (holds : ¬action.LetsGo config now versionId)
    (taken : diskStep config now action = some later)
    (pinned : now.HoldsPinned versionId) : later.HoldsPinned versionId := by
  have keyed := invariant.budget.keyed
  rcases diskStep_state taken with same | ⟨operation, rfl, operated⟩ |
    ⟨operation, count, mtime, rfl, _⟩
  · rw [DiskState.HoldsPinned, same]
    exact pinned
  · exact (cacheStep_keepsPinned keyed holds operated).holdsPinned pinned
  · obtain ⟨next, middle, operated, between, recovers⟩ :=
      diskStep_crash invariant honest taken
    have keeps := cacheStep_keepsPinned keyed holds operated
    obtain ⟨complete, entry, found, pins⟩ := pinned
    obtain ⟨after, foundAfter, kept⟩ := keeps entry found pins
    have afterwards : (⟨next, now.disk⟩ : DiskState).HoldsPinned
        versionId :=
      KeepsPinned.holdsPinned keeps ⟨complete, entry, found, pins⟩
    obtain ⟨whole, left, foundLeft, leftPins, _⟩ := between.kept
      versionId entry after found foundAfter kept.uid pins kept.pinned
      complete afterwards.1
    obtain ⟨loaded, entry, foundLoaded, loadedPins⟩ :=
      recovers.pinned foundLeft whole leftPins
    exact ⟨loaded, entry, foundLoaded, loadedPins⟩

/-- Wherever a process stops, the next one loads only entries whose present
blocks hold the bytes of their version, none is complete whose staging had
not ended, they take no more bytes than before, and every version that was
pinned and written completely and was not let go of since is loaded
complete and pinned. -/
theorem crash_consistent (config : CacheConfig)
    (content : String → List UInt8) {start now later : DiskState}
    (reached : ReachableWithin (diskStep config) (DiskAction.Honest content)
      DiskState.initial start)
    {actions : List DiskAction}
    (honest : Guarded (diskStep config) (DiskAction.Honest content) start
      actions)
    (ran : run (diskStep config) start actions = some now)
    {action : CacheAction} {count : Nat} {mtime : String → Int}
    (lastHonest : action.Honest content now.state)
    (crashed : diskStep config now (.crash action count mtime) =
      some later) :
    (∀ versionId entry, later.state.cache.entry versionId = some entry →
      ∀ offset < entry.size,
        entry.presentAt (offset / entry.blockSize) = true →
          ∃ bytes, later.disk.data versionId = some bytes ∧
            Agrees (content versionId) bytes offset) ∧
    (∀ versionId, later.state.cache.complete versionId = true →
      now.state.cache.complete versionId = true ∨
        ∃ next, cacheStep config now.state action = some next ∧
          next.cache.complete versionId = true) ∧
    later.state.cache.usedBytes ≤ now.state.cache.usedBytes ∧
    ∀ versionId, start.HoldsPinned versionId →
      Guarded (diskStep config)
        (fun state label => ¬label.LetsGo config state versionId) start
        actions →
      ¬action.LetsGo config now.state versionId →
        later.HoldsPinned versionId := by
  have started := DiskInvariant.reachable reached
  have invariant : DiskInvariant config content now :=
    run_invariant (fun _ _ _ invariant honest taken =>
      invariant.step honest taken) started honest ran
  have crashHonest : (DiskAction.crash action count mtime).Honest content
      now := lastHonest
  have after := invariant.step crashHonest crashed
  obtain ⟨next, middle, operated, between, recovers⟩ :=
    diskStep_crash invariant lastHonest crashed
  refine ⟨?_, ?_, recovers.usedBytes between, ?_⟩
  · intro versionId entry found offset inside present
    obtain ⟨bytes, here, _, agrees⟩ :=
      (after.aligned.mirrors.stored versionId entry found).data
    exact ⟨bytes, here, agrees offset inside present⟩
  · intro versionId complete
    refine (between.complete versionId (recovers.complete complete)).imp_right
      fun whole => ?_
    exact ⟨next, operated, whole⟩
  · intro versionId pinned kept lastKept
    have step : ∀ state label next,
        (DiskInvariant config content state ∧ state.HoldsPinned versionId) →
        (label.Honest content state ∧
          ¬label.LetsGo config state versionId) →
        diskStep config state label = some next →
        DiskInvariant config content next ∧ next.HoldsPinned versionId := by
      rintro state label next ⟨sound, held⟩ ⟨allowed, keeps⟩ taken
      exact ⟨sound.step allowed taken,
        diskStep_holdsPinned sound allowed keeps taken held⟩
    have still := run_invariant step ⟨started, pinned⟩ (honest.and kept) ran
    have crashKept : ¬(DiskAction.crash action count mtime).LetsGo config
        now versionId := lastKept
    exact diskStep_holdsPinned invariant crashHonest crashKept crashed
      still.2

/-- One byte is staged under a pin. -/
def stagedVersion : List DiskAction :=
  [.perform (.openStaging "fs" "v" 1 0 (fun _ => none) none),
    .perform (.pin "v" 1), .openHandle 0, .perform (.write 0 [7]),
    .perform (.finish 0)]

/-- The process stops while it evicts what is not pinned. -/
theorem crash_consistent_staged :
    ∃ now later,
      run (diskStep ⟨true, 1, 4, 0, 64, true, 0, 0, 100, by decide⟩)
        DiskState.initial stagedVersion = some now ∧
      diskStep ⟨true, 1, 4, 0, 64, true, 0, 0, 100, by decide⟩ now
        (.crash .evictUnpinned 0 fun _ => 0) = some later ∧
      later.HoldsPinned "v" := by
  have honest : Guarded
      (diskStep ⟨true, 1, 4, 0, 64, true, 0, 0, 100, by decide⟩)
      (DiskAction.Honest fun _ => [7]) DiskState.initial stagedVersion := by
    iterate 3
      refine ⟨trivial, ?_⟩
      rintro _ ⟨⟩
    refine ⟨?_, ?_⟩
    · rintro writer ⟨⟩ _
      exact List.prefix_refl _
    · rintro _ ⟨⟩
      exact ⟨trivial, fun _ _ => trivial⟩
  have reached : ReachableWithin
      (diskStep ⟨true, 1, 4, 0, 64, true, 0, 0, 100, by decide⟩)
      (DiskAction.Honest fun _ => [7]) DiskState.initial _ :=
    ⟨stagedVersion, honest, rfl⟩
  have consistent := @crash_consistent _ _ _ _ _ reached [] trivial rfl
    .evictUnpinned 0 (fun _ => 0) trivial rfl
  refine ⟨_, _, rfl, rfl, consistent.2.2.2 "v" ?_ trivial ?_⟩
  · exact ⟨by decide, _, rfl, by decide⟩
  · exact fun impossible => impossible

end Tgdcfs
