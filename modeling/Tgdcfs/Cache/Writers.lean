import Tgdcfs.Cache.Pinned

/-!
# Writers among the other tasks

A writer keeps its position, and no two writers write the same entry.  An
entry that is being staged stays so until its own writer finishes.
-/

namespace Tgdcfs

open Lib

variable {content : String → List UInt8} {config : CacheConfig}

/-- Entries that are not new were there before, staged or not as they are
now; `ended` is the identity of the one whose writer finishes. -/
structure Inherits (ended : Option Nat) (before after : LocalCache) :
    Prop where
  nextUid : before.nextUid ≤ after.nextUid
  entries : ∀ versionId later, after.entry versionId = some later →
    later.uid < before.nextUid → ended ≠ some later.uid →
      ∃ earlier, before.entry versionId = some earlier ∧
        earlier.uid = later.uid ∧ earlier.writing = later.writing

namespace Inherits

variable {ended : Option Nat} {before middle after : LocalCache}

theorem of_fades (fades : Fades before after) :
    Inherits ended before after := by
  refine ⟨fades.nextUid.ge, ?_⟩
  intro versionId later found _ _
  obtain ⟨earlier, earlierFound, faded⟩ :=
    fades.entries versionId later found
  exact ⟨earlier, earlierFound, faded.uid.symm, faded.writing.symm⟩

theorem of_entries_eq (entries : after.entries = before.entries)
    (nextUid : after.nextUid = before.nextUid) :
    Inherits ended before after :=
  of_fades (.of_entries_eq entries nextUid)

theorem trans (first : Inherits ended before middle)
    (second : Inherits ended middle after) :
    Inherits ended before after := by
  refine ⟨first.nextUid.trans second.nextUid, ?_⟩
  intro versionId later found older apart
  obtain ⟨between, foundBetween, sameUid, sameFlag⟩ :=
    second.entries versionId later found
      (lt_of_lt_of_le older first.nextUid) apart
  obtain ⟨earlier, earlierFound, uid, flag⟩ :=
    first.entries versionId between foundBetween (sameUid ▸ older)
      (sameUid ▸ apart)
  exact ⟨earlier, earlierFound, uid.trans sameUid, flag.trans sameFlag⟩

theorem update (cache : LocalCache) (versionId : String) (uid : Nat)
    {change : CacheEntry → CacheEntry}
    (same : ∀ entry : CacheEntry, (change entry).uid = entry.uid ∧
      (change entry).writing = entry.writing) :
    Inherits ended cache (cache.update versionId uid change) := by
  refine ⟨le_rfl, ?_⟩
  intro other later found _ _
  rw [LocalCache.update_entry] at found
  split at found
  · obtain ⟨earlier, earlierFound, changed⟩ :=
      Option.map_eq_some_iff.mp found
    refine ⟨earlier, earlierFound, ?_⟩
    split at changed
    · rw [← changed]
      exact ⟨(same earlier).1.symm, (same earlier).2.symm⟩
    · rw [changed]
      exact ⟨rfl, rfl⟩
  · exact ⟨later, found, rfl, rfl⟩

theorem markPresent (cache : LocalCache) (versionId : String) (uid : Nat)
    (indices : List Nat) :
    Inherits ended cache (cache.markPresent versionId uid indices) := by
  unfold LocalCache.markPresent
  split
  · exact of_entries_eq rfl rfl
  · split
    · exact of_entries_eq rfl rfl
    · rename_i entry _ _
      have marked : Inherits ended cache
          (cache.update versionId uid fun other => other.mark
            (indices.filter fun index => !entry.presentAt index)) :=
        update cache versionId uid fun _ => ⟨rfl, rfl⟩
      exact marked.trans (of_entries_eq rfl rfl)

theorem commitBlocks (cache : LocalCache) (fill : Fill) (now : Int) :
    Inherits ended cache (cache.commitBlocks fill now) := by
  have written : Inherits ended cache (cache.issue
      [.writeData (.path fill.versionId) fill.begin_ fill.data]) :=
    of_entries_eq rfl rfl
  have returned : Inherits ended _ ((cache.issue
      [.writeData (.path fill.versionId) fill.begin_
        fill.data]).returnClaim fill) :=
    update _ fill.versionId fill.uid fun _ => ⟨rfl, rfl⟩
  have marked := (written.trans returned).trans
    (markPresent _ fill.versionId fill.uid fill.blocks)
  exact marked.trans
    (update _ fill.versionId fill.uid fun _ => ⟨rfl, rfl⟩)

theorem failBlocks (cache : LocalCache) (fill : Fill) (written : Nat) :
    Inherits ended cache (cache.failBlocks fill written) := by
  have partly : Inherits ended cache (cache.issue [.writeData
      (.path fill.versionId) fill.begin_ (fill.data.take written)]) :=
    of_entries_eq rfl rfl
  have returned : Inherits ended _ ((cache.issue [.writeData
      (.path fill.versionId) fill.begin_
        (fill.data.take written)]).returnClaim fill) :=
    update _ fill.versionId fill.uid fun _ => ⟨rfl, rfl⟩
  have removed : Wanes (fun _ => []) false false
      ((cache.issue [.writeData (.path fill.versionId) fill.begin_
        (fill.data.take written)]).returnClaim fill)
      (cache.failBlocks fill written) := .remove _ fill.versionId
  exact (partly.trans returned).trans (of_fades removed.1)

theorem admitEntry (config : CacheConfig) (cache : LocalCache)
    (fs versionId : String) (size charge : Nat) (now : Int)
    (writing : Bool) (free : FreeSpace) (refused : Option FileKind) :
    Inherits ended cache (cache.admitEntry config fs versionId size charge
      now writing free refused).1 := by
  have room : Inherits ended cache
      (cache.makeRoom config charge true none free).1 :=
    of_fades (LocalCache.makeRoom_fades config cache charge true none free)
  unfold LocalCache.admitEntry
  dsimp only
  split
  · exact room
  · refine room.trans ?_
    generalize (cache.makeRoom config charge true none free).1 = roomy
    rcases refused with _ | _ | _
    · refine ⟨Nat.le_succ _, ?_⟩
      intro other later found older _
      have placed : (if other = versionId then
          some (roomy.newEntry config fs versionId size now writing)
          else roomy.entry other) = some later :=
        (Dict.get?_set ..).symm.trans found
      split at placed
      · cases placed
        exact absurd older (Nat.lt_irrefl _)
      · exact ⟨later, placed, rfl, rfl⟩
    · exact of_entries_eq rfl rfl
    · exact of_entries_eq rfl rfl

theorem openStaging (config : CacheConfig) (cache : LocalCache)
    (fs versionId : String) (size now : Int) (free : FreeSpace)
    (refused : Option FileKind) :
    Inherits ended cache (cache.openStaging config fs versionId size now
      free refused).1 := by
  have cleared : Wanes (fun _ => []) false false cache
      (cache.removeExisting versionId) := .removeExisting cache versionId
  unfold LocalCache.openStaging
  split
  · exact of_entries_eq rfl rfl
  · dsimp only
    split
    · exact of_fades cleared.1
    · exact (of_fades cleared.1).trans (admitEntry ..)

theorem reserve (config : CacheConfig) (cache : LocalCache)
    (fs versionId : String) (size now : Int) (free : FreeSpace)
    (refused : Option FileKind) :
    Inherits ended cache (cache.reserve config fs versionId size now free
      refused).1 := by
  have cleared : Wanes (fun _ => []) false false cache
      (cache.removeExisting versionId) := .removeExisting cache versionId
  unfold LocalCache.reserve
  split
  · exact of_entries_eq rfl rfl
  · exact (of_fades cleared.1).trans (admitEntry ..)

theorem pin (cache : LocalCache) (versionId : String) (now : Int) :
    Inherits ended cache (cache.pin versionId now) := by
  unfold LocalCache.pin
  split
  · exact of_entries_eq rfl rfl
  · rename_i entry _
    have pinned : Inherits ended cache
        (cache.update versionId entry.uid fun entry =>
          { entry with
            pinnedAt := if entry.pins = 0 then now else entry.pinnedAt
            pins := entry.pins + 1 }) :=
      update cache versionId entry.uid fun _ => ⟨rfl, rfl⟩
    exact pinned.trans (of_entries_eq rfl rfl)

theorem write (cache : LocalCache) (writer : StagingWriter)
    (data : List UInt8) :
    Inherits ended cache (writer.write cache data).2 := by
  unfold StagingWriter.write
  split
  · exact of_entries_eq rfl rfl
  · have written : Inherits ended cache (cache.issue
        [.writeData (.handle writer.uid) writer.offset data]) :=
      of_entries_eq rfl rfl
    exact written.trans (markPresent _ _ _ _)

/-- A writer that finishes ends the staging of its own entry only. -/
theorem finish (cache : LocalCache) (writer : StagingWriter) :
    Inherits (some writer.uid) cache (writer.finish cache).2 := by
  refine ⟨le_rfl, ?_⟩
  intro other later found _ apart
  have placed : (if other = writer.versionId then
      (cache.entry other).map fun entry =>
        if entry.uid = writer.uid then { entry with writing := false }
        else entry
      else cache.entry other) = some later :=
    (LocalCache.update_entry ..).symm.trans found
  split at placed
  · obtain ⟨earlier, earlierFound, changed⟩ :=
      Option.map_eq_some_iff.mp placed
    split at changed
    · rename_i same
      rw [← changed] at apart
      exact absurd (congrArg some same.symm) apart
    · rw [changed] at earlierFound
      exact ⟨later, earlierFound, rfl, rfl⟩
  · exact ⟨later, placed, rfl, rfl⟩

end Inherits

/-- The identity of the entry whose writer finishes. -/
def CacheAction.ended (state : CacheState) : CacheAction → Option Nat
  | .finish position => (state.writers[position]?).map StagingWriter.uid
  | _ => none

variable {state after : CacheState} {action : CacheAction}

theorem cacheStep_inherits (taken : cacheStep config state action = some after)
    : Inherits (action.ended state) state.cache after.cache := by
  have waned : ∀ {cache : LocalCache},
      Wanes (fun _ => []) false false state.cache cache →
        Inherits (action.ended state) state.cache cache :=
    fun wanes => .of_fades wanes.1
  cases cacheMove taken with
  | openStaging fs versionId size now free refused =>
      exact .openStaging config state.cache fs versionId size now free refused
  | @write _ writer data here => exact .write state.cache writer data
  | @writeFailed _ writer data written here =>
      apply Inherits.of_entries_eq
      · unfold CacheState.withWriter StagingWriter.writeFailed
        dsimp only
        split <;> rfl
      · unfold CacheState.withWriter StagingWriter.writeFailed
        dsimp only
        split <;> rfl
  | @finish _ writer here finishing =>
      rw [CacheAction.ended, here]
      exact .finish state.cache writer
  | abort here | close here | cancelBlocks here =>
      exact .of_entries_eq rfl rfl
  | @endAbort _ writer here => exact waned (.endAbort state.cache writer)
  | reserve fs versionId size now free refused =>
      exact .reserve config state.cache fs versionId size now free refused
  | claimBlocks versionId begin_ data free =>
      exact waned (.claimBlocks config state.cache versionId begin_ data free)
  | @commitBlocks _ fill now here => exact .commitBlocks state.cache fill now
  | @failBlocks _ fill written here =>
      exact .failBlocks state.cache fill written
  | pin versionId now => exact .pin state.cache versionId now
  | unpin versionId => exact waned (.unpin state.cache versionId)
  | release versionId => exact waned (.release config state.cache versionId)
  | remove versionId => exact waned (.remove state.cache versionId)
  | removeMany versionIds => exact waned (.removeMany state.cache versionIds)
  | evictUnpinned => exact waned (.evictUnpinned state.cache)
  | sweep listing queueEmpty now free =>
      exact waned (.sweep config state.cache listing queueEmpty now free)

/-- The operation is a step of the writer at a position. -/
def CacheAction.Moves (position : Nat) : CacheAction → Prop
  | .write other _ | .writeFailed other _ _ | .finish other | .abort other
  | .endAbort other | .close other => other = position
  | _ => False

/-- The writers after an operation: one has moved, or one has been added. -/
theorem cacheStep_writers
    (taken : cacheStep config state action = some after) :
    (∃ position writer moved, state.writers[position]? = some writer ∧
      action.Moves position ∧ moved.uid = writer.uid ∧
      after.writers = state.writers.set position moved) ∨
    ∃ added : Option StagingWriter,
      after.writers = state.writers ++ added.toList ∧
      ∀ writer, added = some writer → writer.uid = state.cache.nextUid := by
  have still : after.writers = state.writers →
      ∃ added : Option StagingWriter,
        after.writers = state.writers ++ added.toList ∧
        ∀ writer, added = some writer →
          writer.uid = state.cache.nextUid := by
    intro same
    exact ⟨none, by simpa using same, fun _ impossible => by
      cases impossible⟩
  cases cacheMove taken with
  | openStaging fs versionId size now free refused =>
      exact .inr ⟨_, rfl, fun writer opened =>
        (DiskInvariant.openStaging_writer opened).1⟩
  | write data here =>
      refine .inl ⟨_, _, _, here, rfl, ?_, rfl⟩
      unfold StagingWriter.write
      split <;> rfl
  | writeFailed data written here =>
      refine .inl ⟨_, _, _, here, rfl, ?_, rfl⟩
      unfold StagingWriter.writeFailed
      split <;> rfl
  | @finish _ writer here finishing =>
      exact .inl ⟨_, _, (writer.finish state.cache).1, here, rfl, rfl, rfl⟩
  | @abort _ writer here =>
      exact .inl ⟨_, _, writer.beginAbort, here, rfl, rfl, rfl⟩
  | @endAbort _ writer here =>
      exact .inl ⟨_, _, (writer.endAbort state.cache).1, here, rfl, rfl, rfl⟩
  | @close _ writer here =>
      exact .inl ⟨_, _, _, here, rfl, (DiskInvariant.close_spec writer).1, rfl⟩
  | reserve | claimBlocks | commitBlocks | failBlocks | cancelBlocks | pin
  | unpin | release | remove | removeMany | evictUnpinned | sweep =>
      exact .inr (still rfl)

/-- No two writers write the same entry. -/
def CacheState.Apart (state : CacheState) : Prop :=
  (state.writers.map StagingWriter.uid).Nodup

theorem CacheState.Apart.step (apart : state.Apart)
    (invariant : CacheInvariant config state)
    (taken : cacheStep config state action = some after) : after.Apart := by
  rcases cacheStep_writers taken with
    ⟨position, writer, moved, here, _, same, writers⟩ |
    ⟨added, writers, fresh⟩
  · obtain ⟨inside, found⟩ := List.getElem?_eq_some_iff.mp here
    have listed : position <
        (state.writers.map StagingWriter.uid).length := by
      simpa using inside
    have kept := List.set_getElem_self listed
    rw [List.getElem_map, found] at kept
    rw [CacheState.Apart, writers, List.map_set, same, kept]
    exact apart
  · rw [CacheState.Apart, writers, List.map_append]
    cases added with
    | none => simpa [CacheState.Apart] using apart
    | some writer =>
        rw [List.nodup_append]
        refine ⟨apart, by simp, ?_⟩
        intro uid member other otherMember same
        obtain ⟨older, olderMember, rfl⟩ := List.mem_map.mp member
        have below := (invariant.writers older olderMember).1
        have new := fresh writer rfl
        simp only [Option.toList_some, List.map_cons, List.map_nil,
          List.mem_singleton] at otherMember
        omega

theorem CacheState.Apart.position_eq (apart : state.Apart) {first second : Nat}
    {writer other : StagingWriter} (here : state.writers[first]? = some writer)
    (there : state.writers[second]? = some other)
    (same : writer.uid = other.uid) : first = second := by
  have inside := (List.getElem?_eq_some_iff.mp here).1
  have listed : first < (state.writers.map StagingWriter.uid).length := by
    simpa using inside
  apply (List.getElem?_inj listed apart).mp
  rw [List.getElem?_map, List.getElem?_map, here, there, Option.map_some,
    Option.map_some, same]

/-- A pinned entry that nothing lets go of is staged as long as its writer
does not finish. -/
theorem cacheStep_staged {versionId : String}
    (invariant : CacheInvariant config state)
    (taken : cacheStep config state action = some after)
    (holds : ¬action.LetsGo config state versionId) {entry : CacheEntry}
    (found : state.cache.entry versionId = some entry)
    (pinned : 0 < entry.pins)
    (unfinished : action.ended state ≠ some entry.uid) :
    ∃ later, after.cache.entry versionId = some later ∧
      later.uid = entry.uid ∧ 0 < later.pins ∧
      later.writing = entry.writing := by
  obtain ⟨later, laterFound, kept⟩ :=
    cacheStep_keepsPinned invariant.keyed holds taken entry found pinned
  have older : later.uid < state.cache.nextUid := by
    rw [kept.uid]
    exact invariant.fresh versionId entry found
  obtain ⟨earlier, earlierFound, _, flag⟩ :=
    (cacheStep_inherits taken).entries versionId later laterFound older
      (kept.uid ▸ unfinished)
  rw [found] at earlierFound
  cases earlierFound
  exact ⟨later, laterFound, kept.uid, kept.pinned, flag.symm⟩

theorem cacheStep_writerAt {position : Nat} {writer : StagingWriter}
    (here : state.writers[position]? = some writer)
    (unmoved : ¬action.Moves position)
    (taken : cacheStep config state action = some after) :
    after.writers[position]? = some writer := by
  rcases cacheStep_writers taken with
    ⟨other, _, moved, _, moves, _, writers⟩ | ⟨added, writers, _⟩
  · have apart : other ≠ position := by
      intro same
      exact unmoved (same ▸ moves)
    rw [writers, List.getElem?_set_ne apart]
    exact here
  · have inside := (List.getElem?_eq_some_iff.mp here).1
    rw [writers, List.getElem?_append_left inside]
    exact here

theorem diskStep_apart {now later : DiskState} {action : DiskAction}
    (invariant : CacheInvariant config now.state)
    (apart : now.state.Apart)
    (taken : diskStep config now action = some later) :
    later.state.Apart := by
  rcases diskStep_state taken with same | ⟨operation, _, operated⟩ |
    ⟨_, _, _, _, absent⟩
  · rw [same]
    exact apart
  · exact apart.step invariant operated
  · rw [CacheState.Apart, absent]
    exact List.nodup_nil

theorem apart_reachable {now : DiskState}
    (reached : ReachableWithin (diskStep config) (DiskAction.Honest content)
      DiskState.initial now) : now.state.Apart := by
  have start : DiskInvariant config content DiskState.initial ∧
      DiskState.initial.state.Apart := ⟨.initial, List.nodup_nil⟩
  have step : ∀ state action next,
      (DiskInvariant config content state ∧ state.state.Apart) →
      action.Honest content state → diskStep config state action =
        some next →
      DiskInvariant config content next ∧ next.state.Apart := by
    intro state action next invariant honest taken
    exact ⟨invariant.1.step honest taken,
      diskStep_apart invariant.1.budget invariant.2 taken⟩
  exact (reached.invariant step start).2

end Tgdcfs
