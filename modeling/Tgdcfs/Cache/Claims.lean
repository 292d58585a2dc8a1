import Tgdcfs.Cache.Budget

/-!
# Claims of read-cache fills

A fill claims the bytes that it is about to write and gives them back when
its write has ended or failed.  A fill that is cancelled while it is
suspended gives nothing back.  As long as that does not happen to bytes of an
entry that is still cached, the bytes an entry has in flight are those of the
suspended fills, in every state of every run.
-/

namespace Tgdcfs

open Lib

/-- The entries of `after` are entries of `before` with the same claims, or
new ones without claims. -/
structure KeepsClaims (before after : LocalCache) : Prop where
  entries : ∀ versionId later, after.entry versionId = some later →
    later.versionId = versionId ∧ later.uid < after.nextUid ∧
      ((∃ earlier, before.entry versionId = some earlier ∧
          later.uid = earlier.uid ∧ later.inflight = earlier.inflight) ∨
        (before.nextUid ≤ later.uid ∧ later.inflight = 0))
  nextUid : before.nextUid ≤ after.nextUid

/-- The bytes in flight of every entry are those that suspended fills have
claimed. -/
structure ClaimsHeld (state : CacheState) : Prop where
  keyed : Keyed state.cache
  fresh : ∀ versionId entry, state.cache.entry versionId = some entry →
    entry.uid < state.cache.nextUid
  fillsFresh : ∀ fill ∈ state.fills, fill.uid < state.cache.nextUid
  held : ∀ versionId entry, state.cache.entry versionId = some entry →
    entry.inflight = claimed state.fills versionId entry.uid

/-- A call of `write_blocks` is cancelled only where it has claimed nothing,
or where its entry is not cached any more. -/
def CancelsNoClaim (state : CacheState) : CacheAction → Prop
  | .cancelBlocks position => ∀ fill, state.fills[position]? = some fill →
      fill.added = 0 ∨ ∀ entry,
        state.cache.entry fill.versionId = some entry →
          entry.uid ≠ fill.uid
  | _ => True

namespace ClaimsHeld

variable {config : CacheConfig} {state : CacheState}

theorem withWriters (claims : ClaimsHeld state)
    (writers : List StagingWriter) :
    ClaimsHeld { state with writers := writers } :=
  ⟨claims.keyed, claims.fresh, claims.fillsFresh, claims.held⟩

variable {after : LocalCache}

variable (claims : ClaimsHeld state)
include claims

theorem keeps (kept : KeepsClaims state.cache after) :
    ClaimsHeld (state.withCache after) := by
  refine ⟨?_, ?_, ?_, ?_⟩
  · intro versionId later found
    exact (kept.entries versionId later found).1
  · intro versionId later found
    exact (kept.entries versionId later found).2.1
  · intro fill member
    exact (claims.fillsFresh fill member).trans_le kept.nextUid
  · intro versionId later found
    obtain ⟨_, _, older | newer⟩ := kept.entries versionId later found
    · obtain ⟨earlier, before, uid, inflight⟩ := older
      rw [inflight, uid]
      exact claims.held versionId earlier before
    · obtain ⟨new, unclaimed⟩ := newer
      rw [unclaimed]
      symm
      apply CacheInvariant.claimed_eq_zero
      intro fill member
      exact (claims.fillsFresh fill member).trans_le new

theorem later
    (entries : ∀ versionId later, after.entry versionId = some later →
      ∃ earlier, state.cache.entry versionId = some earlier ∧
        later.versionId = earlier.versionId ∧ later.uid = earlier.uid ∧
          later.inflight = earlier.inflight)
    (nextUid : after.nextUid = state.cache.nextUid) :
    ClaimsHeld (state.withCache after) := by
  apply claims.keeps
  refine ⟨?_, Nat.le_of_eq nextUid.symm⟩
  intro versionId later found
  obtain ⟨earlier, before, named, uid, inflight⟩ :=
    entries versionId later found
  refine ⟨?_, ?_, .inl ⟨earlier, before, uid, inflight⟩⟩
  · rw [named, claims.keyed versionId earlier before]
  · rw [uid, nextUid]
    exact claims.fresh versionId earlier before

theorem evolves (evolution : Evolves state.cache after) :
    ClaimsHeld (state.withCache after) := by
  apply claims.later
  · intro versionId later found
    obtain ⟨earlier, before, stage⟩ :=
      evolution.entries versionId later found
    exact ⟨earlier, before, stage.versionId, stage.uid, stage.inflight⟩
  · exact evolution.nextUid

theorem update (versionId : String) (uid : Nat)
    (change : CacheEntry → CacheEntry)
    (named : ∀ entry, (change entry).versionId = entry.versionId)
    (same : ∀ entry, (change entry).uid = entry.uid)
    (inflight : ∀ entry, (change entry).inflight = entry.inflight) :
    ClaimsHeld (state.withCache
      (state.cache.update versionId uid change)) := by
  apply claims.later
  · intro other later found
    rw [CacheInvariant.update_entry] at found
    split at found
    · obtain ⟨earlier, before, rfl⟩ := Option.map_eq_some_iff.mp found
      refine ⟨earlier, before, ?_⟩
      split
      · exact ⟨named earlier, same earlier, inflight earlier⟩
      · exact ⟨rfl, rfl, rfl⟩
    · exact ⟨later, found, rfl, rfl, rfl⟩
  · rfl

theorem markPresent (versionId : String) (uid : Nat) (indices : List Nat) :
    ClaimsHeld (state.withCache
      (state.cache.markPresent versionId uid indices)) := by
  apply claims.later
  · intro other later found
    obtain ⟨earlier, before, stage⟩ :=
      CacheInvariant.markPresent_later _ _ _ _ other later found
    exact ⟨earlier, before, stage.versionId, stage.uid, stage.inflight⟩
  · exact CacheInvariant.markPresent_nextUid _ _ _ _

theorem admitEntry (fs versionId : String) (size charge : Nat) (now : Int)
    (writing : Bool) (free : FreeSpace) (refused : Option FileKind) :
    ClaimsHeld (state.withCache
      (state.cache.admitEntry config fs versionId size charge now writing
        free refused).1) := by
  have room := (makeRoom_spec config state.cache charge true none free
    claims.keyed).evolves
  unfold LocalCache.admitEntry
  dsimp only
  split
  · exact claims.evolves room
  · have created := CacheInvariant.createFiles_evolves
      (state.cache.makeRoom config charge true none free).1
      ((state.cache.makeRoom config charge true none free).1.newEntry config
        fs versionId size now writing) refused
    have both := room.trans created
    split
    · have kept := claims.evolves both
      apply kept.keeps
      refine ⟨?_, Nat.le_succ _⟩
      intro other entry found
      change Dict.get? (Dict.set _ versionId _) other = some entry at found
      rw [Dict.get?_set] at found
      split at found
      · rename_i here
        cases found
        have supplied := created.nextUid
        refine ⟨here.symm, ?_, .inr ⟨?_, rfl⟩⟩
        · exact Nat.lt_succ_of_le supplied.ge
        · exact supplied.le
      · exact ⟨kept.keyed other entry found,
          Nat.lt_succ_of_lt (kept.fresh other entry found),
          .inl ⟨entry, found, rfl, rfl⟩⟩
    · exact claims.evolves both

theorem openStaging (fs versionId : String) (size now : Int) (free : FreeSpace)
    (refused : Option FileKind) :
    ClaimsHeld (state.withCache
      (state.cache.openStaging config fs versionId size now free
        refused).1) := by
  have cleared := claims.evolves
    (Evolves.removeExisting state.cache versionId)
  unfold LocalCache.openStaging
  split
  · exact claims
  · dsimp only
    split
    · exact cleared
    · exact cleared.admitEntry fs versionId size.toNat size.toNat now true
        free refused

theorem reserve (fs versionId : String) (size now : Int) (free : FreeSpace)
    (refused : Option FileKind) :
    ClaimsHeld (state.withCache
      (state.cache.reserve config fs versionId size now free
        refused).1) := by
  have cleared := claims.evolves
    (Evolves.removeExisting state.cache versionId)
  unfold LocalCache.reserve
  split
  · exact claims
  · exact cleared.admitEntry fs versionId size.toNat 0 now false free refused

private theorem addClaim (fill : Fill) {entry : CacheEntry}
    (found : state.cache.entry fill.versionId = some entry)
    (same : entry.uid = fill.uid) :
    ClaimsHeld
      { state with
        cache := state.cache.update fill.versionId fill.uid fun entry =>
          entry.withInflight (entry.inflight + fill.added)
        fills := state.fills ++ [fill] } := by
  have older := claims.fresh fill.versionId entry found
  refine ⟨?_, ?_, ?_, ?_⟩
  · intro versionId later laterFound
    rcases CacheInvariant.update_cases found same laterFound with
      ⟨rfl, rfl⟩ | ⟨_, kept⟩
    · exact claims.keyed fill.versionId entry found
    · exact claims.keyed versionId later kept
  · intro versionId later laterFound
    rcases CacheInvariant.update_cases found same laterFound with
      ⟨rfl, rfl⟩ | ⟨_, kept⟩
    · exact older
    · exact claims.fresh versionId later kept
  · intro other member
    rcases List.mem_append.mp member with suspended | new
    · exact claims.fillsFresh other suspended
    · cases List.mem_singleton.mp new
      exact same ▸ older
  · intro versionId later laterFound
    simp only [CacheInvariant.claimed_append]
    rcases CacheInvariant.update_cases found same laterFound with
      ⟨rfl, rfl⟩ | ⟨elsewhere, kept⟩
    · have before := claims.held fill.versionId entry found
      simp only [CacheEntry.withInflight_inflight,
        CacheEntry.withInflight_uid, same, and_self, if_true] at before ⊢
      rw [before]
    · simp only [elsewhere.symm, false_and, if_false, Nat.add_zero]
      exact claims.held versionId later kept

theorem claimBlocks (versionId : String) (begin_ : Nat) (data : List UInt8)
    (free : FreeSpace) :
    ClaimsHeld
      { state with
        cache := (state.cache.claimBlocks config versionId begin_ data
          free).1
        fills := state.fills ++ (state.cache.claimBlocks config versionId
          begin_ data free).2.toList } := by
  apply LocalCache.claimBlocks_cases (P := fun later claim => ClaimsHeld
    { state with
      cache := later
      fills := state.fills ++ claim.toList })
  · simpa using claims
  · intro entry needed _
    simpa [CacheState.withCache] using claims.evolves (makeRoom_spec config
      state.cache needed false (some entry.uid) free claims.keyed).evolves
  · intro entry fill roomy found _ _ claim made _
    subst fill
    rcases made with ⟨_, rfl⟩ | rfl
    · exact claims.addClaim ⟨entry.uid, versionId, begin_, data, _, _⟩
        found rfl
    · have room := makeRoom_spec config state.cache
        (entry.missingBytes
          (LocalCache.coveredBlocks entry begin_ data.length))
        false (some entry.uid) free claims.keyed
      have kept := room.spares versionId entry found
        (not_mem_lruOrder_keep state.cache entry)
      exact (claims.evolves room.evolves).addClaim
        ⟨entry.uid, versionId, begin_, data, _, _⟩ kept rfl

omit claims

variable {position : Nat} {fill : Fill}

variable (claims : ClaimsHeld state)
include claims

private theorem returnClaim (here : state.fills[position]? = some fill) :
    ClaimsHeld
      { state with
        cache := state.cache.returnClaim fill
        fills := state.fills.eraseIdx position } := by
  have stages : ∀ versionId later,
      (state.cache.returnClaim fill).entry versionId = some later →
        ∃ earlier, state.cache.entry versionId = some earlier ∧
          later = if fill.versionId = versionId ∧ fill.uid = earlier.uid then
            earlier.withInflight (earlier.inflight - fill.added)
          else earlier := by
    intro versionId later found
    rw [LocalCache.returnClaim, CacheInvariant.update_entry] at found
    split at found
    · rename_i same
      obtain ⟨earlier, before, rfl⟩ := Option.map_eq_some_iff.mp found
      exact ⟨earlier, before, by simp [same, eq_comm]⟩
    · rename_i elsewhere
      exact ⟨later, found, by simp [Ne.symm elsewhere]⟩
  refine ⟨?_, ?_, ?_, ?_⟩
  · intro versionId later found
    obtain ⟨earlier, before, rfl⟩ := stages versionId later found
    have named := claims.keyed versionId earlier before
    split <;> exact named
  · intro versionId later found
    obtain ⟨earlier, before, rfl⟩ := stages versionId later found
    have older := claims.fresh versionId earlier before
    split <;> exact older
  · intro other member
    exact claims.fillsFresh other (List.mem_of_mem_eraseIdx member)
  · intro versionId later found
    obtain ⟨earlier, before, rfl⟩ := stages versionId later found
    have total := claims.held versionId earlier before
    have part := CacheInvariant.claimed_eraseIdx here versionId earlier.uid
    split
    · rename_i same
      rw [if_pos same] at part
      simp only [CacheEntry.withInflight_inflight,
        CacheEntry.withInflight_uid]
      omega
    · rename_i different
      rw [if_neg different] at part
      change _ = claimed (state.fills.eraseIdx position) _ _
      omega

theorem commitBlocks (here : state.fills[position]? = some fill) (now : Int) :
    ClaimsHeld
      { state with
        cache := state.cache.commitBlocks fill now
        fills := state.fills.eraseIdx position } := by
  have written := claims.evolves (Evolves.issue state.cache
    [.writeData (.path fill.versionId) fill.begin_ fill.data])
  have returned := written.returnClaim here
  have marked := returned.markPresent fill.versionId fill.uid fill.blocks
  exact marked.update fill.versionId fill.uid
    (fun entry => { entry with lastAccess := now })
    (fun _ => rfl) (fun _ => rfl) fun _ => rfl

/-- Forgetting a fill concerns only the entry that it had claimed for. -/
private theorem forget (here : state.fills[position]? = some fill)
    (gone : ∀ entry, state.cache.entry fill.versionId = some entry →
      fill.added = 0 ∨ entry.uid ≠ fill.uid) :
    ClaimsHeld { state with fills := state.fills.eraseIdx position } := by
  refine ⟨claims.keyed, claims.fresh, ?_, ?_⟩
  · intro other member
    exact claims.fillsFresh other (List.mem_of_mem_eraseIdx member)
  · intro versionId entry found
    have total := claims.held versionId entry found
    have part := CacheInvariant.claimed_eraseIdx here versionId entry.uid
    have nothing : (if fill.versionId = versionId ∧ fill.uid = entry.uid
        then fill.added else 0) = 0 := by
      split
      · rename_i same
        obtain ⟨rfl, identical⟩ := same
        rcases gone entry found with unclaimed | other
        · exact unclaimed
        · exact absurd identical.symm other
      · rfl
    change entry.inflight = claimed (state.fills.eraseIdx position) _ _
    omega

theorem failBlocks (here : state.fills[position]? = some fill)
    (written : Nat) :
    ClaimsHeld
      { state with
        cache := state.cache.failBlocks fill written
        fills := state.fills.eraseIdx position } := by
  have dropped : Evolves state.cache
      (state.cache.failBlocks fill written) :=
    (Evolves.issue state.cache _).trans (Evolves.update_remove _ _ _ _)
  apply (claims.evolves dropped).forget here
  intro entry found
  have absent := CacheInvariant.remove_absent
    ((state.cache.issue [.writeData (.path fill.versionId) fill.begin_
      (fill.data.take written)]).returnClaim fill) fill.versionId
  cases absent.symm.trans found

/-- A cancelled fill leaves the claims in order exactly when it has claimed
nothing of an entry that is still cached. -/
theorem cancelBlocks_iff (here : state.fills[position]? = some fill) :
    ClaimsHeld { state with fills := state.fills.eraseIdx position } ↔
      CancelsNoClaim state (.cancelBlocks position) := by
  constructor
  · intro left other found
    cases here.symm.trans found
    by_cases nothing : fill.added = 0
    · exact .inl nothing
    · right
      intro entry cached same
      have total := claims.held fill.versionId entry cached
      have rest := left.held fill.versionId entry cached
      have part := CacheInvariant.claimed_eraseIdx here fill.versionId
        entry.uid
      rw [if_pos ⟨rfl, same.symm⟩] at part
      change _ = claimed (state.fills.eraseIdx position) _ _ at rest
      omega
  · intro allowed
    apply claims.forget here
    intro entry cached
    rcases allowed fill here with nothing | replaced
    · exact .inl nothing
    · exact .inr (replaced entry cached)

theorem write (position : Nat) (writer : StagingWriter) (data : List UInt8) :
    ClaimsHeld
      (state.withWriter position (writer.write state.cache data)) := by
  unfold StagingWriter.write
  split
  · exact claims.withWriters _
  · have written := claims.evolves (Evolves.issue state.cache
      [.writeData (.handle writer.uid) writer.offset data])
    exact (written.markPresent writer.versionId writer.uid _).withWriters _

theorem writeFailed (position : Nat) (writer : StagingWriter)
    (data : List UInt8) (written : Nat) :
    ClaimsHeld (state.withWriter position
      (writer.writeFailed state.cache data written)) := by
  unfold StagingWriter.writeFailed
  split
  · exact claims.withWriters _
  · exact (claims.evolves (Evolves.issue state.cache _)).withWriters _

theorem finish (position : Nat) (writer : StagingWriter) :
    ClaimsHeld
      (state.withWriter position (writer.finish state.cache)) := by
  have ended := claims.update writer.versionId writer.uid
    (fun entry => { entry with writing := false })
    (fun _ => rfl) (fun _ => rfl) fun _ => rfl
  exact (ended.evolves (.saveIndex _)).withWriters _

theorem endAbort (position : Nat) (writer : StagingWriter) :
    ClaimsHeld
      (state.withWriter position (writer.endAbort state.cache)) :=
  (claims.evolves (Evolves.update_remove state.cache writer.versionId
    writer.uid fun entry => { entry with writing := false })).withWriters _

theorem step {after : CacheState} {action : CacheAction}
    (allowed : CancelsNoClaim state action)
    (taken : cacheStep config state action = some after) :
    ClaimsHeld after := by
  cases cacheMove taken with
  | openStaging fs versionId size now free refused =>
      exact (claims.openStaging fs versionId size now free
        refused).withWriters _
  | @write position writer data here => exact claims.write position writer data
  | @writeFailed position writer data written here =>
      exact claims.writeFailed position writer data written
  | @finish position writer here finishing =>
      exact claims.finish position writer
  | abort here => exact claims.withWriters _
  | @endAbort position writer here => exact claims.endAbort position writer
  | close here => exact claims.withWriters _
  | reserve fs versionId size now free refused =>
      exact claims.reserve fs versionId size now free refused
  | claimBlocks versionId begin_ data free =>
      exact claims.claimBlocks versionId begin_ data free
  | commitBlocks now here => exact claims.commitBlocks here now
  | failBlocks written here => exact claims.failBlocks here written
  | cancelBlocks here => exact (claims.cancelBlocks_iff here).mpr allowed
  | pin versionId now => exact claims.evolves (.pin state.cache versionId now)
  | unpin versionId => exact claims.evolves (.unpin state.cache versionId)
  | release versionId =>
      exact claims.evolves (.release config state.cache versionId)
  | remove versionId => exact claims.evolves (.remove state.cache versionId)
  | removeMany versionIds =>
      exact claims.evolves (.removeMany state.cache versionIds)
  | evictUnpinned => exact claims.evolves (.removeMany state.cache _)
  | sweep listing queueEmpty now free =>
      exact claims.evolves (sweep_spec config state.cache listing
        queueEmpty now free claims.keyed).1

end ClaimsHeld

/-- No bytes are in flight, and no fill is suspended. -/
structure Unclaimed (state : CacheState) : Prop where
  keyed : Keyed state.cache
  fresh : ∀ versionId entry, state.cache.entry versionId = some entry →
    entry.uid < state.cache.nextUid
  idle : ∀ versionId entry, state.cache.entry versionId = some entry →
    entry.inflight = 0
  noFills : state.fills = []

theorem Unclaimed.initial : Unclaimed CacheState.initial := by
  have absent : ∀ versionId,
      CacheState.initial.cache.entry versionId = none := fun _ => rfl
  refine ⟨?_, ?_, ?_, rfl⟩
  all_goals
    intro versionId entry found
    simp [absent] at found

theorem Unclaimed.held {state : CacheState} (unclaimed : Unclaimed state) :
    ClaimsHeld state := by
  refine ⟨unclaimed.keyed, unclaimed.fresh, ?_, ?_⟩
  · simp [unclaimed.noFills]
  · intro versionId entry found
    simp [unclaimed.idle versionId entry found, unclaimed.noFills, claimed]

/-- As long as no fill is cancelled that has claimed bytes of an entry that
is still cached, no entry keeps bytes in flight once no fill is suspended:
only its pins and its writer keep it from being evicted, and it is charged
for what is on disk. -/
theorem claims_returned (config : CacheConfig) (start state : CacheState)
    (unclaimed : Unclaimed start)
    (reached : ReachableWithin (cacheStep config) CancelsNoClaim start state)
    (settled : state.fills = []) (versionId : String) (entry : CacheEntry)
    (found : state.cache.entry versionId = some entry) :
    entry.inflight = 0 ∧
      entry.evictable = (entry.pins == 0 && !entry.writing) ∧
      (entry.writing = false →
        entry.chargedBytes = entry.presentBytes) := by
  have claims := reached.invariant
    (fun _ _ _ claims allowed taken =>
      ClaimsHeld.step claims allowed taken) unclaimed.held
  have idle : entry.inflight = 0 := by
    rw [claims.held versionId entry found, settled]
    rfl
  refine ⟨idle, ?_, ?_⟩
  · simp [CacheEntry.evictable, idle]
  · intro ended
    rw [CacheEntry.chargedBytes_of_idle ended, idle, Nat.add_zero]

/-- Two readers store the same block at once, a third finds it stored and is
cancelled. -/
theorem claims_returned_overlapping :
    ∃ state entry, ReachableWithin
        (cacheStep ⟨true, 1, 4, 0, 64, true, 0, 0, 100, by decide⟩)
        CancelsNoClaim CacheState.initial state ∧
      state.fills = [] ∧ state.cache.entry "version" = some entry ∧
      entry.inflight = 0 ∧ entry.chargedBytes = 3 := by
  have guarded : Guarded
      (cacheStep ⟨true, 1, 4, 0, 64, true, 0, 0, 100, by decide⟩)
      CancelsNoClaim CacheState.initial
      [.reserve "fs" "version" 3 1 (fun _ => none) none,
        .claimBlocks "version" 0 [1, 2, 3] (fun _ => none),
        .claimBlocks "version" 0 [1, 2, 3] (fun _ => none),
        .commitBlocks 0 2, .commitBlocks 0 3,
        .claimBlocks "version" 0 [1, 2, 3] (fun _ => none),
        .cancelBlocks 0] := by
    -- only the last step is guarded
    iterate 6
      refine ⟨trivial, ?_⟩
      rintro _ ⟨⟩
    refine ⟨?_, fun _ _ => trivial⟩
    rintro _ ⟨⟩
    exact .inl rfl
  have reached : ReachableWithin
      (cacheStep ⟨true, 1, 4, 0, 64, true, 0, 0, 100, by decide⟩)
      CancelsNoClaim CacheState.initial _ := ⟨_, guarded, rfl⟩
  have returned := claims_returned _ _ _ .initial reached rfl "version" _ rfl
  exact ⟨_, _, reached, rfl, rfl, returned.1, rfl⟩

/-- A reader that hangs up while its block is being stored: the entry cannot
be evicted any more, and stays charged for what nobody writes. -/
theorem cancelled_claim_stays :
    ∃ state entry, Reachable
        (cacheStep ⟨true, 1, 4, 0, 64, true, 0, 0, 100, by decide⟩)
        CacheState.initial state ∧
      state.fills = [] ∧ state.cache.entry "version" = some entry ∧
      entry.inflight = 3 ∧ entry.presentBytes = 0 ∧
      entry.chargedBytes = 3 ∧ entry.pins = 0 ∧ entry.writing = false ∧
      entry.evictable = false ∧
      state.cache.evictUnpinned.1.entry "version" = some entry := by
  have reached : Reachable
      (cacheStep ⟨true, 1, 4, 0, 64, true, 0, 0, 100, by decide⟩)
      CacheState.initial _ :=
    ⟨[.reserve "fs" "version" 3 1 (fun _ => none) none,
      .claimBlocks "version" 0 [1, 2, 3] (fun _ => none),
      .cancelBlocks 0], rfl⟩
  exact ⟨_, _, reached, rfl, rfl, rfl, rfl, rfl, rfl, rfl, rfl, rfl⟩

end Tgdcfs
