import Tgdcfs.Cache.Eviction
import Tgdcfs.Lib.Run

/-!
# The budget of the local cache over whole runs

`cacheStep` interleaves the operations of the cache with suspended writers
and fills in any order.  The budget is carried through every step by
`CacheInvariant`: its claim part relates the bytes an entry has in flight to
the fills that are still suspended, and its writer part says that staging
ends only with the whole version on disk.
-/

namespace Tgdcfs

open Lib

structure CacheState where
  cache : LocalCache
  writers : List StagingWriter
  fills : List Fill

def CacheState.initial : CacheState := ⟨LocalCache.empty, [], []⟩

/-- The steps of the tasks that share one cache.  A writer or a fill is named
by its position in the lists of the state. -/
inductive CacheAction where
  | openStaging (fs versionId : String) (size now : Int) (free : FreeSpace)
      (refused : Option FileKind)
  | write (writer : Nat) (data : List UInt8)
  | writeFailed (writer : Nat) (data : List UInt8) (written : Nat)
  | finish (writer : Nat)
  | abort (writer : Nat)
  | endAbort (writer : Nat)
  | close (writer : Nat)
  | reserve (fs versionId : String) (size now : Int) (free : FreeSpace)
      (refused : Option FileKind)
  | claimBlocks (versionId : String) (begin_ : Nat) (data : List UInt8)
      (free : FreeSpace)
  | commitBlocks (fill : Nat) (now : Int)
  | failBlocks (fill : Nat) (written : Nat)
  | cancelBlocks (fill : Nat)
  | pin (versionId : String) (now : Int)
  | unpin (versionId : String)
  | release (versionId : String)
  | remove (versionId : String)
  | removeMany (versionIds : List String)
  | evictUnpinned
  | sweep (listing : List (String × FileKind)) (queueEmpty : String → Bool)
      (now : Int) (free : FreeSpace)

namespace CacheState

def withCache (state : CacheState) (cache : LocalCache) : CacheState :=
  { state with cache := cache }

/-- Replace the writer at a position and the cache it worked on. -/
def withWriter (state : CacheState) (position : Nat)
    (result : StagingWriter × LocalCache) : CacheState :=
  { state with
    cache := result.2
    writers := state.writers.set position result.1 }

end CacheState

def cacheStep (config : CacheConfig) (state : CacheState) :
    CacheAction → Option CacheState
  | .openStaging fs versionId size now free refused =>
      let result := state.cache.openStaging config fs versionId size now free
        refused
      some { state with
        cache := result.1
        writers := state.writers ++ result.2.toList }
  | .write position data => do
      let writer ← state.writers[position]?
      some (state.withWriter position (writer.write state.cache data))
  | .writeFailed position data written => do
      let writer ← state.writers[position]?
      some (state.withWriter position
        (writer.writeFailed state.cache data written))
  | .finish position => do
      let writer ← state.writers[position]?
      if writer.finishing then
        some (state.withWriter position (writer.finish state.cache))
      else none
  | .abort position => do
      let writer ← state.writers[position]?
      some (state.withWriter position (writer.beginAbort, state.cache))
  | .endAbort position => do
      let writer ← state.writers[position]?
      if writer.aborting then
        some (state.withWriter position (writer.endAbort state.cache))
      else none
  | .close position => do
      let writer ← state.writers[position]?
      some (state.withWriter position (writer.close, state.cache))
  | .reserve fs versionId size now free refused =>
      some (state.withCache (state.cache.reserve config fs versionId size now
        free refused).1)
  | .claimBlocks versionId begin_ data free =>
      let result := state.cache.claimBlocks config versionId begin_ data free
      some { state with
        cache := result.1
        fills := state.fills ++ result.2.toList }
  | .commitBlocks position now => do
      let fill ← state.fills[position]?
      some { state with
        cache := state.cache.commitBlocks fill now
        fills := state.fills.eraseIdx position }
  | .failBlocks position written => do
      let fill ← state.fills[position]?
      some { state with
        cache := state.cache.failBlocks fill written
        fills := state.fills.eraseIdx position }
  | .cancelBlocks position => do
      let _ ← state.fills[position]?
      some { state with fills := state.fills.eraseIdx position }
  | .pin versionId now =>
      some (state.withCache (state.cache.pin versionId now))
  | .unpin versionId =>
      some (state.withCache (state.cache.unpin versionId))
  | .release versionId =>
      some (state.withCache (state.cache.release config versionId))
  | .remove versionId =>
      some (state.withCache (state.cache.remove versionId))
  | .removeMany versionIds =>
      some (state.withCache (state.cache.removeMany versionIds))
  | .evictUnpinned =>
      some (state.withCache state.cache.evictUnpinned.1)
  | .sweep listing queueEmpty now free =>
      some (state.withCache
        (state.cache.sweep config listing queueEmpty now free).1)

/-- What a step does, with the writer or the fill that it is about. -/
inductive CacheMove (config : CacheConfig) (state : CacheState) :
    CacheAction → CacheState → Prop
  | openStaging (fs versionId : String) (size now : Int) (free : FreeSpace)
      (refused : Option FileKind) :
      CacheMove config state
        (.openStaging fs versionId size now free refused)
        { state with
          cache := (state.cache.openStaging config fs versionId size now free
            refused).1
          writers := state.writers ++ (state.cache.openStaging config fs
            versionId size now free refused).2.toList }
  | write {position : Nat} {writer : StagingWriter} (data : List UInt8)
      (here : state.writers[position]? = some writer) :
      CacheMove config state (.write position data)
        (state.withWriter position (writer.write state.cache data))
  | writeFailed {position : Nat} {writer : StagingWriter}
      (data : List UInt8) (written : Nat)
      (here : state.writers[position]? = some writer) :
      CacheMove config state (.writeFailed position data written)
        (state.withWriter position
          (writer.writeFailed state.cache data written))
  | finish {position : Nat} {writer : StagingWriter}
      (here : state.writers[position]? = some writer)
      (finishing : writer.finishing = true) :
      CacheMove config state (.finish position)
        (state.withWriter position (writer.finish state.cache))
  | abort {position : Nat} {writer : StagingWriter}
      (here : state.writers[position]? = some writer) :
      CacheMove config state (.abort position)
        (state.withWriter position (writer.beginAbort, state.cache))
  | endAbort {position : Nat} {writer : StagingWriter}
      (here : state.writers[position]? = some writer) :
      CacheMove config state (.endAbort position)
        (state.withWriter position (writer.endAbort state.cache))
  | close {position : Nat} {writer : StagingWriter}
      (here : state.writers[position]? = some writer) :
      CacheMove config state (.close position)
        (state.withWriter position (writer.close, state.cache))
  | reserve (fs versionId : String) (size now : Int) (free : FreeSpace)
      (refused : Option FileKind) :
      CacheMove config state (.reserve fs versionId size now free refused)
        (state.withCache (state.cache.reserve config fs versionId size now
          free refused).1)
  | claimBlocks (versionId : String) (begin_ : Nat) (data : List UInt8)
      (free : FreeSpace) :
      CacheMove config state (.claimBlocks versionId begin_ data free)
        { state with
          cache := (state.cache.claimBlocks config versionId begin_ data
            free).1
          fills := state.fills ++ (state.cache.claimBlocks config versionId
            begin_ data free).2.toList }
  | commitBlocks {position : Nat} {fill : Fill} (now : Int)
      (here : state.fills[position]? = some fill) :
      CacheMove config state (.commitBlocks position now)
        { state with
          cache := state.cache.commitBlocks fill now
          fills := state.fills.eraseIdx position }
  | failBlocks {position : Nat} {fill : Fill} (written : Nat)
      (here : state.fills[position]? = some fill) :
      CacheMove config state (.failBlocks position written)
        { state with
          cache := state.cache.failBlocks fill written
          fills := state.fills.eraseIdx position }
  | cancelBlocks {position : Nat} {fill : Fill}
      (here : state.fills[position]? = some fill) :
      CacheMove config state (.cancelBlocks position)
        { state with fills := state.fills.eraseIdx position }
  | pin (versionId : String) (now : Int) :
      CacheMove config state (.pin versionId now)
        (state.withCache (state.cache.pin versionId now))
  | unpin (versionId : String) :
      CacheMove config state (.unpin versionId)
        (state.withCache (state.cache.unpin versionId))
  | release (versionId : String) :
      CacheMove config state (.release versionId)
        (state.withCache (state.cache.release config versionId))
  | remove (versionId : String) :
      CacheMove config state (.remove versionId)
        (state.withCache (state.cache.remove versionId))
  | removeMany (versionIds : List String) :
      CacheMove config state (.removeMany versionIds)
        (state.withCache (state.cache.removeMany versionIds))
  | evictUnpinned :
      CacheMove config state .evictUnpinned
        (state.withCache state.cache.evictUnpinned.1)
  | sweep (listing : List (String × FileKind)) (queueEmpty : String → Bool)
      (now : Int) (free : FreeSpace) :
      CacheMove config state (.sweep listing queueEmpty now free)
        (state.withCache
          (state.cache.sweep config listing queueEmpty now free).1)

theorem cacheMove {config : CacheConfig} {state after : CacheState}
    {action : CacheAction}
    (taken : cacheStep config state action = some after) :
    CacheMove config state action after := by
  cases action with
  | write position data =>
      obtain ⟨writer, here, ⟨⟩⟩ := Option.bind_eq_some_iff.mp taken
      exact .write data here
  | writeFailed position data written =>
      obtain ⟨writer, here, ⟨⟩⟩ := Option.bind_eq_some_iff.mp taken
      exact .writeFailed data written here
  | finish position =>
      obtain ⟨writer, here, next⟩ := Option.bind_eq_some_iff.mp taken
      split at next
      · rename_i finishing
        cases next
        exact .finish here finishing
      · cases next
  | abort position =>
      obtain ⟨writer, here, ⟨⟩⟩ := Option.bind_eq_some_iff.mp taken
      exact .abort here
  | endAbort position =>
      obtain ⟨writer, here, next⟩ := Option.bind_eq_some_iff.mp taken
      split at next
      · cases next
        exact .endAbort here
      · cases next
  | close position =>
      obtain ⟨writer, here, ⟨⟩⟩ := Option.bind_eq_some_iff.mp taken
      exact .close here
  | commitBlocks position now =>
      obtain ⟨fill, here, ⟨⟩⟩ := Option.bind_eq_some_iff.mp taken
      exact .commitBlocks now here
  | failBlocks position written =>
      obtain ⟨fill, here, ⟨⟩⟩ := Option.bind_eq_some_iff.mp taken
      exact .failBlocks written here
  | cancelBlocks position =>
      obtain ⟨fill, here, ⟨⟩⟩ := Option.bind_eq_some_iff.mp taken
      exact .cancelBlocks here
  | openStaging | reserve | claimBlocks | pin | unpin | release | remove
  | removeMany | evictUnpinned | sweep =>
      cases taken
      constructor

/-- Bytes the suspended fills have claimed for one entry object. -/
def claimed (fills : List Fill) (versionId : String) (uid : Nat) : Nat :=
  ((fills.filter fun fill =>
    decide (fill.versionId = versionId) && decide (fill.uid = uid)).map
      Fill.added).sum

/-- What a writer knows about the entry it writes: staging has ended, or is
about to end, only once the whole version is on disk. -/
structure StagingWriter.Matches (writer : StagingWriter)
    (entry : CacheEntry) : Prop where
  size : entry.size = writer.size
  blockSize : entry.blockSize = writer.blockSize
  settled : entry.writing = false → entry.Whole
  finishing : writer.finishing = true → entry.Whole
  finished : writer.failed = false → writer.fdOpen = true →
    writer.size ≤ writer.offset → entry.Whole

/-- The writer's view of one cache. -/
def StagingWriter.Fits (writer : StagingWriter) (cache : LocalCache) : Prop :=
  writer.uid < cache.nextUid ∧
    ∀ entry, cache.entry writer.versionId = some entry →
      entry.uid = writer.uid → writer.Matches entry

structure CacheInvariant (config : CacheConfig) (state : CacheState) :
    Prop where
  bytes : 0 < config.maxSizeBytes →
    state.cache.usedBytes ≤ config.maxSizeBytes
  files : 0 < config.maxFiles →
    state.cache.entries.size ≤ config.maxFiles
  keyed : Keyed state.cache
  fresh : ∀ versionId entry, state.cache.entry versionId = some entry →
    entry.uid < state.cache.nextUid
  fillsFresh : ∀ fill ∈ state.fills, fill.uid < state.cache.nextUid
  staged : ∀ versionId entry, state.cache.entry versionId = some entry →
    entry.writing = true → entry.inflight = 0
  claims : ∀ versionId entry, state.cache.entry versionId = some entry →
    claimed state.fills versionId entry.uid ≤ entry.inflight
  covered : ∀ fill ∈ state.fills, ∀ entry,
    state.cache.entry fill.versionId = some entry → entry.uid = fill.uid →
      entry.writing = false ∧ entry.missingBytes fill.blocks ≤ fill.added
  writers : ∀ writer ∈ state.writers, writer.Fits state.cache

variable {writer : StagingWriter}

theorem StagingWriter.Matches.later {before after : CacheEntry}
    (matches_ : writer.Matches before) (later : before.Later after) :
    writer.Matches after := by
  refine ⟨later.size.trans matches_.size,
    later.blockSize.trans matches_.blockSize, ?_,
    fun finishing => later.whole (matches_.finishing finishing),
    fun intact opened all =>
      later.whole (matches_.finished intact opened all)⟩
  intro ended
  cases staging : before.writing with
  | false => exact later.whole (matches_.settled staging)
  | true => exact later.settled ended staging

theorem StagingWriter.Matches.withInflight {entry : CacheEntry}
    (matches_ : writer.Matches entry) (bytes : Nat) :
    writer.Matches (entry.withInflight bytes) :=
  ⟨matches_.size, matches_.blockSize, matches_.settled,
    matches_.finishing, matches_.finished⟩

theorem StagingWriter.Fits.later {before after : LocalCache}
    (fits : writer.Fits before)
    (entries : ∀ versionId later, after.entry versionId = some later →
      ∃ earlier, before.entry versionId = some earlier ∧
        earlier.Later later) (nextUid : after.nextUid = before.nextUid) :
    writer.Fits after := by
  refine ⟨nextUid ▸ fits.1, ?_⟩
  intro later found same
  obtain ⟨earlier, earlierFound, stage⟩ := entries _ later found
  exact (fits.2 earlier earlierFound (stage.uid.symm.trans same)).later
    stage

namespace CacheInvariant

theorem initial (config : CacheConfig) :
    CacheInvariant config CacheState.initial := by
  have absent : ∀ versionId,
      CacheState.initial.cache.entry versionId = none := fun _ => rfl
  refine ⟨fun _ => Nat.zero_le _, fun _ => Nat.zero_le _, ?_, ?_, ?_, ?_,
    ?_, ?_, ?_⟩
  · intro versionId entry found
    simp [absent] at found
  · intro versionId entry found
    simp [absent] at found
  · intro fill member
    simp [CacheState.initial] at member
  · intro versionId entry found
    simp [absent] at found
  · intro versionId entry found
    simp [absent] at found
  · intro fill member
    simp [CacheState.initial] at member
  · intro writer member
    simp [CacheState.initial] at member

variable {config : CacheConfig} {state : CacheState}

/-- Later stages of the same entries keep the invariant as long as they are
within the limits. -/
theorem of_later (invariant : CacheInvariant config state) {after : LocalCache}
    (entries : ∀ versionId later, after.entry versionId = some later →
      ∃ earlier, state.cache.entry versionId = some earlier ∧
        earlier.Later later) (nextUid : after.nextUid = state.cache.nextUid)
    (bytes : 0 < config.maxSizeBytes →
      after.usedBytes ≤ config.maxSizeBytes)
    (files : 0 < config.maxFiles → after.entries.size ≤ config.maxFiles) :
    CacheInvariant config ⟨after, state.writers, state.fills⟩ := by
  refine ⟨bytes, files, ?_, ?_, ?_, ?_, ?_, ?_, fun writer member =>
    (invariant.writers writer member).later entries nextUid⟩
  · intro versionId later found
    obtain ⟨earlier, earlierFound, stage⟩ := entries versionId later found
    rw [stage.versionId, invariant.keyed versionId earlier earlierFound]
  · intro versionId later found
    obtain ⟨earlier, earlierFound, stage⟩ := entries versionId later found
    rw [stage.uid]
    exact nextUid ▸ invariant.fresh versionId earlier earlierFound
  · intro fill member
    exact nextUid ▸ invariant.fillsFresh fill member
  · intro versionId later found staging
    obtain ⟨earlier, earlierFound, stage⟩ := entries versionId later found
    rw [stage.inflight]
    exact invariant.staged versionId earlier earlierFound
      (stage.writing staging)
  · intro versionId later found
    obtain ⟨earlier, earlierFound, stage⟩ := entries versionId later found
    rw [stage.inflight, stage.uid]
    exact invariant.claims versionId earlier earlierFound
  · intro fill member later found same
    obtain ⟨earlier, earlierFound, stage⟩ := entries _ later found
    obtain ⟨idle, bound⟩ := invariant.covered fill member earlier
      earlierFound (stage.uid.symm.trans same)
    refine ⟨?_, (stage.missing _).trans bound⟩
    cases staging : later.writing with
    | false => rfl
    | true =>
        rw [stage.writing staging] at idle
        simp at idle

theorem evolves (invariant : CacheInvariant config state) {after : LocalCache}
    (evolution : Evolves state.cache after) :
    CacheInvariant config ⟨after, state.writers, state.fills⟩ :=
  invariant.of_later evolution.entries evolution.nextUid
    (fun budget => evolution.used.trans (invariant.bytes budget))
    (fun limit => evolution.size.trans (invariant.files limit))

variable {fills : List Fill}

private theorem claimed_le_of_sublist {fewer : List Fill}
    (sublist : fewer.Sublist fills) (versionId : String) (uid : Nat) :
    claimed fewer versionId uid ≤ claimed fills versionId uid := by
  have filtered := (sublist.filter fun fill =>
    decide (fill.versionId = versionId) && decide (fill.uid = uid)).map
      Fill.added
  exact filtered.sum_le_sum fun _ _ => Nat.zero_le _

theorem fewerFills (invariant : CacheInvariant config state)
    {fewer : List Fill} (sublist : fewer.Sublist state.fills) :
    CacheInvariant config { state with fills := fewer } := by
  refine ⟨invariant.bytes, invariant.files, invariant.keyed,
    invariant.fresh, ?_, invariant.staged, ?_, ?_, invariant.writers⟩
  · intro fill member
    exact invariant.fillsFresh fill (sublist.subset member)
  · intro versionId entry found
    exact (claimed_le_of_sublist sublist versionId entry.uid).trans
      (invariant.claims versionId entry found)
  · intro fill member
    exact invariant.covered fill (sublist.subset member)

variable {writer : StagingWriter}

/-- Put another view of the same entry in the place of a writer. -/
theorem setWriter (invariant : CacheInvariant config state) (position : Nat)
    (fits : writer.Fits state.cache) :
    CacheInvariant config
      { state with writers := state.writers.set position writer } := by
  refine ⟨invariant.bytes, invariant.files, invariant.keyed,
    invariant.fresh, invariant.fillsFresh, invariant.staged,
    invariant.claims, invariant.covered, ?_⟩
  intro other member
  rcases List.mem_or_eq_of_mem_set member with older | rfl
  · exact invariant.writers other older
  · exact fits

theorem addWriter (invariant : CacheInvariant config state)
    (fits : writer.Fits state.cache) :
    CacheInvariant config
      { state with writers := state.writers ++ [writer] } := by
  refine ⟨invariant.bytes, invariant.files, invariant.keyed,
    invariant.fresh, invariant.fillsFresh, invariant.staged,
    invariant.claims, invariant.covered, ?_⟩
  intro other member
  rcases List.mem_append.mp member with older | new
  · exact invariant.writers other older
  · have equality : other = writer := by simpa using new
    exact equality ▸ fits

private theorem newEntry_charged (config : CacheConfig) (cache : LocalCache)
    (fs versionId : String) (size : Nat) (now : Int) (writing : Bool) :
    (cache.newEntry config fs versionId size now writing).chargedBytes =
      if writing then size else 0 := by
  have absent : ∀ index,
      (cache.newEntry config fs versionId size now writing).presentAt
        index = false := by
    intro index
    simp [CacheEntry.presentAt, LocalCache.newEntry,
      List.getElem?_replicate]
    split <;> simp
  have nothing :
      (cache.newEntry config fs versionId size now writing).presentBytes =
        0 := by
    simp [CacheEntry.presentBytes, absent]
  simp only [CacheEntry.chargedBytes, nothing]
  rfl

theorem createFiles_evolves (cache : LocalCache)
    (entry : CacheEntry) (refused : Option FileKind) :
    Evolves cache (cache.createFiles entry refused).1 := by
  unfold LocalCache.createFiles
  rcases refused with _ | _ | _ <;> exact .of_entries_eq rfl rfl

theorem claimed_eq_zero {uid : Nat} (older : ∀ fill ∈ fills, fill.uid < uid)
    (versionId : String) : claimed fills versionId uid = 0 := by
  have empty : (fills.filter fun fill =>
      decide (fill.versionId = versionId) && decide (fill.uid = uid)) =
        [] := by
    rw [List.filter_eq_nil_iff]
    intro fill member
    have different := Nat.ne_of_lt (older fill member)
    simp [different]
  simp [claimed, empty]

theorem remove_absent (cache : LocalCache) (versionId : String) :
    (cache.remove versionId).entry versionId = none := by
  unfold LocalCache.remove LocalCache.drop
  cases found : cache.entries.get? versionId with
  | none => simpa [LocalCache.entry] using found
  | some entry =>
      simp [LocalCache.entry, LocalCache.saveIndex, LocalCache.unlink,
        LocalCache.issue, Dict.get?_erase]

theorem removeExisting_absent (cache : LocalCache)
    (versionId : String) :
    (cache.removeExisting versionId).entry versionId = none := by
  unfold LocalCache.removeExisting
  split
  · exact remove_absent cache versionId
  · rename_i missing
    simpa [LocalCache.entry, Dict.contains] using missing

/-- A fresh entry that is within the limits can be filed under a free id. -/
private theorem insert_fresh (invariant : CacheInvariant config state)
    (versionId : String) {fresh : CacheEntry}
    (free : state.cache.entry versionId = none)
    (filed : fresh.versionId = versionId)
    (supplied : fresh.uid = state.cache.nextUid)
    (unclaimed : fresh.inflight = 0)
    (bytes : 0 < config.maxSizeBytes →
      state.cache.usedBytes + fresh.chargedBytes ≤ config.maxSizeBytes)
    (files : 0 < config.maxFiles →
      state.cache.entries.size + 1 ≤ config.maxFiles) (steps : List DiskStep) :
    CacheInvariant config
      ⟨⟨state.cache.entries.set versionId fresh, state.cache.nextUid + 1,
        steps⟩, state.writers, state.fills⟩ := by
  have lookup : ∀ other entry,
      (state.cache.entries.set versionId fresh).get? other = some entry →
        (other = versionId ∧ entry = fresh) ∨
          state.cache.entry other = some entry := by
    intro other entry found
    rw [Dict.get?_set] at found
    by_cases same : other = versionId
    · simp only [same, if_true, Option.some.injEq] at found
      exact .inl ⟨same, found.symm⟩
    · simp only [same, if_false] at found
      exact .inr found
  refine ⟨?_, ?_, ?_, ?_, ?_, ?_, ?_, ?_, ?_⟩
  · intro budget
    have total := Dict.weight_set_of_absent CacheEntry.chargedBytes
      state.cache.entries fresh free
    exact Nat.le_trans (Nat.le_of_eq total) (bytes budget)
  · intro limit
    have count := Dict.size_set_of_absent state.cache.entries fresh free
    exact Nat.le_trans (Nat.le_of_eq count) (files limit)
  · intro other entry found
    rcases lookup other entry found with ⟨rfl, rfl⟩ | older
    · exact filed
    · exact invariant.keyed other entry older
  · intro other entry found
    rcases lookup other entry found with ⟨rfl, rfl⟩ | older
    · exact supplied ▸ Nat.lt_succ_self _
    · exact Nat.lt_succ_of_lt (invariant.fresh other entry older)
  · intro fill member
    exact Nat.lt_succ_of_lt (invariant.fillsFresh fill member)
  · intro other entry found staging
    rcases lookup other entry found with ⟨rfl, rfl⟩ | older
    · exact unclaimed
    · exact invariant.staged other entry older staging
  · intro other entry found
    rcases lookup other entry found with ⟨rfl, rfl⟩ | older
    · rw [supplied, claimed_eq_zero invariant.fillsFresh]
      exact Nat.zero_le _
    · exact invariant.claims other entry older
  · intro fill member entry found same
    rcases lookup _ entry found with ⟨_, rfl⟩ | older
    · have outdated := invariant.fillsFresh fill member
      rw [← same, supplied] at outdated
      exact absurd outdated (lt_irrefl _)
    · exact invariant.covered fill member entry older same
  · intro writer member
    obtain ⟨outdated, matches_⟩ := invariant.writers writer member
    refine ⟨Nat.lt_succ_of_lt outdated, ?_⟩
    intro entry found same
    rcases lookup _ entry found with ⟨_, rfl⟩ | older
    · rw [← same, supplied] at outdated
      exact absurd outdated (lt_irrefl _)
    · exact matches_ entry older same

theorem admitEntry (invariant : CacheInvariant config state)
    (fs versionId : String) (size : Nat) {charge : Nat} (now : Int)
    (writing : Bool) (free : FreeSpace) (refused : Option FileKind)
    (whole : charge = if writing then size else 0)
    (vacant : state.cache.entry versionId = none) :
    CacheInvariant config (state.withCache
      (state.cache.admitEntry config fs versionId size charge now writing
        free refused).1) := by
  have room := makeRoom_spec config state.cache charge true none free
    invariant.keyed
  unfold LocalCache.admitEntry
  dsimp only
  split
  · exact invariant.evolves room.evolves
  · rename_i granted
    have created := createFiles_evolves
      (state.cache.makeRoom config charge true none free).1
      ((state.cache.makeRoom config charge true none free).1.newEntry config
        fs versionId size now writing) refused
    have both := room.evolves.trans created
    split
    · have admitted := invariant.evolves both
      apply insert_fresh admitted versionId
      · cases found : (LocalCache.entry _ versionId) with
        | none => rfl
        | some entry =>
            obtain ⟨_, earlier, _⟩ := both.entries versionId entry found
            simp [vacant] at earlier
      · rfl
      · exact created.nextUid.symm
      · rfl
      · intro budget
        rw [newEntry_charged, ← whole]
        have fits := room.bytes granted budget
        have same := created.used
        exact Nat.le_trans (Nat.add_le_add_right same _) fits
      · intro limit
        have fits := room.files granted rfl limit
        have same := created.size
        exact Nat.le_trans (Nat.add_le_add_right same _) fits
    · exact invariant.evolves both

variable {entry : CacheEntry}

/-- The entry that an admission hands out is the one it filed. -/
theorem admitEntry_filed {cache : LocalCache} {fs versionId : String}
    {size charge : Nat} {now : Int} {writing : Bool} {free : FreeSpace}
    {refused : Option FileKind}
    (admitted : (cache.admitEntry config fs versionId size charge now writing
      free refused).2 = some entry) :
    (cache.admitEntry config fs versionId size charge now writing free
        refused).1.entry versionId = some entry ∧
      entry.versionId = versionId ∧ entry.writing = writing ∧
      entry.size = size := by
  unfold LocalCache.admitEntry at admitted ⊢
  dsimp only at admitted ⊢
  split at admitted
  · simp at admitted
  · split at admitted
    · simp only [Option.some.injEq] at admitted
      subst entry
      rename_i granted created
      simp only [created, if_true]
      refine ⟨?_, rfl, rfl, rfl⟩
      simp [LocalCache.entry, LocalCache.saveIndex, LocalCache.issue,
        Dict.get?_set]
    · simp at admitted

theorem openStaging (invariant : CacheInvariant config state)
    (fs versionId : String) (size now : Int) (free : FreeSpace)
    (refused : Option FileKind) :
    CacheInvariant config
      { state with
        cache := (state.cache.openStaging config fs versionId size now free
          refused).1
        writers := state.writers ++ (state.cache.openStaging config fs
          versionId size now free refused).2.toList } := by
  have cleared := invariant.evolves
    (Evolves.removeExisting state.cache versionId)
  unfold LocalCache.openStaging
  split
  · simpa using invariant
  · dsimp only
    split
    · simpa using cleared
    · have stored := cleared.admitEntry fs versionId size.toNat now true free
        refused rfl (removeExisting_absent _ _)
      cases admitted : ((state.cache.removeExisting versionId).admitEntry
          config fs versionId size.toNat size.toNat now true free
          refused).2 with
      | none => simpa [CacheState.withCache] using stored
      | some entry =>
          obtain ⟨filed, rfl, staging, _⟩ := admitEntry_filed admitted
          apply stored.addWriter
          refine ⟨stored.fresh entry.versionId entry filed, ?_⟩
          intro later found _
          cases filed.symm.trans found
          refine ⟨rfl, rfl, ?_, ?_, ?_⟩
          · intro ended
            rw [staging] at ended
            cases ended
          · intro finishing
            cases finishing
          · intro _ opened
            cases opened

theorem reserve (invariant : CacheInvariant config state)
    (fs versionId : String) (size now : Int) (free : FreeSpace)
    (refused : Option FileKind) :
    CacheInvariant config (state.withCache
      (state.cache.reserve config fs versionId size now free refused).1) := by
  have cleared := invariant.evolves
    (Evolves.removeExisting state.cache versionId)
  unfold LocalCache.reserve
  split
  · exact invariant
  · exact cleared.admitEntry fs versionId size.toNat now false free refused
      rfl (removeExisting_absent _ _)

theorem update_entry (cache : LocalCache) (versionId : String)
    (uid : Nat) (change : CacheEntry → CacheEntry) (other : String) :
    (cache.update versionId uid change).entry other =
      if other = versionId then (cache.entry other).map fun entry =>
        if entry.uid = uid then change entry else entry
      else cache.entry other :=
  Dict.get?_modify _ _ _ _

/-- What is found after an entry was changed. -/
theorem update_cases {cache : LocalCache} {versionId : String} {uid : Nat}
    {change : CacheEntry → CacheEntry} {other : String} {later : CacheEntry}
    (found : cache.entry versionId = some entry) (same : entry.uid = uid)
    (laterFound :
      (cache.update versionId uid change).entry other = some later) :
    (other = versionId ∧ later = change entry) ∨
      (other ≠ versionId ∧ cache.entry other = some later) := by
  rw [update_entry] at laterFound
  by_cases here : other = versionId
  · subst other
    simp only [if_true, found, Option.map_some,
      Option.some.injEq] at laterFound
    rw [if_pos same] at laterFound
    exact .inl ⟨rfl, laterFound.symm⟩
  · simp only [here, if_false] at laterFound
    exact .inr ⟨here, laterFound⟩

theorem claimed_append (fills : List Fill) (fill : Fill)
    (versionId : String) (uid : Nat) :
    claimed (fills ++ [fill]) versionId uid =
      claimed fills versionId uid +
        if fill.versionId = versionId ∧ fill.uid = uid then fill.added
        else 0 := by
  by_cases same : fill.versionId = versionId ∧ fill.uid = uid
  · simp [claimed, same]
  · simp [claimed, same]

private theorem addClaim (invariant : CacheInvariant config state)
    (fill : Fill) (found : state.cache.entry fill.versionId = some entry)
    (same : entry.uid = fill.uid) (idle : entry.writing = false)
    (exact_ : entry.missingBytes fill.blocks = fill.added)
    (bytes : 0 < config.maxSizeBytes →
      state.cache.usedBytes + fill.added ≤ config.maxSizeBytes) :
    CacheInvariant config
      { state with
        cache := state.cache.update fill.versionId fill.uid fun entry =>
          entry.withInflight (entry.inflight + fill.added)
        fills := state.fills ++ [fill] } := by
  refine ⟨?_, ?_, ?_, ?_, ?_, ?_, ?_, ?_, ?_⟩
  · intro budget
    have balance := Dict.weight_modify CacheEntry.chargedBytes
      state.cache.entries (fun entry =>
        if entry.uid = fill.uid then
          entry.withInflight (entry.inflight + fill.added)
        else entry) found
    rw [if_pos same, CacheEntry.chargedBytes_withInflight idle,
      CacheEntry.chargedBytes_of_idle idle] at balance
    have fits := bytes budget
    simp only [LocalCache.usedBytes, LocalCache.update] at *
    omega
  · intro limit
    simpa [LocalCache.update, Dict.size_modify] using invariant.files limit
  · intro other later laterFound
    rcases update_cases found same laterFound with ⟨rfl, rfl⟩ | ⟨_, older⟩
    · exact invariant.keyed fill.versionId entry found
    · exact invariant.keyed other later older
  · intro other later laterFound
    rcases update_cases found same laterFound with ⟨rfl, rfl⟩ | ⟨_, older⟩
    · exact invariant.fresh fill.versionId entry found
    · exact invariant.fresh other later older
  · intro other member
    rcases List.mem_append.mp member with older | new
    · exact invariant.fillsFresh other older
    · have equality : other = fill := by simpa using new
      rw [equality, ← same]
      exact invariant.fresh fill.versionId entry found
  · intro other later laterFound staging
    rcases update_cases found same laterFound with ⟨rfl, rfl⟩ | ⟨_, older⟩
    · simp [idle] at staging
    · exact invariant.staged other later older staging
  · intro other later laterFound
    rw [claimed_append]
    rcases update_cases found same laterFound with ⟨rfl, rfl⟩ | ⟨other_, older⟩
    · have older := invariant.claims fill.versionId entry found
      simp only [CacheEntry.withInflight_uid,
        CacheEntry.withInflight_inflight, same, and_self, if_true]
        at older ⊢
      omega
    · have unrelated : ¬(fill.versionId = other ∧ fill.uid = later.uid) :=
        fun both => other_ both.1.symm
      rw [if_neg unrelated]
      exact invariant.claims other later older
  · intro other member later laterFound identical
    rcases update_cases found same laterFound with ⟨filed, rfl⟩ | ⟨_, older⟩
    · rcases List.mem_append.mp member with older | new
      · exact invariant.covered other older entry (filed ▸ found) identical
      · have equality : other = fill := by simpa using new
        subst other
        exact ⟨idle, Nat.le_of_eq exact_⟩
    · rcases List.mem_append.mp member with earlier | new
      · exact invariant.covered other earlier later older identical
      · have equality : other = fill := by simpa using new
        subst other
        rw [found] at older
        cases older
        exact ⟨idle, Nat.le_of_eq exact_⟩
  · intro writer member
    obtain ⟨older, matches_⟩ := invariant.writers writer member
    refine ⟨older, ?_⟩
    intro later laterFound identical
    rcases update_cases found same laterFound with
      ⟨filed, rfl⟩ | ⟨_, unchanged⟩
    · exact (matches_ entry (filed ▸ found) identical).withInflight _
    · exact matches_ later unchanged identical

theorem claimBlocks (invariant : CacheInvariant config state)
    (versionId : String) (begin_ : Nat) (data : List UInt8)
    (free : FreeSpace) :
    CacheInvariant config
      { state with
        cache := (state.cache.claimBlocks config versionId begin_ data
          free).1
        fills := state.fills ++ (state.cache.claimBlocks config versionId
          begin_ data free).2.toList } := by
  apply LocalCache.claimBlocks_cases (P := fun later claim =>
    CacheInvariant config
      { state with
        cache := later
        fills := state.fills ++ claim.toList })
  · simpa using invariant
  · intro entry needed _
    simpa using invariant.evolves (makeRoom_spec config state.cache needed
      false (some entry.uid) free invariant.keyed).evolves
  · intro entry fill roomy found idle _ claim made granted
    subst fill
    rcases made with ⟨nothing, rfl⟩ | rfl
    · apply addClaim invariant ⟨entry.uid, versionId, begin_, data, _, _⟩
        found rfl idle rfl
      intro budget
      dsimp only at nothing ⊢
      rw [nothing]
      exact invariant.bytes budget
    · have room := makeRoom_spec config state.cache
        (entry.missingBytes
          (LocalCache.coveredBlocks entry begin_ data.length))
        false (some entry.uid) free invariant.keyed
      have roomy := invariant.evolves room.evolves
      have kept := room.spares versionId entry found
        (not_mem_lruOrder_keep state.cache entry)
      exact addClaim roomy ⟨entry.uid, versionId, begin_, data, _, _⟩ kept
        rfl idle rfl (room.bytes granted)

variable {fill : Fill} {position : Nat}

theorem claimed_eraseIdx (here : fills[position]? = some fill)
    (versionId : String) (uid : Nat) :
    claimed (fills.eraseIdx position) versionId uid +
        (if fill.versionId = versionId ∧ fill.uid = uid then fill.added
        else 0) =
      claimed fills versionId uid := by
  induction fills generalizing position with
  | nil => simp at here
  | cons head fills induction =>
      cases position with
      | zero =>
          simp only [List.getElem?_cons_zero, Option.some.injEq] at here
          subst head
          by_cases same : fill.versionId = versionId ∧ fill.uid = uid
          · simp [claimed, same, Nat.add_comm]
          · simp [claimed, same]
      | succ position =>
          simp only [List.getElem?_cons_succ] at here
          have tail := induction here
          by_cases same : head.versionId = versionId ∧ head.uid = uid
          · simp only [claimed, List.eraseIdx_cons_succ, same,
              List.filter_cons, decide_true, Bool.and_self, if_true,
              List.map_cons, List.sum_cons] at tail ⊢
            omega
          · have dropped : (decide (head.versionId = versionId) &&
                decide (head.uid = uid)) = false := by
              simpa using same
            simpa [claimed, List.filter_cons, dropped] using tail

/-- Giving a claim back together with its fill keeps the invariant and
leaves the claimed bytes free. -/
private theorem returnClaim (invariant : CacheInvariant config state)
    (here : state.fills[position]? = some fill) :
    CacheInvariant config
        { state with
          cache := state.cache.returnClaim fill
          fills := state.fills.eraseIdx position } ∧
      ∀ entry, state.cache.entry fill.versionId = some entry →
        entry.uid = fill.uid →
          (state.cache.returnClaim fill).usedBytes + fill.added =
            state.cache.usedBytes := by
  have member : fill ∈ state.fills := List.mem_of_getElem? here
  have fewer := invariant.fewerFills
    (List.eraseIdx_sublist state.fills position)
  have freed : ∀ entry, state.cache.entry fill.versionId = some entry →
      entry.uid = fill.uid →
        (state.cache.returnClaim fill).usedBytes + fill.added =
          state.cache.usedBytes := by
    intro entry found same
    obtain ⟨idle, _⟩ := invariant.covered fill member entry found same
    have balance := Dict.weight_modify CacheEntry.chargedBytes
      state.cache.entries (fun entry =>
        if entry.uid = fill.uid then
          entry.withInflight (entry.inflight - fill.added)
        else entry) found
    have enough : fill.added ≤ entry.inflight := by
      have total := invariant.claims fill.versionId entry found
      have part := claimed_eraseIdx here fill.versionId entry.uid
      simp only [same, and_self, if_true] at part total
      omega
    rw [if_pos same, CacheEntry.chargedBytes_withInflight idle,
      CacheEntry.chargedBytes_of_idle idle] at balance
    simp only [LocalCache.usedBytes, LocalCache.returnClaim,
      LocalCache.update] at *
    omega
  refine ⟨?_, freed⟩
  by_cases current : ∃ entry,
      state.cache.entry fill.versionId = some entry ∧ entry.uid = fill.uid
  · obtain ⟨entry, found, same⟩ := current
    refine ⟨?_, ?_, ?_, ?_, fewer.fillsFresh, ?_, ?_, ?_, ?_⟩
    · intro budget
      have less := freed entry found same
      have bound := invariant.bytes budget
      simp only
      omega
    · intro limit
      simpa [LocalCache.returnClaim, LocalCache.update, Dict.size_modify]
        using invariant.files limit
    · intro other later laterFound
      rcases update_cases found same laterFound with ⟨rfl, rfl⟩ | ⟨_, older⟩
      · exact invariant.keyed fill.versionId entry found
      · exact invariant.keyed other later older
    · intro other later laterFound
      rcases update_cases found same laterFound with ⟨rfl, rfl⟩ | ⟨_, older⟩
      · exact invariant.fresh fill.versionId entry found
      · exact invariant.fresh other later older
    · intro other later laterFound staging
      rcases update_cases found same laterFound with ⟨rfl, rfl⟩ | ⟨_, older⟩
      · have idle := (invariant.covered fill member entry found same).1
        simp [idle] at staging
      · exact invariant.staged other later older staging
    · intro other later laterFound
      rcases update_cases found same laterFound with ⟨rfl, rfl⟩ | ⟨_, older⟩
      · have total := invariant.claims fill.versionId entry found
        have part := claimed_eraseIdx here fill.versionId entry.uid
        simp only [CacheEntry.withInflight_uid,
          CacheEntry.withInflight_inflight, same, and_self, if_true]
          at part total ⊢
        omega
      · exact fewer.claims other later older
    · intro other otherMember later laterFound identical
      rcases update_cases found same laterFound with ⟨filed, rfl⟩ | ⟨_, older⟩
      · exact fewer.covered other otherMember entry (filed ▸ found)
          identical
      · exact fewer.covered other otherMember later older identical
    · intro writer writerMember
      obtain ⟨older, matches_⟩ := invariant.writers writer writerMember
      refine ⟨older, ?_⟩
      intro later laterFound identical
      rcases update_cases found same laterFound with
      ⟨filed, rfl⟩ | ⟨_, unchanged⟩
      · exact (matches_ entry (filed ▸ found) identical).withInflight _
      · exact matches_ later unchanged identical
  · have untouched : Evolves state.cache
        (state.cache.returnClaim fill) := by
      apply Evolves.update
      intro entry found same
      exact (current ⟨entry, found, same⟩).elim
    exact fewer.evolves untouched

theorem markPresent_entry (cache : LocalCache)
    (versionId : String) (uid : Nat) (indices : List Nat)
    (other : String) :
    (cache.markPresent versionId uid indices).entry other =
      if other = versionId then (cache.entry other).map fun entry =>
        if entry.uid = uid then entry.mark indices else entry
      else cache.entry other := by
  unfold LocalCache.markPresent
  cases found : cache.entry versionId with
  | none =>
      by_cases same : other = versionId
      · simp [same, found]
      · simp [same]
  | some entry =>
      dsimp only
      split
      · rename_i different
        by_cases same : other = versionId
        · simp [same, found, different]
        · simp [same]
      · rename_i identical
        have matching : entry.uid = uid := not_not.mp identical
        have steps : ∀ (cache : LocalCache) (steps : List DiskStep),
            (cache.issue steps).entry other = cache.entry other :=
          fun _ _ => rfl
        rw [steps, update_entry]
        by_cases same : other = versionId
        · subst other
          simp only [if_true, found, Option.map_some, matching,
            CacheEntry.mark_filter]
        · simp [same]

private theorem mark_later (entry : CacheEntry) (indices : List Nat) :
    entry.Later (entry.mark indices) :=
  .of_same_blocks rfl rfl rfl rfl rfl rfl
    fun _ => entry.missingBytes_mark_le indices _

theorem markPresent_later (cache : LocalCache) (versionId : String)
    (uid : Nat) (indices : List Nat) (other : String) (later : CacheEntry)
    (found : (cache.markPresent versionId uid indices).entry other =
      some later) :
    ∃ earlier, cache.entry other = some earlier ∧ earlier.Later later := by
  rw [markPresent_entry] at found
  by_cases same : other = versionId
  · rw [if_pos same, Option.map_eq_some_iff] at found
    obtain ⟨earlier, earlierFound, rfl⟩ := found
    refine ⟨earlier, earlierFound, ?_⟩
    split
    · exact mark_later earlier indices
    · exact .refl earlier
  · rw [if_neg same] at found
    exact ⟨later, found, .refl later⟩

private theorem markPresent_size (cache : LocalCache) (versionId : String)
    (uid : Nat) (indices : List Nat) :
    (cache.markPresent versionId uid indices).entries.size =
      cache.entries.size := by
  unfold LocalCache.markPresent
  split
  · rfl
  · dsimp only
    split
    · rfl
    · exact Dict.size_modify _ _ _

theorem markPresent_nextUid (cache : LocalCache)
    (versionId : String) (uid : Nat) (indices : List Nat) :
    (cache.markPresent versionId uid indices).nextUid = cache.nextUid := by
  unfold LocalCache.markPresent
  split
  · rfl
  · dsimp only
    split <;> rfl

private theorem markPresent_used (cache : LocalCache) (versionId : String)
    (uid : Nat) (indices : List Nat) (allowance : Nat)
    (bounded : ∀ entry, cache.entry versionId = some entry →
      entry.uid = uid →
        (entry.mark indices).chargedBytes ≤
          entry.chargedBytes + allowance) :
    (cache.markPresent versionId uid indices).usedBytes ≤
      cache.usedBytes + allowance := by
  unfold LocalCache.markPresent
  cases found : cache.entry versionId with
  | none => exact Nat.le_add_right _ _
  | some entry =>
      dsimp only
      split
      · exact Nat.le_add_right _ _
      · rename_i identical
        have matching : entry.uid = uid := not_not.mp identical
        have limit := bounded entry found matching
        have balance := Dict.weight_modify CacheEntry.chargedBytes
          cache.entries (fun other =>
            if other.uid = uid then
              other.mark (indices.filter fun index =>
                !entry.presentAt index)
            else other) found
        rw [if_pos matching, CacheEntry.mark_filter] at balance
        simp only [LocalCache.usedBytes, LocalCache.issue,
          LocalCache.update] at balance ⊢
        omega

private theorem returnClaim_entry {cache : LocalCache} {later : CacheEntry}
    (found : (cache.returnClaim fill).entry fill.versionId = some later)
    (same : later.uid = fill.uid) :
    ∃ earlier, cache.entry fill.versionId = some earlier ∧
      earlier.uid = fill.uid ∧
      later = earlier.withInflight (earlier.inflight - fill.added) := by
  rw [LocalCache.returnClaim, update_entry, if_pos rfl] at found
  obtain ⟨earlier, earlierFound, rfl⟩ := Option.map_eq_some_iff.mp found
  by_cases identical : earlier.uid = fill.uid
  · exact ⟨earlier, earlierFound, identical, if_pos identical⟩
  · rw [if_neg identical] at same
    exact (identical same).elim

/-- The bytes a fill marks were claimed, so committing it charges nothing
that was not charged before. -/
private theorem commit_used (invariant : CacheInvariant config state)
    (here : state.fills[position]? = some fill) :
    ((state.cache.returnClaim fill).markPresent fill.versionId fill.uid
      fill.blocks).usedBytes ≤ state.cache.usedBytes := by
  have member : fill ∈ state.fills := List.mem_of_getElem? here
  obtain ⟨_, freed⟩ := returnClaim invariant here
  by_cases current : ∃ entry,
      state.cache.entry fill.versionId = some entry ∧ entry.uid = fill.uid
  · obtain ⟨entry, found, same⟩ := current
    obtain ⟨idle, bound⟩ := invariant.covered fill member entry found same
    have growth := markPresent_used (state.cache.returnClaim fill)
      fill.versionId fill.uid fill.blocks fill.added (by
        intro later laterFound laterSame
        obtain ⟨earlier, earlierFound, _, rfl⟩ :=
          returnClaim_entry laterFound laterSame
        rw [found] at earlierFound
        cases earlierFound
        have grown := CacheEntry.presentBytes_mark_le
          (entry.withInflight (entry.inflight - fill.added)) fill.blocks
        rw [CacheEntry.chargedBytes_withInflight idle]
        calc
          ((entry.withInflight (entry.inflight - fill.added)).mark
              fill.blocks).chargedBytes
              = ((entry.withInflight (entry.inflight - fill.added)).mark
                  fill.blocks).presentBytes +
                  (entry.inflight - fill.added) :=
                CacheEntry.chargedBytes_of_idle idle
          _ ≤ entry.presentBytes + entry.missingBytes fill.blocks +
                (entry.inflight - fill.added) :=
                Nat.add_le_add_right grown _
          _ ≤ entry.presentBytes + (entry.inflight - fill.added) +
                fill.added := by omega)
    have room := freed entry found same
    omega
  · have unchanged : Evolves state.cache
        (state.cache.returnClaim fill) := by
      apply Evolves.update
      intro entry found same
      exact (current ⟨entry, found, same⟩).elim
    have growth := markPresent_used (state.cache.returnClaim fill)
      fill.versionId fill.uid fill.blocks 0 (by
        intro later laterFound laterSame
        obtain ⟨earlier, earlierFound, same, _⟩ :=
          returnClaim_entry laterFound laterSame
        exact (current ⟨earlier, earlierFound, same⟩).elim)
    exact growth.trans unchanged.used

theorem commitBlocks (invariant : CacheInvariant config state)
    (here : state.fills[position]? = some fill) (now : Int) :
    CacheInvariant config
      { state with
        cache := state.cache.commitBlocks fill now
        fills := state.fills.eraseIdx position } := by
  have written := invariant.evolves (Evolves.issue state.cache
    [.writeData (.path fill.versionId) fill.begin_ fill.data])
  have returned := (returnClaim written here).1
  have marked := returned.of_later
    (markPresent_later _ fill.versionId fill.uid fill.blocks)
    (markPresent_nextUid _ _ _ _)
    (fun budget => (commit_used written here).trans (written.bytes budget))
    (fun limit => by
      rw [markPresent_size]
      exact returned.files limit)
  exact marked.evolves (Evolves.relabel _ fill.versionId fill.uid
    CacheEntry.pins (fun _ => now) CacheEntry.pinnedAt)

theorem failBlocks (invariant : CacheInvariant config state) (fill : Fill)
    (position written : Nat) :
    CacheInvariant config
      { state with
        cache := state.cache.failBlocks fill written
        fills := state.fills.eraseIdx position } := by
  have fewer := invariant.fewerFills
    (List.eraseIdx_sublist state.fills position)
  have dropped : Evolves state.cache
      (state.cache.failBlocks fill written) :=
    (Evolves.issue state.cache _).trans (Evolves.update_remove _ _ _ _)
  exact fewer.evolves dropped

private theorem mark_charged_le {count : Nat} (inside : count ≤ entry.blocks)
    (settled : entry.writing = false → entry.Whole) :
    (entry.mark (List.range count)).chargedBytes ≤ entry.chargedBytes := by
  cases staging : entry.writing with
  | true =>
      have marked : (entry.mark (List.range count)).writing = true := staging
      rw [CacheEntry.chargedBytes, CacheEntry.chargedBytes, if_pos marked,
        if_pos staging]
      exact le_rfl
  | false =>
      have marked : (entry.mark (List.range count)).writing = false := staging
      have grown := entry.presentBytes_mark_le (List.range count)
      have nothing := entry.missingBytes_range_le inside
      have whole := settled staging
      rw [CacheEntry.Whole] at whole
      rw [CacheEntry.chargedBytes_of_idle marked,
        CacheEntry.chargedBytes_of_idle staging]
      apply Nat.add_le_add_right
      omega

theorem write_done_le (matches_ : writer.Matches entry) (offset : Nat) :
    (if writer.size ≤ offset then writer.blocks
      else offset / writer.blockSize) ≤ entry.blocks := by
  rw [CacheEntry.blocks_eq, matches_.size, matches_.blockSize]
  split
  · exact le_rfl
  · apply Nat.div_le_div_right
    have positive := entry.blockSize_pos
    rw [matches_.blockSize] at positive
    omega

variable (invariant : CacheInvariant config state)
include invariant

theorem write (here : state.writers[position]? = some writer)
    (data : List UInt8) :
    CacheInvariant config
      (state.withWriter position (writer.write state.cache data)) := by
  have fits := invariant.writers writer (List.mem_of_getElem? here)
  unfold StagingWriter.write
  split
  · exact invariant.setWriter position fits
  · dsimp only
    have written := invariant.evolves (Evolves.issue state.cache
      [.writeData (.handle writer.uid) writer.offset data])
    have marked := written.of_later
      (markPresent_later _ writer.versionId writer.uid (List.range
        (if writer.size ≤ writer.offset + data.length then writer.blocks
          else (writer.offset + data.length) / writer.blockSize)))
      (markPresent_nextUid _ _ _ _)
      (fun budget => (markPresent_used _ _ _ _ 0 (by
          intro entry found same
          have matches_ := fits.2 entry found same
          exact mark_charged_le (write_done_le matches_ _)
            matches_.settled)).trans (written.bytes budget))
      (fun limit => by
        rw [markPresent_size]
        exact written.files limit)
    refine marked.setWriter position ⟨marked.writers writer
      (List.mem_of_getElem? here) |>.1, ?_⟩
    intro later found same
    have older := (marked.writers writer (List.mem_of_getElem? here)).2
      later found same
    have whole : writer.size ≤ writer.offset + data.length →
        later.Whole := by
      intro all
      rw [if_pos all] at found
      rw [markPresent_entry, if_pos rfl] at found
      obtain ⟨earlier, earlierFound, rfl⟩ := Option.map_eq_some_iff.mp found
      by_cases identical : earlier.uid = writer.uid
      · have matches_ := fits.2 earlier earlierFound identical
        have blocks : writer.blocks = earlier.blocks := by
          rw [CacheEntry.blocks_eq, matches_.size, matches_.blockSize,
            StagingWriter.blocks]
        rw [if_pos identical, blocks]
        exact earlier.mark_range_whole
      · rw [if_neg identical] at same
        exact (identical same).elim
    refine ⟨older.size, older.blockSize, older.settled, ?_, ?_⟩
    · intro finishing
      exact whole (of_decide_eq_true finishing)
    · intro _ _ all
      exact whole all

theorem beginAbort (here : state.writers[position]? = some writer)
    (offset : Nat) :
    CacheInvariant config (state.withWriter position
      (StagingWriter.beginAbort { writer with offset := offset },
        state.cache)) := by
  obtain ⟨issued, matches_⟩ :=
    invariant.writers writer (List.mem_of_getElem? here)
  refine invariant.setWriter position ⟨issued, ?_⟩
  intro entry found same
  have older := matches_ entry found same
  refine ⟨older.size, older.blockSize, older.settled, older.finishing, ?_⟩
  intro intact
  cases intact

theorem writeFailed (here : state.writers[position]? = some writer)
    (data : List UInt8) (written : Nat) :
    CacheInvariant config (state.withWriter position
      (writer.writeFailed state.cache data written)) := by
  unfold StagingWriter.writeFailed
  split
  · exact invariant.setWriter position
      (invariant.writers writer (List.mem_of_getElem? here))
  · exact (invariant.evolves (Evolves.issue state.cache _)).beginAbort here _

theorem close (here : state.writers[position]? = some writer) :
    CacheInvariant config
      (state.withWriter position (writer.close, state.cache)) := by
  have fits := invariant.writers writer (List.mem_of_getElem? here)
  unfold StagingWriter.close
  split
  · exact invariant.setWriter position fits
  · rename_i intact
    split
    · rename_i all
      split
      · rename_i opened
        refine invariant.setWriter position ⟨fits.1, ?_⟩
        intro entry found same
        have older := fits.2 entry found same
        have whole := older.finished (Bool.eq_false_of_not_eq_true intact)
          opened all
        exact ⟨older.size, older.blockSize, older.settled, fun _ => whole,
          older.finished⟩
      · exact invariant.setWriter position fits
    · exact invariant.beginAbort here writer.offset

theorem finish (here : state.writers[position]? = some writer)
    (finishing : writer.finishing = true) :
    CacheInvariant config
      (state.withWriter position (writer.finish state.cache)) := by
  have fits := invariant.writers writer (List.mem_of_getElem? here)
  have ended : Evolves state.cache
      (state.cache.update writer.versionId writer.uid fun entry =>
        { entry with writing := false }) := by
    apply Evolves.update
    intro entry found same
    have whole := (fits.2 entry found same).finishing finishing
    refine ⟨⟨rfl, rfl, rfl, rfl, rfl, ?_, fun _ _ => whole,
      fun _ => le_rfl⟩, ?_⟩
    · intro staging
      cases staging
    · cases staging : entry.writing with
      | false =>
          rw [CacheEntry.chargedBytes_of_idle staging]
          exact le_rfl
      | true =>
          have unclaimed := invariant.staged _ entry found staging
          have bounded := entry.presentBytes_le_size
          rw [CacheEntry.chargedBytes, CacheEntry.chargedBytes,
            if_pos staging, if_neg Bool.false_ne_true]
          change entry.presentBytes + entry.inflight ≤ entry.size
          omega
  have settled := invariant.evolves (ended.trans (.saveIndex _))
  refine settled.setWriter position
    ⟨(settled.writers writer (List.mem_of_getElem? here)).1, ?_⟩
  intro entry found same
  have older := (settled.writers writer (List.mem_of_getElem? here)).2
    entry found same
  refine ⟨older.size, older.blockSize, older.settled, ?_, ?_⟩
  · intro pending
    cases pending
  · intro _ opened
    cases opened

theorem endAbort (here : state.writers[position]? = some writer) :
    CacheInvariant config
      (state.withWriter position (writer.endAbort state.cache)) := by
  have dropped := invariant.evolves (Evolves.update_remove state.cache
    writer.versionId writer.uid fun entry => { entry with writing := false })
  refine dropped.setWriter position
    ⟨(dropped.writers writer (List.mem_of_getElem? here)).1, ?_⟩
  intro entry found same
  have older := (dropped.writers writer (List.mem_of_getElem? here)).2
    entry found same
  refine ⟨older.size, older.blockSize, older.settled, older.finishing, ?_⟩
  intro _ opened
  cases opened

/-- Every step of the tasks that share the cache keeps the invariant. -/
theorem step {after : CacheState} {action : CacheAction}
    (taken : cacheStep config state action = some after) :
    CacheInvariant config after := by
  cases cacheMove taken with
  | openStaging fs versionId size now free refused =>
      exact invariant.openStaging fs versionId size now free refused
  | write data here => exact invariant.write here data
  | writeFailed data written here =>
      exact invariant.writeFailed here data written
  | finish here finishing => exact invariant.finish here finishing
  | @abort _ writer here => exact invariant.beginAbort here writer.offset
  | endAbort here => exact invariant.endAbort here
  | close here => exact invariant.close here
  | reserve fs versionId size now free refused =>
      exact invariant.reserve fs versionId size now free refused
  | claimBlocks versionId begin_ data free =>
      exact invariant.claimBlocks versionId begin_ data free
  | commitBlocks now here => exact invariant.commitBlocks here now
  | @failBlocks position fill written here =>
      exact invariant.failBlocks fill position written
  | @cancelBlocks position fill here =>
      exact invariant.fewerFills (List.eraseIdx_sublist state.fills position)
  | pin versionId now => exact invariant.evolves (.pin state.cache versionId now)
  | unpin versionId => exact invariant.evolves (.unpin state.cache versionId)
  | release versionId =>
      exact invariant.evolves (.release config state.cache versionId)
  | remove versionId => exact invariant.evolves (.remove state.cache versionId)
  | removeMany versionIds =>
      exact invariant.evolves (.removeMany state.cache versionIds)
  | evictUnpinned => exact invariant.evolves (.removeMany state.cache _)
  | sweep listing queueEmpty now free =>
      exact invariant.evolves (sweep_spec config state.cache listing
        queueEmpty now free invariant.keyed).1

omit invariant

theorem reachable
    (reached : Reachable (cacheStep config) CacheState.initial state) :
    CacheInvariant config state :=
  reached.invariant (fun _ _ _ invariant taken => step invariant taken)
    (initial config)

end CacheInvariant

/-- A mirror, a writer or a fill is waiting for the entry. -/
def CacheEntry.Busy (entry : CacheEntry) : Prop :=
  0 < entry.pins ∨ entry.writing = true ∨ 0 < entry.inflight

theorem CacheEntry.Busy.not_evictable {entry : CacheEntry}
    (busy : entry.Busy) : entry.evictable = false := by
  unfold CacheEntry.evictable
  rcases busy with pinned | staging | claimed
  · simp [Nat.ne_of_gt pinned]
  · simp [staging]
  · simp [Nat.ne_of_gt claimed]

/-- In every reachable state the cache is within its budget and its number of
entries, and the eviction runs that may follow, whatever they are asked for,
leave every busy entry where it is.  A sweep evicts from the cache it is left
with once the stale pins are released. -/
theorem cache_budget (config : CacheConfig) (state : CacheState)
    (reached : Reachable (cacheStep config) CacheState.initial state) :
    (0 < config.maxSizeBytes →
      state.cache.usedBytes ≤ config.maxSizeBytes) ∧
    (0 < config.maxFiles → state.cache.entries.size ≤ config.maxFiles) ∧
    ∀ versionId entry, entry.Busy →
      (state.cache.entry versionId = some entry →
        (∀ size newEntry keep free,
          (state.cache.makeRoom config size newEntry keep free).1.entry
            versionId = some entry) ∧
        state.cache.evictUnpinned.1.entry versionId = some entry) ∧
      ∀ listing queueEmpty now free,
        (sweepReleased config state.cache listing queueEmpty now).entry
            versionId = some entry →
          (state.cache.sweep config listing queueEmpty now free).1.entry
            versionId = some entry := by
  have invariant := CacheInvariant.reachable reached
  refine ⟨invariant.bytes, invariant.files, ?_⟩
  intro versionId entry busy
  have kept := busy.not_evictable
  refine ⟨?_, ?_⟩
  · intro found
    refine ⟨?_, ?_⟩
    · intro size newEntry keep free
      exact makeRoom_spared config state.cache size newEntry keep free
        invariant.keyed versionId entry found kept
    · exact evictUnpinned_spared state.cache invariant.keyed versionId
        entry found kept
  · intro listing queueEmpty now free found
    exact (sweep_spec config state.cache listing queueEmpty now free
      invariant.keyed).2 versionId entry found kept

/-- A version of 70000 bytes being staged next to a claim of three bytes,
under a budget of one megabyte. -/
theorem cache_budget_staged_and_claimed :
    ∃ state, Reachable
        (cacheStep ⟨true, 1, 4, 0, 64, true, 0, 0, 100, by decide⟩)
        CacheState.initial state ∧
      state.cache.usedBytes = 70003 ∧
      state.cache.usedBytes ≤ 1 * 1024 * 1024 := by
  have reached : Reachable
      (cacheStep ⟨true, 1, 4, 0, 64, true, 0, 0, 100, by decide⟩)
      CacheState.initial _ :=
    ⟨[.openStaging "fs" "first" 70000 0 (fun _ => none) none,
      .reserve "fs" "second" 3 1 (fun _ => none) none,
      .claimBlocks "second" 0 [1, 2, 3] (fun _ => none)], rfl⟩
  exact ⟨_, reached, rfl, (cache_budget _ _ reached).1 (by decide)⟩

end Tgdcfs
