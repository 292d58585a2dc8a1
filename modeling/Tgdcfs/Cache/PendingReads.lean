import Tgdcfs.Cache.LocalRead
import Tgdcfs.Cache.Pinned
import Tgdcfs.Core.FDRepository

/-!
# Pending versions

The bytes of a pending version are in the cache and nowhere else.  Four
consumers ask the cache for them: the read that a client waits for, the check
of the descriptor repository, the distribution into the stores, and the next
process.  While the version is complete and pinned, and nothing lets go of
it, all four find it.
-/

namespace Tgdcfs

open Lib

variable {content : String → List UInt8} {config : CacheConfig}
  {versionId : String} {size : Nat}

/-- What `get` makes of a range of a pending version. -/
inductive PendingContent where
  | empty
  | cached (begin_ last : Int)
  | invalidRange
  | elsewhere
  deriving DecidableEq, Repr

/-- The pending branch of `get`. -/
def LocalCache.pendingContent (cache : LocalCache) (versionId : String)
    (size begin_ end_ : Int) : PendingContent :=
  if cache.complete versionId then
    if size ≤ 0 then .empty
    else
      let last := if end_ < 0 then size - 1 else min end_ (size - 1)
      if begin_ < 0 ∨ last < begin_ then .invalidRange
      else .cached begin_ last
  else .elsewhere

/-- The consumers of a pending version of `size` bytes find it. -/
structure LocalCache.Serves (cache : LocalCache) (versionId : String)
    (size : Nat) : Prop where
  distributed : cache.local versionId = some size
  readable : ∀ (repo : FDRepository) (version : TGFSFileVersion),
    repo.localVersions = cache.complete → version.pending = true →
      version.id = versionId → repo.readableLocally version = true
  ranges : ∀ begin_ end_ : Int,
    cache.pendingContent versionId size begin_ end_ ≠ .elsewhere
  begins : ∀ begin_ end_ first last instant : Int,
    cache.pendingContent versionId size begin_ end_ = .cached first last →
      ∃ after read, cache.beginRead versionId first last instant =
          .ok (after, read) ∧
        read.begin_ = first ∧ read.last = last

/-- A read goes on until it has yielded its range. -/
structure LocalRead.Delivers (read : LocalRead) (disk : Disk)
    (content : List UInt8) : Prop where
  intact : read.error = none
  advances : read.active = true → read.offset < (read.chunk disk).offset
  delivered : read.last < read.offset →
    read.output = (content.drop read.begin_.toNat).take
      (read.last + 1 - read.begin_).toNat

/-- The version is there with all its bytes, and pinned. -/
def LocalCache.HoldsVersion (cache : LocalCache) (versionId : String)
    (size : Nat) : Prop :=
  ∃ entry, cache.entry versionId = some entry ∧ entry.size = size ∧
    0 < entry.pins ∧ entry.writing = false ∧ entry.isComplete = true

namespace LocalCache.HoldsVersion

variable {cache after : LocalCache}

theorem complete (holds : cache.HoldsVersion versionId size) :
    cache.complete versionId = true := by
  obtain ⟨entry, found, _, _, settled, whole⟩ := holds
  exact LocalCache.complete_iff.mpr ⟨entry, found, settled, whole⟩

theorem hasByteRange {entry : CacheEntry} (whole : entry.isComplete = true)
    {begin_ end_ : Int} (from_ : 0 ≤ begin_) (ordered : begin_ ≤ end_)
    (inside : end_ < entry.size) :
    entry.hasByteRange begin_ end_ = true := by
  have all : ∀ index < entry.blocks, entry.presentAt index = true :=
    (CacheEntry.isComplete_iff.mp whole).resolve_left (by omega)
  rw [CacheEntry.hasByteRange, if_neg (by omega), if_neg (by omega),
    CacheEntry.hasRange_iff (by omega) (by omega)]
  intro index _ upTo
  apply all
  have last : end_.toNat < entry.size := by omega
  exact Nat.lt_of_le_of_lt upTo (CacheEntry.end_lt_blocks last)

theorem serves (holds : cache.HoldsVersion versionId size) :
    cache.Serves versionId size := by
  have complete := holds.complete
  obtain ⟨entry, found, sized, _, settled, whole⟩ := holds
  refine ⟨?_, ?_, ?_, ?_⟩
  · simp [LocalCache.local, found, settled, whole, sized]
  · intro repo version here pending named
    simp [FDRepository.readableLocally, pending, here, named, complete]
  · intro begin_ end_
    unfold LocalCache.pendingContent
    dsimp only
    rw [if_pos complete]
    by_cases empty : (size : Int) ≤ 0
    · rw [if_pos empty]
      simp
    · rw [if_neg empty]
      split_ifs <;> simp
  · intro begin_ end_ first last instant asked
    unfold LocalCache.pendingContent at asked
    dsimp only at asked
    rw [if_pos complete] at asked
    split at asked
    · cases asked
    · rename_i positive
      generalize bounded : (if end_ < 0 then (size : Int) - 1
        else min end_ ((size : Int) - 1)) = stop at asked
      split at asked
      · cases asked
      · rename_i valid
        cases asked
        have inside : last < entry.size := by
          rw [sized, ← bounded]
          split <;> omega
        have range : entry.hasByteRange begin_ last = true :=
          hasByteRange whole (by omega) (by omega) inside
        unfold LocalCache.beginRead
        rw [found]
        dsimp only
        rw [if_neg (show ¬(last < 0 ∨ (entry.size : Int) ≤ last) by omega),
          if_pos range]
        exact ⟨_, _, rfl, rfl, rfl⟩

end LocalCache.HoldsVersion

theorem KeepsPinned.holdsVersion {before after : LocalCache}
    (keeps : KeepsPinned versionId before after)
    (holds : before.HoldsVersion versionId size) :
    after.HoldsVersion versionId size := by
  obtain ⟨entry, found, sized, pinned, settled, whole⟩ := holds
  obtain ⟨later, laterFound, kept⟩ := keeps entry found pinned
  exact ⟨later, laterFound, kept.size.trans sized, kept.pinned,
    kept.writing settled, kept.complete whole⟩

/-- A process that stops loads the version again, at the same size. -/
theorem diskStep_holdsVersion {now later : DiskState} {action : DiskAction}
    (invariant : DiskInvariant config content now)
    (honest : action.Honest content now)
    (holds : ¬action.LetsGo config now versionId)
    (taken : diskStep config now action = some later)
    (held : now.state.cache.HoldsVersion versionId size) :
    later.state.cache.HoldsVersion versionId size := by
  have keyed := invariant.budget.keyed
  rcases diskStep_state taken with same | ⟨operation, rfl, operated⟩ |
    ⟨operation, count, mtime, rfl, _⟩
  · rw [same]
    exact held
  · exact (cacheStep_keepsPinned keyed holds operated).holdsVersion held
  · obtain ⟨next, middle, operated, between, recovers⟩ :=
      diskStep_crash invariant honest taken
    have keeps := cacheStep_keepsPinned keyed holds operated
    have afterwards := (keeps.holdsVersion held).complete
    have complete := held.complete
    obtain ⟨entry, found, sized, pins, _⟩ := held
    obtain ⟨after, foundAfter, kept⟩ := keeps entry found pins
    obtain ⟨whole, left, foundLeft, leftPins, leftSize⟩ := between.kept
      versionId entry after found foundAfter kept.uid pins kept.pinned
      complete afterwards
    obtain ⟨loadedWhole, loaded, foundLoaded, loadedPins⟩ :=
      recovers.pinned foundLeft whole leftPins
    obtain ⟨earlier, foundEarlier, sameSize, _⟩ :=
      recovers.entries versionId loaded foundLoaded
    obtain ⟨known, foundKnown, settled, all⟩ :=
      LocalCache.complete_iff.mp loadedWhole
    rw [foundLeft] at foundEarlier
    cases foundEarlier
    rw [foundLoaded] at foundKnown
    cases foundKnown
    have afterSize := kept.size
    exact ⟨loaded, foundLoaded, by omega, loadedPins, settled, all⟩

/-- What a read of the version relies on. -/
structure ReadWhole (content : String → List UInt8) (cache : LocalCache)
    (read : LocalRead) : Prop where
  on : ReadOn content cache read
  current : ∀ entry, cache.entry read.versionId = some entry →
    entry.uid = read.uid
  intact : read.error = none
  from_ : 0 ≤ read.offset
  upTo : read.offset ≤ read.last + 1

variable {read : LocalRead}

/-- A chunk of a version that is there has all the bytes asked for. -/
theorem ReadWhole.chunk {state : CacheState} {disk : Disk}
    (whole : ReadWhole content state.cache read)
    (aligned : Aligned content false state.cache disk)
    (held : state.cache.HoldsVersion read.versionId size)
    (active : read.active = true) :
    ReadWhole content state.cache (read.chunk disk) ∧
      read.offset < (read.chunk disk).offset := by
  obtain ⟨entry, found, _⟩ := held
  have same := whole.current entry found
  have next : ReadOn content state.cache (read.chunk disk) := by
    refine whole.on.chunk aligned active ?_
    intro other otherFound apart
    exact absurd (whole.current other otherFound) apart
  have below : read.offset ≤ read.last := by
    simp only [LocalRead.active, Bool.and_eq_true,
      decide_eq_true_eq] at active
    exact active.2
  have within := whole.on.within found same whole.from_ below
  obtain ⟨file, linked, enough, _⟩ :=
    (aligned.mirrors.stored read.versionId entry found).data
  have opened : disk.pread read.versionId read.offset.toNat read.length =
      some (readAt file read.offset.toNat read.length) := by
    rw [Disk.pread, linked]
    rfl
  have all : (readAt file read.offset.toNat read.length).length =
      read.length := by
    rw [readAt, List.length_take, List.length_drop]
    have inside := within.1
    omega
  have positive : 0 < read.length := by
    unfold LocalRead.length READ_CHUNK
    omega
  have nonempty : (readAt file read.offset.toNat read.length).isEmpty =
      false := by
    cases bytes : readAt file read.offset.toNat read.length with
    | nil =>
        rw [bytes, List.length_nil] at all
        omega
    | cons byte rest => rfl
  have moved : read.chunk disk =
      { read with
        offset := read.offset + read.length
        output := read.output ++
          readAt file read.offset.toNat read.length } := by
    unfold LocalRead.chunk
    rw [opened]
    dsimp only
    rw [if_neg (Int.not_lt.mpr whole.from_), nonempty,
      if_neg Bool.false_ne_true, all]
  have short : read.length ≤ (read.last - read.offset + 1).toNat :=
    Nat.min_le_right _ _
  rw [moved] at next ⊢
  have from_ := whole.from_
  refine ⟨⟨next, whole.current, whole.intact, ?_, ?_⟩, ?_⟩
  · dsimp only
    omega
  · dsimp only
    omega
  · dsimp only
    omega

theorem ReadWhole.delivers {state : CacheState} {disk : Disk}
    (whole : ReadWhole content state.cache read)
    (aligned : Aligned content false state.cache disk)
    (held : state.cache.HoldsVersion read.versionId size) :
    read.Delivers disk (content read.versionId) := by
  refine ⟨whole.intact, fun active => (whole.chunk aligned held active).2,
    ?_⟩
  intro ended
  obtain ⟨start, position⟩ := whole.on.position whole.intact whole.from_
  have last := whole.upTo
  have from_ := whole.from_
  have length : read.output.length =
      (read.last + 1 - read.begin_).toNat := by omega
  rw [← length]
  exact List.prefix_iff_eq_take.mp whole.on.genuine

/-- The steps of the other tasks keep what a read of the version relies
on. -/
theorem diskStep_readWhole {now later : DiskState} {action : DiskAction}
    (invariant : DiskInvariant config content now)
    (taken : diskStep config now action = some later) {reads : List LocalRead}
    (member : read ∈ action.survivors reads)
    (holds : ¬action.LetsGo config now read.versionId)
    (held : now.state.cache.HoldsVersion read.versionId size)
    (whole : ReadWhole content now.state.cache read) :
    ReadWhole content later.state.cache read := by
  have on := diskStep_readOn invariant taken member whole.on
  refine ⟨on, ?_, whole.intact, whole.from_, whole.upTo⟩
  rcases diskStep_state taken with same | ⟨operation, rfl, operated⟩ |
    ⟨_, _, _, rfl, _⟩
  · rw [same]
    exact whole.current
  · obtain ⟨entry, found, _, pinned, _⟩ := held
    obtain ⟨after, afterFound, kept⟩ := cacheStep_keepsPinned
      invariant.budget.keyed holds operated entry found pinned
    intro other otherFound
    rw [afterFound] at otherFound
    cases otherFound
    exact kept.uid.trans (whole.current entry found)
  · cases member

theorem beginRead_spec (versionId : String) {cache after : LocalCache}
    {other : String} {begin_ end_ instant : Int}
    (begun : cache.beginRead other begin_ end_ instant =
      .ok (after, read)) :
    KeepsPinned versionId cache after ∧ read.versionId = other ∧
      read.error = none ∧ read.offset = read.begin_ ∧
      ∃ entry, cache.entry other = some entry ∧ entry.uid = read.uid ∧
        (0 < entry.size → 0 ≤ read.begin_ ∧ read.begin_ ≤ read.last) := by
  unfold LocalCache.beginRead at begun
  cases found : cache.entry other with
  | none =>
      rw [found] at begun
      cases begun
  | some entry =>
      rw [found] at begun
      dsimp only at begun
      generalize (if end_ < 0 ∨ (entry.size : Int) ≤ end_ then
        (entry.size : Int) - 1 else end_) = last at begun
      split at begun
      · rename_i range
        cases begun
        refine ⟨?_, rfl, rfl, rfl, entry, rfl, rfl, ?_⟩
        · exact .update cache other entry.uid fun _ pinned =>
            ⟨rfl, rfl, pinned, fun settled => settled,
              fun complete => complete⟩
        · intro positive
          rw [CacheEntry.hasByteRange, if_neg (by omega)] at range
          split at range
          · cases range
          · dsimp only
            omega
      · cases begun

def ReadingAction.LetsGo (config : CacheConfig) (now : ReadingState)
    (versionId : String) : ReadingAction → Prop
  | .other action => action.LetsGo config now.shared versionId
  | _ => False

structure PendingInvariant (config : CacheConfig)
    (content : String → List UInt8) (versionId : String) (size : Nat)
    (now : ReadingState) : Prop where
  shared : DiskInvariant config content now.shared
  held : now.shared.state.cache.HoldsVersion versionId size
  reads : ∀ read ∈ now.reads, read.versionId = versionId →
    ReadWhole content now.shared.state.cache read

theorem PendingInvariant.step {now later : ReadingState}
    {action : ReadingAction} (positive : 0 < size)
    (invariant : PendingInvariant config content versionId size now)
    (honest : action.Honest content now)
    (holds : ¬action.LetsGo config now versionId)
    (taken : readingStep config now action = some later) :
    PendingInvariant config content versionId size later := by
  cases action with
  | other action =>
      obtain ⟨shared, moved, next⟩ := Option.bind_eq_some_iff.mp taken
      cases next
      refine ⟨invariant.shared.step honest moved,
        diskStep_holdsVersion invariant.shared honest holds moved
          invariant.held, ?_⟩
      intro read member named
      subst named
      exact diskStep_readWhole invariant.shared moved member holds
        invariant.held (invariant.reads read
          (action.survivors_subset _ member) rfl)
  | begin_ other begin_ end_ instant =>
      simp only [readingStep] at taken
      cases begun : now.shared.state.cache.beginRead other begin_ end_
          instant with
      | error error =>
          rw [begun] at taken
          cases taken
          exact invariant
      | ok result =>
          obtain ⟨cache, read⟩ := result
          rw [begun] at taken
          cases taken
          obtain ⟨shared, grows, on⟩ := beginRead_on invariant.shared begun
          obtain ⟨keeps, named, intact, start, entry, found, same, range⟩ :=
            beginRead_spec versionId begun
          have held := keeps.holdsVersion invariant.held
          have current : ∀ older : LocalRead,
              older.versionId = versionId →
              (∀ entry, now.shared.state.cache.entry versionId =
                some entry → entry.uid = older.uid) →
              ∀ entry, cache.entry older.versionId = some entry →
                entry.uid = older.uid := by
            intro older olderNamed was after afterFound
            obtain ⟨entry, found, _, pinned, _⟩ := invariant.held
            obtain ⟨kept, keptFound, keeps_⟩ := keeps entry found pinned
            rw [olderNamed, keptFound] at afterFound
            cases afterFound
            exact keeps_.uid.trans (was entry found)
          refine ⟨shared, held, ?_⟩
          intro older member olderNamed
          rcases List.mem_append.mp member with known | new
          · have whole := invariant.reads older known olderNamed
            refine ⟨whole.on.grows grows, current older olderNamed ?_,
              whole.intact, whole.from_, whole.upTo⟩
            exact olderNamed ▸ whole.current
          · rw [List.mem_singleton.mp new] at olderNamed ⊢
            have sameVersion : other = versionId :=
              named.symm.trans olderNamed
            subst sameVersion
            obtain ⟨known, knownFound, sized, _⟩ := invariant.held
            rw [found] at knownFound
            cases knownFound
            obtain ⟨from_, upTo⟩ := range (sized ▸ positive)
            refine ⟨on, current read olderNamed ?_, intact, ?_, ?_⟩
            · intro entry entryFound
              rw [found] at entryFound
              cases entryFound
              exact same
            · rw [start]
              exact from_
            · rw [start]
              omega
  | chunk position =>
      obtain ⟨read, here, next⟩ := Option.bind_eq_some_iff.mp taken
      split at next
      · rename_i active
        cases next
        refine ⟨invariant.shared, invariant.held, ?_⟩
        intro other member named
        rcases List.mem_or_eq_of_mem_set member with older | rfl
        · exact invariant.reads other older named
        · have sameVersion : read.versionId = versionId := by
            rw [← named]
            exact (read.chunk_versionId now.shared.disk).symm
          subst sameVersion
          exact ((invariant.reads read (List.mem_of_getElem? here)
            rfl).chunk invariant.shared.aligned invariant.held active).1
      · cases next

/-- A version that is complete and pinned serves its consumers, in this
process and in every later one, until something lets go of it. -/
theorem pending_served {start later : ReadingState}
    {actions : List ReadingAction} (positive : 0 < size)
    (invariant : DiskInvariant config content start.shared)
    (held : start.shared.state.cache.HoldsVersion versionId size)
    (unread : ∀ read ∈ start.reads, read.versionId ≠ versionId)
    (allowed : Guarded (readingStep config)
      (fun now action => action.Honest content now ∧
        ¬action.LetsGo config now versionId) start actions)
    (ran : run (readingStep config) start actions = some later) :
    later.shared.state.cache.Serves versionId size ∧
      ∀ read ∈ later.reads, read.versionId = versionId →
        read.Delivers later.shared.disk (content versionId) := by
  have final : PendingInvariant config content versionId size later :=
    run_invariant (fun _ _ _ invariant allowed taken =>
      invariant.step positive allowed.1 allowed.2 taken)
      ⟨invariant, held, fun read member named =>
        absurd named (unread read member)⟩ allowed ran
  refine ⟨final.held.serves, ?_⟩
  intro read member named
  subst named
  exact (final.reads read member rfl).delivers final.shared.aligned
    final.held

end Tgdcfs
