import Tgdcfs.Cache.BlockRuns
import Tgdcfs.Cache.Crash
import Tgdcfs.Core.CachedRead

/-!
# Reads of the local cache

`read` looks once at the entry of a version, and then opens the data file by
its path for every chunk.  Between two chunks the other tasks go on: what
stands behind the path may by then be the file of another entry, and a hole
of it reads as zeros.
-/

namespace Tgdcfs

open Lib

variable {content : String → List UInt8} {config : CacheConfig}

/-- `has_range` for any two bounds. -/
def CacheEntry.hasByteRange (entry : CacheEntry) (begin_ end_ : Int) : Bool :=
  if entry.size = 0 then true
  else if begin_ < 0 ∨ (entry.size : Int) ≤ end_ ∨ end_ < begin_ then false
  else entry.hasRange begin_.toNat end_.toNat

/-- Why a read ends before its last byte. -/
inductive LocalReadError where
  | notCached
  | noFile
  | badOffset
  | shortRead
  deriving DecidableEq, Repr

/-- A read between two chunks.  `uid` is the identity of the entry it looked
at, and `output` what it has yielded. -/
structure LocalRead where
  versionId : String
  uid : Nat
  begin_ : Int
  last : Int
  offset : Int
  output : List UInt8 := []
  error : Option LocalReadError := none
  deriving DecidableEq, Repr

/-- `read` up to its first wait. -/
def LocalCache.beginRead (cache : LocalCache) (versionId : String)
    (begin_ end_ now : Int) :
    Except LocalReadError (LocalCache × LocalRead) :=
  match cache.entry versionId with
  | none => .error .notCached
  | some entry =>
      let last :=
        if end_ < 0 ∨ (entry.size : Int) ≤ end_ then (entry.size : Int) - 1
        else end_
      if entry.hasByteRange begin_ last then
        .ok (cache.update versionId entry.uid fun entry =>
            { entry with lastAccess := now },
          { versionId := versionId
            uid := entry.uid
            begin_ := begin_
            last := last
            offset := begin_ })
      else .error .notCached

namespace LocalRead

/-- How many bytes the next chunk is to have. -/
def length (read : LocalRead) : Nat :=
  min READ_CHUNK (read.last - read.offset + 1).toNat

def active (read : LocalRead) : Bool :=
  read.error.isNone && decide (read.offset ≤ read.last)

/-- One turn of the loop of `read`. -/
def chunk (read : LocalRead) (disk : Disk) : LocalRead :=
  match disk.pread read.versionId read.offset.toNat read.length with
  | none => { read with error := some .noFile }
  | some bytes =>
      if read.offset < 0 then { read with error := some .badOffset }
      else if bytes.isEmpty then { read with error := some .shortRead }
      else
        { read with
          offset := read.offset + bytes.length
          output := read.output ++ bytes }

theorem chunk_versionId (read : LocalRead) (disk : Disk) :
    (read.chunk disk).versionId = read.versionId := by
  unfold chunk
  split
  · rfl
  · split_ifs <;> rfl

end LocalRead

structure ReadingState where
  shared : DiskState
  reads : List LocalRead

def ReadingState.initial : ReadingState := ⟨DiskState.initial, []⟩

inductive ReadingAction where
  | other (action : DiskAction)
  | begin_ (versionId : String) (begin_ end_ now : Int)
  | chunk (read : Nat)

/-- A process that stops ends its reads. -/
def DiskAction.survivors (reads : List LocalRead) :
    DiskAction → List LocalRead
  | .crash _ _ _ => []
  | _ => reads

theorem DiskAction.survivors_subset (action : DiskAction)
    (reads : List LocalRead) : action.survivors reads ⊆ reads := by
  cases action with
  | crash action count mtime => exact List.nil_subset _
  | perform | openHandle | landBlocks | landStaged =>
      exact List.Subset.refl _

def readingStep (config : CacheConfig) (now : ReadingState) :
    ReadingAction → Option ReadingState
  | .other action => do
      let shared ← diskStep config now.shared action
      some ⟨shared, action.survivors now.reads⟩
  | .begin_ versionId begin_ end_ instant =>
      match now.shared.state.cache.beginRead versionId begin_ end_
          instant with
      | .error _ => some now
      | .ok (cache, read) =>
          some ⟨⟨now.shared.state.withCache cache, now.shared.disk⟩,
            now.reads ++ [read]⟩
  | .chunk position => do
      let read ← now.reads[position]?
      if read.active then
        some ⟨now.shared,
          now.reads.set position (read.chunk now.shared.disk)⟩
      else none

def ReadingAction.Honest (content : String → List UInt8)
    (now : ReadingState) : ReadingAction → Prop
  | .other action => action.Honest content now.shared
  | _ => True

/-- An entry has the bytes of the next chunk on disk. -/
def LocalRead.Within (read : LocalRead) (entry : CacheEntry) : Prop :=
  read.offset.toNat + read.length ≤ entry.size ∧
    entry.OnDisk read.offset.toNat (read.offset.toNat + read.length)

/-- No chunk is read while the version has an entry that was created since
the read looked, and that lacks a block of the chunk. -/
def ReadingAction.Backed (now : ReadingState) : ReadingAction → Prop
  | .chunk position => ∀ read, now.reads[position]? = some read →
      ∀ entry, now.shared.state.cache.entry read.versionId = some entry →
        entry.uid ≠ read.uid → read.Within entry
  | _ => True

/-- What the range of a read is worth, as long as its entry is there. -/
structure ReadOn (content : String → List UInt8) (cache : LocalCache)
    (read : LocalRead) : Prop where
  older : read.uid < cache.nextUid
  genuine : read.output <+: (content read.versionId).drop read.begin_.toNat
  position : read.error = none → 0 ≤ read.offset → 0 ≤ read.begin_ ∧
    read.offset.toNat = read.begin_.toNat + read.output.length
  present : ∀ entry, cache.entry read.versionId = some entry →
    entry.uid = read.uid → 0 ≤ read.offset → read.offset ≤ read.last →
      read.last < entry.size ∧
        entry.OnDisk read.offset.toNat (read.last.toNat + 1)

theorem CacheEntry.onDisk_of_hasByteRange (entry : CacheEntry)
    {begin_ end_ : Int} (from_ : 0 ≤ begin_) (ordered : begin_ ≤ end_)
    (inside : end_ < entry.size)
    (present : entry.hasByteRange begin_ end_ = true) :
    entry.OnDisk begin_.toNat (end_.toNat + 1) := by
  rw [hasByteRange, if_neg (by omega), if_neg (by omega),
    hasRange_iff (by omega) (by omega)] at present
  intro offset start stop
  exact present _ (Nat.div_le_div_right start)
    (Nat.div_le_div_right (Nat.le_of_lt_succ stop))

variable {read : LocalRead}

/-- A later cache has the same entry with no block less, or another one. -/
theorem ReadOn.grows {admits : String → Nat → Prop} {before after : LocalCache}
    (on : ReadOn content before read) (grows : Grows admits before after) :
    ReadOn content after read := by
  refine ⟨lt_of_lt_of_le on.older grows.nextUid, on.genuine, on.position, ?_⟩
  intro later found same from_ upTo
  rcases grows.entries _ later found with
    ⟨earlier, earlierFound, grown⟩ | ⟨fresh, _⟩
  · obtain ⟨inside, onDisk⟩ := on.present earlier earlierFound
      (grown.uid.symm.trans same) from_ upTo
    exact ⟨grown.size ▸ inside, grown.onDisk onDisk⟩
  · have older := on.older
    omega

/-- The entry a read looked at has the bytes of its next chunk. -/
theorem ReadOn.within {cache : LocalCache} (on : ReadOn content cache read)
    {entry : CacheEntry} (found : cache.entry read.versionId = some entry)
    (same : entry.uid = read.uid) (from_ : 0 ≤ read.offset)
    (upTo : read.offset ≤ read.last) : read.Within entry := by
  obtain ⟨inside, onDisk⟩ := on.present entry found same from_ upTo
  have short : read.length ≤ (read.last - read.offset + 1).toNat :=
    Nat.min_le_right _ _
  refine ⟨by omega, onDisk.mono (Nat.le_refl _) (by omega)⟩

variable {disk : Disk}

/-- Blocks that are marked read as the bytes of the version. -/
theorem Stored.readAt_servable {versionId : String} {entry : CacheEntry}
    (stored : Stored content disk versionId entry) {bytes : List UInt8}
    (found : disk.data versionId = some bytes) {offset length : Nat}
    (inside : offset + length ≤ entry.size)
    (onDisk : entry.OnDisk offset (offset + length)) :
    readAt bytes offset length <+: (content versionId).drop offset := by
  obtain ⟨linked, here, _, agrees⟩ := stored.data
  rw [found] at here
  cases here
  apply readAt_fragment
  intro position from_ below
  have short : (readAt bytes offset length).length ≤ length := by
    simp [readAt]
  exact agrees position (by omega) (onDisk position from_ (by omega))

/-- What is read behind a fragment of a list continues it. -/
theorem prefix_drop_append {α : Type*} {whole front next : List α}
    {start : Nat} (begins : front <+: whole.drop start)
    (follows : next <+: whole.drop (start + front.length)) :
    front ++ next <+: whole.drop start := by
  obtain ⟨rest, joined⟩ := begins
  rw [← List.drop_drop, ← joined, List.drop_left] at follows
  rw [← joined]
  exact (List.prefix_append_right_inj front).mpr follows

variable {state : CacheState}

/-- A chunk of bytes that are on disk continues what was read. -/
theorem ReadOn.chunk (on : ReadOn content state.cache read)
    (aligned : Aligned content false state.cache disk)
    (active : read.active = true)
    (backed : ∀ entry, state.cache.entry read.versionId = some entry →
      entry.uid ≠ read.uid → read.Within entry) :
    ReadOn content state.cache (read.chunk disk) := by
  simp only [LocalRead.active, Bool.and_eq_true, Option.isNone_iff_eq_none,
    decide_eq_true_eq] at active
  obtain ⟨intact, upTo⟩ := active
  have failed : ∀ error, ReadOn content state.cache
      { read with error := some error } := by
    intro error
    refine ⟨on.older, on.genuine, ?_, on.present⟩
    intro impossible
    cases impossible
  unfold LocalRead.chunk
  cases opened : disk.pread read.versionId read.offset.toNat
      read.length with
  | none => exact failed _
  | some bytes =>
      dsimp only
      split
      · exact failed _
      · rename_i from_
        replace from_ : 0 ≤ read.offset := Int.not_lt.mp from_
        split
        · exact failed _
        · obtain ⟨file, linked, rfl⟩ := Option.map_eq_some_iff.mp opened
          obtain ⟨start, position⟩ := on.position intact from_
          cases found : state.cache.entry read.versionId with
          | none =>
              have absent := aligned.absent read.versionId found
              rw [Disk.data, absent] at linked
              cases linked
          | some entry =>
              have within : read.Within entry := by
                by_cases same : entry.uid = read.uid
                · exact on.within found same from_ upTo
                · exact backed entry found same
              have next := (aligned.mirrors.stored _ entry
                found).readAt_servable linked within.1 within.2
              refine ⟨on.older, ?_, ?_, ?_⟩
              · refine prefix_drop_append on.genuine ?_
                rw [← position]
                exact next
              · intro _ _
                refine ⟨start, ?_⟩
                simp only [List.length_append]
                omega
              · intro later laterFound same _ further
                have before : read.offset ≤ read.last := upTo
                obtain ⟨inside, onDisk⟩ := on.present later laterFound same
                  from_ before
                exact ⟨inside, onDisk.mono (by dsimp only; omega) le_rfl⟩

/-- The date of the last access is of no matter to the blocks. -/
theorem accessed_grows (cache : LocalCache) (versionId : String) (uid : Nat)
    (instant : Int) :
    Grows (fun _ _ => False) cache (cache.update versionId uid fun entry =>
      { entry with lastAccess := instant }) :=
  .relabelled cache versionId uid fun _ => ⟨rfl, rfl, rfl, rfl, rfl⟩

theorem DiskInvariant.accessed
    (invariant : DiskInvariant config content ⟨state, disk⟩)
    (versionId : String) (uid : Nat) (instant : Int) :
    DiskInvariant config content
      ⟨state.withCache (state.cache.update versionId uid fun entry =>
        { entry with lastAccess := instant }), disk⟩ := by
  have wanes : Wanes content false false state.cache _ :=
    Wanes.relabel state.cache versionId uid CacheEntry.pins
      CacheEntry.inflight (fun _ => instant) CacheEntry.pinnedAt
      fun _ => le_rfl
  obtain ⟨_, steps, passages⟩ := wanes
  have passage := passages disk invariant.aligned
  have idle : steps = [] := by
    simpa [LocalCache.update] using passage.issued
  subst idle
  refine ⟨?_, passage.aligned, ?_, invariant.named, invariant.opened, ?_⟩
  · exact invariant.budget.evolves (Evolves.relabel state.cache versionId uid
      CacheEntry.pins (fun _ => instant) CacheEntry.pinnedAt)
  · intro writer member
    exact (invariant.writers writer member).follows
      (invariant.budget.writers writer member).1 passage.follows
  · intro fill member
    exact (invariant.fills fill member).grows
      (accessed_grows state.cache versionId uid instant)
      (invariant.budget.fillsFresh fill member)

theorem beginRead_on (invariant : DiskInvariant config content ⟨state, disk⟩)
    {versionId : String} {begin_ end_ instant : Int} {cache : LocalCache}
    (begun : state.cache.beginRead versionId begin_ end_ instant =
      .ok (cache, read)) :
    DiskInvariant config content ⟨state.withCache cache, disk⟩ ∧
      Grows (fun _ _ => False) state.cache cache ∧
      ReadOn content cache read := by
  unfold LocalCache.beginRead at begun
  cases found : state.cache.entry versionId with
  | none =>
      rw [found] at begun
      cases begun
  | some entry =>
      rw [found] at begun
      dsimp only at begun
      generalize bounded : (if end_ < 0 ∨ (entry.size : Int) ≤ end_ then
        (entry.size : Int) - 1 else end_) = last at begun
      split at begun
      · rename_i onDisk
        cases begun
        have grows := accessed_grows state.cache versionId entry.uid instant
        have older : entry.uid < state.cache.nextUid :=
          invariant.aligned.fresh versionId entry found
        refine ⟨invariant.accessed versionId entry.uid instant, grows, ?_⟩
        apply ReadOn.grows _ grows
        refine ⟨older, List.nil_prefix, fun _ from_ => ⟨from_, rfl⟩, ?_⟩
        intro other otherFound _ from_ upTo
        have same : entry = other :=
          Option.some.inj (found.symm.trans otherFound)
        subst same
        have below : last < entry.size := by
          rw [← bounded]
          split <;> omega
        exact ⟨below, entry.onDisk_of_hasByteRange from_ upTo below onDisk⟩
      · cases begun

/-- What holds of the reads after every step. -/
structure ReadingInvariant (config : CacheConfig)
    (content : String → List UInt8) (now : ReadingState) : Prop where
  shared : DiskInvariant config content now.shared
  reads : ∀ read ∈ now.reads, ReadOn content now.shared.state.cache read

theorem ReadingInvariant.initial :
    ReadingInvariant config content ReadingState.initial := by
  refine ⟨.initial, ?_⟩
  intro read member
  cases member

/-- The steps of the other tasks keep what a read relies on. -/
theorem diskStep_readOn {now later : DiskState} {action : DiskAction}
    (invariant : DiskInvariant config content now)
    (taken : diskStep config now action = some later) {reads : List LocalRead}
    (member : read ∈ action.survivors reads)
    (on : ReadOn content now.state.cache read) :
    ReadOn content later.state.cache read := by
  rcases diskStep_state taken with same | ⟨operation, _, operated⟩ |
    ⟨_, _, _, rfl, _⟩
  · rw [same]
    exact on
  · exact on.grows (cacheStep_grows invariant.budget.keyed operated)
  · cases member

theorem ReadingInvariant.step {now later : ReadingState}
    {action : ReadingAction}
    (invariant : ReadingInvariant config content now)
    (honest : action.Honest content now) (backed : action.Backed now)
    (taken : readingStep config now action = some later) :
    ReadingInvariant config content later := by
  cases action with
  | other action =>
      obtain ⟨shared, moved, next⟩ := Option.bind_eq_some_iff.mp taken
      cases next
      refine ⟨invariant.shared.step honest moved, ?_⟩
      intro read member
      exact diskStep_readOn invariant.shared moved member
        (invariant.reads read (action.survivors_subset _ member))
  | begin_ versionId begin_ end_ instant =>
      simp only [readingStep] at taken
      cases begun : now.shared.state.cache.beginRead versionId begin_ end_
          instant with
      | error error =>
          rw [begun] at taken
          cases taken
          exact invariant
      | ok result =>
          obtain ⟨cache, read⟩ := result
          rw [begun] at taken
          cases taken
          obtain ⟨shared, grows, on⟩ := beginRead_on invariant.shared begun
          refine ⟨shared, ?_⟩
          intro other member
          rcases List.mem_append.mp member with older | new
          · exact (invariant.reads other older).grows grows
          · rw [List.mem_singleton.mp new]
            exact on
  | chunk position =>
      obtain ⟨read, here, next⟩ := Option.bind_eq_some_iff.mp taken
      split at next
      · rename_i active
        cases next
        refine ⟨invariant.shared, ?_⟩
        intro other member
        rcases List.mem_or_eq_of_mem_set member with older | rfl
        · exact invariant.reads other older
        · exact (invariant.reads read (List.mem_of_getElem? here)).chunk
            invariant.shared.aligned active (backed read here)
      · cases next

/-- A read yields nothing but bytes of the version, as long as it reads no
chunk from an entry that has taken the place of the one it looked at and
lacks a block of the chunk. -/
theorem local_reads_genuine (config : CacheConfig)
    (content : String → List UInt8) {now : ReadingState}
    (reached : ReachableWithin (readingStep config)
      (fun state action =>
        action.Honest content state ∧ action.Backed state)
      ReadingState.initial now) :
    ∀ read ∈ now.reads,
      read.output <+: (content read.versionId).drop read.begin_.toNat := by
  have invariant : ReadingInvariant config content now :=
    reached.invariant (fun _ _ _ invariant allowed taken =>
      invariant.step allowed.1 allowed.2 taken) .initial
  exact fun read member => (invariant.reads read member).genuine

/-- One byte is staged. -/
def stagedByte : List ReadingAction :=
  [.other (.perform (.openStaging "fs" "v" 1 0 (fun _ => none) none)),
    .other (.openHandle 0), .other (.perform (.write 0 [7])),
    .other (.perform (.finish 0))]

/-- The byte is read while the entry it was staged in is there. -/
theorem local_reads_genuine_staged :
    ∃ now, ReachableWithin
        (readingStep ⟨true, 1, 4, 0, 64, true, 0, 0, 100, by decide⟩)
        (fun state action => action.Honest (fun _ => [7]) state ∧
          action.Backed state) ReadingState.initial now ∧
      now.reads.map LocalRead.output = [[7]] ∧
      ∀ read ∈ now.reads, read.output <+: [7] := by
  have allowed : Guarded
      (readingStep ⟨true, 1, 4, 0, 64, true, 0, 0, 100, by decide⟩)
      (fun state action => action.Honest (fun _ => [7]) state ∧
        action.Backed state) ReadingState.initial
      (stagedByte ++ [.begin_ "v" 0 0 1, .chunk 0]) := by
    iterate 2
      refine ⟨⟨trivial, trivial⟩, ?_⟩
      rintro _ ⟨⟩
    refine ⟨⟨?_, trivial⟩, ?_⟩
    · rintro writer ⟨⟩ _
      exact List.prefix_refl _
    · rintro _ ⟨⟩
      iterate 2
        refine ⟨⟨trivial, trivial⟩, ?_⟩
        rintro _ ⟨⟩
      refine ⟨⟨trivial, ?_⟩, fun _ _ => trivial⟩
      rintro read ⟨⟩ entry ⟨⟩ moved
      exact absurd rfl moved
  have reached : ReachableWithin
      (readingStep ⟨true, 1, 4, 0, 64, true, 0, 0, 100, by decide⟩)
      (fun state action => action.Honest (fun _ => [7]) state ∧
        action.Backed state) ReadingState.initial _ :=
    ⟨_, allowed, rfl⟩
  refine ⟨_, reached, by decide, ?_⟩
  intro read member
  have genuine := local_reads_genuine _ _ reached read member
  have start : read.begin_.toNat = 0 := by
    rw [List.mem_singleton.mp member]
    rfl
  rwa [start] at genuine

/-- The version is removed and reserved again while its only chunk is on the
way: the read yields the hole in the new file. -/
theorem local_read_yields_hole :
    ¬∀ (config : CacheConfig) (content : String → List UInt8)
      (now : ReadingState),
      ReachableWithin (readingStep config)
        (fun state action => action.Honest content state)
        ReadingState.initial now →
      ∀ read ∈ now.reads,
        read.output <+: (content read.versionId).drop
          read.begin_.toNat := by
  intro always
  have honest : Guarded
      (readingStep ⟨true, 1, 4, 0, 64, true, 0, 0, 100, by decide⟩)
      (fun state action => action.Honest (fun _ => [7]) state)
      ReadingState.initial
      (stagedByte ++ [.begin_ "v" 0 0 1, .other (.perform (.remove "v")),
        .other (.perform (.reserve "fs" "v" 1 2 (fun _ => none) none)),
        .chunk 0]) := by
    iterate 2
      refine ⟨trivial, ?_⟩
      rintro _ ⟨⟩
    refine ⟨?_, ?_⟩
    · rintro writer ⟨⟩ _
      exact List.prefix_refl _
    · rintro _ ⟨⟩
      iterate 4
        refine ⟨trivial, ?_⟩
        rintro _ ⟨⟩
      exact ⟨trivial, fun _ _ => trivial⟩
  have reached : ReachableWithin
      (readingStep ⟨true, 1, 4, 0, 64, true, 0, 0, 100, by decide⟩)
      (fun state action => action.Honest (fun _ => [7]) state)
      ReadingState.initial _ :=
    ⟨_, honest, rfl⟩
  have yielded := always _ _ _ reached _ (List.mem_singleton_self _)
  revert yielded
  decide

end Tgdcfs
