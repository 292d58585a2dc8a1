import Tgdcfs.Cache.Growth
import Tgdcfs.Cache.Marks

/-!
# The directory over whole runs

Every operation of the tasks that share a cache carries an aligned directory
to an aligned one, whatever writers and fills are suspended meanwhile.
`DiskInvariant` adds to the budget invariant what the suspended tasks know of
the directory.
-/

namespace Tgdcfs

open Lib

variable {content : String → List UInt8} {config : CacheConfig}

/-- What a suspended fill carries: bytes of the version, for blocks that they
cover. -/
structure FillOn (content : String → List UInt8) (cache : LocalCache)
    (fill : Fill) : Prop where
  honest : fill.data <+: (content fill.versionId).drop fill.begin_
  covers : ∀ entry, cache.entry fill.versionId = some entry →
    entry.uid = fill.uid → ∀ offset < entry.size,
      offset / entry.blockSize ∈ fill.blocks →
        fill.begin_ ≤ offset ∧ offset < fill.begin_ + fill.data.length

structure DiskInvariant (config : CacheConfig)
    (content : String → List UInt8) (now : DiskState) : Prop where
  budget : CacheInvariant config now.state
  aligned : Aligned content false now.state.cache now.disk
  writers : ∀ writer ∈ now.state.writers,
    WriterOn content now.state.cache now.disk writer
  named : ∀ writer ∈ now.state.writers, ∀ other ∈ now.state.writers,
    writer.uid = other.uid → writer.versionId = other.versionId
  opened : ∀ uid inode, now.disk.handles uid = some inode →
    uid < now.state.cache.nextUid
  fills : ∀ fill ∈ now.state.fills, FillOn content now.state.cache fill

theorem DiskInvariant.initial :
    DiskInvariant config content DiskState.initial := by
  have absent : ∀ versionId,
      CacheState.initial.cache.entry versionId = none := fun _ => rfl
  refine ⟨.initial config, ⟨⟨?_, ?_, ?_, ?_⟩, ?_, ?_, ?_, ?_⟩, ?_, ?_, ?_, ?_⟩
  · intro versionId entry found
    cases found
  · intro record member
    cases member
  · intro versionId entry found
    cases found
  · exact List.nodup_nil
  · intro versionId entry found
    cases found
  · intro versionId entry found
    cases found
  · exact fun _ _ => rfl
  · intro _ record member
    cases member
  · intro writer member
    cases member
  · intro writer member
    cases member
  · intro uid inode found
    cases found
  · intro fill member
    cases member

/-- The blocks a fill marks start at its first byte and end at its last. -/
theorem coveredBlocks_covers {entry : CacheEntry} {begin_ length : Nat}
    (aligned : begin_ % entry.blockSize = 0) :
    ∀ offset < entry.size,
      offset / entry.blockSize ∈
        LocalCache.coveredBlocks entry begin_ length →
        begin_ ≤ offset ∧ offset < begin_ + length := by
  intro offset inside member
  rw [LocalCache.coveredBlocks, List.mem_range'_1] at member
  obtain ⟨from_, below⟩ := member
  have start : begin_ / entry.blockSize * entry.blockSize = begin_ :=
    Nat.div_mul_cancel (Nat.dvd_of_mod_eq_zero aligned)
  have reaches := Nat.mul_le_mul_right entry.blockSize from_
  have floor := Nat.div_mul_le_self offset entry.blockSize
  refine ⟨by omega, ?_⟩
  split at below
  · omega
  · by_contra behind
    have later : (begin_ + length) / entry.blockSize ≤
        offset / entry.blockSize :=
      Nat.div_le_div_right (Nat.le_of_not_lt behind)
    omega

variable {cache : LocalCache}

theorem claimBlocks_fill {versionId : String} {begin_ : Nat}
    {data : List UInt8} {free : FreeSpace} {fill : Fill}
    (claimed : (cache.claimBlocks config versionId begin_ data free).2 =
      some fill) :
    ∃ entry, cache.entry versionId = some entry ∧
      fill.uid = entry.uid ∧ fill.versionId = versionId ∧
      fill.begin_ = begin_ ∧ fill.data = data ∧
      begin_ % entry.blockSize = 0 ∧
      fill.blocks = LocalCache.coveredBlocks entry begin_ data.length := by
  revert claimed
  apply LocalCache.claimBlocks_cases (P := fun _ claim =>
    claim = some fill → ∃ entry, cache.entry versionId = some entry ∧
      fill.uid = entry.uid ∧ fill.versionId = versionId ∧
      fill.begin_ = begin_ ∧ fill.data = data ∧
      begin_ % entry.blockSize = 0 ∧
      fill.blocks = LocalCache.coveredBlocks entry begin_ data.length)
  · nofun
  · nofun
  · rintro entry _ _ found _ inside rfl _ _ ⟨⟩
    exact ⟨entry, found, rfl, rfl, rfl, rfl, inside, rfl⟩

theorem FillOn.grows {admits : String → Nat → Prop}
    {before after : LocalCache} {fill : Fill}
    (on : FillOn content before fill) (grows : Grows admits before after)
    (older : fill.uid < before.nextUid) : FillOn content after fill := by
  refine ⟨on.honest, ?_⟩
  intro later found same offset inside member
  rcases grows.entries _ later found with
    ⟨earlier, earlierFound, grown⟩ | ⟨fresh, _⟩
  · exact on.covers earlier earlierFound (grown.uid.symm.trans same) offset
      (grown.size ▸ inside) (grown.blockSize ▸ member)
  · omega

namespace DiskInvariant

theorem slack {now : DiskState} (invariant : DiskInvariant config content now)
    {position : Nat} {fill : Fill}
    (here : now.state.fills[position]? = some fill) {entry : CacheEntry}
    (found : now.state.cache.entry fill.versionId = some entry)
    (same : entry.uid = fill.uid) :
    entry.missingBytes fill.blocks ≤ entry.inflight := by
  have member := List.mem_of_getElem? here
  have charged := (invariant.budget.covered fill member entry found same).2
  have total := invariant.budget.claims fill.versionId entry found
  have part := CacheInvariant.claimed_eraseIdx here fill.versionId entry.uid
  rw [if_pos ⟨rfl, same.symm⟩] at part
  omega

theorem carries {now : DiskState}
    (invariant : DiskInvariant config content now) {action : CacheAction}
    {next : CacheState}
    (taken : cacheStep config now.state action = some next)
    (ready : DiskState.ready now.disk now.state action = true)
    (honest : action.Honest content now.state) :
    Carries content now.state.cache now.disk next.cache := by
  have aligned := invariant.aligned
  cases cacheMove taken with
  | openStaging fs versionId size instant free refused =>
      exact .openStaging config aligned fs versionId size instant free refused
  | @write _ writer data here =>
      have member := List.mem_of_getElem? here
      refine .write aligned (invariant.budget.writers writer member)
        (invariant.writers writer member) ?_ (honest writer here)
      simpa [DiskState.ready, here, or_assoc] using ready
  | @writeFailed _ writer data written here =>
      have member := List.mem_of_getElem? here
      show Carries content now.state.cache now.disk
        (writer.writeFailed now.state.cache data written).2
      unfold StagingWriter.writeFailed
      split
      · exact (Wanes.refl _).carries aligned
      · rename_i active
        simp only [Bool.or_eq_true, not_or, Bool.not_eq_true] at active
        have landed := (List.take_prefix written data).trans
          (honest writer here active.1)
        have opening := Passage.written aligned
          ((invariant.writers writer member).faithful landed)
        exact ⟨_, opening.issued, opening.aligned, opening.follows,
          opening.passes.mono fun middle fading =>
            .of_fading fading.1 fading.2 aligned.fresh
              fun _ _ found _ => found⟩
  | @finish _ writer here finishing => exact .finish aligned writer
  | abort here | close here | cancelBlocks here =>
      exact (Wanes.refl _).carries aligned
  | @endAbort _ writer here => exact (Wanes.endAbort _ writer).carries aligned
  | reserve fs versionId size instant free refused =>
      exact .reserve config aligned fs versionId size instant free refused
  | claimBlocks versionId begin_ data free =>
      exact (Wanes.claimBlocks config _ versionId begin_ data
        free).carries aligned
  | @commitBlocks _ fill instant here =>
      have on := invariant.fills fill (List.mem_of_getElem? here)
      exact .commitBlocks aligned fill instant on.honest on.covers
        fun entry found same _ => invariant.slack here found same
  | @failBlocks _ fill written here =>
      exact (Wanes.failBlocks _ fill written
        (invariant.fills fill (List.mem_of_getElem? here)).honest).carries
          aligned
  | pin versionId instant => exact .pin aligned versionId instant
  | unpin versionId => exact (Wanes.unpin _ versionId).carries aligned
  | release versionId =>
      exact (Wanes.release config _ versionId).carries aligned
  | remove versionId => exact (Wanes.remove _ versionId).carries aligned
  | removeMany versionIds =>
      exact (Wanes.removeMany _ versionIds).carries aligned
  | evictUnpinned => exact (Wanes.evictUnpinned _).carries aligned
  | sweep listing queueEmpty instant free =>
      exact (Wanes.sweep config _ listing queueEmpty instant
        free).carries aligned

/-- The steps of an operation are those it appended to the log. -/
theorem issuedSince_eq {before after : LocalCache} {steps : List DiskStep}
    (issued : after.issued = before.issued ++ steps) :
    before.issuedSince after = steps := by
  rw [LocalCache.issuedSince, issued, List.drop_left]

end DiskInvariant

theorem Mirrors.of_files {disk later : Disk}
    (mirrors : Mirrors content cache disk) (paths : later.paths = disk.paths)
    (maps : later.maps = disk.maps) (files : later.files = disk.files)
    (index : later.index = disk.index) : Mirrors content cache later := by
  have data : ∀ versionId, later.data versionId = disk.data versionId := by
    intro versionId
    rw [Disk.data, paths, files, Disk.data]
  refine ⟨?_, ?_, ?_, index ▸ mirrors.distinct⟩
  · intro versionId entry found
    obtain ⟨map, bytes, linked, rest⟩ := mirrors.stored versionId entry found
    exact ⟨maps ▸ map, bytes, (data versionId).trans linked, rest⟩
  · intro record member
    rw [data]
    exact mirrors.recorded record (index ▸ member)
  · rw [index]
    exact mirrors.listed

theorem Aligned.of_files {dirty : Bool} {disk later : Disk}
    (aligned : Aligned content dirty cache disk)
    (paths : later.paths = disk.paths) (maps : later.maps = disk.maps)
    (files : later.files = disk.files) (index : later.index = disk.index) :
    Aligned content dirty cache later :=
  ⟨aligned.mirrors.of_files paths maps files index, aligned.keyed,
    aligned.fresh, paths ▸ aligned.absent, index ▸ aligned.current⟩

theorem WriterOn.of_files {disk later : Disk} {writer : StagingWriter}
    (on : WriterOn content cache disk writer)
    (paths : later.paths = disk.paths) (files : later.files = disk.files)
    (handles : ∀ inode, later.handles writer.uid = some inode →
      disk.handles writer.uid = some inode) :
    WriterOn content cache later writer := by
  refine ⟨?_, ?_, ?_⟩
  · intro versionId inode opened linked
    exact on.own versionId inode (handles inode opened) (paths ▸ linked)
  · intro entry inode found same opened
    rw [paths]
    exact on.current entry inode found same (handles inode opened)
  · intro intact entry bytes found same linked
    refine on.written intact entry bytes found same ?_
    rwa [Disk.data, paths, files] at linked

namespace DiskInvariant

variable {state : CacheState}

theorem closeHandle {disk : Disk}
    (invariant : DiskInvariant config content ⟨state, disk⟩) (uid : Nat) :
    DiskInvariant config content ⟨state, disk.closeHandle uid⟩ := by
  have fewer : ∀ other inode,
      (disk.closeHandle uid).handles other = some inode →
        disk.handles other = some inode := by
    intro other inode found
    simp only [Disk.closeHandle] at found
    split at found
    · cases found
    · exact found
  refine ⟨invariant.budget, invariant.aligned.of_files rfl rfl rfl rfl, ?_,
    invariant.named, ?_, invariant.fills⟩
  · intro writer member
    exact (invariant.writers writer member).of_files rfl rfl
      (fewer writer.uid)
  · intro other inode found
    exact invariant.opened other inode (fewer other inode found)

variable {writer : StagingWriter}

theorem openHandle {disk : Disk}
    (invariant : DiskInvariant config content ⟨state, disk⟩)
    (member : writer ∈ state.writers) :
    DiskInvariant config content
      ⟨state, disk.openHandle writer.uid writer.versionId⟩ := by
  have handles : ∀ other, (disk.openHandle writer.uid
      writer.versionId).handles other = if other = writer.uid then
        disk.paths.get? writer.versionId else disk.handles other :=
    fun _ => rfl
  refine ⟨invariant.budget, invariant.aligned.of_files rfl rfl rfl rfl, ?_,
    invariant.named, ?_, invariant.fills⟩
  · intro other otherMember
    have on := invariant.writers other otherMember
    by_cases same : other.uid = writer.uid
    · have version := invariant.named other otherMember writer member same
      have opened : (disk.openHandle writer.uid writer.versionId).handles
          other.uid = disk.paths.get? other.versionId := by
        rw [handles, if_pos same, version]
      refine ⟨?_, ?_, on.written⟩
      · intro versionId inode handle linked
        rw [opened] at handle
        exact disk.paths_inj versionId other.versionId inode linked handle
      · intro entry inode _ _ handle
        rw [opened] at handle
        exact handle
    · refine on.of_files rfl rfl ?_
      intro inode handle
      rwa [handles, if_neg same] at handle
  · intro other inode found
    rw [handles] at found
    split at found
    · rename_i same
      rw [same]
      exact (invariant.budget.writers writer member).1
    · exact invariant.opened other inode found

/-- Bytes of a version that a worker thread has put where they belong. -/
theorem landed {disk : Disk}
    (invariant : DiskInvariant config content ⟨state, disk⟩)
    {target : DataTarget} {offset : Nat} {bytes : List UInt8}
    (faithful : disk.Faithful content target offset bytes) :
    DiskInvariant config content
      ⟨state, disk.writeData target offset bytes⟩ := by
  have passage := Passage.written invariant.aligned faithful
  refine ⟨invariant.budget, passage.aligned.congr _ rfl rfl, ?_,
    invariant.named, ?_, invariant.fills⟩
  · intro writer member
    have later := (invariant.writers writer member).follows
      (invariant.budget.writers writer member).1 passage.follows
    exact ⟨later.own, later.current, later.written⟩
  · intro uid inode found
    exact invariant.opened uid inode
      ((congrFun (disk.writeData_handles ..) uid).symm.trans found)

/-- What an operation leaves behind, the tasks that have moved apart. -/
structure Advanced (config : CacheConfig) (content : String → List UInt8)
    (now : CacheState) (next : CacheState) (disk : Disk) : Prop where
  budget : CacheInvariant config next
  aligned : Aligned content false next.cache disk
  writers : ∀ writer ∈ now.writers,
    WriterOn content next.cache disk writer
  named : ∀ writer ∈ now.writers, ∀ other ∈ now.writers,
    writer.uid = other.uid → writer.versionId = other.versionId
  opened : ∀ uid inode, disk.handles uid = some inode →
    uid < now.cache.nextUid
  supply : now.cache.nextUid ≤ next.cache.nextUid
  supplied : ∀ writer ∈ now.writers, writer.uid < now.cache.nextUid
  fills : ∀ fill ∈ now.fills, FillOn content next.cache fill

namespace Advanced

variable {now next : CacheState} {disk : Disk}

/-- The writers are the same ones. -/
theorem fill (advanced : Advanced config content now next disk)
    (writers : next.writers = now.writers)
    (on : ∀ fill ∈ next.fills, FillOn content next.cache fill) :
    DiskInvariant config content ⟨next, disk⟩ := by
  refine ⟨advanced.budget, advanced.aligned, ?_, ?_, ?_, on⟩
  · intro writer member
    exact advanced.writers writer (writers ▸ member)
  · intro writer member other otherMember
    exact advanced.named writer (writers ▸ member) other
      (writers ▸ otherMember)
  · intro uid inode found
    exact lt_of_lt_of_le (advanced.opened uid inode found) advanced.supply

theorem same (advanced : Advanced config content now next disk)
    (writers : next.writers = now.writers)
    (fills : next.fills ⊆ now.fills) :
    DiskInvariant config content ⟨next, disk⟩ :=
  advanced.fill writers fun fill member => advanced.fills fill (fills member)

theorem set (advanced : Advanced config content now next disk)
    {position : Nat} {writer moved : StagingWriter}
    (here : now.writers[position]? = some writer)
    (writers : next.writers = now.writers.set position moved)
    (fills : next.fills = now.fills)
    (uid : moved.uid = writer.uid)
    (versionId : moved.versionId = writer.versionId)
    (on : WriterOn content next.cache disk moved) :
    DiskInvariant config content ⟨next, disk⟩ := by
  have member := List.mem_of_getElem? here
  have former : ∀ other ∈ next.writers, ∃ before ∈ now.writers,
      other.uid = before.uid ∧ other.versionId = before.versionId := by
    intro other otherMember
    rw [writers] at otherMember
    rcases List.mem_or_eq_of_mem_set otherMember with older | rfl
    · exact ⟨other, older, rfl, rfl⟩
    · exact ⟨writer, member, uid, versionId⟩
  refine ⟨advanced.budget, advanced.aligned, ?_, ?_, ?_, ?_⟩
  · intro other otherMember
    rw [show (DiskState.mk next disk).state.writers = next.writers from rfl,
      writers] at otherMember
    rcases List.mem_or_eq_of_mem_set otherMember with older | rfl
    · exact advanced.writers other older
    · exact on
  · intro first firstMember second secondMember same
    obtain ⟨before, beforeMember, uid_, version⟩ := former first firstMember
    obtain ⟨before', beforeMember', uid', version'⟩ :=
      former second secondMember
    rw [version, version']
    exact advanced.named before beforeMember before' beforeMember'
      (uid_.symm.trans (same.trans uid'))
  · intro uid_ inode found
    exact lt_of_lt_of_le (advanced.opened uid_ inode found) advanced.supply
  · intro fill fillMember
    exact advanced.fills fill (fills ▸ fillMember)

theorem setIdle (advanced : Advanced config content now next disk)
    {position : Nat} {writer moved : StagingWriter}
    (here : now.writers[position]? = some writer)
    (writers : next.writers = now.writers.set position moved)
    (fills : next.fills = now.fills)
    (uid : moved.uid = writer.uid)
    (versionId : moved.versionId = writer.versionId)
    (written : moved.failed = false →
      writer.failed = false ∧ moved.offset = writer.offset) :
    DiskInvariant config content ⟨next, disk⟩ := by
  refine advanced.set here writers fills uid versionId ?_
  have on := advanced.writers writer (List.mem_of_getElem? here)
  refine ⟨?_, ?_, ?_⟩
  · intro other inode opened linked
    rw [versionId]
    exact on.own other inode (uid ▸ opened) linked
  · intro entry inode found same opened
    rw [versionId] at found ⊢
    exact on.current entry inode found (same.trans uid) (uid ▸ opened)
  · intro intact entry bytes found same linked offset inside
    obtain ⟨intact', offset_⟩ := written intact
    rw [versionId] at found linked ⊢
    exact on.written intact' entry bytes found (same.trans uid) linked offset
      (offset_ ▸ inside)

/-- A writer has been added for an entry that was just filed. -/
theorem append (advanced : Advanced config content now next disk)
    {opened : Option StagingWriter}
    (writers : next.writers = now.writers ++ opened.toList)
    (fills : next.fills = now.fills)
    (fresh : ∀ writer, opened = some writer →
      writer.uid = now.cache.nextUid ∧ writer.offset = 0 ∧
        writer.uid < next.cache.nextUid) :
    DiskInvariant config content ⟨next, disk⟩ := by
  cases opened with
  | none =>
      exact advanced.same (by simpa using writers) (fills ▸ List.Subset.refl _)
  | some added =>
      obtain ⟨uid, start, below⟩ := fresh added rfl
      have unopened : disk.handles added.uid = none := by
        rw [Option.eq_none_iff_forall_ne_some]
        intro inode found
        have older := advanced.opened added.uid inode found
        omega
      have cases_ : ∀ writer ∈ next.writers,
          writer ∈ now.writers ∨ writer = added := by
        intro writer member
        simpa [writers] using member
      refine ⟨advanced.budget, advanced.aligned, ?_, ?_, ?_, ?_⟩
      · intro writer member
        rcases cases_ writer member with older | rfl
        · exact advanced.writers writer older
        · refine ⟨?_, ?_, ?_⟩
          · intro versionId inode handle
            simp [unopened] at handle
          · intro entry inode _ _ handle
            simp [unopened] at handle
          · intro _ entry bytes _ _ _ offset inside
            omega
      · intro first firstMember second secondMember same
        rcases cases_ first firstMember with older | rfl
        · rcases cases_ second secondMember with older' | rfl
          · exact advanced.named first older second older' same
          · have supplied := advanced.supplied first older
            omega
        · rcases cases_ second secondMember with older' | rfl
          · have supplied := advanced.supplied second older'
            omega
          · rfl
      · intro uid_ inode found
        exact lt_of_lt_of_le (advanced.opened uid_ inode found)
          advanced.supply
      · intro fill member
        exact advanced.fills fill (fills ▸ member)

theorem claim (advanced : Advanced config content now next disk)
    {claimed : Option Fill} (writers : next.writers = now.writers)
    (fills : next.fills = now.fills ++ claimed.toList)
    (on : ∀ fill, claimed = some fill → FillOn content next.cache fill) :
    DiskInvariant config content ⟨next, disk⟩ := by
  apply advanced.fill writers
  intro fill member
  rw [fills] at member
  rcases List.mem_append.mp member with older | new
  · exact advanced.fills fill older
  · exact on fill (by simpa using new)

end Advanced

variable {steps : List DiskStep}

theorem advanced {now : DiskState}
    (invariant : DiskInvariant config content now) {action : CacheAction}
    {next : CacheState} (taken : cacheStep config now.state action = some next)
    (passage : Passage content Between false now.state.cache now.disk steps
      next.cache) :
    Advanced config content now.state next (now.disk.replay steps) := by
  have grows := cacheStep_grows invariant.budget.keyed taken
  refine ⟨invariant.budget.step taken, passage.aligned, ?_, invariant.named,
    ?_, passage.follows.nextUid, ?_, ?_⟩
  · intro writer member
    exact (invariant.writers writer member).follows
      (invariant.budget.writers writer member).1 passage.follows
  · intro uid inode found
    rw [passage.follows.extended.handles] at found
    exact invariant.opened uid inode found
  · intro writer member
    exact (invariant.budget.writers writer member).1
  · intro fill member
    exact (invariant.fills fill member).grows grows
      (invariant.budget.fillsFresh fill member)

theorem openStaging_writer {cache : LocalCache} {fs versionId : String}
    {size instant : Int} {free : FreeSpace} {refused : Option FileKind}
    (opened : (cache.openStaging config fs versionId size instant free
      refused).2 = some writer) :
    writer.uid = cache.nextUid ∧ writer.offset = 0 ∧
      writer.uid < (cache.openStaging config fs versionId size instant free
        refused).1.nextUid := by
  have cleared : (cache.removeExisting versionId).nextUid = cache.nextUid :=
    (Evolves.removeExisting cache versionId).nextUid
  unfold LocalCache.openStaging at opened ⊢
  split at opened
  · cases opened
  · rename_i accepted
    rw [if_neg accepted]
    dsimp only at opened ⊢
    split at opened
    · cases opened
    · rename_i fitting
      rw [if_neg fitting]
      dsimp only at opened ⊢
      obtain ⟨entry, admitted, rfl⟩ := Option.map_eq_some_iff.mp opened
      have roomy : ((cache.removeExisting versionId).makeRoom config
          size.toNat true none free).1.nextUid = cache.nextUid :=
        (LocalCache.makeRoom_fades config _ size.toNat true none
          free).nextUid.trans cleared
      unfold LocalCache.admitEntry at admitted ⊢
      dsimp only at admitted ⊢
      split at admitted
      · cases admitted
      · split at admitted
        · rename_i created
          cases admitted
          rw [if_pos created]
          have filed := (CacheInvariant.createFiles_evolves
            ((cache.removeExisting versionId).makeRoom config size.toNat true
              none free).1 (LocalCache.newEntry config
                ((cache.removeExisting versionId).makeRoom config size.toNat
                  true none free).1 fs versionId size.toNat instant true)
            refused).nextUid
          refine ⟨roomy, rfl, ?_⟩
          exact Nat.lt_succ_of_le filed.ge
        · cases admitted

theorem write_on {now : DiskState}
    (invariant : DiskInvariant config content now) {position : Nat}
    (here : now.state.writers[position]? = some writer) {data : List UInt8}
    (ready : DiskState.ready now.disk now.state (.write position data) =
      true)
    (honest : writer.failed = false →
      data <+: (content writer.versionId).drop writer.offset)
    (passage : Passage content Between false now.state.cache now.disk steps
      (writer.write now.state.cache data).2) :
    WriterOn content (writer.write now.state.cache data).2
      (now.disk.replay steps) (writer.write now.state.cache data).1 := by
  have member := List.mem_of_getElem? here
  have on := invariant.writers writer member
  have older := (invariant.budget.writers writer member).1
  have later := on.follows older passage.follows
  by_cases idle : (writer.failed || data.isEmpty) = true
  · have same : writer.write now.state.cache data =
        (writer, now.state.cache) := by
      rw [StagingWriter.write, if_pos idle]
    rw [same] at later ⊢
    exact later
  · have active := idle
    simp only [Bool.or_eq_true, not_or, Bool.not_eq_true] at active
    have opened : (now.disk.handles writer.uid).isSome = true := by
      simpa [DiskState.ready, here, active.1, active.2] using ready
    have written := honest active.1
    -- The first step moves the bytes, the others only mark them.
    obtain ⟨changed, marks⟩ := LocalCache.markPresent_issued
      (now.state.cache.issue
        [.writeData (.handle writer.uid) writer.offset data])
      writer.versionId writer.uid (List.range
        (if writer.size ≤ writer.offset + data.length then writer.blocks
          else (writer.offset + data.length) / writer.blockSize))
    have issued : steps = .writeData (.handle writer.uid) writer.offset data
        :: changed.map (DiskStep.writeMap writer.versionId) := by
      have all := passage.issued
      rw [StagingWriter.write, if_neg idle] at all
      have joined := marks.symm.trans all
      rw [LocalCache.issue, List.append_assoc] at joined
      exact (List.append_cancel_left joined).symm
    rw [StagingWriter.write, if_neg idle] at later ⊢
    refine ⟨later.own, later.current, ?_⟩
    intro _ entry bytes found same linked offset inside
    have kept : ∃ earlier,
        now.state.cache.entry writer.versionId = some earlier ∧
          earlier.uid = writer.uid := by
      have follows := passage.follows
      rw [StagingWriter.write, if_neg idle] at follows
      obtain ⟨⟨earlier, earlierFound, identity⟩, _⟩ :=
        follows.kept _ entry found (same ▸ older)
      exact ⟨earlier, earlierFound, identity.trans same⟩
    obtain ⟨earlier, earlierFound, identity⟩ := kept
    refine on.landed active.1 opened earlierFound identity written bytes ?_
      offset inside
    rw [issued] at linked
    exact ((now.disk.writeData (.handle writer.uid) writer.offset
      data).data_replay_writeMap writer.versionId changed
        writer.versionId).symm.trans linked

/-- A closed writer writes what it wrote, or has failed. -/
theorem close_spec (writer : StagingWriter) :
    writer.close.uid = writer.uid ∧
      writer.close.versionId = writer.versionId ∧
      (writer.close.failed = false →
        writer.failed = false ∧ writer.close.offset = writer.offset) := by
  unfold StagingWriter.close
  split
  · exact ⟨rfl, rfl, fun intact => ⟨intact, rfl⟩⟩
  · split
    · split <;> exact ⟨rfl, rfl, fun intact => ⟨intact, rfl⟩⟩
    · exact ⟨rfl, rfl, fun intact => nomatch intact⟩

/-- An operation keeps the invariant; the handles are closed separately. -/
theorem operate {now : DiskState}
    (invariant : DiskInvariant config content now) {action : CacheAction}
    {next : CacheState} (taken : cacheStep config now.state action = some next)
    (ready : DiskState.ready now.disk now.state action = true)
    (honest : action.Honest content now.state)
    (passage : Passage content Between false now.state.cache now.disk steps
      next.cache) :
    DiskInvariant config content ⟨next, now.disk.replay steps⟩ := by
  have advanced := invariant.advanced taken passage
  have grows := cacheStep_grows invariant.budget.keyed taken
  cases cacheMove taken with
  | openStaging fs versionId size instant free refused =>
      exact advanced.append rfl rfl fun writer opened =>
        openStaging_writer opened
  | @write _ writer data here =>
      refine advanced.set here rfl rfl ?_ ?_ ?_
      · unfold StagingWriter.write
        split <;> rfl
      · unfold StagingWriter.write
        split <;> rfl
      · exact invariant.write_on here ready (honest writer here) passage
  | writeFailed data written here =>
      refine advanced.setIdle here rfl rfl ?_ ?_ ?_
      · unfold StagingWriter.writeFailed
        split <;> rfl
      · unfold StagingWriter.writeFailed
        split <;> rfl
      · unfold StagingWriter.writeFailed
        split
        · exact fun intact => ⟨intact, rfl⟩
        · exact fun intact => nomatch intact
  | finish here finishing =>
      exact advanced.setIdle here rfl rfl rfl rfl fun intact => ⟨intact, rfl⟩
  | abort here =>
      exact advanced.setIdle here rfl rfl rfl rfl fun intact => nomatch intact
  | endAbort here =>
      exact advanced.setIdle here rfl rfl rfl rfl fun intact => ⟨intact, rfl⟩
  | @close _ writer here =>
      obtain ⟨uid, version, kept⟩ := close_spec writer
      exact advanced.setIdle here rfl rfl uid version kept
  | claimBlocks versionId begin_ data free =>
      refine advanced.claim rfl rfl ?_
      intro fill claimed
      obtain ⟨entry, found, uid, version, start, bytes, aligned, blocks⟩ :=
        claimBlocks_fill claimed
      have before : FillOn content now.state.cache fill := by
        refine ⟨by rw [version, start, bytes]; exact honest, ?_⟩
        rw [version, start, bytes, blocks]
        intro other otherFound _
        rw [found] at otherFound
        cases otherFound
        exact coveredBlocks_covers aligned
      refine before.grows grows ?_
      rw [uid]
      exact invariant.budget.fresh versionId entry found
  | commitBlocks instant here | failBlocks written here | cancelBlocks here =>
      exact advanced.same rfl (List.eraseIdx_sublist _ _).subset
  | reserve | pin | unpin | release | remove | removeMany | evictUnpinned
  | sweep => exact advanced.same rfl (List.Subset.refl _)

end DiskInvariant

end Tgdcfs
