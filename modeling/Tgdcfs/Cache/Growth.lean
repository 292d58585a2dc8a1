import Tgdcfs.Cache.Budget
import Tgdcfs.Cache.Presence

/-!
# What stays on disk

As long as the entry object of a version is in the cache, its blocks stay on
disk: every step of the tasks that share the cache keeps them, drops the
entry, or files another one under a new identity.
-/

namespace Tgdcfs

open Lib

/-- `after` is the same entry with no block less on disk. -/
structure CacheEntry.Grown (before after : CacheEntry) : Prop where
  uid : after.uid = before.uid
  versionId : after.versionId = before.versionId
  size : after.size = before.size
  blockSize : after.blockSize = before.blockSize
  present : ∀ index, before.presentAt index = true →
    after.presentAt index = true

namespace CacheEntry

variable {before after : CacheEntry}

theorem Grown.refl (entry : CacheEntry) : entry.Grown entry :=
  ⟨rfl, rfl, rfl, rfl, fun _ present => present⟩

theorem Grown.trans {last : CacheEntry} (first : before.Grown after)
    (second : after.Grown last) : before.Grown last :=
  ⟨second.uid.trans first.uid, second.versionId.trans first.versionId,
    second.size.trans first.size, second.blockSize.trans first.blockSize,
    fun index present => second.present index (first.present index present)⟩

theorem presentAt_lt {entry : CacheEntry} {index : Nat}
    (present : entry.presentAt index = true) : index < entry.blocks := by
  by_contra outside
  rw [presentAt, List.getD_eq_getElem?_getD,
    List.getElem?_eq_none (Nat.le_of_not_lt outside)] at present
  cases present

theorem blockLength_pos {entry : CacheEntry} {index : Nat}
    (inside : index < entry.blocks) : 0 < entry.blockLength index := by
  have lastStart := entry.blocks_pred_mul_lt (by omega)
  unfold blockLength
  split
  · exact entry.blockSize_pos
  · have isLast : index = entry.blocks - 1 := by omega
    rw [isLast]
    omega

theorem Later.grown (later : before.Later after) : before.Grown after := by
  refine ⟨later.uid, later.versionId, later.size, later.blockSize, ?_⟩
  intro index present
  have inside := presentAt_lt present
  have same := blocks_congr later.size later.blockSize
  have stillInside : index < after.blocks := by omega
  have positive := blockLength_pos stillInside
  have bound := later.missing [index]
  simp only [missingBytes, List.map_cons, List.map_nil, List.sum_cons,
    List.sum_nil, present, if_true] at bound
  by_contra missing
  rw [if_neg missing] at bound
  omega

theorem Grown.onDisk (grown : before.Grown after) {start stop : Nat}
    (onDisk : before.OnDisk start stop) : after.OnDisk start stop := by
  intro offset from_ below
  rw [grown.blockSize]
  exact grown.present _ (onDisk offset from_ below)

theorem Grown.planned (grown : before.Grown after) {begin_ end_ : Nat}
    {runs : List (Nat × Nat)} {position : Nat}
    (planned : before.Planned begin_ end_ position runs) :
    after.Planned begin_ end_ position runs := by
  induction runs generalizing position with
  | nil => exact grown.onDisk planned
  | cons run rest induction =>
      obtain ⟨onDisk, starts, ordered, asked, reached, inside, continued⟩ :=
        planned
      exact ⟨grown.onDisk onDisk, starts, ordered, asked, reached,
        grown.size ▸ inside, induction continued⟩

theorem grown_mark (entry : CacheEntry) (indices : List Nat) :
    entry.Grown (entry.mark indices) := by
  refine ⟨rfl, rfl, rfl, rfl, ?_⟩
  intro index present
  rw [presentAt_mark, present, Bool.true_or]

end CacheEntry

/-- Entries stay, grow or go, and `admits` says which sizes new ones have. -/
structure Grows (admits : String → Nat → Prop)
    (before after : LocalCache) : Prop where
  entries : ∀ versionId later, after.entry versionId = some later →
    (∃ earlier, before.entry versionId = some earlier ∧
      earlier.Grown later) ∨
    (before.nextUid ≤ later.uid ∧ later.uid < after.nextUid ∧
      later.versionId = versionId ∧ admits versionId later.size)
  nextUid : before.nextUid ≤ after.nextUid

namespace Grows

variable {admits : String → Nat → Prop} {before after : LocalCache}

theorem of_evolves (evolves : Evolves before after) :
    Grows admits before after := by
  refine ⟨?_, evolves.nextUid.ge⟩
  intro versionId later found
  obtain ⟨earlier, earlierFound, stage⟩ :=
    evolves.entries versionId later found
  exact .inl ⟨earlier, earlierFound, stage.grown⟩

theorem refl (cache : LocalCache) : Grows admits cache cache :=
  of_evolves (.refl cache)

theorem trans {last : LocalCache} (first : Grows admits before after)
    (second : Grows admits after last) : Grows admits before last := by
  refine ⟨?_, first.nextUid.trans second.nextUid⟩
  intro versionId later found
  rcases second.entries versionId later found with
    ⟨middle, middleFound, grown⟩ | ⟨fresh, supplied, named, sized⟩
  · rcases first.entries versionId middle middleFound with
      ⟨earlier, earlierFound, before_⟩ | ⟨fresh, supplied, named, sized⟩
    · exact .inl ⟨earlier, earlierFound, before_.trans grown⟩
    · refine .inr ⟨?_, ?_, grown.versionId.trans named, ?_⟩
      · rw [grown.uid]
        exact fresh
      · rw [grown.uid]
        exact lt_of_lt_of_le supplied second.nextUid
      · rw [grown.size]
        exact sized
  · exact .inr ⟨first.nextUid.trans fresh, supplied, named, sized⟩

theorem update (cache : LocalCache) (versionId : String) (uid : Nat)
    {change : CacheEntry → CacheEntry}
    (grown : ∀ entry : CacheEntry, entry.Grown (change entry)) :
    Grows admits cache (cache.update versionId uid change) := by
  refine ⟨?_, le_rfl⟩
  intro other later found
  simp only [LocalCache.entry, LocalCache.update, Dict.get?_modify] at found
  split at found
  · obtain ⟨earlier, earlierFound, rfl⟩ := Option.map_eq_some_iff.mp found
    rename_i same
    subst same
    refine .inl ⟨earlier, earlierFound, ?_⟩
    split
    · exact grown earlier
    · exact .refl earlier
  · exact .inl ⟨later, found, .refl later⟩

theorem relabelled (cache : LocalCache) (versionId : String) (uid : Nat)
    {change : CacheEntry → CacheEntry}
    (same : ∀ entry : CacheEntry, (change entry).uid = entry.uid ∧
      (change entry).versionId = entry.versionId ∧
      (change entry).size = entry.size ∧
      (change entry).blockSize = entry.blockSize ∧
      (change entry).present = entry.present) :
    Grows admits cache (cache.update versionId uid change) := by
  apply update
  intro entry
  obtain ⟨uid_, versionId_, size, blockSize, present⟩ := same entry
  refine ⟨uid_, versionId_, size, blockSize, ?_⟩
  intro index
  rw [CacheEntry.presentAt, CacheEntry.presentAt, present]
  exact id

theorem markPresent (cache : LocalCache) (versionId : String) (uid : Nat)
    (indices : List Nat) :
    Grows admits cache (cache.markPresent versionId uid indices) := by
  unfold LocalCache.markPresent
  split
  · exact refl cache
  · split
    · exact refl cache
    · exact (update cache versionId uid fun entry =>
        entry.grown_mark _).trans (of_evolves (.issue _ _))

theorem returnClaim (cache : LocalCache) (fill : Fill) :
    Grows admits cache (cache.returnClaim fill) :=
  relabelled cache _ _ fun _ => ⟨rfl, rfl, rfl, rfl, rfl⟩

theorem commitBlocks (cache : LocalCache) (fill : Fill) (now : Int) :
    Grows admits cache (cache.commitBlocks fill now) :=
  (((of_evolves (.issue cache _)).trans (returnClaim _ fill)).trans
    (markPresent _ _ _ _)).trans
      (relabelled _ _ _ fun _ => ⟨rfl, rfl, rfl, rfl, rfl⟩)

theorem failBlocks (cache : LocalCache) (fill : Fill) (written : Nat) :
    Grows admits cache (cache.failBlocks fill written) :=
  ((of_evolves (.issue cache _)).trans (returnClaim _ fill)).trans
    (of_evolves (.remove _ _))

variable {cache : LocalCache}

theorem claimBlocks (config : CacheConfig) (keyed : Keyed cache)
    (versionId : String) (begin_ : Nat) (data : List UInt8)
    (free : FreeSpace) :
    Grows admits cache
      (cache.claimBlocks config versionId begin_ data free).1 := by
  apply LocalCache.claimBlocks_cases (P := fun later _ =>
    Grows admits cache later) (refl cache)
    fun _ needed _ => of_evolves (makeRoom_spec config cache needed _ _ _
      keyed).evolves
  intro entry fill roomy _ _ _ _ made _
  refine .trans ?_ (relabelled _ _ _ fun _ => ⟨rfl, rfl, rfl, rfl, rfl⟩)
  rcases made with ⟨_, rfl⟩ | rfl
  · exact refl cache
  · exact of_evolves (makeRoom_spec config cache _ _ _ _ keyed).evolves

theorem admitEntry (config : CacheConfig) (keyed : Keyed cache)
    (fs versionId : String) (size charge : Nat) (now : Int) (writing : Bool)
    (free : FreeSpace) (refused : Option FileKind)
    (sized : admits versionId size) :
    Grows admits cache (cache.admitEntry config fs versionId size charge now
      writing free refused).1 := by
  have room := makeRoom_spec config cache charge true none free keyed
  unfold LocalCache.admitEntry
  dsimp only
  split
  · exact of_evolves room.evolves
  · have filed := CacheInvariant.createFiles_evolves
      (cache.makeRoom config charge true none free).1
      ((cache.makeRoom config charge true none free).1.newEntry config fs
        versionId size now writing) refused
    have created := room.evolves.trans filed
    split
    · refine ⟨?_, ?_⟩
      · intro other later found
        simp only [LocalCache.entry, LocalCache.saveIndex, LocalCache.issue,
          Dict.get?_set] at found
        split at found
        · rename_i same
          cases found
          refine .inr ⟨?_, ?_, same.symm, same ▸ sized⟩
          · exact room.evolves.nextUid.ge
          · exact Nat.lt_succ_of_le filed.nextUid.ge
        · obtain ⟨earlier, earlierFound, stage⟩ :=
            created.entries other later found
          exact .inl ⟨earlier, earlierFound, stage.grown⟩
      · exact created.nextUid.ge.trans (Nat.le_succ _)
    · exact of_evolves created

theorem reserve (config : CacheConfig) (keyed : Keyed cache)
    (fs versionId : String) (size now : Int) (free : FreeSpace)
    (refused : Option FileKind) (sized : admits versionId size.toNat) :
    Grows admits cache
      (cache.reserve config fs versionId size now free refused).1 := by
  unfold LocalCache.reserve
  split
  · exact refl cache
  · have cleared := Evolves.removeExisting cache versionId
    exact (of_evolves cleared).trans (admitEntry config
      (keyed.evolves cleared) fs versionId _ _ now _ free refused sized)

theorem openStaging (config : CacheConfig) (keyed : Keyed cache)
    (fs versionId : String) (size now : Int) (free : FreeSpace)
    (refused : Option FileKind) (sized : admits versionId size.toNat) :
    Grows admits cache
      (cache.openStaging config fs versionId size now free refused).1 := by
  unfold LocalCache.openStaging
  split
  · exact refl cache
  · have cleared := Evolves.removeExisting cache versionId
    dsimp only
    split
    · exact of_evolves cleared
    · exact (of_evolves cleared).trans (admitEntry config
        (keyed.evolves cleared) fs versionId _ _ now _ free refused sized)

theorem write (cache : LocalCache) (writer : StagingWriter)
    (data : List UInt8) :
    Grows admits cache (writer.write cache data).2 := by
  unfold StagingWriter.write
  split
  · exact refl cache
  · exact (of_evolves (.issue cache _)).trans (markPresent _ _ _ _)

theorem writeFailed (cache : LocalCache) (writer : StagingWriter)
    (data : List UInt8) (written : Nat) :
    Grows admits cache (writer.writeFailed cache data written).2 := by
  unfold StagingWriter.writeFailed
  split
  · exact refl cache
  · exact of_evolves (.issue cache _)

theorem settled (cache : LocalCache) (versionId : String) (uid : Nat) :
    Grows admits cache (cache.update versionId uid fun entry =>
      { entry with writing := false }) :=
  relabelled cache _ _ fun _ => ⟨rfl, rfl, rfl, rfl, rfl⟩

theorem finish (cache : LocalCache) (writer : StagingWriter) :
    Grows admits cache (writer.finish cache).2 :=
  (settled cache writer.versionId writer.uid).trans
    (of_evolves (.saveIndex _))

theorem endAbort (cache : LocalCache) (writer : StagingWriter) :
    Grows admits cache (writer.endAbort cache).2 :=
  (settled cache writer.versionId writer.uid).trans
    (of_evolves (.remove _ _))

end Grows

/-- The version and the size of an entry that a step may file. -/
def CacheAction.Admits : CacheAction → String → Nat → Prop
  | .openStaging _ versionId size _ _ _, other, bytes =>
      other = versionId ∧ bytes = size.toNat
  | .reserve _ versionId size _ _ _, other, bytes =>
      other = versionId ∧ bytes = size.toNat
  | _, _, _ => False

/-- Every step of the tasks that share the cache keeps what is on disk of
the entries it leaves. -/
theorem cacheStep_grows {config : CacheConfig} {state after : CacheState}
    {action : CacheAction} (keyed : Keyed state.cache)
    (taken : cacheStep config state action = some after) :
    Grows action.Admits state.cache after.cache := by
  cases cacheMove taken with
  | openStaging fs versionId size now free refused =>
      exact .openStaging config keyed fs versionId size now free refused
        ⟨rfl, rfl⟩
  | @write _ writer data here => exact .write state.cache writer data
  | @writeFailed _ writer data written here =>
      exact .writeFailed state.cache writer data written
  | @finish _ writer here finishing => exact .finish state.cache writer
  | abort here | close here | cancelBlocks here => exact .refl state.cache
  | @endAbort _ writer here => exact .endAbort state.cache writer
  | reserve fs versionId size now free refused =>
      exact .reserve config keyed fs versionId size now free refused
        ⟨rfl, rfl⟩
  | claimBlocks versionId begin_ data free =>
      exact .claimBlocks config keyed versionId begin_ data free
  | @commitBlocks _ fill now here => exact .commitBlocks state.cache fill now
  | @failBlocks _ fill written here =>
      exact .failBlocks state.cache fill written
  | pin versionId now => exact .of_evolves (.pin state.cache versionId now)
  | unpin versionId => exact .of_evolves (.unpin state.cache versionId)
  | release versionId =>
      exact .of_evolves (.release config state.cache versionId)
  | remove versionId => exact .of_evolves (.remove state.cache versionId)
  | removeMany versionIds =>
      exact .of_evolves (.removeMany state.cache versionIds)
  | evictUnpinned => exact .of_evolves (.removeMany state.cache _)
  | sweep listing queueEmpty now free =>
      exact .of_evolves (sweep_spec config state.cache listing queueEmpty
        now free keyed).1

/-- The entry of a version is neither dropped nor replaced. -/
def Stays (versionId : String) (before after : LocalCache) : Prop :=
  ∀ entry, before.entry versionId = some entry →
    ∃ later, after.entry versionId = some later ∧ later.uid = entry.uid

namespace Stays

variable {versionId : String}

theorem refl (cache : LocalCache) : Stays versionId cache cache :=
  fun entry found => ⟨entry, found, rfl⟩

theorem trans {first second third : LocalCache}
    (left : Stays versionId first second)
    (right : Stays versionId second third) :
    Stays versionId first third := by
  intro entry found
  obtain ⟨middle, middleFound, same⟩ := left entry found
  obtain ⟨later, laterFound, again⟩ := right middle middleFound
  exact ⟨later, laterFound, again.trans same⟩

theorem update (cache : LocalCache) (other : String) (uid : Nat)
    {change : CacheEntry → CacheEntry}
    (same : ∀ entry, (change entry).uid = entry.uid) :
    Stays versionId cache (cache.update other uid change) := by
  intro entry found
  simp only [LocalCache.entry, LocalCache.update, Dict.get?_modify]
  have foundHere : cache.entries.get? versionId = some entry := found
  split
  · rw [foundHere]
    refine ⟨_, rfl, ?_⟩
    dsimp only
    split
    · exact same entry
    · rfl
  · exact ⟨entry, found, rfl⟩

theorem markPresent (cache : LocalCache) (other : String) (uid : Nat)
    (indices : List Nat) :
    Stays versionId cache (cache.markPresent other uid indices) := by
  unfold LocalCache.markPresent
  split
  · exact refl cache
  · split
    · exact refl cache
    · exact update cache other uid fun _ => rfl

theorem returnClaim (cache : LocalCache) (fill : Fill) :
    Stays versionId cache (cache.returnClaim fill) :=
  update cache fill.versionId fill.uid fun _ => rfl

theorem commitBlocks (cache : LocalCache) (fill : Fill) (now : Int) :
    Stays versionId cache (cache.commitBlocks fill now) := by
  have written : Stays versionId cache (cache.issue
      [.writeData (.path fill.versionId) fill.begin_ fill.data]) :=
    refl cache
  have marked := (written.trans (returnClaim _ fill)).trans
    (markPresent _ fill.versionId fill.uid fill.blocks)
  exact marked.trans (update _ fill.versionId fill.uid fun _ => rfl)

/-- Room for the blocks of an entry is made at the cost of others. -/
theorem claimBlocks (config : CacheConfig) {cache : LocalCache}
    (keyed : Keyed cache) (begin_ : Nat) (data : List UInt8)
    (free : FreeSpace) :
    Stays versionId cache
      (cache.claimBlocks config versionId begin_ data free).1 := by
  have room : ∀ needed (entry : CacheEntry),
      cache.entry versionId = some entry →
        Stays versionId cache (cache.makeRoom config needed false
          (some entry.uid) free).1 := by
    intro needed entry found other foundOther
    have spared := (makeRoom_spec config cache needed false (some entry.uid)
      free keyed).spares
    cases found.symm.trans foundOther
    exact ⟨entry, spared versionId entry found
      (not_mem_lruOrder_keep cache entry), rfl⟩
  apply LocalCache.claimBlocks_cases (P := fun later _ =>
    Stays versionId cache later) (refl cache)
    fun entry needed found => room needed entry found
  intro entry fill roomy found _ _ _ made _
  refine .trans ?_ (update _ _ _ fun _ => rfl)
  rcases made with ⟨_, rfl⟩ | rfl
  · exact refl cache
  · exact room _ entry found

end Stays

end Tgdcfs
