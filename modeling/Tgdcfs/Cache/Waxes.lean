import Tgdcfs.Cache.Wanes

/-!
# Operations that admit, pin and mark

An admission creates its files while the entry is not there yet and no index
record names it.  Pinning and the end of staging reach the directory with one
write of the index.  Marking follows bytes that are on the disk already.
`Between` is what a directory may say of the entries in the middle of an
operation.
-/

namespace Tgdcfs

open Lib

variable {content : String → List UInt8}

/-- What the entry of a version is charged, nothing when there is none. -/
def LocalCache.chargedFor (cache : LocalCache) (versionId : String) : Nat :=
  ((cache.entry versionId).map CacheEntry.chargedBytes).getD 0

/-- The entries a directory shows while an operation leads from `before` to
`after`: what is complete is complete on one side, what is settled has been
charged for, and what both sides have complete and pinned is, at the size
of one of them. -/
structure Between (before middle after : LocalCache) : Prop where
  complete : ∀ versionId, middle.complete versionId = true →
    before.complete versionId = true ∨ after.complete versionId = true
  bounded : ∀ versionId entry, middle.entry versionId = some entry →
    entry.writing = false →
      entry.presentBytes ≤ before.chargedFor versionId
  kept : ∀ versionId earlier later,
    before.entry versionId = some earlier →
    after.entry versionId = some later → later.uid = earlier.uid →
    0 < earlier.pins → 0 < later.pins →
    before.complete versionId = true → after.complete versionId = true →
      middle.complete versionId = true ∧
      ∃ entry, middle.entry versionId = some entry ∧ 0 < entry.pins ∧
        (entry.size = earlier.size ∨ entry.size = later.size)
  size : middle.entries.size ≤ before.entries.size ∨
    middle.entries.size ≤ after.entries.size

theorem CacheEntry.presentBytes_le_charged (entry : CacheEntry) :
    entry.presentBytes ≤ entry.chargedBytes := by
  cases staging : entry.writing with
  | true =>
      rw [chargedBytes, if_pos staging]
      exact entry.presentBytes_le_size
  | false =>
      rw [chargedBytes_of_idle staging]
      exact Nat.le_add_right _ _

theorem CacheEntry.presentBytes_congr {left right : CacheEntry}
    (size : left.size = right.size)
    (blockSize : left.blockSize = right.blockSize)
    (present : left.present = right.present) :
    left.presentBytes = right.presentBytes := by
  have blocks := CacheEntry.blocks_congr size blockSize
  rw [CacheEntry.presentBytes, CacheEntry.presentBytes, blocks]
  congr 1
  apply List.map_congr_left
  intro index _
  rw [CacheEntry.presentAt, present, CacheEntry.presentAt,
    CacheEntry.blockLength, CacheEntry.blockLength, blocks, size, blockSize]

theorem CacheEntry.isComplete_congr {left right : CacheEntry}
    (size : left.size = right.size)
    (present : left.present = right.present) :
    left.isComplete = right.isComplete := by
  rw [CacheEntry.isComplete, CacheEntry.isComplete, size, present]

namespace CacheEntry.Faded

variable {before after : CacheEntry}

theorem presentBytes (faded : before.Faded after) :
    after.presentBytes = before.presentBytes :=
  presentBytes_congr faded.size faded.blockSize faded.present

theorem isComplete (faded : before.Faded after) :
    after.isComplete = before.isComplete :=
  isComplete_congr faded.size faded.present

end CacheEntry.Faded

variable {cache : LocalCache} {versionId : String}

theorem LocalCache.complete_iff :
    cache.complete versionId = true ↔
      ∃ entry, cache.entry versionId = some entry ∧
        entry.writing = false ∧ entry.isComplete = true := by
  unfold LocalCache.complete
  cases found : cache.entry versionId with
  | none => simp
  | some entry => simp

variable {before after : LocalCache}

theorem Fades.complete (fades : Fades before after)
    (complete : after.complete versionId = true) :
    before.complete versionId = true := by
  obtain ⟨later, found, settled, whole⟩ :=
    LocalCache.complete_iff.mp complete
  obtain ⟨earlier, earlierFound, faded⟩ :=
    fades.entries versionId later found
  exact LocalCache.complete_iff.mpr ⟨earlier, earlierFound,
    faded.writing.symm.trans settled, faded.isComplete.symm.trans whole⟩

theorem Fades.size (fades : Fades before after) :
    after.entries.size ≤ before.entries.size := by
  apply Dict.size_le_of_get?
  intro versionId later found
  obtain ⟨earlier, earlierFound, _⟩ := fades.entries versionId later found
  exact ⟨earlier, earlierFound⟩

theorem LocalCache.presentBytes_le_chargedFor {entry : CacheEntry}
    (found : cache.entry versionId = some entry) :
    entry.presentBytes ≤ cache.chargedFor versionId := by
  rw [LocalCache.chargedFor, found]
  exact entry.presentBytes_le_charged

namespace Between

variable {before middle waned after : LocalCache}

theorem left (before after : LocalCache) : Between before before after :=
  ⟨fun _ complete => .inl complete,
    fun _ _ found _ => LocalCache.presentBytes_le_chargedFor found,
    fun _ earlier _ found _ _ pinned _ complete _ =>
      ⟨complete, earlier, found, pinned, .inl rfl⟩, .inl le_rfl⟩

theorem right (bounded : ∀ versionId entry,
      after.entry versionId = some entry → entry.writing = false →
        entry.presentBytes ≤ before.chargedFor versionId) :
    Between before after after :=
  ⟨fun _ complete => .inr complete, bounded,
    fun _ _ later _ found _ _ pinned _ complete =>
      ⟨complete, later, found, pinned, .inr rfl⟩, .inr le_rfl⟩

/-- On the way to what is left before an entry is admitted. -/
theorem of_fading (first : Fades before middle) (second : Fades middle waned)
    (fresh : ∀ versionId entry, before.entry versionId = some entry →
      entry.uid < before.nextUid)
    (old : ∀ versionId entry, after.entry versionId = some entry →
      entry.uid < before.nextUid →
        waned.entry versionId = some entry) :
    Between before middle after := by
  refine ⟨fun versionId complete => .inl (first.complete complete), ?_, ?_,
    .inl first.size⟩
  · intro versionId entry found _
    obtain ⟨earlier, earlierFound, faded⟩ :=
      first.entries versionId entry found
    rw [faded.presentBytes]
    exact LocalCache.presentBytes_le_chargedFor earlierFound
  · intro versionId earlier later earlierFound laterFound same _ pinned
      _ complete
    have remains := old versionId later laterFound
      (same ▸ fresh versionId earlier earlierFound)
    obtain ⟨entry, found, faded⟩ :=
      second.entries versionId later remains
    have wanedComplete : waned.complete versionId = true := by
      obtain ⟨entry', found', rest⟩ := LocalCache.complete_iff.mp complete
      rw [laterFound] at found'
      cases found'
      exact LocalCache.complete_iff.mpr ⟨later, remains, rest⟩
    exact ⟨second.complete wanedComplete, entry, found,
      lt_of_lt_of_le pinned faded.pins, .inr faded.size.symm⟩

end Between

/-- An operation on one particular directory. -/
def Carries (content : String → List UInt8) (before : LocalCache)
    (disk : Disk) (after : LocalCache) : Prop :=
  ∃ steps, Passage content Between false before disk steps after

variable {disk : Disk}

theorem Wanes.carries (wanes : Wanes content false false before after)
    (aligned : Aligned content false before disk) :
    Carries content before disk after := by
  obtain ⟨fades, steps, passage⟩ := wanes
  have done := passage disk aligned
  refine ⟨steps, done.issued, done.aligned, done.follows,
    done.passes.mono ?_⟩
  intro middle fading
  exact .of_fading fading.1 fading.2 aligned.fresh
    fun _ _ found _ => found

/-- A change of one entry that reaches the directory with the index. -/
theorem Carries.saved (aligned : Aligned content false cache disk)
    (versionId : String) (uid : Nat) (change : CacheEntry → CacheEntry)
    (same : ∀ entry : CacheEntry, (change entry).uid = entry.uid ∧
      (change entry).versionId = entry.versionId ∧
      (change entry).size = entry.size ∧
      (change entry).blockSize = entry.blockSize ∧
      (change entry).present = entry.present) :
    Carries content cache disk
      (cache.update versionId uid change).saveIndex := by
  let after := (cache.update versionId uid change).saveIndex
  have lookup : ∀ other later, after.entry other = some later →
      ∃ earlier, cache.entry other = some earlier ∧
        later.uid = earlier.uid ∧ later.versionId = earlier.versionId ∧
        later.size = earlier.size ∧ later.blockSize = earlier.blockSize ∧
        later.present = earlier.present := by
    intro other later found
    have modified : (if other = versionId then
        (cache.entry other).map fun entry =>
          if entry.uid = uid then change entry else entry
        else cache.entry other) = some later :=
      (Dict.get?_modify ..).symm.trans found
    split at modified
    · obtain ⟨earlier, earlierFound, rfl⟩ :=
        Option.map_eq_some_iff.mp modified
      refine ⟨earlier, earlierFound, ?_⟩
      split
      · exact same earlier
      · exact ⟨rfl, rfl, rfl, rfl, rfl⟩
    · exact ⟨later, modified, rfl, rfl, rfl, rfl, rfl⟩
  have missing : ∀ other, after.entry other = none →
      cache.entry other = none := by
    intro other gone
    have modified : (if other = versionId then
        (cache.entry other).map fun entry =>
          if entry.uid = uid then change entry else entry
        else cache.entry other) = none :=
      (Dict.get?_modify ..).symm.trans gone
    split at modified
    · exact Option.map_eq_none_iff.mp modified
    · exact modified
  have keyed : Keyed after := by
    intro other later found
    obtain ⟨earlier, earlierFound, _, named, _⟩ := lookup other later found
    rw [named, aligned.keyed other earlier earlierFound]
  have stored : ∀ other later, after.entry other = some later →
      Stored content disk other later := by
    intro other later found
    obtain ⟨earlier, earlierFound, _, _, size, blockSize, present⟩ :=
      lookup other later found
    obtain ⟨map, bytes, linked, enough, marked⟩ :=
      aligned.mirrors.stored other earlier earlierFound
    refine ⟨present ▸ map, bytes, linked, size ▸ enough, ?_⟩
    intro offset inside here
    rw [size] at inside
    rw [CacheEntry.presentAt, present, blockSize] at here
    exact marked offset inside here
  have final : Aligned content false after
      (disk.apply (.replaceIndex (after.entries.values.map indexRecord))) := by
    refine Wanes.aligned_index keyed ?_
      (fun other gone => aligned.absent other (missing other gone)) stored
    intro other later found
    obtain ⟨earlier, earlierFound, identity, _⟩ := lookup other later found
    rw [identity]
    exact aligned.fresh other earlier earlierFound
  refine ⟨[.replaceIndex (after.entries.values.map indexRecord)], rfl, final,
    ⟨.of_files rfl rfl rfl fun _ _ found => found, le_rfl, ?_⟩, ?_⟩
  · intro other later found _
    obtain ⟨earlier, earlierFound, identity, _⟩ := lookup other later found
    exact ⟨⟨earlier, earlierFound, identity.symm⟩, rfl⟩
  · refine .cons aligned.mirrors (.left cache _)
      (.nil final.mirrors (.right ?_))
    intro other later found _
    obtain ⟨earlier, earlierFound, _, _, size, blockSize, present⟩ :=
      lookup other later found
    have bytes : later.presentBytes = earlier.presentBytes :=
      CacheEntry.presentBytes_congr size blockSize present
    rw [bytes]
    exact LocalCache.presentBytes_le_chargedFor earlierFound

theorem Carries.pin (aligned : Aligned content false cache disk)
    (versionId : String) (now : Int) :
    Carries content cache disk (cache.pin versionId now) := by
  unfold LocalCache.pin
  split
  · exact (Wanes.refl cache).carries aligned
  · exact .saved aligned _ _ _ fun _ => ⟨rfl, rfl, rfl, rfl, rfl⟩

theorem Carries.finish (aligned : Aligned content false cache disk)
    (writer : StagingWriter) :
    Carries content cache disk (writer.finish cache).2 :=
  .saved aligned _ _ _ fun _ => ⟨rfl, rfl, rfl, rfl, rfl⟩

section Admission

variable {cache : LocalCache} {disk : Disk} {versionId : String}

theorem Aligned.createData (aligned : Aligned content false cache disk)
    (missing : cache.entry versionId = none) (uid size : Nat) :
    Mirrors content cache
      (disk.apply (.createData uid versionId size)) := by
  have path := aligned.absent versionId missing
  obtain ⟨paths, _, _, maps, index, _⟩ :=
    Disk.createData_of_absent path size
  have different : ∀ other entry, cache.entry other = some entry →
      other ≠ versionId := by
    intro other entry found same
    rw [same, missing] at found
    cases found
  refine aligned.mirrors.of_disk (.createData path size) ?_ ?_ index ?_
  · intro other _ _
    exact congrArg (Dict.get? · other) maps
  · intro other entry found
    refine (congrArg (Dict.get? · other) paths).trans ?_
    rw [Dict.get?_set, if_neg (different other entry found)]
  · intro record member gone
    obtain ⟨entry, found⟩ :=
      Option.isSome_iff_exists.mp (aligned.current rfl record member)
    rw [gone] at found
    cases found

theorem Aligned.unlinkCreated (aligned : Aligned content false cache disk)
    (missing : cache.entry versionId = none) (uid size : Nat) :
    Aligned content false cache
        (disk.replay [.createData uid versionId size,
          .unlink versionId .data]) ∧
      disk.Extends content
        (disk.replay [.createData uid versionId size,
          .unlink versionId .data]) ∧
      ∀ other, (disk.replay [.createData uid versionId size,
        .unlink versionId .data]).paths.get? other =
          disk.paths.get? other := by
  have path := aligned.absent versionId missing
  obtain ⟨linked, _, _, maps, index, _⟩ :=
    Disk.createData_of_absent path size
  have paths : ∀ other, (disk.replay [.createData uid versionId size,
      .unlink versionId .data]).paths.get? other =
        disk.paths.get? other := by
    intro other
    simp only [Disk.replay_cons, Disk.replay_nil, Disk.apply,
      Disk.unlinkData, linked, Dict.get?_erase, Dict.get?_set]
    by_cases same : other = versionId
    · rw [if_pos same, same, path]
    · rw [if_neg same, if_neg same]
  have extended : disk.Extends content
      (disk.replay [.createData uid versionId size,
        .unlink versionId .data]) := by
    refine (Disk.Extends.createData path size).trans
      (.of_files rfl rfl rfl ?_)
    intro other inode found
    have left : (if other = versionId then none else
        (disk.createData versionId size).paths.get? other) = some inode :=
      (Dict.get?_erase ..).symm.trans found
    split at left
    · cases left
    · exact left
  refine ⟨aligned.of_disk extended (fun other _ _ =>
    congrArg (Dict.get? · other) maps) paths index, extended, paths⟩

/-- The files of a new entry, and the index that names it. -/
theorem Carries.file (aligned : Aligned content false cache disk)
    (missing : cache.entry versionId = none) (fresh : CacheEntry)
    (identity : fresh.uid = cache.nextUid)
    (named : fresh.versionId = versionId)
    (blank : ∀ index, fresh.presentAt index = false) :
    let filed : LocalCache :=
      { cache.issue [.createData fresh.uid versionId fresh.size,
          .createMap versionId fresh.present] with
        entries := cache.entries.set versionId fresh
        nextUid := cache.nextUid + 1 }
    Passage content (fun _ middle after =>
        middle = cache ∨ middle = after) false cache disk
      [.createData fresh.uid versionId fresh.size,
        .createMap versionId fresh.present,
        .replaceIndex (filed.entries.values.map indexRecord)]
      filed.saveIndex := by
  intro filed
  have path := aligned.absent versionId missing
  obtain ⟨paths, _, _, _, index, _⟩ :=
    Disk.createData_of_absent path fresh.size
  have lookup : ∀ other, filed.entry other =
      if other = versionId then some fresh else cache.entry other :=
    fun other => Dict.get?_set ..
  have created := aligned.createData missing fresh.uid fresh.size
  have different : ∀ other entry, cache.entry other = some entry →
      other ≠ versionId := by
    intro other entry found same
    rw [same, missing] at found
    cases found
  let linked := disk.apply (.createData fresh.uid versionId fresh.size)
  let mapped := linked.apply (.createMap versionId fresh.present)
  have maps : ∀ other, mapped.maps.get? other =
      if other = versionId then some fresh.present
      else linked.maps.get? other := fun other => Dict.get?_set ..
  have mirrored : Mirrors content cache mapped := by
    refine created.of_disk
      (.of_files rfl rfl rfl fun _ _ found => found) ?_
      (fun _ _ _ => rfl) rfl fun _ _ _ gone => gone
    intro other entry found
    rw [maps, if_neg (different other entry found)]
  have extended : disk.Extends content mapped :=
    (Disk.Extends.createData path fresh.size).trans
      (.of_files rfl rfl rfl fun _ _ found => found)
  have keyed : Keyed filed := by
    intro other entry found
    rw [lookup] at found
    split at found
    · rename_i same
      cases found
      exact named.trans same.symm
    · exact aligned.keyed other entry found
  have stored : ∀ other entry, filed.entry other = some entry →
      Stored content mapped other entry := by
    intro other entry found
    rw [lookup] at found
    split at found
    · rename_i same
      cases found
      refine ⟨(maps other).trans (if_pos same),
        List.replicate fresh.size 0, ?_, by simp, ?_⟩
      · exact (Disk.data_createData path fresh.size other).trans
          (if_pos same)
      · intro offset _ present
        rw [blank] at present
        cases present
    · exact mirrored.stored other entry found
  have final : Aligned content false filed.saveIndex
      (mapped.apply (.replaceIndex
        (filed.entries.values.map indexRecord))) := by
    refine (Wanes.aligned_index keyed ?_ ?_ stored).congr _ rfl rfl
    · intro other entry found
      rw [lookup] at found
      split at found
      · cases found
        exact identity ▸ Nat.lt_succ_self _
      · exact Nat.lt_succ_of_lt (aligned.fresh other entry found)
    · intro other gone
      rw [lookup] at gone
      split at gone
      · cases gone
      · rename_i other_
        refine (congrArg (Dict.get? · other) paths).trans ?_
        rw [Dict.get?_set, if_neg other_]
        exact aligned.absent other gone
  refine ⟨by simp [filed, LocalCache.saveIndex, LocalCache.issue], final,
    ⟨extended.trans (.of_files rfl rfl rfl fun _ _ found => found),
      Nat.le_succ _, ?_⟩, ?_⟩
  · intro other entry found old
    rw [show filed.saveIndex.entry other = filed.entry other from rfl,
      lookup] at found
    split at found
    · cases found
      omega
    · rename_i other_
      refine ⟨⟨entry, found, rfl⟩, ?_⟩
      refine (congrArg (Dict.get? · other) paths).trans ?_
      rw [Dict.get?_set, if_neg other_]
  · exact .cons aligned.mirrors (.inl rfl) (.cons created (.inl rfl)
      (.cons mirrored (.inl rfl) (.nil final.mirrors (.inr rfl))))

theorem LocalCache.newEntry_blank (config : CacheConfig)
    (cache : LocalCache) (fs versionId : String) (size : Nat) (now : Int)
    (writing : Bool) (index : Nat) :
    (cache.newEntry config fs versionId size now writing).presentAt index =
      false := by
  simp only [CacheEntry.presentAt, LocalCache.newEntry,
    List.getD_eq_getElem?_getD, List.getElem?_replicate]
  split <;> rfl

theorem CacheEntry.presentBytes_of_blank {entry : CacheEntry}
    (blank : ∀ index, entry.presentAt index = false) :
    entry.presentBytes = 0 := by
  rw [presentBytes]
  simp [blank]

/-- The data file is created, the map refused, and both are removed. -/
theorem Wanes.refusedMap (missing : cache.entry versionId = none)
    (uid size : Nat) :
    Wanes content false false cache
      ((cache.issue [.createData uid versionId size]).unlink versionId) := by
  have fades : Fades cache
      ((cache.issue [.createData uid versionId size]).unlink versionId) :=
    .of_entries_eq rfl rfl
  refine ⟨fades, [.createData uid versionId size, .unlink versionId .data,
    .unlink versionId .map], ?_⟩
  intro disk aligned
  obtain ⟨unlinked, extended, paths⟩ :=
    aligned.unlinkCreated missing uid size
  obtain ⟨final, extended', paths'⟩ := unlinked.unlinkAbsent missing .map
  have after := final.congr
    ((cache.issue [.createData uid versionId size]).unlink versionId) rfl rfl
  refine ⟨by simp [LocalCache.unlink, LocalCache.issue], after,
    .of_fades fades (extended.trans extended') ?_, ?_⟩
  · intro other _ _
    exact (paths' other).trans (paths other)
  · have between : Fading cache cache
        ((cache.issue [.createData uid versionId size]).unlink versionId) :=
      ⟨.refl cache, fades⟩
    exact .cons aligned.mirrors between
      (.cons (aligned.createData missing uid size) between
        (.cons unlinked.mirrors between (.nil final.mirrors between)))

/-- An admission after the operations that made room for it. -/
theorem Wanes.carries_file {roomy : LocalCache}
    (wanes : Wanes content false false cache roomy)
    (aligned : Aligned content false cache disk)
    (missing : roomy.entry versionId = none) (fresh : CacheEntry)
    (identity : fresh.uid = roomy.nextUid)
    (named : fresh.versionId = versionId)
    (blank : ∀ index, fresh.presentAt index = false) :
    Carries content cache disk
      (LocalCache.saveIndex
        { roomy.issue [.createData fresh.uid versionId fresh.size,
            .createMap versionId fresh.present] with
          entries := roomy.entries.set versionId fresh
          nextUid := roomy.nextUid + 1 }) := by
  obtain ⟨fades, steps, passage⟩ := wanes
  have room := passage disk aligned
  have filed := Carries.file room.aligned missing fresh identity named blank
  have supply : roomy.nextUid = cache.nextUid := fades.nextUid
  let after : LocalCache := LocalCache.saveIndex
    { roomy.issue [.createData fresh.uid versionId fresh.size,
        .createMap versionId fresh.present] with
      entries := roomy.entries.set versionId fresh
      nextUid := roomy.nextUid + 1 }
  have lookup : ∀ other, after.entry other =
      if other = versionId then some fresh else roomy.entry other :=
    fun other => Dict.get?_set ..
  have old : ∀ other entry, after.entry other = some entry →
      entry.uid < cache.nextUid → roomy.entry other = some entry := by
    intro other entry found older
    rw [lookup] at found
    split at found
    · cases found
      omega
    · exact found
  refine ⟨steps ++ [.createData fresh.uid versionId fresh.size,
    .createMap versionId fresh.present,
    .replaceIndex (after.entries.values.map indexRecord)], ?_, ?_, ?_, ?_⟩
  · rw [← List.append_assoc, ← room.issued]
    exact filed.issued
  · rw [Disk.replay_append]
    exact filed.aligned
  · rw [Disk.replay_append]
    exact room.follows.trans filed.follows
  · apply Passes.append
    · exact room.passes.mono fun middle fading =>
        .of_fading fading.1 fading.2 aligned.fresh old
    · refine filed.passes.mono ?_
      intro middle place
      rcases place with rfl | rfl
      · exact .of_fading fades (.refl middle) aligned.fresh old
      · apply Between.right
        intro other entry found _
        have placed := (lookup other).symm.trans found
        split at placed
        · cases placed
          rw [CacheEntry.presentBytes_of_blank blank]
          exact Nat.zero_le _
        · obtain ⟨earlier, earlierFound, faded⟩ :=
            fades.entries other entry placed
          rw [faded.presentBytes]
          exact LocalCache.presentBytes_le_chargedFor earlierFound

end Admission

theorem LocalCache.makeRoom_fades (config : CacheConfig)
    (cache : LocalCache) (size : Nat) (newEntry : Bool) (keep : Option Nat)
    (free : FreeSpace) :
    Fades cache (cache.makeRoom config size newEntry keep free).1 := by
  have wanes : Wanes (fun _ => []) false false cache
      (cache.makeRoom config size newEntry keep free).1 :=
    .makeRoom config cache size newEntry keep free
  exact wanes.1

theorem Carries.admitEntry (config : CacheConfig) {cleared : LocalCache}
    (wanes : Wanes content false false cache cleared)
    (aligned : Aligned content false cache disk) (fs : String)
    (missing : cleared.entry versionId = none) (size charge : Nat) (now : Int)
    (writing : Bool) (free : FreeSpace) (refused : Option FileKind) :
    Carries content cache disk (cleared.admitEntry config fs versionId size
      charge now writing free refused).1 := by
  have roomy := wanes.trans
    (Wanes.makeRoom config cleared charge true none free)
  have gone : (cleared.makeRoom config charge true none free).1.entry
      versionId = none :=
    (LocalCache.makeRoom_fades config cleared charge true none
      free).none missing
  unfold LocalCache.admitEntry
  dsimp only
  split
  · exact roomy.carries aligned
  · unfold LocalCache.createFiles
    cases refused with
    | none =>
        exact roomy.carries_file aligned gone
          (LocalCache.newEntry config _ fs versionId size now writing) rfl rfl
          (LocalCache.newEntry_blank config _ fs versionId size now writing)
    | some kind =>
        cases kind with
        | data => exact (roomy.trans (.unlink _ gone)).carries aligned
        | map => exact (roomy.trans (.refusedMap gone _ _)).carries aligned

theorem LocalCache.removeExisting_entry (cache : LocalCache)
    (versionId : String) :
    (cache.removeExisting versionId).entry versionId = none := by
  unfold LocalCache.removeExisting LocalCache.remove LocalCache.drop
  cases found : cache.entries.get? versionId with
  | none =>
      have absent : cache.entries.contains versionId = false := by
        rw [Dict.contains, found]
        rfl
      rw [absent]
      exact found
  | some entry =>
      have present : cache.entries.contains versionId = true := by
        rw [Dict.contains, found]
        rfl
      rw [if_pos present]
      simp [LocalCache.entry, LocalCache.saveIndex, LocalCache.unlink,
        LocalCache.issue, Dict.get?_erase]

theorem Carries.openStaging (config : CacheConfig)
    (aligned : Aligned content false cache disk) (fs versionId : String)
    (size now : Int) (free : FreeSpace) (refused : Option FileKind) :
    Carries content cache disk (cache.openStaging config fs versionId size
      now free refused).1 := by
  unfold LocalCache.openStaging
  split
  · exact (Wanes.refl cache).carries aligned
  · dsimp only
    split
    · exact (Wanes.removeExisting cache versionId).carries aligned
    · exact .admitEntry config (.removeExisting cache versionId) aligned fs
        (cache.removeExisting_entry versionId) _ _ now true free refused

theorem Carries.reserve (config : CacheConfig)
    (aligned : Aligned content false cache disk) (fs versionId : String)
    (size now : Int) (free : FreeSpace) (refused : Option FileKind) :
    Carries content cache disk (cache.reserve config fs versionId size now
      free refused).1 := by
  unfold LocalCache.reserve
  split
  · exact (Wanes.refl cache).carries aligned
  · exact .admitEntry config (.removeExisting cache versionId) aligned fs
      (cache.removeExisting_entry versionId) _ _ now false free refused

end Tgdcfs
