import Tgdcfs.Cache.Waxes

/-!
# Operations that mark blocks

A fill and a staging writer mark blocks whose bytes have reached the data
file.  The map on disk follows flag by flag, so that a directory in the
middle shows a part of the new marks, each of them backed by its bytes.
-/

namespace Tgdcfs

open Lib

variable {content : String → List UInt8}

namespace CacheEntry

theorem ext_present {left right : CacheEntry} (present : left.present =
    right.present) (rest : { left with
      present := right.present
      present_length := present ▸ left.present_length } = right) :
    left = right := by
  obtain ⟨⟩ := left
  dsimp only at present
  subst present
  exact rest

theorem mark_mark (entry : CacheEntry) (first second : List Nat) :
    (entry.mark first).mark second = entry.mark (first ++ second) := by
  have flags : ((entry.mark first).mark second).present =
      (entry.mark (first ++ second)).present := by
    apply List.ext_getElem?
    intro index
    simp only [mark, List.getElem?_mapIdx, Option.map_map, List.mem_append]
    cases entry.present[index]? with
    | none => rfl
    | some flag => cases flag <;> simp
  exact ext_present flags rfl

theorem mark_nil (entry : CacheEntry) : entry.mark [] = entry := by
  have flags : (entry.mark []).present = entry.present := by
    apply List.ext_getElem?
    intro index
    simp [mark, List.getElem?_mapIdx]
  exact ext_present flags rfl

theorem mark_singleton_present (entry : CacheEntry) (index : Nat) :
    (entry.mark [index]).present = entry.present.set index true := by
  apply List.ext_getElem?
  intro other
  simp only [mark, List.getElem?_mapIdx, List.getElem?_set,
    List.mem_singleton]
  by_cases same : index = other
  · subst same
    cases found : entry.present[index]? with
    | none => simp [List.getElem?_eq_none_iff.mp found]
    | some flag =>
        have inside := (List.getElem?_eq_some_iff.mp found).1
        simp [inside]
  · cases entry.present[other]? with
    | none => simp [same]
    | some flag => simp [same, Ne.symm same]

theorem isComplete_iff {entry : CacheEntry} :
    entry.isComplete = true ↔
      entry.size = 0 ∨
        ∀ index < entry.blocks, entry.presentAt index = true := by
  simp only [isComplete, Bool.or_eq_true, beq_iff_eq, List.all_eq_true, id]
  refine or_congr Iff.rfl ⟨?_, ?_⟩
  · intro whole index inside
    rw [presentAt, List.getD_eq_getElem?_getD,
      List.getElem?_eq_getElem inside]
    exact whole _ (List.getElem_mem inside)
  · intro whole flag member
    obtain ⟨index, inside, rfl⟩ := List.mem_iff_getElem.mp member
    have here := whole index inside
    rwa [presentAt, List.getD_eq_getElem?_getD,
      List.getElem?_eq_getElem inside] at here

theorem isComplete_mark {entry : CacheEntry} {marked more : List Nat}
    (included : marked ⊆ more)
    (complete : (entry.mark marked).isComplete = true) :
    (entry.mark more).isComplete = true := by
  rw [isComplete_iff] at complete ⊢
  refine complete.imp_right fun whole index inside => ?_
  rw [mark_blocks] at inside
  have here := whole index (by rwa [mark_blocks])
  rw [presentAt_mark] at here ⊢
  simp only [Bool.or_eq_true, decide_eq_true_eq] at here ⊢
  exact here.imp_right fun member => ⟨member.1, included member.2⟩

theorem missingBytes_le_of_sublist (entry : CacheEntry)
    {fewer indices : List Nat} (sublist : fewer.Sublist indices) :
    entry.missingBytes fewer ≤ entry.missingBytes indices :=
  (sublist.map _).sum_le_sum fun _ _ => Nat.zero_le _

theorem Faded.missingBytes {before after : CacheEntry}
    (faded : before.Faded after) (indices : List Nat) :
    after.missingBytes indices = before.missingBytes indices := by
  have blocks := blocks_congr faded.size faded.blockSize
  rw [CacheEntry.missingBytes, CacheEntry.missingBytes]
  congr 1
  apply List.map_congr_left
  intro index _
  rw [faded.presentAt, blockLength, blockLength, blocks, faded.size,
    faded.blockSize]

end CacheEntry

namespace LocalCache

theorem update_entry (cache : LocalCache) (versionId : String) (uid : Nat)
    (change : CacheEntry → CacheEntry) (other : String) :
    (cache.update versionId uid change).entry other =
      if other = versionId then (cache.entry other).map fun entry =>
        if entry.uid = uid then change entry else entry
      else cache.entry other :=
  Dict.get?_modify ..

/-- Mark blocks of one entry object in memory. -/
def marked (cache : LocalCache) (versionId : String) (uid : Nat)
    (indices : List Nat) : LocalCache :=
  cache.update versionId uid fun entry => entry.mark indices

theorem marked_nil (cache : LocalCache) (versionId : String) (uid : Nat) :
    (cache.marked versionId uid []).entries = cache.entries := by
  have same : (fun entry : CacheEntry =>
      if entry.uid = uid then entry.mark [] else entry) = id := by
    funext entry
    rw [CacheEntry.mark_nil, ite_self]
    rfl
  simp only [marked, update, same]
  obtain ⟨items, nodup⟩ := cache.entries
  simp [Dict.modify]

theorem marked_marked (cache : LocalCache) (versionId : String) (uid : Nat)
    (first second : List Nat) :
    (cache.marked versionId uid first).marked versionId uid second =
      cache.marked versionId uid (first ++ second) := by
  simp only [marked, update, Dict.modify_modify]
  congr 2
  funext entry
  by_cases same : entry.uid = uid
  · have still : (entry.mark first).uid = uid := same
    simp only [if_pos same, if_pos still, CacheEntry.mark_mark]
  · simp only [if_neg same]

end LocalCache

/-- The bytes of some blocks are on the disk. -/
def Landed (content : String → List UInt8) (disk : Disk)
    (versionId : String) (entry : CacheEntry) (indices : List Nat) : Prop :=
  ∀ bytes, disk.data versionId = some bytes →
    ∀ offset < entry.size, offset / entry.blockSize ∈ indices →
      Agrees (content versionId) bytes offset

section Marking

variable {dirty : Bool} {cache : LocalCache} {disk : Disk}
  {versionId : String} {entry : CacheEntry}

theorem Aligned.markBlock (aligned : Aligned content dirty cache disk)
    (found : cache.entry versionId = some entry) (index : Nat)
    (landed : Landed content disk versionId entry [index]) :
    Aligned content dirty (cache.marked versionId entry.uid [index])
      (disk.apply (.writeMap versionId index)) := by
  have lookup := cache.update_entry versionId entry.uid
    fun entry => entry.mark [index]
  have here : (cache.marked versionId entry.uid [index]).entry versionId =
      some (entry.mark [index]) := by
    refine (lookup versionId).trans ?_
    rw [if_pos rfl, found, Option.map_some, if_pos rfl]
  have elsewhere : ∀ other, other ≠ versionId →
      (cache.marked versionId entry.uid [index]).entry other =
        cache.entry other := fun other different =>
    (lookup other).trans (if_neg different)
  have maps : ∀ other, (disk.apply (.writeMap versionId index)).maps.get?
      other = if other = versionId then (disk.maps.get? other).map
        fun flags => flags.set index true else disk.maps.get? other :=
    fun other => Dict.get?_modify ..
  refine ⟨⟨?_, ?_, ?_, aligned.mirrors.distinct⟩, ?_, ?_, ?_, ?_⟩
  · intro other later laterFound
    by_cases same : other = versionId
    · subst same
      rw [here] at laterFound
      cases laterFound
      obtain ⟨map, bytes, linked, enough, marked⟩ :=
        aligned.mirrors.stored other entry found
      refine ⟨?_, bytes, linked, enough, ?_⟩
      · rw [maps, if_pos rfl, map, CacheEntry.mark_singleton_present]
        rfl
      · intro offset inside present
        have cases_ := (entry.presentAt_mark [index]
          (offset / entry.blockSize)).symm.trans present
        simp only [Bool.or_eq_true, decide_eq_true_eq] at cases_
        rcases cases_ with before | new
        · exact marked offset inside before
        · exact landed bytes linked offset inside new.2
    · rw [elsewhere other same] at laterFound
      obtain ⟨map, data⟩ := aligned.mirrors.stored other later laterFound
      exact ⟨(maps other).trans ((if_neg same).trans map), data⟩
  · intro record member
    by_cases same : record.versionId = versionId
    · rcases aligned.mirrors.recorded record member with
        ⟨other, otherFound, describes⟩ | ⟨gone, _⟩
      · rw [same, found] at otherFound
        cases otherFound
        exact .inl ⟨entry.mark [index], same ▸ here,
          ⟨describes.size, describes.blockSize, describes.writing⟩⟩
      · rw [same, found] at gone
        cases gone
    · rw [elsewhere _ same]
      exact aligned.mirrors.recorded record member
  · intro other later laterFound
    by_cases same : other = versionId
    · subst same
      rw [here] at laterFound
      cases laterFound
      exact aligned.mirrors.listed other entry found
    · rw [elsewhere other same] at laterFound
      exact aligned.mirrors.listed other later laterFound
  · intro other later laterFound
    by_cases same : other = versionId
    · subst same
      rw [here] at laterFound
      cases laterFound
      exact aligned.keyed other entry found
    · rw [elsewhere other same] at laterFound
      exact aligned.keyed other later laterFound
  · intro other later laterFound
    by_cases same : other = versionId
    · subst same
      rw [here] at laterFound
      cases laterFound
      exact aligned.fresh other entry found
    · rw [elsewhere other same] at laterFound
      exact aligned.fresh other later laterFound
  · intro other gone
    by_cases same : other = versionId
    · subst same
      rw [here] at gone
      cases gone
    · exact aligned.absent other ((elsewhere other same).symm.trans gone)
  · intro clean record member
    by_cases same : record.versionId = versionId
    · rw [same, here]
      rfl
    · rw [elsewhere _ same]
      exact aligned.current clean record member

/-- Marking block after block; in the middle a first part is marked. -/
theorem Aligned.markBlocks {indices : List Nat}
    (aligned : Aligned content dirty cache disk)
    (found : cache.entry versionId = some entry)
    (landed : Landed content disk versionId entry indices) :
    let steps := indices.map (DiskStep.writeMap versionId)
    Aligned content dirty (cache.marked versionId entry.uid indices)
        (disk.replay steps) ∧
      disk.Extends content (disk.replay steps) ∧
      (disk.replay steps).paths = disk.paths ∧
      Passes content (fun middle => ∃ part, part <+: indices ∧
        middle = cache.marked versionId entry.uid part) disk steps := by
  induction indices generalizing cache disk entry with
  | nil =>
      have start := aligned.congr
        (cache.marked versionId entry.uid [])
        (cache.marked_nil versionId entry.uid) rfl
      exact ⟨start, .refl disk, rfl,
        .nil start.mirrors ⟨[], List.nil_prefix, rfl⟩⟩
  | cons index indices induction =>
      have start := aligned.congr
        (cache.marked versionId entry.uid [])
        (cache.marked_nil versionId entry.uid) rfl
      have first : Landed content disk versionId entry [index] :=
        fun bytes linked offset inside member => landed bytes linked offset
          inside (List.mem_cons.mpr (.inl (List.mem_singleton.mp member)))
      have marked := aligned.markBlock found index first
      have here : (cache.marked versionId entry.uid [index]).entry
          versionId = some (entry.mark [index]) := by
        refine (cache.update_entry versionId entry.uid _ versionId).trans ?_
        rw [if_pos rfl, found, Option.map_some, if_pos rfl]
      obtain ⟨last, extended, paths, passes⟩ := induction marked here
        fun bytes linked offset inside member => landed bytes linked offset
          inside (List.mem_cons_of_mem _ member)
      have joined : ∀ part,
          (cache.marked versionId entry.uid [index]).marked versionId
            (entry.mark [index]).uid part =
              cache.marked versionId entry.uid (index :: part) :=
        fun part => cache.marked_marked versionId entry.uid [index] part
      refine ⟨joined indices ▸ last, ?_, paths, ?_⟩
      · have single : disk.Extends content
            (disk.apply (.writeMap versionId index)) :=
          .of_files rfl rfl rfl fun _ _ linked => linked
        exact single.trans extended
      · refine .cons start.mirrors ⟨[], List.nil_prefix, rfl⟩ ?_
        refine passes.mono ?_
        rintro middle ⟨part, prefix_, rfl⟩
        exact ⟨index :: part, List.cons_prefix_cons.mpr ⟨rfl, prefix_⟩,
          joined part⟩

end Marking

variable {before : LocalCache} {disk : Disk}

theorem Carries.touched {after : LocalCache}
    (carries : Carries content before disk after) (versionId : String)
    (uid : Nat) (lastAccess : CacheEntry → Int) :
    Carries content before disk (after.update versionId uid fun entry =>
      { entry with lastAccess := lastAccess entry }) := by
  let touch : CacheEntry → CacheEntry :=
    fun entry => { entry with lastAccess := lastAccess entry }
  obtain ⟨steps, passage⟩ := carries
  have wanes : Wanes content false false after
      (after.update versionId uid touch) :=
    .relabel after versionId uid CacheEntry.pins CacheEntry.inflight
      lastAccess CacheEntry.pinnedAt fun _ => le_rfl
  obtain ⟨fades, more, touched⟩ := wanes
  have next := touched _ passage.aligned
  have nothing : more = [] := by
    have same := next.issued
    rw [show (after.update versionId uid touch).issued = after.issued
      from rfl] at same
    exact List.self_eq_append_right.mp same
  subst nothing
  have lookup : ∀ other entry, after.entry other = some entry →
      ∃ later, (after.update versionId uid touch).entry other = some later ∧
        later.uid = entry.uid ∧ later.pins = entry.pins ∧
        later.writing = entry.writing ∧
        later.isComplete = entry.isComplete := by
    intro other entry found
    rw [LocalCache.update_entry, found]
    split
    · refine ⟨_, rfl, ?_⟩
      dsimp only
      split
      · exact ⟨rfl, rfl, rfl, rfl⟩
      · exact ⟨rfl, rfl, rfl, rfl⟩
    · exact ⟨entry, rfl, rfl, rfl, rfl, rfl⟩
  refine ⟨steps, passage.issued, next.aligned, ?_, ?_⟩
  · exact passage.follows.trans next.follows
  · refine passage.passes.mono ?_
    intro middle between
    refine ⟨?_, between.bounded, ?_, ?_⟩
    · intro other complete
      refine (between.complete other complete).imp_right fun whole => ?_
      obtain ⟨entry, found, settled, all⟩ :=
        LocalCache.complete_iff.mp whole
      obtain ⟨later, laterFound, _, _, writing, complete'⟩ :=
        lookup other entry found
      exact LocalCache.complete_iff.mpr ⟨later, laterFound,
        writing.trans settled, complete'.trans all⟩
    · intro other earlier later earlierFound laterFound same pinned
        stillPinned complete complete'
      obtain ⟨entry, found, faded⟩ :=
        fades.entries other later laterFound
      rw [faded.size]
      exact between.kept other earlier entry earlierFound found
        (faded.uid.symm.trans same) pinned
        (lt_of_lt_of_le stillPinned faded.pins) complete
        (fades.complete complete')
    · rw [show (after.update versionId uid touch).entries.size =
        after.entries.size from Dict.size_modify ..]
      exact between.size

section Marked

variable {before opened after : LocalCache} {disk : Disk}
  {versionId : String} {entry : CacheEntry} {changed : List Nat}

theorem LocalCache.marked_entry {cache : LocalCache}
    (found : cache.entry versionId = some entry) (part : List Nat)
    (other : String) :
    (cache.marked versionId entry.uid part).entry other =
      if other = versionId then some (entry.mark part)
      else cache.entry other := by
  refine (cache.update_entry ..).trans ?_
  split
  · rename_i same
    rw [same, found, Option.map_some, if_pos rfl]
  · rfl

/-- Before the marks: the entry that will be marked has only faded. -/
theorem Between.unmarked {middle : LocalCache}
    (fading : Fading before middle opened)
    (found : opened.entry versionId = some entry)
    (lookup : ∀ other, after.entry other =
      if other = versionId then some (entry.mark changed)
      else opened.entry other) : Between before middle after := by
  refine ⟨fun other complete => .inl (fading.1.complete complete), ?_, ?_,
    .inl fading.1.size⟩
  · intro other present presentFound _
    obtain ⟨old, oldFound, stage⟩ :=
      fading.1.entries other present presentFound
    rw [stage.presentBytes]
    exact LocalCache.presentBytes_le_chargedFor oldFound
  · intro other old later oldFound laterFound _ _ stillPinned complete _
    obtain ⟨bare, bareFound, pins⟩ : ∃ bare,
        opened.entry other = some bare ∧ bare.pins = later.pins := by
      have placed := (lookup other).symm.trans laterFound
      split at placed
      · rename_i here
        cases placed
        exact ⟨entry, here ▸ found, rfl⟩
      · exact ⟨later, placed, rfl⟩
    obtain ⟨present, presentFound, stage⟩ :=
      fading.2.entries other bare bareFound
    obtain ⟨old', oldFound', stage'⟩ :=
      fading.1.entries other present presentFound
    obtain ⟨old'', oldFound'', settled, whole⟩ :=
      LocalCache.complete_iff.mp complete
    rw [oldFound] at oldFound' oldFound''
    cases oldFound'
    cases oldFound''
    refine ⟨LocalCache.complete_iff.mpr ⟨present, presentFound,
      stage'.writing.trans settled, stage'.isComplete.trans whole⟩,
      present, presentFound, ?_, .inl stage'.size⟩
    have enough := stage.pins
    omega

/-- Between two marks: what is marked so far has been charged for. -/
theorem Between.marked (fades : Fades before opened)
    (found : opened.entry versionId = some entry)
    (lookup : ∀ other, after.entry other =
      if other = versionId then some (entry.mark changed)
      else opened.entry other)
    (slack : ∀ earlier, before.entry versionId = some earlier →
      earlier.uid = entry.uid → earlier.writing = false →
        earlier.missingBytes changed ≤ earlier.inflight)
    {part : List Nat} (started : part <+: changed) :
    Between before (opened.marked versionId entry.uid part) after := by
  have middle := LocalCache.marked_entry found part
  obtain ⟨earlier, earlierFound, faded⟩ :=
    fades.entries versionId entry found
  refine ⟨?_, ?_, ?_, .inl ?_⟩
  · intro other complete
    obtain ⟨present, presentFound, settled, whole⟩ :=
      LocalCache.complete_iff.mp complete
    have placed := (middle other).symm.trans presentFound
    split at placed
    · rename_i same
      cases placed
      exact .inr (LocalCache.complete_iff.mpr ⟨entry.mark changed,
        (lookup other).trans (if_pos same), settled,
        CacheEntry.isComplete_mark started.subset whole⟩)
    · exact .inl (fades.complete (LocalCache.complete_iff.mpr
        ⟨present, placed, settled, whole⟩))
  · intro other present presentFound settled
    have placed := (middle other).symm.trans presentFound
    split at placed
    · rename_i same
      cases placed
      subst same
      have idle : earlier.writing = false :=
        faded.writing.symm.trans settled
      have grown := entry.presentBytes_mark_le part
      have fewer := entry.missingBytes_le_of_sublist started.sublist
      have room := slack earlier earlierFound faded.uid.symm idle
      rw [faded.missingBytes changed] at fewer
      rw [faded.presentBytes] at grown
      rw [LocalCache.chargedFor, earlierFound, Option.map_some,
        Option.getD_some, CacheEntry.chargedBytes_of_idle idle]
      omega
    · obtain ⟨old, oldFound, stage⟩ := fades.entries other present placed
      rw [stage.presentBytes]
      exact LocalCache.presentBytes_le_chargedFor oldFound
  · intro other old later oldFound laterFound _ _ stillPinned complete
      complete'
    have placed := (lookup other).symm.trans laterFound
    split at placed
    · rename_i here
      cases placed
      subst here
      rw [oldFound] at earlierFound
      cases earlierFound
      obtain ⟨old', oldFound', settled, whole⟩ :=
        LocalCache.complete_iff.mp complete
      rw [oldFound] at oldFound'
      cases oldFound'
      have all : entry.isComplete = true := faded.isComplete.trans whole
      rw [← entry.mark_nil] at all
      exact ⟨LocalCache.complete_iff.mpr ⟨entry.mark part,
        (middle _).trans (if_pos rfl), faded.writing.trans settled,
        CacheEntry.isComplete_mark (List.nil_subset _) all⟩,
        entry.mark part, (middle _).trans (if_pos rfl), stillPinned,
        .inr rfl⟩
    · rename_i elsewhere
      obtain ⟨later', laterFound', rest⟩ :=
        LocalCache.complete_iff.mp complete'
      rw [laterFound] at laterFound'
      cases laterFound'
      have kept := (middle other).trans ((if_neg elsewhere).trans placed)
      exact ⟨LocalCache.complete_iff.mpr ⟨later, kept, rest⟩, later, kept,
        stillPinned, .inr rfl⟩
  · rw [show (opened.marked versionId entry.uid part).entries.size =
      opened.entries.size from Dict.size_modify ..]
    exact fades.size

end Marked

/-- Marks that follow a first part of an operation.  `slack` says that the
blocks of a settled entry have been charged for. -/
theorem Carries.marked {opened : LocalCache} {steps : List DiskStep}
    (aligned : Aligned content false before disk)
    (opening : Passage content Fading false before disk steps opened)
    (fades : Fades before opened) (versionId : String) (uid : Nat)
    (indices : List Nat)
    (landed : ∀ entry, opened.entry versionId = some entry →
      entry.uid = uid →
        Landed content (disk.replay steps) versionId entry indices)
    (slack : ∀ entry, before.entry versionId = some entry →
      entry.uid = uid → entry.writing = false →
        entry.missingBytes indices ≤ entry.inflight) :
    Carries content before disk
      (opened.markPresent versionId uid indices) := by
  have idle : Carries content before disk opened := by
    refine ⟨steps, opening.issued, opening.aligned, opening.follows,
      opening.passes.mono fun middle fading => ?_⟩
    exact .of_fading fading.1 fading.2 aligned.fresh fun _ _ found _ => found
  unfold LocalCache.markPresent
  cases found : opened.entry versionId with
  | none => exact idle
  | some entry =>
      dsimp only
      split
      · exact idle
      · rename_i identical
        obtain rfl : entry.uid = uid := not_not.mp identical
        let changed := indices.filter fun index => !entry.presentAt index
        have sublist : changed.Sublist indices := List.filter_sublist
        have backed : Landed content (disk.replay steps) versionId entry
            changed := fun bytes linked offset inside member =>
          landed entry found rfl bytes linked offset inside
            (sublist.subset member)
        obtain ⟨last, extended, paths, passes⟩ :=
          opening.aligned.markBlocks found backed
        let after := (opened.marked versionId entry.uid changed).issue
          (changed.map (DiskStep.writeMap versionId))
        have lookup : ∀ other, after.entry other =
            if other = versionId then some (entry.mark changed)
            else opened.entry other :=
          LocalCache.marked_entry found changed
        have charged : ∀ earlier, before.entry versionId = some earlier →
            earlier.uid = entry.uid → earlier.writing = false →
              earlier.missingBytes changed ≤ earlier.inflight :=
          fun earlier earlierFound same settled =>
            (earlier.missingBytes_le_of_sublist sublist).trans
              (slack earlier earlierFound same settled)
        refine ⟨steps ++ changed.map (DiskStep.writeMap versionId), ?_, ?_,
          ?_, ?_⟩
        · rw [← List.append_assoc, ← opening.issued]
          rfl
        · rw [Disk.replay_append]
          exact last.congr _ rfl rfl
        · rw [Disk.replay_append]
          refine opening.follows.trans ⟨extended, le_rfl, ?_⟩
          intro other later laterFound _
          refine ⟨?_, congrArg (Dict.get? · other) paths⟩
          have placed := (lookup other).symm.trans laterFound
          split at placed
          · rename_i same
            cases placed
            exact ⟨entry, same ▸ found, rfl⟩
          · exact ⟨later, placed, rfl⟩
        · apply Passes.append
          · exact opening.passes.mono fun middle fading =>
              .unmarked fading found lookup
          · refine passes.mono ?_
            rintro middle ⟨part, started, rfl⟩
            exact .marked fades found lookup charged started

variable {cache : LocalCache}

theorem Carries.commitBlocks (aligned : Aligned content false cache disk)
    (fill : Fill) (now : Int)
    (honest : fill.data <+: (content fill.versionId).drop fill.begin_)
    (covers : ∀ entry, cache.entry fill.versionId = some entry →
      entry.uid = fill.uid → ∀ offset < entry.size,
        offset / entry.blockSize ∈ fill.blocks →
          fill.begin_ ≤ offset ∧ offset < fill.begin_ + fill.data.length)
    (slack : ∀ entry, cache.entry fill.versionId = some entry →
      entry.uid = fill.uid → entry.writing = false →
        entry.missingBytes fill.blocks ≤ entry.inflight) :
    Carries content cache disk (cache.commitBlocks fill now) := by
  refine Carries.touched ?_ fill.versionId fill.uid fun _ => now
  have written : Wanes content false false cache
      (cache.issue [.writeData (.path fill.versionId) fill.begin_
        fill.data]) := .writePath cache honest
  obtain ⟨fades, steps, passage⟩ := written.trans (.returnClaim _ fill)
  have opening := passage disk aligned
  have single : steps =
      [.writeData (.path fill.versionId) fill.begin_ fill.data] := by
    have issued := opening.issued
    exact (List.append_cancel_left issued).symm
  subst single
  refine .marked aligned opening fades _ _ _ ?_ slack
  intro entry found same bytes linked offset inside member
  obtain ⟨earlier, earlierFound, faded⟩ := fades.entries _ entry found
  obtain ⟨from_, below⟩ := covers earlier earlierFound
    (faded.uid.symm.trans same) offset (faded.size ▸ inside)
    (faded.blockSize ▸ member)
  have path : ∀ other,
      (disk.replay [.writeData (.path fill.versionId) fill.begin_
        fill.data]).paths.get? other = disk.paths.get? other :=
    fun other => congrArg (Dict.get? · other) (disk.writeData_paths ..)
  obtain ⟨inode, here, rfl⟩ := Option.map_eq_some_iff.mp linked
  rw [path] at here
  have file := disk.writeData_files (.path fill.versionId) fill.begin_
    fill.data inode
  rw [Disk.inode, if_pos here] at file
  rw [show (disk.replay [.writeData (.path fill.versionId) fill.begin_
    fill.data]).files inode = _ from file]
  exact agrees_writeAt_inside honest from_ below

theorem LocalCache.markPresent_issued (cache : LocalCache)
    (versionId : String) (uid : Nat) (indices : List Nat) :
    ∃ changed : List Nat, (cache.markPresent versionId uid indices).issued =
      cache.issued ++ changed.map (DiskStep.writeMap versionId) := by
  unfold LocalCache.markPresent
  split
  · exact ⟨[], by simp⟩
  · split
    · exact ⟨[], by simp⟩
    · exact ⟨_, rfl⟩

theorem Disk.data_replay_writeMap (disk : Disk) (versionId : String)
    (indices : List Nat) (other : String) :
    (disk.replay (indices.map (DiskStep.writeMap versionId))).data other =
      disk.data other := by
  induction indices generalizing disk with
  | nil => rfl
  | cons index indices induction => exact induction _

/-- What a staging writer has on the disk: its handle stays on the file it
was opened on, and while its entry is there the bytes written so far are
those of the version. -/
structure WriterOn (content : String → List UInt8) (cache : LocalCache)
    (disk : Disk) (writer : StagingWriter) : Prop where
  own : ∀ versionId inode, disk.handles writer.uid = some inode →
    disk.paths.get? versionId = some inode → versionId = writer.versionId
  current : ∀ entry inode,
    cache.entry writer.versionId = some entry → entry.uid = writer.uid →
      disk.handles writer.uid = some inode →
        disk.paths.get? writer.versionId = some inode
  written : writer.failed = false → ∀ entry bytes,
    cache.entry writer.versionId = some entry → entry.uid = writer.uid →
      disk.data writer.versionId = some bytes →
        ∀ offset < writer.offset,
          Agrees (content writer.versionId) bytes offset

variable {writer : StagingWriter}

theorem WriterOn.faithful (on : WriterOn content cache disk writer)
    {bytes : List UInt8}
    (honest : bytes <+: (content writer.versionId).drop writer.offset) :
    disk.Faithful content (.handle writer.uid) writer.offset bytes := by
  intro versionId inode opened linked
  rw [on.own versionId inode opened linked]
  exact honest

theorem WriterOn.follows {after : LocalCache} {later : Disk}
    (on : WriterOn content before disk writer)
    (older : writer.uid < before.nextUid)
    (follows : DiskFollows content before disk after later) :
    WriterOn content after later writer := by
  have handles := follows.extended.handles
  refine ⟨?_, ?_, ?_⟩
  · intro versionId inode opened linked
    rw [handles] at opened
    rcases follows.extended.paths versionId inode linked with before_ | new
    · exact on.own versionId inode opened before_
    · have below := disk.handles_lt writer.uid inode opened
      omega
  · intro entry inode found same opened
    obtain ⟨⟨earlier, earlierFound, identity⟩, path⟩ :=
      follows.kept _ entry found (same ▸ older)
    rw [path]
    exact on.current earlier inode earlierFound (identity.trans same)
      (handles ▸ opened)
  · intro intact entry bytes found same linked offset written
    obtain ⟨⟨earlier, earlierFound, identity⟩, path⟩ :=
      follows.kept _ entry found (same ▸ older)
    obtain ⟨inode, here, rfl⟩ := Option.map_eq_some_iff.mp linked
    have before_ : disk.paths.get? writer.versionId = some inode :=
      path ▸ here
    apply (follows.extended.files _ inode before_ here).2
    refine on.written intact earlier _ earlierFound (identity.trans same) ?_
      offset written
    rw [Disk.data, before_]
    rfl

/-- After a staged write the bytes up to the new offset are on the disk. -/
theorem WriterOn.landed (on : WriterOn content cache disk writer)
    (intact : writer.failed = false)
    (opened : (disk.handles writer.uid).isSome) {entry : CacheEntry}
    (found : cache.entry writer.versionId = some entry)
    (same : entry.uid = writer.uid) {bytes : List UInt8}
    (honest : bytes <+: (content writer.versionId).drop writer.offset) :
    ∀ file, (disk.writeData (.handle writer.uid) writer.offset bytes).data
        writer.versionId = some file →
      ∀ offset < writer.offset + bytes.length,
        Agrees (content writer.versionId) file offset := by
  intro file linked offset inside
  obtain ⟨inode, handle⟩ := Option.isSome_iff_exists.mp opened
  have path := on.current entry inode found same handle
  have before_ : disk.data writer.versionId = some (disk.files inode) := by
    rw [Disk.data, path]
    rfl
  have after : (disk.writeData (.handle writer.uid) writer.offset
      bytes).data writer.versionId =
        some (writeAt 0 (disk.files inode) writer.offset bytes) := by
    rw [Disk.data, disk.writeData_paths, path, Option.map_some,
      disk.writeData_files, Disk.inode, if_pos handle]
  rw [after] at linked
  cases linked
  by_cases early : offset < writer.offset
  · exact (on.written intact entry _ found same before_ offset early).writeAt
      honest
  · exact agrees_writeAt_inside honest (Nat.le_of_not_lt early) inside

theorem StagingWriter.write_marks {entry : CacheEntry}
    (matches_ : writer.Matches entry) {length : Nat} :
    ∀ offset < entry.size, offset / entry.blockSize ∈
      List.range (if writer.size ≤ length then writer.blocks
        else length / writer.blockSize) → offset < length := by
  intro offset inside member
  rw [List.mem_range] at member
  split at member
  · rename_i whole
    rw [matches_.size] at inside
    exact lt_of_lt_of_le inside whole
  · rw [matches_.blockSize] at member
    by_contra behind
    have later : length / writer.blockSize ≤ offset / writer.blockSize :=
      Nat.div_le_div_right (Nat.le_of_not_lt behind)
    omega

theorem Carries.write (aligned : Aligned content false cache disk)
    (fits : writer.Fits cache) (on : WriterOn content cache disk writer)
    {data : List UInt8}
    (opened : writer.failed = true ∨ data.isEmpty = true ∨
      (disk.handles writer.uid).isSome)
    (honest : writer.failed = false →
      data <+: (content writer.versionId).drop writer.offset) :
    Carries content cache disk (writer.write cache data).2 := by
  unfold StagingWriter.write
  split
  · exact (Wanes.refl cache).carries aligned
  · rename_i active
    simp only [Bool.or_eq_true, not_or, Bool.not_eq_true] at active
    have handle : (disk.handles writer.uid).isSome := by
      rcases opened with failed | empty | opened
      · simp [active.1] at failed
      · simp [active.2] at empty
      · exact opened
    have opening := Passage.written aligned (on.faithful (honest active.1))
    refine .marked aligned opening (.of_entries_eq rfl rfl) _ _ _ ?_ ?_
    · intro entry found same file linked offset inside member
      exact on.landed active.1 handle found same (honest active.1) file
        linked offset
        (StagingWriter.write_marks (fits.2 entry found same) offset inside
          member)
    · intro entry found same settled
      have matches_ := fits.2 entry found same
      have whole := matches_.settled settled
      have nothing := entry.missingBytes_range_le
        (CacheInvariant.write_done_le matches_
          (writer.offset + data.length))
      rw [CacheEntry.Whole] at whole
      omega

end Tgdcfs
