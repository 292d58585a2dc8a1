import Tgdcfs.Core.FileStats

/-!
# Stats that stay current

A stat on a ref, or in a fill that is about to put it there, is the one of the
stored descriptor unless a write that has committed is about to drop it.
Writes keep that for the ref they were given; a ref that a move made
meanwhile, a second ref of the descriptor and what the background worker
writes are not invalidated.
-/

namespace Tgdcfs

open Lib

variable {reader : StatReader} {state next : StatState}

/-- The stat of a ref, or the one it is given when the stats of its directory
are loaded. -/
def StatRef.Shows (reader : StatReader) (ref : StatRef) (stat : FileStat) :
    Prop :=
  ref.stat = some stat ∨
    (ref.stat = none ∧ ref.statEpoch = 0 ∧
      reader.kept ref.messageId = some stat)

/-- The descriptor of the ref has the stat. -/
def StatRef.Describes (reader : StatReader) (texts : FDRepository.Texts)
    (ref : StatRef) (stat : FileStat) : Prop :=
  ∃ text, texts.get? ref.messageId = some text ∧ reader.Computes text stat

theorem StatRef.Describes.set {texts : FDRepository.Texts} {ref : StatRef}
    {stat : FileStat} (describes : ref.Describes reader texts stat)
    {messageId : Int} {text : DescSerialized}
    (same : ref.messageId = messageId → reader.Computes text stat) :
    ref.Describes reader (texts.set messageId text) stat := by
  obtain ⟨old, found, computes⟩ := describes
  unfold StatRef.Describes
  rw [Dict.get?_set]
  split
  · rename_i here
    exact ⟨text, rfl, same here⟩
  · exact ⟨old, found, computes⟩

theorem StatRef.Shows.of_load {ref : StatRef} {stat : FileStat}
    (shows : (ref.load reader.kept).Shows reader stat) :
    ref.Shows reader stat := by
  unfold StatRef.load at shows
  split at shows
  · rename_i fresh
    rcases shows with loaded | ⟨_, _, found⟩
    · exact .inr ⟨fresh.1, fresh.2, loaded⟩
    · exact .inr ⟨fresh.1, fresh.2, found⟩
  · exact shows

theorem StatRef.load_fields (kept : Int → Option FileStat) (ref : StatRef) :
    (ref.load kept).messageId = ref.messageId ∧
      (ref.load kept).attached = ref.attached ∧
      (ref.load kept).statEpoch = ref.statEpoch := by
  unfold StatRef.load
  split <;> exact ⟨rfl, rfl, rfl⟩

theorem StatRef.fill_fields (read : StatFill) (ref : StatRef) :
    (ref.fill read).messageId = ref.messageId ∧
      (ref.fill read).attached = ref.attached ∧
      (ref.fill read).statEpoch = ref.statEpoch := by
  unfold StatRef.fill
  split
  · split <;> exact ⟨rfl, rfl, rfl⟩
  · exact ⟨rfl, rfl, rfl⟩

theorem FDRepository.pointAtReadable_complete (repo : FDRepository)
    (desc : TGFSFileDesc) (hasValid : Bool) (now : DateTime) :
    (repo.pointAtReadable desc hasValid now).complete = desc.complete := by
  unfold pointAtReadable
  dsimp only
  split
  · split
    · rfl
    · split <;> rfl
  · rfl

/-- What a fill reads undisturbed is the stat of the descriptor. -/
theorem StatReader.Undisturbed.computes {answers : Answers}
    {text : DescSerialized} (undisturbed : reader.Undisturbed answers text)
    {name : Name} {now : DateTime} {stat : FileStat}
    (read : reader.stat answers name now text = some stat) :
    reader.Computes text stat := by
  refine ⟨name, now, ?_⟩
  unfold StatReader.stat at read ⊢
  split at read
  · cases read
  · rename_i desc served
    split at read
    · rename_i complete
      rw [undisturbed name now desc served complete]
      simpa only [complete, if_true] using read
    · cases read

/-- A read is disturbed only if it asks the stores, the primary answers, and
another one does not answer as it should. -/
theorem StatReader.undisturbed {answers : Answers} (text : DescSerialized)
    (reached : reader.validate = true → answers = reader.answers ∨
      ∀ ids, answers .parts ids = none) : reader.Undisturbed answers text := by
  intro name now desc served complete
  unfold FDRepository.readText at served ⊢
  split at served
  · cases served
  · dsimp only at served ⊢
    split at served
    · rename_i validates
      rw [if_pos validates]
      rcases reached validates with rfl | unreached
      · exact served
      · unfold FDRepository.validateFv at served
        rw [unreached] at served
        dsimp only at served
        split at served
        · cases served
        · cases served
          rw [FDRepository.pointAtReadable_complete] at complete
          simp at complete
    · rename_i trusts
      rw [if_neg trusts]
      exact served

/-- A committed write of the ref has not invalidated it yet. -/
def Pending (writes : Dict Nat StatWrite) (id : Nat) : Prop :=
  ∃ call write, writes.get? call = some write ∧ write.ref = id ∧
    write.phase.committed

theorem Pending.set {writes : Dict Nat StatWrite} {id call : Nat}
    (pending : Pending writes id) {write : StatWrite}
    (goesOn : ∀ old, writes.get? call = some old → old.phase.committed →
      write.ref = old.ref ∧ write.phase.committed) :
    Pending (writes.set call write) id := by
  obtain ⟨other, found, isWrite, isRef, committed⟩ := pending
  by_cases same : other = call
  · subst same
    obtain ⟨sameRef, stillCommitted⟩ := goesOn found isWrite committed
    refine ⟨other, write, ?_, sameRef.trans isRef, stillCommitted⟩
    rw [Dict.get?_set, if_pos rfl]
  · refine ⟨other, found, ?_, isRef, committed⟩
    rw [Dict.get?_set, if_neg same]
    exact isWrite

theorem Pending.erase {writes : Dict Nat StatWrite} {id call : Nat}
    (pending : Pending writes id) {write : StatWrite}
    (known : writes.get? call = some write) (different : write.ref ≠ id) :
    Pending (writes.erase call) id := by
  obtain ⟨other, found, isWrite, isRef, committed⟩ := pending
  refine ⟨other, found, ?_, isRef, committed⟩
  have notCall : other ≠ call := by
    rintro rfl
    rw [known] at isWrite
    cases isWrite
    exact different isRef
  rw [Dict.get?_erase, if_neg notCall]
  exact isWrite

namespace StatState

/-- The ref shows the stat, or a fill that has read it will put it there. -/
def Carries (reader : StatReader) (fills : Dict Nat StatFill) (id : Nat)
    (ref : StatRef) (stat : FileStat) : Prop :=
  ref.Shows reader stat ∨ ∃ fill, fills.get? id = some fill ∧
    fill.epoch = ref.statEpoch ∧ fill.read = some (some stat)

/-- A complete read of a fill is not disturbed by stores that cannot be
reached.  A write commits to a message whose other refs carry nothing but what
the new text says or what another write is about to drop, the worker likewise
for all of them, and a move takes along what the descriptor says. -/
def KeepsStats (reader : StatReader) (state : StatState) :
    StatAction → Prop
  | .readFill id true answers _ => ∀ ref text,
      state.refs.get? id = some ref →
      state.texts.get? ref.messageId = some text →
        reader.Undisturbed answers text
  | .commitWrite call none => ∀ write target text,
      state.writes.get? call = some write →
      write.phase = .saving target text →
      ∀ id ref stat, state.refs.get? id = some ref → ref.attached →
        ref.messageId = target → Carries reader state.fills id ref stat →
          id = write.ref ∨ Pending state.writes id ∨
            reader.Computes text stat
  | .commitBackfill call none => ∀ backfill target text desc,
      state.backfills.get? call = some backfill →
      backfill.phase = .saving target text desc →
      ∀ id ref stat, state.refs.get? id = some ref → ref.attached →
        ref.messageId = target → Carries reader state.fills id ref stat →
          Pending state.writes id ∨ reader.Computes text stat
  | .syncBackfill call => ∀ backfill messageId desc ref stat,
      state.backfills.get? call = some backfill →
      backfill.phase = .saved messageId desc →
      state.refs.get? backfill.ref = some ref → ref.attached →
      Carries reader state.fills backfill.ref
        { ref with messageId := messageId } stat →
        Pending state.writes backfill.ref ∨
          StatRef.Describes reader state.texts
            { ref with messageId := messageId } stat
  | .move id _ _ _ => ∀ ref stat, state.refs.get? id = some ref →
      ref.Shows reader stat → ref.Describes reader state.texts stat
  | _ => True

/-- Whatever is carried is the stat of the descriptor or about to go. -/
structure Sound (reader : StatReader) (state : StatState) : Prop where
  carried : ∀ id ref stat, state.refs.get? id = some ref → ref.attached →
    Carries reader state.fills id ref stat →
      ref.Describes reader state.texts stat ∨ Pending state.writes id
  epochs : ∀ id ref fill, state.refs.get? id = some ref →
    state.fills.get? id = some fill → fill.epoch ≤ ref.statEpoch
  known : ∀ id, state.refs.get? id = none → state.fills.get? id = none

theorem Sound.loadStats (sound : state.Sound reader) (location : Nat) :
    StatState.Sound reader { state with
      refs := state.refs.mapValues fun ref =>
        if ref.attached && ref.location == location then
          ref.load reader.kept
        else ref } := by
  have backward : ∀ {id after}, (state.refs.mapValues fun ref =>
      if ref.attached && ref.location == location then
        ref.load reader.kept
      else ref).get? id = some after →
      ∃ before, state.refs.get? id = some before ∧
        after.messageId = before.messageId ∧
        after.attached = before.attached ∧
        after.statEpoch = before.statEpoch ∧
        ∀ stat, after.Shows reader stat → before.Shows reader stat := by
    intro id after found
    rw [Dict.get?_mapValues] at found
    obtain ⟨before, wasThere, rfl⟩ := Option.map_eq_some_iff.mp found
    refine ⟨before, wasThere, ?_⟩
    split
    · obtain ⟨sameId, sameTree, sameEpoch⟩ :=
        StatRef.load_fields reader.kept before
      exact ⟨sameId, sameTree, sameEpoch, fun _ => .of_load⟩
    · exact ⟨rfl, rfl, rfl, fun _ shows => shows⟩
  refine ⟨?_, ?_, ?_⟩
  · intro id after stat found attached carries
    obtain ⟨before, wasThere, sameId, sameTree, sameEpoch, shows⟩ :=
      backward found
    have carried : Carries reader state.fills id before stat := by
      rcases carries with shown | ⟨fill, isFill, epoch, read⟩
      · exact .inl (shows stat shown)
      · exact .inr ⟨fill, isFill, epoch.trans sameEpoch, read⟩
    unfold StatRef.Describes
    rw [sameId]
    exact sound.carried id before stat wasThere (sameTree ▸ attached) carried
  · intro id after fill found isFill
    obtain ⟨before, wasThere, _, _, sameEpoch, _⟩ := backward found
    rw [sameEpoch]
    exact sound.epochs id before fill wasThere isFill
  · intro id missing
    apply sound.known
    dsimp only at missing
    rw [Dict.get?_mapValues, Option.map_eq_none_iff] at missing
    exact missing

variable {id : Nat} {ref : StatRef}

/-- A fill begins or goes on; what it has read is the stat of the
descriptor. -/
theorem Sound.setFill (sound : state.Sound reader)
    (found : state.refs.get? id = some ref) {fill : StatFill}
    (epoch : fill.epoch ≤ ref.statEpoch)
    (reads : ∀ stat, fill.read = some (some stat) →
      ref.Describes reader state.texts stat) :
    StatState.Sound reader { state with
      fills := state.fills.set id fill } := by
  refine ⟨?_, ?_, ?_⟩
  · intro other file stat isFile attached carries
    rcases carries with shown | ⟨begun, isFill, sameEpoch, read⟩
    · exact sound.carried other file stat isFile attached (.inl shown)
    · dsimp only at isFill
      rw [Dict.get?_set] at isFill
      split at isFill
      · rename_i same
        subst same
        cases isFill
        dsimp only at isFile
        rw [found] at isFile
        cases isFile
        exact .inl (reads stat read)
      · exact sound.carried other file stat isFile attached
          (.inr ⟨begun, isFill, sameEpoch, read⟩)
  · intro other file begun isFile isFill
    dsimp only at isFill isFile
    rw [Dict.get?_set] at isFill
    split at isFill
    · rename_i same
      subst same
      cases isFill
      rw [found] at isFile
      cases isFile
      exact epoch
    · exact sound.epochs other file begun isFile isFill
  · intro other missing
    dsimp only at missing ⊢
    rw [Dict.get?_set]
    split
    · rename_i same
      rw [same, found] at missing
      cases missing
    · exact sound.known other missing

theorem Sound.eraseFill (sound : state.Sound reader) (id : Nat) :
    StatState.Sound reader { state with fills := state.fills.erase id } := by
  refine ⟨?_, ?_, ?_⟩
  · intro other file stat isFile attached carries
    rcases carries with shown | ⟨begun, isFill, sameEpoch, read⟩
    · exact sound.carried other file stat isFile attached (.inl shown)
    · exact sound.carried other file stat isFile attached
        (.inr ⟨begun, Dict.get?_of_erase isFill, sameEpoch, read⟩)
  · intro other file begun isFile isFill
    exact sound.epochs other file begun isFile (Dict.get?_of_erase isFill)
  · intro other missing
    dsimp only
    rw [Dict.get?_erase, sound.known other missing, ite_self]

/-- The end of a fill puts on the ref what the fill carried. -/
theorem Sound.endFill (sound : state.Sound reader) {fill : StatFill}
    (isFill : state.fills.get? id = some fill) :
    StatState.Sound reader { state with
      refs := state.refs.modify id (·.fill fill)
      fills := state.fills.erase id } := by
  have shown : ∀ {ref : StatRef} {stat}, (ref.fill fill).Shows reader stat →
      Carries reader state.fills id ref stat := by
    intro ref stat shows
    unfold StatRef.fill at shows
    split at shows
    · rename_i read isRead
      split at shows
      · rename_i kept
        rcases shows with put | ⟨nothing, _⟩
        · cases put
          exact .inr ⟨fill, isFill, kept.1.symm,
            Option.join_eq_some_iff.mp isRead⟩
        · cases nothing
      · exact .inl shows
    · exact .inl shows
  refine ⟨?_, ?_, ?_⟩
  · intro other after stat found attached carries
    dsimp only at found
    rw [Dict.get?_modify] at found
    split at found
    · rename_i same
      subst same
      obtain ⟨ref, wasThere, rfl⟩ := Option.map_eq_some_iff.mp found
      obtain ⟨sameId, sameTree, sameEpoch⟩ := StatRef.fill_fields fill ref
      unfold StatRef.Describes
      rw [sameId]
      apply sound.carried other ref stat wasThere (sameTree ▸ attached)
      rcases carries with shows | ⟨begun, left, _⟩
      · exact shown shows
      · dsimp only at left
        rw [Dict.get?_erase, if_pos rfl] at left
        cases left
    · apply sound.carried other after stat found attached
      rcases carries with shows | ⟨begun, left, rest⟩
      · exact .inl shows
      · exact .inr ⟨begun, Dict.get?_of_erase left, rest⟩
  · intro other after begun found left
    dsimp only at found
    rw [Dict.get?_modify] at found
    split at found
    · obtain ⟨ref, wasThere, rfl⟩ := Option.map_eq_some_iff.mp found
      obtain ⟨_, _, sameEpoch⟩ := StatRef.fill_fields fill ref
      rw [sameEpoch]
      exact sound.epochs other ref begun wasThere (Dict.get?_of_erase left)
    · exact sound.epochs other after begun found (Dict.get?_of_erase left)
  · intro other missing
    dsimp only at missing ⊢
    rw [Dict.get?_modify] at missing
    have wasMissing : state.refs.get? other = none := by
      split at missing
      · exact Option.map_eq_none_iff.mp missing
      · exact missing
    rw [Dict.get?_erase, sound.known other wasMissing, ite_self]

variable {texts : FDRepository.Texts} {text : DescSerialized}

theorem commitText_spec {after : FDRepository.Texts} {target id : Int}
    {fresh : Option Int}
    (committed : commitText reader texts target text fresh =
      some (after, id)) :
    after = texts.set id text ∧
      ((fresh = none ∧ id = target) ∨
        (texts.get? id = none ∧ reader.kept id = none)) := by
  unfold commitText at committed
  split at committed
  · split at committed
    · cases committed
      exact ⟨rfl, .inl ⟨rfl, rfl⟩⟩
    · cases committed
  · split at committed
    · cases committed
    · rename_i new
      cases committed
      simpa [Dict.contains] using new

theorem commitText_fresh {after : FDRepository.Texts} {target id fresh : Int}
    (committed : commitText reader texts target text (some fresh) =
      some (after, id)) : id = fresh := by
  simp only [commitText] at committed
  split at committed
  · cases committed
  · exact (Prod.mk.inj (Option.some.inj committed)).2.symm

variable {messageId : Int} {writes : Dict Nat StatWrite}

/-- A descriptor is written; every ref that names it carries what the new
text says, or a write is about to drop what it carries. -/
theorem Sound.setText (sound : state.Sound reader)
    (pending : ∀ id, Pending state.writes id → Pending writes id)
    (covered : ∀ id ref stat, state.refs.get? id = some ref → ref.attached →
      ref.messageId = messageId → Carries reader state.fills id ref stat →
        Pending writes id ∨ reader.Computes text stat) :
    StatState.Sound reader { state with
      texts := state.texts.set messageId text
      writes := writes } := by
  refine ⟨?_, sound.epochs, sound.known⟩
  intro id ref stat found attached carries
  by_cases drops : Pending writes id
  · exact .inr drops
  · left
    rcases sound.carried id ref stat found attached carries with
      describes | earlier
    · apply describes.set
      intro here
      exact (covered id ref stat found attached here carries).resolve_left
        drops
    · exact (drops (pending id earlier)).elim

/-- Nothing that is carried belongs to a message that was not there. -/
theorem Sound.newText (sound : state.Sound reader)
    (new : state.texts.get? messageId = none) {stat : FileStat}
    (found : state.refs.get? id = some ref) (attached : ref.attached)
    (names : ref.messageId = messageId)
    (carries : Carries reader state.fills id ref stat) :
    Pending state.writes id := by
  rcases sound.carried id ref stat found attached carries with
    ⟨text, isText, _⟩ | pending
  · rw [names, new] at isText
    cases isText
  · exact pending

theorem Sound.setWrites (sound : state.Sound reader)
    (pending : ∀ id, Pending state.writes id → Pending writes id) :
    StatState.Sound reader { state with writes := writes } := by
  refine ⟨?_, sound.epochs, sound.known⟩
  intro id ref stat found attached carries
  rcases sound.carried id ref stat found attached carries with
    describes | earlier
  · exact .inl describes
  · exact .inr (pending id earlier)

variable {write : StatWrite}

theorem Sound.goOn (sound : state.Sound reader) {call : Nat}
    (known : state.writes.get? call = some write)
    (open_ : write.phase.committed = false) (phase : WritePhase) :
    StatState.Sound reader { state with
      writes := state.writes.set call { write with phase := phase } } := by
  apply sound.setWrites
  intro id pending
  apply pending.set
  intro old isOld committed
  rw [known] at isOld
  cases isOld
  rw [open_] at committed
  cases committed

theorem Sound.commitWrite (sound : state.Sound reader) {call : Nat}
    {fresh : Option Int}
    (keeps : state.KeepsStats reader (.commitWrite call fresh))
    (known : state.writes.get? call = some write) {target : Int}
    (saving : write.phase = .saving target text)
    (committed : commitText reader state.texts target text fresh =
      some (texts, messageId)) :
    StatState.Sound reader { state with
      texts := texts
      writes := state.writes.set call
        { write with phase := .saved messageId } } := by
  have pending : ∀ id, Pending state.writes id →
      Pending (state.writes.set call
        { write with phase := .saved messageId }) id := by
    intro id earlier
    apply earlier.set
    intro old isOld committed
    rw [known] at isOld
    cases isOld
    rw [saving] at committed
    cases committed
  obtain ⟨rfl, inPlace | new⟩ := commitText_spec committed
  · obtain ⟨rfl, rfl⟩ := inPlace
    apply sound.setText pending
    intro id ref stat found attached names carries
    rcases keeps write messageId text known saving id ref stat found attached
        names carries with own | earlier | computes
    · left
      refine ⟨call, { write with phase := .saved messageId }, ?_, own.symm,
        rfl⟩
      rw [Dict.get?_set, if_pos rfl]
    · exact .inl (pending id earlier)
    · exact .inr computes
  · apply sound.setText pending
    intro id ref stat found attached names carries
    exact .inl (pending id
      (sound.newText new.1 found attached names carries))

/-- A ref is pointed to another message: what it carries is described there
or about to go. -/
theorem Sound.point (sound : state.Sound reader)
    {backfills : Dict Nat Backfill}
    (pending : ∀ other, Pending state.writes other → Pending writes other)
    (covered : ∀ ref stat, state.refs.get? id = some ref → ref.attached →
      Carries reader state.fills id { ref with messageId := messageId } stat →
        Pending writes id ∨ StatRef.Describes reader state.texts
          { ref with messageId := messageId } stat) :
    StatState.Sound reader { state with
      refs := state.refs.modify id fun ref =>
        { ref with messageId := messageId }
      writes := writes
      backfills := backfills } := by
  refine ⟨?_, ?_, ?_⟩
  · intro other after stat found attached carries
    dsimp only at found
    rw [Dict.get?_modify] at found
    split at found
    · rename_i same
      subst same
      obtain ⟨ref, wasThere, rfl⟩ := Option.map_eq_some_iff.mp found
      exact (covered ref stat wasThere attached carries).symm
    · rcases sound.carried other after stat found attached carries with
        describes | earlier
      · exact .inl describes
      · exact .inr (pending other earlier)
  · intro other after fill found isFill
    dsimp only at found
    rw [Dict.get?_modify] at found
    split at found
    · obtain ⟨ref, wasThere, rfl⟩ := Option.map_eq_some_iff.mp found
      exact sound.epochs other ref fill wasThere isFill
    · exact sound.epochs other after fill found isFill
  · intro other missing
    exact sound.known other (Dict.get?_none_of_modify missing)

theorem Sound.syncWrite (sound : state.Sound reader) {call : Nat}
    (known : state.writes.get? call = some write) :
    StatState.Sound reader { state with
      refs := state.refs.modify write.ref fun file =>
        { file with messageId := messageId }
      writes := state.writes.set call { write with phase := .synced } } := by
  apply sound.point
  · intro other earlier
    apply earlier.set
    intro old isOld _
    rw [known] at isOld
    cases isOld
    exact ⟨rfl, rfl⟩
  · intro ref stat _ _ _
    refine .inl ⟨call, { write with phase := .synced }, ?_, rfl, rfl⟩
    rw [Dict.get?_set, if_pos rfl]

theorem Sound.endWrite (sound : state.Sound reader) {call : Nat}
    (known : state.writes.get? call = some write) :
    StatState.Sound reader { state with
      refs := state.refs.modify write.ref StatRef.invalidate
      writes := state.writes.erase call } := by
  refine ⟨?_, ?_, ?_⟩
  · intro other after stat found attached carries
    dsimp only at found
    rw [Dict.get?_modify] at found
    split at found
    · obtain ⟨ref, wasThere, rfl⟩ := Option.map_eq_some_iff.mp found
      rcases carries with (dropped | ⟨_, first, _⟩) | ⟨fill, isFill, epoch, _⟩
      · cases dropped
      · cases first
      · have below := sound.epochs other ref fill wasThere isFill
        dsimp only [StatRef.invalidate] at epoch
        omega
    · rename_i different
      rcases sound.carried other after stat found attached carries with
        describes | earlier
      · exact .inl describes
      · exact .inr (earlier.erase known (Ne.symm different))
  · intro other after fill found isFill
    dsimp only at found
    rw [Dict.get?_modify] at found
    split at found
    · obtain ⟨ref, wasThere, rfl⟩ := Option.map_eq_some_iff.mp found
      exact Nat.le_succ_of_le (sound.epochs other ref fill wasThere isFill)
    · exact sound.epochs other after fill found isFill
  · intro other missing
    exact sound.known other (Dict.get?_none_of_modify missing)

/-- A ref is added under a new id; what it shows is described. -/
theorem Sound.addRef (sound : state.Sound reader)
    (new : state.refs.get? id = none)
    (describes : ∀ stat, ref.Shows reader stat →
      ref.Describes reader state.texts stat) :
    StatState.Sound reader { state with refs := state.refs.set id ref } := by
  have noFill := sound.known id new
  refine ⟨?_, ?_, ?_⟩
  · intro other after stat found attached carries
    dsimp only at found
    rw [Dict.get?_set] at found
    split at found
    · rename_i same
      subst same
      cases found
      rcases carries with shows | ⟨fill, isFill, _⟩
      · exact .inl (describes stat shows)
      · dsimp only at isFill
        rw [noFill] at isFill
        cases isFill
    · exact sound.carried other after stat found attached carries
  · intro other after fill found isFill
    dsimp only at found isFill
    rw [Dict.get?_set] at found
    split at found
    · rename_i same
      rw [same, noFill] at isFill
      cases isFill
    · exact sound.epochs other after fill found isFill
  · intro other missing
    exact sound.known other (Dict.get?_none_of_set missing)

theorem Sound.detach (sound : state.Sound reader)
    (found : state.refs.get? id = some ref) :
    StatState.Sound reader { state with
      refs := state.refs.set id { ref with attached := false } } := by
  refine ⟨?_, ?_, ?_⟩
  · intro other after stat isAfter attached carries
    dsimp only at isAfter
    rw [Dict.get?_set] at isAfter
    split at isAfter
    · cases isAfter
      cases attached
    · exact sound.carried other after stat isAfter attached carries
  · intro other after fill isAfter isFill
    dsimp only at isAfter
    rw [Dict.get?_set] at isAfter
    split at isAfter
    · rename_i same
      subst same
      cases isAfter
      exact sound.epochs other ref fill found isFill
    · exact sound.epochs other after fill isAfter isFill
  · intro other missing
    exact sound.known other (Dict.get?_none_of_set missing)

theorem Sound.readFill (sound : state.Sound reader) {wasFound : Bool}
    {answers : Answers} {now : DateTime}
    (keeps : state.KeepsStats reader (.readFill id wasFound answers now))
    (taken : state.step reader (.readFill id wasFound answers now) =
      some next) : next.Sound reader := by
  obtain ⟨fill, isFill, rest⟩ := Option.bind_eq_some_iff.mp taken
  obtain ⟨ref, found, rest⟩ := Option.bind_eq_some_iff.mp rest
  split at rest
  · cases rest
  · cases rest
    refine sound.setFill found (sound.epochs id ref fill found isFill) ?_
    intro stat read
    cases wasFound with
    | true =>
        obtain ⟨text, isText, isStat⟩ :=
          Option.bind_eq_some_iff.mp (Option.some.inj read)
        exact ⟨text, isText, (keeps ref text found isText).computes isStat⟩
    | false => cases read

theorem Sound.create (sound : state.Sound reader) {location : Nat}
    {name : Name}
    (taken : state.step reader (.create id location name messageId text) =
      some next) : next.Sound reader := by
  simp only [StatState.step] at taken
  split at taken
  · cases taken
  · rename_i free
    obtain ⟨⟨texts, written⟩, committed, rfl⟩ :=
      Option.map_eq_some_iff.mp taken
    obtain ⟨rfl, impossible | new⟩ := commitText_spec committed
    · cases impossible.1
    · have added : StatState.Sound reader { state with
          texts := state.texts.set written text } :=
        sound.setText (fun _ earlier => earlier)
          fun other ref stat found attached names carries =>
            .inl (sound.newText new.1 found attached names carries)
      apply added.addRef
      · simp only [Bool.or_eq_true, not_or] at free
        simpa [Dict.contains] using free.1
      · intro stat shows
        rcases shows with none | ⟨_, _, kept⟩
        · cases none
        · dsimp only at kept
          rw [commitText_fresh committed, kept] at new
          cases new.2

theorem Sound.move (sound : state.Sound reader) {moved location : Nat}
    {name : Name}
    (keeps : state.KeepsStats reader (.move id moved location name))
    (taken : state.step reader (.move id moved location name) = some next) :
    next.Sound reader := by
  obtain ⟨ref, found, rest⟩ := Option.bind_eq_some_iff.mp taken
  split at rest
  · cases rest
  split at rest
  · cases rest
    exact sound
  split at rest
  · cases rest
  · rename_i free
    cases rest
    have new : state.refs.get? moved = none := by
      simp only [Bool.or_eq_true, not_or] at free
      simpa [Dict.contains] using free.1
    apply (sound.detach found).addRef
    · dsimp only
      rw [Dict.get?_set, if_neg]
      · exact new
      · rintro rfl
        rw [found] at new
        cases new
    · intro stat shows
      exact keeps ref stat found shows

/-- The steps of a write before its text is stored. -/
theorem Sound.prepareWrite (sound : state.Sound reader) {call : Nat}
    (taken : (∃ id change, state.step reader (.beginWrite call id change) =
        some next) ∨
      (∃ found answers now, state.step reader
        (.readWrite call found answers now) = some next) ∨
      state.step reader (.saveWrite call) = some next) :
    next.Sound reader := by
  rcases taken with ⟨id, change, taken⟩ | ⟨found, answers, now, taken⟩ | taken
  · simp only [StatState.step] at taken
    split at taken
    · cases taken
    · rename_i free
      cases taken
      apply sound.setWrites
      intro other earlier
      apply earlier.set
      intro old isOld _
      simp [Dict.contains, isOld] at free
  · obtain ⟨write, known, rest⟩ := Option.bind_eq_some_iff.mp taken
    split at rest
    · rename_i begun
      obtain ⟨ref, _, rest⟩ := Option.bind_eq_some_iff.mp rest
      obtain ⟨desc, _, rfl⟩ := Option.map_eq_some_iff.mp rest
      exact sound.goOn known (by rw [begun]; rfl) _
    · cases rest
  · obtain ⟨write, known, rest⟩ := Option.bind_eq_some_iff.mp taken
    split at rest
    · rename_i desc isRead
      obtain ⟨ref, _, rest⟩ := Option.bind_eq_some_iff.mp rest
      obtain ⟨changed, _, rest⟩ := Option.bind_eq_some_iff.mp rest
      obtain ⟨text, _, rfl⟩ := Option.map_eq_some_iff.mp rest
      exact sound.goOn known (by rw [isRead]; rfl) _
    · cases rest

theorem Sound.commitBackfill (sound : state.Sound reader) {call : Nat}
    {fresh : Option Int}
    (keeps : state.KeepsStats reader (.commitBackfill call fresh))
    (taken : state.step reader (.commitBackfill call fresh) = some next) :
    next.Sound reader := by
  obtain ⟨backfill, known, rest⟩ := Option.bind_eq_some_iff.mp taken
  split at rest
  · rename_i target text desc saving
    obtain ⟨⟨texts, messageId⟩, committed, rfl⟩ :=
      Option.map_eq_some_iff.mp rest
    have written : StatState.Sound reader { state with texts := texts } := by
      obtain ⟨rfl, inPlace | new⟩ := commitText_spec committed
      · obtain ⟨rfl, rfl⟩ := inPlace
        exact sound.setText (fun _ earlier => earlier)
          (keeps backfill messageId text desc known saving)
      · exact sound.setText (fun _ earlier => earlier)
          fun other ref stat found attached names carries =>
            .inl (sound.newText new.1 found attached names carries)
    exact ⟨written.carried, written.epochs, written.known⟩
  · cases rest

/-- The steps of a backfill that only its own record sees. -/
theorem Sound.withBackfills (sound : state.Sound reader)
    (backfills : Dict Nat Backfill) :
    StatState.Sound reader { state with backfills := backfills } :=
  ⟨sound.carried, sound.epochs, sound.known⟩

theorem Sound.step (sound : state.Sound reader) {action : StatAction}
    (keeps : state.KeepsStats reader action)
    (taken : state.step reader action = some next) : next.Sound reader := by
  cases action with
  | loadStats location =>
      cases taken
      exact sound.loadStats location
  | beginFill id =>
      obtain ⟨ref, found, rest⟩ := Option.bind_eq_some_iff.mp taken
      split at rest
      · cases rest
      · cases rest
        exact sound.setFill found (Nat.le_refl _)
          (fun _ read => (by cases read))
  | readFill id wasFound answers now => exact sound.readFill keeps taken
  | endFill id =>
      obtain ⟨fill, isFill, rest⟩ := Option.bind_eq_some_iff.mp taken
      split at rest
      · cases rest
      · cases rest
        exact sound.endFill isFill
  | failFill id =>
      simp only [StatState.step] at taken
      split at taken
      · cases taken
        exact sound.eraseFill id
      · cases taken
  | create id location name messageId text => exact sound.create taken
  | beginWrite call id change => exact sound.prepareWrite (.inl ⟨_, _, taken⟩)
  | readWrite call wasFound answers now =>
      exact sound.prepareWrite (.inr (.inl ⟨_, _, _, taken⟩))
  | saveWrite call => exact sound.prepareWrite (.inr (.inr taken))
  | commitWrite call fresh =>
      obtain ⟨write, known, rest⟩ := Option.bind_eq_some_iff.mp taken
      split at rest
      · rename_i target text saving
        obtain ⟨⟨texts, messageId⟩, committed, rfl⟩ :=
          Option.map_eq_some_iff.mp rest
        exact sound.commitWrite keeps known saving committed
      · cases rest
  | syncWrite call =>
      obtain ⟨write, known, rest⟩ := Option.bind_eq_some_iff.mp taken
      split at rest
      · cases rest
        exact sound.syncWrite known
      · cases rest
  | endWrite call =>
      obtain ⟨write, known, rfl⟩ := Option.map_eq_some_iff.mp taken
      exact sound.endWrite known
  | move id moved location name => exact sound.move keeps taken
  | beginBackfill call id =>
      simp only [StatState.step] at taken
      split at taken
      · cases taken
      · cases taken
        exact sound.withBackfills _
  | readBackfill call answers now =>
      obtain ⟨backfill, known, rest⟩ := Option.bind_eq_some_iff.mp taken
      split at rest
      · obtain ⟨ref, _, rest⟩ := Option.bind_eq_some_iff.mp rest
        obtain ⟨desc, _, rfl⟩ := Option.map_eq_some_iff.mp rest
        exact sound.withBackfills _
      · cases rest
  | saveBackfill call changes =>
      obtain ⟨backfill, known, rest⟩ := Option.bind_eq_some_iff.mp taken
      split at rest
      · obtain ⟨ref, _, rest⟩ := Option.bind_eq_some_iff.mp rest
        obtain ⟨changed, _, rest⟩ := Option.bind_eq_some_iff.mp rest
        obtain ⟨text, _, rfl⟩ := Option.map_eq_some_iff.mp rest
        exact sound.withBackfills _
      · cases rest
  | commitBackfill call fresh => exact sound.commitBackfill keeps taken
  | syncBackfill call =>
      obtain ⟨backfill, known, rest⟩ := Option.bind_eq_some_iff.mp taken
      split at rest
      · rename_i messageId desc saved
        cases rest
        exact sound.point (fun _ earlier => earlier)
          fun ref stat found attached carries =>
            keeps backfill messageId desc ref stat known saved found attached
              carries
      · cases rest
  | endBackfill call =>
      simp only [StatState.step] at taken
      split at taken
      · cases taken
        exact sound.withBackfills _
      · cases taken

/-- Nothing is in progress; what refs show is the stat of their descriptor. -/
structure Started (reader : StatReader) (state : StatState) : Prop where
  quiet : state.Quiet
  shown : ∀ id ref stat, state.refs.get? id = some ref → ref.attached →
    ref.Shows reader stat → ref.Describes reader state.texts stat

theorem Started.sound (started : state.Started reader) :
    state.Sound reader := by
  refine ⟨?_, ?_, fun id _ => started.quiet.1 id⟩
  · intro id ref stat found attached carries
    rcases carries with shows | ⟨fill, isFill, _⟩
    · exact .inl (started.shown id ref stat found attached shows)
    · rw [started.quiet.1 id] at isFill
      cases isFill
  · intro id ref fill _ isFill
    rw [started.quiet.1 id] at isFill
    cases isFill

end StatState

/-- A primary alone; the local cache had the bytes of version `b`. -/
def plainReader : StatReader :=
  { repo :=
      { key := "tg:1"
        mirrorKeys := none
        localVersions := fun versionId => versionId == "b"
        key_normal := normalizeStoreKey_tg }
    answers := fun _ ids => some (ids.map fun id =>
      some { messageId := id, documentSize := some 3 })
    validate := true
    contentLength := TGFSFileVersion.size
    kept := fun _ => none }

/-- The same after a promotion: the former primary is a mirror now. -/
def promotedReader : StatReader :=
  { plainReader with
    repo := { plainReader.repo with mirrorKeys := some ["tg:0"] } }

def sentVersion : VersionSerialized :=
  { id := "a", updatedAt := 10, messageIds := some [5], size := 3 }

/-- The version while only the former primary has its messages. -/
def foreignVersion : VersionSerialized :=
  { sentVersion with store := some "tg:0" }

def pendingVersion : VersionSerialized :=
  { id := "b"
    updatedAt := 20
    messageIds := some []
    size := 9
    pending := true }

def oneFile (versions : List VersionSerialized) (stat : Option FileStat) :
    StatState :=
  { texts := Dict.empty.set 7 ⟨versions⟩
    refs := Dict.empty.set 0
      { messageId := 7
        name := ['f']
        location := 0
        attached := true
        stat := stat
        statEpoch := 0 }
    fills := .empty
    writes := .empty
    backfills := .empty }

theorem oneFile_started {reader : StatReader}
    (fresh : reader.kept = fun _ => none)
    {versions : List VersionSerialized} {stat : Option FileStat}
    (computes : ∀ shown, stat = some shown →
      reader.Computes ⟨versions⟩ shown) :
    (oneFile versions stat).Started reader := by
  refine ⟨⟨fun _ => rfl, fun _ => rfl, fun _ => rfl⟩, ?_⟩
  intro id ref shown found _ shows
  have isRef : (Dict.empty.set 0 _).get? id = some ref := found
  rw [Dict.get?_set] at isRef
  split at isRef
  · cases isRef
    rcases shows with same | ⟨_, _, kept⟩
    · exact ⟨_, rfl, computes shown same⟩
    · rw [fresh] at kept
      cases kept
  · cases isRef

/-- The date is set, then a listing reads the stat again. -/
def dateAndList : List StatAction :=
  [.beginWrite 0 0 (.setLastModified ⟨20, false⟩),
    .readWrite 0 true plainReader.answers ⟨30, false⟩,
    .saveWrite 0, .commitWrite 0 none, .syncWrite 0, .endWrite 0,
    .beginFill 0, .readFill 0 true plainReader.answers ⟨40, false⟩,
    .endFill 0]

theorem dateAndList_guarded :
    Guarded (StatState.step plainReader) (StatState.KeepsStats plainReader)
      (oneFile [sentVersion] (some ⟨3, 10, 10⟩)) dateAndList := by
  refine ⟨trivial, ?_⟩
  rintro begun ⟨⟩
  refine ⟨trivial, ?_⟩
  rintro read ⟨⟩
  refine ⟨trivial, ?_⟩
  rintro saving ⟨⟩
  refine ⟨?_, ?_⟩
  · rintro write target text ⟨⟩ _ id ref stat found
    have isRef : (Dict.empty.set 0 _).get? id = some ref := found
    rw [Dict.get?_set] at isRef
    split at isRef
    · rename_i own
      exact fun _ _ _ => .inl own
    · cases isRef
  rintro committed ⟨⟩
  refine ⟨trivial, ?_⟩
  rintro synced ⟨⟩
  refine ⟨trivial, ?_⟩
  rintro ended ⟨⟩
  refine ⟨trivial, ?_⟩
  rintro filling ⟨⟩
  refine ⟨fun _ text _ _ => StatReader.undisturbed text
    fun _ => .inl rfl, ?_⟩
  rintro filled ⟨⟩
  exact ⟨trivial, fun _ _ => trivial⟩

/-- The version as it is written back. -/
def writtenVersion (updatedAt : Int) : VersionSerialized :=
  { sentVersion with updatedAt := updatedAt, store := some "tg:1" }

theorem stat_versions (name : Name) (now : DateTime) :
    plainReader.stat plainReader.answers name now ⟨[writtenVersion 10]⟩ =
        some ⟨3, 10, 10⟩ ∧
      plainReader.stat plainReader.answers name now ⟨[writtenVersion 20]⟩ =
        some ⟨3, 20, 20⟩ ∧
      promotedReader.stat promotedReader.answers name now
        ⟨[foreignVersion]⟩ = some ⟨3, 10, 10⟩ :=
  ⟨rfl, rfl, rfl⟩

/-- The former primary cannot be reached. -/
def unreachedMirror : Answers
  | .mirrorPart _ _ _, _ => none
  | .replica _ _, _ => none
  | lookup, ids => promotedReader.answers lookup ids

end Tgdcfs
