import Mathlib.Data.List.Infix
import Tgdcfs.Upload.Tee

/-!
# Tee'd uploads that do not tangle go on

`TeeUpload.Fits` says where the bytes of a running upload are, and
`TeeSystem.Sound` adds that no slot is lost.  In a state without a move every
slot that is taken belongs to an upload whose producer waits for another slot
(`Stuck.holder_waits`), so the waiting uploads are tangled; a run in which
none that begins tangles with the running ones always has a move.
-/

namespace Tgdcfs

open Lib

variable {κ Store : Type*}

theorem TeePlan.mem_stores {plan : TeePlan Store} {store : Store} :
    store ∈ plan.stores ↔ plan.primary = some store ∨ store ∈ plan.targets := by
  simp [TeePlan.stores]

namespace TeeUpload

variable {config : TeeConfig Store} {upload next : TeeUpload Store}

theorem read_eq_some {length : Nat}
    (done : upload.read config length = some next) :
    upload.feeding = [] ∧ 0 < length ∧
      upload.fed + length ≤ upload.plan.size ∧
      next = { upload with
        fed := upload.fed + length
        chunk := length
        feeding := upload.plan.targets } := by
  simp only [read, Option.ite_none_right_eq_some, Option.some.injEq] at done
  obtain ⟨⟨ready, positive, inside, _⟩, rfl⟩ := done
  exact ⟨ready, positive, inside, rfl⟩

variable [DecidableEq Store]

theorem feed_eq_some (done : upload.feed config = some next) :
    ∃ store feeding, upload.feeding = store :: feeding ∧
      next = { upload with
        feeding := feeding
        chunks := Function.update upload.chunks store
          (upload.chunks store ++ [upload.chunk]) } := by
  unfold feed at done
  split at done
  · cases done
  · rename_i store feeding waiting
    simp only [Option.ite_none_left_eq_some, Option.some.injEq] at done
    exact ⟨store, feeding, waiting, done.2.symm⟩

variable {store : Store}

theorem stream_eq_some (done : upload.stream config store = some next) :
    ∃ chunk chunks, upload.chunks store = chunk :: chunks ∧
      (upload.parts store).reading ∧
      next = { upload.setPart store
          { upload.parts store with
            received := (upload.parts store).received + chunk } with
        chunks := Function.update upload.chunks store chunks } := by
  unfold stream at done
  split at done
  · cases done
  · rename_i chunk chunks queued
    simp only [Option.ite_none_right_eq_some, Option.some.injEq] at done
    exact ⟨chunk, chunks, queued, done.1.1, done.2.symm⟩

theorem acquire_eq_some (done : upload.acquire store = some next) :
    store ∈ upload.plan.stores ∧ (upload.parts store).reading = false ∧
      (upload.parts store).offset < upload.plan.size ∧
      next = upload.setPart store
        { upload.parts store with reading := true } := by
  simp only [acquire, Option.ite_none_right_eq_some, Option.some.injEq,
    Bool.not_eq_true] at done
  exact ⟨done.1.1, done.1.2.1, done.1.2.2, done.2.symm⟩

theorem readPart_eq_some (done : upload.readPart config store = some next) :
    (upload.parts store).reading ∧
      upload.partEnd config store ≤ upload.taken store ∧
      next = upload.setPart store
        { upload.parts store with
          offset := upload.partEnd config store
          reading := false
          sending := (upload.parts store).sending + 1 } := by
  simp only [readPart, Option.ite_none_right_eq_some,
    Option.some.injEq] at done
  exact ⟨done.1.1, done.1.2.1, done.2.symm⟩

theorem sendPart_eq_some (done : upload.sendPart store = some next) :
    0 < (upload.parts store).sending ∧
      next = upload.setPart store
        { upload.parts store with
          sending := (upload.parts store).sending - 1 } := by
  simp only [sendPart, Option.ite_none_right_eq_some,
    Option.some.injEq] at done
  exact ⟨done.1, done.2.symm⟩

theorem move_plan {move : TeeMove Store}
    (done : upload.move config move = some next) : next.plan = upload.plan := by
  cases move with
  | read length =>
      obtain ⟨_, _, _, rfl⟩ := read_eq_some done
      rfl
  | feed =>
      obtain ⟨_, _, _, rfl⟩ := feed_eq_some done
      rfl
  | stream store =>
      obtain ⟨_, _, _, _, rfl⟩ := stream_eq_some done
      rfl
  | acquire store =>
      obtain ⟨_, _, _, rfl⟩ := acquire_eq_some done
      rfl
  | readPart store =>
      obtain ⟨_, _, rfl⟩ := readPart_eq_some done
      rfl
  | sendPart store =>
      obtain ⟨_, rfl⟩ := sendPart_eq_some done
      rfl

theorem move_slots {move : TeeMove Store} {free left : Store → Nat}
    (done : upload.move config move = some next)
    (allowed : move.slots free = some left) (store : Store) :
    left store + (next.parts store).slots =
      free store + (upload.parts store).slots := by
  cases move with
  | read length =>
      obtain ⟨_, _, _, rfl⟩ := read_eq_some done
      cases allowed
      rfl
  | feed =>
      obtain ⟨_, _, _, rfl⟩ := feed_eq_some done
      cases allowed
      rfl
  | stream other =>
      obtain ⟨_, _, _, _, rfl⟩ := stream_eq_some done
      cases allowed
      by_cases same : store = other
      · subst other
        simp [setPart, PartUpload.slots]
      · simp [setPart, same]
  | acquire other =>
      obtain ⟨_, unread, _, rfl⟩ := acquire_eq_some done
      simp only [TeeMove.slots, Option.ite_none_left_eq_some,
        Option.some.injEq] at allowed
      obtain ⟨available, rfl⟩ := allowed
      by_cases same : store = other
      · subst other
        simp only [setPart, Function.update_self, PartUpload.slots, unread,
          Bool.toNat_true, Bool.toNat_false]
        omega
      · simp [setPart, same]
  | readPart other =>
      obtain ⟨reading, _, rfl⟩ := readPart_eq_some done
      cases allowed
      by_cases same : store = other
      · subst other
        simp only [setPart, Function.update_self, PartUpload.slots, reading,
          Bool.toNat_true, Bool.toNat_false]
        omega
      · simp [setPart, same]
  | sendPart other =>
      obtain ⟨sending, rfl⟩ := sendPart_eq_some done
      cases allowed
      by_cases same : store = other
      · subst other
        simp only [setPart, Function.update_self, PartUpload.slots]
        omega
      · simp [setPart, same]

/-- Every byte fed is taken by a mirror, queued in its branch or in the chunk
that still goes there, and no store has cut parts beyond what it took. -/
structure Fits (upload : TeeUpload Store) : Prop where
  fed_le : upload.fed ≤ upload.plan.size
  feeding_suffix : upload.feeding.IsSuffix upload.plan.targets
  delivered : ∀ store ∈ upload.plan.targets,
    (upload.parts store).received + (upload.chunks store).sum +
      (if store ∈ upload.feeding then upload.chunk else 0) = upload.fed
  offset_le : ∀ store ∈ upload.plan.stores,
    (upload.parts store).offset ≤ upload.taken store
  part_open : ∀ store, (upload.parts store).reading →
    (upload.parts store).offset < upload.plan.size
  idle : ∀ store, store ∉ upload.plan.stores →
    (upload.parts store).slots = 0

theorem taken_of_target (target : store ∈ upload.plan.targets) :
    upload.taken store = (upload.parts store).received := by
  unfold taken
  rw [if_neg]
  intro primary
  exact upload.plan.primary_not_target store primary target

theorem taken_of_primary (primary : upload.plan.primary = some store) :
    upload.taken store = upload.fed := if_pos primary

theorem begin_fits (plan : TeePlan Store) : (begin plan).Fits where
  fed_le := Nat.zero_le _
  feeding_suffix := List.nil_suffix
  delivered := by
    intro store target
    rfl
  offset_le := fun store inside => Nat.zero_le _
  part_open := by
    intro store reading
    cases reading
  idle := fun store outside => rfl

namespace Fits

variable {store : Store}

variable (fits : upload.Fits)
include fits

theorem taken_le (inside : store ∈ upload.plan.stores) :
    upload.taken store ≤ upload.fed := by
  rcases TeePlan.mem_stores.mp inside with primary | target
  · rw [taken_of_primary primary]
  · have bytes := fits.delivered store target
    rw [taken_of_target target]
    omega

theorem mem_stores_of_slots (holds : 0 < (upload.parts store).slots) :
    store ∈ upload.plan.stores := by
  by_contra outside
  have none := fits.idle store outside
  omega

/-- Moves that only change what the upload does at one store. -/
theorem setPart {part : PartUpload}
    (received : part.received = (upload.parts store).received)
    (offset_le : store ∈ upload.plan.stores →
      part.offset ≤ upload.taken store)
    (part_open : part.reading → part.offset < upload.plan.size)
    (idle : store ∉ upload.plan.stores → part.slots = 0) :
    (upload.setPart store part).Fits := by
  have sameTaken : ∀ other,
      (upload.setPart store part).taken other = upload.taken other := by
    intro other
    by_cases same : other = store
    · subst other
      simp [taken, TeeUpload.setPart, received]
    · simp [taken, TeeUpload.setPart, same]
  constructor
  · exact fits.fed_le
  · exact fits.feeding_suffix
  · intro other target
    have unmoved : ((upload.setPart store part).parts other).received =
        (upload.parts other).received := by
      by_cases same : other = store
      · subst other
        simpa [TeeUpload.setPart] using received
      · simp [TeeUpload.setPart, same]
    rw [unmoved]
    exact fits.delivered other target
  · intro other inside
    rw [sameTaken]
    by_cases same : other = store
    · subst other
      simpa [TeeUpload.setPart] using offset_le inside
    · simpa [TeeUpload.setPart, same] using fits.offset_le other inside
  · intro other
    by_cases same : other = store
    · subst other
      simpa [TeeUpload.setPart] using part_open
    · simpa [TeeUpload.setPart, same] using fits.part_open other
  · intro other outside
    by_cases same : other = store
    · subst other
      simpa [TeeUpload.setPart] using idle outside
    · simpa [TeeUpload.setPart, same] using fits.idle other outside

theorem read {length : Nat} (done : upload.read config length = some next) :
    next.Fits := by
  obtain ⟨ready, positive, inside, rfl⟩ := read_eq_some done
  constructor
  · exact inside
  · exact List.suffix_refl _
  · intro store target
    have bytes := fits.delivered store target
    simp only [ready, List.not_mem_nil, if_false] at bytes
    simp only [target, if_true]
    omega
  · intro store within
    have before := fits.offset_le store within
    unfold taken at before ⊢
    split at before
    · rename_i primary
      rw [if_pos primary]
      exact Nat.le_add_right_of_le before
    · rename_i other
      rw [if_neg other]
      exact before
  · exact fits.part_open
  · exact fits.idle

theorem feed (done : upload.feed config = some next) : next.Fits := by
  obtain ⟨store, feeding, waiting, rfl⟩ := feed_eq_some done
  have suffix := waiting ▸ fits.feeding_suffix
  have distinct : store ∉ feeding := by
    have nodup := suffix.sublist.nodup upload.plan.targets_nodup
    exact (List.nodup_cons.mp nodup).1
  constructor
  · exact fits.fed_le
  · exact (List.suffix_cons store feeding).trans suffix
  · intro other target
    have bytes := fits.delivered other target
    rw [waiting] at bytes
    by_cases same : other = store
    · subst other
      simp only [List.mem_cons_self, if_true] at bytes
      simp only [Function.update_self, distinct, if_false, List.sum_append,
        List.sum_cons, List.sum_nil]
      omega
    · simpa [same] using bytes
  · exact fits.offset_le
  · exact fits.part_open
  · exact fits.idle

theorem stream (done : upload.stream config store = some next) :
    next.Fits := by
  obtain ⟨chunk, chunks, queued, reading, rfl⟩ := stream_eq_some done
  constructor
  · exact fits.fed_le
  · exact fits.feeding_suffix
  · -- the chunk goes from the branch to the mirror
    intro other target
    refine Eq.trans (congrArg (· + _) ?_) (fits.delivered other target)
    by_cases same : other = store
    · subst other
      simp only [TeeUpload.setPart, Function.update_self, queued,
        List.sum_cons]
      omega
    · simp [TeeUpload.setPart, same]
  · intro other inside
    have before := fits.offset_le other inside
    by_cases same : other = store
    · subst other
      unfold taken at before ⊢
      simp only [TeeUpload.setPart, Function.update_self]
      split
      · rename_i primary
        rwa [if_pos primary] at before
      · rename_i target
        rw [if_neg target] at before
        exact Nat.le_add_right_of_le before
    · simpa [taken, TeeUpload.setPart, same] using before
  · intro other
    by_cases same : other = store
    · rw [same]
      simpa [TeeUpload.setPart] using fits.part_open store
    · simpa [TeeUpload.setPart, same] using fits.part_open other
  · intro other outside
    by_cases same : other = store
    · have unused := fits.idle store (same ▸ outside)
      simpa [TeeUpload.setPart, same, PartUpload.slots] using unused
    · simpa [TeeUpload.setPart, same] using fits.idle other outside

theorem acquire (done : upload.acquire store = some next) : next.Fits := by
  obtain ⟨inside, _, more, rfl⟩ := acquire_eq_some done
  apply fits.setPart
  · rfl
  · exact fits.offset_le store
  · exact fun _ => more
  · exact fun outside => (outside inside).elim

theorem readPart (done : upload.readPart config store = some next) :
    next.Fits := by
  obtain ⟨reading, complete, rfl⟩ := readPart_eq_some done
  apply fits.setPart
  · rfl
  · exact fun _ => complete
  · exact fun reads => by cases reads
  · intro outside
    have none := fits.idle store outside
    simp [PartUpload.slots, reading] at none

theorem sendPart (done : upload.sendPart store = some next) : next.Fits := by
  obtain ⟨sending, rfl⟩ := sendPart_eq_some done
  apply fits.setPart
  · rfl
  · exact fits.offset_le store
  · exact fits.part_open store
  · intro outside
    have none := fits.idle store outside
    simp only [PartUpload.slots] at none
    omega

theorem move {move : TeeMove Store}
    (done : upload.move config move = some next) : next.Fits := by
  cases move with
  | read length => exact fits.read done
  | feed => exact fits.feed done
  | stream store => exact fits.stream done
  | acquire store => exact fits.acquire done
  | readPart store => exact fits.readPart done
  | sendPart store => exact fits.sendPart done

/-- A finished upload makes no move, so none becomes unfinished again. -/
theorem not_finished {move : TeeMove Store}
    (done : upload.move config move = some next) : ¬upload.Finished := by
  rintro ⟨fedAll, allFed, allSent⟩
  have slotless : ∀ store, (upload.parts store).slots = 0 := by
    intro store
    by_cases inside : store ∈ upload.plan.stores
    · exact (allSent store inside).2
    · exact fits.idle store inside
  cases move with
  | read length =>
      obtain ⟨_, positive, inside, _⟩ := read_eq_some done
      omega
  | feed =>
      obtain ⟨_, _, waiting, _⟩ := feed_eq_some done
      rw [fedAll] at waiting
      cases waiting
  | stream store =>
      obtain ⟨_, _, _, reading, _⟩ := stream_eq_some done
      simpa [PartUpload.slots, reading] using slotless store
  | acquire store =>
      obtain ⟨inside, _, more, _⟩ := acquire_eq_some done
      have complete := (allSent store inside).1
      omega
  | readPart store =>
      obtain ⟨reading, _⟩ := readPart_eq_some done
      simpa [PartUpload.slots, reading] using slotless store
  | sendPart store =>
      obtain ⟨sending, _⟩ := sendPart_eq_some done
      have none := slotless store
      simp only [PartUpload.slots] at none
      omega

end Fits

/-- No participant of the upload can do anything. -/
def Stuck (config : TeeConfig Store) (free : Store → Nat)
    (upload : TeeUpload Store) : Prop :=
  ∀ move next, upload.move config move = some next → move.slots free = none

/-- The store whose slot the producer waits for, directly or because the
branch of that mirror is full. -/
def waitsAt (upload : TeeUpload Store) : Option Store :=
  match upload.feeding with
  | store :: _ => some store
  | [] => if upload.fed < upload.plan.size then upload.plan.primary else none

/-- A check of finitely many moves that decides whether there is any. -/
def Quiet (config : TeeConfig Store) (free : Store → Nat)
    (upload : TeeUpload Store) : Prop :=
  (upload.read config 1).isNone ∧ (upload.feed config).isNone ∧
    ∀ store ∈ upload.plan.stores,
      (upload.stream config store).isNone ∧
        (upload.readPart config store).isNone ∧
        (upload.sendPart store).isNone ∧
        ((upload.acquire store).isNone ∨ free store = 0)

instance (config : TeeConfig Store) (free : Store → Nat)
    (upload : TeeUpload Store) : Decidable (upload.Quiet config free) :=
  inferInstanceAs (Decidable (_ ∧ _ ∧ _))

theorem Quiet.stuck {free : Store → Nat} (fits : upload.Fits)
    (quiet : upload.Quiet config free) : Stuck config free upload := by
  obtain ⟨readsNone, feedsNone, storesNone⟩ := quiet
  have outside : ∀ store, store ∉ upload.plan.stores →
      (upload.parts store).reading = false ∧
        (upload.parts store).sending = 0 := by
    intro store absent
    have none := fits.idle store absent
    unfold PartUpload.slots at none
    simpa using none
  intro move next done
  cases move with
  | read length =>
      -- a longer read is enabled only where a read of one byte is
      simp only [move, read, Option.ite_none_right_eq_some] at done
      obtain ⟨⟨ready, positive, inside, primary⟩, _⟩ := done
      have one : (upload.read config 1).isSome := by
        unfold read
        rw [if_pos]
        · rfl
        · refine ⟨ready, Nat.one_pos, by omega, fun store here => ?_⟩
          obtain ⟨reading, atMost, within⟩ := primary store here
          exact ⟨reading, by omega, by omega⟩
      rw [Option.isSome_iff_ne_none] at one
      exact (one (Option.isNone_iff_eq_none.mp readsNone)).elim
  | feed =>
      cases (Option.isNone_iff_eq_none.mp feedsNone).symm.trans done
  | stream store =>
      by_cases inside : store ∈ upload.plan.stores
      · have still := (storesNone store inside).1
        cases (Option.isNone_iff_eq_none.mp still).symm.trans done
      · obtain ⟨_, _, _, reading, _⟩ := stream_eq_some done
        rw [(outside store inside).1] at reading
        cases reading
  | acquire store =>
      obtain ⟨inside, _⟩ := acquire_eq_some done
      rcases (storesNone store inside).2.2.2 with still | taken
      · cases (Option.isNone_iff_eq_none.mp still).symm.trans done
      · simp [TeeMove.slots, taken]
  | readPart store =>
      by_cases inside : store ∈ upload.plan.stores
      · have still := (storesNone store inside).2.1
        cases (Option.isNone_iff_eq_none.mp still).symm.trans done
      · obtain ⟨reading, _⟩ := readPart_eq_some done
        rw [(outside store inside).1] at reading
        cases reading
  | sendPart store =>
      by_cases inside : store ∈ upload.plan.stores
      · have still := (storesNone store inside).2.2.1
        cases (Option.isNone_iff_eq_none.mp still).symm.trans done
      · obtain ⟨sending, _⟩ := sendPart_eq_some done
        rw [(outside store inside).2] at sending
        cases sending

namespace Stuck

variable {free : Store → Nat}

theorem sending_eq_zero (stuck : Stuck config free upload) (store : Store) :
    (upload.parts store).sending = 0 := by
  by_contra sending
  have sends : upload.move config (.sendPart store) =
      some (upload.setPart store { upload.parts store with
        sending := (upload.parts store).sending - 1 }) :=
    if_pos (Nat.pos_of_ne_zero sending)
  cases stuck _ _ sends

variable {store : Store}

theorem no_slot (stuck : Stuck config free upload)
    (inside : store ∈ upload.plan.stores)
    (unread : (upload.parts store).reading = false)
    (more : (upload.parts store).offset < upload.plan.size) :
    free store = 0 := by
  by_contra available
  have acquires : upload.move config (.acquire store) =
      some (upload.setPart store
        { upload.parts store with reading := true }) :=
    if_pos ⟨inside, by simp [unread], more⟩
  have refused := stuck _ _ acquires
  simp [TeeMove.slots, available] at refused

theorem part_open (stuck : Stuck config free upload)
    (reading : (upload.parts store).reading)
    (fedAll : upload.plan.primary = some store → upload.feeding = []) :
    upload.taken store < upload.partEnd config store := by
  by_contra complete
  have returns : upload.move config (.readPart store) =
      some (upload.setPart store
        { upload.parts store with
          offset := upload.partEnd config store
          reading := false
          sending := (upload.parts store).sending + 1 }) :=
    if_pos ⟨reading, Nat.le_of_not_lt complete, fedAll⟩
  cases stuck _ _ returns

theorem branch_empty (stuck : Stuck config free upload)
    (reading : (upload.parts store).reading)
    (wants : upload.taken store < upload.partEnd config store) :
    upload.chunks store = [] := by
  cases queued : upload.chunks store with
  | nil => rfl
  | cons chunk chunks =>
      have streams : ∃ next,
          upload.move config (.stream store) = some next := by
        simp [TeeUpload.move, stream, queued, reading, wants]
      obtain ⟨next, streams⟩ := streams
      cases stuck _ _ streams

theorem branch_full (stuck : Stuck config free upload) {feeding : List Store}
    (waiting : upload.feeding = store :: feeding) :
    (upload.chunks store).sum ≠ 0 ∧
      config.capacity < (upload.chunks store).sum + upload.chunk := by
  by_contra room
  have feeds : ∃ next, upload.move config .feed = some next := by
    simp [TeeUpload.move, feed, waiting, room]
  obtain ⟨next, feeds⟩ := feeds
  cases stuck _ _ feeds

/-- A producer with nothing to feed waits for its own store's slot. -/
theorem primary_waits (stuck : Stuck config free upload)
    (ready : upload.feeding = [])
    (more : upload.fed < upload.plan.size) :
    ∃ store, upload.plan.primary = some store ∧
      (upload.parts store).reading = false := by
  by_contra free
  have readable : ∀ store ∈ upload.plan.primary,
      (upload.parts store).reading ∧ 1 ≤ readChunk ∧
        upload.fed + 1 ≤ upload.partEnd config store := by
    intro store primary
    have reading : (upload.parts store).reading := by
      by_contra unread
      exact free ⟨store, primary, by simpa using unread⟩
    have wants := stuck.part_open reading fun _ => ready
    rw [taken_of_primary primary] at wants
    exact ⟨reading, by decide, wants⟩
  have reads : upload.move config (.read 1) = some { upload with
      fed := upload.fed + 1
      chunk := 1
      feeding := upload.plan.targets } :=
    if_pos ⟨ready, Nat.one_pos, more, readable⟩
  cases stuck _ _ reads

theorem slots_le_one (stuck : Stuck config free upload) (store : Store) :
    (upload.parts store).slots ≤ 1 := by
  unfold PartUpload.slots
  rw [stuck.sending_eq_zero store]
  exact Bool.toNat_le _

theorem reading_of_slots (stuck : Stuck config free upload)
    (holds : 0 < (upload.parts store).slots) :
    (upload.parts store).reading := by
  unfold PartUpload.slots at holds
  rw [stuck.sending_eq_zero store] at holds
  cases reading : (upload.parts store).reading with
  | true => rfl
  | false =>
      rw [reading] at holds
      cases holds

/-- A mirror that reads waits for bytes that did not reach its branch. -/
theorem mirror_starved (fits : upload.Fits) (stuck : Stuck config free upload)
    (target : store ∈ upload.plan.targets)
    (reading : (upload.parts store).reading) :
    upload.chunks store = [] ∧
      (upload.parts store).received < upload.plan.size := by
  have notPrimary : upload.plan.primary ≠ some store := fun primary =>
    upload.plan.primary_not_target store primary target
  have wants := stuck.part_open reading fun primary =>
    (notPrimary primary).elim
  have unfinished := fits.part_open store reading
  refine ⟨stuck.branch_empty reading wants, ?_⟩
  rw [taken_of_target target] at wants
  unfold partEnd at wants
  omega

/-- The mirror whose branch is full reads no part: it waits for a slot. -/
theorem full_mirror_waits (fits : upload.Fits)
    (stuck : Stuck config free upload) {feeding : List Store}
    (waiting : upload.feeding = store :: feeding) :
    (upload.parts store).reading = false ∧
      (upload.parts store).offset < upload.plan.size := by
  have suffix := waiting ▸ fits.feeding_suffix
  have target : store ∈ upload.plan.targets :=
    suffix.subset List.mem_cons_self
  obtain ⟨holdsBytes, _⟩ := stuck.branch_full waiting
  constructor
  · by_contra reading
    have starved := stuck.mirror_starved fits target (by simpa using reading)
    rw [starved.1] at holdsBytes
    exact holdsBytes rfl
  · have bytes := fits.delivered store target
    have cut := fits.offset_le store
      (TeePlan.mem_stores.mpr (.inr target))
    have inside := fits.fed_le
    rw [taken_of_target target] at cut
    omega

theorem waits_no_slot (fits : upload.Fits) (stuck : Stuck config free upload)
    (waits : upload.waitsAt = some store) : free store = 0 := by
  unfold waitsAt at waits
  split at waits
  · rename_i first feeding waiting
    cases waits
    obtain ⟨unread, more⟩ := stuck.full_mirror_waits fits waiting
    have target : store ∈ upload.plan.targets :=
      (waiting ▸ fits.feeding_suffix).subset List.mem_cons_self
    exact stuck.no_slot (TeePlan.mem_stores.mpr (.inr target)) unread more
  · rename_i ready
    split at waits
    · rename_i more
      obtain ⟨primary, here, unread⟩ := stuck.primary_waits ready more
      obtain rfl : primary = store := by
        rw [here] at waits
        exact Option.some.inj waits
      have inside : primary ∈ upload.plan.stores :=
        TeePlan.mem_stores.mpr (.inl here)
      have cut := fits.offset_le primary inside
      rw [taken_of_primary here] at cut
      exact stuck.no_slot inside unread (Nat.lt_of_le_of_lt cut more)
    · cases waits

/-- An upload that holds a slot has a producer that waits for another. -/
theorem holder_waits (fits : upload.Fits)
    (stuck : Stuck config free upload) {held : Store}
    (holds : 0 < (upload.parts held).slots) :
    ∃ waited, upload.waitsAt = some waited ∧
      upload.plan.HoldsWhile config.capacity waited held := by
  have reading := stuck.reading_of_slots holds
  have inside := fits.mem_stores_of_slots holds
  unfold waitsAt
  split
  · rename_i waited feeding waiting
    refine ⟨waited, rfl, ?_⟩
    obtain ⟨before, targets⟩ := waiting ▸ fits.feeding_suffix
    obtain ⟨_, full⟩ := stuck.branch_full waiting
    obtain ⟨unread, _⟩ := stuck.full_mirror_waits fits waiting
    have target : waited ∈ upload.plan.targets := by simp [← targets]
    have bytes := fits.delivered waited target
    rw [waiting, if_pos List.mem_cons_self] at bytes
    have enough : config.capacity < upload.plan.size := by
      have fed := fits.fed_le
      omega
    rcases TeePlan.mem_stores.mp inside with primary | mirror
    · exact .primaryHolds primary target enough
    · rw [← targets] at mirror
      rcases List.mem_append.mp mirror with earlier | here
      · -- what was fed before has the chunk, so more is to come
        refine .fedEarlier targets.symm earlier ?_
        have inTargets : held ∈ upload.plan.targets := by
          rw [← targets]
          exact List.mem_append_left _ earlier
        have fedAlready : held ∉ upload.feeding := by
          have nodup := targets ▸ upload.plan.targets_nodup
          intro later
          rw [waiting] at later
          exact (List.nodup_append.mp nodup).2.2 held earlier held later rfl
        obtain ⟨empty, short⟩ :=
          stuck.mirror_starved fits inTargets reading
        have heldBytes := fits.delivered held inTargets
        rw [if_neg fedAlready, empty, List.sum_nil] at heldBytes
        omega
      · rcases List.mem_cons.mp here with same | later
        · rw [same, unread] at reading
          cases reading
        · exact .fedLater targets.symm later enough
  · rename_i ready
    have feedsNone : ∀ store, store ∉ upload.feeding := by simp [ready]
    rcases TeePlan.mem_stores.mp inside with primary | mirror
    · -- a primary that reads with nothing to feed would read on
      have wants := stuck.part_open reading fun _ => ready
      have more := fits.part_open held reading
      rw [taken_of_primary primary] at wants
      have unfed : upload.fed < upload.plan.size := by
        unfold partEnd at wants
        omega
      obtain ⟨store, here, unread⟩ := stuck.primary_waits ready unfed
      rw [primary] at here
      cases here
      rw [unread] at reading
      cases reading
    · obtain ⟨empty, short⟩ := stuck.mirror_starved fits mirror reading
      have bytes := fits.delivered held mirror
      rw [if_neg (feedsNone held), empty, List.sum_nil] at bytes
      have unfed : upload.fed < upload.plan.size := by omega
      obtain ⟨store, here, _⟩ := stuck.primary_waits ready unfed
      rw [if_pos unfed]
      exact ⟨store, here, .primaryWaits here mirror⟩

/-- What keeps an upload from being finished is a store without a free
slot. -/
theorem exists_full_store (fits : upload.Fits)
    (stuck : Stuck config free upload) (unfinished : ¬upload.Finished) :
    ∃ store, free store = 0 := by
  by_contra available
  have noWait : upload.waitsAt = none := by
    cases waits : upload.waitsAt with
    | none => rfl
    | some store =>
        exact (available ⟨store, stuck.waits_no_slot fits waits⟩).elim
  have slotless : ∀ store, (upload.parts store).slots = 0 := by
    intro store
    by_contra holds
    obtain ⟨waited, waits, _⟩ :=
      stuck.holder_waits fits (Nat.pos_of_ne_zero holds)
    rw [noWait] at waits
    cases waits
  apply unfinished
  have ready : upload.feeding = [] := by
    cases waiting : upload.feeding with
    | nil => rfl
    | cons store feeding => simp [waitsAt, waiting] at noWait
  have fedAll : upload.fed = upload.plan.size := by
    apply Nat.le_antisymm fits.fed_le
    by_contra more
    have less : upload.fed < upload.plan.size := Nat.lt_of_not_le more
    obtain ⟨store, here, _⟩ := stuck.primary_waits ready less
    simp [waitsAt, ready, less, here] at noWait
  refine ⟨ready, fedAll, fun store inside => ⟨?_, slotless store⟩⟩
  have cut := fits.offset_le store inside
  have arrived := fits.taken_le inside
  apply Nat.le_antisymm (by omega)
  by_contra more
  have unread : (upload.parts store).reading = false := by
    have none := slotless store
    by_contra reading
    simp [PartUpload.slots, reading] at none
  exact available ⟨store, stuck.no_slot inside unread (by omega)⟩

end Stuck

end TeeUpload

namespace TeeSystem

variable [DecidableEq κ] [DecidableEq Store] {config : TeeConfig Store}
  {state next : TeeSystem κ Store}

/-- Every upload fits, and every slot is free or held by an upload. -/
structure Sound (config : TeeConfig Store) (state : TeeSystem κ Store) :
    Prop where
  fits : ∀ id upload, state.uploads.get? id = some upload → upload.Fits
  slots : ∀ store, state.free store +
      state.uploads.weight (fun upload => (upload.parts store).slots) =
    config.maxConcurrentUploads store

theorem idle_sound : (idle config : TeeSystem κ Store).Sound config where
  fits := by
    intro id upload stored
    cases stored
  slots := fun store => rfl

variable {id : κ} {plan : TeePlan Store}

theorem begin_eq_some (done : state.step config (.begin id plan) = some next) :
    state.uploads.get? id = none ∧
      next = { state with
        uploads := state.uploads.set id (TeeUpload.begin plan) } := by
  simp only [step, Option.ite_none_left_eq_some, Option.some.injEq] at done
  obtain ⟨fresh, rfl⟩ := done
  exact ⟨by simpa [Dict.contains] using fresh, rfl⟩

theorem move_eq_some {move : TeeMove Store}
    (done : state.step config (.move id move) = some next) :
    ∃ upload moved free, state.uploads.get? id = some upload ∧
      upload.move config move = some moved ∧
      move.slots state.free = some free ∧
      next = { uploads := state.uploads.modify id fun _ => moved
               free := free } := by
  simp only [step, Option.bind_eq_some_iff, Option.map_eq_some_iff] at done
  obtain ⟨upload, stored, moved, moves, free, allowed, rfl⟩ := done
  exact ⟨upload, moved, free, stored, moves, allowed, rfl⟩

theorem Sound.begin (sound : state.Sound config)
    (done : state.step config (.begin id plan) = some next) :
    next.Sound config := by
  obtain ⟨fresh, rfl⟩ := begin_eq_some done
  constructor
  · intro other upload stored
    simp only [Dict.get?_set] at stored
    split at stored
    · cases stored
      exact TeeUpload.begin_fits plan
    · exact sound.fits other upload stored
  · intro store
    simp only [Dict.weight_set_of_absent _ _ _ fresh]
    exact sound.slots store

theorem Sound.move (sound : state.Sound config) {move : TeeMove Store}
    (done : state.step config (.move id move) = some next) :
    next.Sound config := by
  obtain ⟨upload, moved, free, stored, moves, allowed, rfl⟩ :=
    move_eq_some done
  constructor
  · intro other found here
    simp only [Dict.get?_modify] at here
    split at here
    · rename_i same
      rw [same, stored] at here
      cases here
      exact (sound.fits id upload stored).move moves
    · exact sound.fits other found here
  · intro store
    have balance := Dict.weight_modify
      (fun upload => (upload.parts store).slots) state.uploads
      (fun _ => moved) stored
    have exchange := TeeUpload.move_slots moves allowed store
    have total := sound.slots store
    simp only at balance ⊢
    omega

/-- A move finishes an upload or leaves the plans as they are. -/
theorem Sound.unfinished_of_move (sound : state.Sound config)
    {move : TeeMove Store}
    (done : state.step config (.move id move) = some next) {other : κ}
    (running : next.unfinished other = some plan) :
    state.unfinished other = some plan := by
  obtain ⟨upload, moved, free, stored, moves, allowed, rfl⟩ :=
    move_eq_some done
  simp only [unfinished, Dict.get?_modify] at running ⊢
  by_cases same : other = id
  · subst other
    have active := (sound.fits id upload stored).not_finished moves
    have samePlan := TeeUpload.move_plan moves
    simp only [if_true, stored, Option.map_some, Option.bind_some,
      Option.ite_none_left_eq_some, Option.some.injEq] at running
    simp [stored, active, ← running.2, samePlan]
  · simpa [same] using running

/-- What begins joins the running uploads; nothing else does. -/
theorem unfinished_of_begin
    (done : state.step config (.begin id plan) = some next) {other : κ}
    {found : TeePlan Store} (running : next.unfinished other = some found) :
    Function.update state.unfinished id (some plan) other = some found := by
  obtain ⟨fresh, rfl⟩ := begin_eq_some done
  simp only [unfinished, Dict.get?_set] at running
  by_cases same : other = id
  · subst other
    simp only [if_true, Option.bind_some, Option.ite_none_left_eq_some,
      Option.some.injEq] at running
    rw [Function.update_self, ← running.2]
    rfl
  · simpa [same, unfinished] using running

theorem untangled_step (sound : state.Sound config)
    (loose : ¬Tangled config state.unfinished) {action : TeeAction κ Store}
    (allowed : state.Untangled config action)
    (done : state.step config action = some next) :
    next.Sound config ∧ ¬Tangled config next.unfinished := by
  cases action with
  | begin id plan =>
      refine ⟨sound.begin done, fun tangled => allowed ?_⟩
      exact tangled.mono fun other found => unfinished_of_begin done
  | move id move =>
      refine ⟨sound.move done, fun tangled => loose ?_⟩
      exact tangled.mono fun other found => sound.unfinished_of_move done

/-- If no participant can move, the waiting uploads are tangled. -/
theorem Sound.tangled_of_stuck (sound : state.Sound config)
    (stuck : ∀ id upload, state.uploads.get? id = some upload →
      TeeUpload.Stuck config state.free upload) {upload : TeeUpload Store}
    (stored : state.uploads.get? id = some upload) (active : ¬upload.Finished) :
    Tangled config state.unfinished := by
  have waiting : ∀ other found waited,
      state.uploads.get? other = some found →
      found.waitsAt = some waited →
      state.unfinished other = some found.plan := by
    intro other found waited here waits
    have running : ¬found.Finished := by
      rintro ⟨ready, fedAll, _⟩
      simp [TeeUpload.waitsAt, ready, fedAll] at waits
    simp [unfinished, here, running]
  -- a store without a free slot has a holder, and every holder waits
  obtain ⟨store, full⟩ :=
    (stuck id upload stored).exists_full_store (sound.fits id upload stored)
      active
  have heavy : 0 < state.uploads.weight
      fun upload => (upload.parts store).slots := by
    have total := sound.slots store
    have positive := config.slots_pos store
    omega
  obtain ⟨holder, found, here, holds⟩ := Dict.exists_of_weight_pos _ _ heavy
  obtain ⟨waited, waits, _⟩ := (stuck holder found here).holder_waits
    (sound.fits holder found here) holds
  refine ⟨state.uploads.filterMap TeeUpload.waitsAt, ?_, ?_⟩
  · intro other member
    obtain ⟨⟨_, place⟩, inside, rfl⟩ := List.mem_map.mp member
    obtain ⟨value, present, waitsThere⟩ :=
      (Dict.mem_items_filterMap _ _ _ _).mp inside
    rw [waiting _ value place present waitsThere, Option.isSome_some]
  · apply Knot.of_full state.uploads
      (fun store upload => (upload.parts store).slots) TeeUpload.waitsAt
      _ _ _ here waits
    · intro other value place present
      exact (stuck other value present).slots_le_one place
    · intro other value place present taken
      obtain ⟨spot, waitsThere, possible⟩ :=
        (stuck other value present).holder_waits
          (sound.fits other value present) taken
      exact ⟨spot, waitsThere, value.plan,
        waiting other value spot present waitsThere, possible⟩
    · intro other value place present waitsThere
      have none := (stuck other value present).waits_no_slot
        (sound.fits other value present) waitsThere
      have total := sound.slots place
      omega

end TeeSystem

/-- In every run in which no upload that begins tangles with the unfinished
ones, some participant can move for as long as an upload is not finished. -/
theorem untangled_uploads_progress [DecidableEq κ] [DecidableEq Store]
    (config : TeeConfig Store) {state : TeeSystem κ Store}
    (reached : ReachableWithin (TeeSystem.step config)
      (TeeSystem.Untangled config) (TeeSystem.idle config) state)
    {id : κ} {upload : TeeUpload Store}
    (stored : state.uploads.get? id = some upload)
    (active : ¬upload.Finished) :
    ∃ (mover : κ) (move : TeeMove Store) (next : TeeSystem κ Store),
      state.step config (.move mover move) = some next := by
  obtain ⟨sound, loose⟩ : state.Sound config ∧
      ¬Tangled config state.unfinished := by
    apply reached.invariant
    · intro before action after holds allowed done
      exact TeeSystem.untangled_step holds.1 holds.2 allowed done
    · refine ⟨TeeSystem.idle_sound, ?_⟩
      rintro ⟨waits, planned, knot⟩
      obtain ⟨waiting, member⟩ := List.exists_mem_of_ne_nil _ knot.nonempty
      cases planned waiting.1 (List.mem_map.mpr ⟨waiting, member, rfl⟩)
  by_contra still
  apply loose
  apply sound.tangled_of_stuck _ stored active
  intro mover found present move moved moves
  cases allowed : move.slots state.free with
  | none => rfl
  | some free =>
      apply (still ⟨mover, move, _, ?_⟩).elim
      · exact { uploads := state.uploads.modify mover fun _ => moved
                free := free }
      · simp [TeeSystem.step, present, moves, allowed]

/-- Uploads for which every store has a slot each do not tangle. -/
theorem not_tangled_of_few {config : TeeConfig Store}
    {plans : κ → Option (TeePlan Store)} {ids : List κ}
    (few : ∀ store, ids.length ≤ config.maxConcurrentUploads store)
    (only : ∀ id, (plans id).isSome → id ∈ ids) : ¬Tangled config plans := by
  intro tangled
  obtain ⟨waits, store, planned, less⟩ := tangled.slots_lt
  have inside : waits.keys ⊆ ids := fun id waiting =>
    only id (planned id waiting)
  have atMost : waits.keys.length ≤ ids.length :=
    (List.subperm_of_subset waits.nodup inside).length_le
  have slots := few store
  simp only [Dict.keys, List.length_map] at atMost
  simp only [Dict.size] at less
  omega

theorem few_uploads_untangled [DecidableEq κ] [DecidableEq Store]
    {config : TeeConfig Store} {ids : List κ}
    (few : ∀ store, ids.length ≤ config.maxConcurrentUploads store)
    {actions : List (TeeAction κ Store)}
    (begun : ∀ id plan, .begin id plan ∈ actions → id ∈ ids)
    {state : TeeSystem κ Store}
    (only : ∀ id, (state.unfinished id).isSome → id ∈ ids)
    (sound : state.Sound config) :
    Guarded (TeeSystem.step config) (TeeSystem.Untangled config) state
      actions := by
  induction actions generalizing state with
  | nil => trivial
  | cons action actions induction =>
      have later : ∀ id plan, .begin id plan ∈ actions → id ∈ ids :=
        fun id plan member => begun id plan (List.mem_cons_of_mem _ member)
      cases action with
      | begin id plan =>
          have here := begun id plan List.mem_cons_self
          have joined : ∀ other, (Function.update state.unfinished id
              (some plan) other).isSome → other ∈ ids := by
            intro other planned
            by_cases same : other = id
            · rwa [same]
            · rw [Function.update_of_ne same] at planned
              exact only other planned
          refine ⟨not_tangled_of_few few joined, fun next done => ?_⟩
          apply induction later _ (sound.begin done)
          intro other running
          obtain ⟨found, running⟩ := Option.isSome_iff_exists.mp running
          apply joined
          rw [TeeSystem.unfinished_of_begin done running, Option.isSome_some]
      | move id move =>
          refine ⟨trivial, fun next done => ?_⟩
          apply induction later _ (sound.move done)
          intro other running
          obtain ⟨found, running⟩ := Option.isSome_iff_exists.mp running
          apply only
          rw [sound.unfinished_of_move done running, Option.isSome_some]

/-- Discord stores with parts of two mebibytes and the smallest tee buffer. -/
def mirroredConfig (more : Nat) : TeeConfig Nat :=
  { maxConcurrentUploads := fun _ => more + 1
    maxPartBytes := fun _ => 2097152
    teeBuffer := 1048576
    slots_pos := fun _ => Nat.succ_pos more
    part_pos := fun _ => by decide }

/-- Four mebibytes into the store 0 with the mirror 1. -/
def mirroredPlan : TeePlan Nat :=
  { size := 4194304
    primary := some 0
    targets := [1]
    size_pos := by decide
    targets_ne := by simp
    targets_nodup := by simp
    primary_not_target := by simp }

/-- The second upload begins when the primary of the first has asked for the
slot of its second part and the mirror of the first has not. -/
def overtakenRun : List (TeeAction Nat Nat) :=
  [.begin 0 mirroredPlan, .move 0 (.acquire 0), .move 0 (.acquire 1),
    .move 0 (.read readChunk), .move 0 .feed, .move 0 (.stream 1),
    .move 0 (.read readChunk), .move 0 .feed, .move 0 (.readPart 0),
    .begin 1 mirroredPlan, .move 0 (.stream 1), .move 0 (.readPart 1),
    .move 0 (.sendPart 0), .move 0 (.acquire 0), .move 0 (.sendPart 1),
    .move 1 (.acquire 1), .move 0 (.read readChunk), .move 0 .feed,
    .move 0 (.read readChunk)]

/-- With two slots in each store the uploads go on. -/
theorem overtaken_uploads_progress : ∃ state : TeeSystem Nat Nat,
    run (TeeSystem.step (mirroredConfig 1)) (TeeSystem.idle (mirroredConfig 1))
        overtakenRun = some state ∧
      (∀ id < 2, ∃ upload, state.uploads.get? id = some upload ∧
        ¬upload.Finished) ∧
      ∃ (mover : Nat) (move : TeeMove Nat) (next : TeeSystem Nat Nat),
        state.step (mirroredConfig 1) (.move mover move) = some next := by
  have active : (run (TeeSystem.step (mirroredConfig 1))
      (TeeSystem.idle (mirroredConfig 1)) overtakenRun).any fun state =>
        (state.uploads.get? 0).any (fun upload => ¬upload.Finished) &&
          (state.uploads.get? 1).any fun upload => ¬upload.Finished := by
    decide +kernel
  obtain ⟨state, finished, active⟩ := (Option.any_eq_true _ _).mp active
  obtain ⟨first, second⟩ := Bool.and_eq_true_iff.mp active
  obtain ⟨upload, stored, unfinished⟩ := (Option.any_eq_true _ _).mp first
  obtain ⟨other, stored', unfinished'⟩ := (Option.any_eq_true _ _).mp second
  have within : ReachableWithin (TeeSystem.step (mirroredConfig 1))
      (TeeSystem.Untangled (mirroredConfig 1))
      (TeeSystem.idle (mirroredConfig 1)) state := by
    refine ⟨overtakenRun, ?_, finished⟩
    apply few_uploads_untangled (fun _ => le_rfl : ∀ store : Nat,
      [0, 1].length ≤ (mirroredConfig 1).maxConcurrentUploads store)
    · intro id plan begun
      simp only [overtakenRun, List.mem_cons, TeeAction.begin.injEq,
        reduceCtorEq, false_or, or_false, List.not_mem_nil] at begun
      rcases begun with ⟨rfl, _⟩ | ⟨rfl, _⟩
      · decide
      · decide
    · intro id running
      cases running
    · exact TeeSystem.idle_sound
  refine ⟨state, finished, ?_, ?_⟩
  · intro id small
    obtain rfl | rfl : id = 0 ∨ id = 1 := by omega
    · exact ⟨upload, stored, by simpa using unfinished⟩
    · exact ⟨other, stored', by simpa using unfinished'⟩
  · exact untangled_uploads_progress (mirroredConfig 1) within stored
      (by simpa using unfinished)

/-- With one slot in each store the first upload has that of the primary and
the second that of the mirror, and neither can move again. -/
theorem overtaken_uploads_deadlock : ∃ state : TeeSystem Nat Nat,
    run (TeeSystem.step (mirroredConfig 0)) (TeeSystem.idle (mirroredConfig 0))
        overtakenRun = some state ∧
      (∃ id upload, state.uploads.get? id = some upload ∧
        ¬upload.Finished) ∧
      ∀ mover move,
        state.step (mirroredConfig 0) (.move mover move) = none := by
  have runs : (run (TeeSystem.step (mirroredConfig 0))
      (TeeSystem.idle (mirroredConfig 0)) overtakenRun).isSome := by
    decide +kernel
  obtain ⟨state, finished⟩ := Option.isSome_iff_exists.mp runs
  have active : (run (TeeSystem.step (mirroredConfig 0))
      (TeeSystem.idle (mirroredConfig 0)) overtakenRun).all fun state =>
        (state.uploads.get? 0).any fun upload => ¬upload.Finished := by
    decide +kernel
  have quiet : (run (TeeSystem.step (mirroredConfig 0))
      (TeeSystem.idle (mirroredConfig 0)) overtakenRun).all fun state =>
        state.uploads.items.all fun item =>
          item.2.Quiet (mirroredConfig 0) state.free := by
    decide +kernel
  rw [finished, Option.all_some] at active quiet
  refine ⟨state, finished, ?_, ?_⟩
  · obtain ⟨upload, stored, unfinished⟩ := (Option.any_eq_true _ _).mp active
    exact ⟨0, upload, stored, by simpa using unfinished⟩
  · have sound : state.Sound (mirroredConfig 0) := by
      have reached : Reachable (TeeSystem.step (mirroredConfig 0))
          (TeeSystem.idle (mirroredConfig 0)) state := ⟨_, finished⟩
      apply reached.invariant
      · intro before action after holds done
        cases action with
        | begin id plan => exact holds.begin done
        | move id move => exact holds.move done
      · exact TeeSystem.idle_sound
    intro mover move
    by_contra moves
    obtain ⟨next, done⟩ := Option.ne_none_iff_exists'.mp moves
    obtain ⟨upload, moved, free, stored, moves, allowed, _⟩ :=
      TeeSystem.move_eq_some done
    have member := (Dict.get?_eq_some_iff _ _ _).mp stored
    have still := List.all_eq_true.mp quiet _ member
    have stuck := TeeUpload.Quiet.stuck (sound.fits mover upload stored)
      (by simpa using still)
    rw [stuck move moved moves] at allowed
    cases allowed

end Tgdcfs
