import Mathlib.Logic.Function.Basic
import Tgdcfs.Lib.Dict
import Tgdcfs.Lib.Knot
import Tgdcfs.Lib.Run

/-!
# Tee'd uploads that run at the same time

With `sync: tee` the stream of a client's upload is split: what the primary
store reads is fed, chunk by chunk, into one bounded branch per mirror, and
every mirror uploads what its branch delivers.  A Discord store reads a part
only under one of its upload slots and sends it under the same slot; the slots
are shared by every upload that goes to the store.  The model has the producer
(`TeeFileMessage.read` and `TeeBranch.feed`), the branches, the consumers
(`TeeBranch.stream` under `DiscordStore.upload`) and the slot semaphores; a
branch carries the lengths of its chunks.

The runs modelled are those in which the client delivers all bytes and no
store request fails, so a branch is detached only when its mirror has all
bytes and nothing is fed into it any more.
-/

namespace Tgdcfs

open Lib

/-- `READ_CHUNK` of the Discord store: the largest single read. -/
def readChunk : Nat := 1024 * 1024

/-- What the configuration says about the Discord stores and the tee. -/
structure TeeConfig (Store : Type*) where
  maxConcurrentUploads : Store → Nat
  maxPartBytes : Store → Nat
  teeBuffer : Nat
  slots_pos : ∀ store, 0 < maxConcurrentUploads store
  part_pos : ∀ store, 0 < maxPartBytes store

/-- `TeeBranch._capacity`. -/
def TeeConfig.capacity {Store : Type*} (config : TeeConfig Store) : Nat :=
  max 1 config.teeBuffer

/-- An upload that `MirrorGroup.tee` splits.  A Telegram primary takes no slot
and is left out (`primary = none`); `targets` are the re-uploading
mirrors, Discord stores too. -/
structure TeePlan (Store : Type*) where
  size : Nat
  primary : Option Store
  targets : List Store
  size_pos : 0 < size
  targets_ne : targets ≠ []
  targets_nodup : targets.Nodup
  primary_not_target : ∀ store ∈ primary, store ∉ targets

/-- The Discord stores that receive the upload. -/
def TeePlan.stores {Store : Type*} (plan : TeePlan Store) : List Store :=
  plan.primary.toList ++ plan.targets

/-- `DiscordStore.upload` under way: `offset` is `size - remaining`, `reading`
says that a slot is held by `_read_part`, `received` counts the bytes that came
off the branch, and `sending` counts the parts that are sent, each under the
slot it was read with. -/
structure PartUpload where
  offset : Nat
  received : Nat
  reading : Bool
  sending : Nat

def PartUpload.start : PartUpload := ⟨0, 0, false, 0⟩

/-- The slots an upload holds at one store. -/
def PartUpload.slots (part : PartUpload) : Nat :=
  part.reading.toNat + part.sending

/-- One tee'd upload: `fed` is `TeeFileMessage._fed`, `chunk` the length of
the last chunk read and `feeding` the branches it has not been queued in yet;
`chunks` are the queues of the branches. -/
structure TeeUpload (Store : Type*) where
  plan : TeePlan Store
  fed : Nat
  chunk : Nat
  feeding : List Store
  chunks : Store → List Nat
  parts : Store → PartUpload

namespace TeeUpload

variable {Store : Type*}

def begin (plan : TeePlan Store) : TeeUpload Store :=
  { plan := plan
    fed := 0
    chunk := 0
    feeding := []
    chunks := fun _ => []
    parts := fun _ => PartUpload.start }

variable [DecidableEq Store]

/-- The bytes of the stream that have arrived at a store. -/
def taken (upload : TeeUpload Store) (store : Store) : Nat :=
  if upload.plan.primary = some store then upload.fed
  else (upload.parts store).received

/-- The end of the part that a store reads now or reads next. -/
def partEnd (config : TeeConfig Store) (upload : TeeUpload Store)
    (store : Store) : Nat :=
  (upload.parts store).offset +
    min (config.maxPartBytes store)
      (upload.plan.size - (upload.parts store).offset)

def setPart (upload : TeeUpload Store) (store : Store) (part : PartUpload) :
    TeeUpload Store :=
  { upload with parts := Function.update upload.parts store part }

/-- `TeeFileMessage.read`: the primary takes `length` bytes, at most what is
left.  A Discord primary reads inside `_read_part`, up to the end of the part;
a Telegram primary reads whenever the last chunk has gone into every branch. -/
def read (config : TeeConfig Store) (upload : TeeUpload Store)
    (length : Nat) : Option (TeeUpload Store) :=
  if upload.feeding = [] ∧ 0 < length ∧
      upload.fed + length ≤ upload.plan.size ∧
      ∀ store ∈ upload.plan.primary,
        (upload.parts store).reading ∧ length ≤ readChunk ∧
          upload.fed + length ≤ upload.partEnd config store then
    some { upload with
      fed := upload.fed + length
      chunk := length
      feeding := upload.plan.targets }
  else none

/-- `TeeBranch.feed` of the branch that comes next: it waits while the branch
holds bytes and the chunk does not fit. -/
def feed (config : TeeConfig Store) (upload : TeeUpload Store) :
    Option (TeeUpload Store) :=
  match upload.feeding with
  | [] => none
  | store :: feeding =>
      if (upload.chunks store).sum ≠ 0 ∧
          config.capacity < (upload.chunks store).sum + upload.chunk then
        none
      else
        some { upload with
          feeding := feeding
          chunks := Function.update upload.chunks store
            (upload.chunks store ++ [upload.chunk]) }

/-- `TeeBranch.stream` hands its first chunk to `_read_part`, which asks for
it while the part is not complete. -/
def stream (config : TeeConfig Store) (upload : TeeUpload Store)
    (store : Store) : Option (TeeUpload Store) :=
  match upload.chunks store with
  | [] => none
  | chunk :: chunks =>
      let part := upload.parts store
      if part.reading ∧ upload.taken store < upload.partEnd config store then
        some { upload.setPart store
            { part with received := part.received + chunk } with
          chunks := Function.update upload.chunks store chunks }
      else none

/-- The upload's side of `_upload_slots.acquire`, before the next part. -/
def acquire (upload : TeeUpload Store) (store : Store) :
    Option (TeeUpload Store) :=
  let part := upload.parts store
  if store ∈ upload.plan.stores ∧ ¬part.reading ∧
      part.offset < upload.plan.size then
    some (upload.setPart store { part with reading := true })
  else none

/-- `_read_part` returns the part and a task takes over its slot.  The last
read of a primary returns when its chunk is in every branch. -/
def readPart (config : TeeConfig Store) (upload : TeeUpload Store)
    (store : Store) : Option (TeeUpload Store) :=
  let part := upload.parts store
  if part.reading ∧ upload.partEnd config store ≤ upload.taken store ∧
      (upload.plan.primary = some store → upload.feeding = []) then
    some (upload.setPart store
      { part with
        offset := upload.partEnd config store
        reading := false
        sending := part.sending + 1 })
  else none

/-- `_send_part_with_slot` is done with one part. -/
def sendPart (upload : TeeUpload Store) (store : Store) :
    Option (TeeUpload Store) :=
  let part := upload.parts store
  if 0 < part.sending then
    some (upload.setPart store { part with sending := part.sending - 1 })
  else none

/-- The primary has read and sent everything, and so have the mirrors. -/
def Finished (upload : TeeUpload Store) : Prop :=
  upload.feeding = [] ∧ upload.fed = upload.plan.size ∧
    ∀ store ∈ upload.plan.stores,
      (upload.parts store).offset = upload.plan.size ∧
        (upload.parts store).slots = 0

instance (upload : TeeUpload Store) : Decidable upload.Finished :=
  inferInstanceAs (Decidable (_ ∧ _ ∧ _))

end TeeUpload

/-- What a participant of an upload does next. -/
inductive TeeMove (Store : Type*) where
  | read (length : Nat)
  | feed
  | stream (store : Store)
  | acquire (store : Store)
  | readPart (store : Store)
  | sendPart (store : Store)

section Moves

variable {Store : Type*} [DecidableEq Store]

/-- The move as its upload sees it. -/
def TeeUpload.move (config : TeeConfig Store) (upload : TeeUpload Store) :
    TeeMove Store → Option (TeeUpload Store)
  | .read length => upload.read config length
  | .feed => upload.feed config
  | .stream store => upload.stream config store
  | .acquire store => upload.acquire store
  | .readPart store => upload.readPart config store
  | .sendPart store => upload.sendPart store

/-- The move as the slot semaphores see it. -/
def TeeMove.slots (free : Store → Nat) : TeeMove Store → Option (Store → Nat)
  | .acquire store =>
      if free store = 0 then none
      else some (Function.update free store (free store - 1))
  | .sendPart store => some (Function.update free store (free store + 1))
  | _ => some free

end Moves

/-- All uploads, and the free upload slots of every Discord store. -/
structure TeeSystem (κ Store : Type*) where
  uploads : Dict κ (TeeUpload Store)
  free : Store → Nat

/-- A client starts an upload, or a participant of one makes a move. -/
inductive TeeAction (κ Store : Type*) where
  | begin (id : κ) (plan : TeePlan Store)
  | move (id : κ) (move : TeeMove Store)

namespace TeeSystem

variable {κ Store : Type*}

def idle (config : TeeConfig Store) : TeeSystem κ Store :=
  { uploads := Dict.empty
    free := config.maxConcurrentUploads }

variable [DecidableEq κ] [DecidableEq Store]

/-- One step of the product.  Any waiter may get a free slot, which covers
the order that `asyncio.Semaphore` serves them in. -/
def step (config : TeeConfig Store) (state : TeeSystem κ Store) :
    TeeAction κ Store → Option (TeeSystem κ Store)
  | .begin id plan =>
      if state.uploads.contains id then none
      else some { state with
        uploads := state.uploads.set id (TeeUpload.begin plan) }
  | .move id move =>
      (state.uploads.get? id).bind fun upload =>
        (upload.move config move).bind fun next =>
          (move.slots state.free).map fun free =>
            { uploads := state.uploads.modify id fun _ => next
              free := free }

/-- The plans of the uploads that are not finished. -/
def unfinished (state : TeeSystem κ Store) (id : κ) : Option (TeePlan Store) :=
  (state.uploads.get? id).bind fun upload =>
    if upload.Finished then none else some upload.plan

end TeeSystem

/-- While its producer waits for a slot of `waited`, an upload of this plan can
hold a slot of `held`: its own primary waits for a slot while a mirror reads,
or the branch of a mirror that waits for a slot is full.  Mirrors fed before
that branch have the chunk already, so they read on only if it is not the
last. -/
inductive TeePlan.HoldsWhile {Store : Type*} (plan : TeePlan Store)
    (capacity : Nat) : Store → Store → Prop where
  | primaryWaits {waited held : Store} (primary : plan.primary = some waited)
      (target : held ∈ plan.targets) : HoldsWhile plan capacity waited held
  | primaryHolds {waited held : Store} (primary : plan.primary = some held)
      (target : waited ∈ plan.targets) (full : capacity < plan.size) :
      HoldsWhile plan capacity waited held
  | fedLater {waited held : Store} {before after : List Store}
      (targets : plan.targets = before ++ waited :: after)
      (later : held ∈ after) (full : capacity < plan.size) :
      HoldsWhile plan capacity waited held
  | fedEarlier {waited held : Store} {before after : List Store}
      (targets : plan.targets = before ++ waited :: after)
      (earlier : held ∈ before) (full : capacity + 1 < plan.size) :
      HoldsWhile plan capacity waited held

/-- Some of the planned uploads can fill every store that one of them waits
for. -/
def Tangled {κ Store : Type*} (config : TeeConfig Store)
    (plans : κ → Option (TeePlan Store)) : Prop :=
  ∃ waits : Dict κ Store, (∀ id ∈ waits.keys, (plans id).isSome) ∧
    Knot config.maxConcurrentUploads
      (fun id waited held => ∃ plan, plans id = some plan ∧
        plan.HoldsWhile config.capacity waited held) waits

/-- An upload begins only if it tangles with none that is not finished. -/
def TeeSystem.Untangled {κ Store : Type*} [DecidableEq κ] [DecidableEq Store]
    (config : TeeConfig Store) (state : TeeSystem κ Store) :
    TeeAction κ Store → Prop
  | .begin id plan =>
      ¬Tangled config (Function.update state.unfinished id (some plan))
  | .move _ _ => True

theorem Tangled.mono {κ Store : Type*} {config : TeeConfig Store}
    {fewer plans : κ → Option (TeePlan Store)}
    (kept : ∀ id plan, fewer id = some plan → plans id = some plan)
    (tangled : Tangled config fewer) : Tangled config plans := by
  obtain ⟨waits, planned, knot⟩ := tangled
  refine ⟨waits, ?_, knot.mono ?_⟩
  · intro id waiting
    obtain ⟨plan, here⟩ := Option.isSome_iff_exists.mp (planned id waiting)
    rw [kept id plan here, Option.isSome_some]
  · rintro id waited held ⟨plan, here, holds⟩
    exact ⟨plan, kept id plan here, holds⟩

/-- No upload holds a slot of the store its producer waits for. -/
theorem TeePlan.HoldsWhile.ne {Store : Type*} {plan : TeePlan Store}
    {capacity : Nat} {waited held : Store}
    (holds : plan.HoldsWhile capacity waited held) : waited ≠ held := by
  rintro rfl
  have distinct := plan.targets_nodup
  cases holds with
  | primaryWaits primary target =>
      exact plan.primary_not_target waited primary target
  | primaryHolds primary target full =>
      exact plan.primary_not_target waited primary target
  | fedLater targets later full =>
      rw [targets] at distinct
      exact (List.nodup_cons.mp distinct.of_append_right).1 later
  | fedEarlier targets earlier full =>
      rw [targets] at distinct
      exact (List.nodup_append.mp distinct).2.2 waited earlier waited
        List.mem_cons_self rfl

/-- More uploads tangle than some store has slots, so stores with a slot for
every upload are safe. -/
theorem Tangled.slots_lt {κ Store : Type*} {config : TeeConfig Store}
    {plans : κ → Option (TeePlan Store)} (tangled : Tangled config plans) :
    ∃ (waits : Dict κ Store) (store : Store),
      (∀ id ∈ waits.keys, (plans id).isSome) ∧
        config.maxConcurrentUploads store < waits.size := by
  obtain ⟨waits, planned, knot⟩ := tangled
  obtain ⟨waiting, member⟩ := List.exists_mem_of_ne_nil _ knot.nonempty
  refine ⟨waits, waiting.2, planned, knot.slots_lt ?_ member⟩
  rintro id store ⟨plan, here, holds⟩
  exact holds.ne rfl

end Tgdcfs
