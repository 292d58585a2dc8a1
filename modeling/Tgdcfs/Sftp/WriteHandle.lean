import Tgdcfs.Core.StoredFileContent
import Tgdcfs.Lib.Sparse

/-!
# Writing through an SFTP handle

Opening for writing makes a missing file and hands out a handle with an empty
spool.  The writes of the client go to the spool, at any offset, and closing
the handle uploads the spool if there was a write.  What the file held before
is not spooled, and the flag that truncates it is not looked at.
-/

namespace Tgdcfs

open Lib

def SPOOL_READ_CHUNK : Nat := 1024 * 1024

structure WriteHandle where
  spool : Bytes := []
  size : Nat := 0
  dirty : Bool := false
  closed : Bool := false

/-- The bits of `pflags` beside `FXF_WRITE`. -/
structure OpenFlags where
  append : Bool := false
  creat : Bool := false
  trunc : Bool := false
  excl : Bool := false

namespace WriteHandle

/-- `write`; the spool fills a gap with zeros. -/
def write (handle : WriteHandle) (offset : Nat) (data : Bytes) :
    Option WriteHandle :=
  if handle.closed then none
  else
    some
      { handle with
        spool := writeAt 0 handle.spool offset data
        size := max handle.size (offset + data.length)
        dirty := true }

def writeAll : WriteHandle → List (Nat × Bytes) → Option WriteHandle
  | handle, [] => some handle
  | handle, (offset, data) :: writes =>
      (handle.write offset data).bind fun written => written.writeAll writes

/-- `_iter_spool`.  Every chunk has a byte at least, so that as many rounds
as bytes are enough. -/
def iterSpool : Nat → Nat → Bytes → List Bytes
  | 0, _, _ => []
  | rounds + 1, remaining, spool =>
      if remaining = 0 then []
      else
        let chunk := spool.take (min SPOOL_READ_CHUNK remaining)
        if chunk.isEmpty then []
        else
          chunk :: iterSpool rounds (remaining - chunk.length)
            (spool.drop chunk.length)

def chunks (handle : WriteHandle) : List Bytes :=
  iterSpool handle.size handle.size handle.spool

/-- `close`; `none` when the upload raises. -/
def close (handle : WriteHandle) (state : StoredFile) (repo : FDRepository)
    (kind : PrimaryKind) (name : Name) (intake : Intake)
    (write : DescriptorWrite) : Option (StoredFile × WriteHandle) :=
  if handle.closed then some (state, handle)
  else
    let shut := { handle with closed := true }
    if handle.dirty then
      (state.uploadFromStream repo kind name handle.chunks handle.size intake
        write).map fun after => (after, shut)
    else some (state, shut)

end WriteHandle

namespace StoredFile

/-- `_open_for_write` for a path that is no directory. -/
def openForWrite (state : StoredFile) (repo : FDRepository) (name : Name)
    (readonly : Bool) (flags : OpenFlags) (create : DescriptorWrite) :
    Option (StoredFile × WriteHandle) :=
  if readonly ∨ flags.append then none
  else if !state.missing && flags.excl then none
  else if state.missing && !flags.creat then none
  else (state.touch repo name create).map fun touched => (touched, {})

end StoredFile

namespace WriteHandle

/-- The writes of an open handle are applied to its spool, which the size
covers. -/
theorem writeAll_spec {handle written : WriteHandle}
    {writes : List (Nat × Bytes)} (open_ : handle.closed = false)
    (covered : handle.spool.length ≤ handle.size)
    (done : handle.writeAll writes = some written) :
    written.closed = false ∧
      written.spool = applyWrites 0 writes handle.spool ∧
      written.spool.length ≤ written.size ∧
      written.dirty = (handle.dirty || !writes.isEmpty) := by
  induction writes generalizing handle with
  | nil =>
      cases done
      refine ⟨open_, rfl, covered, ?_⟩
      rw [List.isEmpty_nil, Bool.not_true, Bool.or_false]
  | cons write writes induction =>
      obtain ⟨offset, data⟩ := write
      rw [writeAll, WriteHandle.write, open_, if_neg Bool.false_ne_true,
        Option.bind_some] at done
      obtain ⟨still, spool, fits, dirty⟩ := induction (by rfl) (by
        apply length_writeAt_le
        · exact covered.trans (Nat.le_max_left _ _)
        · intro _
          exact Nat.le_max_right _ _) done
      refine ⟨still, spool, fits, ?_⟩
      rw [dirty, List.isEmpty_cons, Bool.true_or, Bool.not_false, Bool.or_true]

theorem iterSpool_flatten (rounds remaining : Nat) (spool : Bytes)
    (enough : remaining ≤ rounds) :
    (iterSpool rounds remaining spool).flatten = spool.take remaining := by
  induction rounds generalizing remaining spool with
  | zero =>
      obtain rfl : remaining = 0 := Nat.le_zero.mp enough
      rfl
  | succ rounds induction =>
      rw [iterSpool]
      split
      · rename_i done
        rw [done]
        rfl
      · rename_i more
        dsimp only
        split
        · rename_i empty
          rw [List.isEmpty_iff, List.take_eq_nil_iff] at empty
          have positive : 0 < SPOOL_READ_CHUNK := by decide
          have nothing : spool = [] := empty.resolve_left (by omega)
          rw [nothing, List.take_nil]
          rfl
        · rename_i filled
          have length : 0 < (spool.take
              (min SPOOL_READ_CHUNK remaining)).length := by
            rw [List.length_pos_iff]
            simpa using filled
          have short : (spool.take (min SPOOL_READ_CHUNK remaining)).length ≤
              remaining := by
            rw [List.length_take]
            omega
          obtain ⟨rest, joined⟩ :=
            List.take_prefix (min SPOOL_READ_CHUNK remaining) spool
          rw [List.flatten_cons, induction _ _ (by omega)]
          generalize spool.take (min SPOOL_READ_CHUNK remaining) = chunk at *
          rw [← joined, List.drop_left, List.take_append,
            List.take_of_length_le short]

/-- Closing a handle without writes leaves the file alone; otherwise the
spool is served, unless a rival hides it. -/
theorem close_spec {repo : FDRepository} {kind : PrimaryKind} {name : Name}
    {state after : StoredFile} {handle shut : WriteHandle} {intake : Intake}
    {write : DescriptorWrite} (sound : state.Sound repo)
    (open_ : handle.closed = false)
    (covered : handle.spool.length ≤ handle.size)
    (done : handle.close state repo kind name intake write =
      some (after, shut)) :
    (handle.dirty = false → after = state) ∧
      (handle.dirty = true → after.Sound repo ∧
        ∀ later, after.content repo later =
          (state.rival repo write.now).elim (some handle.spool)
            (state.contents.bytes repo)) := by
  rw [close, open_, if_neg Bool.false_ne_true] at done
  constructor
  · intro clean
    rw [clean, if_neg Bool.false_ne_true] at done
    cases done
    rfl
  · intro dirty
    rw [dirty, if_pos rfl] at done
    obtain ⟨written, uploaded, same⟩ := Option.map_eq_some_iff.mp done
    cases same
    have spooled : handle.chunks.flatten = handle.spool.take handle.size :=
      iterSpool_flatten _ _ _ le_rfl
    have solid : 0 < handle.size ∨ handle.chunks.flatten = [] := by
      rcases Nat.eq_zero_or_pos handle.size with empty | filled
      · right
        rw [spooled, empty, List.take_zero]
      · exact .inl filled
    obtain ⟨_, writtenSound, served⟩ :=
      StoredFile.uploadFromStream_spec sound solid uploaded
    refine ⟨writtenSound, fun later => ?_⟩
    rw [served later, spooled, List.take_take, Nat.min_self,
      List.take_of_length_le covered]

end WriteHandle

end Tgdcfs
