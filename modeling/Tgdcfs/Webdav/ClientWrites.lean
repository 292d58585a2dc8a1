import Tgdcfs.Sftp.WriteHandle

/-!
# What a client leaves when it writes a file

A WebDAV PUT takes the size of its body from the `Content-Length` header and
uploads nothing when that is zero or absent.  An SFTP client opens a file,
writes at any offsets and closes it.  Either should leave its payload: the
body, or the writes applied to what the file held when it was opened.
-/

namespace Tgdcfs

open Lib

/-- The answers of a PUT. -/
inductive PutAnswer where
  | created
  | conflict
  | forbidden
  deriving DecidableEq, Repr

/-- What is found at the path of a request when no file is there, and above
it. -/
structure Place where
  folder : Bool := false
  parentIsFolder : Bool := true
  refusesMembers : Bool := false

/-- What the environment adds to a request: where its path leads, whether the
SFTP server is read-only, and how the descriptor is written when a file is
made and when its bytes are recorded. -/
structure RequestContext where
  place : Place := {}
  readonly : Bool := false
  create : DescriptorWrite
  intake : Intake
  write : DescriptorWrite

namespace StoredFile

/-- `put`, after `int` was applied to the header. -/
def put (state : StoredFile) (repo : FDRepository) (kind : PrimaryKind)
    (name : Name) (context : RequestContext) (contentLength : Option Int)
    (body : List Bytes) : Option (StoredFile × PutAnswer) :=
  let size := contentLength.getD 0
  if state.missing && context.place.folder then some (state, .conflict)
  else if state.missing && !context.place.parentIsFolder then
    some (state, .conflict)
  else if state.missing && context.place.refusesMembers then
    some (state, .forbidden)
  else
    (state.touch repo name context.create).bind fun touched =>
      if 0 < size then
        (touched.uploadFromStream repo kind name body size.toNat
          context.intake context.write).map fun after => (after, .created)
      else some (touched, .created)

/-- An SFTP client opens the file for writing, writes and closes. -/
def writeSession (state : StoredFile) (repo : FDRepository)
    (kind : PrimaryKind) (name : Name) (context : RequestContext)
    (flags : OpenFlags) (writes : List (Nat × Bytes)) : Option StoredFile :=
  (state.openForWrite repo name context.readonly flags context.create).bind
    fun (opened, handle) =>
      (handle.writeAll writes).bind fun written =>
        (written.close opened repo kind name context.intake
          context.write).map Prod.fst

/-- What the file holds before a request; nothing if it is missing. -/
def previous (state : StoredFile) (repo : FDRepository)
    (context : RequestContext) : Bytes :=
  (state.content repo context.write.now).getD []

end StoredFile

inductive ClientWrite where
  | put (contentLength : Option Int) (body : List Bytes)
  | sftp (flags : OpenFlags) (writes : List (Nat × Bytes))

namespace ClientWrite

/-- The request; `none` unless it is answered with success. -/
def run (state : StoredFile) (repo : FDRepository) (kind : PrimaryKind)
    (name : Name) (context : RequestContext) :
    ClientWrite → Option StoredFile
  | .put contentLength body =>
      (state.put repo kind name context contentLength body).bind
        fun (after, answer) => if answer = .created then some after else none
  | .sftp flags writes =>
      state.writeSession repo kind name context flags writes

/-- What the writes of an SFTP client start from. -/
def base (previous : Bytes) (missing : Bool) (flags : OpenFlags) : Bytes :=
  if flags.trunc || missing then [] else previous

/-- The payload of a request, which the file should hold afterwards. -/
def payload (previous : Bytes) (missing : Bool) : ClientWrite → Bytes
  | .put _ body => body.flatten
  | .sftp flags writes => applyWrites 0 writes (base previous missing flags)

/-- When a PUT leaves its body.  A readable version dated after the clock
hides what is uploaded, and the body is there only if it is the bytes of that
version. -/
def PutExact (state : StoredFile) (repo : FDRepository)
    (context : RequestContext) (contentLength : Option Int)
    (body : List Bytes) : Prop :=
  if 0 < contentLength.getD 0 then
    (state.rival repo context.write.now).elim
      (contentLength.getD 0 = body.flatten.length) fun version =>
        state.contents.bytes repo version = some body.flatten
  else state.previous repo context = body.flatten

/-- When an SFTP session leaves its writes: without any there is nothing to
truncate, and otherwise no byte of the base survives that is not a zero which
the spool has too. -/
def SessionExact (state : StoredFile) (repo : FDRepository)
    (context : RequestContext) (flags : OpenFlags)
    (writes : List (Nat × Bytes)) : Prop :=
  let base := base (state.previous repo context) state.missing flags
  if writes = [] then flags.trunc = true → state.previous repo context = []
  else
    (state.rival repo context.write.now).elim
      (∀ position byte, base[position]? = some byte →
        (∃ write ∈ writes, Covers position write) ∨
          byte = 0 ∧ ∃ write ∈ writes, Reaches position write)
      fun version => state.contents.bytes repo version =
        some (applyWrites 0 writes base)

/-- When the file holds the payload afterwards. -/
def Exact (state : StoredFile) (repo : FDRepository)
    (context : RequestContext) : ClientWrite → Prop
  | .put contentLength body => PutExact state repo context contentLength body
  | .sftp flags writes => SessionExact state repo context flags writes

section Exactness

variable {state after : StoredFile} {repo : FDRepository}
  {kind : PrimaryKind} {name : Name} {context : RequestContext}

/-- The file a request goes on with: the one that was there, or a new one
without bytes and rivals. -/
theorem touched_spec {touched : StoredFile} (sound : state.Sound repo)
    (touches : state.touch repo name context.create = some touched) :
    touched.Sound repo ∧
      touched.rival repo context.write.now =
        state.rival repo context.write.now ∧
      (∀ version, state.rival repo context.write.now = some version →
        touched.contents.bytes repo version =
          state.contents.bytes repo version) ∧
      ∀ later, touched.content repo later =
        some (state.previous repo context) := by
  cases missing : state.missing with
  | true =>
      obtain ⟨touchedSound, _, empty, alone⟩ :=
        StoredFile.touch_spec sound missing touches
      have nothing := @StoredFile.rival_of_missing repo _ missing
        context.write.now
      refine ⟨touchedSound, (alone _).trans nothing.symm, ?_, ?_⟩
      · intro version rival
        rw [nothing] at rival
        cases rival
      · intro later
        rw [empty later, StoredFile.previous, StoredFile.content,
          Option.isNone_iff_eq_none.mp missing]
        rfl
  | false =>
      rw [StoredFile.touch, missing, if_neg Bool.false_ne_true] at touches
      cases touches
      obtain ⟨data, content⟩ := sound.content missing
      refine ⟨sound, rfl, fun _ _ => rfl, ?_⟩
      intro later
      rw [content later, StoredFile.previous, content, Option.getD_some]

theorem previous_of_missing (missing : state.missing = true) :
    state.previous repo context = [] := by
  rw [StoredFile.previous, StoredFile.content,
    Option.isNone_iff_eq_none.mp missing]
  rfl

/-- What an upload leaves is the payload exactly when it was uploaded and
nothing hides it, or what hides it is the payload. -/
theorem served_iff {touched : StoredFile} {uploaded payload : Bytes}
    (rivals : touched.rival repo context.write.now =
      state.rival repo context.write.now)
    (same : ∀ version, state.rival repo context.write.now = some version →
      touched.contents.bytes repo version =
        state.contents.bytes repo version) :
    (touched.rival repo context.write.now).elim (some uploaded)
        (touched.contents.bytes repo) = some payload ↔
      (state.rival repo context.write.now).elim (uploaded = payload)
        fun version =>
          state.contents.bytes repo version = some payload := by
  rw [rivals]
  cases rival : state.rival repo context.write.now with
  | none => exact Option.some_inj
  | some version =>
      rw [Option.elim_some, Option.elim_some, same version rival]

theorem run_put {contentLength : Option Int} {body : List Bytes}
    (done : (ClientWrite.put contentLength body).run state repo kind name
      context = some after) :
    state.put repo kind name context contentLength body =
      some (after, .created) := by
  obtain ⟨⟨left, answer⟩, answered, made⟩ :=
    Option.bind_eq_some_iff.mp done
  change (if answer = .created then some left else none) = some after at made
  split at made
  · rename_i created
    cases made
    rw [answered, created]
  · cases made

theorem put_exact_iff (sound : state.Sound repo) {contentLength : Option Int}
    {body : List Bytes}
    (done : state.put repo kind name context contentLength body =
      some (after, .created)) :
    after.Sound repo ∧ ∀ later,
      (after.content repo later = some body.flatten ↔
        PutExact state repo context contentLength body) := by
  unfold StoredFile.put at done
  dsimp only at done
  split at done
  · cases done
  split at done
  · cases done
  split at done
  · cases done
  obtain ⟨touched, touches, rest⟩ := Option.bind_eq_some_iff.mp done
  obtain ⟨touchedSound, rivals, same, empty⟩ := touched_spec sound touches
  unfold PutExact
  split at rest
  · rename_i positive
    obtain ⟨written, uploaded, equal⟩ := Option.map_eq_some_iff.mp rest
    cases equal
    obtain ⟨enough, afterSound, served⟩ :=
      StoredFile.uploadFromStream_spec touchedSound (.inl (by omega)) uploaded
    refine ⟨afterSound, fun later => ?_⟩
    have whole : body.flatten.take (contentLength.getD 0).toNat =
        body.flatten ↔ contentLength.getD 0 = body.flatten.length := by
      rw [List.take_eq_self_iff]
      omega
    rw [served later, served_iff rivals same, if_pos positive]
    simp only [whole]
  · rename_i nothing
    cases rest
    refine ⟨touchedSound, fun later => ?_⟩
    rw [empty later, if_neg nothing]
    exact Option.some_inj

theorem session_exact_iff (sound : state.Sound repo) {flags : OpenFlags}
    {writes : List (Nat × Bytes)}
    (done : state.writeSession repo kind name context flags writes =
      some after) :
    after.Sound repo ∧ ∀ later,
      (after.content repo later = some (applyWrites 0 writes
          (base (state.previous repo context) state.missing flags)) ↔
        SessionExact state repo context flags writes) := by
  obtain ⟨⟨opened, handle⟩, opens, rest⟩ := Option.bind_eq_some_iff.mp done
  obtain ⟨written, wrote, closes⟩ := Option.bind_eq_some_iff.mp rest
  obtain ⟨⟨left, shut⟩, closed, equal⟩ := Option.map_eq_some_iff.mp closes
  cases equal
  unfold StoredFile.openForWrite at opens
  split at opens
  · cases opens
  split at opens
  · cases opens
  split at opens
  · cases opens
  obtain ⟨touched, touches, equal⟩ := Option.map_eq_some_iff.mp opens
  cases equal
  obtain ⟨touchedSound, rivals, same, empty⟩ := touched_spec sound touches
  obtain ⟨open_, spool, covered, dirty⟩ :=
    WriteHandle.writeAll_spec (by rfl) (by exact le_rfl) wrote
  obtain ⟨clean, uploads⟩ :=
    WriteHandle.close_spec touchedSound open_ covered closed
  unfold SessionExact
  by_cases silent : writes = []
  · subst silent
    cases clean dirty
    refine ⟨touchedSound, fun later => ?_⟩
    rw [empty later, Option.some_inj, if_pos rfl, applyWrites, base]
    by_cases truncates : flags.trunc = true
    · simp [truncates]
    · by_cases missing : state.missing = true
      · simp [missing, previous_of_missing missing]
      · simp [truncates, missing]
  · have wroteSome : written.dirty = true := by
      rw [dirty]
      simpa using silent
    obtain ⟨afterSound, served⟩ := uploads wroteSome
    refine ⟨afterSound, fun later => ?_⟩
    rw [served later, served_iff rivals same, if_neg silent, spool]
    have fits := @applyWrites_eq_empty_iff UInt8 0 writes
      (base (state.previous repo context) state.missing flags)
    rw [← fits]
    cases state.rival repo context.write.now with
    | none => exact eq_comm
    | some version => exact Iff.rfl

end Exactness

end ClientWrite

namespace ClientWrite

open FileHistory (alone noMirrors)

/-- A file that does not exist yet. -/
def nothingYet : StoredFile :=
  { history := ⟨none, Dict.empty⟩
    contents := ⟨Dict.empty, Dict.empty⟩ }

def inParts (first second : String) (lengths : List (List Nat))
    (ids : List Int) : RequestContext :=
  { create := ⟨first, ⟨5, false⟩, 90, noMirrors⟩
    intake := .sent lengths (ids.map fun messageId =>
      { messageId := messageId, size := 0 })
    write := ⟨second, ⟨6, false⟩, 91, noMirrors⟩ }

theorem smallParts_pos : 0 < 4 := by decide

def smallParts : PrimaryKind := .discord 4 smallParts_pos

/-- Writes that overlap before a gap and behind it. -/
def overlappingWrites : ClientWrite :=
  .sftp { creat := true, trunc := true } [(4, [7]), (0, [8, 8]), (1, [9])]

/-- A body without a `Content-Length`. -/
def chunkedPut : ClientWrite := .put none [[1]]

theorem nothingYet_sound : nothingYet.Sound alone :=
  ⟨.inl rfl, nofun, nofun⟩

end ClientWrite

end Tgdcfs
