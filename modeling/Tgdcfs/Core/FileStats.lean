import Tgdcfs.Core.FileDescApi
import Tgdcfs.Lib.Run

/-!
# What listings show of a file

`FileStatApi` keeps size and dates of a file on its ref.  A stat is read from
the descriptor by a coroutine of its own; writes drop it and count an epoch
up, so that a read that began before is not kept.  Writes and the background
worker read a descriptor, change it and write it back, each with awaits in
between.  Refs are objects here: a move makes a new one.
-/

namespace Tgdcfs

open Lib

structure FileStat where
  size : Int
  createdAt : Int
  modifiedAt : Int
  deriving DecidableEq, Repr

namespace FDRepository

/-- What `get` makes of the text of a descriptor. -/
def readText (repo : FDRepository) (answers : Answers)
    (includeAll validate : Bool) (name : Name) (now : DateTime)
    (text : DescSerialized) : Except GetError TGFSFileDesc :=
  match TGFSFileDesc.fromDict text name now with
  | .error failure => .error (.format failure)
  | .ok desc =>
      let relocated := repo.relocateVersions desc
      if validate then repo.validateFv answers includeAll now relocated
      else .ok (repo.trustRecorded now relocated)

end FDRepository

/-- `stat_of`; `contentLength` is the size of a version as a client receives
it.  A pointer to a version that is not there raises. -/
def TGFSFileDesc.statOf (contentLength : TGFSFileVersion → Int)
    (desc : TGFSFileDesc) : Option FileStat :=
  let latest :=
    if desc.latestVersionId = INVALID_VERSION_ID then
      some (TGFSFileVersion.emptyVersion INVALID_VERSION_ID desc.createdAt)
    else desc.latestVersion?
  latest.map fun version =>
    match desc.versions.values with
    | [] =>
        { size := max 0 (contentLength version)
          createdAt := desc.createdAt.ts
          modifiedAt := desc.createdAt.ts }
    | first :: rest =>
        { size := max 0 (contentLength version)
          createdAt := rest.foldl
            (fun oldest version => min oldest version.updatedAtTimestamp)
            first.updatedAtTimestamp
          modifiedAt := version.updatedAtTimestamp }

/-- The stores and settings that a stat is read with; `answers` is what the
stores answer for content messages while all of them can be reached, `kept`
the stats that a listing finds written down from before the start. -/
structure StatReader where
  repo : FDRepository
  answers : Answers
  validate : Bool
  contentLength : TGFSFileVersion → Int
  kept : Int → Option FileStat

namespace StatReader

/-- The stat of a descriptor that was read in full, with what the stores
answered to the read. -/
def stat (reader : StatReader) (answers : Answers) (name : Name)
    (now : DateTime) (text : DescSerialized) : Option FileStat :=
  match reader.repo.readText answers false reader.validate name now text with
  | .error _ => none
  | .ok desc =>
      if desc.complete then desc.statOf reader.contentLength else none

/-- The stat is one that `stat_of` computes from the stored descriptor when
all stores can be reached; the time matters when no version is left. -/
def Computes (reader : StatReader) (text : DescSerialized)
    (stat : FileStat) : Prop :=
  ∃ name now, reader.stat reader.answers name now text = some stat

/-- A read of the descriptor with these answers that counts as complete finds
what it would find if all stores could be reached. -/
def Undisturbed (reader : StatReader) (answers : Answers)
    (text : DescSerialized) : Prop :=
  ∀ name now desc,
    reader.repo.readText answers false reader.validate name now text =
        .ok desc →
      desc.complete →
        reader.repo.readText reader.answers false reader.validate name now
          text = .ok desc

end StatReader

structure StatRef where
  messageId : Int
  name : Name
  location : Nat
  /-- Whether its directory lists it. -/
  attached : Bool
  stat : Option FileStat
  statEpoch : Nat

/-- `_fill`: the epoch it began in, and the stat once the descriptor was
read, if that was complete. -/
structure StatFill where
  epoch : Nat
  read : Option (Option FileStat)

/-- What a write does to the descriptor. -/
inductive DescChange where
  | append (version : TGFSFileVersion)
  | update (versionId : String) (version : TGFSFileVersion)
  | setLastModified (instant : DateTime)
  | deleteVersion (versionId : String)

def DescChange.apply (desc : TGFSFileDesc) :
    DescChange → Except DescError TGFSFileDesc
  | .append version => desc.addVersion version
  | .update versionId version =>
      .ok { desc with versions := desc.versions.set versionId version }
  | .setLastModified instant => desc.setLastModified instant
  | .deleteVersion versionId => desc.deleteVersion versionId

/-- A write of a file: it reads the descriptor, sends the bytes, writes the
descriptor to its message or to a new one and points the ref there. -/
inductive WritePhase where
  | begun
  | read (desc : TGFSFileDesc)
  | saving (target : Int) (text : DescSerialized)
  | saved (messageId : Int)
  | synced

def WritePhase.committed : WritePhase → Bool
  | .begun | .read _ | .saving _ _ => false
  | .saved _ | .synced => true

structure StatWrite where
  ref : Nat
  change : DescChange
  phase : WritePhase

/-- What the worker does to a descriptor: a pending version whose bytes are
lost goes, another one gets its messages or its copies. -/
inductive BackfillChange where
  | lost (versionId : String)
  | copied (version : TGFSFileVersion)

def BackfillChange.apply (desc : TGFSFileDesc) :
    BackfillChange → Except DescError TGFSFileDesc
  | .lost versionId => desc.deleteVersion versionId
  | .copied version =>
      .ok { desc with versions := desc.versions.set version.id version }

/-- `backfill_file`; it may write the descriptor it holds more than once. -/
inductive BackfillPhase where
  | begun
  | holds (desc : TGFSFileDesc)
  | saving (target : Int) (text : DescSerialized) (desc : TGFSFileDesc)
  | saved (messageId : Int) (desc : TGFSFileDesc)

structure Backfill where
  ref : Nat
  phase : BackfillPhase

structure StatState where
  texts : FDRepository.Texts
  refs : Dict Nat StatRef
  /-- `_reads`: one fill for a ref. -/
  fills : Dict Nat StatFill
  writes : Dict Nat StatWrite
  backfills : Dict Nat Backfill

inductive StatAction where
  | loadStats (location : Nat)
  | beginFill (ref : Nat)
  /-- `found` says whether the text of the descriptor was. -/
  | readFill (ref : Nat) (found : Bool) (answers : Answers) (now : DateTime)
  | endFill (ref : Nat)
  | failFill (ref : Nat)
  | create (ref : Nat) (location : Nat) (name : Name) (messageId : Int)
      (text : DescSerialized)
  | beginWrite (call ref : Nat) (change : DescChange)
  | readWrite (call : Nat) (found : Bool) (answers : Answers)
      (now : DateTime)
  | saveWrite (call : Nat)
  /-- The edit takes effect, or the text goes to a new message. -/
  | commitWrite (call : Nat) (fresh : Option Int)
  | syncWrite (call : Nat)
  /-- The write returns or raises, whatever it has done so far. -/
  | endWrite (call : Nat)
  | move (ref moved : Nat) (location : Nat) (name : Name)
  | beginBackfill (call ref : Nat)
  | readBackfill (call : Nat) (answers : Answers) (now : DateTime)
  | saveBackfill (call : Nat) (changes : List BackfillChange)
  | commitBackfill (call : Nat) (fresh : Option Int)
  | syncBackfill (call : Nat)
  | endBackfill (call : Nat)

namespace StatRef

/-- `invalidate`. -/
def invalidate (ref : StatRef) : StatRef :=
  { ref with stat := none, statEpoch := ref.statEpoch + 1 }

/-- What `load_stats` puts on a ref that has not changed since the start. -/
def load (kept : Int → Option FileStat) (ref : StatRef) : StatRef :=
  if ref.stat = none ∧ ref.statEpoch = 0 then
    { ref with stat := kept ref.messageId }
  else ref

/-- The end of a fill, for a ref that is still in the tree. -/
def fill (read : StatFill) (ref : StatRef) : StatRef :=
  match read.read.join with
  | some stat =>
      if ref.statEpoch = read.epoch ∧ ref.attached then
        { ref with stat := some stat }
      else ref
  | none => ref

end StatRef

namespace StatState

/-- Whether the directory lists a file of the name. -/
def nameTaken (state : StatState) (location : Nat) (name : Name) : Bool :=
  state.refs.values.any fun ref =>
    ref.attached && ref.location == location && ref.name == name

/-- Write a text to the message it was read from, or to a new one. -/
def commitText (reader : StatReader) (texts : FDRepository.Texts)
    (target : Int) (text : DescSerialized) :
    Option Int → Option (FDRepository.Texts × Int)
  | none =>
      if texts.contains target then some (texts.set target text, target)
      else none
  | some fresh =>
      if texts.contains fresh || (reader.kept fresh).isSome then none
      else some (texts.set fresh text, fresh)

/-- The descriptor that `get_file_desc` reads for a ref. -/
def readDesc (state : StatState) (reader : StatReader) (answers : Answers)
    (includeAll : Bool) (now : DateTime) (ref : StatRef) :
    Option TGFSFileDesc :=
  (state.texts.get? ref.messageId).bind fun text =>
    (reader.repo.readText answers includeAll true ref.name now
      text).toOption

def serialize (reader : StatReader) (desc : TGFSFileDesc) :
    Option DescSerialized :=
  (reader.repo.stamp desc).toDict.toOption

/-- One step; `none` if it is not possible in the state. -/
def step (reader : StatReader) (state : StatState) :
    StatAction → Option StatState
  | .loadStats location =>
      some { state with
        refs := state.refs.mapValues fun ref =>
          if ref.attached && ref.location == location then
            ref.load reader.kept
          else ref }
  | .beginFill ref =>
      (state.refs.get? ref).bind fun file =>
        if file.stat.isSome || state.fills.contains ref then none
        else
          some { state with
            fills := state.fills.set ref ⟨file.statEpoch, none⟩ }
  | .readFill ref found answers now =>
      (state.fills.get? ref).bind fun fill =>
        (state.refs.get? ref).bind fun file =>
          if fill.read.isSome then none
          else
            let stat := (state.texts.get? file.messageId).bind
              (reader.stat answers file.name now)
            some { state with
              fills := state.fills.set ref
                { fill with read := some (if found then stat else none) } }
  | .endFill ref =>
      (state.fills.get? ref).bind fun fill =>
        if fill.read.isNone then none
        else
          some { state with
            refs := state.refs.modify ref (·.fill fill)
            fills := state.fills.erase ref }
  | .failFill ref =>
      if state.fills.contains ref then
        some { state with fills := state.fills.erase ref }
      else none
  | .create ref location name messageId text =>
      if state.refs.contains ref || state.nameTaken location name then none
      else
        (commitText reader state.texts 0 text (some messageId)).map
          fun (texts, _) =>
            { state with
              texts := texts
              refs := state.refs.set ref
                { messageId := messageId
                  name := name
                  location := location
                  attached := true
                  stat := none
                  statEpoch := 0 } }
  | .beginWrite call ref change =>
      if state.writes.contains call || !state.refs.contains ref then none
      else
        some { state with writes := state.writes.set call ⟨ref, change, .begun⟩ }
  | .readWrite call found answers now =>
      (state.writes.get? call).bind fun write =>
        match write.phase with
        | .begun =>
            (state.refs.get? write.ref).bind fun file =>
              (if found then state.readDesc reader answers false now file
                else some { TGFSFileDesc.empty file.name now with
                  complete := false }).map fun desc =>
                { state with
                  writes := state.writes.set call
                    { write with phase := .read desc } }
        | _ => none
  | .saveWrite call =>
      (state.writes.get? call).bind fun write =>
        match write.phase with
        | .read desc =>
            (state.refs.get? write.ref).bind fun file =>
              (write.change.apply desc).toOption.bind fun changed =>
                (serialize reader changed).map fun text =>
                  { state with
                    writes := state.writes.set call
                      { write with phase := .saving file.messageId text } }
        | _ => none
  | .commitWrite call fresh =>
      (state.writes.get? call).bind fun write =>
        match write.phase with
        | .saving target text =>
            (commitText reader state.texts target text fresh).map
              fun (texts, messageId) =>
                { state with
                  texts := texts
                  writes := state.writes.set call
                    { write with phase := .saved messageId } }
        | _ => none
  | .syncWrite call =>
      (state.writes.get? call).bind fun write =>
        match write.phase with
        | .saved messageId =>
            some { state with
              refs := state.refs.modify write.ref fun file =>
                { file with messageId := messageId }
              writes := state.writes.set call { write with phase := .synced } }
        | _ => none
  | .endWrite call =>
      (state.writes.get? call).map fun write =>
        { state with
          refs := state.refs.modify write.ref StatRef.invalidate
          writes := state.writes.erase call }
  | .move ref moved location name =>
      (state.refs.get? ref).bind fun file =>
        if !file.attached then none
        else if location = file.location ∧ name = file.name then some state
        else if state.refs.contains moved || state.nameTaken location name then
          none
        else
          some { state with
            refs := (state.refs.set ref { file with attached := false }).set
              moved { file with location := location, name := name } }
  | .beginBackfill call ref =>
      if state.backfills.contains call || !state.refs.contains ref then none
      else
        some { state with
          backfills := state.backfills.set call ⟨ref, .begun⟩ }
  | .readBackfill call answers now =>
      (state.backfills.get? call).bind fun backfill =>
        match backfill.phase with
        | .begun =>
            (state.refs.get? backfill.ref).bind fun file =>
              -- a descriptor without versions is left alone
              ((state.readDesc reader answers true now file).filter
                (·.versions.values ≠ [])).map fun desc =>
                { state with
                  backfills := state.backfills.set call
                    { backfill with phase := .holds desc } }
        | _ => none
  | .saveBackfill call changes =>
      (state.backfills.get? call).bind fun backfill =>
        match backfill.phase with
        | .holds desc =>
            (state.refs.get? backfill.ref).bind fun file =>
              (changes.foldlM BackfillChange.apply desc).toOption.bind
                fun changed =>
                  (serialize reader changed).map fun text =>
                    { state with
                      backfills := state.backfills.set call
                        { backfill with
                          phase := .saving file.messageId text changed } }
        | _ => none
  | .commitBackfill call fresh =>
      (state.backfills.get? call).bind fun backfill =>
        match backfill.phase with
        | .saving target text desc =>
            (commitText reader state.texts target text fresh).map
              fun (texts, messageId) =>
                { state with
                  texts := texts
                  backfills := state.backfills.set call
                    { backfill with phase := .saved messageId desc } }
        | _ => none
  | .syncBackfill call =>
      (state.backfills.get? call).bind fun backfill =>
        match backfill.phase with
        | .saved messageId desc =>
            some { state with
              refs := state.refs.modify backfill.ref fun file =>
                { file with messageId := messageId }
              backfills := state.backfills.set call
                { backfill with phase := .holds desc } }
        | _ => none
  | .endBackfill call =>
      if state.backfills.contains call then
        some { state with backfills := state.backfills.erase call }
      else none

/-- No fill, write or backfill is in progress. -/
def Quiet (state : StatState) : Prop :=
  (∀ ref, state.fills.get? ref = none) ∧
    (∀ call, state.writes.get? call = none) ∧
    ∀ call, state.backfills.get? call = none

/-- Every file in the tree has no stat or the one of its descriptor. -/
def StatsCurrent (reader : StatReader) (state : StatState) : Prop :=
  ∀ id ref stat, state.refs.get? id = some ref → ref.attached →
    ref.stat = some stat →
      ∃ text, state.texts.get? ref.messageId = some text ∧
        reader.Computes text stat

end StatState

end Tgdcfs
