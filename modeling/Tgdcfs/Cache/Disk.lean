import Tgdcfs.Cache.Budget
import Tgdcfs.Lib.Sparse

/-!
# The directory of the local cache

The file-system steps of the cache act on a directory with a data file and a
block map for each version and one index.  A data file is reached through its
path or through the handle a staging writer opened, which keeps the file it
was opened on when the path is unlinked.  `load` is what the next process
makes of a directory; `diskStep` interleaves the tasks of one process, the
worker threads that move bytes, and processes that stop between two
file-system steps.
-/

namespace Tgdcfs

open Lib

/-- The files by their inodes; every path and every handle names a file that
exists, and no two paths name the same one. -/
structure Disk where
  paths : Dict String Nat
  maps : Dict String (List Bool)
  files : Nat → List UInt8
  handles : Nat → Option Nat
  nextInode : Nat
  index : List IndexRecord
  paths_lt : ∀ versionId inode, paths.get? versionId = some inode →
    inode < nextInode
  paths_inj : ∀ left right inode, paths.get? left = some inode →
    paths.get? right = some inode → left = right
  handles_lt : ∀ uid inode, handles uid = some inode → inode < nextInode

namespace Disk

def empty : Disk where
  paths := Dict.empty
  maps := Dict.empty
  files := fun _ => []
  handles := fun _ => none
  nextInode := 0
  index := []
  paths_lt := fun _ _ found => nomatch found
  paths_inj := fun _ _ _ found => nomatch found
  handles_lt := fun _ _ found => nomatch found

def putFile (disk : Disk) (inode : Nat) (bytes : List UInt8) : Disk :=
  { disk with
    files := fun other => if other = inode then bytes else disk.files other }

/-- `open(path, "wb")` and `truncate`: an existing file is emptied, a new one
is linked. -/
def createData (disk : Disk) (versionId : String) (size : Nat) : Disk :=
  match disk.paths.get? versionId with
  | some inode => disk.putFile inode (List.replicate size 0)
  | none =>
      { disk with
        paths := disk.paths.set versionId disk.nextInode
        files := fun other =>
          if other = disk.nextInode then List.replicate size 0
          else disk.files other
        nextInode := disk.nextInode + 1
        paths_lt := by
          intro other inode found
          rw [Dict.get?_set] at found
          split at found
          · cases found
            exact Nat.lt_succ_self _
          · exact Nat.lt_succ_of_lt (disk.paths_lt other inode found)
        paths_inj := by
          intro left right inode leftFound rightFound
          rw [Dict.get?_set] at leftFound rightFound
          split at leftFound <;> split at rightFound
          · rename_i same same'
            exact same.trans same'.symm
          · cases leftFound
            exact absurd (disk.paths_lt right _ rightFound) (lt_irrefl _)
          · cases rightFound
            exact absurd (disk.paths_lt left _ leftFound) (lt_irrefl _)
          · exact disk.paths_inj left right inode leftFound rightFound
        handles_lt := fun uid inode found =>
          Nat.lt_succ_of_lt (disk.handles_lt uid inode found) }

def unlinkData (disk : Disk) (versionId : String) : Disk :=
  { disk with
    paths := disk.paths.erase versionId
    paths_lt := by
      intro other inode found
      rw [Dict.get?_erase] at found
      split at found
      · cases found
      · exact disk.paths_lt other inode found
    paths_inj := by
      intro left right inode leftFound rightFound
      rw [Dict.get?_erase] at leftFound rightFound
      split at leftFound
      · cases leftFound
      · split at rightFound
        · cases rightFound
        · exact disk.paths_inj left right inode leftFound rightFound }

/-- The file a positioned write goes to. -/
def inode (disk : Disk) : DataTarget → Option Nat
  | .path versionId => disk.paths.get? versionId
  | .handle uid => disk.handles uid

def writeData (disk : Disk) (target : DataTarget) (offset : Nat)
    (data : List UInt8) : Disk :=
  match disk.inode target with
  | none => disk
  | some inode => disk.putFile inode (writeAt 0 (disk.files inode) offset data)

def apply (disk : Disk) : DiskStep → Disk
  | .createData _ versionId size => disk.createData versionId size
  | .createMap versionId present =>
      { disk with maps := disk.maps.set versionId present }
  | .writeData target offset data => disk.writeData target offset data
  | .writeMap versionId index =>
      { disk with
        maps := disk.maps.modify versionId fun flags => flags.set index true }
  | .unlink versionId .data => disk.unlinkData versionId
  | .unlink versionId .map =>
      { disk with maps := disk.maps.erase versionId }
  | .replaceIndex records => { disk with index := records }

def replay (disk : Disk) (steps : List DiskStep) : Disk :=
  steps.foldl apply disk

/-- The bytes behind the path of a version. -/
def data (disk : Disk) (versionId : String) : Option (List UInt8) :=
  (disk.paths.get? versionId).map disk.files

/-- `_pread`: open by path, read at most `length` bytes; `none` when there
is no such file. -/
def pread (disk : Disk) (versionId : String) (offset length : Nat) :
    Option (List UInt8) :=
  (disk.data versionId).map fun bytes => readAt bytes offset length

/-- `os.open` of a staging writer. -/
def openHandle (disk : Disk) (uid : Nat) (versionId : String) : Disk :=
  { disk with
    handles := fun other =>
      if other = uid then disk.paths.get? versionId else disk.handles other
    handles_lt := by
      intro other inode found
      split at found
      · exact disk.paths_lt versionId inode found
      · exact disk.handles_lt other inode found }

def closeHandle (disk : Disk) (uid : Nat) : Disk :=
  { disk with
    handles := fun other => if other = uid then none else disk.handles other
    handles_lt := by
      intro other inode found
      split at found
      · cases found
      · exact disk.handles_lt other inode found }

/-- The process is gone and its handles with it. -/
def closeAll (disk : Disk) : Disk :=
  { disk with
    handles := fun _ => none
    handles_lt := fun _ _ found => nomatch found }

/-- The data files and block maps of the directory. -/
def listing (disk : Disk) : List (String × FileKind) :=
  disk.paths.keys.map (fun versionId => (versionId, FileKind.data)) ++
    disk.maps.keys.map fun versionId => (versionId, FileKind.map)

end Disk

namespace LocalCache

/-- `_load_entry`: `none` drops the record. -/
def loadEntry (disk : Disk) (mtime : String → Int) (uid : Nat)
    (record : IndexRecord) : Option CacheEntry :=
  match disk.maps.get? record.versionId, disk.data record.versionId with
  | some flags, some bytes =>
      if valid : 0 < record.blockSize ∧
          flags.length = blocksFor record.size record.blockSize ∧
          record.size ≤ bytes.length then
        -- An entry that was still being written holds an unknown tail.
        if record.writing then none
        else some
          { uid := uid
            versionId := record.versionId
            fs := record.fs
            size := record.size
            blockSize := record.blockSize
            present := flags
            lastAccess := record.lastAccess
            pins := if 0 < record.pins then 1 else 0
            pinnedAt :=
              if 0 < record.pins then
                if record.pinnedAt = 0 then mtime record.versionId
                else record.pinnedAt
              else 0
            blockSize_pos := valid.1
            present_length := valid.2.1 }
      else none
  | _, _ => none

/-- The entries of an index, one record after the other. -/
def loadEntries (disk : Disk) (mtime : String → Int) :
    List IndexRecord → LocalCache → LocalCache
  | [], cache => cache
  | record :: records, cache =>
      match loadEntry disk mtime cache.nextUid record with
      | none => loadEntries disk mtime records (cache.unlink record.versionId)
      | some entry =>
          loadEntries disk mtime records
            { cache with
              entries := cache.entries.set record.versionId entry
              nextUid := cache.nextUid + 1 }

/-- Read the index and the block maps of a directory, remove what no entry
refers to, and write the index. -/
def load (disk : Disk) (mtime : String → Int) : LocalCache :=
  let loaded := loadEntries disk mtime disk.index LocalCache.empty
  (loaded.sweepOrphans (disk.replay loaded.issued).listing).1.saveIndex

/-- The version as a seekable source: its length, when it is complete. -/
def «local» (cache : LocalCache) (versionId : String) : Option Nat :=
  match cache.entry versionId with
  | none => none
  | some entry =>
      if entry.writing || !entry.isComplete then none else some entry.size

/-- The file-system steps a later cache has issued since. -/
def issuedSince (before after : LocalCache) : List DiskStep :=
  after.issued.drop before.issued.length

end LocalCache

structure DiskState where
  state : CacheState
  disk : Disk

def DiskState.initial : DiskState := ⟨CacheState.initial, Disk.empty⟩

/-- `openHandle`, `landBlocks` and `landStaged` are steps of the worker
threads: a staging writer opens its file, and some of the bytes of a write
that has not returned yet are on the disk.  In `crash` the process stops
after the first `count` file-system steps of an operation and the next one
loads what is left. -/
inductive DiskAction where
  | perform (action : CacheAction)
  | openHandle (writer : Nat)
  | landBlocks (fill count : Nat)
  | landStaged (writer : Nat) (data : List UInt8) (count : Nat)
  | crash (action : CacheAction) (count : Nat) (mtime : String → Int)

namespace DiskState

/-- A staging writer writes through a handle it has opened. -/
def ready (disk : Disk) (state : CacheState) : CacheAction → Bool
  | .write position data =>
      (state.writers[position]?).all fun writer =>
        writer.failed || data.isEmpty || (disk.handles writer.uid).isSome
  | _ => true

/-- The handle of a writer is closed before its writer goes on. -/
def closeFor (state : CacheState) (disk : Disk) : CacheAction → Disk
  | .finish position | .endAbort position =>
      match state.writers[position]? with
      | none => disk
      | some writer => disk.closeHandle writer.uid
  | _ => disk

/-- The directory after the first `count` file-system steps of an
operation. -/
def interrupted (now : DiskState) (next : CacheState) (count : Nat) : Disk :=
  now.disk.replay
    ((now.state.cache.issuedSince next.cache).take count)

end DiskState

def diskStep (config : CacheConfig) (now : DiskState) :
    DiskAction → Option DiskState
  | .perform action => do
      let next ← cacheStep config now.state action
      if DiskState.ready now.disk now.state action then
        some ⟨next, DiskState.closeFor now.state
          (now.disk.replay (now.state.cache.issuedSince next.cache)) action⟩
      else none
  | .openHandle position => do
      let writer ← now.state.writers[position]?
      if writer.fdOpen then none
      else some ⟨now.state, now.disk.openHandle writer.uid writer.versionId⟩
  | .landBlocks position count => do
      let fill ← now.state.fills[position]?
      some ⟨now.state, now.disk.writeData (.path fill.versionId) fill.begin_
        (fill.data.take count)⟩
  | .landStaged position data count => do
      let writer ← now.state.writers[position]?
      if writer.failed then none
      else some ⟨now.state, now.disk.writeData (.handle writer.uid)
        writer.offset (data.take count)⟩
  | .crash action count mtime => do
      let next ← cacheStep config now.state action
      if DiskState.ready now.disk now.state action then
        let left := (now.interrupted next count).closeAll
        let loaded := LocalCache.load left mtime
        some ⟨⟨loaded, [], []⟩, left.replay loaded.issued⟩
      else none

/-- Every write for a version id carries bytes of that version. -/
def CacheAction.Honest (content : String → List UInt8) (state : CacheState) :
    CacheAction → Prop
  | .write position data | .writeFailed position data _ =>
      ∀ writer, state.writers[position]? = some writer →
        writer.failed = false →
          data <+: (content writer.versionId).drop writer.offset
  | .claimBlocks versionId begin_ data _ =>
      data <+: (content versionId).drop begin_
  | _ => True

def DiskAction.Honest (content : String → List UInt8) (now : DiskState) :
    DiskAction → Prop
  | .perform action | .crash action _ _ => action.Honest content now.state
  | .landStaged position data _ =>
      ∀ writer, now.state.writers[position]? = some writer →
        data <+: (content writer.versionId).drop writer.offset
  | _ => True

end Tgdcfs
