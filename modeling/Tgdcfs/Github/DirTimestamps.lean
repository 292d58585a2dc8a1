import Tgdcfs.Core.FileRefList
import Tgdcfs.Github.Load
import Tgdcfs.Github.Rewrite
import Tgdcfs.Lib.Run

/-!
# Dates of the directories

The dates of a directory come from the commits of the branch and are cached on
disk.  A path that is not cached is queued for two workers, which read its
commits.  On a start the cache is held against the head of the branch, and
what was changed since it was written is dropped.

Requests, workers and commits are interleaved at the points where the lock is
released.  A path that is not empty is one of a directory below the root.
-/

namespace Tgdcfs

open Lib

/-- A commit with the files it changed, on both sides of a rename. -/
structure HistoryCommit where
  sha : String
  date : Int
  message : List Char
  files : List StoragePath

def STATS_COMMIT_PREFIX : List Char := "Update file stats".toList

def STATS_COMMIT_SCAN_LIMIT : Nat := 30

def COMPARE_FILE_LIMIT : Nat := 300

def WORKER_COUNT : Nat := 2

def SAVE_EVERY : Nat := 25

def CACHE_VERSION : Nat := 1

def isStatsFile (path : StoragePath) : Bool :=
  lastSegment path = STATS_FILE_NAME

def HistoryCommit.isStatsCommit (commit : HistoryCommit) : Bool :=
  STATS_COMMIT_PREFIX.isPrefixOf commit.message

/-- `get_commits` lists the commit for the path. -/
def HistoryCommit.touches (path : StoragePath) (commit : HistoryCommit) :
    Bool :=
  commit.files.any (startsUnder path)

/-- The loop of `_latest_commit_date`, from the newest commit on. -/
def scanCommits : Option Int → Nat → List HistoryCommit → Option Int
  | newest, _, [] => newest
  | newest, seen, commit :: commits =>
      let newest := newest.or (some commit.date)
      if !commit.isStatsCommit then some commit.date
      else if STATS_COMMIT_SCAN_LIMIT ≤ seen + 1 then newest
      else scanCommits newest (seen + 1) commits

/-- The history is given from the newest commit on. -/
def latestCommitDate (history : List HistoryCommit) (path : StoragePath) :
    Option Int :=
  scanCommits none 0 (history.filter (·.touches path))

/-- When a directory was created and modified. -/
abbrev Timestamps := Int × Int

structure CacheFile where
  version : Nat
  repo : String
  branch : String
  head : Option String
  paths : Dict StoragePath Timestamps

/-- An entry of a comparison. -/
structure ChangedFile where
  filename : StoragePath
  previousFilename : Option StoragePath

def ChangedFile.names (changed : ChangedFile) : List StoragePath :=
  changed.filename :: changed.previousFilename.toList

/-- `_ancestor_dirs`. -/
def ancestorDirs (path : StoragePath) : List StoragePath :=
  let parts := (components path).dropLast
  (List.range' 1 parts.length).map fun length =>
    ['/'].intercalate (parts.take length)

/-- Where a worker stands between two releases of the lock. -/
inductive TimestampWorker where
  | idle
  | resolving (path : StoragePath)
  | dating (path : StoragePath) (modified : Option Int)
  | found (path : StoragePath) (dates : Timestamps)
  | saving (path : Option StoragePath)
  | writing (path : Option StoragePath) (payload : CacheFile)
  | finishing (path : StoragePath)
  | checking

/-- The path that a worker has taken and not yet given back. -/
def TimestampWorker.path? : TimestampWorker → Option StoragePath
  | idle => none
  | resolving path => some path
  | dating path _ => some path
  | found path _ => some path
  | saving path => path
  | writing path _ => path
  | finishing path => some path
  | checking => none

/-- What a worker does after saving: the save was due in the middle of a path
or when the queue was empty. -/
def TimestampWorker.saved : Option StoragePath → TimestampWorker
  | some path => finishing path
  | none => idle

structure DirTimestampStore where
  repo : String
  branch : String
  entries : Dict StoragePath Timestamps
  head : Option String
  queued : List StoragePath
  queue : List StoragePath
  workers : List TimestampWorker
  unsaved : Nat

namespace DirTimestampStore

/-- The constructor. -/
def new (repo branch : String) : DirTimestampStore :=
  ⟨repo, branch, .empty, none, [], [], [], 0⟩

def payload (store : DirTimestampStore) : CacheFile :=
  ⟨CACHE_VERSION, store.repo, store.branch, store.head, store.entries⟩

/-- `_read_file`; a file that cannot be read is as good as none. -/
def readFile (store : DirTimestampStore) (file : Option CacheFile) :
    Option String × Dict StoragePath Timestamps :=
  match file with
  | none => (none, .empty)
  | some data =>
      if data.version ≠ CACHE_VERSION then (none, .empty)
      else if data.repo ≠ store.repo ∨ data.branch ≠ store.branch then
        (none, .empty)
      else (data.head, data.paths)

/-- The directories that a comparison makes stale. -/
def staleDirs (files : List ChangedFile) : List StoragePath :=
  ((files.flatMap ChangedFile.names).filter (!isStatsFile ·)).flatMap
    ancestorDirs

def dropChanged (entries : Dict StoragePath Timestamps)
    (comparison : Except GithubError (List ChangedFile)) :
    Dict StoragePath Timestamps :=
  match comparison with
  | .error _ => .empty
  | .ok files =>
      if COMPARE_FILE_LIMIT ≤ files.length then .empty
      else entries.filterKeys (!(staleDirs files).contains ·)

/-- `load`, with the head that was read and the comparison of the two
heads. -/
def load (store : DirTimestampStore) (file : Option CacheFile)
    (head : Option String)
    (comparison : Except GithubError (List ChangedFile)) :
    DirTimestampStore :=
  let (cachedHead, entries) := store.readFile file
  let kept :=
    match cachedHead, head with
    | some cached, some current =>
        if cached ≠ current then dropChanged entries comparison else entries
    | some _, none => entries
    | none, _ => .empty
  { store with entries := kept, head := head.or cachedHead }

end DirTimestampStore

/-- The branch, the cache on disk, the store of the running process and the
paths that callers have marked as queued and not yet put. -/
structure TimestampSystem where
  history : List HistoryCommit
  file : Option CacheFile
  store : DirTimestampStore
  arriving : List StoragePath

/-- What happens: a commit, a start of the process, a call of `request` in two
steps, and the steps of a worker. -/
inductive TimestampAction where
  | commit (commit : HistoryCommit)
  | start (readable answered : Bool)
      (comparison : Except GithubError (List ChangedFile))
  | request (path : StoragePath)
  | put (path : StoragePath)
  | take (worker : Nat)
  | readModified (worker : Nat) (answered : Bool)
  | readCreated (worker : Nat) (answered : Bool)
  | store (worker : Nat)
  | save (worker : Nat)
  | write (worker : Nat) (written : Bool)
  | finish (worker : Nat)
  | check (worker : Nat)

namespace TimestampSystem

def setWorker (state : TimestampSystem) (worker : Nat)
    (phase : TimestampWorker) : TimestampSystem :=
  { state with
    store :=
      { state.store with workers := state.store.workers.set worker phase } }

/-- The new process loads before anything is requested. -/
def start (state : TimestampSystem) (readable answered : Bool)
    (comparison : Except GithubError (List ChangedFile)) : TimestampSystem :=
  { state with
    store := (DirTimestampStore.new state.store.repo state.store.branch).load
      (if readable then state.file else none)
      (if answered then state.history.head?.map HistoryCommit.sha else none)
      comparison
    arriving := [] }

/-- The locked half of `request`; `get` asks in the same way. -/
def request (state : TimestampSystem) (path : StoragePath) :
    TimestampSystem :=
  if path = [] ∨ state.store.entries.contains path ∨
      state.store.queued.contains path then state
  else
    { state with
      store := { state.store with queued := state.store.queued ++ [path] }
      arriving := state.arriving ++ [path] }

/-- The other half, with `_ensure_workers`. -/
def put (state : TimestampSystem) (path : StoragePath) : TimestampSystem :=
  { state with
    store :=
      { state.store with
        queue := state.store.queue ++ [path]
        workers :=
          if state.store.workers = [] then
            List.replicate WORKER_COUNT .idle
          else state.store.workers }
    arriving := state.arriving.erase path }

/-- The two dates of a lookup; without a date of the placeholder the newest
one of the directory is taken. -/
def datesOf (modified created : Option Int) : Option Timestamps :=
  modified.map fun newest => (created.getD newest, newest)

/-- The locked end of `_resolve`. -/
def storeDates (state : TimestampSystem) (path : StoragePath)
    (dates : Timestamps) : TimestampSystem :=
  { state with
    store :=
      { state.store with
        entries := state.store.entries.set path dates
        unsaved := state.store.unsaved + 1 } }

def step (state : TimestampSystem) :
    TimestampAction → Option TimestampSystem
  | .commit commit => some { state with history := commit :: state.history }
  | .start readable answered comparison =>
      some (state.start readable answered comparison)
  | .request path => some (state.request path)
  | .put path =>
      if state.arriving.contains path then some (state.put path) else none
  | .take worker =>
      match state.store.workers[worker]?, state.store.queue with
      | some .idle, path :: queue =>
          some ({ state with
            store := { state.store with queue } }.setWorker worker
              (.resolving path))
      | _, _ => none
  | .readModified worker answered =>
      match state.store.workers[worker]? with
      | some (.resolving path) =>
          some (state.setWorker worker (.dating path
            (if answered then latestCommitDate state.history path else none)))
      | _ => none
  | .readCreated worker answered =>
      match state.store.workers[worker]? with
      | some (.dating path modified) =>
          let created :=
            if answered then
              latestCommitDate state.history (path ++ '/' :: GITKEEP)
            else none
          match datesOf modified created with
          | some dates => some (state.setWorker worker (.found path dates))
          | none => some (state.setWorker worker (.finishing path))
      | _ => none
  | .store worker =>
      match state.store.workers[worker]? with
      | some (.found path dates) =>
          some ((state.storeDates path dates).setWorker worker
            (if SAVE_EVERY ≤ state.store.unsaved + 1 then .saving (some path)
              else .finishing path))
      | _ => none
  | .save worker =>
      match state.store.workers[worker]? with
      | some (.saving path) =>
          if state.store.unsaved = 0 then
            some (state.setWorker worker (.saved path))
          else
            some ({ state with
              store := { state.store with unsaved := 0 } }.setWorker worker
                (.writing path state.store.payload))
      | _ => none
  | .write worker written =>
      match state.store.workers[worker]? with
      | some (.writing path payload) =>
          if written then
            some ({ state with file := some payload }.setWorker worker
              (.saved path))
          else
            some ({ state with
              store :=
                { state.store with
                  unsaved := state.store.unsaved + 1 } }.setWorker worker
                (.saved path))
      | _ => none
  | .finish worker =>
      match state.store.workers[worker]? with
      | some (.finishing path) =>
          some ({ state with
            store :=
              { state.store with
                queued := state.store.queued.erase path } }.setWorker worker
              .checking)
      | _ => none
  | .check worker =>
      match state.store.workers[worker]? with
      | some .checking =>
          some (state.setWorker worker
            (if state.store.queue = [] then .saving none else .idle))
      | _ => none

end TimestampSystem

end Tgdcfs
