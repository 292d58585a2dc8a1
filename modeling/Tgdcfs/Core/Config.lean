import Tgdcfs.Core.StoreKeys

/-!
# Stores and file systems of a configuration

The layout with `stores` and `filesystems`: what one entry of either block
must look like, and what is checked once all of them are known.  Scalars of
the configuration file are taken as the text `str` makes of them; an absent
or empty value is `none`.
-/

namespace Tgdcfs

open Lib

inductive ConfigError where
  | valueError (message : String)
  | keyError (field : String)
  deriving DecidableEq, Repr

/-- `ValueError(f"{path}: {text}")`. -/
def invalid {α : Type} (path text : String) : Except ConfigError α :=
  .error (.valueError (path ++ ": " ++ text))

/-- The names in `BACKEND_NAMES`. -/
inductive Backend where
  | telegram
  | discord
  deriving DecidableEq, Repr

/-- `BACKEND_PREFIXES`. -/
def Backend.family : Backend → List Char
  | .telegram => ['t', 'g']
  | .discord => ['d', 'c']

def Backend.ofName? : String → Option Backend
  | "telegram" => some .telegram
  | "discord" => some .discord
  | _ => none

structure StoreData where
  backend : Option String := none
  channel : Option String := none

structure StoreConfig where
  name : String
  backend : Backend
  channel : String
  deriving DecidableEq, Repr

namespace StoreConfig

def key (store : StoreConfig) : String :=
  String.ofList (makeStoreKey store.backend.family store.channel.toList)

/-- Every backend with a prefix is available, so the second check of the
backend never fails. -/
def fromDict (name : String) (data : StoreData) :
    Except ConfigError StoreConfig :=
  let named := data.backend.getD "telegram"
  match Backend.ofName? (if named = "" then "telegram" else named) with
  | none =>
      invalid ("stores." ++ name) ("unknown backend '" ++ named ++
        "', available: telegram, discord")
  | some backend =>
      match data.channel with
      | none | some "" =>
          invalid ("stores." ++ name) "'channel' is required"
      | some channel => .ok ⟨name, backend, channel⟩

end StoreConfig

inductive MetadataType where
  | pinnedMessage
  | githubRepo
  deriving DecidableEq, Repr

structure GithubRepoData where
  repo : Option String
  commit : Option String
  accessToken : Option String

structure GithubRepoConfig where
  repo : String
  commit : String
  accessToken : String
  deriving DecidableEq, Repr

def GithubRepoConfig.fromDict (data : GithubRepoData) :
    Except ConfigError GithubRepoConfig :=
  match data.repo, data.commit, data.accessToken with
  | none, _, _ => .error (.keyError "repo")
  | some _, none, _ => .error (.keyError "commit")
  | some _, some _, none => .error (.keyError "access_token")
  | some repo, some commit, some accessToken =>
      .ok ⟨repo, commit, accessToken⟩

structure MetadataData where
  name : Option String := none
  type : Option String := none
  githubRepo : Option GithubRepoData := none

structure MetadataConfig where
  name : String
  type : MetadataType
  githubRepo : Option GithubRepoConfig
  deriving DecidableEq, Repr

/-- The block of a file system, over its defaults. -/
def MetadataConfig.fromDict (name : String) (data : MetadataData) :
    Except ConfigError MetadataConfig :=
  let name := data.name.getD name
  match data.type.getD "pinned_message" with
  | "pinned_message" => .ok ⟨name, .pinnedMessage, none⟩
  | "github_repo" =>
      match data.githubRepo with
      | none =>
          .error (.valueError
            "GitHub repo configuration is required for GITHUB_REPO type")
      | some repo =>
          (GithubRepoConfig.fromDict repo).map fun repo =>
            ⟨name, .githubRepo, some repo⟩
  | other =>
      invalid "Unknown metadata type" (other ++
        ", available options: pinned_message, github_repo")

inductive MirrorMode where
  | auto
  | forward
  | reupload
  deriving DecidableEq, Repr

inductive SyncMode where
  | inline
  | background
  | tee
  deriving DecidableEq, Repr

inductive WriteAck where
  | primary
  | cache
  deriving DecidableEq, Repr

def MirrorMode.ofName? : String → Option MirrorMode
  | "auto" => some .auto
  | "forward" => some .forward
  | "reupload" => some .reupload
  | _ => none

def SyncMode.ofName? : String → Option SyncMode
  | "inline" => some .inline
  | "background" => some .background
  | "tee" => some .tee
  | _ => none

def WriteAck.ofName? : String → Option WriteAck
  | "primary" => some .primary
  | "cache" => some .cache
  | _ => none

structure FilesystemData where
  primary : Option String := none
  mirrors : List String := []
  mode : Option String := none
  sync : Option String := none
  strict : Bool := false
  readPreference : List String := []
  metadata : MetadataData := {}
  allowSharedStore : Bool := false
  writeAck : Option String := none
  readParallel : Bool := false
  readSources : List String := []

structure FilesystemConfig where
  name : String
  primary : String
  mirrors : List String
  mode : MirrorMode
  sync : SyncMode
  strict : Bool
  readPreference : List String
  metadata : MetadataConfig
  allowSharedStore : Bool
  syncIsDefault : Bool
  writeAck : WriteAck
  readParallel : Bool
  readSources : List String
  deriving DecidableEq, Repr

namespace FilesystemConfig

def fromDict (name : String) (data : FilesystemData) :
    Except ConfigError FilesystemConfig :=
  let path := "filesystems." ++ name
  match data.primary with
  | none | some "" => invalid path "'primary' is required"
  | some primary =>
    if primary ∈ data.mirrors then
      invalid path "the primary store cannot be its own mirror"
    else if data.mirrors.dedup.length ≠ data.mirrors.length then
      invalid path "duplicate mirror store"
    else
      let mode := data.mode.getD "auto"
      let sync := data.sync.getD "inline"
      let writeAck := data.writeAck.getD "primary"
      match MirrorMode.ofName? mode with
      | none =>
          invalid path ("unknown mode '" ++ mode ++
            "', available options: auto, forward, reupload")
      | some mode =>
        match SyncMode.ofName? sync with
        | none =>
            invalid path ("unknown sync '" ++ sync ++
              "', available options: inline, background, tee")
        | some sync =>
          if data.strict ∧ sync ≠ .inline then
            invalid path "'strict: true' requires 'sync: inline'"
          else
            match WriteAck.ofName? writeAck with
            | none =>
                invalid path ("unknown write_ack '" ++ writeAck ++
                  "', available options: primary, cache")
            | some writeAck =>
              if writeAck = .cache ∧ sync = .tee then
                invalid path ("'sync: tee' feeds the mirrors from the " ++
                  "upload stream, which 'write_ack: cache' answers before " ++
                  "any store has; use 'sync: background' with write-back")
              else if data.strict ∧ writeAck = .cache then
                invalid path ("'strict: true' promises the mirror copy " ++
                  "when the write is answered and cannot be combined with " ++
                  "'write_ack: cache'")
              else
                (MetadataConfig.fromDict name data.metadata).map
                  fun metadata =>
                    { name := name
                      primary := primary
                      mirrors := data.mirrors
                      mode := mode
                      sync := sync
                      strict := data.strict
                      readPreference := data.readPreference
                      metadata := metadata
                      allowSharedStore := data.allowSharedStore
                      syncIsDefault := data.sync.isNone
                      writeAck := writeAck
                      readParallel := data.readParallel
                      readSources := data.readSources }

def storeNames (fs : FilesystemConfig) : List String :=
  fs.primary :: fs.mirrors

def reuploadingMirrors (fs : FilesystemConfig)
    (stores : Dict String StoreConfig) : List String :=
  if fs.mode = .reupload then fs.mirrors
  else
    let backendOf := fun name => (stores.get? name).map StoreConfig.backend
    fs.mirrors.filter fun mirror =>
      backendOf mirror ≠ backendOf fs.primary ∨
        backendOf mirror = some .discord

def needsReupload (fs : FilesystemConfig)
    (stores : Dict String StoreConfig) : Bool :=
  !(fs.reuploadingMirrors stores).isEmpty

def deriveSync (stores : Dict String StoreConfig) (fs : FilesystemConfig) :
    FilesystemConfig :=
  if fs.syncIsDefault ∧ ¬fs.strict ∧ fs.needsReupload stores then
    { fs with sync := .background }
  else fs

/-- The store names of one file system against the stores block. -/
def checkNames (stores : Dict String StoreConfig) (fs : FilesystemConfig) :
    Except ConfigError Unit :=
  let path := "filesystems." ++ fs.name
  let foreign := fun name => decide (name ∉ fs.storeNames)
  match fs.storeNames.find? fun name => !stores.contains name with
  | some name => invalid path ("unknown store '" ++ name ++ "'")
  | none =>
    match fs.readPreference.find? foreign with
    | some name =>
        invalid path ("read_preference names '" ++ name ++
          "', which is neither its primary nor one of its mirrors")
    | none =>
      match fs.readSources.find? foreign with
      | some name =>
          invalid path ("read_sources names '" ++ name ++
            "', which is neither its primary nor one of its mirrors")
      | none => .ok ()

end FilesystemConfig

/-- The first loop of `_validate_filesystems`, which fills `primaries`. -/
def registerPrimaries (stores : Dict String StoreConfig) :
    List FilesystemConfig → Dict String String →
      Except ConfigError (Dict String String)
  | [], primaries => .ok primaries
  | fs :: rest, primaries =>
      match fs.checkNames stores with
      | .error failure => .error failure
      | .ok _ =>
          match primaries.get? fs.primary with
          | some other =>
              invalid ("filesystems." ++ fs.name) ("store '" ++ fs.primary ++
                "' is already the primary of '" ++ other ++ "'")
          | none =>
              registerPrimaries stores rest
                (primaries.set fs.primary fs.name)

/-- Whether a mirror is refused as another file system's primary store.  An
owner with the empty name counts as none. -/
def sharesPrimary (filesystems : Dict String FilesystemConfig)
    (primaries : Dict String String) (fs : FilesystemConfig)
    (mirror : String) : Bool :=
  match primaries.get? mirror with
  | none | some "" => false
  | some owner =>
      !(fs.allowSharedStore ||
        (filesystems.get? owner).any FilesystemConfig.allowSharedStore)

/-- The second loop, apart from `derive_sync`. -/
def checkMirrors (filesystems : Dict String FilesystemConfig)
    (primaries : Dict String String) :
    List FilesystemConfig → Except ConfigError Unit
  | [] => .ok ()
  | fs :: rest =>
      match fs.mirrors.find? (sharesPrimary filesystems primaries fs) with
      | some mirror =>
          invalid ("filesystems." ++ fs.name) ("mirror '" ++ mirror ++
            "' is the primary of '" ++ (primaries.get? mirror).getD "" ++
            "'; two trees writing into one store invites id confusion, " ++
            "set 'allow_shared_store: true' to allow it")
      | none => checkMirrors filesystems primaries rest

/-- `_validate_filesystems`; the file systems come back with the `sync` that
was derived for them. -/
def validateFilesystems (stores : Dict String StoreConfig)
    (filesystems : Dict String FilesystemConfig) :
    Except ConfigError (Dict String FilesystemConfig) :=
  match registerPrimaries stores filesystems.values .empty with
  | .error failure => .error failure
  | .ok primaries =>
      (checkMirrors filesystems primaries filesystems.values).map fun _ =>
        filesystems.mapValues (FilesystemConfig.deriveSync stores)

/-- What `Config.from_dict` has read before it turns to the stores. -/
structure LoadedBlocks where
  privateFileChannel : List String
  apiHash : String
  discord : Bool
  cacheEnabled : Bool

structure LayoutData where
  stores : List (String × StoreData)
  filesystems : List (String × FilesystemData)

structure Config where
  stores : Dict String StoreConfig
  filesystems : Dict String FilesystemConfig

namespace Config

def checkBackend (blocks : LoadedBlocks) (store : StoreConfig) :
    Except ConfigError Unit :=
  if store.backend = .discord ∧ ¬blocks.discord then
    invalid ("stores." ++ store.name)
      "backend 'discord' needs the 'backends.discord' block"
  else if store.backend = .telegram ∧ blocks.apiHash = "" then
    invalid ("stores." ++ store.name)
      "backend 'telegram' needs the 'backends.telegram' block"
  else .ok ()

def checkWriteAck (blocks : LoadedBlocks) (fs : FilesystemConfig) :
    Except ConfigError Unit :=
  if fs.writeAck = .cache ∧ ¬blocks.cacheEnabled then
    invalid ("filesystems." ++ fs.name)
      "'write_ack: cache' needs 'tgdcfs.cache.enabled: true'"
  else .ok ()

/-- `{name: from_dict(name, entry) for name, entry in entries}`. -/
def loadEntries {δ γ : Type} (load : String → δ → Except ConfigError γ)
    (entries : List (String × δ)) : Except ConfigError (Dict String γ) :=
  (entries.mapM fun entry =>
    (load entry.1 entry.2).map fun loaded => (entry.1, loaded)).map
      Dict.ofList

/-- `Config.from_dict` for the layout with stores and file systems. -/
def fromDict (blocks : LoadedBlocks) (data : LayoutData) :
    Except ConfigError Config :=
  if blocks.privateFileChannel ≠ [] then
    .error (.valueError ("'telegram.private_file_channel' cannot be " ++
      "combined with 'stores'/'filesystems'; list the channel as a store " ++
      "instead"))
  else do
    let stores ← loadEntries StoreConfig.fromDict data.stores
    let filesystems ← loadEntries FilesystemConfig.fromDict data.filesystems
    stores.values.forM (checkBackend blocks)
    let filesystems ← validateFilesystems stores filesystems
    filesystems.values.forM (checkWriteAck blocks)
    pure ⟨stores, filesystems⟩

end Config

end Tgdcfs
