import Tgdcfs.Core.FileDescApi
import Tgdcfs.Core.Relocation

/-!
# Removing files

A removal collects the messages of the files it removes, store by store, and
deletes them once the tree is written.  Files that share a descriptor are
recognized by the number of their descriptor message alone; removing one
version does not look at other files at all.
-/

namespace Tgdcfs

open Lib

/-- The ids to delete from the primary, and those to delete from other stores
by their key. -/
structure Collected where
  ids : List Int := []
  mirrorIds : Dict String (List Int) := Dict.empty
  deriving DecidableEq

namespace Collected

/-- `mirror_ids.setdefault(key, []).extend(ids)`. -/
def extend (mirrorIds : Dict String (List Int)) (storeKey : String)
    (ids : List Int) : Dict String (List Int) :=
  mirrorIds.set storeKey ((mirrorIds.get? storeKey).getD [] ++ ids)

/-- Whether a message, given by its store and id, was collected. -/
def holds (primaryKey : String) (collected : Collected)
    (message : String × Int) : Bool :=
  (message.1 = primaryKey && collected.ids.contains message.2) ||
    (collected.mirrorIds.get? message.1).any (·.contains message.2)

def addIds (collected : Collected) (ids : List Int) : Collected :=
  { collected with ids := collected.ids ++ ids }

def addMirrorIds (collected : Collected) (storeKey : String)
    (ids : List Int) : Collected :=
  { collected with
    mirrorIds := extend collected.mirrorIds storeKey ids }

/-- Ids of the store that owns them; without one they are left alone. -/
def addOwned (collected : Collected) (owned : Bool)
    (store : Option String) (ids : List Int) : Collected :=
  if owned then collected.addIds ids
  else
    match store.filter (· ≠ "") with
    | some owner => collected.addMirrorIds owner ids
    | none => collected

/-- `_collect_ref_ids`. -/
def collectRefIds (primaryKey : String) (file : FileRef)
    (collected : Collected) : Collected :=
  let own :=
    if 0 < file.messageId then
      collected.addOwned (file.ownedBy primaryKey) file.store
        [file.messageId]
    else collected
  file.mirrors.items.foldl (fun collected item =>
    if 0 < item.2 then collected.addMirrorIds item.1 [item.2]
    else collected) own

/-- `_collect_version_ids`. -/
def collectVersionIds (primaryKey : String) (version : TGFSFileVersion)
    (collected : Collected) : Collected :=
  let own := collected.addOwned (version.ownedBy primaryKey) version.store
    (version.messageIds.filter (0 < ·))
  let mirrored := version.mirrors.items.foldl (fun collected item =>
    collected.addMirrorIds item.1 (item.2.filter (0 < ·))) own
  version.replicas.items.foldl (fun collected item =>
    let ids := item.2.messageIds.filter (0 < ·)
    if item.1 = primaryKey then collected.addIds ids
    else collected.addMirrorIds item.1 ids) mirrored

end Collected

/-- The store that the ids without a key belong to. -/
def ownerOf (primaryKey : String) (owned : Bool) (store : Option String) :
    Option String :=
  if owned then some primaryKey else store.filter (· ≠ "")

/-- The ref names a descriptor message or a mirror of it. -/
def FileRef.Mentions (primaryKey : String) (file : FileRef)
    (message : String × Int) : Prop :=
  0 < message.2 ∧
    ((ownerOf primaryKey (file.ownedBy primaryKey) file.store =
        some message.1 ∧ file.messageId = message.2) ∨
      file.mirrors.get? message.1 = some message.2)

/-- The version names a content message in some store. -/
def TGFSFileVersion.Mentions (primaryKey : String)
    (version : TGFSFileVersion) (message : String × Int) : Prop :=
  0 < message.2 ∧
    ((ownerOf primaryKey (version.ownedBy primaryKey) version.store =
        some message.1 ∧ message.2 ∈ version.messageIds) ∨
      (∃ ids, version.mirrors.get? message.1 = some ids ∧
        message.2 ∈ ids) ∨
      ∃ replica, version.replicas.get? message.1 = some replica ∧
        message.2 ∈ replica.messageIds)

def TGFSFileDesc.Mentions (primaryKey : String) (desc : TGFSFileDesc)
    (message : String × Int) : Prop :=
  ∃ version ∈ desc.versions.values, version.Mentions primaryKey message

variable (primaryKey : String) (message : String × Int)

instance (file : FileRef) : Decidable (file.Mentions primaryKey message) :=
  inferInstanceAs (Decidable (_ ∧ _))

instance (version : TGFSFileVersion) :
    Decidable (version.Mentions primaryKey message) :=
  have : Decidable (∃ ids, version.mirrors.get? message.1 = some ids ∧
      message.2 ∈ ids) :=
    decidable_of_iff ((version.mirrors.get? message.1).any
      (·.contains message.2) = true) (by simp [Option.any_eq_true])
  have : Decidable (∃ replica, version.replicas.get? message.1 =
      some replica ∧ message.2 ∈ replica.messageIds) :=
    decidable_of_iff ((version.replicas.get? message.1).any
      (·.messageIds.contains message.2) = true) (by simp [Option.any_eq_true])
  inferInstanceAs (Decidable (_ ∧ (_ ∨ _ ∨ _)))

instance (desc : TGFSFileDesc) :
    Decidable (desc.Mentions primaryKey message) :=
  inferInstanceAs (Decidable (∃ version ∈ desc.versions.values, _))

/-- The API over one descriptor repository.  `deletes` tells the stores from
which a removal deletes: the primary and the stores of the mirror group that
are configured to.  No store has the empty key. -/
structure FileApi where
  repo : FDRepository
  deletes : String → Bool
  deletes_named : deletes "" = false

namespace FileApi

/-- `collect_all_message_ids`: a descriptor that cannot be loaded leaves the
ids of the ref. -/
def collectAll (api : FileApi) (answers : Answers) (now : DateTime)
    (file : FileRef) (collected : Collected) : Collected :=
  let withRef := collected.collectRefIds api.repo.key
    (file.relocate api.repo.key)
  match api.repo.get answers file false true now with
  | .error _ => withRef
  | .ok desc =>
      desc.versions.values.foldl (fun collected version =>
        collected.collectVersionIds api.repo.key version) withRef

/-- `_descriptors_referenced_elsewhere`; the files of the tree are listed in
the order of the walk, and `removing` has the places of those removed. -/
def descriptorsElsewhere (files : List FileRef) (removing : List Nat) :
    List Int :=
  (files.zipIdx.filter fun entry =>
    !removing.contains entry.2 && 0 < entry.1.messageId).map
      fun entry => entry.1.messageId

/-- `collect_deletable_message_ids`. -/
def collectDeletable (api : FileApi) (answers : Nat → Answers)
    (now : DateTime) (files : List FileRef) (removing : List Nat) :
    Collected :=
  let shared := descriptorsElsewhere files removing
  removing.foldl (fun collected place =>
    match files[place]? with
    | none => collected
    | some file =>
        if shared.contains file.messageId then collected
        else api.collectAll (answers place) now file collected) {}

/-- Whether a removal deletes the message. -/
def deleted (api : FileApi) (collected : Collected)
    (message : String × Int) : Bool :=
  collected.holds api.repo.key message && api.deletes message.1

/-- `_collect_version_message_ids`. -/
def collectVersion (api : FileApi) (answers : Answers) (now : DateTime)
    (file : FileRef) (versionId : String) : Collected :=
  match api.repo.get answers file false true now with
  | .error _ => {}
  | .ok desc =>
      match desc.versions.get? versionId with
      | none => {}
      | some version => Collected.collectVersionIds api.repo.key version {}

/-- `rm` of one version: its messages go when the descriptor was written
without it.  The descriptor is read once for the ids and once more to be
changed. -/
def rmVersion (api : FileApi) (answers later : Answers)
    (texts : FDRepository.Texts) (file : FileRef) (versionId : String)
    (now : DateTime) (fresh : Int) (writes : MirrorWrites) :
    FDRepository.Texts ×
      Except WriteError (FDRepositoryResp × Collected) :=
  let collected := api.collectVersion answers now file versionId
  let written := api.repo.deleteFileVersion later texts
    (file.relocate api.repo.key) versionId now fresh writes
  (written.1, written.2.map fun resp => (resp, collected))

end FileApi

end Tgdcfs
