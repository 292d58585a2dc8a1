import Mathlib.Data.List.Forall2
import Tgdcfs.Core.Deletion

/-!
# Copying a file

A copy gets a descriptor of its own whose versions own fresh messages.  The
message ids of all versions are duplicated in one call to the primary store,
whichever store they belong to, and the versions of the copy take their
shares of the new ids.  What the store, the mirrors and the metadata answer
during a copy is given by the environment.
-/

namespace Tgdcfs

open Lib

/-- The documents of every store, and what the local cache holds in full. -/
structure ContentWorld where
  documents : String → Int → Option Bytes
  cached : String → Option Bytes

/-- The documents of the messages, one after the other. -/
def joined (documents : Int → Option Bytes) (ids : List Int) :
    Option Bytes :=
  (ids.mapM documents).map List.flatten

namespace TGFSFileVersion

/-- One part, from the owner or else from an aligned mirror. -/
def partIn (version : TGFSFileVersion) (world : ContentWorld)
    (primaryKey : String) (part : Nat) (messageId : Int) : Option Bytes :=
  (if version.ownedBy primaryKey then
      world.documents primaryKey messageId
    else none).or
    (version.mirrors.items.findSome? fun item =>
      item.2[part]?.bind (world.documents item.1))

/-- The bytes that a version stands for: those in the cache while it is
pending, else its parts, else a replica; `none` when nothing is readable. -/
def denotes (version : TGFSFileVersion) (world : ContentWorld)
    (primaryKey : String) : Option Bytes :=
  if version.pending then world.cached version.id
  else
    ((version.messageIds.zipIdx.mapM fun entry =>
        version.partIn world primaryKey entry.2 entry.1).map
          List.flatten).or
      (version.replicas.items.findSome? fun item =>
        if item.2.messageIds = [] then none
        else joined (world.documents item.1) item.2.messageIds)

end TGFSFileVersion

/-- What the calls of one copy answer; `none` when a call raises.  The ids
of new versions are distinct and not empty. -/
structure CopyCalls where
  copyWithin : List Int → Option (List Int)
  mirrorParts : List Int → List Nat →
    Option (Dict String (List Int) × Dict String Replica)
  inlineMirroring : Bool
  newVersionId : Nat → String
  fresh : Int
  writes : MirrorWrites
  finishes : Bool
  distinct : Function.Injective newVersionId
  named : ∀ count, newVersionId count ≠ ""

inductive CopyError where
  | get (failure : GetError)
  | copyWithin
  | mirror
  | desc (failure : DescError)
  | write (failure : WriteError)
  | tree (failure : DirectoryError)
  | finish

namespace FileApi

/-- The version of the copy that takes the given ids; inline mirroring copies
it into the mirror stores. -/
def copiedVersion (api : FileApi) (calls : CopyCalls)
    (version : TGFSFileVersion) (versionId : String) (ids : List Int) :
    Option TGFSFileVersion :=
  let copied : TGFSFileVersion :=
    { id := versionId
      updatedAt := version.updatedAt
      messageIds := ids
      partSizes := version.partSizes
      store := some api.repo.key }
  if api.repo.mirrorKeys.isSome ∧ calls.inlineMirroring ∧
      version.messageIds ≠ [] then
    (calls.mirrorParts ids version.partSizes).map fun copies =>
      { copied with mirrors := copies.1, replicas := copies.2 }
  else some copied

/-- The loop of `_duplicate_versions` from the given version on. -/
def duplicateFrom (api : FileApi) (calls : CopyCalls) :
    List TGFSFileVersion → Nat → List Int → TGFSFileDesc →
      Except CopyError TGFSFileDesc
  | [], _, _, copied => .ok copied
  | version :: versions, count, newParts, copied =>
      match api.copiedVersion calls version (calls.newVersionId count)
          (newParts.take version.messageIds.length) with
      | none => .error .mirror
      | some newVersion =>
          match copied.addVersion newVersion with
          | .error failure => .error (.desc failure)
          | .ok added =>
              duplicateFrom api calls versions (count + 1)
                (newParts.drop version.messageIds.length) added

/-- The new ids by the ids of the versions they were made from. -/
def newVersionIds (calls : CopyCalls) (versions : List TGFSFileVersion) :
    Dict String String :=
  Dict.ofList (versions.zipIdx.map fun entry =>
    (entry.1.id, calls.newVersionId entry.2))

/-- `_duplicate_versions`. -/
def duplicateVersions (api : FileApi) (calls : CopyCalls) (now : DateTime)
    (desc : TGFSFileDesc) : Except CopyError TGFSFileDesc :=
  let versions := desc.sortedVersions
  match calls.copyWithin (versions.flatMap TGFSFileVersion.messageIds) with
  | none => .error .copyWithin
  | some newParts =>
      (api.duplicateFrom calls versions 0 newParts
        { name := desc.name, createdAt := now }).map fun copied =>
          { copied with
            createdAt := desc.createdAt
            latestVersionId :=
              (((newVersionIds calls versions).get?
                desc.latestVersionId).filter (· ≠ "")).getD
                  copied.latestVersionId }

/-- A descriptor that is written and listed in the tree. -/
structure PreparedCopy where
  source : TGFSFileDesc
  resp : FDRepositoryResp
  file : FileRef
  tree : DirectoryTree

/-- `_discard_orphans`: the messages of a copy that did not get into the
tree. -/
def discardOrphans (api : FileApi) (copied : TGFSFileDesc)
    (resp : Option FDRepositoryResp) : Collected :=
  let described : Collected :=
    match resp with
    | none => {}
    | some resp =>
        resp.mirrors.items.foldl (fun collected item =>
          if 0 < item.2 then collected.addMirrorIds item.1 [item.2]
          else collected) (Collected.addIds {} [resp.messageId])
  copied.versions.values.foldl (fun collected version =>
    collected.collectVersionIds api.repo.key version) described

/-- The state that a copy leaves behind. -/
structure CopyState where
  texts : FDRepository.Texts
  discarded : Collected := {}

/-- `copy` up to the point at which the new ref is in the tree. -/
def prepareCopy (api : FileApi) (calls : CopyCalls) (answers : Answers)
    (texts : FDRepository.Texts) (tree : DirectoryTree) (location : Nat)
    (file : FileRef) (name : Name) (now : DateTime) :
    CopyState × Except CopyError PreparedCopy :=
  match api.repo.get answers file true true now with
  | .error failure => ({ texts := texts }, .error (.get failure))
  | .ok source =>
      match api.duplicateVersions calls now source with
      | .error failure => ({ texts := texts }, .error failure)
      | .ok copied =>
          match api.repo.save texts copied none calls.fresh calls.writes with
          | (written, .error failure) =>
              ({ texts := written
                 discarded := api.discardOrphans copied none },
                .error (.write failure))
          | (written, .ok resp) =>
              let copiedFile : FileRef :=
                { messageId := resp.messageId
                  name := DirectoryTree.newNameOr name file.name
                  mirrors := resp.mirrors
                  store := some resp.store }
              match tree.createFileRef location copiedFile with
              | .error failure =>
                  ({ texts := written
                     discarded := api.discardOrphans copied (some resp) },
                    .error (.tree failure))
              | .ok grown =>
                  ({ texts := written }, .ok
                    { source := source
                      resp := resp
                      file := copiedFile
                      tree := grown })

structure CopyResult where
  state : CopyState
  tree : DirectoryTree
  outcome : Except CopyError (FileRef × TGFSFileDesc)

/-- `copy`: the metadata is pushed and the write announced once the new ref
is in the tree. -/
def copy (api : FileApi) (calls : CopyCalls) (answers : Answers)
    (texts : FDRepository.Texts) (tree : DirectoryTree) (location : Nat)
    (file : FileRef) (name : Name) (now : DateTime) : CopyResult :=
  match api.prepareCopy calls answers texts tree location file name now with
  | (state, .error failure) => ⟨state, tree, .error failure⟩
  | (state, .ok prepared) =>
      if calls.finishes then
        ⟨state, prepared.tree, .ok (prepared.file, prepared.resp.fd)⟩
      else ⟨state, prepared.tree, .error .finish⟩

end FileApi

end Tgdcfs
