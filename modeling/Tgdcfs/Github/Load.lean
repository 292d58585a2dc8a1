import Tgdcfs.Github.GitTree
import Tgdcfs.Lib.Text

/-!
# Loading the tree from the repository

`buildFromTree` makes the directory tree out of the flat listing of the
repository.  Directories are made on demand, parents first.  Each storage path
has its own directory object, so the object is named by the path; two of them
may have the same name in the same parent, one encrypted and one plain.

An exception in the middle of the list ends the load with what is there.
-/

namespace Tgdcfs

open Lib

/-- The key for path names: AES-SIV with its encoding.  What authenticates was
encrypted here, so it decodes to a text. -/
structure NameCipher where
  encryptPathName : Name → List Char
  decryptPathName : List Char → Option Name

def PATH_NAME_PREFIX : List Char := "TGFSP1_".toList

def isEncryptedPathName (name : List Char) : Bool :=
  PATH_NAME_PREFIX.isPrefixOf name

/-- The plain name of a segment, and whether it was an encrypted one. -/
def decodeName (nameKey : Option NameCipher) (raw : List Char) :
    Name × Bool :=
  if !isEncryptedPathName raw then (raw, false)
  else
    match nameKey with
    | none => (raw, true)
    | some key =>
        match key.decryptPathName raw with
        | some plain => (plain, true)
        | none => (raw, true)

/-- `rpartition("/")`: the parent and the last segment. -/
def parentPath (path : StoragePath) : StoragePath :=
  ((splitLast '/' path).map Prod.fst).getD []

def lastSegment (path : StoragePath) : List Char :=
  ((splitLast '/' path).map Prod.snd).getD path

structure LoadedFile where
  name : Name
  messageId : Int
  deriving DecidableEq

structure LoadedDirectory where
  name : Name
  storedEncrypted : Bool
  children : List StoragePath
  files : List LoadedFile
  statsSha : Option String

/-- The directories by their storage paths; the root is at the empty one. -/
structure LoadedTree where
  dirs : Dict StoragePath LoadedDirectory

inductive LoadError where
  | invalidName (name : Name)
  | indexError
  | alreadyExists (name : Name)

/-- `validate_name` looks at the first character first. -/
def validateName : Name → Except LoadError Unit
  | [] => .error .indexError
  | first :: rest =>
      if first = '-' ∨ '/' ∈ first :: rest then
        .error (.invalidName (first :: rest))
      else .ok ()

def STATS_FILE_NAME : List Char := ".tgdcfsstats.json".toList

def GITKEEP : List Char := ".gitkeep".toList

namespace LoadedTree

/-- Only the root, which has no name in the repository. -/
def rootOnly (nameKey : Option NameCipher) : LoadedTree :=
  ⟨Dict.empty.set [] ⟨"root".toList, nameKey.isSome, [], [], none⟩⟩

/-- Go on unless an exception was raised; what was done before it stays. -/
def andThen (result : LoadedTree × Except LoadError Unit)
    (next : LoadedTree → LoadedTree × Except LoadError Unit) :
    LoadedTree × Except LoadError Unit :=
  match result with
  | (reached, .error error) => (reached, .error error)
  | (reached, .ok ()) => next reached

/-- `_create_child_dir`, entered under its path. -/
def createChildDir (loaded : LoadedTree) (path : StoragePath) (name : Name)
    (storedEncrypted : Bool) : LoadedTree :=
  ⟨(loaded.dirs.set path ⟨name, storedEncrypted, [], [], none⟩).modify
    (parentPath path) fun parent =>
      { parent with children := parent.children ++ [path] }⟩

/-- `_dir_at`.  A path is longer than its parent, so its length bounds the
recursion.  What was created before an exception stays. -/
def dirAtWithin (nameKey : Option NameCipher) :
    Nat → StoragePath → LoadedTree → LoadedTree × Except LoadError Unit
  | 0, _, loaded => (loaded, .ok ())
  | fuel + 1, path, loaded =>
      if loaded.dirs.contains path then (loaded, .ok ())
      else
        let (name, wasEncrypted) := decodeName nameKey (lastSegment path)
        andThen (dirAtWithin nameKey fuel (parentPath path) loaded)
          fun reached =>
            match validateName name with
            | .error error => (reached, .error error)
            | .ok () =>
                (reached.createChildDir path name wasEncrypted, .ok ())

def dirAt (nameKey : Option NameCipher) (path : StoragePath)
    (loaded : LoadedTree) : LoadedTree × Except LoadError Unit :=
  loaded.dirAtWithin nameKey path.length path

def attachFileRef (loaded : LoadedTree) (path : StoragePath)
    (file : LoadedFile) : LoadedTree × Except LoadError Unit :=
  match loaded.dirs.get? path with
  | none => (loaded, .ok ())
  | some dir =>
      if dir.files.any (·.name = file.name) then
        (loaded, .error (.alreadyExists file.name))
      else
        (⟨loaded.dirs.modify path fun dir =>
          { dir with files := dir.files ++ [file] }⟩, .ok ())

/-- One round of the loop.  None of the errors is a `ValueError`, so the
handler of the loop lets them pass. -/
def addEntry (nameKey : Option NameCipher) (loaded : LoadedTree)
    (entry : TreeEntry) : LoadedTree × Except LoadError Unit :=
  match entry.type with
  | .tree => loaded.dirAt nameKey entry.path
  | .commit => (loaded, .ok ())
  | .blob =>
      let segment := lastSegment entry.path
      if segment = GITKEEP then (loaded, .ok ())
      else if segment = STATS_FILE_NAME then
        andThen (loaded.dirAt nameKey (parentPath entry.path)) fun reached =>
          (⟨reached.dirs.modify (parentPath entry.path) fun dir =>
            { dir with statsSha := some entry.sha }⟩, .ok ())
      else
        match splitLast '.' segment with
        | none => (loaded, .ok ())
        | some (storedName, messageId) =>
            let fileName := (decodeName nameKey storedName).1
            andThen (loaded.dirAt nameKey (parentPath entry.path))
              fun reached =>
                match parseInt messageId with
                | none => (reached, .ok ())
                | some messageId =>
                    reached.attachFileRef (parentPath entry.path)
                      ⟨fileName, messageId⟩

/-- The loop of `_build_from_tree`, with the exception that ends it. -/
def addEntries (nameKey : Option NameCipher) :
    LoadedTree → List TreeEntry → LoadedTree × Except LoadError Unit
  | loaded, [] => (loaded, .ok ())
  | loaded, entry :: entries =>
      andThen (loaded.addEntry nameKey entry) fun reached =>
        addEntries nameKey reached entries

end LoadedTree

/-- The tree that `_build_directory_structure` returns: an exception is
logged. -/
def buildFromTree (nameKey : Option NameCipher) (entries : List TreeEntry) :
    LoadedTree :=
  ((LoadedTree.rootOnly nameKey).addEntries nameKey entries).1

end Tgdcfs
