import Mathlib.Data.List.DropRight
import Tgdcfs.Core.Clients
import Tgdcfs.Github.LoadEntries
import Tgdcfs.Github.PathNames

/-!
# Where a loaded directory is stored

A directory does not keep the segment it was loaded from.  Its storage name is
made again from the decoded name and from the flag that the segment was an
encrypted one, and its storage path from the storage names on the way down
from the root.
-/

namespace Tgdcfs

open Lib

def joinPath (parts : List (List Char)) : StoragePath :=
  ['/'].intercalate ((parts.filter (· ≠ [])).map stripSlashes)

/-- `_storage_name`. -/
def LoadedDirectory.storageName (nameKey : Option NameCipher)
    (dir : LoadedDirectory) : List Char :=
  match nameKey with
  | none => dir.name
  | some key =>
      if dir.storedEncrypted then key.encryptPathName dir.name else dir.name

namespace LoadedTree

/-- `_github_path` of the directory object at a path.  Its parent is the
object in whose children it was put. -/
def githubPathWithin (nameKey : Option NameCipher) (loaded : LoadedTree) :
    Nat → StoragePath → Option StoragePath
  | 0, _ => some []
  | fuel + 1, path =>
      if path = [] then some []
      else do
        let dir ← loaded.dirs.get? path
        let parent ← loaded.githubPathWithin nameKey fuel (parentPath path)
        some (joinPath [parent, dir.storageName nameKey])

def githubPath (nameKey : Option NameCipher) (loaded : LoadedTree)
    (path : StoragePath) : Option StoragePath :=
  loaded.githubPathWithin nameKey path.length path

end LoadedTree

/-- A path that git lists: no segment is empty.  There is none for the
root. -/
structure RepositoryPath where
  segments : List (List Char)
  named : ∀ segment ∈ segments, segment ≠ [] ∧ '/' ∉ segment

namespace RepositoryPath

def path (repositoryPath : RepositoryPath) : StoragePath :=
  ['/'].intercalate repositoryPath.segments

end RepositoryPath

section Segments

variable {segments : List (List Char)} {last : List Char}

theorem intercalate_snoc (segments : List (List Char)) (last : List Char) :
    ['/'].intercalate (segments ++ [last]) =
      if segments = [] then last
      else ['/'].intercalate segments ++ '/' :: last := by
  by_cases empty : segments = []
  · simp [empty]
  · rw [if_neg empty, intercalate_append empty (List.cons_ne_nil _ _),
      List.intercalate_singleton]

theorem splitLast_snoc (free : '/' ∉ last) :
    splitLast '/' (['/'].intercalate (segments ++ [last])) =
      if segments = [] then none
      else some (['/'].intercalate segments, last) := by
  rw [intercalate_snoc]
  by_cases empty : segments = []
  · rw [if_pos empty, if_pos empty]
    exact splitLast_eq_none free
  · rw [if_neg empty, if_neg empty]
    exact splitLast_append free

theorem parentPath_snoc (free : '/' ∉ last) :
    parentPath (['/'].intercalate (segments ++ [last])) =
      ['/'].intercalate segments := by
  rw [parentPath, splitLast_snoc free]
  by_cases empty : segments = []
  · simp [empty]
  · simp [empty]

theorem lastSegment_snoc (free : '/' ∉ last) :
    lastSegment (['/'].intercalate (segments ++ [last])) = last := by
  rw [lastSegment, splitLast_snoc free]
  by_cases empty : segments = []
  · simp [empty]
  · simp [empty]

theorem intercalate_snoc_ne_nil (filled : last ≠ []) :
    ['/'].intercalate (segments ++ [last]) ≠ [] := by
  rw [intercalate_snoc]
  by_cases empty : segments = []
  · simpa [empty] using filled
  · simp [empty]

theorem stripSlashes_eq {text : List Char} (first : text.head? ≠ some '/')
    (end_ : text.getLast? ≠ some '/') : stripSlashes text = text := by
  have front : text.dropWhile (· = '/') = text := by
    cases text with
    | nil => rfl
    | cons head rest =>
        have different : ¬head = '/' := by simpa using first
        rw [List.dropWhile_cons, if_neg (by simpa using different)]
  rw [stripSlashes, lstripSlashes, front]
  change text.rdropWhile (· = '/') = text
  rw [List.rdropWhile_eq_self_iff]
  intro filled
  rw [List.getLast?_eq_some_getLast filled] at end_
  simpa using end_

theorem stripSlashes_segment (free : '/' ∉ last) :
    stripSlashes last = last := by
  apply stripSlashes_eq
  · intro first
    exact free (List.mem_of_mem_head? first)
  · intro end_
    exact free (List.mem_of_getLast? end_)

theorem stripSlashes_intercalate
    (named : ∀ segment ∈ segments, segment ≠ [] ∧ '/' ∉ segment) :
    stripSlashes (['/'].intercalate segments) =
      ['/'].intercalate segments := by
  apply stripSlashes_eq
  · cases segments with
    | nil => simp
    | cons segment rest =>
        obtain ⟨filled, free⟩ := named segment List.mem_cons_self
        have begins : (['/'].intercalate (segment :: rest)).head? =
            segment.head? := by
          cases rest with
          | nil => simp
          | cons next rest =>
              rw [List.intercalate_cons_cons, List.append_assoc,
                List.head?_append_of_ne_nil _ filled]
        rw [begins]
        intro first
        exact free (List.mem_of_mem_head? first)
  · cases segments using List.reverseRecOn with
    | nil => simp
    | append_singleton segments last =>
        obtain ⟨filled, free⟩ := named last (by simp)
        have ends : (['/'].intercalate (segments ++ [last])).getLast? =
            last.getLast? := by
          rw [intercalate_snoc]
          by_cases empty : segments = []
          · rw [if_pos empty]
          · rw [if_neg empty, List.append_cons,
              List.getLast?_append_of_ne_nil _ filled]
        rw [ends]
        intro end_
        exact free (List.mem_of_getLast? end_)

theorem joinPath_snoc
    (named : ∀ segment ∈ segments, segment ≠ [] ∧ '/' ∉ segment)
    (lastNamed : last ≠ [] ∧ '/' ∉ last) :
    joinPath [['/'].intercalate segments, last] =
      ['/'].intercalate (segments ++ [last]) := by
  rw [intercalate_snoc]
  cases segments with
  | nil => simp [joinPath, lastNamed.1, stripSlashes_segment lastNamed.2]
  | cons segment rest =>
      have filled : ['/'].intercalate (segment :: rest) ≠ [] := by
        cases rest with
        | nil => simpa using (named segment List.mem_cons_self).1
        | cons next rest => simp
      have parts : [['/'].intercalate (segment :: rest), last].filter
          (· ≠ []) = [['/'].intercalate (segment :: rest), last] := by
        simp only [ne_eq, List.filter_cons, filled, lastNamed.1,
          not_false_eq_true, decide_true, if_true, List.filter_nil]
      rw [joinPath, parts, List.map_cons, List.map_cons, List.map_nil,
        stripSlashes_intercalate named, stripSlashes_segment lastNamed.2,
        List.intercalate_cons_cons, List.intercalate_singleton,
        List.append_assoc, if_neg (List.cons_ne_nil _ _)]
      rfl

theorem intercalate_injective {others : List (List Char)}
    (free : ∀ segment ∈ segments, '/' ∉ segment)
    (othersFree : ∀ segment ∈ others, '/' ∉ segment)
    (length : segments.length = others.length)
    (same : ['/'].intercalate segments = ['/'].intercalate others) :
    segments = others := by
  by_cases empty : segments = []
  · rw [empty, List.length_nil] at length
    rw [empty, List.length_eq_zero_iff.mp length.symm]
  · have below : others ≠ [] := by
      rintro rfl
      exact empty (List.length_eq_zero_iff.mp length)
    rw [← List.splitOn_intercalate '/' free empty, same,
      List.splitOn_intercalate '/' othersFree below]

end Segments

end Tgdcfs
