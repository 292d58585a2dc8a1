import Tgdcfs.Github.Load

/-!
# What is loaded

A storage path is valid if every segment decodes to a valid name.  The
directories of the loaded tree are the valid ones among the paths that were
asked for and their parents, and `dirAt` fails exactly for a path that is not
valid.
-/

namespace Tgdcfs

open Lib

variable {path : StoragePath}

theorem parentPath_length (below : path ≠ []) :
    (parentPath path).length < path.length := by
  have positive := List.length_pos_of_ne_nil below
  unfold parentPath
  cases splits : splitLast '/' path with
  | none => exact positive
  | some pair =>
      obtain ⟨before, behind⟩ := pair
      obtain ⟨whole, _⟩ := splitLast_spec splits
      rw [whole, List.length_append, List.length_cons, Option.map_some,
        Option.getD_some]
      exact Nat.lt_add_of_pos_right (Nat.succ_pos _)

/-- Every name on the way from the root is valid. -/
inductive ValidPath (nameKey : Option NameCipher) : StoragePath → Prop
  | root : ValidPath nameKey []
  | child {path : StoragePath} (below : path ≠ [])
      (above : ValidPath nameKey (parentPath path))
      (valid : validName (decodeName nameKey (lastSegment path)).1) :
      ValidPath nameKey path

inductive Ancestor : StoragePath → StoragePath → Prop
  | self {path : StoragePath} : Ancestor path path
  | up {above path : StoragePath} (below : path ≠ [])
      (ancestor : Ancestor above (parentPath path)) : Ancestor above path

theorem Ancestor.length_le {above : StoragePath}
    (ancestor : Ancestor above path) : above.length ≤ path.length := by
  induction ancestor with
  | self => exact le_rfl
  | up below _ ih => exact ih.trans (parentPath_length below).le

theorem not_ancestor_parent (below : path ≠ []) :
    ¬Ancestor path (parentPath path) := by
  intro ancestor
  have shorter := parentPath_length below
  have longer := ancestor.length_le
  omega

theorem ancestor_iff {above : StoragePath} (below : path ≠ []) :
    Ancestor above path ↔ above = path ∨ Ancestor above (parentPath path) := by
  constructor
  · intro ancestor
    cases ancestor with
    | self => exact .inl rfl
    | up _ further => exact .inr further
  · rintro (rfl | further)
    · exact .self
    · exact .up below further

theorem validPath_iff {nameKey : Option NameCipher} (below : path ≠ []) :
    ValidPath nameKey path ↔ ValidPath nameKey (parentPath path) ∧
      validName (decodeName nameKey (lastSegment path)).1 := by
  constructor
  · intro valid
    cases valid with
    | root => exact (below rfl).elim
    | child _ above named => exact ⟨above, named⟩
  · rintro ⟨above, named⟩
    exact .child below above named

theorem validateName_ok {name : Name} :
    validateName name = .ok () ↔ validName name := by
  cases name with
  | nil => simp [validateName, validName]
  | cons first rest =>
      rw [validateName]
      split
      · rename_i refused
        simp only [validName, Bool.and_eq_true, decide_eq_true_eq]
        grind
      · rename_i accepted
        simp only [validName, Bool.and_eq_true, decide_eq_true_eq]
        grind

/-- The plain names from the root down to a storage path. -/
def decodedPath (nameKey : Option NameCipher) (path : StoragePath) :
    List Name :=
  if path = [] then []
  else decodedPath nameKey (parentPath path) ++
    [(decodeName nameKey (lastSegment path)).1]
termination_by path.length
decreasing_by exact parentPath_length ‹_›

theorem decodedPath_root (nameKey : Option NameCipher) :
    decodedPath nameKey [] = [] := by
  rw [decodedPath]
  exact if_pos rfl

theorem decodedPath_child (nameKey : Option NameCipher) (below : path ≠ []) :
    decodedPath nameKey path = decodedPath nameKey (parentPath path) ++
      [(decodeName nameKey (lastSegment path)).1] := by
  rw [decodedPath]
  exact if_neg below

namespace LoadedTree

def Has (loaded : LoadedTree) (path : StoragePath) : Prop :=
  ∃ dir, loaded.dirs.get? path = some dir

def filesAt (loaded : LoadedTree) (path : StoragePath) : List LoadedFile :=
  ((loaded.dirs.get? path).map LoadedDirectory.files).getD []

/-- The directories hang together as their paths say. -/
structure Sound (nameKey : Option NameCipher) (loaded : LoadedTree) :
    Prop where
  root : loaded.Has []
  valid : ∀ path, loaded.Has path → ValidPath nameKey path
  parents : ∀ path, loaded.Has path → path ≠ [] →
    loaded.Has (parentPath path)
  named : ∀ path dir, loaded.dirs.get? path = some dir → path ≠ [] →
    dir.name = (decodeName nameKey (lastSegment path)).1
  children : ∀ path dir, loaded.dirs.get? path = some dir → ∀ child,
    child ∈ dir.children ↔
      child ≠ [] ∧ parentPath child = path ∧ loaded.Has child

variable {nameKey : Option NameCipher} {loaded : LoadedTree}

variable {path : StoragePath}

theorem contains_iff : loaded.dirs.contains path = true ↔ loaded.Has path :=
  Option.isSome_iff_exists

theorem Sound.ancestors (sound : loaded.Sound nameKey) {above : StoragePath}
    (ancestor : Ancestor above path) (has : loaded.Has path) :
    loaded.Has above := by
  induction ancestor with
  | self => exact has
  | up below _ ih => exact ih (sound.parents _ has below)

theorem rootOnly_get? (path : StoragePath) :
    (rootOnly nameKey).dirs.get? path =
      if path = [] then
        some ⟨"root".toList, nameKey.isSome, [], [], none⟩
      else none := by
  rw [rootOnly, Dict.get?_set]
  rfl

theorem rootOnly_has : (rootOnly nameKey).Has path ↔ path = [] := by
  unfold Has
  rw [rootOnly_get?]
  by_cases root : path = []
  · simp [root]
  · simp [root]

theorem rootOnly_sound : (rootOnly nameKey).Sound nameKey := by
  constructor
  · exact rootOnly_has.mpr rfl
  · intro path has
    rw [rootOnly_has.mp has]
    exact .root
  · intro path has below
    exact (below (rootOnly_has.mp has)).elim
  · intro path dir found below
    exact (below (rootOnly_has.mp ⟨dir, found⟩)).elim
  · intro path dir found child
    have root := rootOnly_has.mp ⟨dir, found⟩
    rw [rootOnly_get?, if_pos root] at found
    cases found
    constructor
    · intro absurd
      cases absurd
    · rintro ⟨below, _, has⟩
      exact (below (rootOnly_has.mp has)).elim

section Create

variable {path : StoragePath} {name : Name} {wasEncrypted : Bool}

theorem createChildDir_get? (below : path ≠ []) (other : StoragePath) :
    (loaded.createChildDir path name wasEncrypted).dirs.get? other =
      if other = path then some ⟨name, wasEncrypted, [], [], none⟩
      else if other = parentPath path then
        (loaded.dirs.get? other).map fun parent =>
          { parent with children := parent.children ++ [path] }
      else loaded.dirs.get? other := by
  have shorter := parentPath_length below
  rw [createChildDir, Dict.get?_modify, Dict.get?_set]
  by_cases same : other = path
  · subst same
    have different : other ≠ parentPath other := by
      intro equal
      rw [← equal] at shorter
      omega
    rw [if_neg different, if_pos rfl, if_pos rfl]
  · rw [if_neg same, if_neg same]

theorem createChildDir_has (below : path ≠ []) (other : StoragePath) :
    (loaded.createChildDir path name wasEncrypted).Has other ↔
      loaded.Has other ∨ other = path := by
  unfold Has
  rw [createChildDir_get? below]
  by_cases same : other = path
  · simp [same]
  · rw [if_neg same]
    by_cases parent : other = parentPath path
    · rw [if_pos parent]
      cases loaded.dirs.get? other <;> simp [same]
    · rw [if_neg parent]
      simp [same]

theorem createChildDir_filesAt (below : path ≠ [])
    (fresh : ¬loaded.Has path) (other : StoragePath) :
    (loaded.createChildDir path name wasEncrypted).filesAt other =
      loaded.filesAt other := by
  unfold filesAt
  rw [createChildDir_get? below]
  by_cases same : other = path
  · have absent : loaded.dirs.get? other = none := by
      rw [same]
      exact Option.not_isSome_iff_eq_none.mp (mt contains_iff.mp fresh)
    rw [if_pos same, absent]
    rfl
  · rw [if_neg same]
    by_cases parent : other = parentPath path
    · rw [if_pos parent, Option.map_map]
      rfl
    · rw [if_neg parent]

theorem createChildDir_sound (sound : loaded.Sound nameKey)
    (below : path ≠ []) (fresh : ¬loaded.Has path)
    (above : loaded.Has (parentPath path))
    (named : name = (decodeName nameKey (lastSegment path)).1)
    (valid : validName name) :
    (loaded.createChildDir path name wasEncrypted).Sound nameKey := by
  constructor
  · exact (createChildDir_has below _).mpr (.inl sound.root)
  · intro other has
    rcases (createChildDir_has below other).mp has with before | rfl
    · exact sound.valid other before
    · exact .child below (sound.valid _ above) (named ▸ valid)
  · intro other has nonempty
    apply (createChildDir_has below _).mpr
    rcases (createChildDir_has below other).mp has with before | rfl
    · exact .inl (sound.parents other before nonempty)
    · exact .inl above
  · intro other dir found nonempty
    rw [createChildDir_get? below] at found
    split at found
    · rename_i same
      cases found
      rw [same, named]
    · split at found
      · obtain ⟨parent, was, rfl⟩ := Option.map_eq_some_iff.mp found
        exact sound.named other parent was nonempty
      · exact sound.named other dir found nonempty
  · intro other dir found child
    rw [createChildDir_has below]
    rw [createChildDir_get? below] at found
    split at found
    · -- The new directory has no children yet.
      rename_i same
      cases found
      constructor
      · intro absurd
        cases absurd
      · rintro ⟨nonempty, parent, has | rfl⟩
        · have reached := sound.parents child has nonempty
          rw [parent, same] at reached
          exact (fresh reached).elim
        · have shorter := parentPath_length below
          rw [parent, same] at shorter
          omega
    · split at found
      · rename_i parent
        obtain ⟨was, before, rfl⟩ := Option.map_eq_some_iff.mp found
        rw [List.mem_append, sound.children other was before child,
          List.mem_singleton]
        constructor
        · rintro (⟨nonempty, parent, has⟩ | rfl)
          · exact ⟨nonempty, parent, .inl has⟩
          · exact ⟨below, parent.symm, .inr rfl⟩
        · rintro ⟨nonempty, parent, has | rfl⟩
          · exact .inl ⟨nonempty, parent, has⟩
          · exact .inr rfl
      · rename_i notParent
        rw [sound.children other dir found child]
        constructor
        · rintro ⟨nonempty, parent, has⟩
          exact ⟨nonempty, parent, .inl has⟩
        · rintro ⟨nonempty, parent, has | rfl⟩
          · exact ⟨nonempty, parent, has⟩
          · exact (notParent parent.symm).elim

end Create

/-- What `dirAt` does: the valid ancestors of the path are there, no file is
touched, and it fails if and only if the path is not valid. -/
structure Reaches (nameKey : Option NameCipher) (loaded : LoadedTree)
    (path : StoragePath)
    (result : LoadedTree × Except LoadError Unit) : Prop where
  sound : result.1.Sound nameKey
  has : ∀ other, result.1.Has other ↔
    loaded.Has other ∨ Ancestor other path ∧ ValidPath nameKey other
  files : ∀ other, result.1.filesAt other = loaded.filesAt other
  ok : result.2 = .ok () ↔ ValidPath nameKey path

/-- A path that is there already brings all its ancestors. -/
theorem Sound.reaches (sound : loaded.Sound nameKey) {path : StoragePath}
    (has : loaded.Has path) : Reaches nameKey loaded path (loaded, .ok ()) := by
  refine ⟨sound, ?_, fun _ => rfl, fun _ => sound.valid path has,
    fun _ => rfl⟩
  intro other
  constructor
  · exact .inl
  · rintro (before | ⟨ancestor, _⟩)
    · exact before
    · exact sound.ancestors ancestor has

section Parent

variable {reached : LoadedTree} {path : StoragePath}
  {outcome : Except LoadError Unit} (below : path ≠ [])
  (above : Reaches nameKey loaded (parentPath path) (reached, outcome))

include below above

/-- An invalid path adds its valid ancestors only. -/
theorem Reaches.refused (invalid : ¬ValidPath nameKey path)
    (error : LoadError) :
    Reaches nameKey loaded path (reached, .error error) := by
  refine ⟨above.sound, ?_, above.files, ?_⟩
  · intro other
    rw [above.has, ancestor_iff below]
    constructor
    · rintro (before | ⟨ancestor, valid⟩)
      · exact .inl before
      · exact .inr ⟨.inr ancestor, valid⟩
    · rintro (before | ⟨rfl | ancestor, valid⟩)
      · exact .inl before
      · exact (invalid valid).elim
      · exact .inr ⟨ancestor, valid⟩
  · constructor
    · intro absurd
      cases absurd
    · intro valid
      exact (invalid valid).elim

/-- A missing directory is added to its parent. -/
theorem Reaches.created (missing : ¬loaded.Has path)
    (parent : ValidPath nameKey (parentPath path))
    (named : validName (decodeName nameKey (lastSegment path)).1) :
    Reaches nameKey loaded path (reached.createChildDir path
      (decodeName nameKey (lastSegment path)).1
      (decodeName nameKey (lastSegment path)).2, .ok ()) := by
  have valid := (validPath_iff below).mpr ⟨parent, named⟩
  have fresh : ¬reached.Has path := by
    rw [above.has]
    rintro (before | ⟨ancestor, _⟩)
    · exact missing before
    · exact not_ancestor_parent below ancestor
  refine ⟨createChildDir_sound above.sound below fresh
    ((above.has _).mpr (.inr ⟨.self, parent⟩)) rfl named, ?_, ?_, ?_⟩
  · intro other
    rw [createChildDir_has below, above.has, ancestor_iff below]
    constructor
    · rintro ((before | ⟨ancestor, valid⟩) | rfl)
      · exact .inl before
      · exact .inr ⟨.inr ancestor, valid⟩
      · exact .inr ⟨.inl rfl, valid⟩
    · rintro (before | ⟨rfl | ancestor, valid⟩)
      · exact .inl (.inl before)
      · exact .inr rfl
      · exact .inl (.inr ⟨ancestor, valid⟩)
  · intro other
    rw [createChildDir_filesAt below fresh]
    exact above.files other
  · exact ⟨fun _ => valid, fun _ => rfl⟩

end Parent

theorem dirAtWithin_reaches (sound : loaded.Sound nameKey) :
    ∀ (fuel : Nat) (path : StoragePath), path.length ≤ fuel →
      Reaches nameKey loaded path
        (loaded.dirAtWithin nameKey fuel path) := by
  intro fuel
  induction fuel with
  | zero =>
      intro path short
      have root : path = [] := List.length_eq_zero_iff.mp (by omega)
      rw [root]
      exact sound.reaches sound.root
  | succ fuel ih =>
      intro path short
      rw [dirAtWithin]
      by_cases has : loaded.Has path
      · rw [if_pos (contains_iff.mpr has)]
        exact sound.reaches has
      rw [if_neg (mt contains_iff.mp has)]
      have below : path ≠ [] := by
        rintro rfl
        exact has sound.root
      have shorter := parentPath_length below
      have above := ih (parentPath path) (by omega)
      dsimp only
      generalize loaded.dirAtWithin nameKey fuel (parentPath path) = result
        at above
      obtain ⟨reached, outcome⟩ := result
      have outcome_ok := above.ok
      cases outcome with
      | error error =>
          apply above.refused below
          intro valid
          have parent := (validPath_iff below).mp valid
          exact absurd (outcome_ok.mpr parent.1) (by simp)
      | ok done =>
          dsimp only [andThen]
          cases checked : validateName
              (decodeName nameKey (lastSegment path)).1 with
          | error error =>
              apply above.refused below
              intro valid
              have named := ((validPath_iff below).mp valid).2
              rw [validateName_ok.mpr named] at checked
              cases checked
          | ok done =>
              exact above.created below has (outcome_ok.mp rfl)
                (validateName_ok.mp checked)

theorem dirAt_reaches (sound : loaded.Sound nameKey) (path : StoragePath) :
    Reaches nameKey loaded path (loaded.dirAt nameKey path) :=
  dirAtWithin_reaches sound path.length path le_rfl

/-- From one directory object to another along children with these names. -/
inductive Walks (loaded : LoadedTree) :
    StoragePath → List Name → StoragePath → Prop
  | here {path : StoragePath} : Walks loaded path [] path
  | down {path child node : StoragePath} {dir childDir : LoadedDirectory}
      {names : List Name} (found : loaded.dirs.get? path = some dir)
      (listed : child ∈ dir.children)
      (below : loaded.dirs.get? child = some childDir)
      (further : Walks loaded child names node) :
      Walks loaded path (childDir.name :: names) node

def HasDirectory (loaded : LoadedTree) (names : List Name) : Prop :=
  ∃ node, Walks loaded [] names node

def HasFile (loaded : LoadedTree) (names : List Name) (file : LoadedFile) :
    Prop :=
  ∃ node, Walks loaded [] names node ∧ file ∈ loaded.filesAt node

variable {node : StoragePath} {names : List Name}

theorem Walks.append {middle : StoragePath} {more : List Name}
    (walks : Walks loaded path names middle)
    (further : Walks loaded middle more node) :
    Walks loaded path (names ++ more) node := by
  induction walks with
  | here => exact further
  | down found listed below _ ih => exact .down found listed below (ih further)

theorem Walks.decoded (sound : loaded.Sound nameKey)
    (walks : Walks loaded path names node) (has : loaded.Has path) :
    loaded.Has node ∧
      decodedPath nameKey node = decodedPath nameKey path ++ names := by
  induction walks with
  | here => exact ⟨has, (List.append_nil _).symm⟩
  | @down path child node dir childDir names found listed below _ ih =>
      obtain ⟨notRoot, parent, present⟩ :=
        (sound.children path dir found child).mp listed
      obtain ⟨reached, decoded⟩ := ih present
      refine ⟨reached, ?_⟩
      rw [decoded, decodedPath_child nameKey notRoot, parent,
        sound.named child childDir below notRoot, List.append_assoc]
      rfl

/-- Every directory is found below the root under its decoded path. -/
theorem Sound.walks (sound : loaded.Sound nameKey) :
    ∀ (length : Nat) (path : StoragePath), path.length ≤ length →
      loaded.Has path → Walks loaded [] (decodedPath nameKey path) path := by
  intro length
  induction length with
  | zero =>
      intro path short _
      have root : path = [] := List.length_eq_zero_iff.mp (by omega)
      rw [root, decodedPath_root]
      exact .here
  | succ length ih =>
      intro path short has
      by_cases root : path = []
      · rw [root, decodedPath_root]
        exact .here
      · have shorter := parentPath_length root
        obtain ⟨parent, found⟩ := sound.parents path has root
        obtain ⟨dir, present⟩ := has
        have above := ih (parentPath path) (by omega) ⟨parent, found⟩
        rw [decodedPath_child nameKey root,
          ← sound.named path dir present root]
        refine above.append (.down found ?_ present .here)
        exact (sound.children _ parent found path).mpr
          ⟨root, rfl, dir, present⟩

theorem Sound.walks_iff (sound : loaded.Sound nameKey) :
    Walks loaded [] names node ↔
      loaded.Has node ∧ decodedPath nameKey node = names := by
  constructor
  · intro walks
    obtain ⟨has, decoded⟩ := walks.decoded sound sound.root
    rw [decodedPath_root] at decoded
    exact ⟨has, decoded⟩
  · rintro ⟨has, rfl⟩
    exact sound.walks node.length node le_rfl has

end LoadedTree

end Tgdcfs
