import Tgdcfs.Core.OpsInvariant
import Tgdcfs.Github.BackedTree
import Tgdcfs.Github.LoadOrder

/-!
# Where the directories in memory are stored

The storage path of a directory follows its trail.  As long as every stored
name is read back as the name it was made from, no two directories share a
storage path, and the path decodes to the names of the trail.
-/

namespace Tgdcfs

open Lib

/-- A blob of the tree is at these segments. -/
def GitTree.Holds (tree : GitTree) (segments : List (List Char)) : Prop :=
  ∃ blob ∈ tree.blobs, components blob.path = segments

theorem GitTree.Holds.eq_of_prefix {tree : GitTree}
    {first second : List (List Char)} (one : tree.Holds first)
    (other : tree.Holds second) (begins : first <+: second) :
    first = second := by
  obtain ⟨blob, member, rfl⟩ := one
  obtain ⟨further, listed, rfl⟩ := other
  rw [tree.consistent blob member further listed (.inl begins)]

/-- Segments that can stand between slashes. -/
def Named (segments : List (List Char)) : Prop :=
  ∀ segment ∈ segments, segment ≠ [] ∧ '/' ∉ segment

section Segments

variable {segments more : List (List Char)} {last : List Char}
  {path : StoragePath}

theorem Named.append (named : Named segments) (moreNamed : Named more) :
    Named (segments ++ more) := by
  intro segment member
  rcases List.mem_append.mp member with inside | inside
  · exact named segment inside
  · exact moreNamed segment inside

theorem Named.single (filled : last ≠ []) (free : '/' ∉ last) :
    Named [last] := by
  intro segment member
  rw [List.mem_singleton.mp member]
  exact ⟨filled, free⟩

theorem Named.of_prefix (named : Named segments) (begins : more <+: segments) :
    Named more :=
  fun segment member => named segment (begins.subset member)

theorem Named.parts (named : Named segments) :
    (segments.filter (· ≠ [])).map stripSlashes = segments := by
  have kept : segments.filter (· ≠ []) = segments := by
    apply List.filter_eq_self.mpr
    intro segment member
    simpa using (named segment member).1
  rw [kept]
  refine (List.map_congr_left ?_).trans (List.map_id _)
  intro segment member
  exact stripSlashes_segment (named segment member).2

/-- Joining behind the path of a directory appends the segments. -/
theorem joinPath_append (named : Named segments) (moreNamed : Named more) :
    joinPath (['/'].intercalate segments :: more) =
      ['/'].intercalate (segments ++ more) := by
  cases segments using List.reverseRecOn with
  | nil =>
      rw [joinPath, List.intercalate_nil, List.filter_cons_of_neg (by simp),
        moreNamed.parts, List.nil_append]
  | append_singleton segments last =>
      have filled : ['/'].intercalate (segments ++ [last]) ≠ [] :=
        intercalate_snoc_ne_nil (named last (by simp)).1
      rw [joinPath, List.filter_cons_of_pos (by simpa using filled),
        List.map_cons, stripSlashes_intercalate named, moreNamed.parts]
      by_cases empty : more = []
      · simp [empty]
      · rw [intercalate_append (by simp) empty]
        exact (intercalate_append (List.cons_ne_nil _ []) empty).trans
          (by rw [List.intercalate_singleton])

theorem components_intercalate (named : Named segments)
    (below : segments ≠ []) :
    components (['/'].intercalate segments) = segments :=
  List.splitOn_intercalate '/' (fun segment member =>
    (named segment member).2) below

theorem Named.intercalate_ne_nil (named : Named segments)
    (below : segments ≠ []) : ['/'].intercalate segments ≠ [] := by
  intro empty
  have parts := components_intercalate named below
  rw [empty] at parts
  have member : [] ∈ segments := by
    rw [← parts]
    simp [components]
  exact (named [] member).1 rfl

theorem Named.intercalate_injective (named : Named segments)
    (moreNamed : Named more)
    (same : ['/'].intercalate segments = ['/'].intercalate more) :
    segments = more := by
  by_cases empty : segments = []
  · by_contra different
    subst empty
    exact moreNamed.intercalate_ne_nil (Ne.symm different)
      (same.symm.trans List.intercalate_nil)
  · by_cases noMore : more = []
    · subst noMore
      exact (named.intercalate_ne_nil empty
        (same.trans List.intercalate_nil)).elim
    · rw [← components_intercalate named empty, same,
        components_intercalate moreNamed noMore]

theorem components_joinPath (named : Named segments)
    (moreNamed : Named more) (below : more ≠ []) :
    components (joinPath (['/'].intercalate segments :: more)) =
      segments ++ more := by
  rw [joinPath_append named moreNamed]
  exact components_intercalate (named.append moreNamed)
    (List.append_ne_nil_of_right_ne_nil _ below)

theorem path_eq (parts : components path = segments) :
    path = ['/'].intercalate segments := by
  rw [← parts, intercalate_components]

theorem parentPath_eq (free : '/' ∉ last)
    (parts : components path = segments ++ [last]) :
    parentPath path = ['/'].intercalate segments := by
  rw [path_eq parts, parentPath_snoc free]

theorem lastSegment_eq (free : '/' ∉ last)
    (parts : components path = segments ++ [last]) :
    lastSegment path = last := by
  rw [path_eq parts, lastSegment_snoc free]

end Segments

section Forms

variable {nameKey : Option PathNameKey} {encrypted other : Bool}
  {name another : Name}

/-- The name that a segment of a path stands for. -/
def decodeSegment (nameKey : Option PathNameKey) (segment : List Char) :
    Name :=
  (decodeName (nameCipher nameKey) segment).1

/-- The stored form is read back as the name. -/
def ReadableName (nameKey : Option PathNameKey) (encrypted : Bool)
    (name : Name) : Prop :=
  decodeSegment nameKey (storedForm nameKey encrypted name) = name

instance : Decidable (ReadableName nameKey encrypted name) :=
  inferInstanceAs (Decidable (_ = _))

theorem readable_encrypted : ReadableName nameKey true name := by
  cases nameKey with
  | none =>
      unfold ReadableName decodeSegment storedForm decodeName
      cases isEncryptedPathName name <;> rfl
  | some key =>
      simp only [ReadableName, decodeSegment, storedForm, if_true,
        nameCipher_some, PathNameKey.decodeName_encryptPathName]

theorem storedForm_injective (readable : ReadableName nameKey encrypted name)
    (otherReadable : ReadableName nameKey other another)
    (same : storedForm nameKey encrypted name =
      storedForm nameKey other another) : name = another := by
  have decoded := congrArg (decodeSegment nameKey) same
  rw [readable, otherReadable] at decoded
  exact decoded

theorem storedForm_free (free : '/' ∉ name) :
    '/' ∉ storedForm nameKey encrypted name := by
  cases nameKey with
  | none => exact free
  | some key =>
      cases encrypted with
      | false => exact free
      | true => exact key.slash_not_mem_encryptPathName name

theorem free_of_valid (valid : validName name) : '/' ∉ name := by
  cases name with
  | nil => simp
  | cons first rest =>
      simp only [validName, Bool.and_eq_true, decide_eq_true_eq] at valid
      exact valid.2

theorem storedForm_ne_nil (valid : validName name) :
    storedForm nameKey encrypted name ≠ [] := by
  have filled : name ≠ [] := by
    rintro rfl
    cases valid
  cases nameKey with
  | none => exact filled
  | some key =>
      cases encrypted with
      | false => exact filled
      | true => exact key.encryptPathName_ne_nil name

theorem storedForm_named (valid : validName name) :
    Named [storedForm nameKey encrypted name] :=
  .single (storedForm_ne_nil valid) (storedForm_free (free_of_valid valid))

variable {stored : List Char} {value : Nat}

theorem digits_free {character : Char} (other : character.isDigit = false) :
    character ∉ (toString (value : Int)).toList := by
  intro member
  rw [toList_toString] at member
  rw [(Decimal.ofNat value).digits character member] at other
  cases other

theorem refSegment_named (free : '/' ∉ stored) :
    Named [refSegment stored (value : Int)] := by
  apply Named.single
  · simp [refSegment]
  · intro member
    rcases List.mem_append.mp member with before | behind
    · exact free before
    · rcases List.mem_cons.mp behind with dot | digits
      · cases dot
      · exact digits_free rfl digits

theorem splitLast_refSegment :
    splitLast '.' (refSegment stored (value : Int)) =
      some (stored, (toString (value : Int)).toList) :=
  splitLast_append (digits_free rfl)

theorem refSegment_injective {more : List Char} {number : Nat}
    (same : refSegment stored (value : Int) =
      refSegment more (number : Int)) : stored = more := by
  have split := congrArg (splitLast '.') same
  rw [splitLast_refSegment, splitLast_refSegment] at split
  exact congrArg Prod.fst (Option.some.inj split)

theorem refSegment_ne {segment : List Char} (behind : List Char)
    (short : value < 10 ^ maxDigits)
    (splits : (splitLast '.' segment).map Prod.snd = some behind)
    (unread : parseInt behind = none) :
    refSegment stored (value : Int) ≠ segment := by
  rintro rfl
  rw [splitLast_refSegment] at splits
  cases splits
  rw [parseInt_toString short] at unread
  cases unread

theorem refSegment_ne_gitkeep (short : value < 10 ^ maxDigits) :
    refSegment stored (value : Int) ≠ GITKEEP :=
  refSegment_ne "gitkeep".toList short (by decide) (by decide)

theorem refSegment_ne_stats (short : value < 10 ^ maxDigits) :
    refSegment stored (value : Int) ≠ STATS_FILE_NAME :=
  refSegment_ne "json".toList short (by decide) (by decide)

end Forms

namespace GithubTree

variable {nameKey : Option PathNameKey} {state : GithubTree}

/-- The stored names on a trail. -/
def segmentsOf (nameKey : Option PathNameKey) (state : GithubTree)
    (steps : List (Nat × Name)) : List (List Char) :=
  steps.map fun step =>
    storedForm nameKey (state.storedEncrypted step.1) step.2

/-- The directory is stored at these segments. -/
def StoredAt (nameKey : Option PathNameKey) (state : GithubTree) (id : Nat)
    (segments : List (List Char)) : Prop :=
  ∃ steps, Trail state.tree.up 0 steps id ∧
    segments = state.segmentsOf nameKey steps

/-- Every directory but the root is read back under its name. -/
def Legible (nameKey : Option PathNameKey) (state : GithubTree) : Prop :=
  ∀ id parent name, state.tree.up id = some (parent, name) →
    ReadableName nameKey (state.storedEncrypted id) name

namespace StoredAt

variable {id : Nat} {segments : List (List Char)}

theorem root : state.StoredAt nameKey 0 [] := ⟨[], .here, rfl⟩

theorem of_get (nameKey : Option PathNameKey)
    (wellFormed : state.tree.WellFormed) {dir : Directory}
    (found : state.tree.dirs.get? id = some dir) :
    ∃ segments, state.StoredAt nameKey id segments := by
  obtain ⟨steps, trail⟩ := wellFormed.hangs id dir found
  exact ⟨_, steps, trail, rfl⟩

theorem found (wellFormed : state.tree.WellFormed)
    (stored : state.StoredAt nameKey id segments) :
    ∃ dir, state.tree.dirs.get? id = some dir := by
  obtain ⟨steps, trail, _⟩ := stored
  cases trail with
  | here =>
      obtain ⟨dir, found, _⟩ := wellFormed.root
      exact ⟨dir, found⟩
  | step earlier above =>
      obtain ⟨dir, found, _⟩ := DirectoryTree.up_eq_some above
      exact ⟨dir, found⟩

theorem child {parent : Nat} {dir : Directory}
    (stored : state.StoredAt nameKey parent segments)
    (found : state.tree.dirs.get? id = some dir)
    (isParent : dir.parent = some parent) :
    state.StoredAt nameKey id (segments ++
      [storedForm nameKey (state.storedEncrypted id) dir.name]) := by
  obtain ⟨steps, trail, rfl⟩ := stored
  refine ⟨_, .step trail (DirectoryTree.up_of_get found isParent), ?_⟩
  simp [segmentsOf]

theorem unique (wellFormed : state.tree.WellFormed)
    {others : List (List Char)}
    (stored : state.StoredAt nameKey id segments)
    (again : state.StoredAt nameKey id others) : segments = others := by
  obtain ⟨steps, trail, rfl⟩ := stored
  obtain ⟨more, other, rfl⟩ := again
  rw [trail.unique wellFormed.up_root other]

/-- Behind the root the last segment is the stored name of the directory. -/
theorem parent (wellFormed : state.tree.WellFormed)
    (stored : state.StoredAt nameKey id segments) {parent : Nat}
    {dir : Directory} (found : state.tree.dirs.get? id = some dir)
    (isParent : dir.parent = some parent) :
    ∃ above, state.StoredAt nameKey parent above ∧ segments = above ++
      [storedForm nameKey (state.storedEncrypted id) dir.name] := by
  obtain ⟨aboveDir, foundAbove, _⟩ :=
    wellFormed.listed id dir parent found isParent
  obtain ⟨above, storedAbove⟩ := of_get nameKey wellFormed
    foundAbove
  exact ⟨above, storedAbove,
    stored.unique wellFormed (storedAbove.child found isParent)⟩

theorem named (wellFormed : state.tree.WellFormed)
    (stored : state.StoredAt nameKey id segments) : Named segments := by
  obtain ⟨steps, trail, rfl⟩ := stored
  intro segment member
  obtain ⟨step, inside, rfl⟩ := List.mem_map.mp member
  have valid := wellFormed.valid_names trail step inside
  exact ⟨storedForm_ne_nil valid, storedForm_free (free_of_valid valid)⟩

theorem of_prefix (stored : state.StoredAt nameKey id segments)
    {before : List (List Char)} (begins : before <+: segments) :
    ∃ above, state.StoredAt nameKey above before := by
  obtain ⟨steps, trail, rfl⟩ := stored
  obtain ⟨start, startsSteps, same⟩ := List.prefix_map_iff.mp begins
  obtain ⟨above, trailAbove⟩ := trail.of_prefix startsSteps
  exact ⟨above, start, trailAbove, same⟩

/-- The segments decode to the names of a walk down to the directory. -/
theorem walk (wellFormed : state.tree.WellFormed)
    (legible : state.Legible nameKey)
    (stored : state.StoredAt nameKey id segments) :
    state.tree.walk 0 (segments.map (decodeSegment nameKey)) = some id := by
  obtain ⟨steps, trail, rfl⟩ := stored
  have decoded : (state.segmentsOf nameKey steps).map
      (decodeSegment nameKey) = steps.map Prod.snd := by
    rw [segmentsOf, List.map_map]
    apply List.map_congr_left
    intro step member
    obtain ⟨parent, above⟩ := trail.up_of_mem member
    exact legible step.1 parent step.2 above
  rw [decoded, wellFormed.walk_trail trail]

theorem valid (wellFormed : state.tree.WellFormed)
    (legible : state.Legible nameKey)
    (stored : state.StoredAt nameKey id segments) :
    ∀ segment ∈ segments, validName (decodeSegment nameKey segment) := by
  obtain ⟨steps, trail, rfl⟩ := stored
  intro segment member
  obtain ⟨step, inside, rfl⟩ := List.mem_map.mp member
  obtain ⟨parent, above⟩ := trail.up_of_mem inside
  rw [legible step.1 parent step.2 above]
  exact wellFormed.valid_names trail step inside

/-- Whatever a walk from the root reaches is stored under its names. -/
theorem of_walk (wellFormed : state.tree.WellFormed)
    (legible : state.Legible nameKey) {names : List Name}
    (walks : state.tree.walk 0 names = some id) :
    ∃ segments, state.StoredAt nameKey id segments ∧
      segments.map (decodeSegment nameKey) = names := by
  induction names using List.reverseRecOn generalizing id with
  | nil =>
      cases walks
      exact ⟨[], root, rfl⟩
  | append_singleton names name ih =>
      rw [DirectoryTree.walk_append] at walks
      obtain ⟨parent, before, last⟩ := Option.bind_eq_some_iff.mp walks
      obtain ⟨above, stored, decoded⟩ := ih before
      rw [DirectoryTree.walk] at last
      cases found : state.tree.dirs.get? parent with
      | none =>
          rw [found] at last
          cases last
      | some dir =>
          rw [found] at last
          dsimp only at last
          cases heads : state.tree.findDirs dir name with
          | nil =>
              rw [heads] at last
              cases last
          | cons child rest =>
              rw [heads] at last
              cases last
              have member : id ∈ state.tree.findDirs dir name := by
                rw [heads]
                exact List.mem_cons_self
              obtain ⟨listed, isName⟩ := List.mem_filter.mp member
              obtain ⟨below, foundBelow, isParent⟩ :=
                wellFormed.children parent dir id found listed
              rw [foundBelow, Option.map_some] at isName
              have same : below.name = name := by simpa using isName
              refine ⟨_, stored.child foundBelow isParent, ?_⟩
              rw [List.map_append, decoded, List.map_singleton,
                legible id parent below.name
                  (DirectoryTree.up_of_get foundBelow isParent), same]

theorem injective (wellFormed : state.tree.WellFormed)
    (legible : state.Legible nameKey) {other : Nat}
    (stored : state.StoredAt nameKey id segments)
    (again : state.StoredAt nameKey other segments) : id = other := by
  have first := stored.walk wellFormed legible
  rw [again.walk wellFormed legible] at first
  exact (Option.some.inj first).symm

end StoredAt

theorem githubPath_eq (wellFormed : state.tree.WellFormed) {id : Nat}
    {segments : List (List Char)}
    (stored : state.StoredAt nameKey id segments) :
    state.githubPath nameKey id = ['/'].intercalate segments := by
  obtain ⟨steps, trail, rfl⟩ := stored
  suffices within : ∀ fuel, steps.length < fuel →
      state.githubPathWithin nameKey fuel id =
        ['/'].intercalate (state.segmentsOf nameKey steps) from
    within _ (wellFormed.trail_length trail)
  induction trail with
  | here =>
      intro fuel enough
      obtain ⟨dir, found, isRoot⟩ := wellFormed.root
      cases fuel with
      | zero => rfl
      | succ fuel =>
          simp only [githubPathWithin, found, isRoot]
          rfl
  | @step steps parent child label earlier above induction =>
      intro fuel enough
      rw [List.length_append, List.length_singleton] at enough
      obtain ⟨rest, rfl⟩ : ∃ rest, fuel = rest + 1 := ⟨fuel - 1, by omega⟩
      obtain ⟨dir, found, isParent, rfl⟩ := DirectoryTree.up_eq_some above
      have valid := wellFormed.named child dir parent found isParent
      have before : StoredAt nameKey state parent
          (state.segmentsOf nameKey steps) := ⟨steps, earlier, rfl⟩
      simp only [githubPathWithin, found, isParent]
      rw [induction rest (by omega), joinPath_append
        (before.named wellFormed) (storedForm_named valid)]
      simp [segmentsOf]

end GithubTree

section Loaded

variable {nameKey : Option PathNameKey} {segments : List (List Char)}

theorem decodedPath_intercalate (named : Named segments) :
    decodedPath (nameCipher nameKey) (['/'].intercalate segments) =
      segments.map (decodeSegment nameKey) := by
  induction segments using List.reverseRecOn with
  | nil => exact decodedPath_root _
  | append_singleton segments last ih =>
      obtain ⟨filled, free⟩ := named last (by simp)
      have before := ih (named.of_prefix (List.prefix_append ..))
      rw [decodedPath_child _ (intercalate_snoc_ne_nil filled),
        parentPath_snoc free, lastSegment_snoc free, before, List.map_append]
      rfl

theorem validPath_intercalate (named : Named segments)
    (valid : ∀ segment ∈ segments, validName (decodeSegment nameKey segment)) :
    ValidPath (nameCipher nameKey) (['/'].intercalate segments) := by
  induction segments using List.reverseRecOn with
  | nil => exact .root
  | append_singleton segments last ih =>
      obtain ⟨filled, free⟩ := named last (by simp)
      refine .child (intercalate_snoc_ne_nil filled) ?_ ?_
      · rw [parentPath_snoc free]
        apply ih (named.of_prefix (List.prefix_append ..))
        intro segment member
        exact valid segment (List.mem_append_left _ member)
      · rw [lastSegment_snoc free]
        exact valid last (by simp)

theorem ancestor_intercalate {path : StoragePath} (named : Named segments) :
    Ancestor path (['/'].intercalate segments) ↔
      ∃ before, before <+: segments ∧ path = ['/'].intercalate before := by
  induction segments using List.reverseRecOn with
  | nil =>
      constructor
      · intro ancestor
        have short := ancestor.length_le
        have empty : path = [] :=
          List.length_eq_zero_iff.mp (by simpa using short)
        exact ⟨[], List.prefix_rfl, empty⟩
      · rintro ⟨before, begins, rfl⟩
        rw [List.prefix_nil.mp begins]
        exact .self
  | append_singleton segments last ih =>
      obtain ⟨filled, free⟩ := named last (by simp)
      have above := ih (named.of_prefix (List.prefix_append ..))
      rw [ancestor_iff (intercalate_snoc_ne_nil filled), parentPath_snoc free,
        above]
      constructor
      · rintro (rfl | ⟨before, begins, rfl⟩)
        · exact ⟨_, List.prefix_rfl, rfl⟩
        · exact ⟨before, begins.trans (List.prefix_append ..), rfl⟩
      · rintro ⟨before, begins, rfl⟩
        rcases List.prefix_concat_iff.mp begins with rfl | shorter
        · exact .inl rfl
        · exact .inr ⟨before, shorter, rfl⟩

end Loaded

end Tgdcfs
