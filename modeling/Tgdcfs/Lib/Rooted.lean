import Mathlib.Data.List.Nodup
import Mathlib.Data.List.Infix
import Mathlib.Data.List.Perm.Subperm

/-!
# Rooted trees of parent pointers

A tree is given by a root and a map that sends a node to its parent and the
label it carries below that parent.  A trail lists the nodes from the root
down to a node.  Nodes without a trail do not hang on the root, so that the
trails rule out cycles.
-/

namespace Tgdcfs.Lib

universe u v

variable {ι : Type u} {ℓ : Type v}

/-- The nodes below the root on the way to a node, each with its label. -/
inductive Trail (up : ι → Option (ι × ℓ)) (root : ι) :
    List (ι × ℓ) → ι → Prop where
  | here : Trail up root [] root
  | step {steps : List (ι × ℓ)} {parent child : ι} {label : ℓ} :
      Trail up root steps parent → up child = some (parent, label) →
        Trail up root (steps ++ [(child, label)]) child

namespace Trail

variable {up other : ι → Option (ι × ℓ)} {root : ι} {steps : List (ι × ℓ)}
  {node : ι}

theorem unique (rooted : up root = none) {more : List (ι × ℓ)}
    (first : Trail up root steps node) (second : Trail up root more node) :
    steps = more := by
  induction first generalizing more with
  | here =>
      cases second with
      | here => rfl
      | step _ above =>
          rw [rooted] at above
          cases above
  | step _ above induction =>
      cases second with
      | here =>
          rw [rooted] at above
          cases above
      | step earlier again =>
          rw [above] at again
          cases again
          rw [induction earlier]

theorem of_mem (trail : Trail up root steps node) {item : ι × ℓ}
    (member : item ∈ steps) :
    ∃ before, Trail up root before item.1 ∧ before <+: steps ∧
      before ≠ [] := by
  induction trail with
  | here => cases member
  | step earlier above induction =>
      rcases List.mem_append.mp member with inside | last
      · obtain ⟨before, found, start, proper⟩ := induction inside
        exact ⟨before, found, start.trans (List.prefix_append _ _), proper⟩
      · rw [List.mem_singleton.mp last]
        exact ⟨_, .step earlier above, List.prefix_rfl, by simp⟩

theorem up_of_mem (trail : Trail up root steps node) {item : ι × ℓ}
    (member : item ∈ steps) :
    ∃ parent, up item.1 = some (parent, item.2) := by
  induction trail with
  | here => cases member
  | step earlier above induction =>
      rcases List.mem_append.mp member with inside | last
      · exact induction inside
      · rw [List.mem_singleton.mp last]
        exact ⟨_, above⟩

theorem of_prefix (trail : Trail up root steps node) {before : List (ι × ℓ)}
    (begins : before <+: steps) : ∃ above, Trail up root before above := by
  induction trail with
  | here =>
      rw [List.prefix_nil.mp begins]
      exact ⟨root, .here⟩
  | step earlier above induction =>
      rcases List.prefix_concat_iff.mp begins with rfl | shorter
      · exact ⟨_, .step earlier above⟩
      · exact induction shorter

theorem root_not_mem (rooted : up root = none)
    (trail : Trail up root steps node) : root ∉ steps.map Prod.fst := by
  induction trail with
  | here => simp
  | step earlier above induction =>
      intro member
      rw [List.map_append, List.mem_append] at member
      rcases member with inside | last
      · exact induction inside
      · have isRoot : root = _ := List.mem_singleton.mp last
        subst isRoot
        rw [rooted] at above
        cases above

theorem nodup (rooted : up root = none)
    (trail : Trail up root steps node) : (steps.map Prod.fst).Nodup := by
  induction trail with
  | here => simp
  | @step steps parent child label earlier above induction =>
      rw [List.map_append, List.map_singleton, List.nodup_append]
      refine ⟨induction, by simp, ?_⟩
      intro earlierNode inside last isLast same
      rw [List.mem_singleton] at isLast
      subst isLast
      subst same
      obtain ⟨item, member, named⟩ := List.mem_map.mp inside
      obtain ⟨before, found, start, _⟩ := earlier.of_mem member
      rw [named] at found
      have whole := unique rooted found (.step earlier above)
      have shorter := start.length_le
      rw [whole, List.length_append, List.length_singleton] at shorter
      exact absurd shorter (Nat.not_succ_le_self _)

theorem congr (trail : Trail up root steps node)
    (same : ∀ item ∈ steps, other item.1 = up item.1) :
    Trail other root steps node := by
  induction trail with
  | here => exact .here
  | step earlier above induction =>
      refine .step (induction fun item member =>
        same item (List.mem_append_left _ member)) ?_
      rw [same _ (List.mem_append_right _ List.mem_cons_self)]
      exact above

/-- The trail of a node that is not the root ends with that node. -/
theorem last_mem (trail : Trail up root steps node) (below : node ≠ root) :
    node ∈ steps.map Prod.fst := by
  cases trail with
  | here => exact (below rfl).elim
  | step _ _ => simp

theorem of_snoc {item : ι × ℓ} (trail : Trail up root (steps ++ [item]) node) :
    node = item.1 ∧ ∃ parent, Trail up root steps parent ∧
      up item.1 = some (parent, item.2) := by
  generalize whole : steps ++ [item] = all at trail
  cases trail with
  | here => simp at whole
  | step earlier above =>
      obtain ⟨rfl, rfl⟩ := List.append_singleton_inj.mp whole
      exact ⟨rfl, _, earlier, above⟩

theorem of_nil (trail : Trail up root [] node) : node = root := by
  generalize whole : [] = all at trail
  cases trail with
  | here => rfl
  | step earlier above => simp at whole

theorem end_unique {last : ι} (first : Trail up root steps node)
    (second : Trail up root steps last) : node = last := by
  cases steps using List.reverseRecOn with
  | nil => rw [first.of_nil, second.of_nil]
  | append_singleton steps item =>
      rw [first.of_snoc.1, second.of_snoc.1]

/-- The trails through `moved` begin with its new trail once it hangs
somewhere else. -/
theorem rehung {moved : ι} {above more : List (ι × ℓ)}
    (elsewhere : ∀ item, item ≠ moved → other item = up item)
    (through : Trail up root steps moved)
    (hung : Trail other root above moved)
    (trail : Trail up root (steps ++ more) node)
    (apart : moved ∉ more.map Prod.fst) :
    Trail other root (above ++ more) node := by
  induction more using List.reverseRecOn generalizing node with
  | nil =>
      rw [List.append_nil] at trail ⊢
      rw [trail.end_unique through]
      exact hung
  | append_singleton more item induction =>
      rw [List.map_append, List.mem_append, not_or] at apart
      rw [← List.append_assoc] at trail ⊢
      obtain ⟨rfl, parent, earlier, place⟩ := trail.of_snoc
      refine .step (induction earlier apart.1) ?_
      rw [elsewhere item.1 fun same => apart.2 (by simp [same])]
      exact place

/-- Hanging `moved` somewhere else moves the trails through it along. -/
theorem relink {moved parent : ι} {label : ℓ} {above : List (ι × ℓ)}
    (elsewhere : ∀ item, item ≠ moved → other item = up item)
    (hung : other moved = some (parent, label))
    (start : Trail other root above parent)
    (trail : Trail up root steps node) :
    ∃ more, Trail other root more node := by
  induction trail with
  | here => exact ⟨[], .here⟩
  | @step steps parent child label earlier place induction =>
      obtain ⟨more, found⟩ := induction
      by_cases same : child = moved
      · subst same
        exact ⟨_, .step start hung⟩
      · have kept : other child = some (parent, label) :=
          (elsewhere child same).trans place
        exact ⟨_, .step found kept⟩

theorem length_lt (rooted : up root = none)
    (trail : Trail up root steps node) {nodes : List ι}
    (known : ∀ item ∈ root :: steps.map Prod.fst, item ∈ nodes) :
    steps.length < nodes.length := by
  have distinct : (root :: steps.map Prod.fst).Nodup :=
    List.nodup_cons.mpr ⟨trail.root_not_mem rooted, trail.nodup rooted⟩
  have bound := (List.subperm_of_subset distinct known).length_le
  rw [List.length_cons, List.length_map] at bound
  exact bound

end Trail

end Tgdcfs.Lib
