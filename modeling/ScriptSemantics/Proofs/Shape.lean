import Mathlib.Data.List.Perm.Subperm
import ScriptSemantics.Proofs.Validity

/-!
# The shape of a well-formed tree

Every node has at most one parent and the root has none, so each node that the root reaches is a
fixed number of links below it. That number stays under the size of the tree, which is why a walk
with a depth bound above the size never meets the bound. Nodes that the root does not reach may
still form circles; they are never looked at.
-/
namespace ScriptSemantics.SyntaxTree

variable {tree : SyntaxTree}

def locationAt (tree : SyntaxTree) (id : NodeId) : Location :=
  ((tree.node? id).map Node.location).getD .origin

theorem locationAt_eq {id : NodeId} {node : Node} (found : tree.node? id = some node) :
    tree.locationAt id = node.location := by
  simp [locationAt, found]

/-- A node lies a number of links below another. -/
inductive Below (tree : SyntaxTree) (top : NodeId) : Nat → NodeId → Prop
  | refl : Below tree top 0 top
  | step {distance : Nat} {parent child : NodeId} :
      Below tree top distance parent → tree.HasChild parent child →
        Below tree top (distance + 1) child

/-- A node is another one or lies below it. -/
def Within (tree : SyntaxTree) (top node : NodeId) : Prop := ∃ distance, tree.Below top distance node

/-- A node is the root or lies below it. -/
def Reachable (tree : SyntaxTree) (node : NodeId) : Prop := tree.Within tree.root node

theorem Within.refl (top : NodeId) : tree.Within top top := ⟨0, .refl⟩

theorem Below.trans {a b c : NodeId} {j k : Nat} (first : tree.Below a j b)
    (second : tree.Below b k c) : tree.Below a (j + k) c := by
  induction second with
  | refl => exact first
  | step _ link ih => exact .step ih link

theorem Within.trans {a b c : NodeId} (first : tree.Within a b) (second : tree.Within b c) :
    tree.Within a c := by
  obtain ⟨j, first⟩ := first
  obtain ⟨k, second⟩ := second
  exact ⟨j + k, first.trans second⟩

theorem HasChild.within {parent child : NodeId} (link : tree.HasChild parent child) :
    tree.Within parent child := ⟨1, .step .refl link⟩

/-- A path downwards is a first link and the rest of the path. -/
theorem Below.first_link {top node : NodeId} {distance : Nat}
    (path : tree.Below top (distance + 1) node) :
    ∃ child, tree.HasChild top child ∧ tree.Below child distance node := by
  generalize total : distance + 1 = length at path
  induction path generalizing distance with
  | refl => omega
  | @step shorter parent child before link ih =>
    obtain rfl : distance = shorter := by omega
    cases distance with
    | zero =>
      cases before
      exact ⟨child, link, .refl⟩
    | succ distance =>
      obtain ⟨first, firstLink, rest⟩ := ih rfl
      exact ⟨first, firstLink, .step rest link⟩

/-- A node within another is that node or within one of its children. -/
theorem within_iff {top node : NodeId} : tree.Within top node ↔
    node = top ∨ ∃ child, tree.HasChild top child ∧ tree.Within child node := by
  constructor
  · rintro ⟨distance, path⟩
    cases distance with
    | zero =>
      cases path
      exact .inl rfl
    | succ distance =>
      obtain ⟨child, link, rest⟩ := path.first_link
      exact .inr ⟨child, link, distance, rest⟩
  · rintro (rfl | ⟨child, link, rest⟩)
    · exact .refl _
    · exact link.within.trans rest

theorem Reachable.root : tree.Reachable tree.root := .refl _

theorem Reachable.within {top node : NodeId} (reached : tree.Reachable top)
    (path : tree.Within top node) : tree.Reachable node := Within.trans reached path

theorem Reachable.child {parent child : NodeId} (reached : tree.Reachable parent)
    (link : tree.HasChild parent child) : tree.Reachable child := reached.within link.within

namespace WellFormed

variable (formed : tree.WellFormed)
include formed

theorem child_node {parent child : NodeId} (link : tree.HasChild parent child) :
    ∃ node, tree.node? child = some node := by
  obtain ⟨found, member, -, rfl⟩ := hasChild_iff_link.mp link
  exact Option.isSome_iff_exists.mp (formed.child_exists found member)

theorem parent_unique {first second child : NodeId} (left : tree.HasChild first child)
    (right : tree.HasChild second child) : first = second := by
  obtain ⟨left, leftMember, rfl, rfl⟩ := hasChild_iff_link.mp left
  obtain ⟨right, rightMember, rfl, same⟩ := hasChild_iff_link.mp right
  rw [List.inj_on_of_nodup_map formed.child_once leftMember rightMember same.symm]

theorem not_hasChild_root (parent : NodeId) : ¬ tree.HasChild parent tree.root := by
  intro link
  obtain ⟨link, member, -, isRoot⟩ := hasChild_iff_link.mp link
  exact formed.root_free link member isRoot

theorem children_nodup {id : NodeId} {node : Node} (found : tree.node? id = some node) :
    node.children.Nodup := by
  have once := formed.child_once
  rw [links, List.map_flatMap, List.nodup_flatMap] at once
  have member : (node, id.index) ∈ tree.nodes.toList.zipIdx := by
    rw [List.mem_zipIdx_iff_getElem?, Array.getElem?_toList]
    exact found
  simpa [Node.linksFrom, Function.comp_def] using once.1 _ member

theorem child_admitted {id child : NodeId} {node : Node} (found : tree.node? id = some node)
    (member : child ∈ node.children) :
    ∃ childNode, tree.node? child = some childNode ∧
      ∀ slot, node.production.slotOf? child = some slot → slot.admits childNode.kind := by
  obtain ⟨childNode, childFound⟩ := formed.child_node ⟨node, found, member⟩
  refine ⟨childNode, childFound, fun slot isSlot => ?_⟩
  have fits := formed.slot_fits ⟨id, node.production, child⟩
    (mem_links.mpr ⟨node, found, rfl, member⟩) childNode childFound
  simpa [Link.brokenSlot?, isSlot, Option.filter_eq_none_iff] using fits

theorem top_unique {first second node : NodeId} {distance : Nat}
    (left : tree.Below first distance node) (right : tree.Below second distance node) :
    first = second := by
  induction left with
  | refl =>
    cases right
    rfl
  | step _ link ih =>
    cases right with
    | step rightPath rightLink =>
      rw [formed.parent_unique rightLink link] at rightPath
      exact ih rightPath

/-- A node is reached from the root by paths of one length. -/
theorem depth_unique {node : NodeId} {j k : Nat} (left : tree.Below tree.root j node)
    (right : tree.Below tree.root k node) : j = k := by
  induction left generalizing k with
  | refl =>
    cases right with
    | refl => rfl
    | step _ link => exact absurd link (formed.not_hasChild_root _)
  | step _ link ih =>
    cases right with
    | refl => exact absurd link (formed.not_hasChild_root _)
    | step rightPath rightLink =>
      rw [formed.parent_unique rightLink link] at rightPath
      rw [ih rightPath]

theorem reachable_node {node : NodeId} (reached : tree.Reachable node) :
    ∃ found, tree.node? node = some found := by
  obtain ⟨distance, path⟩ := reached
  cases path with
  | refl => exact Option.isSome_iff_exists.mp formed.root_exists
  | step _ link => exact formed.child_node link

/-- The nodes on the path to a node are distinct, and as many as its depth and one. -/
theorem exists_path {node : NodeId} {depth : Nat} (path : tree.Below tree.root depth node) :
    ∃ visited : List NodeId, visited.length = depth + 1 ∧ visited.Nodup ∧
      ∀ id ∈ visited, ∃ j ≤ depth, tree.Below tree.root j id := by
  induction path with
  | refl => exact ⟨[tree.root], rfl, by simp, by simpa using Below.refl⟩
  | @step depth parent child before link ih =>
    obtain ⟨visited, length, nodup, above⟩ := ih
    refine ⟨child :: visited, by simp [length], List.nodup_cons.mpr ⟨fun member => ?_, nodup⟩, ?_⟩
    · obtain ⟨j, short, toChild⟩ := above child member
      have := formed.depth_unique toChild (.step before link)
      omega
    · intro id member
      rcases List.mem_cons.mp member with rfl | member
      · exact ⟨depth + 1, Nat.le_refl _, .step before link⟩
      · obtain ⟨j, short, toId⟩ := above id member
        exact ⟨j, by omega, toId⟩

theorem depth_lt_size {node : NodeId} {depth : Nat} (path : tree.Below tree.root depth node) :
    depth < tree.size := by
  obtain ⟨visited, length, nodup, above⟩ := formed.exists_path path
  have indices : (visited.map NodeId.index).Nodup :=
    nodup.map fun a b same => by cases a; cases b; simp_all
  have bounded : visited.map NodeId.index ⊆ List.range tree.size := by
    intro index member
    obtain ⟨id, visitedId, rfl⟩ := List.mem_map.mp member
    obtain ⟨j, -, toId⟩ := above id visitedId
    obtain ⟨node, found⟩ := formed.reachable_node ⟨j, toId⟩
    simpa using (node?_isSome_iff tree id).mp (by simp [found])
  have := (List.subperm_of_subset indices bounded).length_le
  simp only [List.length_map, List.length_range] at this
  omega

/-- What holds of a node whenever it holds of its children holds of every node that the root
reaches. -/
theorem reachable_induction {motive : NodeId → Prop}
    (step : ∀ id node, tree.Reachable id → tree.node? id = some node →
      (∀ child ∈ node.children, motive child) → motive id)
    {id : NodeId} (reached : tree.Reachable id) : motive id := by
  obtain ⟨depth, path⟩ := reached
  induction room : tree.size - depth generalizing depth id with
  | zero =>
    have := formed.depth_lt_size path
    omega
  | succ room ih =>
    obtain ⟨node, found⟩ := formed.reachable_node ⟨depth, path⟩
    refine step id node ⟨depth, path⟩ found fun child member => ?_
    exact ih (depth + 1) (.step path ⟨node, found, member⟩) (by omega)

/-- Nodes at one depth that share a node below them are the same. -/
theorem within_unique {first second node : NodeId} {depth : Nat}
    (left : tree.Below tree.root depth first) (right : tree.Below tree.root depth second)
    (below : tree.Within first node) (alsoBelow : tree.Within second node) : first = second := by
  obtain ⟨j, below⟩ := below
  obtain ⟨k, alsoBelow⟩ := alsoBelow
  have := formed.depth_unique (left.trans below) (right.trans alsoBelow)
  obtain rfl : j = k := by omega
  exact formed.top_unique below alsoBelow

/-- The subtrees of two children of one node have no node in common. -/
theorem siblings_disjoint {parent first second node : NodeId} (reached : tree.Reachable parent)
    (left : tree.HasChild parent first) (right : tree.HasChild parent second)
    (below : tree.Within first node) (alsoBelow : tree.Within second node) : first = second := by
  obtain ⟨depth, path⟩ := reached
  exact formed.within_unique (.step path left) (.step path right) below alsoBelow

theorem not_within_parent {parent child : NodeId} (reached : tree.Reachable parent)
    (link : tree.HasChild parent child) : ¬ tree.Within child parent := by
  rintro ⟨k, back⟩
  obtain ⟨depth, path⟩ := reached
  have := formed.depth_unique path ((Below.step path link).trans back)
  omega

theorem within_antisymm {first second : NodeId} (reached : tree.Reachable first)
    (left : tree.Within first second) (right : tree.Within second first) : first = second := by
  rcases within_iff.mp left with same | ⟨child, link, path⟩
  · exact same.symm
  · exact (formed.not_within_parent reached link (path.trans right)).elim

end WellFormed

end ScriptSemantics.SyntaxTree
