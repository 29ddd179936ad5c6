import Mathlib.Data.List.Chain
import ScriptSemantics.Proofs.DraftedLocations

/-!
# Leaves of drafts with any children

Requests may pass any nodes as children, in any order and more than once, and between the first and
the last of them even numbers of nodes that are not there. Whatever a draft without moves was asked
for, its childless nodes fill the text one behind the other, and the ends of every other node are
those of two older leaves: the ones that its first and its last children lead to.
-/
namespace ScriptSemantics

/-- Nodes that follow one another from a byte on, as wide as they are without children and with one
byte between two of them. -/
structure InARow (start : Nat) (leaves : List Node) : Prop where
  first : ∀ leaf, leaves.head? = some leaf → leaf.location.startByte = start
  next : leaves.IsChain fun earlier later =>
    later.location.startByte = earlier.location.endByte + 1
  wide : ∀ leaf ∈ leaves, leaf.location.endByte = leaf.location.startByte + leaf.production.width

theorem inARow_of_laidOut {start : Nat} {leaves : List Node}
    (laid : leaves.map Node.location =
      laidOut start (leaves.map fun node => node.production.width)) : InARow start leaves := by
  induction leaves generalizing start with
  | nil => exact ⟨nofun, .nil, nofun⟩
  | cons leaf leaves ih =>
    obtain ⟨here, rest⟩ := List.cons.inj laid
    have row := ih rest
    have starts : leaf.location.startByte = start := congrArg Location.startByte here
    have ends : leaf.location.endByte = start + leaf.production.width :=
      congrArg Location.endByte here
    constructor
    case first =>
      rintro _ ⟨⟩
      exact starts
    case next =>
      refine List.isChain_cons.mpr ⟨fun later isNext => ?_, row.next⟩
      rw [row.first later isNext, ends]
    case wide =>
      intro other member
      rcases List.mem_cons.mp member with rfl | later
      · rw [ends, starts]
      · exact row.wide other later

namespace SyntaxTree

variable {tree : SyntaxTree} {pick : List NodeId → Option NodeId} {id : NodeId} {node : Node}

/-- The nodes without children, in the order of their numbers. -/
def childless (tree : SyntaxTree) : List Node :=
  tree.nodes.toList.filter fun node => node.children.isEmpty

/-- A node starts where the only leaf starts that first children lead to from it, and ends where the
only one ends that last children lead to, and these two are older. -/
def ReachesByLeaves (tree : SyntaxTree) (id : NodeId) (node : Node) : Prop :=
  ∃ first last, (∀ leaf, tree.FirstLeaf id leaf ↔ leaf = first) ∧
    (∀ leaf, tree.LastLeaf id leaf ↔ leaf = last) ∧
    first.index < id.index ∧ last.index < id.index ∧
    node.location = (tree.locationAt first).merge (tree.locationAt last)

/-- The childless nodes lie in a row from the beginning, and all others reach from leaf to leaf. -/
structure LaidByLeaves (tree : SyntaxTree) : Prop where
  row : InARow 0 tree.childless
  reach : ∀ id node, tree.node? id = some node → node.children ≠ [] → tree.ReachesByLeaves id node

theorem LeadsTo.unique (none : pick [] = none) {leaf other : NodeId}
    (leads : tree.LeadsTo pick id leaf) (also : tree.LeadsTo pick id other) : leaf = other := by
  induction leads with
  | leaf found childless => exact (also.eq_of_childless none found childless).symm
  | child found picked _ ih =>
    cases also with
    | leaf foundToo childless =>
      cases found.symm.trans foundToo
      rw [childless, none] at picked
      cases picked
    | child foundToo pickedToo rest =>
      cases found.symm.trans foundToo
      cases picked.symm.trans pickedToo
      exact ih rest

/-- From a node with children there is one leaf that picked children lead to, and it is older. -/
theorem exists_leaf_iff (none : pick [] = none)
    (picks : ∀ children, children ≠ [] → ∃ child, pick children = some child)
    (older : ∀ id node child, tree.node? id = some node → pick node.children = some child →
      child.index < id.index) (found : tree.node? id = some node) (parent : node.children ≠ []) :
    ∃ leaf, (∀ other, tree.LeadsTo pick id other ↔ other = leaf) ∧ leaf.index < id.index := by
  have inside := (node?_isSome_iff tree id).mp (by simp [found])
  obtain ⟨leaf, leads⟩ := exists_leaf older picks inside
  refine ⟨leaf, fun other => ⟨fun also => also.unique none leads, ?_⟩,
    leads.leaf_lt older found parent⟩
  rintro rfl
  exact leads

/-- Where nodes reach over their children they reach from leaf to leaf. -/
theorem SpansEnds.reach (ends : tree.SpansEnds) (found : tree.node? id = some node)
    (parent : node.children ≠ []) : tree.ReachesByLeaves id node := by
  obtain ⟨first, isFirst, firstOlder⟩ :=
    exists_leaf_iff rfl head?_picks ends.first_older found parent
  obtain ⟨last, isLast, lastOlder⟩ :=
    exists_leaf_iff rfl getLast?_picks ends.last_older found parent
  have starts := ((isFirst first).mpr rfl).start_eq ends
  have stops := ((isLast last).mpr rfl).end_eq ends
  rw [locationAt_eq found] at starts stops
  exact ⟨first, last, isFirst, isLast, firstOlder, lastOlder, congrArg₂ Location.mk starts stops⟩

end SyntaxTree

namespace TreeDraft

theorem Spanned.laidByLeaves {draft : TreeDraft} (spanned : draft.Spanned) (root : NodeId) :
    SyntaxTree.LaidByLeaves ⟨draft.nodes, root⟩ where
  row := inARow_of_laidOut spanned.leaves
  reach _ _ found parent := (spanned.spansEnds root).reach found parent

/-- Requests that move nothing lay out a draft by its leaves, whatever they pass as children: the
draft that they leave if none of them faults, and the tree that it is ended with. -/
theorem drafted_by_leaves {steps : List DraftStep}
    (unmoved : ∀ step ∈ steps, step.moves = false) :
    (∀ answers draft, (runAll steps).run empty = .ok (answers, draft) →
      ∀ root, SyntaxTree.LaidByLeaves ⟨draft.nodes, root⟩) ∧
    ∀ items tree, TreeDraft.tree steps items = .ok tree → tree.LaidByLeaves := by
  constructor
  · intro answers draft ran root
    exact (Spanned.runAll unmoved ran).laidByLeaves root
  · intro items tree finished
    obtain ⟨⟨answers, draft⟩, ran, ended⟩ := bind_eq_ok_iff.mp finished
    obtain ⟨after, added, rfl⟩ := finish_eq_ok_iff.mp ended
    exact ((Spanned.runAll unmoved ran).add added).laidByLeaves _

/-- A block that was passed the second leaf first and the first one last, with a node in between
that is not there. -/
def turnedSteps : List DraftStep :=
  [.literal "é", .identifier "x", .block [⟨1⟩, ⟨9⟩, ⟨0⟩], .block [], .classDeclaration "A" none [],
    .expression ⟨2⟩]

/-- It starts where the second leaf starts and ends where the first one ends, as does the expression
around it. -/
theorem drafted_by_leaves_turned :
    (∀ step ∈ turnedSteps, step.moves = false) ∧
      ∃ tree, TreeDraft.tree turnedSteps [⟨4⟩, ⟨5⟩] = .ok tree ∧ tree.LaidByLeaves ∧
        tree.childless.map Node.location = [⟨0, 2⟩, ⟨3, 4⟩, ⟨5, 7⟩, ⟨8, 9⟩] ∧
        tree.locationAt ⟨5⟩ = ⟨3, 2⟩ ∧ tree.locationAt tree.root = ⟨8, 2⟩ := by
  have unmoved : ∀ step ∈ turnedSteps, step.moves = false := by decide
  have drafted : (fun tree => (tree.childless.map Node.location, tree.locationAt ⟨5⟩,
      tree.locationAt tree.root)) <$> TreeDraft.tree turnedSteps [⟨4⟩, ⟨5⟩] =
        .ok ([⟨0, 2⟩, ⟨3, 4⟩, ⟨5, 7⟩, ⟨8, 9⟩], ⟨3, 2⟩, ⟨8, 2⟩) := rfl
  obtain ⟨tree, finished, same⟩ := map_eq_ok_iff.mp drafted
  simp only [Prod.mk.injEq] at same
  exact ⟨unmoved, tree, finished, (drafted_by_leaves unmoved).2 _ tree finished, same⟩

end TreeDraft

end ScriptSemantics
