import ScriptSemantics.Proofs.Drafts

/-!
# Drafted locations

Without moves, the childless nodes of a draft lie one behind the other in the order in which they
were added, with one byte between them. A node with children reaches from the start of its first
child to the end of its last, and so from the start of its first leaf to the end of its last leaf,
wherever the leaves in between may lie.
-/
namespace ScriptSemantics

/-- Ranges of the given widths from a byte on, with one byte between two of them. -/
def laidOut : Nat → List Nat → List Location
  | _, [] => []
  | start, width :: widths => ⟨start, start + width⟩ :: laidOut (start + width + 1) widths

/-- How many bytes such ranges take, each with the byte behind it. -/
def laidWidth : List Nat → Nat
  | [] => 0
  | width :: widths => width + 1 + laidWidth widths

theorem laidWidth_append (first second : List Nat) :
    laidWidth (first ++ second) = laidWidth first + laidWidth second := by
  induction first with
  | nil => exact (Nat.zero_add _).symm
  | cons width widths ih => simp only [List.cons_append, laidWidth, ih, Nat.add_assoc]

theorem laidOut_append (start : Nat) (first second : List Nat) :
    laidOut start (first ++ second) =
      laidOut start first ++ laidOut (start + laidWidth first) second := by
  induction first generalizing start with
  | nil => rfl
  | cons width widths ih =>
    simp only [List.cons_append, laidOut, ih, laidWidth, Nat.add_assoc]

theorem laidOut_bounds {start : Nat} {widths : List Nat} {location : Location}
    (member : location ∈ laidOut start widths) :
    start ≤ location.startByte ∧ location.startByte ≤ location.endByte := by
  induction widths generalizing start with
  | nil => cases member
  | cons width widths ih =>
    rcases List.mem_cons.mp member with rfl | later
    · exact ⟨Nat.le_refl _, Nat.le_add_right _ _⟩
    · have := ih later
      omega

theorem laidOut_pairwise (start : Nat) (widths : List Nat) :
    (laidOut start widths).Pairwise fun earlier later => earlier.endByte < later.startByte := by
  induction widths generalizing start with
  | nil => exact .nil
  | cons width widths ih =>
    refine .cons (fun later member => ?_) (ih _)
    exact Nat.lt_of_succ_le (laidOut_bounds member).1

namespace TreeDraft

/-- The nodes without children, in the order in which they were added. -/
def childless (draft : TreeDraft) : List Node :=
  draft.nodes.toList.filter fun node => node.children.isEmpty

/-- A node reaches from its first child to its last, both of which are older. -/
def Spans (draft : TreeDraft) (i : Nat) (node : Node) : Prop :=
  ∀ first last, node.children.head? = some first → node.children.getLast? = some last →
    ∃ start stop, first.index < i ∧ last.index < i ∧ draft.nodes[first.index]? = some start ∧
      draft.nodes[last.index]? = some stop ∧ node.location = start.location.merge stop.location

/-- The childless nodes lie in a row before the cursor, and the others reach over their children. -/
structure Spanned (draft : TreeDraft) : Prop where
  leaves : draft.childless.map Node.location =
    laidOut 0 (draft.childless.map fun node => node.production.width)
  cursor_eq : draft.cursor = laidWidth (draft.childless.map fun node => node.production.width)
  spans : ∀ (i : Nat) node, draft.nodes[i]? = some node → draft.Spans i node

variable {draft after : TreeDraft} {production : Production} {node : Node}

theorem childless_push_leaf {cursor : Nat} (childless : node.children = []) :
    TreeDraft.childless ⟨draft.nodes.push node, cursor⟩ = draft.childless ++ [node] := by
  simp [TreeDraft.childless, childless]

theorem childless_push_parent {cursor : Nat} (parent : node.children ≠ []) :
    TreeDraft.childless ⟨draft.nodes.push node, cursor⟩ = draft.childless := by
  simp [TreeDraft.childless, parent]

theorem Spans.push {i cursor : Nat} {new : Node} (spans : draft.Spans i node)
    (inside : i ≤ draft.nodes.size) : Spans ⟨draft.nodes.push new, cursor⟩ i node := by
  intro first last isFirst isLast
  obtain ⟨start, stop, older, alsoOlder, found, alsoFound, covers⟩ := spans first last isFirst isLast
  refine ⟨start, stop, older, alsoOlder, ?_, ?_, covers⟩
  · rw [Array.getElem?_push_lt (by omega), ← found, Array.getElem?_eq_getElem]
  · rw [Array.getElem?_push_lt (by omega), ← alsoFound, Array.getElem?_eq_getElem]

theorem Spanned.spans_push {cursor : Nat} (spanned : draft.Spanned)
    (new : draft.Spans draft.nodes.size node) (i : Nat) (other : Node)
    (found : (draft.nodes.push node)[i]? = some other) :
    Spans ⟨draft.nodes.push node, cursor⟩ i other := by
  rw [Array.getElem?_push] at found
  split at found
  case isTrue isNew =>
    cases found
    exact isNew ▸ new.push (Nat.le_refl _)
  case isFalse =>
    exact (spanned.spans i other found).push (Nat.le_of_lt (Array.getElem?_eq_some_iff.mp found).1)

theorem Spanned.empty : empty.Spanned := ⟨rfl, rfl, by simp [TreeDraft.empty]⟩

theorem Spanned.add (spanned : draft.Spanned) (added : draft.add production = .ok after) :
    after.Spanned := by
  obtain childless | ⟨first, last, isFirst, isLast⟩ := ends_cases production.children
  · rw [add_childless childless, Except.ok.injEq] at added
    subst added
    have more := @childless_push_leaf draft
      ⟨production, ⟨draft.cursor, draft.cursor + production.width⟩⟩
      (draft.cursor + production.width + 1) childless
    constructor
    case leaves =>
      rw [more, List.map_append, List.map_append, laidOut_append, ← spanned.leaves,
        ← spanned.cursor_eq, Nat.zero_add]
      rfl
    case cursor_eq =>
      rw [more, List.map_append, laidWidth_append, ← spanned.cursor_eq]
      rfl
    case spans =>
      refine spanned.spans_push fun first last isFirst => ?_
      simp [Node.children, childless] at isFirst
  · obtain ⟨start, stop, foundStart, foundStop, rfl⟩ := (add_eq_ok_iff isFirst isLast).mp added
    have same := @childless_push_parent draft
      ⟨production, start.location.merge stop.location⟩ draft.cursor fun empty => by
        cases (congrArg List.head? empty).symm.trans isFirst
    constructor
    case leaves => rw [same, spanned.leaves]
    case cursor_eq => rw [same, spanned.cursor_eq]
    case spans =>
      refine spanned.spans_push fun other otherLast isOther isOtherLast => ?_
      cases isFirst.symm.trans isOther
      cases isLast.symm.trans isOtherLast
      exact ⟨start, stop, (Array.getElem?_eq_some_iff.mp foundStart).1,
        (Array.getElem?_eq_some_iff.mp foundStop).1, foundStart, foundStop, rfl⟩

theorem Spanned.addAll {additions : List Production} (spanned : draft.Spanned)
    (added : draft.addAll additions = .ok after) : after.Spanned := by
  induction additions generalizing draft with
  | nil =>
    cases added
    exact spanned
  | cons production additions ih =>
    obtain ⟨next, first, rest⟩ := bind_eq_ok_iff.mp (addAll_cons production additions ▸ added)
    exact ih (spanned.add first) rest

theorem Spanned.runAll {steps : List DraftStep} {answers : List NodeId}
    (unmoved : ∀ step ∈ steps, step.moves = false)
    (ran : (runAll steps).run TreeDraft.empty = .ok (answers, draft)) : draft.Spanned := by
  induction steps using List.reverseRecOn generalizing answers draft with
  | nil =>
    cases ran
    exact .empty
  | append_singleton steps step ih =>
    obtain ⟨earlier, middle, id, start, last, -⟩ := runAll_snoc_eq_ok_iff.mp ran
    have spanned := ih (fun step member => unmoved step (List.mem_append_left _ member)) start
    have adds := unmoved step (List.mem_append_right _ (List.mem_singleton_self step))
    exact spanned.addAll ((DraftStep.run_eq_ok_iff adds).mp last).1

end TreeDraft

namespace SyntaxTree

variable {tree : SyntaxTree} {pick : List NodeId → Option NodeId} {id leaf : NodeId} {node : Node}

/-- A childless node is reached by always going on to the child that is picked. -/
inductive LeadsTo (tree : SyntaxTree) (pick : List NodeId → Option NodeId) :
    NodeId → NodeId → Prop
  | leaf {id : NodeId} {node : Node} (found : tree.node? id = some node)
      (childless : node.children = []) : LeadsTo tree pick id id
  | child {id child leaf : NodeId} {node : Node} (found : tree.node? id = some node)
      (picked : pick node.children = some child) (rest : LeadsTo tree pick child leaf) :
      LeadsTo tree pick id leaf

/-- The leaf that always taking the first child leads to. -/
abbrev FirstLeaf (tree : SyntaxTree) : NodeId → NodeId → Prop := tree.LeadsTo List.head?

/-- The leaf that always taking the last child leads to. -/
abbrev LastLeaf (tree : SyntaxTree) : NodeId → NodeId → Prop := tree.LeadsTo List.getLast?

/-- What locations are like in a tree that was drafted without moves. -/
structure Spanned (tree : SyntaxTree) : Prop where
  older : ∀ parent child, tree.HasChild parent child → child.index < parent.index
  leaf_forward : ∀ id node, tree.node? id = some node → node.children = [] →
    node.location.startByte ≤ node.location.endByte
  leaves_apart : ∀ i j left right, tree.node? i = some left → tree.node? j = some right →
    left.children = [] → right.children = [] → i.index < j.index →
      left.location.endByte < right.location.startByte
  spans : ∀ id node first last, tree.node? id = some node → node.children.head? = some first →
    node.children.getLast? = some last →
      node.location = (tree.locationAt first).merge (tree.locationAt last)

/-- A node with children reaches from the first of them to the last, and these two are older. What
stands in between may be anything. -/
structure SpansEnds (tree : SyntaxTree) : Prop where
  first_older : ∀ id node first, tree.node? id = some node → node.children.head? = some first →
    first.index < id.index
  last_older : ∀ id node last, tree.node? id = some node → node.children.getLast? = some last →
    last.index < id.index
  spans : ∀ id node first last, tree.node? id = some node → node.children.head? = some first →
    node.children.getLast? = some last →
      node.location = (tree.locationAt first).merge (tree.locationAt last)

theorem Spanned.spansEnds (spanned : tree.Spanned) : tree.SpansEnds where
  first_older id node first found isFirst :=
    spanned.older id first ⟨node, found, List.mem_of_head? isFirst⟩
  last_older id node last found isLast :=
    spanned.older id last ⟨node, found, List.mem_of_getLast? isLast⟩
  spans := spanned.spans

theorem exists_last {children : List NodeId} {first : NodeId}
    (isFirst : children.head? = some first) : ∃ last, children.getLast? = some last := by
  cases children with
  | nil => cases isFirst
  | cons child rest => exact ⟨_, List.getLast?_eq_some_getLast (List.cons_ne_nil child rest)⟩

theorem exists_first {children : List NodeId} {last : NodeId}
    (isLast : children.getLast? = some last) : ∃ first, children.head? = some first := by
  cases children with
  | nil => cases isLast
  | cons child rest => exact ⟨child, rfl⟩

theorem head?_picks (children : List NodeId) (some : children ≠ []) :
    ∃ child, children.head? = .some child := ⟨_, List.head?_eq_some_head some⟩

theorem getLast?_picks (children : List NodeId) (some : children ≠ []) :
    ∃ child, children.getLast? = .some child := ⟨_, List.getLast?_eq_some_getLast some⟩

section Leads

variable (older : ∀ id node child, tree.node? id = some node → pick node.children = some child →
  child.index < id.index)
include older

/-- From a node that is there, a leaf is reached if every node with children has an older one
picked. -/
theorem exists_leaf (picks : ∀ children, children ≠ [] → ∃ child, pick children = some child)
    (inside : id.index < tree.size) : ∃ leaf, tree.LeadsTo pick id leaf := by
  obtain ⟨index⟩ := id
  induction index using Nat.strongRecOn with
  | ind index ih =>
    obtain ⟨node, found⟩ := Option.isSome_iff_exists.mp ((node?_isSome_iff tree ⟨index⟩).mpr inside)
    by_cases childless : node.children = []
    · exact ⟨_, .leaf found childless⟩
    · obtain ⟨child, picked⟩ := picks _ childless
      have isOlder := older ⟨index⟩ node child found picked
      obtain ⟨leaf, leads⟩ := ih child.index isOlder (Nat.lt_trans isOlder inside)
      exact ⟨leaf, .child found picked leads⟩

theorem LeadsTo.leaf_le (leads : tree.LeadsTo pick id leaf) : leaf.index ≤ id.index := by
  induction leads with
  | leaf => exact Nat.le_refl _
  | child found picked _ ih =>
    have := older _ _ _ found picked
    omega

theorem LeadsTo.leaf_lt (leads : tree.LeadsTo pick id leaf) (found : tree.node? id = some node)
    (parent : node.children ≠ []) : leaf.index < id.index := by
  cases leads with
  | leaf foundToo childless =>
    cases found.symm.trans foundToo
    exact absurd childless parent
  | child foundToo picked rest =>
    have := rest.leaf_le older
    have := older _ _ _ foundToo picked
    omega

end Leads

theorem LeadsTo.leaf_found (leads : tree.LeadsTo pick id leaf) :
    ∃ node, tree.node? leaf = some node ∧ node.children = [] := by
  induction leads with
  | leaf found childless => exact ⟨_, found, childless⟩
  | child _ _ _ ih => exact ih

theorem LeadsTo.eq_of_childless (leads : tree.LeadsTo pick id leaf) (none : pick [] = none)
    (found : tree.node? id = some node) (childless : node.children = []) : leaf = id := by
  cases leads with
  | leaf => rfl
  | child foundToo picked =>
    cases found.symm.trans foundToo
    rw [childless, none] at picked
    cases picked

theorem LeadsTo.start_eq (leads : tree.FirstLeaf id leaf) (ends : tree.SpansEnds) :
    (tree.locationAt id).startByte = (tree.locationAt leaf).startByte := by
  induction leads with
  | leaf => rfl
  | child found picked _ ih =>
    obtain ⟨last, isLast⟩ := exists_last picked
    rw [locationAt_eq found, ends.spans _ _ _ _ found picked isLast, Location.merge_startByte, ih]

theorem LeadsTo.end_eq (leads : tree.LastLeaf id leaf) (ends : tree.SpansEnds) :
    (tree.locationAt id).endByte = (tree.locationAt leaf).endByte := by
  induction leads with
  | leaf => rfl
  | child found picked _ ih =>
    obtain ⟨first, isFirst⟩ := exists_first picked
    rw [locationAt_eq found, ends.spans _ _ _ _ found isFirst picked, Location.merge_endByte, ih]

end SyntaxTree

namespace TreeDraft

variable {draft : TreeDraft}

theorem Spanned.leaf_forward (spanned : draft.Spanned) {node : Node} (member : node ∈ draft.nodes)
    (childless : node.children = []) : node.location.startByte ≤ node.location.endByte := by
  have listed : node ∈ draft.childless := by simp [TreeDraft.childless, member, childless]
  have placed : node.location ∈ draft.childless.map Node.location := List.mem_map_of_mem listed
  rw [spanned.leaves] at placed
  exact (laidOut_bounds placed).2

/-- Of two childless nodes the older one ends before the other one starts. -/
theorem Spanned.leaves_apart (spanned : draft.Spanned) {i j : Nat} {left right : Node}
    (foundLeft : draft.nodes[i]? = some left) (foundRight : draft.nodes[j]? = some right)
    (leftChildless : left.children = []) (rightChildless : right.children = []) (older : i < j) :
    left.location.endByte < right.location.startByte := by
  have apart := laidOut_pairwise 0 (draft.childless.map fun node => node.production.width)
  rw [← spanned.leaves, List.pairwise_map, TreeDraft.childless, List.pairwise_filter,
    List.pairwise_iff_getElem] at apart
  obtain ⟨leftInside, rfl⟩ := Array.getElem?_eq_some_iff.mp foundLeft
  obtain ⟨rightInside, rfl⟩ := Array.getElem?_eq_some_iff.mp foundRight
  exact apart i j leftInside rightInside older (by simpa using leftChildless)
    (by simpa using rightChildless)

/-- In the nodes of such a draft each reaches over its children, whatever these are and whichever
node is the root. -/
theorem Spanned.spansEnds (spanned : draft.Spanned) (root : NodeId) :
    SyntaxTree.SpansEnds ⟨draft.nodes, root⟩ := by
  have located {id : NodeId} {node : Node} (found : draft.nodes[id.index]? = some node) :
      SyntaxTree.locationAt ⟨draft.nodes, root⟩ id = node.location :=
    SyntaxTree.locationAt_eq found
  constructor
  case first_older =>
    intro id node first found isFirst
    obtain ⟨last, isLast⟩ := SyntaxTree.exists_last isFirst
    obtain ⟨start, stop, older, -⟩ := spanned.spans id.index node found first last isFirst isLast
    exact older
  case last_older =>
    intro id node last found isLast
    obtain ⟨first, isFirst⟩ := SyntaxTree.exists_first isLast
    obtain ⟨start, stop, -, older, -⟩ := spanned.spans id.index node found first last isFirst isLast
    exact older
  case spans =>
    intro id node first last found isFirst isLast
    obtain ⟨start, stop, -, -, foundFirst, foundLast, covers⟩ :=
      spanned.spans id.index node found first last isFirst isLast
    rw [covers, located foundFirst, located foundLast]

/-- If all children are older than their parents, these nodes are a tree with such locations. -/
theorem Spanned.tree_spanned (spanned : draft.Spanned)
    (older : ∀ (i : Nat) production, draft.productions[i]? = some production →
      ∀ child ∈ production.children, child.index < i) (root : NodeId) :
    SyntaxTree.Spanned ⟨draft.nodes, root⟩ := by
  constructor
  case older =>
    rintro parent child ⟨node, found, member⟩
    refine older parent.index node.production ?_ child member
    rw [productions, List.getElem?_map, Array.getElem?_toList]
    exact congrArg (Option.map Node.production) found
  case leaf_forward =>
    intro id node found childless
    exact spanned.leaf_forward (Array.mem_of_getElem? found) childless
  case leaves_apart =>
    intro i j left right foundLeft foundRight leftChildless rightChildless order
    exact spanned.leaves_apart foundLeft foundRight leftChildless rightChildless order
  case spans => exact (spanned.spansEnds root).spans

/-- A draft that moved nothing and passed only what was answered ends as such a tree. -/
theorem finished_spanned {steps : List DraftStep} {items answers : List NodeId}
    {draft after : TreeDraft} (unmoved : ∀ step ∈ steps, step.moves = false)
    (passes : PassesAnswers steps items) (ran : (runAll steps).run empty = .ok (answers, draft))
    (added : draft.add (.compilationUnit items) = .ok after) (root : NodeId) :
    SyntaxTree.Spanned ⟨after.nodes, root⟩ := by
  refine ((Spanned.runAll unmoved ran).add added).tree_spanned (fun i production found child => ?_) root
  rw [productions_add added, List.getElem?_append, ← size_eq_length] at found
  split at found
  case isTrue => exact children_older passes (List.append_nil steps).symm ran found
  case isFalse late =>
    rw [List.getElem?_singleton] at found
    split at found <;> cases found
    intro member
    have inside := passes.inside mem_calls_last ran child
    rw [Production.map_snd_seats] at inside
    have := inside member
    omega

end TreeDraft

end ScriptSemantics
