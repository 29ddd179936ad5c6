import Mathlib.Data.List.Chain
import ScriptSemantics.Proofs.DraftedLocations

/-!
# When drafted locations nest

A node covers what is below it only if its leaves were drafted in walk order. The requests see to
that as little as they check their children: two of them draft a leaf of their own behind children
that were passed to them, and children that are passed in increasing order may still have leaves
that lie in between one another. These are the only ways in which locations fail to nest.
-/
namespace ScriptSemantics

/-- The other range lies inside. -/
def Location.Covers (outer inner : Location) : Prop :=
  outer.startByte ≤ inner.startByte ∧ inner.endByte ≤ outer.endByte

theorem Location.Covers.trans {first second third : Location} (covers : first.Covers second)
    (inner : second.Covers third) : first.Covers third :=
  ⟨Nat.le_trans covers.1 inner.1, Nat.le_trans inner.2 covers.2⟩

namespace SyntaxTree

variable {tree : SyntaxTree}

/-- The first of two nodes ends before the second one starts. -/
def Before (tree : SyntaxTree) (first second : NodeId) : Prop :=
  (tree.locationAt first).endByte < (tree.locationAt second).startByte

/-- No range is turned around, each node covers what is below it, and siblings follow one another
in walk order. -/
structure Nested (tree : SyntaxTree) : Prop where
  forward : ∀ id node, tree.node? id = some node →
    node.location.startByte ≤ node.location.endByte
  covers : ∀ top below, tree.Within top below → (tree.locationAt top).Covers (tree.locationAt below)
  siblings : ∀ id node, tree.node? id = some node → node.children.Pairwise tree.Before

/-- The last leaf of one node was drafted before the first leaf of the other. -/
def Apart (tree : SyntaxTree) (first second : NodeId) : Prop :=
  ∀ left right, tree.LastLeaf first left → tree.FirstLeaf second right → left.index < right.index

/-- Children that follow one another lie between the first and the last of them. -/
theorem chain_covers {children : List NodeId} {first last : NodeId}
    (forward : ∀ id ∈ children, (tree.locationAt id).startByte ≤ (tree.locationAt id).endByte)
    (chain : children.IsChain tree.Before) (isFirst : children.head? = some first)
    (isLast : children.getLast? = some last) :
    ∀ id ∈ children,
      ((tree.locationAt first).merge (tree.locationAt last)).Covers (tree.locationAt id) := by
  induction children generalizing first with
  | nil => nofun
  | cons child rest ih =>
    cases isFirst
    cases rest with
    | nil =>
      cases isLast
      simp [Location.Covers]
    | cons next rest =>
      obtain ⟨before, chain⟩ := List.isChain_cons_cons.mp chain
      have inner := ih (fun id member => forward id (List.mem_cons_of_mem _ member)) chain rfl
        (by rwa [List.getLast?_cons_cons] at isLast)
      have nextForward := forward next (by simp)
      have childForward := forward child (by simp)
      have nextInner := inner next (by simp)
      simp only [Before, Location.Covers, Location.merge_startByte,
        Location.merge_endByte] at before inner nextInner ⊢
      intro id member
      rcases List.mem_cons.mp member with rfl | later
      · omega
      · have := inner id later
        omega

namespace Spanned

variable (spanned : tree.Spanned)
include spanned

theorem child_inside {id child : NodeId} {node : Node} (found : tree.node? id = some node)
    (member : child ∈ node.children) : child.index < tree.size := by
  have older := spanned.older id child ⟨node, found, member⟩
  have inside := (node?_isSome_iff tree id).mp (by simp [found])
  omega

/-- Where locations follow one another, so do the leaves at their ends. -/
theorem apart_iff_before {first second : NodeId} (firstInside : first.index < tree.size)
    (secondInside : second.index < tree.size) :
    tree.Apart first second ↔ tree.Before first second := by
  have forward {leaf : NodeId} {node : Node} (found : tree.node? leaf = some node)
      (childless : node.children = []) :
      (tree.locationAt leaf).startByte ≤ (tree.locationAt leaf).endByte := by
    rw [locationAt_eq found]
    exact spanned.leaf_forward leaf node found childless
  have ordered {i j : NodeId} {left right : Node} (foundLeft : tree.node? i = some left)
      (foundRight : tree.node? j = some right) (leftChildless : left.children = [])
      (rightChildless : right.children = []) (older : i.index < j.index) :
      (tree.locationAt i).endByte < (tree.locationAt j).startByte := by
    rw [locationAt_eq foundLeft, locationAt_eq foundRight]
    exact spanned.leaves_apart i j left right foundLeft foundRight leftChildless rightChildless older
  constructor
  · intro apart
    obtain ⟨left, leadsLeft⟩ := exists_leaf spanned.spansEnds.last_older getLast?_picks firstInside
    obtain ⟨right, leadsRight⟩ := exists_leaf spanned.spansEnds.first_older head?_picks secondInside
    obtain ⟨leftNode, foundLeft, leftChildless⟩ := leadsLeft.leaf_found
    obtain ⟨rightNode, foundRight, rightChildless⟩ := leadsRight.leaf_found
    rw [Before, leadsLeft.end_eq spanned.spansEnds, leadsRight.start_eq spanned.spansEnds]
    exact ordered foundLeft foundRight leftChildless rightChildless
      (apart left right leadsLeft leadsRight)
  · intro before left right leadsLeft leadsRight
    obtain ⟨leftNode, foundLeft, leftChildless⟩ := leadsLeft.leaf_found
    obtain ⟨rightNode, foundRight, rightChildless⟩ := leadsRight.leaf_found
    rw [Before, leadsLeft.end_eq spanned.spansEnds, leadsRight.start_eq spanned.spansEnds] at before
    have leftForward := forward foundLeft leftChildless
    have rightForward := forward foundRight rightChildless
    rcases Nat.lt_trichotomy left.index right.index with older | same | younger
    · exact older
    · obtain rfl : left = right := congrArg NodeId.mk same
      omega
    · have := ordered foundRight foundLeft rightChildless leftChildless younger
      omega

theorem isChain_apart_iff {id : NodeId} {node : Node} (found : tree.node? id = some node) :
    node.children.IsChain tree.Apart ↔ node.children.IsChain tree.Before := by
  refine List.IsChain.iff_of_mem_imp fun a b memberA memberB => ?_
  exact spanned.apart_iff_before (spanned.child_inside found memberA)
    (spanned.child_inside found memberB)

variable (chains : ∀ id node, tree.node? id = some node → node.children.IsChain tree.Before)
include chains

/-- By induction on the age of the node: its children are older. -/
theorem forward_of_chains (id : NodeId) :
    (tree.locationAt id).startByte ≤ (tree.locationAt id).endByte := by
  obtain ⟨index⟩ := id
  induction index using Nat.strongRecOn with
  | ind index ih =>
    cases found : tree.node? ⟨index⟩ with
    | none => simp [locationAt, found, Location.origin]
    | some node =>
      obtain childless | ⟨first, last, isFirst, isLast⟩ := TreeDraft.ends_cases node.children
      · rw [locationAt_eq found]
        exact spanned.leaf_forward _ node found childless
      · have older (child : NodeId) (member : child ∈ node.children) : child.index < index :=
          spanned.older ⟨index⟩ child ⟨node, found, member⟩
        have covers := chain_covers (fun child member => ih child.index (older child member))
          (chains _ node found) isFirst isLast first (List.mem_of_head? isFirst)
        have firstForward := ih first.index (older first (List.mem_of_head? isFirst))
        rw [locationAt_eq found, spanned.spans _ node first last found isFirst isLast]
        exact Nat.le_trans (Nat.le_trans covers.1 firstForward) covers.2

theorem covers_of_chains {parent child : NodeId} (link : tree.HasChild parent child) :
    (tree.locationAt parent).Covers (tree.locationAt child) := by
  obtain ⟨node, found, member⟩ := link
  obtain childless | ⟨first, last, isFirst, isLast⟩ := TreeDraft.ends_cases node.children
  · rw [childless] at member
    cases member
  · rw [locationAt_eq found, spanned.spans _ node first last found isFirst isLast]
    exact chain_covers (fun id _ => spanned.forward_of_chains chains id) (chains _ node found)
      isFirst isLast child member

theorem nested_of_chains : tree.Nested := by
  have forward := spanned.forward_of_chains chains
  constructor
  case forward =>
    intro id node found
    rw [← locationAt_eq found]
    exact forward id
  case covers =>
    rintro top below ⟨distance, path⟩
    induction path with
    | refl => exact ⟨Nat.le_refl _, Nat.le_refl _⟩
    | step _ link ih => exact ih.trans (spanned.covers_of_chains chains link)
  case siblings =>
    intro id node found
    have : Trans tree.Before tree.Before tree.Before := ⟨fun {a b c} first second =>
      Nat.lt_trans (Nat.lt_of_lt_of_le first (forward b)) second⟩
    exact (chains id node found).pairwise

omit chains

/-- Locations nest exactly if the leaves of every two neighbours are apart. -/
theorem nested_iff : tree.Nested ↔
    ∀ id node, tree.node? id = some node → node.children.IsChain tree.Apart := by
  constructor
  · intro nested id node found
    rw [spanned.isChain_apart_iff found]
    exact (nested.siblings id node found).isChain
  · intro apart
    refine spanned.nested_of_chains fun id node found => ?_
    rw [← spanned.isChain_apart_iff found]
    exact apart id node found

end Spanned

end SyntaxTree

/-- A request that puts a leaf of its own before children that were drafted earlier. -/
def DraftStep.putsLeafFirst : DraftStep → Bool
  | .declarator _ (some _) => true
  | .classDeclaration _ (some _) (_ :: _) => true
  | _ => false

theorem TreeDraft.namedDeclarators_chain {size : Nat} {names : List String}
    {production : Production} {related : NodeId → NodeId → Prop}
    (listed : production ∈ namedDeclarators size names) : production.children.IsChain related := by
  induction names generalizing size with
  | nil => cases listed
  | cons name names ih =>
    rcases List.mem_cons.mp listed with rfl | listed
    · exact .nil
    · rcases List.mem_cons.mp listed with rfl | listed
      · exact .singleton _
      · exact ih listed

namespace SyntaxTree

variable {tree : SyntaxTree}

namespace Spanned

variable (spanned : tree.Spanned)
include spanned

theorem apart_leaf {first leaf : NodeId} {node : Node} (found : tree.node? leaf = some node)
    (childless : node.children = []) (older : first.index < leaf.index) :
    tree.Apart first leaf := by
  intro left right leadsLeft leadsRight
  have := leadsLeft.leaf_le spanned.spansEnds.last_older
  rw [leadsRight.eq_of_childless rfl found childless]
  omega

theorem not_leaf_apart {leaf second : NodeId} {node : Node} (found : tree.node? leaf = some node)
    (childless : node.children = []) (older : second.index < leaf.index) :
    ¬ tree.Apart leaf second := by
  intro apart
  have inside := (node?_isSome_iff tree leaf).mp (by simp [found])
  obtain ⟨right, leads⟩ :=
    exists_leaf spanned.spansEnds.first_older head?_picks (Nat.lt_trans older inside)
  have := leads.leaf_le spanned.spansEnds.first_older
  have := apart leaf right (.leaf found childless) leads
  omega

/-- Declarators of new names lie behind one another, and behind whatever is older. -/
theorem named_chain {size : Nat} {names : List String} {earlier : NodeId}
    (stored : ∀ (i : Nat) production,
      (TreeDraft.namedDeclarators size names)[i]? = some production →
        ∃ node, tree.node? ⟨size + i⟩ = some node ∧ node.production = production)
    (older : earlier.index < size) :
    (earlier :: TreeDraft.namedDeclaratorIds size names.length).IsChain tree.Apart := by
  induction names generalizing size earlier with
  | nil => exact .singleton _
  | cons name names ih =>
    rw [List.length_cons, TreeDraft.namedDeclaratorIds_succ]
    refine .cons_cons ?_ (ih (fun i production found => ?_) (Nat.lt_succ_self _))
    · obtain ⟨id, foundId, isId⟩ := stored 0 _ rfl
      obtain ⟨declarator, foundDeclarator, isDeclarator⟩ := stored 1 _ rfl
      intro left right leadsLeft leadsRight
      have := leadsLeft.leaf_le spanned.spansEnds.last_older
      cases leadsRight with
      | leaf found childless =>
        cases foundDeclarator.symm.trans found
        rw [Node.children, isDeclarator] at childless
        cases childless
      | child found picked rest =>
        cases foundDeclarator.symm.trans found
        rw [Node.children, isDeclarator] at picked
        cases picked
        rw [rest.eq_of_childless rfl foundId (by rw [Node.children, isId]; rfl)]
        dsimp only
        omega
    · obtain ⟨node, foundNode, isProduction⟩ := stored (i + 2) production found
      exact ⟨node, by rw [← foundNode]; congr 2; omega, isProduction⟩

/-- The nodes that a request adds keep their neighbours' leaves apart if it puts none of its own
before older children, and those of its children are apart. -/
theorem chains_iff {step : DraftStep} {size : Nat}
    (inside : ∀ id ∈ step.passes.map Prod.snd, id.index < size)
    (stored : ∀ (i : Nat) production, (step.additions size)[i]? = some production →
      ∃ node, tree.node? ⟨size + i⟩ = some node ∧ node.production = production) :
    (∀ production ∈ step.additions size, production.children.IsChain tree.Apart) ↔
      step.putsLeafFirst = false ∧ (step.passes.map Prod.snd).IsChain tree.Apart := by
  have single {production : Production} (same : production.seats = step.passes) :
      (∀ one ∈ [production], one.children.IsChain tree.Apart) ↔
        (step.passes.map Prod.snd).IsChain tree.Apart := by
    rw [← same, production.map_snd_seats, List.forall_mem_singleton]
  have leaf {production : Production} (first : (step.additions size)[0]? = some production)
      (childless : production.children = []) :
      ∃ node, tree.node? ⟨size⟩ = some node ∧ node.children = [] := by
    obtain ⟨node, found, isLeaf⟩ := stored 0 production first
    exact ⟨node, found, by rw [Node.children, isLeaf, childless]⟩
  cases step with
  | place => simp [DraftStep.additions, DraftStep.passes, DraftStep.putsLeafFirst]
  | primitive | classType =>
    simp [DraftStep.additions, DraftStep.passes, DraftStep.putsLeafFirst, Production.children]
  | functionType =>
    simp [DraftStep.additions, DraftStep.passes, DraftStep.putsLeafFirst, Production.children,
      Production.map_snd_seats]
  | declarator name initializer =>
    cases initializer with
    | none =>
      simp [DraftStep.additions, DraftStep.passes, DraftStep.putsLeafFirst, Production.children]
    | some initializer =>
      obtain ⟨node, found, childless⟩ := leaf rfl rfl
      have behind := spanned.not_leaf_apart found childless
        (inside initializer (List.mem_singleton_self _))
      refine iff_of_false (fun chains => behind ?_) (by simp [DraftStep.putsLeafFirst])
      exact List.isChain_pair.mp (chains (.variableDeclarator ⟨size⟩ (some initializer))
        (by simp [DraftStep.additions]))
  | parameter type name =>
    obtain ⟨node, found, childless⟩ := leaf rfl rfl
    refine ⟨fun _ => ⟨rfl, .singleton _⟩, fun _ production listed => ?_⟩
    rcases List.mem_cons.mp listed with rfl | listed
    · exact .nil
    · obtain rfl := List.mem_singleton.mp listed
      exact List.isChain_pair.mpr
        (spanned.apart_leaf found childless (inside type (List.mem_singleton_self _)))
  | variableDeclaration type names =>
    refine ⟨fun _ => ⟨rfl, .singleton _⟩, fun _ production listed => ?_⟩
    rcases List.mem_append.mp listed with named | listed
    · exact TreeDraft.namedDeclarators_chain named
    · obtain rfl := List.mem_singleton.mp listed
      refine spanned.named_chain (fun i production found => stored i production ?_)
        (inside type (List.mem_singleton_self _))
      exact (List.getElem?_append_left (List.getElem?_eq_some_iff.mp found).1).trans found
  | classDeclaration name superclass body =>
    cases superclass with
    | none => exact (single rfl).trans (and_iff_right rfl).symm
    | some superclass =>
      cases body with
      | nil =>
        simp [DraftStep.additions, DraftStep.passes, DraftStep.putsLeafFirst, Production.children]
      | cons member body =>
        obtain ⟨node, found, childless⟩ := leaf rfl rfl
        have behind := spanned.not_leaf_apart found childless
          (inside member (by simp [DraftStep.passes]))
        refine iff_of_false (fun chains => behind ?_) (by simp [DraftStep.putsLeafFirst])
        exact (List.isChain_cons_cons.mp (chains (.classDeclaration name (some ⟨size⟩)
          (member :: body)) (by simp [DraftStep.additions]))).1
  | _ => exact (single rfl).trans (and_iff_right rfl).symm

end Spanned

end SyntaxTree

theorem SyntaxTree.exists_stored {tree : SyntaxTree} {productions : List Production}
    (extended : productions <+: tree.nodes.toList.map Node.production) {i : Nat}
    {production : Production} (found : productions[i]? = some production) :
    ∃ node, tree.node? ⟨i⟩ = some node ∧ node.production = production := by
  obtain ⟨rest, same⟩ := extended
  have inside := (List.getElem?_eq_some_iff.mp found).1
  rw [← List.getElem?_append_left inside, same, List.getElem?_map, Array.getElem?_toList] at found
  exact Option.map_eq_some_iff.mp found

theorem SyntaxTree.forall_chain_iff {tree : SyntaxTree} {related : NodeId → NodeId → Prop} :
    (∀ id node, tree.node? id = some node → node.children.IsChain related) ↔
      ∀ production ∈ tree.nodes.toList.map Node.production,
        production.children.IsChain related := by
  simp only [List.forall_mem_map, Array.mem_toList_iff, Array.mem_iff_getElem?]
  exact ⟨fun chains node ⟨i, found⟩ => chains ⟨i⟩ node found,
    fun chains id node found => chains node ⟨id.index, found⟩⟩

namespace TreeDraft

variable {steps before after : List DraftStep} {items : List NodeId} {draft : TreeDraft}

/-- The nodes that requests added keep their neighbours' leaves apart in a later tree exactly if the
requests did. By induction on the last request. -/
theorem chains_iff {tree : SyntaxTree} {answers : List NodeId} (spanned : tree.Spanned)
    (passes : PassesAnswers steps items) (split : steps = before ++ after)
    (ran : (runAll before).run empty = .ok (answers, draft))
    (extended : draft.productions <+: tree.nodes.toList.map Node.production) :
    (∀ production ∈ draft.productions, production.children.IsChain tree.Apart) ↔
      ∀ step ∈ before, step.putsLeafFirst = false ∧
        (step.passes.map Prod.snd).IsChain tree.Apart := by
  induction before using List.reverseRecOn generalizing after answers draft with
  | nil =>
    cases ran
    simp [productions, empty]
  | append_singleton before step ih =>
    rw [List.append_assoc, List.singleton_append] at split
    obtain ⟨earlier, middle, id, start, last, -⟩ := runAll_snoc_eq_ok_iff.mp ran
    have same := step.productions_run last
    rw [same] at extended ⊢
    have inside := passes.inside (split ▸ mem_calls_of_split) start
    have here := spanned.chains_iff inside fun i production found => by
      refine SyntaxTree.exists_stored extended ?_
      rw [size_eq_length, List.getElem?_append_right (Nat.le_add_right _ _),
        Nat.add_sub_cancel_left, ← size_eq_length, found]
    simp only [List.forall_mem_append, List.forall_mem_singleton, here,
      ih split start ((List.prefix_append _ _).trans extended)]

end TreeDraft

/-- Requests that move nothing and pass only what was answered draft a tree. Its locations nest if
no request puts a leaf of its own before older children and the children that are passed together
have their leaves apart, and only then. -/
theorem TreeDraft.tree_nested_iff {steps : List DraftStep} {items : List NodeId}
    (unmoved : ∀ step ∈ steps, step.moves = false) (passes : TreeDraft.PassesAnswers steps items) :
    ∃ tree, TreeDraft.tree steps items = .ok tree ∧
      (tree.Nested ↔
        (∀ step ∈ steps, step.putsLeafFirst = false ∧
          (step.passes.map Prod.snd).IsChain tree.Apart) ∧ items.IsChain tree.Apart) := by
  have moves : MovesPresent steps := fun i id location found => by
    cases unmoved _ (List.mem_of_getElem? found)
  obtain ⟨answers, draft, after, ran, added, finished⟩ := exists_tree passes moves
  refine ⟨_, finished, ?_⟩
  have spanned := finished_spanned unmoved passes ran added ⟨draft.nodes.size⟩
  have productions : after.nodes.toList.map Node.production =
      draft.productions ++ [.compilationUnit items] := productions_add added
  have stepwise := chains_iff spanned passes (List.append_nil steps).symm ran
    (productions ▸ List.prefix_append _ _)
  rw [spanned.nested_iff, SyntaxTree.forall_chain_iff, productions, List.forall_mem_append,
    List.forall_mem_singleton, stepwise]
  rfl

/-- A variable with an initializer, `int x = 1`. Each request passes children in increasing order. -/
def TreeDraft.initializedSteps : List DraftStep :=
  [.primitive .int, .literal "1", .declarator "x" (some ⟨2⟩), .declarators ⟨1⟩ [⟨4⟩]]

/-- The name lies behind the initializer, so the declarator ends before it starts. -/
theorem TreeDraft.tree_nested_iff_initialized :
    (∀ step ∈ initializedSteps, step.moves = false) ∧ PassesAnswers initializedSteps [⟨5⟩] ∧
      ((initializedSteps.flatMap DraftStep.passes).map Prod.snd ++ [(⟨5⟩ : NodeId)]).Nodup ∧
      (∀ call ∈ calls initializedSteps [⟨5⟩],
        (call.2.map fun pass => pass.2.index).Pairwise (· < ·)) ∧
      ∃ tree, TreeDraft.tree initializedSteps [⟨5⟩] = .ok tree ∧ ¬ tree.Nested ∧
        tree.locationAt ⟨4⟩ = ⟨6, 5⟩ := by
  have unmoved : ∀ step ∈ initializedSteps, step.moves = false := by decide
  have passes : PassesAnswers initializedSteps [⟨5⟩] := by
    unfold PassesAnswers
    decide
  obtain ⟨tree, finished, nested⟩ := TreeDraft.tree_nested_iff unmoved passes
  have drafted : (TreeDraft.tree initializedSteps [⟨5⟩]).map (fun tree => tree.locationAt ⟨4⟩) =
      .ok ⟨6, 5⟩ := rfl
  rw [finished] at drafted
  refine ⟨unmoved, passes, by decide, by decide, tree, finished, fun isNested => ?_,
    Except.ok.inj drafted⟩
  have late := ((nested.mp isNested).1 (.declarator "x" (some ⟨2⟩)) (by decide)).1
  cases late

end ScriptSemantics
