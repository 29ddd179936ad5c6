import ScriptSemantics.Analysis
import ScriptSemantics.Proofs.Bindings
import ScriptSemantics.Proofs.Traversal

/-!
# The regions that hold locals

On a well-formed tree the regions can be listed, and each of them is reachable. Below a compilation
unit they hold every variable that is not a member: a walk over the regions comes to these variables
in the order in which the walk over the whole unit does.
-/
namespace ScriptSemantics

namespace SyntaxTree

variable {tree : SyntaxTree}

/-- Whether a child of a node is a region, told from the tree as it is. -/
def regionAt (tree : SyntaxTree) (production : Production) (child : NodeId) : Bool :=
  match production with
  | .compilationUnit _ => (tree.node? child).any fun node => node.kind.isStatement
  | .functionDeclaration _ _ _ body => body == child
  | _ => false

/-- The outermost regions below a node. -/
def regions (tree : SyntaxTree) (id : NodeId) : List NodeId :=
  match tree.regionsWithin (tree.size + 1) id with
  | .ok regions => regions
  | .error _ => []

/-- What a child adds to the regions below a node. -/
def regionsThrough (tree : SyntaxTree) (depth : Nat) (production : Production) (child : NodeId) :
    Except Fault (List NodeId) := do
  if ← tree.isRegion production child then pure [child] else tree.regionsWithin depth child

theorem regionsWithin_succ {id : NodeId} {node : Node} (found : tree.node? id = some node)
    (depth : Nat) : tree.regionsWithin (depth + 1) id =
      List.flatten <$> node.children.mapM (tree.regionsThrough depth node.production) := by
  rw [regionsWithin, SyntaxTree.node, found]
  rfl

namespace WellFormed

variable (formed : tree.WellFormed)
include formed

theorem regionsThrough_eq {id child : NodeId} {node : Node} (found : tree.node? id = some node)
    (member : child ∈ node.children) (depth : Nat) :
    tree.regionsThrough depth node.production child =
      if tree.regionAt node.production child then .ok [child] else tree.regionsWithin depth child := by
  obtain ⟨below, foundBelow⟩ := formed.child_node ⟨node, found, member⟩
  have decided : tree.isRegion node.production child = .ok (tree.regionAt node.production child) := by
    unfold isRegion regionAt
    cases node.production <;> simp [SyntaxTree.node, foundBelow, pure, Except.pure]
  rw [regionsThrough, decided]
  cases tree.regionAt node.production child <;> rfl

/-- The bound of a listing does not matter as long as it exceeds what is left of the tree's size. -/
theorem regionsWithin_stable {id : NodeId} {depth : Nat} (path : tree.Below tree.root depth id)
    {j k : Nat} (roomJ : tree.size < j + depth) (roomK : tree.size < k + depth) :
    ∃ listed, tree.regionsWithin j id = .ok listed ∧ tree.regionsWithin k id = .ok listed := by
  induction j generalizing k id depth with
  | zero =>
    have := formed.depth_lt_size path
    omega
  | succ j ih =>
    have := formed.depth_lt_size path
    obtain ⟨k, rfl⟩ : ∃ m, k = m + 1 := ⟨k - 1, by omega⟩
    obtain ⟨node, found⟩ := formed.reachable_node ⟨depth, path⟩
    have same : ∀ child ∈ node.children, ∃ listed,
        tree.regionsThrough j node.production child = .ok listed ∧
          tree.regionsThrough k node.production child = .ok listed := by
      intro child member
      rw [formed.regionsThrough_eq found member, formed.regionsThrough_eq found member]
      split
      · exact ⟨[child], rfl, rfl⟩
      · exact ih (.step path ⟨node, found, member⟩) (by omega) (by omega)
    obtain ⟨listed, left⟩ := mapM_isOk (f := tree.regionsThrough j node.production) node.children
      fun child member =>
        let ⟨l, first, _⟩ := same child member
        ⟨l, first⟩
    have right : node.children.mapM (tree.regionsThrough k node.production) =
        node.children.mapM (tree.regionsThrough j node.production) :=
      mapM_congr fun child member => by
        obtain ⟨l, first, second⟩ := same child member
        exact second.trans first.symm
    rw [regionsWithin_succ found, regionsWithin_succ found, right, left]
    exact ⟨listed.flatten, rfl, rfl⟩

theorem localRegions_eq_ok : tree.localRegions = .ok (tree.regions tree.root) := by
  obtain ⟨listed, left, -⟩ := formed.regionsWithin_stable .refl (j := tree.size + 1)
    (k := tree.size + 1) (by omega) (by omega)
  simp [localRegions, regions, left]

/-- The regions below a node are its children that are regions and what the others hold. -/
theorem regions_eq {id : NodeId} {node : Node} (reached : tree.Reachable id)
    (found : tree.node? id = some node) :
    tree.regions id = node.children.flatMap fun child =>
      if tree.regionAt node.production child then [child] else tree.regions child := by
  obtain ⟨depth, path⟩ := reached
  have below : ∀ child ∈ node.children, tree.regionsThrough tree.size node.production child =
      .ok (if tree.regionAt node.production child then [child] else tree.regions child) := by
    intro child member
    obtain ⟨listed, left, right⟩ := formed.regionsWithin_stable
      (.step path ⟨node, found, member⟩) (j := tree.size) (k := tree.size + 1) (by omega) (by omega)
    rw [formed.regionsThrough_eq found member]
    cases tree.regionAt node.production child with
    | true => rfl
    | false => simp [regions, left, right]
  rw [regions, regionsWithin_succ found, mapM_eq_ok _ below]
  rfl

theorem regions_within {id region : NodeId} (reached : tree.Reachable id)
    (member : region ∈ tree.regions id) : tree.Within id region := by
  refine formed.reachable_induction
    (motive := fun id => region ∈ tree.regions id → tree.Within id region) ?_ reached member
  intro id node reached found ih member
  rw [formed.regions_eq reached found, List.mem_flatMap] at member
  obtain ⟨child, listed, member⟩ := member
  have link : tree.HasChild id child := ⟨node, found, listed⟩
  split at member
  · exact List.mem_singleton.mp member ▸ link.within
  · exact link.within.trans (ih child listed member)

end WellFormed

end SyntaxTree

/-- Whether a node declares a variable, or is a declaration statement, that is not a member. -/
def Resolution.isLocal (b : Resolution) (tree : SyntaxTree) (id : NodeId) : Bool :=
  !b.isMemberScope (b.scopeAt id) && (tree.node? id).any fun node =>
    node.kind == .variableDeclaratorId || node.kind == .variableDeclarators

namespace Registered

variable {tree : SyntaxTree} {b : Resolution} (registered : Registered tree b)
  (formed : tree.WellFormed)
include registered formed

/-- Outside of the regions every node below a unit stands in a class or a function. -/
theorem member_outside_regions {id child : NodeId} {node : Node} (reached : tree.Reachable id)
    (found : tree.node? id = some node)
    (outside : node.kind = .compilationUnit ∨ b.isMemberScope (b.scopeAt id) = true)
    (member : child ∈ node.children) (noRegion : tree.regionAt node.production child = false) :
    b.isMemberScope (b.scopeAt child) = true := by
  have link : tree.HasChild id child := ⟨node, found, member⟩
  have reachedChild := reached.child link
  obtain ⟨below, foundBelow⟩ := formed.child_node link
  have inUnit (unit : node.kind = .compilationUnit) :
      below.kind = .classDeclaration ∨ below.kind = .functionDeclaration := by
    rcases formed.unit_child found unit member foundBelow with isClass | isFunction | isStatement
    · exact .inl isClass
    · exact .inr isFunction
    · obtain ⟨production, location⟩ := node
      cases production <;> cases unit
      simp [SyntaxTree.regionAt, foundBelow, isStatement] at noRegion
  by_cases introduces : below.kind.introducesScope = true
  · cases is : below.production with
    | classDeclaration name superclass body =>
      have kind := (registered.class_found formed reachedChild foundBelow is).2.1
      simp [Resolution.isMemberScope, kind, ScopeKind.owner?]
    | functionDeclaration name returnType parameters body =>
      have kind := (registered.function_found formed reachedChild foundBelow is).2.1
      simp [Resolution.isMemberScope, kind, ScopeKind.owner?]
    | block statements =>
      exfalso
      have isBlock : below.kind = .block := by simp [Node.kind, is, Production.kind]
      rcases formed.block_parent found member foundBelow isBlock with
        unit | inBlock | ⟨name, returnType, parameters, isFunction⟩
      · rcases inUnit unit with kind | kind <;> simp [isBlock] at kind
      · obtain ⟨outer, -, bound⟩ := registered.bound formed reached found
        obtain ⟨production, location⟩ := node
        cases production <;> cases inBlock
        obtain ⟨own, facts, scope, foundScope, kind, -⟩ := bound
        simp [Node.kind, Production.kind, Resolution.isMemberScope, Resolution.scopeAt, facts,
          Resolution.scopeKind, foundScope, kind, ScopeKind.owner?] at outside
      · simp [SyntaxTree.regionAt, isFunction] at noRegion
    | _ => simp [Node.kind, is, Production.kind, NodeKind.introducesScope] at introduces
  · rw [registered.scopeAt_child reached link foundBelow (by simpa using introduces)]
    rcases outside with unit | members
    · rcases inUnit unit with kind | kind <;>
        simp [kind, NodeKind.introducesScope] at introduces
    · exact members

/-- The walk over a unit comes to what is local exactly in the order in which the walks over its
regions do. -/
theorem events_filter_isLocal {root : Node} (found : tree.node? tree.root = some root)
    (unit : root.kind = .compilationUnit) :
    ((tree.regions tree.root).flatMap tree.events).filter (fun event => b.isLocal tree event.node) =
      (tree.events tree.root).filter fun event => b.isLocal tree event.node := by
  refine formed.reachable_induction (motive := fun id =>
    (∀ node, tree.node? id = some node →
      node.kind = .compilationUnit ∨ b.isMemberScope (b.scopeAt id) = true) →
    ((tree.regions id).flatMap tree.events).filter (fun event => b.isLocal tree event.node) =
      (tree.events id).filter fun event => b.isLocal tree event.node) ?_ .root ?_
  · intro id node reached found ih outside
    have notLocal : b.isLocal tree id = false := by
      rcases outside node found with unit | members
      · simp [Resolution.isLocal, found, unit]
      · simp [Resolution.isLocal, members]
    rw [formed.events_eq reached found, formed.regions_eq reached found, List.flatMap_assoc,
      List.filter_flatMap, List.cons_append, List.filter_cons_of_neg (by simp [notLocal]),
      List.filter_append, List.filter_flatMap]
    simp only [List.filter_cons, notLocal, List.filter_nil, Bool.false_eq_true, if_false,
      List.append_nil]
    refine List.flatMap_congr fun child member => ?_
    cases isRegion : tree.regionAt node.production child with
    | true => simp
    | false =>
      refine ih child member fun below foundBelow => .inr ?_
      exact registered.member_outside_regions formed reached found (outside node found) member isRegion
  · intro node foundNode
    obtain rfl : root = node := Option.some.inj (found.symm.trans foundNode)
    exact .inl unit

end Registered

theorem SyntaxTree.WellFormed.regions_of_parameter {tree : SyntaxTree} (formed : tree.WellFormed)
    {root : Node} (found : tree.node? tree.root = some root) (kind : root.kind = .formalParameter) :
    tree.regions tree.root = [] := by
  have noRegion {production : Production}
      (part : production.kind = .formalParameter ∨ production.kind.isParameterPart = true)
      (child : NodeId) : tree.regionAt production child = false := by
    cases production <;> simp_all [SyntaxTree.regionAt, Production.kind, NodeKind.isParameterPart,
      NodeKind.isTypeAlternative]
  refine formed.reachable_induction (motive := fun id =>
    (∀ node, tree.node? id = some node →
      node.kind = .formalParameter ∨ node.kind.isParameterPart = true) →
    tree.regions id = []) ?_ .root ?_
  · intro id node reached found ih part
    rw [formed.regions_eq reached found, List.flatMap_eq_nil_iff]
    intro child member
    rw [noRegion (part node found) child]
    exact ih child member fun below foundBelow =>
      .inr (formed.parameter_part found (part node found) member foundBelow)
  · intro node foundNode
    obtain rfl : root = node := Option.some.inj (found.symm.trans foundNode)
    exact .inl kind

end ScriptSemantics
