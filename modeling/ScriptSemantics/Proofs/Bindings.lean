import ScriptSemantics.Proofs.Productions
import ScriptSemantics.Proofs.Registering

/-!
# Scopes of nodes after registration

Every reachable node is bound to a scope that exists. A class and a function find themselves through
their own scope, a parameter finds its function, and the scope of a node never comes before the scope
of a node above it.
-/
namespace ScriptSemantics

namespace Resolution

variable {r : Resolution}

/-- What introduces the scope of a number. -/
def scopeKind (r : Resolution) (scope : ScopeId) : Option ScopeKind :=
  (r.table.scopes[scope.index]?).map Scope.kind

/-- The class or function that the scope of a node belongs to. -/
def ownerAt (r : Resolution) (id : NodeId) : SymbolId :=
  ((r.scopeKind (r.scopeAt id)).bind ScopeKind.owner?).getD ⟨0⟩

def enclosingAt (r : Resolution) (id : NodeId) : ScopeId :=
  ((r.table.scopes[(r.scopeAt id).index]?).bind Scope.enclosing).getD SymbolTable.root

/-- Whether a scope is that of a class or a function. The others hold locals. -/
def isMemberScope (r : Resolution) (scope : ScopeId) : Bool :=
  ((r.scopeKind scope).bind ScopeKind.owner?).isSome

/-- A bound node has a scope that exists, and nothing else is known of it but its symbol. -/
theorem Bound.facts {id : NodeId} {node : Node} {outer : ScopeId} (bound : r.Bound id node outer)
    (known : outer.index < r.table.scopes.size) :
    (r.factsOf id).scope = some (r.scopeAt id) ∧ (r.scopeAt id).index < r.table.scopes.size ∧
      (r.factsOf id).type = none ∧ (r.factsOf id).checked = false := by
  have owner {scopeKind : SymbolId → ScopeKind} {symbolKind : ScopeId → SymbolKind} {name : String}
      (bound : r.BoundOwner scopeKind symbolKind id name node.location outer) :
      (r.factsOf id).scope = some (r.scopeAt id) ∧ (r.scopeAt id).index < r.table.scopes.size ∧
        (r.factsOf id).type = none ∧ (r.factsOf id).checked = false := by
    obtain ⟨own, symbol, facts, ⟨scope, found, -⟩, -⟩ := bound
    have bound := (Array.getElem?_eq_some_iff.mp found).1
    simp [scopeAt, facts, bound]
  unfold Bound at bound
  split at bound
  · exact owner bound
  · exact owner bound
  · obtain ⟨own, facts, scope, found, -⟩ := bound
    have bound := (Array.getElem?_eq_some_iff.mp found).1
    simp [scopeAt, facts, bound]
  · simp [scopeAt, bound, known]

/-- A node without a scope of its own is bound to the scope that it stands in. -/
theorem Bound.plain {id : NodeId} {node : Node} {outer : ScopeId} (bound : r.Bound id node outer)
    (plain : node.kind.introducesScope = false) : r.factsOf id = ⟨some outer, none, none, false⟩ := by
  unfold Bound at bound
  split at bound
  · simp_all [Node.kind, Production.kind, NodeKind.introducesScope]
  · simp_all [Node.kind, Production.kind, NodeKind.introducesScope]
  · simp_all [Node.kind, Production.kind, NodeKind.introducesScope]
  · exact bound

/-- A bound node with a scope of its own has the scope that it stands in around it. -/
theorem Bound.introduced {id : NodeId} {node : Node} {outer : ScopeId} (bound : r.Bound id node outer)
    (introduces : node.kind.introducesScope = true) :
    ∃ scope, r.table.scopes[(r.scopeAt id).index]? = some scope ∧ scope.enclosing = some outer := by
  have owner {scopeKind : SymbolId → ScopeKind} {symbolKind : ScopeId → SymbolKind} {name : String}
      (bound : r.BoundOwner scopeKind symbolKind id name node.location outer) :
      ∃ scope, r.table.scopes[(r.scopeAt id).index]? = some scope ∧
        scope.enclosing = some outer := by
    obtain ⟨own, symbol, facts, ⟨scope, found, -, around⟩, -⟩ := bound
    exact ⟨scope, by simpa [scopeAt, facts] using found, around⟩
  unfold Bound at bound
  cases is : node.production with
  | classDeclaration name superclass body => exact owner (by simpa only [is] using bound)
  | functionDeclaration name returnType parameters body =>
    exact owner (by simpa only [is] using bound)
  | block statements =>
    simp only [is] at bound
    obtain ⟨own, facts, scope, found, -, around⟩ := bound
    exact ⟨scope, by simpa [scopeAt, facts] using found, around⟩
  | _ => simp [Node.kind, is, Production.kind, NodeKind.introducesScope] at introduces

theorem BoundOwner.found {scopeKind : SymbolId → ScopeKind} {symbolKind : ScopeId → SymbolKind}
    {id : NodeId} {name : String} {location : Location} {outer : ScopeId}
    (bound : r.BoundOwner scopeKind symbolKind id name location outer)
    (owner : ∀ symbol, (scopeKind symbol).owner? = some symbol) :
    r.symbolOf id = some (r.ownerAt id) ∧
      r.scopeKind (r.scopeAt id) = some (scopeKind (r.ownerAt id)) ∧
      r.table.symbols[(r.ownerAt id).index]? =
        some ⟨r.ownerAt id, name, symbolKind (r.scopeAt id), r.enclosingAt id, id, location⟩ ∧
      r.enclosingAt id = outer := by
  obtain ⟨own, symbol, facts, ⟨scope, found, kind, around⟩, declared⟩ := bound
  have isScope : r.scopeAt id = own := by simp [scopeAt, facts]
  have isKind : r.scopeKind own = some (scopeKind symbol) := by
    simp [Resolution.scopeKind, found, kind]
  have isOwner : r.ownerAt id = symbol := by simp [ownerAt, isScope, isKind, owner]
  have isOuter : r.enclosingAt id = outer := by simp [enclosingAt, isScope, found, around]
  refine ⟨by simp [symbolOf, facts, isOwner], by rw [isScope, isKind, isOwner], ?_, isOuter⟩
  rw [isOwner, isScope, isOuter]
  exact declared

end Resolution

namespace Registered

variable {tree : SyntaxTree} {b : Resolution} (registered : Registered tree b)
include registered

/-- No two symbols are declared at one node. -/
theorem distinct : b.table.DistinctNodes := by
  intro i j x y foundX foundY same
  have left := registered.declared i x foundX
  rw [same, registered.declared j y foundY, Option.some.injEq] at left
  exact (congrArg SymbolId.index left).symm

theorem root_known : SymbolTable.root.index < b.table.scopes.size := by
  obtain ⟨scope, found, -⟩ := registered.nested.outermost
  exact (Array.getElem?_eq_some_iff.mp found).1

/-- A child without a scope of its own is bound to the scope of its parent. -/
theorem scopeAt_child {parent child : NodeId} {node : Node} (reached : tree.Reachable parent)
    (link : tree.HasChild parent child) (found : tree.node? child = some node)
    (plain : node.kind.introducesScope = false) : b.scopeAt child = b.scopeAt parent := by
  have facts := (registered.child parent child node reached link found).plain plain
  simp [Resolution.scopeAt, facts]

/-- The root, unless it has a scope of its own, is bound to the namespace. -/
theorem scopeAt_root {node : Node} (found : tree.node? tree.root = some node)
    (plain : node.kind.introducesScope = false) : b.scopeAt tree.root = SymbolTable.root := by
  have facts := (registered.root node found).plain plain
  simp [Resolution.scopeAt, facts]

theorem scopeKind_root : ∃ name, b.scopeKind SymbolTable.root = some (.namespaceScope name) := by
  obtain ⟨scope, found, -⟩ := registered.nested.outermost
  obtain ⟨name, kind⟩ := (registered.nested.namespace_iff 0 scope found).mpr rfl
  exact ⟨name, by simp [Resolution.scopeKind, SymbolTable.root, found, kind]⟩

variable (formed : tree.WellFormed)
include formed

theorem facts {id : NodeId} (reached : tree.Reachable id) :
    (b.factsOf id).scope = some (b.scopeAt id) ∧ (b.scopeAt id).index < b.table.scopes.size ∧
      (b.factsOf id).type = none ∧ (b.factsOf id).checked = false := by
  obtain ⟨distance, path⟩ := reached
  induction path with
  | refl =>
    obtain ⟨node, found⟩ := formed.reachable_node .root
    exact (registered.root node found).facts registered.root_known
  | @step distance parent child path link ih =>
    obtain ⟨node, found⟩ := formed.child_node link
    exact (registered.child parent child node ⟨_, path⟩ link found).facts ih.2.1

theorem scope_known {id : NodeId} (reached : tree.Reachable id) :
    (b.scopeAt id).index < b.table.scopes.size := (registered.facts formed reached).2.1

/-- Every reachable node is bound in a scope that exists. -/
theorem bound {id : NodeId} {node : Node} (reached : tree.Reachable id)
    (found : tree.node? id = some node) :
    ∃ outer, outer.index < b.table.scopes.size ∧ b.Bound id node outer := by
  by_cases isRoot : id = tree.root
  · subst isRoot
    exact ⟨_, registered.root_known, registered.root node found⟩
  · obtain ⟨parent, above, reachedParent, foundParent, member⟩ := reached.exists_parent isRoot
    exact ⟨_, registered.scope_known formed reachedParent,
      registered.child parent id node reachedParent ⟨above, foundParent, member⟩ found⟩

theorem unresolved (id : NodeId) : (b.factsOf id).type = none ∧ (b.factsOf id).checked = false := by
  by_cases reached : tree.Reachable id
  · exact (registered.facts formed reached).2.2
  · simp [registered.unreached id reached, NodeFacts.unknown]

theorem symbolOf_plain {id : NodeId} {node : Node} (reached : tree.Reachable id)
    (found : tree.node? id = some node) (plain : node.kind.introducesScope = false) :
    b.symbolOf id = none := by
  obtain ⟨outer, -, bound⟩ := registered.bound formed reached found
  simp [Resolution.symbolOf, bound.plain plain]

/-- The scope of a node does not come before the scope of a node above it. -/
theorem scopeAt_le {top id : NodeId} (reached : tree.Reachable top) (path : tree.Within top id) :
    (b.scopeAt top).index ≤ (b.scopeAt id).index := by
  obtain ⟨distance, path⟩ := path
  induction path with
  | refl => exact Nat.le_refl _
  | @step distance parent child path link ih =>
    have reachedParent : tree.Reachable parent := reached.within ⟨_, path⟩
    obtain ⟨node, found⟩ := formed.child_node link
    have bound := registered.child parent child node reachedParent link found
    by_cases introduces : node.kind.introducesScope = true
    · obtain ⟨scope, foundScope, around⟩ := bound.introduced introduces
      have := registered.nested.enclosing_lt foundScope around
      omega
    · rw [registered.scopeAt_child reachedParent link found (by simpa using introduces)]
      exact ih

/-- A function is found through its own scope, and so is the scope around it. -/
theorem function_found {id body : NodeId} {node : Node} {name : String} {returnType : Option NodeId}
    {parameters : List NodeId} (reached : tree.Reachable id) (found : tree.node? id = some node)
    (is : node.production = .functionDeclaration name returnType parameters body) :
    b.symbolOf id = some (b.ownerAt id) ∧
      b.scopeKind (b.scopeAt id) = some (.functionScope (b.ownerAt id)) ∧
      b.table.symbols[(b.ownerAt id).index]? = some ⟨b.ownerAt id, name,
        .function (b.scopeAt id) none [], b.enclosingAt id, id, node.location⟩ ∧
      (b.enclosingAt id).index < b.table.scopes.size := by
  obtain ⟨outer, known, bound⟩ := registered.bound formed reached found
  unfold Resolution.Bound at bound
  rw [is] at bound
  obtain ⟨symbol, kind, declared, around⟩ := bound.found fun _ => rfl
  exact ⟨symbol, kind, declared, around ▸ known⟩

theorem class_found {id : NodeId} {node : Node} {name : String} {superclass : Option NodeId}
    {body : List NodeId} (reached : tree.Reachable id) (found : tree.node? id = some node)
    (is : node.production = .classDeclaration name superclass body) :
    b.symbolOf id = some (b.ownerAt id) ∧
      b.scopeKind (b.scopeAt id) = some (.classScope (b.ownerAt id)) ∧
      b.table.symbols[(b.ownerAt id).index]? = some ⟨b.ownerAt id, name,
        .classType (b.scopeAt id) none, b.enclosingAt id, id, node.location⟩ ∧
      (b.enclosingAt id).index < b.table.scopes.size := by
  obtain ⟨outer, known, bound⟩ := registered.bound formed reached found
  unfold Resolution.Bound at bound
  rw [is] at bound
  obtain ⟨symbol, kind, declared, around⟩ := bound.found fun _ => rfl
  exact ⟨symbol, kind, declared, around ▸ known⟩

theorem symbol_known {id : NodeId} {symbol : SymbolId} (declares : b.symbolOf id = some symbol) :
    symbol.index < b.table.symbols.size := by
  have owner {scopeKind : SymbolId → ScopeKind} {symbolKind : ScopeId → SymbolKind} {name : String}
      {location : Location} {outer : ScopeId}
      (bound : b.BoundOwner scopeKind symbolKind id name location outer) :
      symbol.index < b.table.symbols.size := by
    obtain ⟨own, other, facts, -, found⟩ := bound
    rw [Resolution.symbolOf, facts, Option.some.injEq] at declares
    subst declares
    exact (Array.getElem?_eq_some_iff.mp found).1
  by_cases reached : tree.Reachable id
  · obtain ⟨node, found⟩ := formed.reachable_node reached
    obtain ⟨outer, -, bound⟩ := registered.bound formed reached found
    unfold Resolution.Bound at bound
    split at bound
    · exact owner bound
    · exact owner bound
    · obtain ⟨own, facts, -⟩ := bound
      rw [Resolution.symbolOf, facts] at declares
      cases declares
    · rw [Resolution.symbolOf, bound] at declares
      cases declares
  · rw [Resolution.symbolOf, registered.unreached id reached] at declares
    cases declares

/-- A symbol is declared at a reachable class or function, which it is the symbol of. -/
theorem symbol {i : Nat} {symbol : Symbol} (found : b.table.symbols[i]? = some symbol) :
    tree.Reachable symbol.node ∧ b.symbolOf symbol.node = some ⟨i⟩ ∧
      ∃ node, tree.node? symbol.node = some node ∧
        ((∃ superclass body,
            node.production = .classDeclaration symbol.name superclass body ∧
              symbol.kind = .classType (b.scopeAt symbol.node) none) ∨
          ∃ returnType parameters body,
            node.production = .functionDeclaration symbol.name returnType parameters body ∧
              symbol.kind = .function (b.scopeAt symbol.node) none []) := by
  have declared := registered.declared i symbol found
  have reached : tree.Reachable symbol.node := by
    by_contra away
    rw [Resolution.symbolOf, registered.unreached _ away] at declared
    cases declared
  obtain ⟨node, foundNode⟩ := formed.reachable_node reached
  refine ⟨reached, declared, node, foundNode, ?_⟩
  cases is : node.production with
  | classDeclaration name superclass body =>
    obtain ⟨symbolOf, -, isSymbol, -⟩ := registered.class_found formed reached foundNode is
    rw [declared, Option.some.injEq] at symbolOf
    rw [← symbolOf, found, Option.some.injEq] at isSymbol
    refine .inl ⟨superclass, body, ?_, ?_⟩ <;> rw [isSymbol]
  | functionDeclaration name returnType parameters body =>
    obtain ⟨symbolOf, -, isSymbol, -⟩ := registered.function_found formed reached foundNode is
    rw [declared, Option.some.injEq] at symbolOf
    rw [← symbolOf, found, Option.some.injEq] at isSymbol
    refine .inr ⟨returnType, parameters, body, ?_, ?_⟩ <;> rw [isSymbol]
  | block statements =>
    obtain ⟨outer, -, bound⟩ := registered.bound formed reached foundNode
    unfold Resolution.Bound at bound
    rw [is] at bound
    obtain ⟨own, facts, -⟩ := bound
    rw [Resolution.symbolOf, facts] at declared
    cases declared
  | _ =>
    rw [registered.symbolOf_plain formed reached foundNode
      (by simp [Node.kind, is, Production.kind, NodeKind.introducesScope])] at declared
    cases declared

/-- A parameter stands in the scope of the function that lists it. -/
theorem parameter {id : NodeId} {node : Node} (reached : tree.Reachable id)
    (found : tree.node? id = some node) (kind : node.kind = .formalParameter)
    (inner : id ≠ tree.root) :
    ∃ parent above name returnType parameters body, tree.Reachable parent ∧
      tree.node? parent = some above ∧
      above.production = .functionDeclaration name returnType parameters body ∧ id ∈ parameters ∧
      b.scopeAt id = b.scopeAt parent ∧
      b.scopeKind (b.scopeAt id) = some (.functionScope (b.ownerAt parent)) := by
  obtain ⟨parent, above, name, returnType, parameters, body, reachedParent, foundParent, is, member⟩ :=
    formed.parameter_parent reached found kind inner
  have link : tree.HasChild parent id :=
    ⟨above, foundParent, by simp [Node.children, is, Production.children, member]⟩
  have scope : b.scopeAt id = b.scopeAt parent :=
    registered.scopeAt_child reachedParent link found
      (by simp [kind, NodeKind.introducesScope])
  refine ⟨parent, above, name, returnType, parameters, body, reachedParent, foundParent, is, member,
    scope, ?_⟩
  rw [scope]
  exact (registered.function_found formed reachedParent foundParent is).2.1

/-- A declaration statement does not stand in the scope of a function. -/
theorem statement_scope {id : NodeId} {node : Node} (reached : tree.Reachable id)
    (found : tree.node? id = some node) (kind : node.kind = .variableDeclarators)
    (symbol : SymbolId) : b.scopeKind (b.scopeAt id) ≠ some (.functionScope symbol) := by
  have plain : node.kind.introducesScope = false := by simp [kind, NodeKind.introducesScope]
  obtain ⟨name, namespaceKind⟩ := registered.scopeKind_root
  by_cases isRoot : id = tree.root
  · subst isRoot
    rw [registered.scopeAt_root found plain, namespaceKind]
    simp
  · obtain ⟨parent, above, reachedParent, foundParent, member, kinds⟩ :=
      formed.statement_parent reached found kind isRoot
    rw [registered.scopeAt_child reachedParent ⟨above, foundParent, member⟩ found plain]
    obtain ⟨production, location⟩ := above
    rcases kinds with unit | isClass | isBlock
    · obtain rfl := formed.unit_is_root reachedParent foundParent unit
      rw [registered.scopeAt_root foundParent (by simp [unit, NodeKind.introducesScope]),
        namespaceKind]
      simp
    · cases production <;> cases isClass
      rw [(registered.class_found formed reachedParent foundParent rfl).2.1]
      simp
    · cases production <;> cases isBlock
      obtain ⟨outer, -, own, facts, scope, foundScope, blockKind, -⟩ :=
        registered.bound formed reachedParent foundParent
      simp [Resolution.scopeAt, facts, Resolution.scopeKind, foundScope, blockKind]

end Registered

end ScriptSemantics
