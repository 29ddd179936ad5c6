import ScriptSemantics.Proofs.Lookups
import ScriptSemantics.Proofs.Traversal
import ScriptSemantics.Scoping

/-!
# What registration leaves behind

Registration never stops on a well-formed tree. Every reachable node is bound: a class, a function or
a block to a new scope of its own, which stands in the scope of the node's parent, and any other node
to the scope of its parent. The root stands in the namespace. Nodes that the root does not reach are
left alone.
-/
namespace ScriptSemantics

namespace Resolution

variable {r : Resolution}

/-- The resolution with what is known of one node changed. -/
def withFacts (r : Resolution) (id : NodeId) (change : NodeFacts → NodeFacts) : Resolution :=
  { r with facts := r.facts.modify id.index change }

theorem updateFacts_eq_ok {id : NodeId} (known : id.index < r.facts.size)
    (change : NodeFacts → NodeFacts) : r.updateFacts id change = .ok (r.withFacts id change) := by
  have found : r.facts[id.index]? = some r.facts[id.index] := by simp [known]
  simp only [updateFacts, found, orDangling_some, ok_bind, pure, Except.pure, withFacts,
    SymbolTable.modify_eq_setIfInBounds found]

theorem withFacts_size (id : NodeId) (change : NodeFacts → NodeFacts) :
    (r.withFacts id change).facts.size = r.facts.size := by simp [withFacts]

/-- Writing to a node changes what is known of it and of no other node. -/
theorem factsOf_withFacts {id : NodeId} (known : id.index < r.facts.size)
    (change : NodeFacts → NodeFacts) (other : NodeId) : (r.withFacts id change).factsOf other =
      if other = id then change (r.factsOf id) else r.factsOf other := by
  simp only [factsOf, withFacts, Array.getElem?_modify]
  by_cases same : other = id
  · subst same
    simp [known]
  · have : id.index ≠ other.index := fun equal => same (congrArg NodeId.mk equal.symm)
    simp [this, same]

/-- A check marks the node and tells whether it was marked before. -/
theorem checkOnce_eq_ok_iff {id : NodeId} {first : Bool} {marked : Resolution} :
    r.checkOnce id = .ok (first, marked) ↔ id.index < r.facts.size ∧
      first = !(r.factsOf id).checked ∧
      marked = r.withFacts id fun facts => { facts with checked := true } := by
  by_cases known : id.index < r.facts.size
  · have found : r.facts[id.index]? = some r.facts[id.index] := by simp [known]
    simp only [checkOnce, factsOf, found, orDangling_some, ok_bind, updateFacts_eq_ok known,
      Option.getD_some, pure, Except.pure, Except.ok.injEq, Prod.mk.injEq, known, true_and]
    exact and_congr eq_comm eq_comm
  · simp [checkOnce, known]

/-- The scope that a node is bound to, the namespace if it is bound to none. -/
def scopeAt (r : Resolution) (id : NodeId) : ScopeId :=
  (r.factsOf id).scope.getD SymbolTable.root

/-- A node has a scope and a symbol of its own, which belong to each other. -/
def BoundOwner (r : Resolution) (scopeKind : SymbolId → ScopeKind) (symbolKind : ScopeId → SymbolKind)
    (id : NodeId) (name : String) (location : Location) (outer : ScopeId) : Prop :=
  ∃ own symbol, r.factsOf id = ⟨some own, some symbol, none, false⟩ ∧
    (∃ scope, r.table.scopes[own.index]? = some scope ∧ scope.kind = scopeKind symbol ∧
      scope.enclosing = some outer) ∧
    r.table.symbols[symbol.index]? = some ⟨symbol, name, symbolKind own, outer, id, location⟩

/-- A node is bound as registration binds one that stands in the given scope. -/
def Bound (r : Resolution) (id : NodeId) (node : Node) (outer : ScopeId) : Prop :=
  match node.production with
  | .classDeclaration name _ _ =>
    r.BoundOwner .classScope (.classType · none) id name node.location outer
  | .functionDeclaration name _ _ _ =>
    r.BoundOwner .functionScope (.function · none []) id name node.location outer
  | .block _ => ∃ own, r.factsOf id = ⟨some own, none, none, false⟩ ∧
    ∃ scope, r.table.scopes[own.index]? = some scope ∧ scope.kind = .blockScope ∧
      scope.enclosing = some outer
  | _ => r.factsOf id = ⟨some outer, none, none, false⟩

/-- The later resolution has the scopes and symbols of the earlier one, listings and blocks apart. -/
structure Grows (before after : Resolution) : Prop where
  scope : ∀ (i : Nat) (scope : Scope), before.table.scopes[i]? = some scope →
    ∃ later, after.table.scopes[i]? = some later ∧ later.kind = scope.kind ∧
      later.enclosing = scope.enclosing
  symbol : ∀ (i : Nat) (symbol : Symbol), before.table.symbols[i]? = some symbol →
    after.table.symbols[i]? = some symbol

theorem Grows.refl (r : Resolution) : Grows r r :=
  ⟨fun _ scope found => ⟨scope, found, rfl, rfl⟩, fun _ _ found => found⟩

theorem Grows.trans {a b c : Resolution} (first : Grows a b) (second : Grows b c) : Grows a c where
  scope i scope found := by
    obtain ⟨between, foundBetween, kind, around⟩ := first.scope i scope found
    obtain ⟨later, foundLater, laterKind, laterAround⟩ := second.scope i between foundBetween
    exact ⟨later, foundLater, laterKind.trans kind, laterAround.trans around⟩
  symbol i symbol found := second.symbol i symbol (first.symbol i symbol found)

theorem Grows.known {a b : Resolution} (grows : Grows a b) {scope : ScopeId}
    (known : scope.index < a.table.scopes.size) : scope.index < b.table.scopes.size := by
  obtain ⟨s, found⟩ := SymbolTable.scope_exists known
  obtain ⟨later, foundLater, -⟩ := grows.scope _ s found
  exact (Array.getElem?_eq_some_iff.mp foundLater).1

/-- A bound node stays bound as long as nothing is written to it. -/
theorem Bound.grows {later : Resolution} {id : NodeId} {node : Node} {outer : ScopeId}
    (bound : r.Bound id node outer) (grows : Grows r later)
    (same : later.factsOf id = r.factsOf id) : later.Bound id node outer := by
  have owner {scopeKind : SymbolId → ScopeKind} {symbolKind : ScopeId → SymbolKind} {name : String}
      (bound : r.BoundOwner scopeKind symbolKind id name node.location outer) :
      later.BoundOwner scopeKind symbolKind id name node.location outer := by
    obtain ⟨own, symbol, facts, ⟨scope, found, kind, around⟩, declared⟩ := bound
    obtain ⟨s, foundLater, laterKind, laterAround⟩ := grows.scope _ scope found
    exact ⟨own, symbol, same.trans facts,
      ⟨s, foundLater, laterKind.trans kind, laterAround.trans around⟩,
      grows.symbol _ _ declared⟩
  unfold Bound at bound ⊢
  split at bound
  · exact owner bound
  · exact owner bound
  · obtain ⟨own, facts, scope, found, kind, around⟩ := bound
    obtain ⟨s, foundLater, laterKind, laterAround⟩ := grows.scope _ scope found
    exact ⟨own, same.trans facts, s, foundLater, laterKind.trans kind, laterAround.trans around⟩
  · exact same.trans bound

end Resolution

namespace Registration

variable {tree : SyntaxTree} {s : Registration}

/-- A registration that can go on: its stores fit together, and the open scopes exist. -/
structure Ready (tree : SyntaxTree) (s : Registration) : Prop where
  size : s.resolution.facts.size = tree.size
  functions : s.resolution.types.functions = #[]
  diagnostics : s.resolution.diagnostics = #[]
  ordered : s.resolution.table.Ordered
  nested : s.resolution.table.Nested
  owned : s.resolution.table.Owned
  opened : s.opened ≠ []
  known : ∀ scope ∈ s.opened, scope.index < s.resolution.table.scopes.size
  declared : ∀ (i : Nat) (symbol : Symbol), s.resolution.table.symbols[i]? = some symbol →
    s.resolution.symbolOf symbol.node = some ⟨i⟩
  fresh : ∀ (i : Nat) (symbol : Symbol), s.resolution.table.symbols[i]? = some symbol →
    (∃ own, symbol.kind = .classType own none) ∨ ∃ own, symbol.kind = .function own none []

theorem Ready.current_known (ready : s.Ready tree) :
    s.current.index < s.resolution.table.scopes.size := by
  obtain ⟨scope, rest, opened⟩ := List.exists_cons_of_ne_nil ready.opened
  exact ready.known _ (by simp [current, opened])

/-- What one step does: the registration can still go on, its stores have grown, and nothing was
written but to the node. -/
structure Entered (tree : SyntaxTree) (s : Registration) (id : NodeId) (node : Node)
    (after : Registration) : Prop where
  ready : after.Ready tree
  grows : Resolution.Grows s.resolution after.resolution
  elsewhere : ∀ other, other ≠ id → after.resolution.factsOf other = s.resolution.factsOf other
  bound : after.resolution.Bound id node s.current
  opened : after.opened =
    if node.kind.introducesScope then after.resolution.scopeAt id :: s.opened else s.opened
  current : after.current = after.resolution.scopeAt id

/-- The registration after a class or a function was declared and bound to its new scope. -/
def withOwner (s : Registration) (types : TypeTable) (scopeKind : SymbolId → ScopeKind)
    (symbolKind : ScopeId → SymbolKind) (id : NodeId) (name : String) (location : Location) :
    Registration :=
  let table := s.resolution.table
  let declared := { s.resolution with
    table := table.withOwner scopeKind symbolKind s.current name id location, types := types }
  ⟨(declared.withFacts id fun facts => { facts with symbol := some table.nextSymbol }).withFacts id
      fun facts => { facts with scope := some table.nextScope },
    table.nextScope :: s.opened⟩

section WithOwner

variable {types : TypeTable} {scopeKind : SymbolId → ScopeKind} {symbolKind : ScopeId → SymbolKind}
  {id : NodeId} (name : String) (location : Location)

theorem factsOf_withOwner (ready : s.Ready tree) (here : id.index < tree.size)
    (unknown : s.resolution.factsOf id = .unknown) (other : NodeId) :
    (s.withOwner types scopeKind symbolKind id name location).resolution.factsOf other =
      if other = id then
        ⟨some s.resolution.table.nextScope, some s.resolution.table.nextSymbol, none, false⟩
      else s.resolution.factsOf other := by
  have size := ready.size
  unfold withOwner
  rw [Resolution.factsOf_withFacts (by rw [Resolution.withFacts_size]; exact size ▸ here),
    Resolution.factsOf_withFacts (by exact size ▸ here),
    Resolution.factsOf_withFacts (by exact size ▸ here)]
  simp only [if_true]
  have same : ({ s.resolution with
      table := s.resolution.table.withOwner scopeKind symbolKind s.current name id location,
      types := types } : Resolution).factsOf = s.resolution.factsOf := rfl
  rw [same, unknown]
  split <;> rfl

theorem grows_withOwner :
    Resolution.Grows s.resolution
      (s.withOwner types scopeKind symbolKind id name location).resolution where
  scope _ _ found := SymbolTable.withOwner_old_scope name id location found
  symbol i symbol found := by
    have bound := (Array.getElem?_eq_some_iff.mp found).1
    exact (SymbolTable.withOwner_symbols name id location i).trans (by rw [if_neg (by omega), found])

/-- A class or function is declared: the registration can go on, and the node is bound. -/
theorem Ready.withOwner (ready : s.Ready tree) (here : id.index < tree.size)
    (unknown : s.resolution.factsOf id = .unknown) (functions : types.functions = #[])
    (owner : ∀ id, (scopeKind id).owner? = some id)
    (own : ∀ scope, (symbolKind scope).ownScope = some scope)
    (sort : ∀ id scope, (scopeKind id).isClass = (symbolKind scope).isClass)
    (fresh : ∀ scope, (∃ own, symbolKind scope = .classType own none) ∨
      ∃ own, symbolKind scope = .function own none []) :
    (s.withOwner types scopeKind symbolKind id name location).Ready tree where
  size := by
    simp only [Registration.withOwner, Resolution.withFacts_size]
    exact ready.size
  functions := functions
  diagnostics := ready.diagnostics
  ordered := ready.ordered.withOwner name id location ready.current_known.le
  nested := ready.nested.withOwner name id location ready.current_known owner
  owned := ready.owned.withOwner name id location owner own sort
  opened := by simp [Registration.withOwner]
  known scope member := by
    rcases List.mem_cons.mp member with rfl | member
    · obtain ⟨new, found, -⟩ := @SymbolTable.withOwner_new_scope s.resolution.table
        scopeKind symbolKind s.current name id location
      exact (Array.getElem?_eq_some_iff.mp found).1
    · exact (grows_withOwner name location).known (ready.known scope member)
  declared i symbol found := by
    rw [Resolution.symbolOf, factsOf_withOwner name location ready here unknown]
    change (s.resolution.table.withOwner _ _ _ _ _ _).symbols[i]? = some symbol at found
    rw [SymbolTable.withOwner_symbols] at found
    split at found
    next last =>
      cases found
      simp [SymbolTable.nextSymbol, last]
    next =>
      have declared := ready.declared i symbol found
      rw [Resolution.symbolOf] at declared
      by_cases same : symbol.node = id
      · rw [same, unknown] at declared
        cases declared
      · rw [if_neg same, declared]
  fresh i symbol found := by
    change (s.resolution.table.withOwner _ _ _ _ _ _).symbols[i]? = some symbol at found
    rw [SymbolTable.withOwner_symbols] at found
    split at found
    · cases found
      exact fresh _
    · exact ready.fresh i symbol found

theorem boundOwner_withOwner (ready : s.Ready tree) (here : id.index < tree.size)
    (unknown : s.resolution.factsOf id = .unknown) :
    (s.withOwner types scopeKind symbolKind id name location).resolution.BoundOwner scopeKind
      symbolKind id name location s.current := by
  refine ⟨_, _, (factsOf_withOwner name location ready here unknown id).trans (if_pos rfl),
    SymbolTable.withOwner_new_scope name id location, ?_⟩
  exact (SymbolTable.withOwner_symbols name id location _).trans (if_pos rfl)

end WithOwner

/-- The registration after a block was added and bound to its new scope. -/
def withBlock (s : Registration) (id : NodeId) : Registration :=
  let table := s.resolution.table
  ⟨({ s.resolution with table := table.withBlock s.current }).withFacts id
      fun facts => { facts with scope := some table.nextScope },
    table.nextScope :: s.opened⟩

section WithBlock

variable {id : NodeId}

theorem factsOf_withBlock (ready : s.Ready tree) (here : id.index < tree.size)
    (unknown : s.resolution.factsOf id = .unknown) (other : NodeId) :
    (s.withBlock id).resolution.factsOf other =
      if other = id then ⟨some s.resolution.table.nextScope, none, none, false⟩
      else s.resolution.factsOf other := by
  have same : ({ s.resolution with table := s.resolution.table.withBlock s.current } :
      Resolution).factsOf = s.resolution.factsOf := rfl
  unfold withBlock
  rw [Resolution.factsOf_withFacts (by exact ready.size ▸ here), same, unknown]
  split <;> rfl

theorem grows_withBlock : Resolution.Grows s.resolution (s.withBlock id).resolution where
  scope _ _ found := SymbolTable.withBlock_opens.old_scope found
  symbol _ _ found := found

theorem Ready.withBlock (ready : s.Ready tree) (here : id.index < tree.size)
    (unknown : s.resolution.factsOf id = .unknown) : (s.withBlock id).Ready tree where
  size := by
    simp only [Registration.withBlock, Resolution.withFacts_size]
    exact ready.size
  functions := ready.functions
  diagnostics := ready.diagnostics
  ordered := ready.ordered.withBlock _
  nested := ready.nested.withBlock ready.current_known
  owned := ready.owned.withBlock _
  opened := by simp [Registration.withBlock]
  known scope member := by
    rcases List.mem_cons.mp member with rfl | member
    · exact (Array.getElem?_eq_some_iff.mp
        (SymbolTable.withBlock_new_scope ready.current_known)).1
    · exact grows_withBlock.known (ready.known scope member)
  declared i symbol found := by
    have declared := ready.declared i symbol found
    rw [Resolution.symbolOf] at declared ⊢
    rw [factsOf_withBlock ready here unknown]
    by_cases same : symbol.node = id
    · rw [same, unknown] at declared
      cases declared
    · rw [if_neg same, declared]
  fresh := ready.fresh

end WithBlock

/-- The registration after a node without a scope of its own was bound. -/
def withNode (s : Registration) (id : NodeId) : Registration :=
  ⟨s.resolution.withFacts id fun facts => { facts with scope := some s.current }, s.opened⟩

theorem factsOf_withNode {id : NodeId} (ready : s.Ready tree) (here : id.index < tree.size)
    (unknown : s.resolution.factsOf id = .unknown) (other : NodeId) :
    (s.withNode id).resolution.factsOf other =
      if other = id then ⟨some s.current, none, none, false⟩ else s.resolution.factsOf other := by
  unfold withNode
  rw [Resolution.factsOf_withFacts (by exact ready.size ▸ here), unknown]
  split <;> rfl

theorem Ready.withNode {id : NodeId} (ready : s.Ready tree) (here : id.index < tree.size)
    (unknown : s.resolution.factsOf id = .unknown) : (s.withNode id).Ready tree where
  size := by
    simp only [Registration.withNode, Resolution.withFacts_size]
    exact ready.size
  functions := ready.functions
  diagnostics := ready.diagnostics
  ordered := ready.ordered
  nested := ready.nested
  owned := ready.owned
  opened := ready.opened
  known := ready.known
  declared i symbol found := by
    have declared := ready.declared i symbol found
    rw [Resolution.symbolOf] at declared ⊢
    rw [factsOf_withNode ready here unknown]
    by_cases same : symbol.node = id
    · rw [same, unknown] at declared
      cases declared
    · rw [if_neg same, declared]
  fresh := ready.fresh

theorem current_eq_scopeAt {r : Resolution} {id : NodeId} {scope : ScopeId}
    (bound : (r.factsOf id).scope = some scope) (opened : List ScopeId) :
    (⟨r, scope :: opened⟩ : Registration).current = r.scopeAt id := by
  simp [current, Resolution.scopeAt, bound]

/-- A class and a function are entered alike: the symbol is noted, then the scope is opened. -/
theorem Ready.openOwner_eq_ok (ready : s.Ready tree) {id : NodeId} (here : id.index < tree.size)
    (types : TypeTable) (scopeKind : SymbolId → ScopeKind) (symbolKind : ScopeId → SymbolKind)
    (name : String) (location : Location) :
    (do
      let noted ← ({ s.resolution with
        table := s.resolution.table.withOwner scopeKind symbolKind s.current name id location,
        types := types } : Resolution).setSymbol id s.resolution.table.nextSymbol
      s.openScope noted id s.resolution.table.nextScope) =
      .ok (s.withOwner types scopeKind symbolKind id name location) := by
  have inRange : id.index < s.resolution.facts.size := ready.size ▸ here
  simp only [Resolution.setSymbol, openScope, Resolution.setScope]
  rw [Resolution.updateFacts_eq_ok (by exact inRange)]
  simp only [ok_bind]
  rw [Resolution.updateFacts_eq_ok (by rw [Resolution.withFacts_size]; exact inRange)]
  rfl

/-- What entering an owner leaves, whichever sort of owner it is. -/
theorem Ready.entered_owner (ready : s.Ready tree) {id : NodeId} {node : Node}
    (here : id.index < tree.size) (unknown : s.resolution.factsOf id = .unknown)
    {types : TypeTable} {scopeKind : SymbolId → ScopeKind} {symbolKind : ScopeId → SymbolKind}
    {name : String} (functions : types.functions = #[])
    (owner : ∀ id, (scopeKind id).owner? = some id)
    (own : ∀ scope, (symbolKind scope).ownScope = some scope)
    (sort : ∀ id scope, (scopeKind id).isClass = (symbolKind scope).isClass)
    (fresh : ∀ scope, (∃ own, symbolKind scope = .classType own none) ∨
      ∃ own, symbolKind scope = .function own none [])
    (introduces : node.kind.introducesScope = true)
    (binds : ∀ r : Resolution, r.BoundOwner scopeKind symbolKind id name node.location s.current →
      r.Bound id node s.current) :
    Entered tree s id node (s.withOwner types scopeKind symbolKind id name node.location) := by
  have facts := @factsOf_withOwner tree s types scopeKind symbolKind id name node.location ready
    here unknown
  have bound := (congrArg NodeFacts.scope (facts id)).trans (by rw [if_pos rfl])
  exact
    { ready := ready.withOwner name node.location here unknown functions owner own sort fresh
      grows := grows_withOwner name node.location
      elsewhere := fun other different => (facts other).trans (if_neg different)
      bound := binds _ (boundOwner_withOwner name node.location ready here unknown)
      opened := by
        rw [introduces, if_pos rfl, ← current_eq_scopeAt bound s.opened]
        rfl
      current := current_eq_scopeAt bound s.opened }

theorem Ready.entered_block (ready : s.Ready tree) {id : NodeId} {node : Node}
    (here : id.index < tree.size) (unknown : s.resolution.factsOf id = .unknown)
    {statements : List NodeId} (production : node.production = .block statements) :
    Entered tree s id node (s.withBlock id) := by
  have facts := factsOf_withBlock ready here unknown
  have bound := (congrArg NodeFacts.scope (facts id)).trans (by rw [if_pos rfl])
  exact
    { ready := ready.withBlock here unknown
      grows := grows_withBlock
      elsewhere := fun other different => (facts other).trans (if_neg different)
      bound := by
        simp only [Resolution.Bound, production]
        exact ⟨_, (facts id).trans (if_pos rfl), _,
          SymbolTable.withBlock_new_scope ready.current_known, rfl, rfl⟩
      opened := by
        rw [← current_eq_scopeAt bound s.opened]
        simp [Node.kind, production, Production.kind, NodeKind.introducesScope, current,
          Registration.withBlock]
      current := current_eq_scopeAt bound s.opened }

theorem Ready.entered_plain (ready : s.Ready tree) {id : NodeId} {node : Node}
    (here : id.index < tree.size) (unknown : s.resolution.factsOf id = .unknown)
    (introduces : node.kind.introducesScope = false)
    (binds : ∀ r : Resolution, r.factsOf id = ⟨some s.current, none, none, false⟩ →
      r.Bound id node s.current) : Entered tree s id node (s.withNode id) := by
  have facts := factsOf_withNode ready here unknown
  have bound := (facts id).trans (if_pos rfl)
  exact
    { ready := ready.withNode here unknown
      grows := ⟨(Resolution.Grows.refl _).scope, (Resolution.Grows.refl _).symbol⟩
      elsewhere := fun other different => (facts other).trans (if_neg different)
      bound := binds _ bound
      opened := by
        rw [introduces]
        rfl
      current := by
        rw [Resolution.scopeAt, bound]
        rfl }

/-- Entering a node that nothing is known of never stops, and binds it. -/
theorem Ready.enter (ready : s.Ready tree) {id : NodeId} (node : Node) (here : id.index < tree.size)
    (unknown : s.resolution.factsOf id = .unknown) :
    ∃ after, s.enter id node = .ok after ∧ Entered tree s id node after := by
  have inRange : id.index < s.resolution.facts.size := ready.size ▸ here
  cases production : node.production with
  | classDeclaration name superclass body =>
    let types := s.resolution.types.register (.classType s.resolution.table.nextScope)
    refine ⟨s.withOwner types .classScope (.classType · none) id name node.location, ?_,
      ready.entered_owner here unknown ?_ (fun _ => rfl) (fun _ => rfl) (fun _ _ => rfl)
        (fun scope => .inl ⟨scope, rfl⟩) ?_ ?_⟩
    · simp only [Registration.enter, production,
        SymbolTable.declareClass_eq_ok ready.current_known.le, ok_bind]
      exact ready.openOwner_eq_ok here _ _ _ name node.location
    · unfold types TypeTable.register
      split <;> exact ready.functions
    · simp [Node.kind, production, Production.kind, NodeKind.introducesScope]
    · simp only [Resolution.Bound, production, imp_self, implies_true]
  | functionDeclaration name returnType parameters body =>
    refine ⟨s.withOwner s.resolution.types .functionScope (.function · none []) id name
        node.location, ?_,
      ready.entered_owner here unknown ready.functions (fun _ => rfl) (fun _ => rfl)
        (fun _ _ => rfl) (fun scope => .inr ⟨scope, rfl⟩) ?_ ?_⟩
    · simp only [Registration.enter, production,
        SymbolTable.declareFunction_eq_ok ready.current_known.le, ok_bind]
      exact ready.openOwner_eq_ok here _ _ _ name node.location
    · simp [Node.kind, production, Production.kind, NodeKind.introducesScope]
    · simp only [Resolution.Bound, production, imp_self, implies_true]
  | block statements =>
    refine ⟨_, ?_, ready.entered_block here unknown production⟩
    simp only [Registration.enter, production,
      SymbolTable.pushBlock_eq_ok ready.current_known.le, ok_bind, Resolution.setScope, openScope]
    rw [Resolution.updateFacts_eq_ok (by exact inRange)]
    rfl
  | _ =>
    refine ⟨s.withNode id, ?_, ready.entered_plain here unknown ?_ ?_⟩
    · simp only [Registration.enter, production, Resolution.setScope]
      rw [Resolution.updateFacts_eq_ok inRange]
      rfl
    · simp [Node.kind, production, Production.kind, NodeKind.introducesScope]
    · simp only [Resolution.Bound, production, imp_self, implies_true]

/-- What the walk below some siblings does: it binds them to the place where they stand, binds every
node below them to the scope of its parent, and closes what it opened. -/
structure Covered (tree : SyntaxTree) (s : Registration) (ids : List NodeId)
    (after : Registration) : Prop where
  ready : after.Ready tree
  grows : Resolution.Grows s.resolution after.resolution
  opened : after.opened = s.opened
  elsewhere : ∀ other, (∀ id ∈ ids, ¬ tree.Within id other) →
    after.resolution.factsOf other = s.resolution.factsOf other
  top : ∀ id ∈ ids, ∀ node, tree.node? id = some node → after.resolution.Bound id node s.current
  below : ∀ id ∈ ids, ∀ parent child node, tree.Within id parent → tree.HasChild parent child →
    tree.node? child = some node →
      after.resolution.Bound child node (after.resolution.scopeAt parent)

theorem exists_covered_siblings {ids : List NodeId}
    (apart : ids.Pairwise fun a b => ∀ n, tree.Within a n → ¬ tree.Within b n)
    (each : ∀ id ∈ ids, ∀ s : Registration, s.Ready tree →
      (∀ n, tree.Within id n → s.resolution.factsOf n = .unknown) →
      ∃ after, (tree.events id).foldlM (tree.heed listener) s = .ok after ∧
        Covered tree s [id] after)
    (ready : s.Ready tree)
    (unknown : ∀ id ∈ ids, ∀ n, tree.Within id n → s.resolution.factsOf n = .unknown) :
    ∃ after, (ids.flatMap tree.events).foldlM (tree.heed listener) s = .ok after ∧
      Covered tree s ids after := by
  induction ids generalizing s with
  | nil =>
    exact ⟨s, rfl, ready, .refl _, rfl, fun _ _ => rfl, by simp, by simp⟩
  | cons id ids ih =>
    obtain ⟨others, apart⟩ := List.pairwise_cons.mp apart
    obtain ⟨middle, walked, first⟩ := each id (by simp) s ready (unknown id (by simp))
    have outside {n : NodeId} (inFirst : tree.Within id n) :
        ∀ other ∈ ids, ¬ tree.Within other n := fun other member => others other member n inFirst
    obtain ⟨after, rest, second⟩ := ih apart (fun other member => each other (by simp [member]))
      first.ready fun other member n inside => by
        rw [first.elsewhere n (by simpa using fun inFirst => others other member n inFirst inside)]
        exact unknown other (by simp [member]) n inside
    have current : middle.current = s.current := by simp only [Registration.current, first.opened]
    refine ⟨after, ?_, second.ready, first.grows.trans second.grows, second.opened.trans first.opened,
      fun other away => ?_, fun top member node found => ?_, ?_⟩
    · simp only [List.flatMap_cons, List.foldlM_append, walked, ok_bind, rest]
    · rw [second.elsewhere other fun id member => away id (by simp [member]),
        first.elsewhere other (by simpa using away id (by simp))]
    · rcases List.mem_cons.mp member with rfl | member
      · exact (first.top _ (by simp) node found).grows second.grows
          (second.elsewhere _ (outside (.refl _)))
      · exact current ▸ second.top top member node found
    · intro top member parent child node inside link found
      rcases List.mem_cons.mp member with rfl | member
      · have sameScope : after.resolution.scopeAt parent = middle.resolution.scopeAt parent := by
          simp only [Resolution.scopeAt, second.elsewhere _ (outside inside)]
        rw [sameScope]
        exact (first.below _ (by simp) parent child node inside link found).grows second.grows
          (second.elsewhere _ (outside (inside.trans link.within)))
      · exact second.below top member parent child node inside link found

/-- Registration covers every node below a reachable one. -/
theorem exists_covered (formed : tree.WellFormed) {id : NodeId} (reached : tree.Reachable id)
    (ready : s.Ready tree)
    (unknown : ∀ n, tree.Within id n → s.resolution.factsOf n = .unknown) :
    ∃ after, (tree.events id).foldlM (tree.heed listener) s = .ok after ∧
      Covered tree s [id] after := by
  revert s
  refine formed.reachable_induction (motive := fun id => ∀ {s : Registration}, s.Ready tree →
    (∀ n, tree.Within id n → s.resolution.factsOf n = .unknown) →
    ∃ after, (tree.events id).foldlM (tree.heed listener) s = .ok after ∧
      Covered tree s [id] after) ?_ reached
  intro id node reached found ih s ready unknown
  have here : id.index < tree.size := (tree.node?_isSome_iff id).mp (by simp [found])
  have link {child : NodeId} (member : child ∈ node.children) : tree.HasChild id child :=
    ⟨node, found, member⟩
  obtain ⟨entered, enter, first⟩ := ready.enter node here (unknown id (.refl _))
  have apart : node.children.Pairwise fun a b => ∀ n, tree.Within a n → ¬ tree.Within b n :=
    (formed.children_nodup found).imp_of_mem fun {a b} inA inB different n inFirst inSecond =>
      different (formed.siblings_disjoint reached (link inA) (link inB) inFirst inSecond)
  have notSelf {child : NodeId} (member : child ∈ node.children) : ¬ tree.Within child id :=
    formed.not_within_parent reached (link member)
  obtain ⟨walked, below, inner⟩ := exists_covered_siblings apart
    (fun child member s ready unknown => ih child member ready unknown) first.ready
    fun child member n inside => by
      rw [first.elsewhere n fun same => notSelf member (same ▸ inside)]
      exact unknown n ((link member).within.trans inside)
  have closed : (walked.exit node).opened = s.opened := by
    unfold Registration.exit
    by_cases introduces : node.kind.introducesScope = true
    · simp [introduces, inner.opened, first.opened]
    · simp [introduces, inner.opened, first.opened]
  have resolution : (walked.exit node).resolution = walked.resolution := by
    unfold Registration.exit
    split <;> rfl
  have ownFacts : walked.resolution.factsOf id = entered.resolution.factsOf id :=
    inner.elsewhere id fun child member => notSelf member
  have ownScope : walked.resolution.scopeAt id = entered.current := by
    rw [first.current]
    simp only [Resolution.scopeAt, ownFacts]
  refine ⟨walked.exit node, ?_, ⟨?_, ?_, closed, ?_, ?_, ?_⟩⟩
  · rw [formed.events_eq reached found]
    simp only [List.cons_append, List.foldlM_cons, List.foldlM_append, SyntaxTree.heed,
      SyntaxTree.node, found, orDangling_some, lift_ok, ok_bind, listener, enter, List.foldlM_nil,
      below]
    rfl
  · have := inner.ready
    exact ⟨resolution ▸ this.size, resolution ▸ this.functions, resolution ▸ this.diagnostics,
      resolution ▸ this.ordered, resolution ▸ this.nested, resolution ▸ this.owned,
      closed ▸ ready.opened, fun scope member => by
        rw [resolution]
        exact (first.grows.trans inner.grows).known (ready.known scope (closed ▸ member)),
      resolution ▸ this.declared, resolution ▸ this.fresh⟩
  · exact resolution ▸ first.grows.trans inner.grows
  · intro other away
    have outside : ¬ tree.Within id other := by simpa using away
    rw [resolution, inner.elsewhere other fun child member inside =>
      outside ((link member).within.trans inside)]
    exact first.elsewhere other fun same => outside (same ▸ .refl _)
  · intro top isId other foundOther
    obtain rfl := List.mem_singleton.mp isId
    obtain rfl : node = other := Option.some.inj (found.symm.trans foundOther)
    rw [resolution]
    exact first.bound.grows inner.grows ownFacts
  · intro top isId parent child other inside toChild foundChild
    obtain rfl := List.mem_singleton.mp isId
    rw [resolution]
    rcases SyntaxTree.within_iff.mp inside with rfl | ⟨between, ⟨parentNode, foundParent, member⟩, path⟩
    · obtain ⟨parentNode, foundParent, member⟩ := toChild
      obtain rfl : node = parentNode := Option.some.inj (found.symm.trans foundParent)
      rw [ownScope]
      exact inner.top child member other foundChild
    · obtain rfl : node = parentNode := Option.some.inj (found.symm.trans foundParent)
      exact inner.below between member parent child other path toChild foundChild

end Registration

/-- What registration promises of a tree's resolution. -/
structure Registered (tree : SyntaxTree) (b : Resolution) : Prop where
  size : b.facts.size = tree.size
  functions : b.types.functions = #[]
  diagnostics : b.diagnostics = #[]
  ordered : b.table.Ordered
  nested : b.table.Nested
  owned : b.table.Owned
  declared : ∀ (i : Nat) (symbol : Symbol), b.table.symbols[i]? = some symbol →
    b.symbolOf symbol.node = some ⟨i⟩
  fresh : ∀ (i : Nat) (symbol : Symbol), b.table.symbols[i]? = some symbol →
    (∃ own, symbol.kind = .classType own none) ∨ ∃ own, symbol.kind = .function own none []
  root : ∀ node, tree.node? tree.root = some node → b.Bound tree.root node SymbolTable.root
  child : ∀ parent child node, tree.Reachable parent → tree.HasChild parent child →
    tree.node? child = some node → b.Bound child node (b.scopeAt parent)
  unreached : ∀ id, ¬ tree.Reachable id → b.factsOf id = .unknown

theorem SymbolTable.new_scopes {name : String} {i : Nat} {s : Scope}
    (found : (SymbolTable.new name).scopes[i]? = some s) :
    i = 0 ∧ s = ⟨root, .namespaceScope name, none, [], []⟩ := by
  obtain ⟨bound, rfl⟩ := Array.getElem?_eq_some_iff.mp found
  obtain rfl : i = 0 := by simpa [SymbolTable.new] using bound
  exact ⟨rfl, rfl⟩

theorem SymbolTable.Ordered.new (name : String) : (SymbolTable.new name).Ordered where
  scope_id i s found := by
    obtain ⟨rfl, rfl⟩ := new_scopes found
    rfl
  symbol_id i x found := by simp [SymbolTable.new] at found
  housed i x found := by simp [SymbolTable.new] at found
  listed i s found id := by
    obtain ⟨rfl, rfl⟩ := new_scopes found
    simp [SymbolTable.new]
  nodup i s found := by
    obtain ⟨rfl, rfl⟩ := new_scopes found
    exact List.nodup_nil
  sorted i s found := by
    obtain ⟨rfl, rfl⟩ := new_scopes found
    exact List.Pairwise.nil

theorem SymbolTable.Nested.new (name : String) : (SymbolTable.new name).Nested where
  outermost := ⟨_, rfl, rfl⟩
  namespace_iff i s found := by
    obtain ⟨rfl, rfl⟩ := new_scopes found
    simp
  enclosed i s found inner := absurd (new_scopes found).1 inner
  mem_blocks i s found block := by
    obtain ⟨rfl, rfl⟩ := new_scopes found
    simp only [List.not_mem_nil, false_iff, not_exists, not_and]
    intro inner foundInner isBlock
    obtain ⟨-, rfl⟩ := new_scopes foundInner
    cases isBlock
  blocks_nodup i s found := by
    obtain ⟨rfl, rfl⟩ := new_scopes found
    exact List.nodup_nil

theorem SymbolTable.Owned.new (name : String) : (SymbolTable.new name).Owned where
  owner i s id found ofScope := by
    obtain ⟨rfl, rfl⟩ := new_scopes found
    cases ofScope
  own i x own found := by simp [SymbolTable.new] at found

/-- On a well-formed tree registration gives a result. -/
theorem exists_registered {tree : SyntaxTree} (formed : tree.WellFormed) (name : String) :
    ∃ b, Resolution.build tree name = .ok b ∧ Registered tree b := by
  have unknown (n : NodeId) : (Resolution.new tree name).factsOf n = .unknown := by
    simp only [Resolution.factsOf, Resolution.new, Array.getElem?_replicate]
    split <;> rfl
  have ready : (⟨Resolution.new tree name, [SymbolTable.root]⟩ : Registration).Ready tree :=
    ⟨by simp [Resolution.new], rfl, rfl, .new name, .new name, .new name, by simp,
      by simp [Resolution.new, SymbolTable.new, SymbolTable.root],
      fun i symbol found => by simp [Resolution.new, SymbolTable.new] at found,
      fun i symbol found => by simp [Resolution.new, SymbolTable.new] at found⟩
  obtain ⟨after, walked, covered⟩ :=
    Registration.exists_covered formed .root ready fun n _ => unknown n
  refine ⟨after.resolution, ?_, ?_⟩
  · simp only [Resolution.build, formed.walk_eq_foldlM Registration.listener, walked]
    rfl
  · refine ⟨covered.ready.size, covered.ready.functions, covered.ready.diagnostics,
      covered.ready.ordered, covered.ready.nested, covered.ready.owned, covered.ready.declared,
      covered.ready.fresh, covered.top _ (by simp), covered.below _ (by simp),
      fun id away => (covered.elsewhere id fun top isRoot => ?_).trans (unknown id)⟩
    rw [List.mem_singleton.mp isRoot]
    exact away

end ScriptSemantics
