import ScriptSemantics.Proofs.LexicalLookups
import ScriptSemantics.Proofs.Rescheduling

/-!
# Symbols and the nodes that declare them

After an analysis a node and the symbol that it declares name each other, whichever pass declared the
symbol. The nodes with a symbol are the classes and functions that the root reaches and, of the
declarator ids that the passes come to in one scope, the first of each name.
-/
namespace ScriptSemantics

/-- Whether one of the regions below a node holds another node. -/
def SyntaxTree.holdsInRegion (tree : SyntaxTree) (top id : NodeId) : Bool :=
  (tree.regions top).any fun region => ⟨.enter, id⟩ ∈ tree.events region

namespace SyntaxTree.WellFormed

variable {tree : SyntaxTree} (formed : tree.WellFormed) {top : NodeId}
include formed

theorem holdsInRegion_iff (reached : tree.Reachable top) {id : NodeId} :
    tree.holdsInRegion top id = true ↔ ∃ region ∈ tree.regions top, tree.Within region id := by
  simp only [holdsInRegion, List.any_eq_true, decide_eq_true_eq]
  refine exists_congr fun region => and_congr_right fun member => ?_
  exact formed.mem_events (reached.within (formed.regions_within reached member))

/-- A child that is a region holds all that is in it. In another the regions below it count. -/
theorem holdsInRegion_child {node : Node} {child id : NodeId} (reached : tree.Reachable top)
    (found : tree.node? top = some node) (member : child ∈ node.children)
    (inside : tree.Within child id) : tree.holdsInRegion top id =
      (tree.regionAt node.production child || tree.holdsInRegion child id) := by
  have link : tree.HasChild top child := ⟨node, found, member⟩
  have reachedChild := reached.child link
  rw [Bool.eq_iff_iff, Bool.or_eq_true, formed.holdsInRegion_iff reached,
    formed.holdsInRegion_iff reachedChild]
  have listed {region : NodeId} : region ∈ tree.regions top ↔ ∃ other ∈ node.children,
      region ∈ if tree.regionAt node.production other then [other] else tree.regions other := by
    rw [formed.regions_eq reached found, List.mem_flatMap]
  constructor
  · rintro ⟨region, inRegions, holds⟩
    obtain ⟨other, inChildren, through⟩ := listed.mp inRegions
    have linkOther : tree.HasChild top other := ⟨node, found, inChildren⟩
    have below : tree.Within other region := by
      split at through
      · exact List.mem_singleton.mp through ▸ .refl _
      · exact formed.regions_within (reached.child linkOther) through
    -- The region lies in the child that holds the node.
    obtain rfl := formed.siblings_disjoint reached linkOther link (below.trans holds) inside
    split at through
    next isRegion => exact .inl isRegion
    next => exact .inr ⟨region, through, holds⟩
  · rintro (isRegion | ⟨region, inRegions, holds⟩)
    · exact ⟨child, listed.mpr ⟨child, member, by simp [isRegion]⟩, inside⟩
    · by_cases isRegion : tree.regionAt node.production child = true
      · exact ⟨child, listed.mpr ⟨child, member, by simp [isRegion]⟩, inside⟩
      · exact ⟨region, listed.mpr ⟨child, member, by simpa [isRegion] using inRegions⟩, holds⟩

theorem holdsInRegion_self (reached : tree.Reachable top) : tree.holdsInRegion top top = false := by
  rw [Bool.eq_false_iff, ne_eq, formed.holdsInRegion_iff reached]
  rintro ⟨region, inRegions, holds⟩
  obtain ⟨node, found⟩ := formed.reachable_node reached
  rw [formed.regions_eq reached found, List.mem_flatMap] at inRegions
  obtain ⟨child, member, through⟩ := inRegions
  have link : tree.HasChild top child := ⟨node, found, member⟩
  refine formed.not_within_parent reached link (Within.trans ?_ holds)
  split at through
  · exact List.mem_singleton.mp through ▸ .refl _
  · exact formed.regions_within (reached.child link) through

/-- The walks over the regions come to what the regions hold, in the order of the whole walk. -/
theorem flatMap_regions (reached : tree.Reachable top) :
    (tree.regions top).flatMap tree.events =
      (tree.events top).filter fun event => tree.holdsInRegion top event.node := by
  refine formed.reachable_induction (motive := fun top => (tree.regions top).flatMap tree.events =
    (tree.events top).filter fun event => tree.holdsInRegion top event.node) ?_ reached
  intro top node reached found ih
  have self := formed.holdsInRegion_self reached
  rw [formed.events_eq reached found, formed.regions_eq reached found, List.flatMap_assoc,
    List.cons_append, List.filter_cons_of_neg (by simp [self]), List.filter_append,
    List.filter_flatMap, List.filter_cons_of_neg (by simp [self]), List.filter_nil, List.append_nil]
  refine List.flatMap_congr fun child member => ?_
  have reachedChild : tree.Reachable child := reached.child ⟨node, found, member⟩
  have inside : ∀ event ∈ tree.events child, tree.holdsInRegion top event.node =
      (tree.regionAt node.production child || tree.holdsInRegion child event.node) :=
    fun event listed => formed.holdsInRegion_child reached found member
      ((formed.mem_events reachedChild).mp listed)
  rw [List.filter_congr inside]
  cases isRegion : tree.regionAt node.production child with
  | true => simp
  | false => simpa using ih child member

/-- The walks over the regions come to the declarator ids that the regions hold. -/
theorem declaratorIds_regions (reached : tree.Reachable top) :
    tree.declaratorIds ((tree.regions top).flatMap tree.events) =
      (tree.declaratorIds (tree.events top)).filter (tree.holdsInRegion top) := by
  rw [formed.flatMap_regions reached]
  simp only [declaratorIds, visits, List.filter_map, List.filter_filter]
  congr 1
  refine List.filter_congr fun event _ => ?_
  simp only [Function.comp]
  ac_rfl

end SyntaxTree.WellFormed

namespace Resolution

/-- Whether an analysis comes to declare a declarator id: it stands in the scope of a class or a
function, or locals are entered and a region holds it. -/
def isEntered (r : Resolution) (tree : SyntaxTree) (locals : Bool) (id : NodeId) : Bool :=
  r.isMember id || locals && tree.holdsInRegion tree.root id

/-- Whether a node declares a symbol: a class and a function do, and a declarator id does if it is the
first of its name in its scope that the analysis comes to. -/
def DeclaresAny (r : Resolution) (tree : SyntaxTree) (locals : Bool) (id : NodeId) (node : Node) :
    Prop :=
  match node.production with
  | .classDeclaration .. | .functionDeclaration .. => True
  | .variableDeclaratorId name => ∃ scope, r.scopeOf id = .ok scope ∧
      ((r.declarators tree scope name).filter (r.isEntered tree locals)).head? = some id
  | _ => False

/-- What a node declares: a class or a function that has the scope of the node for its own and stands in
the scope around the node, or a variable in the scope of the node. -/
def Declares (r : Resolution) (id : NodeId) (node : Node) (symbol : Symbol) : Prop :=
  symbol.node = id ∧ symbol.location = node.location ∧
    match node.production with
    | .classDeclaration name _ _ => symbol.name = name ∧ symbol.kind.isClass = true ∧
        (∃ own, symbol.kind.ownScope = some own ∧ r.scopeOf id = .ok own) ∧
          r.enclosingScopeOf id = .ok symbol.enclosing
    | .functionDeclaration name _ _ _ => symbol.name = name ∧
        (symbol.kind.isClass = false ∧ symbol.kind.isVariable = false) ∧
        (∃ own, symbol.kind.ownScope = some own ∧ r.scopeOf id = .ok own) ∧
          r.enclosingScopeOf id = .ok symbol.enclosing
    | .variableDeclaratorId name => symbol.name = name ∧ symbol.kind.isVariable = true ∧
        r.scopeOf id = .ok symbol.enclosing
    | _ => False

end Resolution

/-- What registration gives a symbol is a class or a function. The symbol knows the node, where it is
and the scope around it. -/
theorem Registered.symbolOf_cases {tree : SyntaxTree} {b : Resolution} (registered : Registered tree b)
    (formed : tree.WellFormed) {id : NodeId} {symbol : SymbolId}
    (declares : b.symbolOf id = some symbol) :
    tree.Reachable id ∧ (∃ node, tree.node? id = some node ∧
      (node.kind = .classDeclaration ∨ node.kind = .functionDeclaration)) ∧
      ∃ x, b.table.symbols[symbol.index]? = some x ∧ x.node = id ∧
        x.location = tree.locationAt id ∧ x.enclosing = b.enclosingAt id := by
  have reached : tree.Reachable id := by
    by_contra away
    rw [Resolution.symbolOf, registered.unreached _ away] at declares
    cases declares
  obtain ⟨node, found⟩ := formed.reachable_node reached
  have location : node.location = tree.locationAt id := by simp [SyntaxTree.locationAt, found]
  refine ⟨reached, ?_⟩
  cases is : node.production with
  | classDeclaration name superclass body =>
    obtain ⟨symbolOf, -, isSymbol, -⟩ := registered.class_found formed reached found is
    obtain rfl := Option.some.inj (declares.symm.trans symbolOf)
    exact ⟨⟨node, found, .inl (Node.kind_of is)⟩, _, isSymbol, rfl, location, rfl⟩
  | functionDeclaration name returnType parameters body =>
    obtain ⟨symbolOf, -, isSymbol, -⟩ := registered.function_found formed reached found is
    obtain rfl := Option.some.inj (declares.symm.trans symbolOf)
    exact ⟨⟨node, found, .inr (Node.kind_of is)⟩, _, isSymbol, rfl, location, rfl⟩
  | block statements =>
    obtain ⟨outer, -, bound⟩ := registered.bound formed reached found
    unfold Resolution.Bound at bound
    rw [is] at bound
    obtain ⟨own, facts, -⟩ := bound
    rw [Resolution.symbolOf, facts] at declares
    cases declares
  | _ =>
    rw [registered.symbolOf_plain formed reached found
      (by simp [Node.kind, is, Production.kind, NodeKind.introducesScope])] at declares
    cases declares

namespace View

variable {tree : SyntaxTree} {b : Resolution}

/-- The variables of a scope are all members, or none is. So the first that is entered is the first of
the members, or else the first in the regions. -/
theorem head?_isEntered (scope : ScopeId) {group : List NodeId}
    (together : ∀ id ∈ group, b.isMember id = b.isMemberScope scope) :
    (group.filter (b.isEntered tree true)).head? =
      (group.filter b.isMember ++ group.filter (tree.holdsInRegion tree.root)).head? := by
  cases member : b.isMemberScope scope with
  | true =>
    have all : group.filter b.isMember = group :=
      List.filter_eq_self.mpr fun id listed => (together id listed).trans member
    have entered : group.filter (b.isEntered tree true) = group :=
      List.filter_eq_self.mpr fun id listed => by
        simp [Resolution.isEntered, together id listed, member]
    rw [all, entered]
    cases group <;> rfl
  | false =>
    have none : group.filter b.isMember = [] :=
      List.filter_eq_nil_iff.mpr fun id listed => by simp [together id listed, member]
    have entered : group.filter (b.isEntered tree true) =
        group.filter (tree.holdsInRegion tree.root) :=
      List.filter_congr fun id listed => by
        simp [Resolution.isEntered, together id listed, member]
    rw [none, entered, List.nil_append]

/-- An analysis declares the first of each name in each scope of what it comes to declare. -/
theorem analysed_declaring (prepared : Prepared tree b) (locals : Bool) :
    Declaring tree b ((tree.declaratorIds (tree.events tree.root)).filter (b.isEntered tree locals))
      (analysed tree b locals) := by
  have members : Declaring tree b
      ((tree.declaratorIds (tree.events tree.root)).filter b.isMember)
      ((tree.events tree.root).foldl (View.advance tree b .membersOnly) (View.start b)) := by
    have start : Declaring tree b [] (View.start b) := .start
    have ran := start.run .membersOnly (tree.events tree.root)
    have each : (fun id => b.declaresAt .membersOnly (b.scopeAt id)) = b.isMember := by
      funext id
      simp [Resolution.declaresAt, Resolution.isMember]
    rwa [each, List.nil_append] at ran
  cases locals with
  | false =>
    have same : b.isEntered tree false = b.isMember := by
      funext id
      simp [Resolution.isEntered]
    rwa [same]
  | true =>
    have both := members.run_withLocals ((tree.regions tree.root).flatMap tree.events)
    rw [prepared.formed.declaratorIds_regions .root] at both
    generalize tree.declaratorIds (tree.events tree.root) = ids at both ⊢
    refine both.congr (fun id => ?_) fun scope called => ?_
    · simp only [List.mem_append, List.mem_filter, Resolution.isEntered, Bool.true_and,
        Bool.or_eq_true]
      tauto
    · have narrowed (p : NodeId → Bool) : (ids.filter p).filter (b.isNamed tree scope called) =
          (ids.filter (b.isNamed tree scope called)).filter p := List.filter_comm ..
      rw [List.filter_append, narrowed, narrowed, narrowed]
      refine head?_isEntered scope fun id listed => ?_
      have named := (List.mem_filter.mp listed).2
      simp only [Resolution.isNamed, Bool.and_eq_true, decide_eq_true_eq] at named
      rw [Resolution.isMember, named.1]

theorem Represents.scopeKind_eq {r : Resolution} {v : View} (rep : v.Represents tree b r)
    (scope : ScopeId) : r.scopeKind scope = b.scopeKind scope := by
  have frames := congrArg (Option.map Scope.kind) (rep.frames scope.index)
  rwa [Option.map_map, Option.map_map] at frames

end View

section Following

variable {tree : SyntaxTree} {b r : Resolution} {v : View} (prepared : Prepared tree b)
  (follows : v.Follows tree b r)
include prepared follows

theorem old_undeclared {id : NodeId} {symbol : SymbolId} (declares : b.symbolOf id = some symbol) :
    id ∉ v.declared := by
  intro member
  obtain ⟨node, name, found, is⟩ := follows.grounded.named id member
  have plain := prepared.registered.symbolOf_plain prepared.formed
    (follows.grounded.reached id member) found
    (by simp [Node.kind, is, Production.kind, NodeKind.introducesScope])
  rw [plain] at declares
  cases declares

/-- A node with a symbol is reachable, and the view knows the symbol. -/
theorem symbolOf_eq_some_iff {id : NodeId} {symbol : SymbolId} :
    r.symbolOf id = some symbol ↔
      (id ∈ v.declared ∧ symbol = v.idOf b id) ∨ b.symbolOf id = some symbol := by
  constructor
  · intro declares
    have here : id.index < tree.size := by
      by_contra beyond
      rw [Resolution.symbolOf, follows.rep.factsOf_beyond beyond] at declares
      cases declares
    rw [Resolution.symbolOf, follows.rep.facts id here] at declares
    simp only [View.symbolOf] at declares
    split at declares
    next member => exact .inl ⟨member, (Option.some.inj declares).symm⟩
    next => exact .inr declares
  · rintro (⟨member, rfl⟩ | declares)
    · rw [follows.rep.symbolOf_eq prepared (follows.grounded.reached id member), View.symbolOf,
        if_pos member]
    · have reached := (prepared.registered.symbolOf_cases prepared.formed declares).1
      rw [follows.rep.symbolOf_eq prepared reached, View.symbolOf,
        if_neg (old_undeclared prepared follows declares), declares]

theorem symbolOf_iff_node {id : NodeId} {symbol : SymbolId} :
    r.symbolOf id = some symbol ↔
      ∃ x, r.table.symbols[symbol.index]? = some x ∧ x.node = id := by
  rw [symbolOf_eq_some_iff prepared follows]
  constructor
  · rintro (⟨member, rfl⟩ | declares)
    · exact ⟨_, follows.rep.variable_symbol member, rfl⟩
    · obtain ⟨-, -, x, found, isNode, -⟩ :=
        prepared.registered.symbolOf_cases prepared.formed declares
      exact ⟨_, follows.rep.old_symbol found, isNode⟩
  · rintro ⟨x, found, rfl⟩
    rcases follows.rep.symbol_cases follows.grounded.nodup found with
      ⟨old, foundOld, rfl⟩ | ⟨id, member, place, rfl⟩
    · exact .inr (prepared.registered.declared _ old foundOld)
    · exact .inl ⟨member, congrArg SymbolId.mk place⟩

/-- A symbol is what its node declares. -/
theorem symbol_declares {i : Nat} {x : Symbol} (found : r.table.symbols[i]? = some x) :
    ∃ node, tree.node? x.node = some node ∧ r.Declares x.node node x := by
  rcases follows.rep.symbol_cases follows.grounded.nodup found with
    ⟨old, foundOld, rfl⟩ | ⟨id, member, -, rfl⟩
  · obtain ⟨reached, symbolOf, node, foundNode, sort⟩ :=
      prepared.registered.symbol prepared.formed foundOld
    obtain ⟨-, -, same, foundSame, -, location, enclosing⟩ :=
      prepared.registered.symbolOf_cases prepared.formed symbolOf
    obtain rfl : old = same := Option.some.inj (foundOld.symm.trans foundSame)
    have here : old.location = node.location := by
      rw [location, SyntaxTree.locationAt, foundNode]
      rfl
    have scope := follows.rep.scopeOf_eq_ok prepared reached
    have around (introduces : node.kind.introducesScope = true) :
        r.enclosingScopeOf old.node = .ok old.enclosing :=
      enclosing ▸ follows.rep.enclosingScopeOf_eq_ok prepared reached foundNode introduces
    refine ⟨node, foundNode, rfl, here, ?_⟩
    rcases sort with ⟨superclass, body, is, kind⟩ | ⟨returnType, parameters, body, is, kind⟩
    · simp only [is]
      refine ⟨rfl, ?_, ⟨_, ?_, scope⟩, around ?_⟩
      · simp [View.completed, kind, SymbolKind.isClass]
      · simp [View.completed, kind, SymbolKind.ownScope]
      · simp [Node.kind, is, Production.kind, NodeKind.introducesScope]
    · simp only [is]
      refine ⟨rfl, ⟨?_, ?_⟩, ⟨_, ?_, scope⟩, around ?_⟩
      · simp [View.completed, kind, SymbolKind.isClass]
      · simp [View.completed, kind, SymbolKind.isVariable]
      · simp [View.completed, kind, SymbolKind.ownScope]
      · simp [Node.kind, is, Production.kind, NodeKind.introducesScope]
  · obtain ⟨node, name, foundNode, is⟩ := follows.grounded.named id member
    have scope := follows.rep.scopeOf_eq_ok prepared (follows.grounded.reached id member)
    obtain ⟨production, location⟩ := node
    cases is
    exact ⟨_, foundNode, rfl, by simp [SyntaxTree.locationAt, foundNode],
      by simp [SyntaxTree.nameAt, foundNode], rfl, scope⟩

/-- The analysis comes to declare what its result shows that it comes to. -/
theorem isEntered_eq {id : NodeId} (reached : tree.Reachable id) (locals : Bool) :
    r.isEntered tree locals id = b.isEntered tree locals id := by
  have scope : r.scopeAt id = b.scopeAt id := by
    rw [Resolution.scopeAt, follows.rep.facts id (prepared.index_lt reached)]
    rfl
  simp only [Resolution.isEntered, Resolution.isMember, Resolution.isMemberScope, scope,
    follows.rep.scopeKind_eq]

section Declaring

variable {locals : Bool} (declaring : v.Declaring tree b
  ((tree.declaratorIds (tree.events tree.root)).filter (b.isEntered tree locals)))
include declaring

/-- A declared variable is that of the first declarator id of its name in its scope that the analysis
comes to. -/
theorem declared_iff_head {id : NodeId} {node : Node} {name : String} (reached : tree.Reachable id)
    (found : tree.node? id = some node) (is : node.production = .variableDeclaratorId name) :
    id ∈ v.declared ↔ r.DeclaresAny tree locals id node := by
  have isName : tree.nameAt id = name := by
    obtain ⟨production, location⟩ := node
    cases is
    simp [SyntaxTree.nameAt, found]
  have entered : (r.declarators tree (b.scopeAt id) name).filter (r.isEntered tree locals) =
      ((tree.declaratorIds (tree.events tree.root)).filter (b.isEntered tree locals)).filter
        (b.isNamed tree (b.scopeAt id) (tree.nameAt id)) := by
    rw [declarators_eq prepared follows, isName, List.filter_comm, List.filter_congr fun other listed =>
      (isEntered_eq prepared follows (prepared.formed.mem_declaratorIds.mp listed).1 locals).symm]
  rw [declaring.mem_declared_iff, ← entered]
  simp only [Resolution.DeclaresAny, is]
  have scope := follows.rep.scopeOf_eq_ok prepared reached
  constructor
  · exact fun isFirst => ⟨_, scope, isFirst⟩
  · rintro ⟨other, isOther, isFirst⟩
    obtain rfl : b.scopeAt id = other := Except.ok.inj (scope.symm.trans isOther)
    exact isFirst

/-- The nodes with a symbol are those that declare one. -/
theorem isSome_symbolOf_iff (id : NodeId) : (r.symbolOf id).isSome = true ↔
    tree.Reachable id ∧ ∃ node, tree.node? id = some node ∧ r.DeclaresAny tree locals id node := by
  constructor
  · intro some
    obtain ⟨symbol, declares⟩ := Option.isSome_iff_exists.mp some
    rcases (symbolOf_eq_some_iff prepared follows).mp declares with ⟨member, -⟩ | old
    · have reached := follows.grounded.reached id member
      obtain ⟨node, name, found, is⟩ := follows.grounded.named id member
      exact ⟨reached, node, found,
        (declared_iff_head prepared follows declaring reached found is).mp member⟩
    · obtain ⟨reached, ⟨⟨production, location⟩, found, kind⟩, -⟩ :=
        prepared.registered.symbolOf_cases prepared.formed old
      refine ⟨reached, _, found, ?_⟩
      rcases kind with kind | kind <;> cases production <;> cases kind <;> trivial
  · rintro ⟨reached, node, found, declares⟩
    have old {symbol : SymbolId} (isSymbol : b.symbolOf id = some symbol) :
        (r.symbolOf id).isSome = true :=
      Option.isSome_of_eq_some ((symbolOf_eq_some_iff prepared follows).mpr (.inr isSymbol))
    cases is : node.production with
    | classDeclaration name superclass body =>
      exact old (prepared.registered.class_found prepared.formed reached found is).1
    | functionDeclaration name returnType parameters body =>
      exact old (prepared.registered.function_found prepared.formed reached found is).1
    | variableDeclaratorId name =>
      have member := (declared_iff_head prepared follows declaring reached found is).mpr declares
      exact Option.isSome_of_eq_some
        ((symbolOf_eq_some_iff prepared follows).mpr (.inl ⟨member, rfl⟩))
    | _ => simp [Resolution.DeclaresAny, is] at declares

end Declaring

end Following

/-- After an analysis a node has a symbol exactly if the symbol is declared at the node. Every symbol is
what its node declares, and the nodes with a symbol are the reachable classes and functions and the
declarator ids that come first of their names among those that the analysis comes to declare. -/
theorem analyze_symbolOf_node {tree : SyntaxTree} (valid : tree.validate = .ok ())
    (settings : Settings) :
    ∃ r, analyze tree settings = .ok r ∧
      (∀ id symbol, r.symbolOf id = some symbol ↔ ∃ x, r.table.symbol symbol = .ok x ∧ x.node = id) ∧
      (∀ symbol x, r.table.symbol symbol = .ok x →
        ∃ node, tree.node? x.node = some node ∧ r.Declares x.node node x) ∧
      ∀ id, (r.symbolOf id).isSome = true ↔ tree.Reachable id ∧
        ∃ node, tree.node? id = some node ∧
          r.DeclaresAny tree settings.enterLocalVariables id node := by
  obtain ⟨b, r, -, prepared, analysed, follows⟩ :=
    exists_analysed (SyntaxTree.validate_eq_ok_iff.mp valid) settings
  refine ⟨r, analysed, fun id symbol => ?_, fun symbol x found => ?_, fun id => ?_⟩
  · simp only [symbolOf_iff_node prepared follows, SymbolTable.symbol, orDangling_eq_ok_iff]
  · exact symbol_declares prepared follows (orDangling_eq_ok_iff.mp found)
  · exact isSome_symbolOf_iff prepared follows (View.analysed_declaring prepared _) id

/-- The unit `int x; class A { int x; m(int y) { int z, z; } }`. -/
def SyntaxTree.repeatedLocal : SyntaxTree where
  nodes := #[
    ⟨.compilationUnit [⟨1⟩, ⟨6⟩], ⟨0, 48⟩⟩, ⟨.variableDeclarators ⟨2⟩ [⟨4⟩], ⟨0, 6⟩⟩,
    ⟨.typeNode ⟨3⟩, ⟨0, 3⟩⟩, ⟨.primitiveType .int, ⟨0, 3⟩⟩,
    ⟨.variableDeclarator ⟨5⟩ none, ⟨4, 5⟩⟩, ⟨.variableDeclaratorId "x", ⟨4, 5⟩⟩,
    ⟨.classDeclaration "A" none [⟨7⟩, ⟨12⟩], ⟨7, 48⟩⟩, ⟨.variableDeclarators ⟨8⟩ [⟨10⟩], ⟨17, 23⟩⟩,
    ⟨.typeNode ⟨9⟩, ⟨17, 20⟩⟩, ⟨.primitiveType .int, ⟨17, 20⟩⟩,
    ⟨.variableDeclarator ⟨11⟩ none, ⟨21, 22⟩⟩, ⟨.variableDeclaratorId "x", ⟨21, 22⟩⟩,
    ⟨.functionDeclaration "m" none [⟨13⟩] ⟨17⟩, ⟨24, 46⟩⟩, ⟨.formalParameter ⟨14⟩ ⟨16⟩, ⟨26, 31⟩⟩,
    ⟨.typeNode ⟨15⟩, ⟨26, 29⟩⟩, ⟨.primitiveType .int, ⟨26, 29⟩⟩,
    ⟨.variableDeclaratorId "y", ⟨30, 31⟩⟩, ⟨.block [⟨18⟩], ⟨33, 46⟩⟩,
    ⟨.variableDeclarators ⟨19⟩ [⟨21⟩, ⟨23⟩], ⟨35, 44⟩⟩, ⟨.typeNode ⟨20⟩, ⟨35, 38⟩⟩,
    ⟨.primitiveType .int, ⟨35, 38⟩⟩, ⟨.variableDeclarator ⟨22⟩ none, ⟨39, 40⟩⟩,
    ⟨.variableDeclaratorId "z", ⟨39, 40⟩⟩, ⟨.variableDeclarator ⟨24⟩ none, ⟨42, 43⟩⟩,
    ⟨.variableDeclaratorId "z", ⟨42, 43⟩⟩]
  root := ⟨0⟩

/-- The class and the method come first, then the members, then the locals in source order. The second
local of the name has no symbol. -/
theorem analyze_symbolOf_node_repeatedLocal :
    ∃ r, analyze SyntaxTree.repeatedLocal Settings.standard = .ok r ∧
      [⟨6⟩, ⟨12⟩, ⟨11⟩, ⟨16⟩, ⟨5⟩, ⟨22⟩].map r.symbolOf = (List.range 6).map (some ⟨·⟩) ∧
      r.symbolOf ⟨24⟩ = none ∧
      ∀ id symbol, r.symbolOf id = some symbol ↔
        ∃ x, r.table.symbol symbol = .ok x ∧ x.node = id := by
  obtain ⟨r, analysed, paired, -⟩ :=
    @analyze_symbolOf_node SyntaxTree.repeatedLocal rfl Settings.standard
  have facts : (analyze SyntaxTree.repeatedLocal Settings.standard).map (fun r =>
      ([⟨6⟩, ⟨12⟩, ⟨11⟩, ⟨16⟩, ⟨5⟩, ⟨22⟩].map r.symbolOf, r.symbolOf ⟨24⟩)) =
      .ok ((List.range 6).map (some ⟨·⟩), none) := rfl
  rw [analysed] at facts
  simp only [Except.map, Except.ok.injEq, Prod.mk.injEq] at facts
  exact ⟨r, analysed, facts.1, facts.2, paired⟩

end ScriptSemantics
