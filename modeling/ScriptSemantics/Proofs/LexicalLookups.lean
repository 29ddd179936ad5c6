import ScriptSemantics.Proofs.Declarations
import ScriptSemantics.Proofs.WalkOrder

/-!
# Lookups follow the nesting of the syntax

A lookup from the scope of a node asks the classes, functions and blocks around the node, the nearest
first, and the unit last. This is shown downwards from the root for any question that each scope
answers. What single scopes answer is known from the declarations in them.
-/
namespace ScriptSemantics

namespace SyntaxTree

variable {tree : SyntaxTree}

/-- A lookup from a node asks the class, function or block that is the node or lies above it, and the
root. -/
structure Asks (tree : SyntaxTree) (id site : NodeId) : Prop where
  within : tree.Within site id
  opens : tree.introduces site = true ∨ site = tree.root

namespace WellFormed

variable (formed : tree.WellFormed)
include formed

theorem asks_root_iff {site : NodeId} : tree.Asks tree.root site ↔ site = tree.root := by
  constructor
  · rintro ⟨⟨distance, path⟩, -⟩
    cases path with
    | refl => rfl
    | step _ link => exact (formed.not_hasChild_root _ link).elim
  · rintro rfl
    exact ⟨.refl _, .inr rfl⟩

/-- A lookup from a child asks whom one from its parent asks, and first the child itself if that
introduces a scope. -/
theorem asks_child_iff {parent child site : NodeId} (link : tree.HasChild parent child) :
    tree.Asks child site ↔
      tree.Asks parent site ∨ site = child ∧ tree.introduces child = true := by
  constructor
  · rintro ⟨⟨distance, path⟩, opens⟩
    cases path with
    | refl =>
      refine .inr ⟨rfl, opens.resolve_right ?_⟩
      rintro rfl
      exact formed.not_hasChild_root _ link
    | step path other =>
      obtain rfl := formed.parent_unique link other
      exact .inl ⟨⟨_, path⟩, opens⟩
  · rintro (⟨path, opens⟩ | ⟨rfl, introduces⟩)
    · exact ⟨path.trans link.within, opens⟩
    · exact ⟨.refl _, .inl introduces⟩

end WellFormed

end SyntaxTree

namespace SymbolTable

variable {table : SymbolTable} {find : ScopeId → Except Fault (Option SymbolId)}

/-- The bound of a search does not matter as long as it exceeds the number of the scope. -/
theorem Nested.searchWithin_stable (nested : table.Nested) {scope : ScopeId} {j k : Nat}
    (roomJ : scope.index < j) (roomK : scope.index < k) :
    table.searchWithin find j scope = table.searchWithin find k scope := by
  induction j generalizing k scope with
  | zero => omega
  | succ j ih =>
    obtain ⟨k, rfl⟩ : ∃ m, k = m + 1 := ⟨k - 1, by omega⟩
    simp only [searchWithin]
    cases find scope with
    | error fault => rfl
    | ok found =>
      cases found with
      | some symbol => rfl
      | none =>
        cases foundScope : table.scopes[scope.index]? with
        | none => simp [SymbolTable.scope, foundScope]
        | some s =>
          simp only [SymbolTable.scope, foundScope, orDangling_some, ok_bind]
          cases around : s.enclosing with
          | none => rfl
          | some outer =>
            have before := nested.enclosing_lt foundScope around
            exact ih (by omega) (by omega)

theorem searchOutward_here {scope : ScopeId} {symbol : SymbolId}
    (here : find scope = .ok (some symbol)) : table.searchOutward find scope = .ok (some symbol) := by
  simp [searchOutward, searchWithin, here, pure, Except.pure]

/-- A search that finds nothing in a scope goes on in the scope around it. -/
theorem Nested.searchOutward_next (nested : table.Nested) {scope outer : ScopeId} {s : Scope}
    (here : find scope = .ok none) (found : table.scopes[scope.index]? = some s)
    (around : s.enclosing = some outer) :
    table.searchOutward find scope = table.searchOutward find outer := by
  have known : scope.index < table.scopes.size := (Array.getElem?_eq_some_iff.mp found).1
  have before := nested.enclosing_lt found around
  have next : table.searchOutward find scope = table.searchWithin find table.scopes.size outer := by
    rw [searchOutward, searchWithin]
    simp only [here, ok_bind, SymbolTable.scope, found, orDangling_some, around]
  exact next.trans (nested.searchWithin_stable (by omega) (by omega))

/-- A search that finds nothing in the namespace finds nothing. -/
theorem Nested.searchOutward_outermost (nested : table.Nested) (here : find root = .ok none) :
    table.searchOutward find root = .ok none := by
  obtain ⟨s, found, around⟩ := nested.outermost
  have isScope : table.scope root = .ok s := by simp [SymbolTable.scope, root, found]
  simp [searchOutward, searchWithin, here, isScope, around, pure, Except.pure]

end SymbolTable

namespace Resolution

variable {r : Resolution} {tree : SyntaxTree} {has : ScopeId → Prop}
  {gives : ScopeId → SymbolId → Prop} {id : NodeId}

/-- Of those that a lookup from a node asks, this one is the nearest whose scope has something. -/
structure Nearest (r : Resolution) (tree : SyntaxTree) (has : ScopeId → Prop) (id site : NodeId)
    (scope : ScopeId) : Prop where
  asks : tree.Asks id site
  bound : r.scopeOf site = .ok scope
  here : has scope
  nearest : ∀ other outer, tree.Asks id other → r.scopeOf other = .ok outer → has outer →
    tree.Within other site

/-- A lookup from a node is answered with what the nearest scope that has something gives, and with
nothing if none has anything. -/
def Answers (r : Resolution) (tree : SyntaxTree) (has : ScopeId → Prop)
    (gives : ScopeId → SymbolId → Prop) (id : NodeId) : Option SymbolId → Prop
  | some symbol => ∃ site scope, r.Nearest tree has id site scope ∧ gives scope symbol
  | none => ∀ site scope, tree.Asks id site → r.scopeOf site = .ok scope → ¬ has scope

theorem Answers.of_asks {other : NodeId} {answer : Option SymbolId}
    (answers : r.Answers tree has gives id answer)
    (same : ∀ site, tree.Asks other site ↔ tree.Asks id site) :
    r.Answers tree has gives other answer := by
  simp only [Answers, same] at answers ⊢
  cases answer with
  | none => exact answers
  | some symbol =>
    obtain ⟨site, scope, ⟨asks, isScope, here, nearest⟩, given⟩ := answers
    exact ⟨site, scope, ⟨(same site).mpr asks, isScope, here,
      fun x outer asked => nearest x outer ((same x).mp asked)⟩, given⟩

theorem Answers.own {scope : ScopeId} {symbol : SymbolId} (asks : tree.Asks id id)
    (isScope : r.scopeOf id = .ok scope) (here : has scope) (given : gives scope symbol) :
    r.Answers tree has gives id (some symbol) :=
  ⟨id, scope, ⟨asks, isScope, here, fun _ _ asked _ _ => asked.within⟩, given⟩

/-- A child whose own scope has nothing leaves the answer to its parent. -/
theorem Answers.child (formed : tree.WellFormed) {parent child : NodeId}
    (link : tree.HasChild parent child) {scope : ScopeId} (isScope : r.scopeOf child = .ok scope)
    (nothing : ¬ has scope) {answer : Option SymbolId}
    (answers : r.Answers tree has gives parent answer) : r.Answers tree has gives child answer := by
  have above {site : NodeId} {outer : ScopeId} (asks : tree.Asks child site)
      (isOuter : r.scopeOf site = .ok outer) (here : has outer) : tree.Asks parent site := by
    refine ((formed.asks_child_iff link).mp asks).resolve_right ?_
    rintro ⟨rfl, -⟩
    obtain rfl : scope = outer := Except.ok.inj (isScope.symm.trans isOuter)
    exact nothing here
  cases answer with
  | none => exact fun site outer asks isOuter here => answers site outer (above asks isOuter here) isOuter here
  | some symbol =>
    obtain ⟨site, outer, nearest, given⟩ := answers
    exact ⟨site, outer, ⟨(formed.asks_child_iff link).mpr (.inl nearest.asks), nearest.bound,
      nearest.here, fun other further asked isFurther here =>
        nearest.nearest other further (above asked isFurther here) isFurther here⟩, given⟩

end Resolution

section Represented

variable {tree : SyntaxTree} {b r : Resolution} {v : View} (prepared : Prepared tree b)
  (rep : v.Represents tree b r)
include prepared rep

/-- A search outward from the scope of a node is answered by the nearest around the node. -/
theorem View.Represents.searchOutward_answers {root : Node}
    (foundRoot : tree.node? tree.root = some root) (plainRoot : root.kind.introducesScope = false)
    {find : ScopeId → Except Fault (Option SymbolId)} {has : ScopeId → Prop}
    {gives : ScopeId → SymbolId → Prop}
    (asked : ∀ scope : ScopeId, scope.index < b.table.scopes.size →
      find scope = .ok none ∧ ¬ has scope ∨
        ∃ symbol, find scope = .ok (some symbol) ∧ has scope ∧ gives scope symbol)
    {id : NodeId} (reached : tree.Reachable id) :
    ∃ answer, r.table.searchOutward find (b.scopeAt id) = .ok answer ∧
      r.Answers tree has gives id answer := by
  have formed := prepared.formed
  have nested := prepared.registered.nested.of_sameFrames rep.frames
  obtain ⟨distance, path⟩ := reached
  induction path with
  | refl =>
    have isRoot := prepared.registered.scopeAt_root foundRoot plainRoot
    have scope : r.scopeOf tree.root = .ok (b.scopeAt tree.root) := rep.scopeOf_eq_ok prepared .root
    rcases asked (b.scopeAt tree.root) (prepared.registered.scope_known formed .root) with
      ⟨here, nothing⟩ | ⟨symbol, here, has, given⟩
    · refine ⟨none, ?_, fun site outer asks isOuter => ?_⟩
      · rw [isRoot] at here ⊢
        exact nested.searchOutward_outermost here
      · obtain rfl := formed.asks_root_iff.mp asks
        obtain rfl : b.scopeAt tree.root = outer := Except.ok.inj (scope.symm.trans isOuter)
        exact nothing
    · exact ⟨some symbol, SymbolTable.searchOutward_here here,
        .own (formed.asks_root_iff.mpr rfl) scope has given⟩
  | @step distance parent child path link ih =>
    obtain ⟨answer, searched, answers⟩ := ih
    have reachedParent : tree.Reachable parent := ⟨_, path⟩
    have reached := reachedParent.child link
    obtain ⟨node, found⟩ := formed.child_node link
    have introduces := tree.introduces_eq found
    cases opens : node.kind.introducesScope with
    | false =>
      rw [prepared.registered.scopeAt_child reachedParent link found opens]
      refine ⟨answer, searched, answers.of_asks fun site => ?_⟩
      simp [formed.asks_child_iff link, introduces, opens]
    | true =>
      have scope := rep.scopeOf_eq_ok prepared reached
      have known := prepared.registered.scope_known formed reached
      rcases asked (b.scopeAt child) known with ⟨here, nothing⟩ | ⟨symbol, here, has, given⟩
      · have bound := prepared.registered.child parent child node reachedParent link found
        obtain ⟨own, foundOwn, around⟩ := bound.introduced opens
        obtain ⟨s, foundScope, -, enclosing, -⟩ := rep.frames.symm.exists_scope foundOwn
        refine ⟨answer, ?_, answers.child formed link scope nothing⟩
        rw [nested.searchOutward_next here foundScope (enclosing.trans around), searched]
      · exact ⟨some symbol, SymbolTable.searchOutward_here here,
          .own ⟨.refl _, .inl (introduces.trans opens)⟩ scope has given⟩

end Represented

namespace Resolution

/-- A symbol is the variable of the first declarator id of a name that is bound to a scope. -/
def IsFirstVariable (r : Resolution) (tree : SyntaxTree) (name : String) (scope : ScopeId)
    (symbol : SymbolId) : Prop :=
  ∃ first type, (r.declarators tree scope name).head? = some first ∧ r.symbolOf first = some symbol ∧
    r.table.symbols[symbol.index]? =
      some ⟨symbol, name, .var type, scope, first, tree.locationAt first⟩

/-- A class of a name is declared directly in a scope. -/
structure DeclaresClass (r : Resolution) (tree : SyntaxTree) (name : String) (scope : ScopeId)
    (id : NodeId) : Prop where
  reached : tree.Reachable id
  named : ∃ node superclass body, tree.node? id = some node ∧
    node.production = .classDeclaration name superclass body
  within : r.enclosingScopeOf id = .ok scope

/-- A symbol is the class that stands first in the source among those of a name that are declared
directly in a scope. -/
def IsFirstClass (r : Resolution) (tree : SyntaxTree) (name : String) (scope : ScopeId)
    (symbol : SymbolId) : Prop :=
  ∃ first own superclass, r.DeclaresClass tree name scope first ∧ r.symbolOf first = some symbol ∧
    r.table.symbols[symbol.index]? =
      some ⟨symbol, name, .classType own superclass, scope, first, tree.locationAt first⟩ ∧
    ∀ other, r.DeclaresClass tree name scope other → tree.placeAt first ≤ tree.placeAt other

end Resolution

/-- What is found first in a sorted list comes before all else that could be found. -/
theorem le_of_find?_eq_some {α β : Type} [Preorder β] {key : α → β} {p : α → Bool} {items : List α}
    (sorted : items.Pairwise fun a b => key a ≤ key b) {first other : α}
    (found : items.find? p = some first) (member : other ∈ items) (fits : p other = true) :
    key first ≤ key other := by
  obtain ⟨-, before, after, rfl, none⟩ := List.find?_eq_some_iff_append.mp found
  rcases List.mem_append.mp member with early | late
  · exact absurd fits (by simpa using none other early)
  · rcases List.mem_cons.mp late with rfl | late
    · exact le_rfl
    · exact (List.pairwise_cons.mp (List.pairwise_append.mp sorted).2.1).1 other late

section Following

variable {tree : SyntaxTree} {b r : Resolution} {v : View} (prepared : Prepared tree b)
  (follows : v.Follows tree b r)
include prepared follows

/-- A class is declared by the symbol of its node, in the scope around it. -/
theorem class_symbol {id : NodeId} {node : Node} {name : String} {superclass : Option NodeId}
    {body : List NodeId} (reached : tree.Reachable id) (found : tree.node? id = some node)
    (is : node.production = .classDeclaration name superclass body) :
    r.symbolOf id = some (b.ownerAt id) ∧
      r.table.symbols[(b.ownerAt id).index]? = some ⟨b.ownerAt id, name,
        .classType (b.scopeAt id) (v.superclass (b.ownerAt id)), b.enclosingAt id, id,
        tree.locationAt id⟩ := by
  obtain ⟨symbol, -, declared, -⟩ :=
    prepared.registered.class_found prepared.formed reached found is
  have undeclared : id ∉ v.declared := by
    intro member
    obtain ⟨other, _, foundOther, isVariable⟩ := follows.grounded.named id member
    obtain rfl : node = other := Option.some.inj (found.symm.trans foundOther)
    rw [is] at isVariable
    cases isVariable
  constructor
  · rw [follows.rep.symbolOf_eq prepared reached, View.symbolOf, if_neg undeclared, symbol]
  · rw [follows.rep.old_symbol declared]
    simp [View.completed, SyntaxTree.locationAt, found]

/-- The classes that a scope lists are those declared directly in it. -/
theorem class_declared {scope : ScopeId} (known : scope.index < r.table.scopes.size) {name : String}
    {symbol : SymbolId} (listed : symbol ∈ r.table.listing scope)
    (isClass : r.table.holds (SymbolTable.isClassOf name) symbol = true) :
    ∃ id, r.DeclaresClass tree name scope id ∧ symbol = b.ownerAt id := by
  obtain ⟨x, found, here⟩ := (follows.rep.ordered.mem_listing known).mp listed
  obtain ⟨y, foundToo, named⟩ := SymbolTable.holds_iff.mp isClass
  obtain rfl : x = y := Option.some.inj (found.symm.trans foundToo)
  simp only [SymbolTable.isClassOf, Bool.and_eq_true, beq_iff_eq] at named
  obtain ⟨rfl, kindOfClass⟩ := named
  rcases follows.rep.symbol_cases follows.grounded.nodup found with
    ⟨old, foundOld, rfl⟩ | ⟨id, -, -, rfl⟩
  · obtain ⟨reached, symbolOf, node, foundNode, sort⟩ :=
      prepared.registered.symbol prepared.formed foundOld
    rcases sort with ⟨superclass, body, is, -⟩ | ⟨_, _, _, -, kind⟩
    · obtain ⟨isSymbol, -, declared, -⟩ :=
        prepared.registered.class_found prepared.formed reached foundNode is
      obtain rfl : symbol = b.ownerAt old.node := Option.some.inj (symbolOf.symm.trans isSymbol)
      have around : old.enclosing = b.enclosingAt old.node :=
        congrArg Symbol.enclosing (Option.some.inj (foundOld.symm.trans declared))
      refine ⟨_, ⟨reached, ⟨node, superclass, body, foundNode, is⟩, ?_⟩, rfl⟩
      rw [follows.rep.enclosingScopeOf_eq_ok prepared reached foundNode
        (by simp [Node.kind, is, Production.kind, NodeKind.introducesScope]), ← around]
      exact congrArg Except.ok here
    · simp [View.completed, kind, SymbolKind.isClass] at kindOfClass
  · cases kindOfClass

/-- The classes declared directly in a scope are listed in it, where they stand in the source. -/
theorem class_listed {scope : ScopeId} {name : String} {id : NodeId}
    (declares : r.DeclaresClass tree name scope id) :
    b.ownerAt id ∈ r.table.listing scope ∧
      r.table.holds (SymbolTable.isClassOf name) (b.ownerAt id) = true ∧
      r.table.place (b.ownerAt id) = tree.placeAt id ∧ b.enclosingAt id = scope := by
  obtain ⟨reached, ⟨node, superclass, body, found, is⟩, within⟩ := declares
  have symbol := (class_symbol prepared follows reached found is).2
  have known := (prepared.registered.class_found prepared.formed reached found is).2.2.2
  rw [follows.rep.enclosingScopeOf_eq_ok prepared reached found
    (by simp [Node.kind, is, Production.kind, NodeKind.introducesScope])] at within
  obtain rfl := Except.ok.inj within
  refine ⟨(follows.rep.ordered.mem_listing (follows.rep.frames.size_eq ▸ known)).mpr
    ⟨_, symbol, rfl⟩, SymbolTable.holds_iff.mpr ⟨_, symbol, ?_⟩, ?_, rfl⟩
  · simp [SymbolTable.isClassOf, SymbolKind.isClass]
  · simp [SymbolTable.place, symbol, Symbol.place, SyntaxTree.placeAt]

/-- A scope answers for a class with the first one of the name that is declared directly in it. -/
theorem findClass_answers {scope : ScopeId} (known : scope.index < b.table.scopes.size)
    (name : String) :
    r.table.findClass scope name = .ok none ∧ ¬ (∃ id, r.DeclaresClass tree name scope id) ∨
      ∃ symbol, r.table.findClass scope name = .ok (some symbol) ∧
        (∃ id, r.DeclaresClass tree name scope id) ∧ r.IsFirstClass tree name scope symbol := by
  have knownHere : scope.index < r.table.scopes.size := follows.rep.frames.size_eq ▸ known
  rw [follows.rep.ordered.findClass_eq knownHere]
  cases found : (r.table.listing scope).find? (r.table.holds (SymbolTable.isClassOf name)) with
  | none =>
    refine .inl ⟨rfl, ?_⟩
    rintro ⟨id, declares⟩
    obtain ⟨listed, isClass, -⟩ := class_listed prepared follows declares
    exact List.find?_eq_none.mp found _ listed isClass
  | some symbol =>
    obtain ⟨id, declares, rfl⟩ := class_declared prepared follows knownHere
      (List.mem_of_find?_eq_some found) (List.find?_some found)
    have first {other : NodeId} (declaresOther : r.DeclaresClass tree name scope other) :
        tree.placeAt id ≤ tree.placeAt other := by
      obtain ⟨-, -, place, -⟩ := class_listed prepared follows declares
      obtain ⟨listed, isClass, placeOther, -⟩ := class_listed prepared follows declaresOther
      rw [← place, ← placeOther]
      exact le_of_find?_eq_some (follows.rep.ordered.listing_sorted scope) found listed isClass
    obtain ⟨-, -, -, rfl⟩ := class_listed prepared follows declares
    obtain ⟨node, superclass, body, foundNode, is⟩ := declares.named
    obtain ⟨symbolOf, record⟩ := class_symbol prepared follows declares.reached foundNode is
    exact .inr ⟨_, rfl, ⟨id, declares⟩, id, _, _, declares, symbolOf, record, fun other => first⟩

/-- A scope answers for a variable with that of the first declarator id of the name in it. -/
theorem findVariable_answers
    (declaring : v.Declaring tree b (tree.declaratorIds (tree.events tree.root))) {scope : ScopeId}
    (known : scope.index < b.table.scopes.size) (name : String) :
    r.table.findVariable scope name = .ok none ∧ ¬ r.declarators tree scope name ≠ [] ∨
      ∃ symbol, r.table.findVariable scope name = .ok (some symbol) ∧
        r.declarators tree scope name ≠ [] ∧ r.IsFirstVariable tree name scope symbol := by
  have knownHere : scope.index < r.table.scopes.size := follows.rep.frames.size_eq ▸ known
  rw [follows.rep.ordered.findVariable_eq knownHere]
  cases found : (r.table.listing scope).find? (r.table.holds (SymbolTable.isVariableOf name)) with
  | none =>
    refine .inl ⟨rfl, fun some => ?_⟩
    have declared := firstDeclared prepared follows declaring scope name
    cases group : r.declarators tree scope name with
    | nil => exact some group
    | cons first rest =>
      rw [group] at declared
      obtain ⟨⟨symbol, type, location, -, record, listed⟩, -⟩ := declared
      refine List.find?_eq_none.mp found symbol listed (SymbolTable.holds_iff.mpr ⟨_, record, ?_⟩)
      simp [SymbolTable.isVariableOf, SymbolKind.isVariable]
  | some symbol =>
    obtain ⟨x, record, here⟩ :=
      (follows.rep.ordered.mem_listing knownHere).mp (List.mem_of_find?_eq_some found)
    obtain ⟨y, recordToo, named⟩ := SymbolTable.holds_iff.mp (List.find?_some found)
    obtain rfl : x = y := Option.some.inj (record.symm.trans recordToo)
    simp only [SymbolTable.isVariableOf, Bool.and_eq_true, beq_iff_eq] at named
    obtain ⟨rfl, isVariable⟩ := named
    subst here
    obtain ⟨-, first, symbolOf, -⟩ := variable_first prepared follows declaring record isVariable
    refine .inr ⟨symbol, rfl, fun none => by simp [none] at first, x.node, x.kind.variableType, first,
      symbolOf, ?_⟩
    rcases follows.rep.symbol_cases follows.grounded.nodup record with
      ⟨old, foundOld, rfl⟩ | ⟨id, -, place, rfl⟩
    · rw [View.completed_isVariable prepared.registered foundOld] at isVariable
      cases isVariable
    · obtain rfl : symbol = v.idOf b id := congrArg SymbolId.mk place
      exact record

end Following

/-- A lookup from the scope of a node is answered by the nearest around the node. -/
def Resolution.LooksUp (r : Resolution) (tree : SyntaxTree)
    (lookup : ScopeId → Except Fault (Option SymbolId)) (has : ScopeId → Prop)
    (gives : ScopeId → SymbolId → Prop) (id : NodeId) : Prop :=
  ∃ scope answer, r.scopeOf id = .ok scope ∧ lookup scope = .ok answer ∧
    r.Answers tree has gives id answer

/-- In an analysed unit a lookup from the scope of a node finds the variable of the first declarator id
of the name in the nearest scope around the node that has one. For a class it finds the one that
stands first in the source in the nearest scope that declares one of the name directly. -/
theorem analyze_lookups_lexical {tree : SyntaxTree} {root : Node} (valid : tree.validate = .ok ())
    (found : tree.node? tree.root = some root) (unit : root.kind = .compilationUnit)
    (settings : Settings) (locals : settings.enterLocalVariables = true) :
    ∃ r, analyze tree settings = .ok r ∧ ∀ id, tree.Reachable id → ∀ name,
      r.LooksUp tree (fun scope => r.table.lookupVariable scope name)
          (fun scope => r.declarators tree scope name ≠ []) (r.IsFirstVariable tree name) id ∧
        r.LooksUp tree (fun scope => r.table.lookupClass scope name)
          (fun scope => ∃ declared, r.DeclaresClass tree name scope declared)
          (r.IsFirstClass tree name) id := by
  obtain ⟨b, r, -, prepared, analysed, follows⟩ :=
    exists_analysed (SyntaxTree.validate_eq_ok_iff.mp valid) settings
  rw [locals] at follows
  have declaring := (View.atOnce_declaring tree b).of_agrees
    (View.analysed_agrees_atOnce prepared found unit)
  have plain : root.kind.introducesScope = false := by rw [unit]; rfl
  refine ⟨r, analysed, fun id reached name => ⟨?_, ?_⟩⟩
  · obtain ⟨answer, searched, answers⟩ := follows.rep.searchOutward_answers prepared found plain
      (fun scope known => findVariable_answers prepared follows declaring known name) reached
    exact ⟨_, answer, follows.rep.scopeOf_eq_ok prepared reached, searched, answers⟩
  · obtain ⟨answer, searched, answers⟩ := follows.rep.searchOutward_answers prepared found plain
      (fun scope known => findClass_answers prepared follows known name) reached
    exact ⟨_, answer, follows.rep.scopeOf_eq_ok prepared reached, searched, answers⟩

/-- The unit `int x; m(int x) { int x; { } class A extends A { } } class A { }`. -/
def SyntaxTree.shadowed : SyntaxTree where
  nodes := #[
    ⟨.primitiveType .int, ⟨0, 3⟩⟩, ⟨.typeNode ⟨0⟩, ⟨0, 3⟩⟩, ⟨.variableDeclaratorId "x", ⟨4, 5⟩⟩,
    ⟨.variableDeclarator ⟨2⟩ none, ⟨4, 5⟩⟩, ⟨.variableDeclarators ⟨1⟩ [⟨3⟩], ⟨0, 6⟩⟩,
    ⟨.primitiveType .int, ⟨9, 12⟩⟩, ⟨.typeNode ⟨5⟩, ⟨9, 12⟩⟩,
    ⟨.variableDeclaratorId "x", ⟨13, 14⟩⟩, ⟨.formalParameter ⟨6⟩ ⟨7⟩, ⟨9, 14⟩⟩,
    ⟨.primitiveType .int, ⟨18, 21⟩⟩, ⟨.typeNode ⟨9⟩, ⟨18, 21⟩⟩,
    ⟨.variableDeclaratorId "x", ⟨22, 23⟩⟩, ⟨.variableDeclarator ⟨11⟩ none, ⟨22, 23⟩⟩,
    ⟨.variableDeclarators ⟨10⟩ [⟨12⟩], ⟨18, 24⟩⟩, ⟨.block [], ⟨25, 28⟩⟩,
    ⟨.classReference "A", ⟨45, 46⟩⟩, ⟨.classDeclaration "A" (some ⟨15⟩) [], ⟨29, 50⟩⟩,
    ⟨.block [⟨13⟩, ⟨14⟩, ⟨16⟩], ⟨16, 52⟩⟩, ⟨.functionDeclaration "m" none [⟨8⟩] ⟨17⟩, ⟨7, 52⟩⟩,
    ⟨.classDeclaration "A" none [], ⟨53, 64⟩⟩, ⟨.compilationUnit [⟨4⟩, ⟨18⟩, ⟨19⟩], ⟨0, 64⟩⟩]
  root := ⟨20⟩

/-- The inner block sees the local of the block around it, the type of the parameter sees the parameter
only, and the superclass, which stands inside its class, sees the class that has it. -/
theorem analyze_lookups_lexical_shadowed :
    ∃ r, analyze SyntaxTree.shadowed Settings.standard = .ok r ∧
      r.LooksUp SyntaxTree.shadowed (fun scope => r.table.lookupVariable scope "x")
        (fun scope => r.declarators SyntaxTree.shadowed scope "x" ≠ [])
        (r.IsFirstVariable SyntaxTree.shadowed "x") ⟨14⟩ ∧
      r.LooksUp SyntaxTree.shadowed (fun scope => r.table.lookupClass scope "A")
        (fun scope => ∃ declared, r.DeclaresClass SyntaxTree.shadowed "A" scope declared)
        (r.IsFirstClass SyntaxTree.shadowed "A") ⟨15⟩ ∧
      (r.scopeOf ⟨14⟩ = .ok ⟨3⟩ ∧ r.table.lookupVariable ⟨3⟩ "x" = .ok (r.symbolOf ⟨11⟩)) ∧
      (r.scopeOf ⟨6⟩ = .ok ⟨1⟩ ∧ r.table.lookupVariable ⟨1⟩ "x" = .ok (r.symbolOf ⟨7⟩)) ∧
      (r.scopeOf ⟨15⟩ = .ok ⟨4⟩ ∧ r.table.lookupClass ⟨4⟩ "A" = .ok (r.symbolOf ⟨16⟩)) := by
  obtain ⟨r, analysed, lexical⟩ :=
    @analyze_lookups_lexical SyntaxTree.shadowed _ rfl rfl rfl Settings.standard rfl
  have below {parent child : NodeId} {node : Node} (reached : SyntaxTree.shadowed.Reachable parent)
      (found : SyntaxTree.shadowed.node? parent = some node) (member : child ∈ node.children) :
      SyntaxTree.shadowed.Reachable child := reached.child ⟨node, found, member⟩
  have function : SyntaxTree.shadowed.Reachable ⟨18⟩ :=
    below .root (show _ = some ⟨.compilationUnit [⟨4⟩, ⟨18⟩, ⟨19⟩], ⟨0, 64⟩⟩ from rfl) (by decide)
  have body : SyntaxTree.shadowed.Reachable ⟨17⟩ := below function rfl (by decide)
  have block : SyntaxTree.shadowed.Reachable ⟨14⟩ := below body rfl (by decide)
  have inner : SyntaxTree.shadowed.Reachable ⟨16⟩ := below body rfl (by decide)
  have superclass : SyntaxTree.shadowed.Reachable ⟨15⟩ := below inner rfl (by decide)
  have facts : (analyze SyntaxTree.shadowed Settings.standard).map (fun r =>
      ((r.scopeOf ⟨14⟩, r.table.lookupVariable ⟨3⟩ "x", r.symbolOf ⟨11⟩),
        (r.scopeOf ⟨6⟩, r.table.lookupVariable ⟨1⟩ "x", r.symbolOf ⟨7⟩),
        r.scopeOf ⟨15⟩, r.table.lookupClass ⟨4⟩ "A", r.symbolOf ⟨16⟩)) =
      .ok ((.ok ⟨3⟩, .ok (some ⟨5⟩), some ⟨5⟩), (.ok ⟨1⟩, .ok (some ⟨3⟩), some ⟨3⟩),
        .ok ⟨4⟩, .ok (some ⟨1⟩), some ⟨1⟩) := rfl
  rw [analysed] at facts
  simp only [Except.map, Except.ok.injEq, Prod.mk.injEq] at facts
  obtain ⟨⟨inBlock, nearest, isNearest⟩, ⟨inFunction, parameter, isParameter⟩, inClass, named, isNamed⟩ :=
    facts
  exact ⟨r, analysed, (lexical ⟨14⟩ block "x").1, (lexical ⟨15⟩ superclass "A").2,
    ⟨inBlock, nearest.trans (congrArg _ isNearest.symm)⟩,
    ⟨inFunction, parameter.trans (congrArg _ isParameter.symm)⟩,
    ⟨inClass, named.trans (congrArg _ isNamed.symm)⟩⟩

end ScriptSemantics
