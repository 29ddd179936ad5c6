import ScriptSemantics.Proofs.TypeTexts
import ScriptSemantics.Proofs.Views

/-!
# Resolutions that a view represents

A view determines a resolution up to the order in which scopes list their symbols, and the order is
determined by where the symbols stand. Each operation on resolutions has its counterpart on views, and
the operation gives a result whenever the view is one that the pass can come to.
-/
namespace ScriptSemantics

@[simp] theorem Resolution.interrupting_ok {α : Type} (r : Resolution) (a : α) :
    r.interrupting (.ok a) = .ok a := rfl

/-- A well-formed tree with the result of its registration. -/
structure Prepared (tree : SyntaxTree) (b : Resolution) : Prop where
  formed : tree.WellFormed
  registered : Registered tree b

theorem Prepared.index_lt {tree : SyntaxTree} {b : Resolution} (prepared : Prepared tree b)
    {id : NodeId} (reached : tree.Reachable id) : id.index < tree.size := by
  obtain ⟨node, found⟩ := prepared.formed.reachable_node reached
  exact (tree.node?_isSome_iff id).mp (by simp [found])

/-- Whether a scope is that of a class. -/
def Resolution.IsClassScope (b : Resolution) (scope : ScopeId) : Prop :=
  ∃ symbol, b.scopeKind scope = some (.classScope symbol)

namespace View

/-- The number of a declared variable. -/
def idOf (v : View) (b : Resolution) (id : NodeId) : SymbolId :=
  ⟨b.table.symbols.size + v.declared.idxOf id⟩

def symbolOf (v : View) (b : Resolution) (id : NodeId) : Option SymbolId :=
  if id ∈ v.declared then some (v.idOf b id) else b.symbolOf id

/-- A class or function with what has been found out about it. -/
def completed (v : View) (b : Resolution) (symbol : Symbol) : Symbol :=
  { symbol with
    kind := match symbol.kind with
      | .function own _ _ =>
        .function own (v.returnType symbol.id) ((v.parameters symbol.id).map (v.idOf b))
      | .classType own _ => .classType own (v.superclass symbol.id)
      | .var type => .var type }

/-- The symbol of a number: first those of registration, then the variables. -/
def symbolAt (v : View) (tree : SyntaxTree) (b : Resolution) (i : Nat) : Option Symbol :=
  if i < b.table.symbols.size then (b.table.symbols[i]?).map (v.completed b)
  else (v.declared[i - b.table.symbols.size]?).map fun id =>
    ⟨⟨i⟩, tree.nameAt id, .var (v.variableType id), b.scopeAt id, id, tree.locationAt id⟩

/-- What holds of every view that the pass comes to. -/
structure Grounded (v : View) (tree : SyntaxTree) (b : Resolution) : Prop where
  nodup : v.declared.Nodup
  reached : ∀ id ∈ v.declared, tree.Reachable id
  named : ∀ id ∈ v.declared, ∃ node name, tree.node? id = some node ∧
    node.production = .variableDeclaratorId name
  untyped : ∀ id, id ∉ v.declared → v.variableType id = none
  parameters : ∀ function, ∀ id ∈ v.parameters function, id ∈ v.declared
  types : v.types.Formed b.IsClassScope
  typed : ∀ id type, v.typeOf id = some type →
    type.Formed b.IsClassScope v.types.functions.size
  variableTyped : ∀ id type, v.variableType id = some type →
    type.Formed b.IsClassScope v.types.functions.size
  returns : ∀ function type, v.returnType function = some type →
    type.Formed b.IsClassScope v.types.functions.size
  superclasses : ∀ symbol scope, v.superclass symbol = some scope → b.IsClassScope scope

/-- A resolution has the types, diagnostics and symbols of a view and the scopes of registration. -/
structure Represents (v : View) (tree : SyntaxTree) (b r : Resolution) : Prop where
  types : r.types = v.types
  diagnostics : r.diagnostics.toList = v.diagnostics
  size : r.facts.size = tree.size
  facts : ∀ id : NodeId, id.index < tree.size →
    r.factsOf id = ⟨(b.factsOf id).scope, v.symbolOf b id, v.typeOf id, v.checked id⟩
  symbols : ∀ i : Nat, r.table.symbols[i]? = v.symbolAt tree b i
  frames : r.table.SameFrames b.table
  ordered : r.table.Ordered

variable {tree : SyntaxTree} {b r : Resolution} {v : View}

theorem Grounded.start (prepared : Prepared tree b) : (start b).Grounded tree b where
  nodup := List.nodup_nil
  reached id member := by cases member
  named id member := by cases member
  untyped id _ := rfl
  parameters function id member := by cases member
  types index signature found := by
    simp [View.start, prepared.registered.functions] at found
  typed id type typed := by cases typed
  variableTyped id type typed := by cases typed
  returns function type typed := by cases typed
  superclasses symbol scope isSuperclass := by cases isSuperclass

theorem Represents.start (prepared : Prepared tree b) : (start b).Represents tree b b where
  types := rfl
  diagnostics := by simp [View.start, prepared.registered.diagnostics]
  size := prepared.registered.size
  facts id _ := by
    obtain ⟨type, checked⟩ := prepared.registered.unresolved prepared.formed id
    simp only [symbolOf, View.start, List.not_mem_nil, if_false, ← type, ← checked]
    rfl
  symbols i := by
    unfold symbolAt
    split
    next bound =>
      have found : b.table.symbols[i]? = some b.table.symbols[i] := by simp [bound]
      rw [found, Option.map_some, Option.some.injEq]
      rcases prepared.registered.fresh i _ found with ⟨own, kind⟩ | ⟨own, kind⟩
      · cases is : b.table.symbols[i]
        simp_all [completed, View.start]
      · cases is : b.table.symbols[i]
        simp_all [completed, View.start]
    next => simp_all [View.start]
  frames _ := rfl
  ordered := prepared.registered.ordered

section Reading

variable (prepared : Prepared tree b) (rep : v.Represents tree b r)
include prepared rep

theorem Represents.typeOf_eq {id : NodeId} (reached : tree.Reachable id) :
    r.typeOf id = v.typeOf id := by
  rw [Resolution.typeOf, rep.facts id (prepared.index_lt reached)]

/-- A node that need not be there has the type that the view tells if it is. -/
theorem Represents.bind_typeOf_eq (child : Option NodeId)
    (reached : ∀ id, child = some id → tree.Reachable id) :
    child.bind r.typeOf = child.bind v.typeOf := by
  cases child with
  | none => rfl
  | some id => exact rep.typeOf_eq prepared (reached id rfl)

theorem Represents.symbolOf_eq {id : NodeId} (reached : tree.Reachable id) :
    r.symbolOf id = v.symbolOf b id := by
  rw [Resolution.symbolOf, rep.facts id (prepared.index_lt reached)]

omit prepared in
/-- Nothing is known of a number that no node of the tree has. -/
theorem Represents.factsOf_beyond {id : NodeId} (beyond : ¬ id.index < tree.size) :
    r.factsOf id = .unknown := by
  simp [Resolution.factsOf, Array.getElem?_eq_none (rep.size ▸ Nat.le_of_not_lt beyond)]

theorem Represents.scopeOf_eq_ok {id : NodeId} (reached : tree.Reachable id) :
    r.scopeOf id = .ok (b.scopeAt id) := by
  have facts := rep.facts id (prepared.index_lt reached)
  have scope := (prepared.registered.facts prepared.formed reached).1
  simp [Resolution.scopeOf, facts, scope]

omit prepared in
theorem Represents.scope_eq_ok {scope : ScopeId} (known : scope.index < b.table.scopes.size) :
    ∃ s, r.table.scope scope = .ok s ∧ b.scopeKind scope = some s.kind ∧
      ∃ t, b.table.scopes[scope.index]? = some t ∧ s.enclosing = t.enclosing := by
  obtain ⟨t, found⟩ := SymbolTable.scope_exists known
  obtain ⟨s, foundHere, kind, enclosing, -⟩ := rep.frames.symm.exists_scope found
  exact ⟨s, by simp [SymbolTable.scope, foundHere], by simp [Resolution.scopeKind, found, kind], t,
    found, enclosing⟩

/-- The scope around a class, a function or a block is there. -/
theorem Represents.enclosingScopeOf_eq_ok {id : NodeId} {node : Node} (reached : tree.Reachable id)
    (found : tree.node? id = some node) (introduces : node.kind.introducesScope = true) :
    r.enclosingScopeOf id = .ok (b.enclosingAt id) := by
  obtain ⟨s, read, -, t, foundScope, around⟩ :=
    rep.scope_eq_ok (prepared.registered.scope_known prepared.formed reached)
  obtain ⟨outer, -, bound⟩ := prepared.registered.bound prepared.formed reached found
  obtain ⟨own, foundOwn, isOuter⟩ := bound.introduced introduces
  obtain rfl : t = own := Option.some.inj (foundScope.symm.trans foundOwn)
  simp [Resolution.enclosingScopeOf, rep.scopeOf_eq_ok prepared reached, read, around, isOuter,
    Resolution.enclosingAt, foundOwn, pure, Except.pure]

theorem Represents.declaresIn_eq_ok {id : NodeId} (reached : tree.Reachable id) (mode : Mode) :
    r.declaresIn mode (b.scopeAt id) = .ok (b.declaresAt mode (b.scopeAt id)) := by
  obtain ⟨s, read, kind, -⟩ :=
    rep.scope_eq_ok (prepared.registered.scope_known prepared.formed reached)
  simp only [Resolution.declaresIn, read, ok_bind, Resolution.declaresAt, Resolution.isMemberScope,
    kind, Option.bind_some]
  cases s.kind <;> rfl

theorem Represents.typesIn_eq_ok {id : NodeId} (reached : tree.Reachable id) (mode : Mode) :
    r.typesIn mode (b.scopeAt id) = .ok (b.typesAt mode (b.scopeAt id)) := by
  obtain ⟨s, read, kind, -⟩ :=
    rep.scope_eq_ok (prepared.registered.scope_known prepared.formed reached)
  simp only [Resolution.typesIn, read, ok_bind, Resolution.typesAt, kind, Option.any_some]
  rfl

omit prepared in
/-- The number of symbols is that of registration and of the variables. -/
theorem Represents.symbols_size :
    r.table.symbols.size = b.table.symbols.size + v.declared.length := by
  have iff (i : Nat) : i < r.table.symbols.size ↔
      i < b.table.symbols.size + v.declared.length := by
    have isSome : (r.table.symbols[i]?).isSome ↔
        i < b.table.symbols.size + v.declared.length := by
      rw [rep.symbols, symbolAt]
      split
      next bound => simp [bound]; omega
      next => simp; omega
    simpa using isSome
  have := iff r.table.symbols.size
  have := iff (b.table.symbols.size + v.declared.length)
  omega

omit prepared in
theorem Represents.idOf_lt {id : NodeId} (member : id ∈ v.declared) :
    (v.idOf b id).index < r.table.symbols.size := by
  rw [rep.symbols_size, idOf]
  have := List.idxOf_lt_length_of_mem member
  simp only
  omega

end Reading

theorem idOf_inj {left right : NodeId} (leftMember : left ∈ v.declared)
    (same : v.idOf b left = v.idOf b right) : left = right := by
  have index : v.declared.idxOf left = v.declared.idxOf right := by
    have := congrArg SymbolId.index same
    simp only [idOf] at this
    omega
  exact List.idxOf_inj leftMember |>.mp index

section Writing

variable (rep : v.Represents tree b r)
include rep

theorem Represents.setType {id : NodeId} (here : id.index < tree.size) (type : Ty) :
    ∃ after, r.setType id type = .ok after ∧ (v.setType id type).Represents tree b after := by
  have known : id.index < r.facts.size := rep.size ▸ here
  refine ⟨_, Resolution.updateFacts_eq_ok known _, rep.types, rep.diagnostics,
    (Resolution.withFacts_size ..).trans rep.size, fun other inRange => ?_, rep.symbols, rep.frames,
    rep.ordered⟩
  rw [Resolution.factsOf_withFacts known]
  by_cases same : other = id
  · subst same
    simp only [if_true, rep.facts other inRange, View.setType]
    rfl
  · simp only [if_neg same, rep.facts other inRange, View.setType]
    rfl

theorem Represents.checkOnce {id : NodeId} (here : id.index < tree.size) :
    ∃ after, r.checkOnce id = .ok (!v.checked id, after) ∧
      (v.check id).Represents tree b after := by
  have known : id.index < r.facts.size := rep.size ▸ here
  have first : (!v.checked id) = !(r.factsOf id).checked := by rw [rep.facts id here]
  refine ⟨_, Resolution.checkOnce_eq_ok_iff.mpr ⟨known, first, rfl⟩, rep.types,
    rep.diagnostics, (Resolution.withFacts_size ..).trans rep.size, fun other inRange => ?_,
    rep.symbols, rep.frames, rep.ordered⟩
  rw [Resolution.factsOf_withFacts known]
  by_cases same : other = id
  · subst same
    simp only [if_true, rep.facts other inRange, View.check]
    rfl
  · simp only [if_neg same, rep.facts other inRange, View.check]
    rfl

theorem Represents.log (id : NodeId) (location : Location) (code : DiagnosticCode)
    (message : String) : (v.log id location code message).Represents tree b
      (r.log code message id location) where
  types := rep.types
  diagnostics := by simp [Resolution.log, View.log, rep.diagnostics]
  size := rep.size
  facts := rep.facts
  symbols := rep.symbols
  frames := rep.frames
  ordered := rep.ordered

theorem Represents.allocate (signature : Signature) :
    (v.allocate signature).Represents tree b
      { r with types := (r.types.allocate signature).2 } where
  types := by simp [View.allocate, rep.types]
  diagnostics := rep.diagnostics
  size := rep.size
  facts := rep.facts
  symbols := rep.symbols
  frames := rep.frames
  ordered := rep.ordered

/-- A change of what one symbol names, with its counterpart on views. -/
theorem Represents.updateKind {after : View} {id : SymbolId}
    (known : id.index < r.table.symbols.size) {change : SymbolKind → SymbolKind}
    (types : after.types = v.types) (diagnostics : after.diagnostics = v.diagnostics)
    (declared : after.declared = v.declared) (typeOf : after.typeOf = v.typeOf)
    (checked : after.checked = v.checked)
    (symbols : ∀ i, after.symbolAt tree b i = (v.symbolAt tree b i).map fun symbol =>
      if id.index = i then { symbol with kind := change symbol.kind } else symbol) :
    ∃ later, r.onTable (fun table => table.updateKind id change) = .ok later ∧
      after.Represents tree b later := by
  refine ⟨{ r with table := r.table.withKind id change }, ?_, rep.types.trans types.symm,
    rep.diagnostics.trans diagnostics.symm, rep.size, fun other inRange => ?_, fun i => ?_,
    rep.frames, rep.ordered.withKind id change⟩
  · simp only [Resolution.onTable, SymbolTable.updateKind_eq_ok known, ok_bind]
    rfl
  · simp only [symbolOf, idOf, declared, typeOf, checked]
    exact rep.facts other inRange
  · rw [SymbolTable.withKind_symbols, rep.symbols, symbols]

theorem Represents.setVariableType {id : NodeId} (member : id ∈ v.declared) (nodup : v.declared.Nodup)
    (type : Option Ty) :
    ∃ after, r.onTable (fun table => table.setVariableType (v.idOf b id) type) = .ok after ∧
      (v.typeVariables [id] type).Represents tree b after := by
  refine rep.updateKind (rep.idOf_lt member) rfl rfl rfl rfl rfl fun i => ?_
  have position := List.idxOf_lt_length_of_mem member
  unfold symbolAt
  split
  next old =>
    have other : (v.idOf b id).index ≠ i := by
      simp only [idOf]
      omega
    simp only [other, if_false, Option.map_id']
    rfl
  next new =>
    simp only [typeVariables, Option.map_map]
    cases found : v.declared[i - b.table.symbols.size]? with
    | none => rfl
    | some other =>
      obtain ⟨bound, isOther⟩ := List.getElem?_eq_some_iff.mp found
      have inDeclared : other ∈ v.declared := List.mem_of_getElem? found
      have here : (v.idOf b id).index = i ↔ other = id := by
        simp only [idOf]
        rw [← isOther]
        constructor
        · intro same
          have index : i - b.table.symbols.size = v.declared.idxOf id := by omega
          simp only [index, List.getElem_idxOf]
        · intro same
          have index := nodup.idxOf_getElem _ bound
          rw [same] at index
          omega
      simp only [Option.map_some, Function.comp_apply, Option.some.injEq, here]
      by_cases same : other = id
      · simp [same, member, SymbolKind.withVariableType]
      · simp [same]

/-- A change of what is found out about a class or a function. -/
theorem Represents.updateOwner {after : View} {id : SymbolId} (registered : Registered tree b)
    (known : id.index < b.table.symbols.size) {change : SymbolKind → SymbolKind}
    (types : after.types = v.types) (diagnostics : after.diagnostics = v.diagnostics)
    (declared : after.declared = v.declared) (typeOf : after.typeOf = v.typeOf)
    (checked : after.checked = v.checked) (variableType : after.variableType = v.variableType)
    (completed : ∀ symbol, after.completed b symbol =
      if symbol.id = id then
        { v.completed b symbol with kind := change (v.completed b symbol).kind }
      else v.completed b symbol) :
    ∃ later, r.onTable (fun table => table.updateKind id change) = .ok later ∧
      after.Represents tree b later := by
  refine rep.updateKind (by rw [rep.symbols_size]; omega) types diagnostics declared typeOf checked
    fun i => ?_
  unfold symbolAt
  split
  next old =>
    have found : b.table.symbols[i]? = some b.table.symbols[i] := by simp [old]
    have isId : b.table.symbols[i].id = id ↔ id.index = i := by
      rw [registered.ordered.symbol_id i _ found]
      exact ⟨fun same => by rw [← same], fun same => congrArg SymbolId.mk same.symm⟩
    simp only [found, Option.map_some, completed, isId]
  next new =>
    have other : id.index ≠ i := by omega
    simp only [declared, variableType, other, if_false, Option.map_id']

theorem Represents.setReturnType (registered : Registered tree b) {function : SymbolId}
    (known : function.index < b.table.symbols.size) (type : Option Ty) :
    ∃ after, r.onTable (fun table => table.setReturnType function type) = .ok after ∧
      (v.setReturnType function type).Represents tree b after := by
  refine rep.updateOwner registered known rfl rfl rfl rfl rfl rfl fun symbol => ?_
  have ids : (v.setReturnType function type).idOf b = v.idOf b := rfl
  simp only [completed, ids]
  by_cases here : symbol.id = function <;> cases symbol.kind <;>
    simp [View.setReturnType, here, SymbolKind.withReturnType]

theorem Represents.setSuperclass (registered : Registered tree b) {id : SymbolId}
    (known : id.index < b.table.symbols.size) (superclass : ScopeId) :
    ∃ after, r.onTable (fun table => table.setSuperclass id superclass) = .ok after ∧
      (v.setSuperclass id superclass).Represents tree b after := by
  refine rep.updateOwner registered known rfl rfl rfl rfl rfl rfl fun symbol => ?_
  have ids : (v.setSuperclass id superclass).idOf b = v.idOf b := rfl
  simp only [completed, ids]
  by_cases here : symbol.id = id <;> cases symbol.kind <;>
    simp [View.setSuperclass, here, SymbolKind.withSuperclass]

theorem Represents.pushParameter (registered : Registered tree b) {function : SymbolId}
    (known : function.index < b.table.symbols.size) {id : NodeId} (member : id ∈ v.declared) :
    ∃ after, r.onTable (fun table => table.pushParameter function (v.idOf b id)) = .ok after ∧
      (v.pushParameter function id).Represents tree b after := by
  refine rep.updateOwner registered known rfl rfl rfl rfl rfl rfl fun symbol => ?_
  have listed : v.idOf b id ∈ (v.parameters function).map (v.idOf b) ↔
      id ∈ v.parameters function := by
    rw [List.mem_map]
    constructor
    · rintro ⟨other, inParameters, same⟩
      exact idOf_inj member same.symm ▸ inParameters
    · exact fun inParameters => ⟨id, inParameters, rfl⟩
  have ids : (v.pushParameter function id).idOf b = v.idOf b := rfl
  simp only [completed, ids]
  by_cases here : symbol.id = function <;> by_cases inParameters : id ∈ v.parameters function <;>
    cases symbol.kind <;>
    simp only [View.pushParameter, here, inParameters, SymbolKind.withParameter, listed] <;> simp

/-- Declaring a variable at a node adds the symbol and notes it as the node's. -/
theorem Represents.declare (prepared : Prepared tree b) (grounded : v.Grounded tree b) {id : NodeId}
    {node : Node} {name : String} (reached : tree.Reachable id) (found : tree.node? id = some node)
    (is : node.production = .variableDeclaratorId name) (new : id ∉ v.declared) :
    ∃ symbol table after,
      r.table.declareVariable (b.scopeAt id) name id node.location = .ok (symbol, table) ∧
        ({ r with table := table }).setSymbol id symbol = .ok after ∧
        (v.declare id).Represents tree b after := by
  have here := prepared.index_lt reached
  have known : (b.scopeAt id).index < r.table.scopes.size :=
    rep.frames.size_eq ▸ prepared.registered.scope_known prepared.formed reached
  have isName : tree.nameAt id = name := by
    obtain ⟨production, location⟩ := node
    cases is
    simp [SyntaxTree.nameAt, found]
  have isLocation : tree.locationAt id = node.location := by simp [SyntaxTree.locationAt, found]
  have idOf_old {other : NodeId} (member : other ∈ v.declared) :
      (v.declare id).idOf b other = v.idOf b other := by
    simp [idOf, View.declare, List.idxOf_append_of_mem member]
  have idOf_new : (v.declare id).idOf b id = r.table.nextSymbol := by
    simp [idOf, View.declare, List.idxOf_append_of_notMem new, SymbolTable.nextSymbol,
      rep.symbols_size]
  let table := r.table.withSymbol (b.scopeAt id) name (.var none) id node.location
  have inRange : id.index < ({ r with table := table } : Resolution).facts.size := rep.size ▸ here
  refine ⟨_, table, _, SymbolTable.addSymbol_eq_ok known name (.var none) id node.location,
    Resolution.updateFacts_eq_ok inRange _, rep.types, rep.diagnostics,
    (Resolution.withFacts_size ..).trans rep.size, fun other otherRange => ?_, fun i => ?_, ?_, ?_⟩
  · have same : ({ r with table := table } : Resolution).factsOf = r.factsOf := rfl
    rw [Resolution.factsOf_withFacts inRange, same]
    by_cases isNew : other = id
    · subst isNew
      simp only [if_true, rep.facts other otherRange, symbolOf, idOf_new]
      simp [View.declare]
    · simp only [if_neg isNew, rep.facts other otherRange, symbolOf]
      by_cases member : other ∈ v.declared
      · simp only [member, if_true, idOf_old member]
        simp [View.declare, member]
      · simp [View.declare, member, isNew]
  · change (r.table.withSymbol _ _ _ _ _).symbols[i]? = _
    rw [SymbolTable.withSymbol_symbols, rep.symbols_size, rep.symbols]
    unfold symbolAt
    split
    next last =>
      rw [if_neg (by omega)]
      simp [View.declare, isName, isLocation, SymbolTable.nextSymbol, rep.symbols_size,
        grounded.untyped id new, last]
    next notLast =>
      split
      next old =>
        congr 1
        funext symbol
        have parameters : (v.parameters symbol.id).map ((v.declare id).idOf b) =
            (v.parameters symbol.id).map (v.idOf b) :=
          List.map_congr_left fun other member => idOf_old (grounded.parameters _ other member)
        simp only [completed, View.declare] at parameters ⊢
        rw [parameters]
      next older =>
        simp only [View.declare, List.getElem?_append]
        split
        · rfl
        · have beyond : v.declared[i - b.table.symbols.size]? = none := by
            rw [List.getElem?_eq_none_iff]
            omega
          rw [beyond, List.getElem?_eq_none (by simp; omega)]
  · intro i
    rw [← rep.frames i]
    exact SymbolTable.withSymbol_sameFrames _ _ _ _ _ i
  · exact rep.ordered.withSymbol _ _ _ _ _ known

end Writing

end View

end ScriptSemantics
