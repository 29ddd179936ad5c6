import ScriptSemantics.Proofs.Renumbering

/-!
# The first declaration of a name counts

In each scope the first variable of a name that the walk comes to is declared. Every later one is
reported once and gets no symbol. It does not matter what other scopes hold, nor what functions or
classes bear the name.
-/
namespace ScriptSemantics

/-- The declarator ids that a run of events comes to, in order. -/
def SyntaxTree.declaratorIds (tree : SyntaxTree) (events : List Event) : List NodeId :=
  visits .enter events tree.isDeclaratorId

theorem SyntaxTree.WellFormed.mem_declaratorIds {tree : SyntaxTree} (formed : tree.WellFormed)
    {id : NodeId} : id ∈ tree.declaratorIds (tree.events tree.root) ↔
      tree.Reachable id ∧ tree.isDeclaratorId id = true :=
  mem_visits.trans (and_congr_left' (formed.mem_events .root))

theorem SyntaxTree.WellFormed.declaratorIds_nodup {tree : SyntaxTree} (formed : tree.WellFormed) :
    (tree.declaratorIds (tree.events tree.root)).Nodup :=
  visits_nodup (formed.events_nodup .root) tree.isDeclaratorId

/-- A node holds a declarator id and the type node that stands before it: it is the parameter of the
declarator id or the statement of its declarator. -/
def SyntaxTree.HoldsVariable (tree : SyntaxTree) (holder type id : NodeId) : Prop :=
  ∃ node, tree.node? holder = some node ∧
    (node.production = .formalParameter type id ∨
      ∃ declarators declarator below initializer,
        node.production = .variableDeclarators type declarators ∧ declarator ∈ declarators ∧
          tree.node? declarator = some below ∧
          below.production = .variableDeclarator id initializer)

theorem SyntaxTree.HoldsVariable.mem_typedBy {tree : SyntaxTree} {holder type id : NodeId}
    (holds : tree.HoldsVariable holder type id) : id ∈ tree.typedBy holder := by
  obtain ⟨⟨production, location⟩, found, is | ⟨declarators, inner, ⟨production', location'⟩,
    initializer, is, listed, foundInner, isInner⟩⟩ := holds
  · cases is
    simp [SyntaxTree.typedBy, found]
  · cases is
    cases isInner
    simp only [SyntaxTree.typedBy, found, List.mem_filterMap]
    exact ⟨inner, listed, by simp [SyntaxTree.declaredBy, foundInner]⟩

/-- Below a unit, every declarator id is held by a reachable node. -/
theorem SyntaxTree.WellFormed.exists_holder {tree : SyntaxTree} (formed : tree.WellFormed)
    {root node : Node} (foundRoot : tree.node? tree.root = some root)
    (unit : root.kind = .compilationUnit) {id : NodeId} (reached : tree.Reachable id)
    (found : tree.node? id = some node) (kind : node.kind = .variableDeclaratorId) :
    ∃ holder type, tree.Reachable holder ∧ tree.HoldsVariable holder type id := by
  have inner {other : NodeId} {below : Node} (foundOther : tree.node? other = some below)
      (differs : below.kind ≠ .compilationUnit) : other ≠ tree.root := by
    rintro rfl
    obtain rfl : root = below := Option.some.inj (foundRoot.symm.trans foundOther)
    exact differs unit
  obtain ⟨parent, above, reachedParent, foundParent, ⟨type, is⟩ | ⟨initializer, is⟩⟩ :=
    formed.declaratorId_parent reached found kind (inner found (by simp [kind]))
  · exact ⟨parent, type, reachedParent, above, foundParent, .inl is⟩
  · have kindParent : above.kind = .variableDeclarator := Node.kind_of is
    obtain ⟨holder, statement, type, declarators, reachedHolder, foundHolder, isStatement, listed⟩ :=
      formed.declarator_parent reachedParent foundParent kindParent
        (inner foundParent (by simp [kindParent]))
    exact ⟨holder, type, reachedHolder, statement, foundHolder,
      .inr ⟨declarators, parent, above, initializer, isStatement, listed, foundParent, is⟩⟩

/-- Whether a declarator id bears a name and is bound to a scope. -/
def Resolution.isNamed (b : Resolution) (tree : SyntaxTree) (scope : ScopeId) (name : String)
    (id : NodeId) : Bool := b.scopeAt id = scope && tree.nameAt id = name

namespace View

variable {tree : SyntaxTree} {b : Resolution} {v w : View} {entered : List NodeId}

/-- Of the declarator ids entered so far, the first of each name in each scope is declared, and the
others are reported once. -/
structure Declaring (tree : SyntaxTree) (b : Resolution) (entered : List NodeId) (v : View) :
    Prop where
  declared : ∀ scope name, v.declared.filter (b.isNamed tree scope name) =
    (entered.filter (b.isNamed tree scope name)).take 1
  inside : ∀ id ∈ v.declared, id ∈ entered
  checked : ∀ id, tree.isDeclaratorId id = true → (v.checked id = true ↔ id ∈ entered)
  reported : ∀ id, tree.isDeclaratorId id = true →
    (v.diagnostics.filter fun d => d.node = id).map Diagnostic.code =
      if id ∈ entered ∧ id ∉ v.declared then [.duplicateDeclaration] else []

namespace Declaring

theorem start : Declaring tree b [] (start b) where
  declared _ _ := rfl
  inside _ member := by cases member
  checked _ _ := by simp [View.start]
  reported _ _ := by simp [View.start]

/-- Coming to a declarator id declares it if it is the first, and reports it otherwise. -/
theorem enter (declaring : Declaring tree b entered v) {id : NodeId} {node : Node} {name : String}
    (found : tree.node? id = some node) (is : node.production = .variableDeclaratorId name)
    (new : id ∉ entered) {mode : Mode} (declares : b.declaresAt mode (b.scopeAt id) = true) :
    Declaring tree b (entered ++ [id]) (v.advance tree b mode ⟨.enter, id⟩) := by
  obtain ⟨production, location⟩ := node
  cases is
  have isDeclarator : tree.isDeclaratorId id = true :=
    SyntaxTree.isDeclaratorId_iff.mpr ⟨_, found, rfl⟩
  have undeclared : id ∉ v.declared := fun member => new (declaring.inside id member)
  have unchecked : v.checked id = false := by
    simpa [new] using declaring.checked id isDeclarator
  have isName : tree.nameAt id = name := by simp [SyntaxTree.nameAt, found]
  have silent : (v.diagnostics.filter fun d => d.node = id).map Diagnostic.code = [] := by
    rw [declaring.reported id isDeclarator, if_neg fun both => new both.1]
  have step : v.advance tree b mode ⟨.enter, id⟩ =
      if v.hasVariable tree b (b.scopeAt id) name then
        (v.check id).log id location .duplicateDeclaration
          s!"variable or parameter already declared: {name}"
      else (v.check id).declare id := by
    simp [advance, found, View.enter, declareVariableAt, undeclared, unchecked, declares]
  have checked (other : NodeId) (isOther : tree.isDeclaratorId other = true) :
      (v.check id).checked other = true ↔ other ∈ entered ++ [id] := by
    by_cases same : other = id
    · simp [View.check, same]
    · simp [View.check, same, declaring.checked other isOther]
  -- Only the name of the new id in its own scope is concerned.
  have elsewhere {scope : ScopeId} {other : String}
      (differs : b.isNamed tree scope other id = false) :
      v.declared.filter (b.isNamed tree scope other) =
        ((entered ++ [id]).filter (b.isNamed tree scope other)).take 1 := by
    simp [List.filter_append, differs, declaring.declared scope other]
  have here {scope : ScopeId} {other : String} (same : b.isNamed tree scope other id = true) :
      v.hasVariable tree b (b.scopeAt id) name = true ↔
        entered.filter (b.isNamed tree scope other) ≠ [] := by
    have any : v.declared.any (b.isNamed tree scope other) = true ↔
        v.declared.filter (b.isNamed tree scope other) ≠ [] := by simp [List.filter_eq_nil_iff]
    simp only [Resolution.isNamed, Bool.and_eq_true, decide_eq_true_eq, isName] at same
    obtain ⟨rfl, rfl⟩ := same
    refine any.trans ?_
    rw [declaring.declared]
    cases entered.filter (b.isNamed tree (b.scopeAt id) name) <;> simp
  rw [step]
  split
  next before =>
    refine ⟨fun scope other => ?_, fun x member => List.mem_append_left _ (declaring.inside x member),
      checked, fun x isX => ?_⟩
    · cases same : b.isNamed tree scope other id with
      | false => exact elsewhere same
      | true =>
        cases first : entered.filter (b.isNamed tree scope other) with
        | nil => exact ((here same).mp before first).elim
        | cons x rest =>
          simp [View.log, View.check, List.filter_append, declaring.declared scope other, first]
    · by_cases same : x = id
      · subst same
        simp [View.log, View.check, List.filter_append, silent, undeclared]
      · simpa [View.log, View.check, List.filter_append, same, Ne.symm same] using
          declaring.reported x isX
  next none =>
    refine ⟨fun scope other => ?_, fun x member => ?_, checked, fun x isX => ?_⟩
    · cases same : b.isNamed tree scope other id with
      | false =>
        simpa [View.declare, View.check, List.filter_append, same] using elsewhere same
      | true =>
        have first : entered.filter (b.isNamed tree scope other) = [] :=
          not_not.mp fun some => none ((here same).mpr some)
        simp [View.declare, View.check, List.filter_append, declaring.declared scope other, first,
          same]
    · rcases List.mem_append.mp member with old | isNew
      · exact List.mem_append_left _ (declaring.inside x old)
      · exact List.mem_append_right _ isNew
    · by_cases same : x = id
      · subst same
        simp [View.declare, View.check, silent]
      · simpa [View.declare, View.check, same] using declaring.reported x isX

theorem again (declaring : Declaring tree b entered v) {id : NodeId} {node : Node} {name : String}
    (found : tree.node? id = some node) (is : node.production = .variableDeclaratorId name)
    (member : id ∈ entered) (mode : Mode) :
    Declaring tree b (entered ++ [id]) (v.advance tree b mode ⟨.enter, id⟩) := by
  obtain ⟨production, location⟩ := node
  cases is
  have isDeclarator : tree.isDeclaratorId id = true :=
    SyntaxTree.isDeclaratorId_iff.mpr ⟨_, found, rfl⟩
  have same : v.advance tree b mode ⟨.enter, id⟩ = v := by
    simp [advance, found, View.enter, declareVariableAt,
      (declaring.checked id isDeclarator).mpr member]
  have mem (other : NodeId) : other ∈ entered ++ [id] ↔ other ∈ entered := by
    simp only [List.mem_append, List.mem_singleton, or_iff_left_iff_imp]
    rintro rfl
    exact member
  rw [same]
  refine ⟨fun scope other => ?_, fun x declared => (mem x).mpr (declaring.inside x declared),
    fun x isX => (declaring.checked x isX).trans (mem x).symm, fun x isX => ?_⟩
  · rw [declaring.declared, List.filter_append]
    cases named : b.isNamed tree scope other id with
    | false => simp [named]
    | true =>
      have inGroup : id ∈ entered.filter (b.isNamed tree scope other) :=
        List.mem_filter.mpr ⟨member, named⟩
      cases first : entered.filter (b.isNamed tree scope other) with
      | nil => simp [first] at inGroup
      | cons x rest => rfl
  · simpa only [mem] using declaring.reported x isX

/-- Any other event leaves the variables and what is said of them alone. -/
theorem other (declaring : Declaring tree b entered v) {event : Event} {mode : Mode}
    (other : event.phase = .enter → tree.isDeclaratorId event.node = true →
      b.declaresAt mode (b.scopeAt event.node) = false) :
    Declaring tree b entered (v.advance tree b mode event) := by
  have writes : Writes tree b event v (v.advance tree b mode event) := advance_writes
  -- A declarator id that is left, or whose scope the pass passes over, has nothing done to it.
  by_cases isDeclarator : tree.isDeclaratorId event.node = true
  · have same : v.advance tree b mode event = v := by
      have declares := other
      simp only [isDeclarator, forall_const] at declares
      obtain ⟨⟨production, location⟩, found, kind⟩ := SyntaxTree.isDeclaratorId_iff.mp isDeclarator
      cases production <;> cases kind
      cases phase : event.phase with
      | enter => simp [advance, found, phase, View.enter, declareVariableAt, declares phase]
      | exit => simp [advance, found, phase, View.exit]
    rwa [same]
  · have away {id : NodeId} (isId : tree.isDeclaratorId id = true) : event.node ≠ id := by
      rintro rfl
      exact isDeclarator isId
    have declared := writes.declared_eq fun _ => by simpa using isDeclarator
    refine ⟨?_, ?_, fun id isId => ?_, fun id isId => ?_⟩
    · rw [declared]
      exact declaring.declared
    · rw [declared]
      exact declaring.inside
    · rw [writes.checked_eq (away isId)]
      exact declaring.checked id isId
    · obtain ⟨added, diagnostics, nodes⟩ := writes.diagnostics_eq
      have none : added.filter (fun d => d.node = id) = [] := by
        rw [List.filter_eq_nil_iff]
        intro d member
        simpa [nodes d member] using away isId
      rw [diagnostics, List.filter_append, none, List.append_nil, declared]
      exact declaring.reported id isId

/-- What holds of the declarations after each step holds after a run of a pass, which comes to the
declarator ids in whose scopes it declares. It may have come to some of them before. -/
theorem run (declaring : Declaring tree b entered v) (mode : Mode) (events : List Event) :
    Declaring tree b (entered ++ (tree.declaratorIds events).filter fun id =>
      b.declaresAt mode (b.scopeAt id)) (events.foldl (View.advance tree b mode) v) := by
  induction events generalizing v entered with
  | nil => simpa [SyntaxTree.declaratorIds, visits] using declaring
  | cons event events ih =>
    by_cases enters : event.phase = .enter ∧ tree.isDeclaratorId event.node = true ∧
        b.declaresAt mode (b.scopeAt event.node) = true
    · obtain ⟨phase, id⟩ := event
      obtain ⟨rfl, isDeclarator, declares⟩ := enters
      have ids : (tree.declaratorIds (⟨.enter, id⟩ :: events)).filter (fun id =>
          b.declaresAt mode (b.scopeAt id)) = id :: (tree.declaratorIds events).filter fun id =>
            b.declaresAt mode (b.scopeAt id) := by
        simp only [SyntaxTree.declaratorIds, visits]
        rw [List.filter_cons_of_pos (by simp [isDeclarator]), List.map_cons,
          List.filter_cons_of_pos (by simpa using declares)]
      rw [ids, List.append_cons]
      obtain ⟨⟨production, location⟩, found, kind⟩ := SyntaxTree.isDeclaratorId_iff.mp isDeclarator
      cases production <;> cases kind
      by_cases member : id ∈ entered
      · exact ih (declaring.again found rfl member mode)
      · exact ih (declaring.enter found rfl member declares)
    · have ids : (tree.declaratorIds (event :: events)).filter (fun id =>
          b.declaresAt mode (b.scopeAt id)) = (tree.declaratorIds events).filter fun id =>
            b.declaresAt mode (b.scopeAt id) := by
        simp only [SyntaxTree.declaratorIds, visits, List.filter_cons]
        split
        next both =>
          simp only [Bool.and_eq_true, beq_iff_eq] at both
          rw [List.map_cons, List.filter_cons_of_neg]
          exact fun declares => enters ⟨both.1, both.2, declares⟩
        next => rfl
      rw [ids]
      refine ih (declaring.other fun enter isDeclarator => ?_)
      simpa using fun declares => enters ⟨enter, isDeclarator, declares⟩

theorem run_withLocals (declaring : Declaring tree b entered v) (events : List Event) :
    Declaring tree b (entered ++ tree.declaratorIds events)
      (events.foldl (View.advance tree b .withLocals) v) := by
  have all : (tree.declaratorIds events).filter (fun id =>
      b.declaresAt .withLocals (b.scopeAt id)) = tree.declaratorIds events :=
    List.filter_eq_self.mpr fun id _ => by simp [Resolution.declaresAt]
  exact all ▸ declaring.run .withLocals events

/-- Only what is entered counts, and what is entered first of each name in each scope. -/
theorem congr (declaring : Declaring tree b entered v) {others : List NodeId}
    (same : ∀ id, id ∈ others ↔ id ∈ entered)
    (first : ∀ scope name, (others.filter (b.isNamed tree scope name)).head? =
      (entered.filter (b.isNamed tree scope name)).head?) : Declaring tree b others v where
  declared scope name := by
    rw [declaring.declared, List.take_one, List.take_one, first]
  inside id member := (same id).mpr (declaring.inside id member)
  checked id isId := (declaring.checked id isId).trans (same id).symm
  reported id isId := by simpa only [same] using declaring.reported id isId

theorem of_agrees (declaring : Declaring tree b entered w) (agree : Agrees v w) :
    Declaring tree b entered v where
  declared scope name := by
    have perm := agree.declared.filter (b.isNamed tree scope name)
    rw [declaring.declared] at perm
    cases first : entered.filter (b.isNamed tree scope name) with
    | nil => simpa [first] using perm
    | cons x rest => simpa [first] using perm
  inside id member := declaring.inside id (agree.declared.mem_iff.mp member)
  checked id isId := by
    rw [agree.checked]
    exact declaring.checked id isId
  reported id isId := by
    have perm := (agree.diagnostics.filter fun d => d.node = id).map Diagnostic.code
    rw [declaring.reported id isId] at perm
    simp only [agree.declared.mem_iff]
    split at perm
    next repeated => simpa [repeated] using perm
    next only => simpa [only] using perm

theorem mem_declared_iff (declaring : Declaring tree b entered v) (id : NodeId) :
    id ∈ v.declared ↔
      (entered.filter (b.isNamed tree (b.scopeAt id) (tree.nameAt id))).head? = some id := by
  have self : b.isNamed tree (b.scopeAt id) (tree.nameAt id) id = true := by
    simp [Resolution.isNamed]
  have listed : id ∈ v.declared ↔
      id ∈ v.declared.filter (b.isNamed tree (b.scopeAt id) (tree.nameAt id)) := by
    simp [List.mem_filter, self]
  rw [listed, declaring.declared]
  cases entered.filter (b.isNamed tree (b.scopeAt id) (tree.nameAt id)) with
  | nil => simp
  | cons first rest => simp [eq_comm]

end Declaring

/-- One pass with locals declares the first variable of each name in each scope. -/
theorem atOnce_declaring (tree : SyntaxTree) (b : Resolution) :
    Declaring tree b (tree.declaratorIds (tree.events tree.root)) (atOnce tree b) := by
  simpa [atOnce] using Declaring.start.run_withLocals (tree.events tree.root)

/-- Once the node that holds a variable is done with, the variable has the type that stands before
it. -/
theorem variableType_of_done {holder type id : NodeId} (holds : tree.HoldsVariable holder type id)
    (done : ∀ node, tree.node? holder = some node → v.Done tree b .withLocals holder node)
    (member : id ∈ v.declared) : v.variableType id = v.typeOf type := by
  have typed := holds.mem_typedBy
  obtain ⟨⟨production, location⟩, found, is | ⟨_, _, _, _, is, -⟩⟩ := holds
  · cases is
    exact (done _ found member).1
  · cases is
    exact done _ found (by simp [Resolution.typesAt]) id typed member

/-- The variables of a unit get the types of the type nodes that stand before them. -/
theorem atOnce_variableType (prepared : Prepared tree b) {holder type id : NodeId}
    (reached : tree.Reachable holder) (member : id ∈ (atOnce tree b).declared)
    (holds : tree.HoldsVariable holder type id) :
    (atOnce tree b).variableType id = (atOnce tree b).typeOf type :=
  variableType_of_done holds (fun _ found => foldl_done prepared reached found (start b)) member

end View

namespace Resolution

/-- The declarator ids of a name that are bound to a scope, in the order of the walk. -/
def declarators (r : Resolution) (tree : SyntaxTree) (scope : ScopeId) (name : String) :
    List NodeId :=
  (tree.declaratorIds (tree.trace tree.root).events).filter fun id =>
    (r.factsOf id).scope = some scope && tree.nameAt id = name

/-- The first of some declarator ids has a variable of a scope and is not reported. Each of the others
has no symbol and is reported once, as a duplicate. -/
def FirstDeclared (r : Resolution) (scope : ScopeId) (name : String) : List NodeId → Prop
  | [] => True
  | first :: rest =>
    (∃ symbol type location, r.symbolOf first = some symbol ∧
      r.table.symbols[symbol.index]? = some ⟨symbol, name, .var type, scope, first, location⟩ ∧
      symbol ∈ r.table.listing scope) ∧
    (∀ d ∈ r.diagnostics.toList, d.node ≠ first) ∧
    ∀ id ∈ rest, r.symbolOf id = none ∧
      (r.diagnostics.toList.filter fun d => d.node = id).map Diagnostic.code =
        [.duplicateDeclaration]

end Resolution

section Represented

variable {tree : SyntaxTree} {b r : Resolution} {v : View} (prepared : Prepared tree b)
  (follows : v.Follows tree b r)
  (declaring : v.Declaring tree b (tree.declaratorIds (tree.events tree.root)))
include prepared follows

theorem declarators_eq (scope : ScopeId) (name : String) : r.declarators tree scope name =
    (tree.declaratorIds (tree.events tree.root)).filter (b.isNamed tree scope name) := by
  refine List.filter_congr fun id member => ?_
  obtain ⟨reached, -⟩ := prepared.formed.mem_declaratorIds.mp member
  have bound : (b.factsOf id).scope = some (b.scopeAt id) :=
    (prepared.registered.facts prepared.formed reached).1
  rw [follows.rep.facts id (prepared.index_lt reached), bound]
  simp [Resolution.isNamed]

/-- A declarator id has a symbol exactly if its variable is declared. -/
theorem symbolOf_declarator {id : NodeId} (reached : tree.Reachable id)
    (isDeclarator : tree.isDeclaratorId id = true) :
    r.symbolOf id = if id ∈ v.declared then some (v.idOf b id) else none := by
  obtain ⟨⟨production, location⟩, found, kind⟩ := SyntaxTree.isDeclaratorId_iff.mp isDeclarator
  cases production <;> cases kind
  exact follows.declarator_symbol prepared reached found rfl

include declaring

theorem firstDeclared (scope : ScopeId) (name : String) :
    r.FirstDeclared scope name (r.declarators tree scope name) := by
  rw [declarators_eq prepared follows]
  have nodup := prepared.formed.declaratorIds_nodup.filter (b.isNamed tree scope name)
  have each : ∀ id ∈ (tree.declaratorIds (tree.events tree.root)).filter
      (b.isNamed tree scope name), tree.Reachable id ∧ tree.isDeclaratorId id = true ∧
        b.scopeAt id = scope ∧ tree.nameAt id = name := by
    intro id member
    obtain ⟨listed, named⟩ := List.mem_filter.mp member
    obtain ⟨reached, isDeclarator⟩ := prepared.formed.mem_declaratorIds.mp listed
    simp only [Resolution.isNamed, Bool.and_eq_true, decide_eq_true_eq] at named
    exact ⟨reached, isDeclarator, named⟩
  have declared : ∀ id ∈ (tree.declaratorIds (tree.events tree.root)).filter
      (b.isNamed tree scope name), id ∈ v.declared ↔
        ((tree.declaratorIds (tree.events tree.root)).filter
          (b.isNamed tree scope name)).head? = some id := by
    intro id member
    obtain ⟨-, -, rfl, rfl⟩ := each id member
    exact declaring.mem_declared_iff id
  generalize (tree.declaratorIds (tree.events tree.root)).filter (b.isNamed tree scope name) = group
    at nodup each declared
  cases group with
  | nil => trivial
  | cons first rest =>
    have isFirst : first ∈ v.declared := (declared first (by simp)).mpr rfl
    obtain ⟨reached, isDeclarator, rfl, rfl⟩ := each first (by simp)
    have symbol := follows.rep.variable_symbol isFirst
    have known : (b.scopeAt first).index < r.table.scopes.size :=
      follows.rep.frames.size_eq ▸ prepared.registered.scope_known prepared.formed reached
    refine ⟨⟨v.idOf b first, v.variableType first, tree.locationAt first, ?_, symbol,
      (follows.rep.ordered.mem_listing known).mpr ⟨_, symbol, rfl⟩⟩, fun d reported => ?_,
      fun id member => ?_⟩
    · rw [symbolOf_declarator prepared follows reached isDeclarator, if_pos isFirst]
    · have silent := declaring.reported first isDeclarator
      rw [if_neg fun both => both.2 isFirst, List.map_eq_nil_iff, List.filter_eq_nil_iff] at silent
      rw [follows.rep.diagnostics] at reported
      simpa using silent d reported
    · obtain ⟨reachedId, isDeclaratorId, -⟩ := each id (by simp [member])
      have undeclared : id ∉ v.declared := by
        intro isDeclared
        have isHead := (declared id (by simp [member])).mp isDeclared
        obtain rfl : first = id := by simpa using isHead
        exact (List.nodup_cons.mp nodup).1 member
      have entered := prepared.formed.mem_declaratorIds.mpr ⟨reachedId, isDeclaratorId⟩
      rw [symbolOf_declarator prepared follows reachedId isDeclaratorId, if_neg undeclared,
        follows.rep.diagnostics, declaring.reported id isDeclaratorId, if_pos ⟨entered, undeclared⟩]
      exact ⟨rfl, rfl⟩

/-- Every variable is that of the first declarator id of its name in its scope. -/
theorem variable_first {i : Nat} {symbol : Symbol} (found : r.table.symbols[i]? = some symbol)
    (isVariable : symbol.kind.isVariable = true) : symbol.node ∈ v.declared ∧
      (r.declarators tree symbol.enclosing symbol.name).head? = some symbol.node ∧
      r.symbolOf symbol.node = some ⟨i⟩ ∧
      symbol.kind.variableType = v.variableType symbol.node := by
  rcases follows.rep.symbol_cases follows.grounded.nodup found with
    ⟨old, foundOld, rfl⟩ | ⟨id, member, place, rfl⟩
  · rw [View.completed_isVariable prepared.registered foundOld] at isVariable
    cases isVariable
  · obtain ⟨reached, isDeclarator⟩ :=
      prepared.formed.mem_declaratorIds.mp (declaring.inside id member)
    refine ⟨member, ?_, ?_, rfl⟩
    · rw [declarators_eq prepared follows]
      exact (declaring.mem_declared_iff id).mp member
    · rw [symbolOf_declarator prepared follows reached isDeclarator, if_pos member, place]

/-- Every reported declarator id is a later one of its name in its scope. -/
theorem reported_later {d : Diagnostic} (reported : d ∈ r.diagnostics.toList)
    (isDeclarator : tree.isDeclaratorId d.node = true) :
    ∃ scope name, d.node ∈ (r.declarators tree scope name).tail := by
  have codes := declaring.reported d.node isDeclarator
  rw [follows.rep.diagnostics] at reported
  have listed : d.code ∈ (v.diagnostics.filter fun other => other.node = d.node).map
      Diagnostic.code := List.mem_map_of_mem (List.mem_filter.mpr ⟨reported, by simp⟩)
  rw [codes] at listed
  split at listed
  next repeated =>
    refine ⟨b.scopeAt d.node, tree.nameAt d.node, ?_⟩
    rw [declarators_eq prepared follows]
    have inGroup : d.node ∈ (tree.declaratorIds (tree.events tree.root)).filter
        (b.isNamed tree (b.scopeAt d.node) (tree.nameAt d.node)) :=
      List.mem_filter.mpr ⟨repeated.1, by simp [Resolution.isNamed]⟩
    have notHead := fun isHead => repeated.2 ((declaring.mem_declared_iff d.node).mpr isHead)
    cases group : (tree.declaratorIds (tree.events tree.root)).filter
        (b.isNamed tree (b.scopeAt d.node) (tree.nameAt d.node)) with
    | nil => simp [group] at inGroup
    | cons first rest =>
      rw [group] at inGroup notHead
      refine (List.mem_cons.mp inGroup).resolve_left fun isFirst => notHead ?_
      rw [isFirst]
      rfl
  next => cases listed

end Represented

/-- In an analysed unit the first declarator id of each name in each scope has a variable, every later
one is reported once as a duplicate, and a variable has the type of the type node before it. There
are no other variables, and no other declarator ids are reported. -/
theorem analyze_declares_first {tree : SyntaxTree} {root : Node} (valid : tree.validate = .ok ())
    (found : tree.node? tree.root = some root) (unit : root.kind = .compilationUnit)
    (settings : Settings) (locals : settings.enterLocalVariables = true) :
    ∃ r, analyze tree settings = .ok r ∧
      (∀ scope name, r.FirstDeclared scope name (r.declarators tree scope name)) ∧
      (∀ (i : Nat) (symbol : Symbol), r.table.symbols[i]? = some symbol →
        symbol.kind.isVariable = true →
          (r.declarators tree symbol.enclosing symbol.name).head? = some symbol.node ∧
          r.symbolOf symbol.node = some ⟨i⟩ ∧
          ∃ holder type, tree.HoldsVariable holder type symbol.node ∧
            symbol.kind.variableType = r.typeOf type) ∧
      ∀ d ∈ r.diagnostics.toList, tree.isDeclaratorId d.node = true →
        ∃ scope name, d.node ∈ (r.declarators tree scope name).tail := by
  obtain ⟨b, r, -, prepared, analysed, follows⟩ :=
    exists_analysed (SyntaxTree.validate_eq_ok_iff.mp valid) settings
  rw [locals] at follows
  have agree := View.analysed_agrees_atOnce prepared found unit
  have declaring := (View.atOnce_declaring tree b).of_agrees agree
  refine ⟨r, analysed, firstDeclared prepared follows declaring, ?_,
    fun d => reported_later prepared follows declaring⟩
  intro i symbol foundSymbol isVariable
  obtain ⟨member, isFirst, symbolOf, type⟩ :=
    variable_first prepared follows declaring foundSymbol isVariable
  refine ⟨isFirst, symbolOf, ?_⟩
  have reached := follows.grounded.reached _ member
  obtain ⟨node, name, foundNode, is⟩ := follows.grounded.named _ member
  obtain ⟨holder, typeNode, reachedHolder, holds⟩ := prepared.formed.exists_holder found unit reached
    foundNode (Node.kind_of is)
  have reachedType : tree.Reachable typeNode := by
    obtain ⟨above, foundAbove, is | ⟨declarators, _, _, _, is, -⟩⟩ := holds <;>
      exact reachedHolder.child ⟨above, foundAbove, by simp [Node.children, is, Production.children]⟩
  refine ⟨holder, typeNode, holds, ?_⟩
  rw [type, follows.rep.typeOf_eq prepared reachedType, agree.variableType, agree.typeOf]
  exact View.atOnce_variableType prepared reachedHolder (agree.declared.mem_iff.mp member) holds

/-- The field in between is a variable of another scope, so only the last local is reported. -/
theorem analyze_declares_first_repeated :
    ∃ r, analyze SyntaxTree.repeated Settings.standard = .ok r ∧
      r.FirstDeclared ⟨0⟩ "x" [⟨2⟩, ⟨13⟩] ∧ r.FirstDeclared ⟨1⟩ "x" [⟨7⟩] := by
  obtain ⟨r, analysed, first, -⟩ :=
    @analyze_declares_first SyntaxTree.repeated _ rfl rfl rfl Settings.standard rfl
  have groups : (analyze SyntaxTree.repeated Settings.standard).map (fun r =>
      (r.declarators SyntaxTree.repeated ⟨0⟩ "x", r.declarators SyntaxTree.repeated ⟨1⟩ "x")) =
      .ok ([⟨2⟩, ⟨13⟩], [⟨7⟩]) := rfl
  rw [analysed] at groups
  simp only [Except.map, Except.ok.injEq, Prod.mk.injEq] at groups
  exact ⟨r, analysed, groups.1 ▸ first ⟨0⟩ "x", groups.2 ▸ first ⟨1⟩ "x"⟩

end ScriptSemantics
