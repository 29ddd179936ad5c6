import ScriptSemantics.Proofs.Signatures
import ScriptSemantics.Proofs.SymbolNodes

/-!
# Parameters of functions

The declarator ids bound to the scope of a function are those of its parameters, and the walk enters
them and leaves the parameters in source order. A function gets a parameter when the walk leaves it,
if it is declared, and no later walk adds one. So it has the declared ones in source order.
-/
namespace ScriptSemantics

/-- Two lists drawn in order from a list without repetitions are one list if they have the same
members. -/
theorem eq_of_sublists {α : Type} {whole first second : List α} (nodup : whole.Nodup)
    (left : first.Sublist whole) (right : second.Sublist whole)
    (same : ∀ a, a ∈ first ↔ a ∈ second) : first = second := by
  induction whole generalizing first second with
  | nil => rw [List.sublist_nil.mp left, List.sublist_nil.mp right]
  | cons a whole ih =>
    obtain ⟨new, rest⟩ := List.nodup_cons.mp nodup
    cases left with
    | cons _ left =>
      cases right with
      | cons _ right => exact ih rest left right same
      | cons_cons _ right => exact absurd (left.subset ((same a).mpr List.mem_cons_self)) new
    | cons_cons _ left =>
      cases right with
      | cons _ right => exact absurd (right.subset ((same a).mp List.mem_cons_self)) new
      | cons_cons _ right =>
        rw [ih rest left right fun b => ?_]
        have here := same b
        have apart {b : α} (member : b ∈ whole) : b ≠ a := fun is => new (is ▸ member)
        constructor
        · intro member
          exact (List.mem_cons.mp (here.mp (List.mem_cons_of_mem _ member))).resolve_left
            (apart (left.subset member))
        · intro member
          exact (List.mem_cons.mp (here.mpr (List.mem_cons_of_mem _ member))).resolve_left
            (apart (right.subset member))

/-- What is picked from each item stands in order in what lists it for each item. -/
theorem filterMap_sublist_flatMap {α β : Type} {f : α → Option β} {g : α → List β} (items : List α)
    (listed : ∀ a ∈ items, ∀ b, f a = some b → b ∈ g a) :
    (items.filterMap f).Sublist (items.flatMap g) := by
  induction items with
  | nil => simp
  | cons a items ih =>
    have rest := ih fun a member => listed a (List.mem_cons_of_mem _ member)
    rw [List.flatMap_cons]
    cases found : f a with
    | none =>
      rw [List.filterMap_cons_none found]
      exact rest.trans (List.sublist_append_right _ _)
    | some b =>
      rw [List.filterMap_cons_some found, ← List.singleton_append]
      exact (List.singleton_sublist.mpr (listed a List.mem_cons_self b found)).append rest

namespace SyntaxTree

variable {tree : SyntaxTree}

def parameterId (tree : SyntaxTree) (id : NodeId) : Option NodeId :=
  match tree.node? id with
  | some ⟨.formalParameter _ declarator, _⟩ => some declarator
  | _ => none

/-- The declarator ids of the parameters of a function, in source order. -/
def parameterIds (tree : SyntaxTree) (id : NodeId) : List NodeId :=
  match tree.node? id with
  | some ⟨.functionDeclaration _ _ parameters _, _⟩ => parameters.filterMap tree.parameterId
  | _ => []

/-- The declarator ids of the parameters that a run of events leaves, in order. -/
def leftParameters (tree : SyntaxTree) (events : List Event) : List NodeId :=
  events.filterMap fun event =>
    match event.phase with
    | .enter => none
    | .exit => tree.parameterId event.node

theorem parameterId_eq_some_iff {id declarator : NodeId} :
    tree.parameterId id = some declarator ↔ tree.IsParameter id declarator := by
  unfold parameterId IsParameter
  split
  next type found => simp [found]
  next other =>
    simp only [reduceCtorEq, false_iff]
    rintro ⟨⟨production, location⟩, type, found, is⟩
    cases is
    exact other _ _ _ found

theorem IsParameter.hasChild {id declarator : NodeId} (is : tree.IsParameter id declarator) :
    tree.HasChild id declarator := by
  obtain ⟨node, type, found, is⟩ := is
  exact ⟨node, found, by simp [Node.children, is, Production.children]⟩

theorem mem_leftParameters {events : List Event} {declarator : NodeId} :
    declarator ∈ tree.leftParameters events ↔
      ∃ id, ⟨.exit, id⟩ ∈ events ∧ tree.IsParameter id declarator := by
  simp only [leftParameters, List.mem_filterMap]
  constructor
  · rintro ⟨⟨phase, id⟩, listed, picked⟩
    cases phase with
    | enter => cases picked
    | exit => exact ⟨id, listed, parameterId_eq_some_iff.mp picked⟩
  · rintro ⟨id, listed, isParameter⟩
    exact ⟨_, listed, parameterId_eq_some_iff.mpr isParameter⟩

section Function

variable {id body : NodeId} {node : Node} {name : String} {returnType : Option NodeId}
  {parameters : List NodeId} (found : tree.node? id = some node)
  (is : node.production = .functionDeclaration name returnType parameters body)
include found is

theorem parameterIds_eq : tree.parameterIds id = parameters.filterMap tree.parameterId := by
  obtain ⟨production, location⟩ := node
  cases is
  simp [parameterIds, found]

theorem mem_parameterIds {declarator : NodeId} : declarator ∈ tree.parameterIds id ↔
    ∃ parameter ∈ parameters, tree.IsParameter parameter declarator := by
  simp only [parameterIds_eq found is, List.mem_filterMap, parameterId_eq_some_iff]

theorem map_parameterId (formed : tree.WellFormed) :
    parameters.map tree.parameterId = (tree.parameterIds id).map some := by
  rw [parameterIds_eq found is, List.map_filterMap, ← List.filterMap_eq_map]
  refine List.filterMap_congr fun parameter member => ?_
  obtain ⟨below, type, declarator, foundBelow, isParameter⟩ :=
    formed.function_parameter found is member
  have picked : tree.parameterId parameter = some declarator :=
    parameterId_eq_some_iff.mpr ⟨below, type, foundBelow, isParameter⟩
  simp [picked]

theorem hasChild_parameter {parameter : NodeId} (member : parameter ∈ parameters) :
    tree.HasChild id parameter :=
  ⟨node, found, by simp [Node.children, is, Production.children, member]⟩

variable (formed : tree.WellFormed) (reached : tree.Reachable id)
include formed reached

theorem events_parameters :
    (parameters.flatMap tree.events).Sublist (tree.events tree.root) := by
  have within : (parameters.flatMap tree.events).Sublist (tree.events id) := by
    rw [formed.events_eq reached found]
    simp only [Node.children, is, Production.children, List.flatMap_append]
    rw [List.cons_append]
    refine .cons _ ?_
    rw [List.append_assoc, List.append_assoc]
    exact (List.sublist_append_left _ _).trans (List.sublist_append_right _ _)
  exact within.trans (formed.events_infix .root reached).sublist

/-- What each parameter has in its events stands in source order in the walk. -/
theorem parameterIds_sublist {g : List Event → List NodeId}
    (flat : ∀ ids : List NodeId,
      g (ids.flatMap tree.events) = ids.flatMap fun id => g (tree.events id))
    (mono : ∀ {short long : List Event}, short.Sublist long → (g short).Sublist (g long))
    (listed : ∀ parameter declarator, tree.Reachable parameter →
      tree.IsParameter parameter declarator → declarator ∈ g (tree.events parameter)) :
    (tree.parameterIds id).Sublist (g (tree.events tree.root)) := by
  rw [parameterIds_eq found is]
  refine .trans (filterMap_sublist_flatMap _ fun parameter member declarator picked =>
    listed parameter declarator (reached.child (hasChild_parameter found is member))
      (parameterId_eq_some_iff.mp picked)) ?_
  rw [← flat]
  exact mono (events_parameters found is formed reached)

/-- The parameters of a function are left in source order. -/
theorem parameterIds_sublist_left :
    (tree.parameterIds id).Sublist (tree.leftParameters (tree.events tree.root)) := by
  refine parameterIds_sublist found is formed reached (fun ids => ?_) (fun part => part.filterMap _)
    fun parameter declarator reachedParameter isParameter => ?_
  · exact List.filterMap_flatMap
  · exact mem_leftParameters.mpr
      ⟨parameter, (formed.mem_events reachedParameter).mpr (.refl _), isParameter⟩

theorem parameterIds_sublist_declaratorIds :
    (tree.parameterIds id).Sublist (tree.declaratorIds (tree.events tree.root)) := by
  refine parameterIds_sublist found is formed reached (fun ids => ?_)
    (fun part => (part.filter _).map _) fun parameter declarator reachedParameter isParameter => ?_
  · simp only [declaratorIds, visits, List.filter_flatMap, List.map_flatMap]
  · obtain ⟨above, type, foundAbove, isAbove⟩ := isParameter
    obtain ⟨below, called, foundBelow, isId⟩ := formed.parameter_declarator foundAbove isAbove
    have isDeclarator : tree.isDeclaratorId declarator = true :=
      isDeclaratorId_iff.mpr ⟨below, foundBelow, Node.kind_of isId⟩
    exact mem_visits.mpr ⟨(formed.mem_events reachedParameter).mpr
      (IsParameter.hasChild ⟨above, type, foundAbove, isAbove⟩).within, isDeclarator⟩

theorem parameterIds_nodup : (tree.parameterIds id).Nodup :=
  (parameterIds_sublist_declaratorIds found is formed reached).nodup formed.declaratorIds_nodup

theorem declaratorId_of_mem_parameterIds {declarator : NodeId}
    (listed : declarator ∈ tree.parameterIds id) :
    tree.Reachable declarator ∧ tree.isDeclaratorId declarator = true :=
  formed.mem_declaratorIds.mp
    ((parameterIds_sublist_declaratorIds found is formed reached).subset listed)

end Function

theorem WellFormed.leftParameters_nodup (formed : tree.WellFormed) :
    (tree.leftParameters (tree.events tree.root)).Nodup := by
  refine (formed.events_nodup .root).filterMap ?_
  rintro ⟨phase, first⟩ ⟨phase', second⟩ declarator left right
  cases phase <;> cases phase' <;> simp only [Option.mem_def, reduceCtorEq] at left right
  rw [formed.parent_unique (parameterId_eq_some_iff.mp left).hasChild
    (parameterId_eq_some_iff.mp right).hasChild]

end SyntaxTree

namespace Prepared

variable {tree : SyntaxTree} {b : Resolution} (prepared : Prepared tree b)
include prepared

theorem scopeAt_isParameter {parameter declarator : NodeId} (reached : tree.Reachable parameter)
    (isParameter : tree.IsParameter parameter declarator) :
    b.scopeAt declarator = b.scopeAt parameter := by
  refine prepared.scopeAt_typedBy reached ?_
  obtain ⟨⟨production, location⟩, type, found, is⟩ := isParameter
  cases is
  simp [SyntaxTree.typedBy, found]

/-- A declarator id bound to the scope of a function stands in a parameter, since no declaration
statement is bound to such a scope. -/
theorem exists_parameter {declarator : NodeId} {symbol : SymbolId}
    (reached : tree.Reachable declarator) (isDeclarator : tree.isDeclaratorId declarator = true)
    (function : b.scopeKind (b.scopeAt declarator) = some (.functionScope symbol)) :
    ∃ parameter, tree.Reachable parameter ∧ tree.IsParameter parameter declarator := by
  -- The root is bound to the namespace unless it has a scope of its own.
  have inner {other : NodeId} {below : Node} (foundOther : tree.node? other = some below)
      (plain : below.kind.introducesScope = false) (same : b.scopeAt declarator = b.scopeAt other) :
      other ≠ tree.root := by
    rintro rfl
    obtain ⟨name, kind⟩ := prepared.registered.scopeKind_root
    rw [same, prepared.registered.scopeAt_root foundOther plain, kind] at function
    cases function
  obtain ⟨node, found, kind⟩ := SyntaxTree.isDeclaratorId_iff.mp isDeclarator
  obtain ⟨parent, above, reachedParent, foundParent, ⟨type, isParent⟩ | ⟨initializer, isParent⟩⟩ :=
    prepared.formed.declaratorId_parent reached found kind
      (inner found (by simp [kind, NodeKind.introducesScope]) rfl)
  · exact ⟨parent, reachedParent, above, type, foundParent, isParent⟩
  · have plain : above.kind.introducesScope = false := by
      simp [Node.kind, isParent, Production.kind, NodeKind.introducesScope]
    have sameParent : b.scopeAt declarator = b.scopeAt parent :=
      prepared.registered.scopeAt_child reachedParent
        ⟨above, foundParent, by simp [Node.children, isParent, Production.children]⟩ found
        (by simp [kind, NodeKind.introducesScope])
    obtain ⟨holder, statement, type, declarators, reachedHolder, foundHolder, isStatement,
      member⟩ := prepared.formed.declarator_parent reachedParent foundParent
        (Node.kind_of isParent) (inner foundParent plain sameParent)
    have sameHolder : b.scopeAt parent = b.scopeAt holder :=
      prepared.registered.scopeAt_child reachedHolder
        ⟨statement, foundHolder, by simp [Node.children, isStatement, Production.children, member]⟩
        foundParent plain
    rw [sameParent, sameHolder] at function
    exact (prepared.registered.statement_scope prepared.formed reachedHolder foundHolder
      (Node.kind_of isStatement) _ function).elim

variable {id body : NodeId} {node : Node} {name : String} {returnType : Option NodeId}
  {parameters : List NodeId} (reached : tree.Reachable id) (found : tree.node? id = some node)
  (is : node.production = .functionDeclaration name returnType parameters body)
include reached found is

theorem scopeAt_parameter {parameter : NodeId} (member : parameter ∈ parameters) :
    b.scopeAt parameter = b.scopeAt id := by
  obtain ⟨below, type, declarator, foundBelow, isParameter⟩ :=
    prepared.formed.function_parameter found is member
  exact prepared.registered.scopeAt_child reached (SyntaxTree.hasChild_parameter found is member)
    foundBelow (by simp [Node.kind, isParameter, Production.kind, NodeKind.introducesScope])

/-- The declarator ids bound to the scope of a function are those of its parameters. -/
theorem mem_parameterIds_iff {declarator : NodeId} (reachedId : tree.Reachable declarator)
    (isDeclarator : tree.isDeclaratorId declarator = true) :
    declarator ∈ tree.parameterIds id ↔ b.scopeAt declarator = b.scopeAt id := by
  constructor
  · intro listed
    obtain ⟨parameter, member, isParameter⟩ := (SyntaxTree.mem_parameterIds found is).mp listed
    have reachedParameter := reached.child (SyntaxTree.hasChild_parameter found is member)
    exact (prepared.scopeAt_isParameter reachedParameter isParameter).trans
      (prepared.scopeAt_parameter reached found is member)
  · intro here
    have function := (prepared.registered.function_found prepared.formed reached found is).2.1
    obtain ⟨parameter, reachedParameter, isParameter⟩ :=
      prepared.exists_parameter reachedId isDeclarator (here ▸ function)
    have owned : b.ownerAt parameter = b.ownerAt id := by
      rw [Resolution.ownerAt, Resolution.ownerAt,
        ← prepared.scopeAt_isParameter reachedParameter isParameter, here]
    obtain ⟨other, _, _, _, _, foundOther, isOther, member⟩ := prepared.parameter_listed reached
      ⟨node, found, Node.kind_of is⟩ reachedParameter isParameter owned
    exact (SyntaxTree.mem_parameterIds foundOther isOther).mpr ⟨parameter, member, isParameter⟩

theorem scopeAt_of_mem_parameterIds {declarator : NodeId}
    (listed : declarator ∈ tree.parameterIds id) : b.scopeAt declarator = b.scopeAt id := by
  obtain ⟨reachedId, isDeclarator⟩ :=
    SyntaxTree.declaratorId_of_mem_parameterIds found is prepared.formed reached listed
  exact (prepared.mem_parameterIds_iff reached found is reachedId isDeclarator).mp listed

theorem declaratorIds_filter_scopeAt : (tree.declaratorIds (tree.events tree.root)).filter
    (fun declarator => b.scopeAt declarator = b.scopeAt id) = tree.parameterIds id := by
  have ordered := SyntaxTree.parameterIds_sublist_declaratorIds found is prepared.formed reached
  refine eq_of_sublists prepared.formed.declaratorIds_nodup List.filter_sublist ordered
    fun declarator => ?_
  rw [List.mem_filter, decide_eq_true_eq]
  constructor
  · rintro ⟨listed, here⟩
    obtain ⟨reachedId, isDeclarator⟩ := prepared.formed.mem_declaratorIds.mp listed
    exact (prepared.mem_parameterIds_iff reached found is reachedId isDeclarator).mpr here
  · intro listed
    exact ⟨ordered.subset listed, prepared.scopeAt_of_mem_parameterIds reached found is listed⟩

end Prepared

namespace View

variable {tree : SyntaxTree} {b : Resolution} {mode : Mode}

theorem pushParameter_sublist (v : View) (owner : SymbolId) (parameter : NodeId)
    (function : SymbolId) : ((v.pushParameter owner parameter).parameters function).Sublist
      (v.parameters function ++ [parameter]) := by
  simp only [pushParameter]
  split
  next here => rw [here.1]
  next => exact List.sublist_append_left _ _

/-- At an event a function gets at most the parameter that is left. -/
theorem advance_parameters_sublist (v : View) (event : Event) (function : SymbolId) :
    ((v.advance tree b mode event).parameters function).Sublist
      (v.parameters function ++ tree.leftParameters [event]) := by
  by_cases leaves : event.phase = .exit ∧ ∃ declarator, tree.IsParameter event.node declarator
  · obtain ⟨phase, id⟩ := event
    obtain ⟨rfl, declarator, isParameter⟩ := leaves
    have left : tree.leftParameters [⟨.exit, id⟩] = [declarator] := by
      simp [SyntaxTree.leftParameters, SyntaxTree.parameterId_eq_some_iff.mpr isParameter]
    obtain ⟨⟨production, location⟩, type, found, is⟩ := isParameter
    cases is
    simp only [advance, found, exit, completeParameter, left]
    split
    · exact pushParameter_sublist (v.typeVariables [declarator] (v.typeOf type)) _ declarator function
    · exact List.sublist_append_left _ _
  · rw [advance_writes.parameters_eq fun exits declarator isParameter =>
      absurd ⟨exits, declarator, isParameter⟩ leaves]
    exact List.sublist_append_left _ _

/-- A run adds parameters in the order in which it leaves them. -/
theorem foldl_parameters_sublist (v : View) (events : List Event) (function : SymbolId) :
    ((events.foldl (View.advance tree b mode) v).parameters function).Sublist
      (v.parameters function ++ tree.leftParameters events) := by
  induction events generalizing v with
  | nil => simp [SyntaxTree.leftParameters]
  | cons event events ih =>
    have split : tree.leftParameters (event :: events) =
        tree.leftParameters [event] ++ tree.leftParameters events := by
      simp [SyntaxTree.leftParameters, ← List.filterMap_append]
    rw [List.foldl_cons, split, ← List.append_assoc]
    exact (ih _).trans ((advance_parameters_sublist v event function).append_right _)

section Function

variable (prepared : Prepared tree b) {id body : NodeId} {node : Node} {name : String}
  {returnType : Option NodeId} {parameters : List NodeId} (reached : tree.Reachable id)
  (found : tree.node? id = some node)
  (is : node.production = .functionDeclaration name returnType parameters body)
include prepared reached found is

theorem members_parameters_subset :
    ∀ declarator ∈ (members tree b).parameters (b.ownerAt id), declarator ∈ tree.parameterIds id := by
  refine List.foldlRecOn (tree.events tree.root) (motive := fun w : View =>
    ∀ declarator ∈ w.parameters (b.ownerAt id), declarator ∈ tree.parameterIds id) _ ?_ ?_
  · intro declarator member
    cases member
  · intro w own event listed declarator member
    rcases advance_writes.parameters_source _ declarator member with before | ⟨isParameter, owned⟩
    · exact own declarator before
    · obtain ⟨_, _, _, _, _, foundOther, isOther, inList⟩ := prepared.parameter_listed reached
        ⟨node, found, Node.kind_of is⟩ (reachable_of_mem_events prepared event listed) isParameter
        owned
      exact (SyntaxTree.mem_parameterIds foundOther isOther).mpr ⟨_, inList, isParameter⟩

/-- A pass over the members gives a function its declared parameters in source order. -/
theorem members_parameters_eq : (members tree b).parameters (b.ownerAt id) =
    (tree.parameterIds id).filter (· ∈ (members tree b).declared) := by
  have begins : (View.start b).Follows tree b b := ⟨.start prepared, .start prepared⟩
  obtain ⟨_, _, last⟩ := begins.run prepared (show tree.Suits .membersOnly from .inl rfl)
    (tree.events tree.root) (reachable_of_mem_events prepared)
  refine eq_of_sublists prepared.formed.leftParameters_nodup (foldl_parameters_sublist _ _ _)
    (List.filter_sublist.trans
      (SyntaxTree.parameterIds_sublist_left found is prepared.formed reached)) fun declarator => ?_
  rw [List.mem_filter, decide_eq_true_eq]
  constructor
  · intro member
    exact ⟨members_parameters_subset prepared reached found is declarator member,
      last.grounded.parameters _ declarator member⟩
  · rintro ⟨listed, declared⟩
    obtain ⟨parameter, member, isParameter⟩ := (SyntaxTree.mem_parameterIds found is).mp listed
    have reachedParameter := reached.child (SyntaxTree.hasChild_parameter found is member)
    have owner : b.ownerAt parameter = b.ownerAt id := by
      rw [Resolution.ownerAt, Resolution.ownerAt, prepared.scopeAt_parameter reached found is member]
    obtain ⟨⟨production, location⟩, type, foundParameter, isParameter⟩ := isParameter
    cases isParameter
    have done : (members tree b).Done tree b .membersOnly parameter _ :=
      foldl_done prepared reachedParameter foundParameter (start b)
    rw [← owner]
    exact (done declared).2

/-- Only leaving a function gives it a return type, that of its return node. -/
theorem members_returnType_eq :
    (members tree b).returnType (b.ownerAt id) = returnType.bind (members tree b).typeOf := by
  obtain ⟨production, location⟩ := node
  cases is
  cases returnType with
  | some result => exact (foldl_done prepared reached found (start b)).2 result rfl
  | none =>
    refine List.foldlRecOn (tree.events tree.root)
      (motive := fun w : View => w.returnType (b.ownerAt id) = none) _ rfl ?_
    intro w before event listed
    by_cases here : event = ⟨.exit, id⟩
    · subst here
      simp only [advance, found, exit]
      rw [(completeFunction_facts id name location none).2.2]
      exact before
    · rw [advance_writes.returnType_eq fun exits isFunction same => ?_, before]
      refine here ?_
      have isHere := prepared.ownerAt_inj (reachable_of_mem_events prepared event listed) reached
        (.inl isFunction) (.inl ⟨_, found, rfl⟩) same
      rw [← isHere, ← exits]

theorem isMember_of_mem_parameterIds {declarator : NodeId}
    (listed : declarator ∈ tree.parameterIds id) : b.isMember declarator = true := by
  rw [Resolution.isMember, prepared.scopeAt_of_mem_parameterIds reached found is listed]
  simp [Resolution.isMemberScope, ScopeKind.owner?,
    (prepared.registered.function_found prepared.formed reached found is).2.1]

theorem analysed_function_eq (locals : Bool) :
    (analysed tree b locals).parameters (b.ownerAt id) =
        (tree.parameterIds id).filter (· ∈ (analysed tree b locals).declared) ∧
      (analysed tree b locals).returnType (b.ownerAt id) =
        returnType.bind (analysed tree b locals).typeOf := by
  obtain ⟨root, foundRoot⟩ := prepared.formed.reachable_node .root
  have inner : ∀ node, tree.node? tree.root = some node → node.kind ≠ .formalParameter :=
    fun _ => prepared.formed.root_of_function reached ⟨node, found, Node.kind_of is⟩
  have same := members_sameMembers_analysed prepared inner locals
  rw [← same.parameters, ← same.returnType, ← same.typeOf,
    members_parameters_eq prepared reached found is, members_returnType_eq prepared reached found is]
  refine ⟨List.filter_congr fun declarator listed => ?_, rfl⟩
  have member := isMember_of_mem_parameterIds prepared reached found is listed
  have kept : declarator ∈ (members tree b).declared.filter b.isMember ↔
      declarator ∈ (analysed tree b locals).declared.filter b.isMember := by rw [same.declared]
  simpa [List.mem_filter, member] using kept

theorem Declaring.mem_parameterIds_iff {v : View} {locals : Bool} (declaring : v.Declaring tree b
      ((tree.declaratorIds (tree.events tree.root)).filter (b.isEntered tree locals)))
    {before after : List NodeId} {declarator : NodeId}
    (split : tree.parameterIds id = before ++ declarator :: after) :
    declarator ∈ v.declared ↔ ∀ other ∈ before, tree.nameAt other ≠ tree.nameAt declarator := by
  have listed : declarator ∈ tree.parameterIds id := by simp [split]
  have here := prepared.scopeAt_of_mem_parameterIds reached found is listed
  have group : ((tree.declaratorIds (tree.events tree.root)).filter (b.isEntered tree locals)).filter
      (b.isNamed tree (b.scopeAt declarator) (tree.nameAt declarator)) =
        (tree.parameterIds id).filter fun other => tree.nameAt other = tree.nameAt declarator := by
    rw [← prepared.declaratorIds_filter_scopeAt reached found is, List.filter_filter,
      List.filter_filter]
    refine List.filter_congr fun other _ => ?_
    by_cases beside : b.scopeAt other = b.scopeAt id
    · have member : b.isMember other = true := by
        rw [Resolution.isMember, beside, ← here]
        exact isMember_of_mem_parameterIds prepared reached found is listed
      simp [Resolution.isEntered, member, Resolution.isNamed, beside, here]
    · simp [Resolution.isNamed, beside, here]
  have nodup := SyntaxTree.parameterIds_nodup found is prepared.formed reached
  rw [declaring.mem_declared_iff, group, split, List.filter_append,
    List.filter_cons_of_pos (by simp)]
  have apart : declarator ∉ before := fun member =>
    List.disjoint_of_nodup_append (split ▸ nodup) member (by simp)
  constructor
  · intro isFirst other member same
    cases earlier : before.filter fun other => tree.nameAt other = tree.nameAt declarator with
    | nil => exact absurd same (by simpa using List.filter_eq_nil_iff.mp earlier other member)
    | cons first rest =>
      rw [earlier, List.cons_append, List.head?_cons, Option.some.injEq] at isFirst
      have inBefore : first ∈ before := List.mem_of_mem_filter (earlier ▸ List.mem_cons_self)
      exact apart (isFirst ▸ inBefore)
  · intro none
    rw [List.filter_eq_nil_iff.mpr fun other member => by simpa using none other member]
    rfl

end Function

end View

/-- The symbol of a function has the return type and the parameters that stand in its declaration: of
its declarator ids those that are declared, which are the first of each name, in the same order. They
are all the variables of its scope. -/
structure Resolution.HasSignature (r : Resolution) (tree : SyntaxTree) (x : Symbol) (own : ScopeId)
    (returnType : Option NodeId) (declarators : List NodeId) : Prop where
  kind : x.kind = .function own (returnType.bind r.typeOf) (declarators.filterMap r.symbolOf)
  first : ∀ before declarator after, declarators = before ++ declarator :: after →
    ((r.symbolOf declarator).isSome = true ↔
      ∀ other ∈ before, tree.nameAt other ≠ tree.nameAt declarator)
  nodup : (declarators.filterMap r.symbolOf).Nodup
  owned : ∀ parameter ∈ declarators.filterMap r.symbolOf, ∃ y,
    r.table.symbol parameter = .ok y ∧ y.kind.isVariable = true ∧ y.enclosing = own
  complete : ∃ symbols, r.table.symbolsIn own = .ok symbols ∧
    ((symbols.filter fun s => s.kind.isVariable).map Symbol.id).Perm
      (declarators.filterMap r.symbolOf)

section Represented

variable {tree : SyntaxTree} {b r : Resolution} {v : View} (prepared : Prepared tree b)
  (follows : v.Follows tree b r) {id body : NodeId} {node : Node} {name : String}
  {returnType : Option NodeId} {parameters : List NodeId} (reached : tree.Reachable id)
  (found : tree.node? id = some node)
  (is : node.production = .functionDeclaration name returnType parameters body)
include prepared follows reached found is

theorem parameterIds_filterMap_symbolOf : (tree.parameterIds id).filterMap r.symbolOf =
    ((tree.parameterIds id).filter (· ∈ v.declared)).map (v.idOf b) := by
  rw [← List.filterMap_eq_filter, List.map_filterMap]
  refine List.filterMap_congr fun declarator listed => ?_
  obtain ⟨reachedId, isDeclarator⟩ :=
    SyntaxTree.declaratorId_of_mem_parameterIds found is prepared.formed reached listed
  rw [symbolOf_declarator prepared follows reachedId isDeclarator]
  by_cases member : declarator ∈ v.declared <;> simp [member, Option.guard]

/-- A symbol is that of a parameter exactly if it is a variable in the scope of the function. -/
theorem mem_parameters_iff {symbol : SymbolId} :
    symbol ∈ (tree.parameterIds id).filterMap r.symbolOf ↔ ∃ y,
      r.table.symbols[symbol.index]? = some y ∧ y.kind.isVariable = true ∧
        y.enclosing = b.scopeAt id := by
  rw [parameterIds_filterMap_symbolOf prepared follows reached found is]
  simp only [List.mem_map, List.mem_filter, decide_eq_true_eq]
  constructor
  · rintro ⟨declarator, ⟨listed, declared⟩, rfl⟩
    exact ⟨_, follows.rep.variable_symbol declared, rfl,
      prepared.scopeAt_of_mem_parameterIds reached found is listed⟩
  · rintro ⟨y, foundSymbol, isVariable, here⟩
    rcases follows.rep.symbol_cases follows.grounded.nodup foundSymbol with
      ⟨old, foundOld, rfl⟩ | ⟨declarator, declared, place, rfl⟩
    · rw [View.completed_isVariable prepared.registered foundOld] at isVariable
      cases isVariable
    · obtain ⟨below, called, foundBelow, isId⟩ := follows.grounded.named declarator declared
      have isDeclarator : tree.isDeclaratorId declarator = true :=
        SyntaxTree.isDeclaratorId_iff.mpr ⟨below, foundBelow, Node.kind_of isId⟩
      have listed := (prepared.mem_parameterIds_iff reached found is
        (follows.grounded.reached declarator declared) isDeclarator).mpr here
      exact ⟨declarator, ⟨listed, declared⟩, (congrArg SymbolId.mk place).symm⟩

theorem parameters_nodup : ((tree.parameterIds id).filterMap r.symbolOf).Nodup := by
  rw [parameterIds_filterMap_symbolOf prepared follows reached found is]
  refine List.Nodup.map_on ?_
    ((SyntaxTree.parameterIds_nodup found is prepared.formed reached).filter _)
  intro first inFirst second _ same
  exact View.idOf_inj (by simpa using (List.mem_filter.mp inFirst).2) same

/-- The parameters are the variables that the scope of the function lists. -/
theorem variables_perm : ∃ symbols, r.table.symbolsIn (b.scopeAt id) = .ok symbols ∧
    ((symbols.filter fun s => s.kind.isVariable).map Symbol.id).Perm
      ((tree.parameterIds id).filterMap r.symbolOf) := by
  have known : (b.scopeAt id).index < r.table.scopes.size :=
    follows.rep.frames.size_eq ▸ prepared.registered.scope_known prepared.formed reached
  obtain ⟨symbols, read, ids, each⟩ := follows.rep.ordered.find_symbolsIn known
  have nodup : (symbols.map Symbol.id).Nodup := ids ▸ follows.rep.ordered.listing_nodup _
  refine ⟨symbols, read, (List.perm_ext_iff_of_nodup
    (nodup.sublist (List.filter_sublist.map _))
    (parameters_nodup prepared follows reached found is)).mpr fun symbol => ?_⟩
  rw [mem_parameters_iff prepared follows reached found is]
  simp only [List.mem_map, List.mem_filter]
  have listed {symbol : SymbolId} : symbol ∈ r.table.listing (b.scopeAt id) ↔ ∃ y : Symbol,
      r.table.symbols[symbol.index]? = some y ∧ y.enclosing = b.scopeAt id :=
    follows.rep.ordered.mem_listing known
  constructor
  · rintro ⟨y, ⟨member, isVariable⟩, rfl⟩
    obtain ⟨other, foundOther, here⟩ := listed.mp (ids ▸ List.mem_map_of_mem member)
    obtain rfl : y = other := Option.some.inj ((each y member).symm.trans foundOther)
    exact ⟨y, foundOther, isVariable, here⟩
  · rintro ⟨y, foundSymbol, isVariable, here⟩
    have inListing : symbol ∈ symbols.map Symbol.id := ids ▸ listed.mpr ⟨y, foundSymbol, here⟩
    obtain ⟨other, member, rfl⟩ := List.mem_map.mp inListing
    obtain rfl : y = other := Option.some.inj (foundSymbol.symm.trans (each other member))
    exact ⟨y, ⟨member, isVariable⟩, rfl⟩

end Represented

/-- In an analysed tree the symbol of every function has the return type that is written, if one is,
and as parameters, in source order, the first variable of each name that the parameters declare. They
are in the scope of the function, and nothing else in it is a variable. -/
theorem analyze_parameters {tree : SyntaxTree} (valid : tree.validate = .ok ())
    (settings : Settings) :
    ∃ r, analyze tree settings = .ok r ∧
      ∀ (id : NodeId) (node : Node) (name : String) (returnType : Option NodeId)
        (parameters : List NodeId) (body : NodeId), tree.Reachable id → tree.node? id = some node →
        node.production = .functionDeclaration name returnType parameters body →
        ∃ symbol x own declarators, r.symbolOf id = some symbol ∧ r.table.symbol symbol = .ok x ∧
          r.scopeOf id = .ok own ∧ parameters.map tree.parameterId = declarators.map some ∧
          r.HasSignature tree x own returnType declarators := by
  obtain ⟨b, r, -, prepared, analysed, follows⟩ :=
    exists_analysed (SyntaxTree.validate_eq_ok_iff.mp valid) settings
  refine ⟨r, analysed, fun id node name returnType parameters body reached found is => ?_⟩
  obtain ⟨symbolOf, -, symbol, -⟩ :=
    prepared.registered.function_found prepared.formed reached found is
  obtain ⟨has, returns⟩ :=
    View.analysed_function_eq prepared reached found is settings.enterLocalVariables
  have declaring := View.analysed_declaring prepared settings.enterLocalVariables
  refine ⟨b.ownerAt id, _, b.scopeAt id, tree.parameterIds id,
    (symbolOf_eq_some_iff prepared follows).mpr (.inr symbolOf),
    orDangling_eq_ok_iff.mpr (follows.rep.old_symbol symbol),
    follows.rep.scopeOf_eq_ok prepared reached, ?_, ?_⟩
  · exact SyntaxTree.map_parameterId found is prepared.formed
  · refine ⟨?_, fun before declarator after split => ?_,
      parameters_nodup prepared follows reached found is, fun parameter member => ?_,
      variables_perm prepared follows reached found is⟩
    · have types := follows.rep.bind_typeOf_eq prepared returnType fun result isResult =>
        reached.child ⟨node, found, by simp [Node.children, is, Production.children, isResult]⟩
      rw [types, parameterIds_filterMap_symbolOf prepared follows reached found is, ← has, ← returns]
      rfl
    · have listed : declarator ∈ tree.parameterIds id := by simp [split]
      obtain ⟨reachedId, isDeclarator⟩ :=
        SyntaxTree.declaratorId_of_mem_parameterIds found is prepared.formed reached listed
      rw [← declaring.mem_parameterIds_iff prepared reached found is split,
        symbolOf_declarator prepared follows reachedId isDeclarator]
      split <;> simp_all
    · obtain ⟨y, foundSymbol, isVariable, here⟩ :=
        (mem_parameters_iff prepared follows reached found is).mp member
      exact ⟨y, orDangling_eq_ok_iff.mpr foundSymbol, isVariable, here⟩

/-- The unit `void f(int a, T b, int a) { class C { void m(int x) { } } }`. -/
def SyntaxTree.nestedMethod : SyntaxTree where
  nodes := #[
    ⟨.primitiveType .int, ⟨7, 10⟩⟩, ⟨.typeNode ⟨0⟩, ⟨7, 10⟩⟩,
    ⟨.variableDeclaratorId "a", ⟨11, 12⟩⟩, ⟨.formalParameter ⟨1⟩ ⟨2⟩, ⟨7, 12⟩⟩,
    ⟨.classReference "T", ⟨14, 15⟩⟩, ⟨.typeNode ⟨4⟩, ⟨14, 15⟩⟩,
    ⟨.variableDeclaratorId "b", ⟨16, 17⟩⟩, ⟨.formalParameter ⟨5⟩ ⟨6⟩, ⟨14, 17⟩⟩,
    ⟨.primitiveType .int, ⟨19, 22⟩⟩, ⟨.typeNode ⟨8⟩, ⟨19, 22⟩⟩,
    ⟨.variableDeclaratorId "a", ⟨23, 24⟩⟩, ⟨.formalParameter ⟨9⟩ ⟨10⟩, ⟨19, 24⟩⟩,
    ⟨.primitiveType .int, ⟨45, 48⟩⟩, ⟨.typeNode ⟨12⟩, ⟨45, 48⟩⟩,
    ⟨.variableDeclaratorId "x", ⟨49, 50⟩⟩, ⟨.formalParameter ⟨13⟩ ⟨14⟩, ⟨45, 50⟩⟩,
    ⟨.block [], ⟨52, 55⟩⟩, ⟨.typeOrVoid none, ⟨38, 42⟩⟩,
    ⟨.functionDeclaration "m" (some ⟨17⟩) [⟨15⟩] ⟨16⟩, ⟨38, 55⟩⟩,
    ⟨.classDeclaration "C" none [⟨18⟩], ⟨28, 57⟩⟩, ⟨.block [⟨19⟩], ⟨26, 59⟩⟩,
    ⟨.typeOrVoid none, ⟨0, 4⟩⟩,
    ⟨.functionDeclaration "f" (some ⟨21⟩) [⟨3⟩, ⟨7⟩, ⟨11⟩] ⟨20⟩, ⟨0, 59⟩⟩,
    ⟨.compilationUnit [⟨22⟩], ⟨0, 59⟩⟩]
  root := ⟨23⟩

/-- The second `a` is no parameter, and `b` is one without a type. The method stands in a region, which
is walked again, and still has its parameter once. -/
theorem analyze_parameters_nestedMethod :
    ∃ r, analyze SyntaxTree.nestedMethod Settings.standard = .ok r ∧
      (∃ x, r.table.symbol ⟨0⟩ = .ok x ∧ x.kind = .function ⟨1⟩ (some .void) [⟨3⟩, ⟨4⟩] ∧
        r.HasSignature SyntaxTree.nestedMethod x ⟨1⟩ (some ⟨21⟩) [⟨2⟩, ⟨6⟩, ⟨10⟩]) ∧
      ∃ x, r.table.symbol ⟨2⟩ = .ok x ∧ x.kind = .function ⟨4⟩ (some .void) [⟨5⟩] ∧
        r.HasSignature SyntaxTree.nestedMethod x ⟨4⟩ (some ⟨17⟩) [⟨14⟩] := by
  obtain ⟨r, analysed, each⟩ := @analyze_parameters SyntaxTree.nestedMethod rfl Settings.standard
  have facts : (analyze SyntaxTree.nestedMethod Settings.standard).map (fun r =>
        ([⟨22⟩, ⟨18⟩].map r.symbolOf, (r.factsOf ⟨22⟩).scope, (r.factsOf ⟨18⟩).scope,
          [⟨2⟩, ⟨6⟩, ⟨10⟩].filterMap r.symbolOf, [⟨14⟩].filterMap r.symbolOf,
          [⟨21⟩, ⟨17⟩].map r.typeOf)) =
      .ok ([some ⟨0⟩, some ⟨2⟩], some ⟨1⟩, some ⟨4⟩, [⟨3⟩, ⟨4⟩], [⟨5⟩], [some .void, some .void]) := rfl
  rw [analysed] at facts
  simp only [Except.map, Except.ok.injEq, Prod.mk.injEq, List.map_cons, List.map_nil, List.cons.injEq,
    and_true] at facts
  obtain ⟨⟨symbolF, symbolM⟩, scopeF, scopeM, namesF, namesM, typeF, typeM⟩ := facts
  have reachedF : SyntaxTree.nestedMethod.Reachable ⟨22⟩ := .child .root ⟨_, rfl, by decide⟩
  have reachedM : SyntaxTree.nestedMethod.Reachable ⟨18⟩ :=
    .child (.child (.child reachedF ⟨_, rfl, (by decide : (⟨20⟩ : NodeId) ∈ _)⟩)
      ⟨_, rfl, (by decide : (⟨19⟩ : NodeId) ∈ _)⟩) ⟨_, rfl, by decide⟩
  obtain ⟨f, x, ownF, declaratorsF, isF, foundF, boundF, listF, hasF⟩ :=
    each ⟨22⟩ _ _ _ _ _ reachedF rfl rfl
  obtain ⟨m, y, ownM, declaratorsM, isM, foundM, boundM, listM, hasM⟩ :=
    each ⟨18⟩ _ _ _ _ _ reachedM rfl rfl
  obtain rfl : ⟨0⟩ = f := Option.some.inj (symbolF.symm.trans isF)
  obtain rfl : ⟨2⟩ = m := Option.some.inj (symbolM.symm.trans isM)
  simp only [Resolution.scopeOf, scopeF, scopeM, Except.ok.injEq] at boundF boundM
  subst boundF boundM
  obtain rfl : [⟨2⟩, ⟨6⟩, ⟨10⟩] = declaratorsF :=
    (Option.some_injective _).list_map (Eq.trans rfl listF)
  obtain rfl : [⟨14⟩] = declaratorsM := (Option.some_injective _).list_map (Eq.trans rfl listM)
  refine ⟨r, analysed, ⟨x, foundF, ?_, hasF⟩, y, foundM, ?_, hasM⟩
  · rw [hasF.kind, namesF, Option.bind_some, typeF]
  · rw [hasM.kind, namesM, Option.bind_some, typeM]

end ScriptSemantics
