import ScriptSemantics.Proofs.Settling

/-!
# What passes find out stays

A pass writes to a type, to a return type or to the type of a variable as often as it comes by. All
that a node is given comes from one source: the type of a node from its child, the type of a variable
from the one node that declares it with a type, the type that a function returns from its result. As
long as nothing is known that its source does not know, writing again writes what is there, so what is
found out stays in whatever order the events come.
-/
namespace ScriptSemantics

/-- What is present stays as it is. -/
def Stays {α : Type} (before after : Option α) : Prop := ∀ a, before = some a → after = some a

theorem Stays.refl {α : Type} (a : Option α) : Stays a a := fun _ present => present

theorem Stays.trans {α : Type} {a b c : Option α} (first : Stays a b) (second : Stays b c) :
    Stays a c := fun x present => second x (first x present)

theorem Stays.of_none {α : Type} (a : Option α) : Stays none a := fun _ present => nomatch present

namespace View

variable {tree : SyntaxTree} {b : Resolution} {mode : Mode} {v w : View}

/-- A view knows all that another knows, and lists it in the same order before what is new. -/
structure Grows (v w : View) : Prop where
  types : w.types.Extends v.types
  typeOf : ∀ id, Stays (v.typeOf id) (w.typeOf id)
  declared : v.declared <+: w.declared
  variableType : ∀ id, Stays (v.variableType id) (w.variableType id)
  parameters : ∀ function, v.parameters function <+: w.parameters function
  returnType : ∀ function, Stays (v.returnType function) (w.returnType function)
  superclass : ∀ symbol, Stays (v.superclass symbol) (w.superclass symbol)
  diagnostics : v.diagnostics <+: w.diagnostics

namespace Grows

theorem refl (v : View) : Grows v v where
  types := .refl _
  typeOf _ := .refl _
  declared := List.prefix_rfl
  variableType _ := .refl _
  parameters _ := List.prefix_rfl
  returnType _ := .refl _
  superclass _ := .refl _
  diagnostics := List.prefix_rfl

theorem trans {u : View} (first : Grows u v) (second : Grows v w) : Grows u w where
  types := second.types.trans first.types
  typeOf id := (first.typeOf id).trans (second.typeOf id)
  declared := first.declared.trans second.declared
  variableType id := (first.variableType id).trans (second.variableType id)
  parameters function := (first.parameters function).trans (second.parameters function)
  returnType function := (first.returnType function).trans (second.returnType function)
  superclass symbol := (first.superclass symbol).trans (second.superclass symbol)
  diagnostics := first.diagnostics.trans second.diagnostics

theorem setType {id : NodeId} {type : Ty} (known : Stays (v.typeOf id) (some type)) :
    Grows v (v.setType id type) :=
  { refl v with
    typeOf := fun other => by
      simp only [View.setType]
      split
      next here => exact here ▸ known
      next => exact .refl _ }

theorem check (id : NodeId) : Grows v (v.check id) := { refl v with }

theorem log (id : NodeId) (location : Location) (code : DiagnosticCode) (message : String) :
    Grows v (v.log id location code message) :=
  { refl v with diagnostics := List.prefix_append .. }

theorem declare (id : NodeId) : Grows v (v.declare id) :=
  { refl v with declared := List.prefix_append .. }

theorem typeVariables {ids : List NodeId} {type : Option Ty}
    (known : ∀ id ∈ ids, Stays (v.variableType id) type) : Grows v (v.typeVariables ids type) :=
  { refl v with
    variableType := fun id => by
      simp only [View.typeVariables]
      split
      next both => exact known id both.1
      next => exact .refl _ }

theorem pushParameter (function : SymbolId) (parameter : NodeId) :
    Grows v (v.pushParameter function parameter) :=
  { refl v with
    parameters := fun other => by
      simp only [View.pushParameter]
      split
      next here => exact here.1 ▸ List.prefix_append ..
      next => exact List.prefix_rfl }

theorem setReturnType {function : SymbolId} {type : Option Ty}
    (known : Stays (v.returnType function) type) : Grows v (v.setReturnType function type) :=
  { refl v with
    returnType := fun other => by
      simp only [View.setReturnType]
      split
      next here => exact here ▸ known
      next => exact .refl _ }

theorem setSuperclass {symbol : SymbolId} (new : v.superclass symbol = none) (superclass : ScopeId) :
    Grows v (v.setSuperclass symbol superclass) :=
  { refl v with
    superclass := fun other => by
      simp only [View.setSuperclass]
      split
      next here =>
        rw [here, new]
        exact .of_none _
      next => exact .refl _ }

theorem allocate (signature : Signature) : Grows v (v.allocate signature) :=
  { refl v with types := TypeTable.allocate_extends v.types signature }

end Grows

/-- What is known of a node, its variables, its function or its class is what their source says. A
class with a superclass has been checked, so that it gets no other. -/
def Sourced (v : View) (tree : SyntaxTree) (b : Resolution) (id : NodeId) (node : Node) : Prop :=
  match node.production with
  | .primitiveType keyword => Stays (v.typeOf id) (some (.primitive (.forKeyword keyword)))
  | .typeOrVoid none => Stays (v.typeOf id) (some .void)
  | .typeOrVoid (some child) | .typeNode child => Stays (v.typeOf id) (v.typeOf child)
  | .variableDeclarators type _ | .formalParameter type _ =>
    ∀ declarator ∈ tree.typedBy id, Stays (v.variableType declarator) (v.typeOf type)
  | .functionDeclaration _ (some result) _ _ =>
    Stays (v.returnType (b.ownerAt id)) (v.typeOf result)
  | .classDeclaration _ _ _ => v.superclass (b.ownerAt id) ≠ none → v.checked id = true
  | .functionDeclaration _ none _ _ | .functionType _ _ | .classReference _ | .compilationUnit _
  | .variableDeclarator _ _ | .variableDeclaratorId _ | .block _ | .expressionStatement _
  | .literal _ | .identifier _ => True

/-- All reachable nodes know only what their sources say. -/
def Sources (v : View) (tree : SyntaxTree) (b : Resolution) : Prop :=
  ∀ id node, tree.Reachable id → tree.node? id = some node → v.Sourced tree b id node

theorem Sources.start : (start b).Sources tree b := by
  intro id ⟨production, location⟩ _ _
  unfold Sourced
  cases production with
  | typeOrVoid child => cases child <;> exact fun _ present => nomatch present
  | functionDeclaration name returnType parameters body =>
    cases returnType with
    | none => trivial
    | some result => exact fun _ present => nomatch present
  | primitiveType | typeNode => exact fun _ present => nomatch present
  | variableDeclarators | formalParameter => exact fun _ _ _ present => nomatch present
  | classDeclaration => exact fun present => (present rfl).elim
  | _ => trivial

section Event

variable {id : NodeId} {node : Node} (found : tree.node? id = some node)
include found

omit found in
theorem Grows.enter : Grows v (v.enter tree b mode id node) := by
  unfold View.enter
  split
  · unfold declareVariableAt
    split
    · exact .refl v
    split
    · exact .refl v
    split
    · exact .refl v
    split
    · exact (Grows.check id).trans (.log ..)
    · exact (Grows.check id).trans (.declare id)
  · exact .refl v

omit found in
theorem Grows.inheritType {child : NodeId} (sourced : Stays (v.typeOf id) (v.typeOf child)) :
    Grows v (v.inheritType id child) := by
  unfold View.inheritType
  split
  next type isType => exact .setType (isType ▸ sourced)
  next => exact .refl v

omit found in
theorem Grows.resolveFunctionType (parameters : List NodeId) (returnType : NodeId) :
    Grows v (v.resolveFunctionType id parameters returnType) := by
  unfold View.resolveFunctionType
  split
  · exact .refl v
  next typed =>
    have untyped : v.typeOf id = none := by simpa using typed
    split
    · refine (Grows.allocate _).trans (.setType ?_)
      change Stays (v.typeOf id) _
      exact untyped ▸ .of_none _
    · exact .refl v

omit found in
theorem Grows.resolveClassReference (name : String) (location : Location) :
    Grows v (v.resolveClassReference b id name location) := by
  unfold View.resolveClassReference
  split
  · exact .refl v
  next typed =>
    have untyped : v.typeOf id = none := by simpa using typed
    split
    · exact .refl v
    split
    · refine (Grows.check id).trans (.setType ?_)
      change Stays (v.typeOf id) _
      exact untyped ▸ .of_none _
    · exact (Grows.check id).trans (.log ..)

omit found in
theorem Grows.completeFunction (name : String) (location : Location) {returnType : Option NodeId}
    (sourced : ∀ result, returnType = some result →
      Stays (v.returnType (b.ownerAt id)) (v.typeOf result)) :
    Grows v (v.completeFunction b id name location returnType) := by
  have returning : Grows v (v.returning b id returnType) := by
    cases returnType with
    | none => exact .refl v
    | some result => exact .setReturnType (sourced result rfl)
  unfold View.completeFunction
  split
  · exact returning
  · refine (returning.trans (.check id)).trans ?_
    unfold checkSignature
    split
    · exact .refl _
    · split
      · exact .log ..
      · exact .refl _

omit found in
theorem Grows.completeClass (name : String) (location : Location) (superclass : Option NodeId)
    (sourced : v.superclass (b.ownerAt id) ≠ none → v.checked id = true) :
    Grows v (v.completeClass b id name location superclass) := by
  unfold View.completeClass
  split
  next target _ =>
    split
    · exact .refl v
    next unchecked =>
      split
      · exact (Grows.check id).trans (.log ..)
      · have new : (v.check id).superclass (b.ownerAt id) = none := by
          by_contra present
          exact unchecked (sourced present)
        exact (Grows.check id).trans (.setSuperclass new target)
  next => exact .refl v

/-- Leaving a node that knows only what its source says writes again what is there. -/
theorem Sourced.grows (sourced : v.Sourced tree b id node) :
    Grows v (v.exit tree b mode id node) := by
  obtain ⟨production, location⟩ := node
  unfold Sourced at sourced
  unfold View.exit
  cases production with
  | primitiveType keyword => exact .setType sourced
  | typeOrVoid child =>
    cases child with
    | none => exact .setType sourced
    | some child => exact .inheritType sourced
  | typeNode child => exact .inheritType sourced
  | functionType parameters returnType => exact .resolveFunctionType parameters returnType
  | classReference name => exact .resolveClassReference name location
  | variableDeclarators type declarators =>
    simp only [SyntaxTree.typedBy, found] at sourced
    simp only [View.typeDeclarators]
    split
    · exact .refl v
    · exact .typeVariables sourced
  | formalParameter type declarator =>
    simp only [SyntaxTree.typedBy, found] at sourced
    simp only [View.completeParameter]
    split
    · exact (Grows.typeVariables sourced).trans (.pushParameter ..)
    · exact .refl v
  | functionDeclaration name returnType parameters body =>
    refine .completeFunction name location fun result isResult => ?_
    subst isResult
    exact sourced
  | classDeclaration name superclass body => exact .completeClass name location superclass sourced
  | _ => exact .refl v

omit found in
theorem inheritType_sourced {child : NodeId} (sourced : Stays (v.typeOf id) (v.typeOf child)) :
    Stays ((v.inheritType id child).typeOf id) ((v.inheritType id child).typeOf child) := by
  unfold View.inheritType
  split
  next type isType =>
    simp only [View.setType, isType, if_true]
    split <;> exact .refl _
  next => exact sourced

omit found in
theorem Sourced.enter (sourced : v.Sourced tree b id node) :
    (v.enter tree b mode id node).Sourced tree b id node := by
  obtain ⟨production, location⟩ := node
  cases production with
  | variableDeclaratorId name => trivial
  | _ => exact sourced

omit found in
theorem Sourced.exit (sourced : v.Sourced tree b id node) :
    (v.exit tree b mode id node).Sourced tree b id node := by
  obtain ⟨production, location⟩ := node
  unfold Sourced View.exit
  unfold Sourced at sourced
  cases production with
  | primitiveType keyword =>
    simp only [View.setType, if_true]
    exact .refl _
  | typeOrVoid child =>
    cases child with
    | none =>
      simp only [View.setType, if_true]
      exact .refl _
    | some child => exact inheritType_sourced sourced
  | typeNode child => exact inheritType_sourced sourced
  | variableDeclarators type declarators =>
    intro declarator typed
    simp only [View.typeDeclarators]
    split
    · exact sourced declarator typed
    · simp only [View.typeVariables]
      split
      · exact .refl _
      · exact sourced declarator typed
  | formalParameter type declarator =>
    intro declarator typed
    simp only [View.completeParameter]
    split
    · simp only [View.pushParameter, View.typeVariables]
      split
      · exact .refl _
      · exact sourced _ typed
    · exact sourced _ typed
  | functionDeclaration name returnType parameters body =>
    cases returnType with
    | none => trivial
    | some result =>
      obtain ⟨-, typeOf, returns⟩ := @completeFunction_facts b v id name location (some result)
      simp only [typeOf, returns, returning, View.setReturnType, if_true]
      exact .refl _
  | classDeclaration name superclass body =>
    simp only [View.completeClass]
    split
    · split
      next checked => exact fun _ => checked
      next => split <;> simp [View.log, View.check, View.setSuperclass]
    next => exact sourced
  | _ => trivial

/-- An event elsewhere leaves a node with what its source says: what it writes is not the node's, and
the source keeps what it says. -/
theorem Sourced.elsewhere (sourced : v.Sourced tree b id node) (prepared : Prepared tree b)
    (reached : tree.Reachable id) {event : Event} (reachedEvent : tree.Reachable event.node)
    (other : event.node ≠ id) (writes : Writes tree b event v w) (grows : Grows v w) :
    w.Sourced tree b id node := by
  have own : w.typeOf id = v.typeOf id := writes.typeOf_eq fun same => other (by rw [same])
  have variableOf {declarator : NodeId} (typed : declarator ∈ tree.typedBy id) :
      w.variableType declarator = v.variableType declarator :=
    writes.variableType_eq fun _ typedToo => other (prepared.formed.typedBy_unique typedToo typed)
  obtain ⟨production, location⟩ := node
  unfold Sourced at sourced ⊢
  cases production with
  | primitiveType keyword => exact own ▸ sourced
  | typeOrVoid child =>
    cases child with
    | none => exact own ▸ sourced
    | some child => exact own ▸ sourced.trans (grows.typeOf child)
  | typeNode child => exact own ▸ sourced.trans (grows.typeOf child)
  | variableDeclarators type declarators =>
    exact fun declarator typed =>
      variableOf typed ▸ (sourced declarator typed).trans (grows.typeOf type)
  | formalParameter type parameter =>
    exact fun declarator typed =>
      variableOf typed ▸ (sourced declarator typed).trans (grows.typeOf type)
  | functionDeclaration name returnType parameters body =>
    cases returnType with
    | none => trivial
    | some result =>
      have same : w.returnType (b.ownerAt id) = v.returnType (b.ownerAt id) :=
        writes.returnType_eq fun _ isFunction owner =>
          other (prepared.ownerAt_inj reachedEvent reached (.inl isFunction)
            (.inl ⟨_, found, rfl⟩) owner)
      exact same ▸ sourced.trans (grows.typeOf result)
  | classDeclaration name superclass body =>
    have same : w.superclass (b.ownerAt id) = v.superclass (b.ownerAt id) :=
      writes.superclass_eq fun _ isClass owner =>
        other (prepared.ownerAt_inj reachedEvent reached (.inr isClass)
          (.inr ⟨_, found, rfl⟩) owner)
    exact fun present => writes.checked_mono (sourced (same ▸ present))
  | _ => trivial

end Event

variable (prepared : Prepared tree b)
include prepared

/-- At any event of any pass nodes that know only what their sources say find out more, and again
know only what their sources say. -/
theorem Sources.advance (sources : v.Sources tree b) {event : Event}
    (reached : tree.Reachable event.node) (mode : Mode) :
    Grows v (v.advance tree b mode event) ∧ (v.advance tree b mode event).Sources tree b := by
  obtain ⟨here, found⟩ := prepared.formed.reachable_node reached
  have grows : Grows v (v.advance tree b mode event) := by
    simp only [View.advance, found]
    cases event.phase with
    | enter => exact .enter
    | exit => exact (sources event.node here reached found).grows found
  refine ⟨grows, fun id node reachedNode foundNode => ?_⟩
  have before := sources id node reachedNode foundNode
  by_cases same : event.node = id
  · subst same
    obtain rfl : here = node := Option.some.inj (found.symm.trans foundNode)
    simp only [View.advance, found]
    cases event.phase with
    | enter => exact before.enter
    | exit => exact before.exit
  · exact before.elsewhere foundNode prepared reachedNode reached same advance_writes grows

theorem Sources.run (sources : v.Sources tree b) (mode : Mode) (events : List Event)
    (reached : ∀ event ∈ events, tree.Reachable event.node) :
    Grows v (events.foldl (View.advance tree b mode) v) ∧
      (events.foldl (View.advance tree b mode) v).Sources tree b := by
  induction events generalizing v with
  | nil => exact ⟨.refl v, sources⟩
  | cons event events ih =>
    obtain ⟨first, between⟩ := sources.advance prepared (reached event (by simp)) mode
    obtain ⟨rest, last⟩ := ih between fun other member => reached other (by simp [member])
    exact ⟨first.trans rest, last⟩

end View

end ScriptSemantics
