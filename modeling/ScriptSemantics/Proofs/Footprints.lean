import ScriptSemantics.Proofs.ViewReadings

/-!
# What a step of the pass may write

At an event the pass writes to the node of the event, to the variables that this node gives a type to,
and to the function or class that it belongs to. Everything else stays as it is, at one event and
along any run of events that leave it alone.
-/
namespace ScriptSemantics

/-- The variables that a node gives a type to when the walk leaves it. -/
def SyntaxTree.typedBy (tree : SyntaxTree) (id : NodeId) : List NodeId :=
  match tree.node? id with
  | some ⟨.variableDeclarators _ declarators, _⟩ => declarators.filterMap tree.declaredBy
  | some ⟨.formalParameter _ declarator, _⟩ => [declarator]
  | _ => []

/-- A node is a parameter whose variable is declared at the given declarator id. -/
def SyntaxTree.IsParameter (tree : SyntaxTree) (id declarator : NodeId) : Prop :=
  ∃ node type, tree.node? id = some node ∧ node.production = .formalParameter type declarator

def SyntaxTree.isDeclaratorId (tree : SyntaxTree) (id : NodeId) : Bool :=
  (tree.node? id).any fun node => node.kind == .variableDeclaratorId

theorem SyntaxTree.isDeclaratorId_iff {tree : SyntaxTree} {id : NodeId} :
    tree.isDeclaratorId id = true ↔
      ∃ node, tree.node? id = some node ∧ node.kind = .variableDeclaratorId := by
  simp [isDeclaratorId, Option.any_eq_true]

def SyntaxTree.IsFunction (tree : SyntaxTree) (id : NodeId) : Prop :=
  ∃ node, tree.node? id = some node ∧ node.kind = .functionDeclaration

def SyntaxTree.IsClass (tree : SyntaxTree) (id : NodeId) : Prop :=
  ∃ node, tree.node? id = some node ∧ node.kind = .classDeclaration

namespace View

variable {tree : SyntaxTree} {b : Resolution} {mode : Mode} {event : Event} {v w : View}

/-- A view comes from another by writing what belongs to an event. A node is reported only if it has
not been checked, and is checked with it. -/
inductive Writes (tree : SyntaxTree) (b : Resolution) (event : Event) (v : View) : View → Prop
  | refl : Writes tree b event v v
  | setType {w : View} (type : Ty) : event.phase = .exit → Writes tree b event v w →
      Writes tree b event v (w.setType event.node type)
  | allocate {w : View} (signature : Signature) : Writes tree b event v w →
      Writes tree b event v (w.allocate signature)
  | check {w : View} : Writes tree b event v w → Writes tree b event v (w.check event.node)
  | report {w : View} (location : Location) (code : DiagnosticCode) (message : String) :
      w.checked event.node = false → Writes tree b event v w →
      Writes tree b event v ((w.check event.node).log event.node location code message)
  | declare {w : View} : event.phase = .enter → tree.isDeclaratorId event.node = true →
      Writes tree b event v w → Writes tree b event v (w.declare event.node)
  | typeVariables {w : View} (type : Option Ty) : event.phase = .exit → Writes tree b event v w →
      Writes tree b event v (w.typeVariables (tree.typedBy event.node) type)
  | pushParameter {w : View} {declarator : NodeId} : event.phase = .exit →
      tree.IsParameter event.node declarator → Writes tree b event v w →
      Writes tree b event v (w.pushParameter (b.ownerAt event.node) declarator)
  | setReturnType {w : View} (type : Option Ty) : event.phase = .exit →
      tree.IsFunction event.node → Writes tree b event v w →
      Writes tree b event v (w.setReturnType (b.ownerAt event.node) type)
  | setSuperclass {w : View} (superclass : ScopeId) : event.phase = .exit →
      tree.IsClass event.node → Writes tree b event v w →
      Writes tree b event v (w.setSuperclass (b.ownerAt event.node) superclass)

section Steps

variable {id : NodeId} {node : Node} (found : tree.node? id = some node)
include found

theorem enter_writes : Writes tree b ⟨.enter, id⟩ v (v.enter tree b mode id node) := by
  unfold enter
  split
  next name is =>
    unfold declareVariableAt
    split
    · exact .refl
    · split
      · exact .refl
      split
      · exact .refl
      next unchecked =>
        split
        · exact .report _ _ _ (by simpa using unchecked) .refl
        · refine .declare rfl ?_ (.check .refl)
          simp [SyntaxTree.isDeclaratorId, found, Node.kind, is, Production.kind]
  · exact .refl

theorem typeDeclarators_writes {type : NodeId} {declarators : List NodeId}
    (is : node.production = .variableDeclarators type declarators) :
    Writes tree b ⟨.exit, id⟩ v (v.typeDeclarators tree b mode id type declarators) := by
  have typed : tree.typedBy id = declarators.filterMap tree.declaredBy := by
    obtain ⟨production, location⟩ := node
    cases is
    simp [SyntaxTree.typedBy, found]
  unfold typeDeclarators
  split
  · exact .refl
  · have writes : Writes tree b ⟨.exit, id⟩ v (v.typeVariables (tree.typedBy id) (v.typeOf type)) :=
      .typeVariables _ rfl .refl
    rwa [← typed]

theorem completeParameter_writes {type declarator : NodeId}
    (is : node.production = .formalParameter type declarator) :
    Writes tree b ⟨.exit, id⟩ v (v.completeParameter b id type declarator) := by
  have typed : tree.typedBy id = [declarator] := by
    obtain ⟨production, location⟩ := node
    cases is
    simp [SyntaxTree.typedBy, found]
  unfold completeParameter
  split
  · rw [← typed]
    have writes : Writes tree b ⟨.exit, id⟩ v (v.typeVariables (tree.typedBy id) (v.typeOf type)) :=
      .typeVariables _ rfl .refl
    exact .pushParameter rfl ⟨node, type, found, is⟩ writes
  · exact .refl

theorem completeFunction_writes {name : String} {returnType : Option NodeId}
    {parameters : List NodeId} {body : NodeId}
    (is : node.production = .functionDeclaration name returnType parameters body) :
    Writes tree b ⟨.exit, id⟩ v (v.completeFunction b id name node.location returnType) := by
  have returning : Writes tree b ⟨.exit, id⟩ v (v.returning b id returnType) := by
    unfold returning
    split
    · exact .setReturnType _ rfl ⟨node, found, Node.kind_of is⟩ .refl
    · exact .refl
  have checked : (v.returning b id returnType).checked = v.checked := by
    unfold View.returning
    split <;> rfl
  unfold completeFunction
  split
  · exact returning
  next unchecked =>
    unfold checkSignature
    split
    · exact .check returning
    · split
      · exact .report _ _ _ (by simpa [checked] using unchecked) returning
      · exact .check returning

theorem completeClass_writes {name : String} {superclass : Option NodeId} {body : List NodeId}
    (is : node.production = .classDeclaration name superclass body) :
    Writes tree b ⟨.exit, id⟩ v (v.completeClass b id name node.location superclass) := by
  unfold completeClass
  split
  · split
    · exact .refl
    next unchecked =>
      split
      · exact .report _ _ _ (by simpa using unchecked) .refl
      · exact .setSuperclass _ rfl ⟨node, found, Node.kind_of is⟩ (.check .refl)
  · exact .refl

omit found in
theorem inheritType_writes (child : NodeId) :
    Writes tree b ⟨.exit, id⟩ v (v.inheritType id child) := by
  unfold inheritType
  split
  · exact .setType _ rfl .refl
  · exact .refl

omit found in
theorem resolveFunctionType_writes (parameters : List NodeId) (returnType : NodeId) :
    Writes tree b ⟨.exit, id⟩ v (v.resolveFunctionType id parameters returnType) := by
  unfold resolveFunctionType
  split
  · exact .refl
  · split
    · exact .setType _ rfl (.allocate _ .refl)
    · exact .refl

omit found in
theorem resolveClassReference_writes (name : String) (location : Location) :
    Writes tree b ⟨.exit, id⟩ v (v.resolveClassReference b id name location) := by
  unfold resolveClassReference
  split
  · exact .refl
  · split
    · exact .refl
    next unchecked =>
      split
      · exact .setType _ rfl (.check .refl)
      · exact .report _ _ _ (by simpa using unchecked) .refl

theorem exit_writes : Writes tree b ⟨.exit, id⟩ v (v.exit tree b mode id node) := by
  unfold exit
  cases is : node.production with
  | primitiveType keyword => exact .setType _ rfl .refl
  | typeOrVoid child =>
    cases child with
    | none => exact .setType _ rfl .refl
    | some child => exact inheritType_writes child
  | typeNode child => exact inheritType_writes child
  | functionType parameters returnType => exact resolveFunctionType_writes parameters returnType
  | classReference name => exact resolveClassReference_writes name node.location
  | variableDeclarators type declarators => exact typeDeclarators_writes found is
  | formalParameter type declarator => exact completeParameter_writes found is
  | functionDeclaration name returnType parameters body => exact completeFunction_writes found is
  | classDeclaration name superclass body => exact completeClass_writes found is
  | _ => exact .refl

end Steps

theorem advance_writes : Writes tree b event v (v.advance tree b mode event) := by
  obtain ⟨phase, id⟩ := event
  unfold advance
  cases found : tree.node? id with
  | none => exact .refl
  | some node =>
    cases phase with
    | enter => exact enter_writes found
    | exit => exact exit_writes found

namespace Writes

variable (writes : Writes tree b event v w)
include writes

theorem typeOf_eq {id : NodeId} (other : event ≠ ⟨.exit, id⟩) : w.typeOf id = v.typeOf id := by
  induction writes with
  | refl => rfl
  | setType type exits _ ih =>
    have differs : id ≠ event.node := by
      rintro rfl
      exact other (by rw [← exits])
    simp only [View.setType, if_neg differs, ih]
  | _ => assumption

theorem checked_eq {id : NodeId} (other : event.node ≠ id) : w.checked id = v.checked id := by
  induction writes with
  | refl => rfl
  | check _ ih | report _ _ _ _ _ ih => simp only [View.check, View.log, if_neg other.symm, ih]
  | _ => assumption

theorem checked_mono {id : NodeId} (before : v.checked id = true) : w.checked id = true := by
  induction writes with
  | refl => exact before
  | check _ ih | report _ _ _ _ _ ih =>
    simp only [View.check, View.log, ih]
    split <;> rfl
  | _ => assumption

theorem mem_declared_iff {id : NodeId} (other : event ≠ ⟨.enter, id⟩) :
    id ∈ w.declared ↔ id ∈ v.declared := by
  induction writes with
  | declare enters _ _ ih =>
    have differs : id ≠ event.node := by
      rintro rfl
      exact other (by rw [← enters])
    simp [View.declare, differs, ih]
  | refl => rfl
  | _ => assumption

/-- Variables are declared only when the walk comes to a declarator id. -/
theorem declared_eq (other : event.phase = .enter → tree.isDeclaratorId event.node = false) :
    w.declared = v.declared := by
  induction writes with
  | refl => rfl
  | declare enters isDeclarator _ ih => simp [other enters] at isDeclarator
  | _ => assumption

/-- What is declared at an event is its node, a declarator id. -/
theorem declared_append : ∃ added, w.declared = v.declared ++ added ∧
    ∀ id ∈ added, id = event.node ∧ tree.isDeclaratorId id = true := by
  induction writes with
  | refl => exact ⟨[], by simp⟩
  | @declare w _ isDeclarator _ ih =>
    obtain ⟨added, same, nodes⟩ := ih
    refine ⟨added ++ [event.node], by simp [View.declare, same], ?_⟩
    simpa [or_imp, forall_and, isDeclarator] using nodes
  | _ => assumption

theorem declared_mono {id : NodeId} (before : id ∈ v.declared) : id ∈ w.declared := by
  induction writes with
  | refl => exact before
  | declare _ _ _ ih => exact List.mem_append_left _ ih
  | _ => assumption

theorem variableType_eq {id : NodeId} (other : event.phase = .exit → id ∉ tree.typedBy event.node) :
    w.variableType id = v.variableType id := by
  induction writes with
  | refl => rfl
  | typeVariables type exits _ ih =>
    simp only [View.typeVariables, other exits, false_and, if_false, ih]
  | _ => assumption

theorem parameters_eq {function : SymbolId}
    (other : event.phase = .exit → ∀ declarator, tree.IsParameter event.node declarator →
      b.ownerAt event.node ≠ function) :
    w.parameters function = v.parameters function := by
  induction writes with
  | refl => rfl
  | @pushParameter w declarator exits parameter _ ih =>
    have differs := other exits declarator parameter
    simp only [View.pushParameter, differs.symm, false_and, if_false, ih]
  | _ => assumption

theorem parameters_mono {function : SymbolId} {id : NodeId} (before : id ∈ v.parameters function) :
    id ∈ w.parameters function := by
  induction writes with
  | refl => exact before
  | pushParameter _ _ _ ih =>
    simp only [View.pushParameter]
    split
    next here => exact List.mem_append_left _ (here.1 ▸ ih)
    next => exact ih
  | _ => assumption

theorem returnType_eq {function : SymbolId}
    (other : event.phase = .exit → tree.IsFunction event.node → b.ownerAt event.node ≠ function) :
    w.returnType function = v.returnType function := by
  induction writes with
  | refl => rfl
  | setReturnType type exits isFunction _ ih =>
    have differs := other exits isFunction
    simp only [View.setReturnType, if_neg differs.symm, ih]
  | _ => assumption

theorem superclass_eq {symbol : SymbolId}
    (other : event.phase = .exit → tree.IsClass event.node → b.ownerAt event.node ≠ symbol) :
    w.superclass symbol = v.superclass symbol := by
  induction writes with
  | refl => rfl
  | setSuperclass superclass exits isClass _ ih =>
    have differs := other exits isClass
    simp only [View.setSuperclass, if_neg differs.symm, ih]
  | _ => assumption

theorem types_extend : w.types.Extends v.types := by
  induction writes with
  | refl => exact .refl _
  | allocate signature _ ih => exact (TypeTable.allocate_extends _ signature).trans ih
  | _ => assumption

/-- What is logged at an event is about the node of the event. -/
theorem diagnostics_eq : ∃ added, w.diagnostics = v.diagnostics ++ added ∧
    ∀ diagnostic ∈ added, diagnostic.node = event.node := by
  induction writes with
  | refl => exact ⟨[], by simp⟩
  | @report w location code message _ _ ih =>
    obtain ⟨added, same, nodes⟩ := ih
    refine ⟨added ++ [⟨event.node, location, code, message⟩], ?_, ?_⟩
    · simp [View.check, View.log, same]
    · simpa [or_imp, forall_and] using nodes
  | _ => assumption

end Writes

theorem foldl_typeOf_eq {events : List Event} {id : NodeId} (absent : ⟨.exit, id⟩ ∉ events)
    (v : View) : (events.foldl (View.advance tree b mode) v).typeOf id = v.typeOf id := by
  refine List.foldlRecOn events (motive := fun w : View => w.typeOf id = v.typeOf id) _ rfl ?_
  intro w same event member
  refine (advance_writes.typeOf_eq ?_).trans same
  rintro rfl
  exact absent member

/-- Nothing has been found out about a node and nothing reported of it. -/
structure Untouched (v : View) (id : NodeId) : Prop where
  untyped : v.typeOf id = none
  unchecked : v.checked id = false
  undeclared : id ∉ v.declared
  unreported : ∀ diagnostic ∈ v.diagnostics, diagnostic.node ≠ id

theorem Untouched.start (b : Resolution) (id : NodeId) : (start b).Untouched id :=
  ⟨rfl, rfl, List.not_mem_nil, fun _ member => by cases member⟩

theorem Untouched.advance {id : NodeId} (untouched : v.Untouched id) (other : event.node ≠ id) :
    (v.advance tree b mode event).Untouched id := by
  have writes : Writes tree b event v (v.advance tree b mode event) := advance_writes
  have exit : event ≠ ⟨.exit, id⟩ := by
    rintro rfl
    exact other rfl
  have enter : event ≠ ⟨.enter, id⟩ := by
    rintro rfl
    exact other rfl
  obtain ⟨added, diagnostics, nodes⟩ := writes.diagnostics_eq
  refine ⟨(writes.typeOf_eq exit).trans untouched.untyped,
    (writes.checked_eq other).trans untouched.unchecked,
    (writes.mem_declared_iff enter).not.mpr untouched.undeclared, fun diagnostic member => ?_⟩
  rw [diagnostics] at member
  rcases List.mem_append.mp member with old | new
  · exact untouched.unreported diagnostic old
  · exact nodes diagnostic new ▸ other

theorem Untouched.run {id : NodeId} (untouched : v.Untouched id) (events : List Event)
    (others : ∀ event ∈ events, event.node ≠ id) :
    (events.foldl (View.advance tree b mode) v).Untouched id := by
  refine List.foldlRecOn events (motive := fun w : View => w.Untouched id) _ untouched ?_
  exact fun w still event member => still.advance (others event member)

end View

end ScriptSemantics
