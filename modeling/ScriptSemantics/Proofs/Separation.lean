import ScriptSemantics.Proofs.Regions
import ScriptSemantics.Proofs.Settling

/-!
# Members apart from locals

What the pass finds out about members, types and functions does not depend on locals, so it is the
same whether the locals are declared along with it or later. What it finds out about locals depends
on the rest only through the types of their type nodes.
-/
namespace ScriptSemantics

namespace Resolution

/-- Whether a node is bound to the scope of a class or a function. -/
def isMember (b : Resolution) (id : NodeId) : Bool := b.isMemberScope (b.scopeAt id)

variable {tree : SyntaxTree} {b : Resolution} {id : NodeId} {node : Node}

theorem isLocal_eq (found : tree.node? id = some node)
    (kind : node.kind = .variableDeclaratorId ∨ node.kind = .variableDeclarators) :
    b.isLocal tree id = !b.isMember id := by
  rcases kind with kind | kind <;> simp [isLocal, isMember, found, kind]

theorem isLocal_eq_false (found : tree.node? id = some node)
    (kind : node.kind ≠ .variableDeclaratorId) (other : node.kind ≠ .variableDeclarators) :
    b.isLocal tree id = false := by simp [isLocal, found, kind, other]

theorem isMember_of_isLocal (isLocal : b.isLocal tree id = true) : b.isMember id = false := by
  simp only [Resolution.isLocal, Bool.and_eq_true, Bool.not_eq_true'] at isLocal
  exact isLocal.1

theorem declaresAt_of_isMember (member : b.isMember id = true) (mode : Mode) :
    b.declaresAt mode (b.scopeAt id) = true := by
  simp only [isMember] at member
  simp [declaresAt, member]

end Resolution

/-- The variables that a node types are bound to the scope of the node. -/
theorem Prepared.scopeAt_typedBy {tree : SyntaxTree} {b : Resolution} (prepared : Prepared tree b)
    {id declarator : NodeId} (reached : tree.Reachable id)
    (typed : declarator ∈ tree.typedBy id) : b.scopeAt declarator = b.scopeAt id := by
  have plain {parent child : NodeId} {node : Node} (reached : tree.Reachable parent)
      (link : tree.HasChild parent child) (found : tree.node? child = some node)
      (kind : node.kind = .variableDeclaratorId ∨ node.kind = .variableDeclarator) :
      b.scopeAt child = b.scopeAt parent :=
    prepared.registered.scopeAt_child reached link found
      (by rcases kind with kind | kind <;> simp [kind, NodeKind.introducesScope])
  unfold SyntaxTree.typedBy at typed
  split at typed
  next type declarators location found =>
    obtain ⟨holder, listed, declares⟩ := List.mem_filterMap.mp typed
    have link : tree.HasChild id holder := ⟨_, found, List.mem_cons_of_mem _ listed⟩
    unfold SyntaxTree.declaredBy at declares
    split at declares
    next inner initializer location' foundHolder =>
      obtain rfl := Option.some.inj declares
      obtain ⟨below, name, foundBelow, is⟩ := prepared.formed.declarator_id foundHolder rfl
      have inside : tree.HasChild holder inner := ⟨_, foundHolder, List.mem_cons_self ..⟩
      rw [plain (reached.child link) inside foundBelow (.inl (Node.kind_of is)),
        plain reached link foundHolder (.inr rfl)]
    next => cases declares
  next type inner location found =>
    obtain rfl := List.mem_singleton.mp typed
    obtain ⟨below, name, foundBelow, is⟩ := prepared.formed.parameter_declarator found rfl
    exact plain reached ⟨_, found, by simp [Node.children, Production.children]⟩ foundBelow
      (.inl (Node.kind_of is))
  next => cases typed

theorem Prepared.parameter_isMember {tree : SyntaxTree} {b : Resolution} (prepared : Prepared tree b)
    {id : NodeId} {node : Node} (reached : tree.Reachable id) (found : tree.node? id = some node)
    (kind : node.kind = .formalParameter) (inner : id ≠ tree.root) : b.isMember id = true := by
  obtain ⟨_, _, _, _, _, _, _, _, _, _, _, isFunction⟩ :=
    prepared.registered.parameter prepared.formed reached found kind inner
  simp [Resolution.isMember, Resolution.isMemberScope, isFunction, ScopeKind.owner?]

/-- A declaration statement in a scope of members stands in a class, where every pass gives types. -/
theorem Prepared.typesAt_of_isMember {tree : SyntaxTree} {b : Resolution} (prepared : Prepared tree b)
    {id : NodeId} {node : Node} (reached : tree.Reachable id) (found : tree.node? id = some node)
    (kind : node.kind = .variableDeclarators) (member : b.isMember id = true) (mode : Mode) :
    b.typesAt mode (b.scopeAt id) = true := by
  have notFunction := prepared.registered.statement_scope prepared.formed reached found kind
  simp only [Resolution.isMember, Resolution.isMemberScope] at member
  unfold Resolution.typesAt
  cases scope : b.scopeKind (b.scopeAt id) with
  | none => simp [scope] at member
  | some scopeKind =>
    cases scopeKind with
    | classScope symbol => rfl
    | functionScope symbol => exact (notFunction symbol scope).elim
    | _ => simp [scope, ScopeKind.owner?] at member

/-- What a node types is a member unless the node is a local itself. -/
theorem Prepared.typedBy_isMember {tree : SyntaxTree} {b : Resolution} (prepared : Prepared tree b)
    (inner : ∀ root, tree.node? tree.root = some root → root.kind ≠ .formalParameter)
    {id declarator : NodeId} (reached : tree.Reachable id) (notLocal : b.isLocal tree id = false)
    (typed : declarator ∈ tree.typedBy id) : b.isMember declarator = true := by
  rw [Resolution.isMember, prepared.scopeAt_typedBy reached typed]
  unfold SyntaxTree.typedBy at typed
  split at typed
  next found =>
    rw [Resolution.isLocal_eq found (.inr rfl)] at notLocal
    simpa [Resolution.isMember] using notLocal
  next found =>
    apply prepared.parameter_isMember reached found rfl
    rintro rfl
    exact inner _ found rfl
  next => cases typed

namespace View

variable {tree : SyntaxTree} {b : Resolution} {v w : View}

/-- Two views agree on everything but locals. -/
structure SameMembers (tree : SyntaxTree) (b : Resolution) (v w : View) : Prop where
  types : v.types = w.types
  typeOf : v.typeOf = w.typeOf
  checked : ∀ id, b.isLocal tree id = false → v.checked id = w.checked id
  declared : v.declared.filter b.isMember = w.declared.filter b.isMember
  variableType : ∀ id, b.isMember id = true → v.variableType id = w.variableType id
  parameters : v.parameters = w.parameters
  /-- No parameter of a function is a local. -/
  inside : ∀ function, ∀ id ∈ v.parameters function, b.isMember id = true
  returnType : v.returnType = w.returnType
  superclass : v.superclass = w.superclass
  diagnostics : v.diagnostics.filter (fun d => !b.isLocal tree d.node) =
    w.diagnostics.filter fun d => !b.isLocal tree d.node

namespace SameMembers

theorem refl (inside : ∀ function, ∀ id ∈ v.parameters function, b.isMember id = true) :
    SameMembers tree b v v :=
  ⟨rfl, rfl, fun _ _ => rfl, rfl, fun _ _ => rfl, rfl, inside, rfl, rfl, rfl⟩

theorem trans {u : View} (first : SameMembers tree b u v) (second : SameMembers tree b v w) :
    SameMembers tree b u w where
  types := first.types.trans second.types
  typeOf := first.typeOf.trans second.typeOf
  checked id other := (first.checked id other).trans (second.checked id other)
  declared := first.declared.trans second.declared
  variableType id member := (first.variableType id member).trans (second.variableType id member)
  parameters := first.parameters.trans second.parameters
  inside := first.inside
  returnType := first.returnType.trans second.returnType
  superclass := first.superclass.trans second.superclass
  diagnostics := first.diagnostics.trans second.diagnostics

theorem symm (same : SameMembers tree b v w) : SameMembers tree b w v where
  types := same.types.symm
  typeOf := same.typeOf.symm
  checked id other := (same.checked id other).symm
  declared := same.declared.symm
  variableType id member := (same.variableType id member).symm
  parameters := same.parameters.symm
  inside function id listed := same.inside function id (same.parameters ▸ listed)
  returnType := same.returnType.symm
  superclass := same.superclass.symm
  diagnostics := same.diagnostics.symm

variable (same : SameMembers tree b v w) {id : NodeId}
include same

theorem mem_declared (member : b.isMember id = true) : id ∈ v.declared ↔ id ∈ w.declared := by
  have filtered : id ∈ v.declared.filter b.isMember ↔ id ∈ w.declared.filter b.isMember := by
    rw [same.declared]
  simpa [List.mem_filter, member] using filtered

theorem hasVariable_eq (member : b.isMember id = true) (name : String) :
    v.hasVariable tree b (b.scopeAt id) name = w.hasVariable tree b (b.scopeAt id) name := by
  have filtered (u : View) : u.hasVariable tree b (b.scopeAt id) name =
      (u.declared.filter b.isMember).any fun other =>
        b.scopeAt other = b.scopeAt id && tree.nameAt other = name := by
    rw [hasVariable, List.any_filter]
    congr 1
    funext other
    by_cases here : b.scopeAt other = b.scopeAt id
    · have inScope : b.isMember other = true := by rwa [Resolution.isMember, here]
      simp [inScope]
    · simp [here]
  rw [filtered, filtered, same.declared]

theorem signature_eq : v.signature = w.signature := by
  funext function
  unfold signature
  rw [same.parameters]
  refine mapM_congr fun parameter listed => same.variableType parameter ?_
  exact same.inside function parameter (by rwa [same.parameters])

theorem signatureText_eq (function : SymbolId) :
    v.signatureText b function = w.signatureText b function := by
  have texts : (v.parameters function).map (fun id => v.textOf b (v.variableType id)) =
      (w.parameters function).map fun id => w.textOf b (w.variableType id) := by
    rw [← same.parameters]
    refine List.map_congr_left fun parameter listed => ?_
    rw [same.variableType parameter (same.inside function parameter listed)]
    unfold textOf
    rw [same.types]
  unfold signatureText
  rw [texts]

theorem accepts_eq (parameters : List Ty) : v.accepts parameters = w.accepts parameters := by
  funext function
  unfold accepts
  rw [same.signature_eq]
  congr 1
  funext types
  unfold sameTypes
  rw [same.types]

theorem repeats_eq (name : String) (parameters : List Ty) :
    v.repeats b id name parameters = w.repeats b id name parameters := by
  unfold repeats
  rw [same.accepts_eq]

theorem setType (type : Ty) : SameMembers tree b (v.setType id type) (w.setType id type) :=
  { same with typeOf := by simp only [View.setType, same.typeOf] }

theorem allocate (signature : Signature) :
    SameMembers tree b (v.allocate signature) (w.allocate signature) :=
  { same with types := by simp only [View.allocate, same.types] }

theorem check : SameMembers tree b (v.check id) (w.check id) :=
  { same with
    checked := fun other notLocal => by
      simp only [View.check]
      rw [same.checked other notLocal] }

theorem log (location : Location) (code : DiagnosticCode) (message : String) :
    SameMembers tree b (v.log id location code message) (w.log id location code message) :=
  { same with diagnostics := by simp only [View.log, List.filter_append, same.diagnostics] }

theorem declare : SameMembers tree b (v.declare id) (w.declare id) :=
  { same with declared := by simp only [View.declare, List.filter_append, same.declared] }

theorem typeVariables (ids : List NodeId) (type : Option Ty) :
    SameMembers tree b (v.typeVariables ids type) (w.typeVariables ids type) :=
  { same with
    variableType := fun other member => by
      simp only [View.typeVariables, same.mem_declared member, same.variableType other member] }

theorem pushParameter (function : SymbolId) (member : b.isMember id = true) :
    SameMembers tree b (v.pushParameter function id) (w.pushParameter function id) :=
  { same with
    parameters := by simp only [View.pushParameter, same.parameters]
    inside := fun other parameter listed => by
      simp only [View.pushParameter] at listed
      split at listed
      · rcases List.mem_append.mp listed with old | new
        · exact same.inside function parameter old
        · exact List.mem_singleton.mp new ▸ member
      · exact same.inside other parameter listed }

theorem setReturnType (function : SymbolId) (type : Option Ty) :
    SameMembers tree b (v.setReturnType function type) (w.setReturnType function type) :=
  { same with returnType := by simp only [View.setReturnType, same.returnType] }

theorem setSuperclass (symbol : SymbolId) (superclass : ScopeId) :
    SameMembers tree b (v.setSuperclass symbol superclass) (w.setSuperclass symbol superclass) :=
  { same with superclass := by simp only [View.setSuperclass, same.superclass] }

theorem declareVariableAt (member : b.isMember id = true) (mode mode' : Mode) (name : String)
    (location : Location) : SameMembers tree b (v.declareVariableAt tree b mode id name location)
      (w.declareVariableAt tree b mode' id name location) := by
  by_cases notLocal : b.isLocal tree id = true
  · exact absurd (Resolution.isMember_of_isLocal notLocal) (by simp [member])
  have unchecked := same.checked id (by simpa using notLocal)
  simp only [View.declareVariableAt, Resolution.declaresAt_of_isMember member,
    same.mem_declared member, unchecked, same.hasVariable_eq member]
  split
  · exact same
  · split
    · exact same
    · split
      · exact same
      · split
        · exact same.check.log ..
        · exact same.check.declare

theorem typeDeclarators {mode mode' : Mode} (types : b.typesAt mode (b.scopeAt id) = true)
    (types' : b.typesAt mode' (b.scopeAt id) = true) (type : NodeId) (declarators : List NodeId) :
    SameMembers tree b (v.typeDeclarators tree b mode id type declarators)
      (w.typeDeclarators tree b mode' id type declarators) := by
  simp only [View.typeDeclarators, types, types', same.typeOf]
  exact same.typeVariables ..

theorem completeParameter (type : NodeId) {declarator : NodeId}
    (member : b.isMember declarator = true) :
    SameMembers tree b (v.completeParameter b id type declarator)
      (w.completeParameter b id type declarator) := by
  simp only [View.completeParameter, same.mem_declared member, same.typeOf]
  split
  · exact (same.typeVariables ..).pushParameter _ member
  · exact same

theorem checkSignature (name : String) (location : Location) :
    SameMembers tree b (v.checkSignature b id name location)
      (w.checkSignature b id name location) := by
  simp only [View.checkSignature, same.signature_eq, same.signatureText_eq]
  split
  · exact same
  · rw [same.repeats_eq]
    split
    · exact same.log ..
    · exact same

theorem returning (returnType : Option NodeId) :
    SameMembers tree b (v.returning b id returnType) (w.returning b id returnType) := by
  cases returnType with
  | none => exact same
  | some result =>
    simp only [View.returning, same.typeOf]
    exact same.setReturnType ..

theorem completeFunction (notLocal : b.isLocal tree id = false) (name : String)
    (location : Location) (returnType : Option NodeId) :
    SameMembers tree b (v.completeFunction b id name location returnType)
      (w.completeFunction b id name location returnType) := by
  simp only [View.completeFunction, same.checked id notLocal]
  split
  · exact same.returning returnType
  · exact (same.returning returnType).check.checkSignature name location

theorem completeClass (notLocal : b.isLocal tree id = false) (name : String) (location : Location)
    (superclass : Option NodeId) :
    SameMembers tree b (v.completeClass b id name location superclass)
      (w.completeClass b id name location superclass) := by
  simp only [View.completeClass, same.checked id notLocal, same.typeOf]
  cases superclass.bind w.typeOf with
  | none => exact same
  | some type =>
    cases type with
    | classType target =>
      simp only []
      split
      · exact same
      · split
        · exact same.check.log ..
        · exact same.check.setSuperclass ..
    | _ => exact same

theorem inheritType (child : NodeId) :
    SameMembers tree b (v.inheritType id child) (w.inheritType id child) := by
  simp only [View.inheritType, same.typeOf]
  split
  · exact same.setType _
  · exact same

theorem resolveFunctionType (parameters : List NodeId) (returnType : NodeId) :
    SameMembers tree b (v.resolveFunctionType id parameters returnType)
      (w.resolveFunctionType id parameters returnType) := by
  simp only [View.resolveFunctionType, same.typeOf, same.types]
  split
  · exact same
  · split
    · exact (same.allocate _).setType _
    · exact same

theorem resolveClassReference (notLocal : b.isLocal tree id = false) (name : String)
    (location : Location) : SameMembers tree b (v.resolveClassReference b id name location)
      (w.resolveClassReference b id name location) := by
  simp only [View.resolveClassReference, same.typeOf, same.checked id notLocal]
  split
  · exact same
  · split
    · exact same
    · split
      · exact same.check.setType _
      · exact same.check.log ..

/-- An event that is not about a local keeps two views alike, also in different modes. -/
theorem advance (prepared : Prepared tree b)
    (inner : ∀ root, tree.node? tree.root = some root → root.kind ≠ .formalParameter)
    {event : Event} (reached : tree.Reachable event.node)
    (notLocal : b.isLocal tree event.node = false) (mode mode' : Mode) :
    SameMembers tree b (v.advance tree b mode event) (w.advance tree b mode' event) := by
  obtain ⟨phase, id⟩ := event
  obtain ⟨node, found⟩ := prepared.formed.reachable_node reached
  have member (kind : node.kind = .variableDeclaratorId ∨ node.kind = .variableDeclarators) :
      b.isMember id = true := by
    rw [Resolution.isLocal_eq found kind] at notLocal
    simpa using notLocal
  obtain ⟨production, location⟩ := node
  simp only [View.advance, found]
  cases phase with
  | enter =>
    cases production with
    | variableDeclaratorId name => exact same.declareVariableAt (member (.inl rfl)) ..
    | _ => exact same
  | exit =>
    cases production with
    | primitiveType keyword => exact same.setType _
    | typeOrVoid child =>
      cases child with
      | none => exact same.setType _
      | some child => exact same.inheritType child
    | typeNode child => exact same.inheritType child
    | functionType parameters returnType => exact same.resolveFunctionType parameters returnType
    | classReference name => exact same.resolveClassReference notLocal name location
    | variableDeclarators type declarators =>
      have types := prepared.typesAt_of_isMember reached found rfl (member (.inr rfl))
      exact same.typeDeclarators (types mode) (types mode') type declarators
    | formalParameter type declarator =>
      exact same.completeParameter type (prepared.typedBy_isMember inner reached notLocal
        (by simp [SyntaxTree.typedBy, found]))
    | functionDeclaration name returnType parameters body =>
      exact same.completeFunction notLocal name location returnType
    | classDeclaration name superclass body =>
      exact same.completeClass notLocal name location superclass
    | _ => exact same

end SameMembers

/-- Two views agree on locals. -/
structure SameLocals (tree : SyntaxTree) (b : Resolution) (v w : View) : Prop where
  checked : ∀ id, b.isLocal tree id = true → v.checked id = w.checked id
  declared : v.declared.filter (fun id => !b.isMember id) =
    w.declared.filter fun id => !b.isMember id
  variableType : ∀ id, b.isMember id = false → v.variableType id = w.variableType id
  diagnostics : v.diagnostics.filter (fun d => b.isLocal tree d.node) =
    w.diagnostics.filter fun d => b.isLocal tree d.node

namespace SameLocals

theorem refl (v : View) : SameLocals tree b v v := ⟨fun _ _ => rfl, rfl, fun _ _ => rfl, rfl⟩

theorem symm (same : SameLocals tree b v w) : SameLocals tree b w v :=
  ⟨fun id isLocal => (same.checked id isLocal).symm, same.declared.symm,
    fun id outside => (same.variableType id outside).symm, same.diagnostics.symm⟩

theorem trans {u : View} (first : SameLocals tree b u v) (second : SameLocals tree b v w) :
    SameLocals tree b u w :=
  ⟨fun id isLocal => (first.checked id isLocal).trans (second.checked id isLocal),
    first.declared.trans second.declared,
    fun id outside => (first.variableType id outside).trans (second.variableType id outside),
    first.diagnostics.trans second.diagnostics⟩

theorem mem_declared (same : SameLocals tree b v w) {id : NodeId} (outside : b.isMember id = false) :
    id ∈ v.declared ↔ id ∈ w.declared := by
  have filtered : id ∈ v.declared.filter (fun id => !b.isMember id) ↔
      id ∈ w.declared.filter fun id => !b.isMember id := by
    rw [same.declared]
  simpa [List.mem_filter, outside] using filtered

theorem hasVariable_eq (same : SameLocals tree b v w) {id : NodeId}
    (outside : b.isMember id = false) (name : String) :
    v.hasVariable tree b (b.scopeAt id) name = w.hasVariable tree b (b.scopeAt id) name := by
  have filtered (u : View) : u.hasVariable tree b (b.scopeAt id) name =
      (u.declared.filter fun id => !b.isMember id).any fun other =>
        b.scopeAt other = b.scopeAt id && tree.nameAt other = name := by
    rw [hasVariable, List.any_filter]
    congr 1
    funext other
    by_cases here : b.scopeAt other = b.scopeAt id
    · have outsideToo : b.isMember other = false := by rwa [Resolution.isMember, here]
      simp [outsideToo]
    · simp [here]
  rw [filtered, filtered, same.declared]

end SameLocals

/-- What is written at an event that is not about a local is not about locals. -/
theorem Writes.sameLocals (prepared : Prepared tree b)
    (inner : ∀ root, tree.node? tree.root = some root → root.kind ≠ .formalParameter)
    {event : Event} (reached : tree.Reachable event.node)
    (notLocal : b.isLocal tree event.node = false) (writes : Writes tree b event v w) :
    SameLocals tree b v w := by
  have other {id : NodeId} (isLocal : b.isLocal tree id = true) : id ≠ event.node := by
    rintro rfl
    simp [notLocal] at isLocal
  induction writes with
  | refl => exact .refl v
  | check _ ih =>
    exact { ih with
      checked := fun id isLocal => by
        simp only [View.check, if_neg (other isLocal), ih.checked id isLocal] }
  | report location code message _ _ ih =>
    exact { ih with
      checked := fun id isLocal => by
        simp only [View.check, View.log, if_neg (other isLocal), ih.checked id isLocal]
      diagnostics := by simp [View.log, View.check, List.filter_append, notLocal, ih.diagnostics] }
  | declare _ isDeclarator _ ih =>
    obtain ⟨node, found, kind⟩ := SyntaxTree.isDeclaratorId_iff.mp isDeclarator
    rw [Resolution.isLocal_eq found (.inl kind)] at notLocal
    have member : b.isMember event.node = true := by simpa using notLocal
    exact { ih with declared := by simp [View.declare, List.filter_append, member, ih.declared] }
  | typeVariables type _ _ ih =>
    exact { ih with
      variableType := fun id outside => by
        have untyped : id ∉ tree.typedBy event.node := fun typed => by
          simp [prepared.typedBy_isMember inner reached notLocal typed] at outside
        simp only [View.typeVariables, untyped, false_and, if_false, ih.variableType id outside] }
  | setType _ _ _ ih | allocate _ _ ih | pushParameter _ _ _ ih | setReturnType _ _ _ _ ih
  | setSuperclass _ _ _ _ ih => exact { ih with }

section Local

variable {event : Event} (isLocal : b.isLocal tree event.node = true)
include isLocal

theorem local_cases : ∃ node, tree.node? event.node = some node ∧
    ((∃ name, node.production = .variableDeclaratorId name) ∨
      ∃ type declarators, node.production = .variableDeclarators type declarators) := by
  simp only [Resolution.isLocal, Bool.and_eq_true, Option.any_eq_true, Bool.or_eq_true,
    beq_iff_eq] at isLocal
  obtain ⟨-, ⟨production, location⟩, found, kind⟩ := isLocal
  refine ⟨_, found, ?_⟩
  cases production <;> simp [Node.kind, Production.kind] at kind ⊢

theorem advance_membersOnly_eq_self : v.advance tree b .membersOnly event = v := by
  have outside := Resolution.isMember_of_isLocal isLocal
  obtain ⟨⟨production, location⟩, found, ⟨name, is⟩ | ⟨type, declarators, is⟩⟩ := local_cases isLocal
  · cases is
    simp only [advance, found]
    cases event.phase with
    | exit => rfl
    | enter =>
      have passedOver : b.declaresAt .membersOnly (b.scopeAt event.node) = false := by
        simp only [Resolution.isMember] at outside
        simp [Resolution.declaresAt, outside]
      simp [View.enter, declareVariableAt, passedOver]
  · cases is
    simp only [advance, found]
    cases event.phase with
    | enter => rfl
    | exit =>
      have passedOver : b.typesAt .membersOnly (b.scopeAt event.node) = false := by
        simp only [Resolution.isMember, Resolution.isMemberScope] at outside
        unfold Resolution.typesAt
        cases scope : b.scopeKind (b.scopeAt event.node) with
        | none => rfl
        | some kind => cases kind <;> simp_all [ScopeKind.owner?, ScopeKind.isClass]
      simp [View.exit, typeDeclarators, passedOver]

theorem typeOf_advance_local (mode : Mode) : (v.advance tree b mode event).typeOf = v.typeOf := by
  obtain ⟨⟨production, location⟩, found, ⟨name, is⟩ | ⟨type, declarators, is⟩⟩ := local_cases isLocal
  · cases is
    simp only [advance, found]
    cases event.phase with
    | exit => rfl
    | enter =>
      simp only [View.enter, declareVariableAt]
      repeat' split
      all_goals rfl
  · cases is
    simp only [advance, found]
    cases event.phase with
    | enter => rfl
    | exit =>
      simp only [View.exit, typeDeclarators]
      split <;> rfl

/-- An event about a local leaves everything else alone. -/
theorem SameMembers.advance_local (prepared : Prepared tree b)
    (reached : tree.Reachable event.node)
    (inside : ∀ function, ∀ id ∈ v.parameters function, b.isMember id = true) (mode : Mode) :
    SameMembers tree b v (v.advance tree b mode event) := by
  have same : SameMembers tree b v v := .refl inside
  have outside := Resolution.isMember_of_isLocal isLocal
  have checked : ∀ id, b.isLocal tree id = false →
      v.checked id = (v.check event.node).checked id := by
    intro id notLocal
    have other : id ≠ event.node := by
      rintro rfl
      simp [isLocal] at notLocal
    simp [View.check, other]
  obtain ⟨⟨production, location⟩, found, ⟨name, is⟩ | ⟨type, declarators, is⟩⟩ := local_cases isLocal
  · cases is
    simp only [View.advance, found]
    cases event.phase with
    | exit => exact same
    | enter =>
      simp only [View.enter, View.declareVariableAt]
      split
      · exact same
      · split
        · exact same
        · split
          · exact same
          · split
            · exact { same with
                checked := checked
                diagnostics := by simp [View.log, View.check, List.filter_append, isLocal] }
            · exact { same with
                checked := checked
                declared := by simp [View.declare, View.check, List.filter_append, outside] }
  · cases is
    simp only [View.advance, found]
    cases event.phase with
    | enter => exact same
    | exit =>
      simp only [View.exit, View.typeDeclarators]
      split
      · exact same
      · exact { same with
          variableType := fun id member => by
            have untyped : id ∉ declarators.filterMap tree.declaredBy := fun listed => by
              have typed : id ∈ tree.typedBy event.node := by
                simpa [SyntaxTree.typedBy, found] using listed
              rw [Resolution.isMember, prepared.scopeAt_typedBy reached typed] at member
              simp only [Resolution.isMember] at outside
              simp [outside] at member
            simp only [View.typeVariables, untyped, false_and, if_false] }

/-- An event about a local keeps two views alike if they agree on the type that it gives. -/
theorem SameLocals.advance (same : SameLocals tree b v w)
    (types : ∀ node type declarators, event.phase = .exit → tree.node? event.node = some node →
      node.production = .variableDeclarators type declarators → v.typeOf type = w.typeOf type)
    (mode : Mode) : SameLocals tree b (v.advance tree b mode event)
      (w.advance tree b mode event) := by
  have outside := Resolution.isMember_of_isLocal isLocal
  have check : SameLocals tree b (v.check event.node) (w.check event.node) :=
    { same with
      checked := fun id isLocal => by simp only [View.check, same.checked id isLocal] }
  obtain ⟨⟨production, location⟩, found, ⟨name, is⟩ | ⟨type, declarators, is⟩⟩ := local_cases isLocal
  · cases is
    simp only [View.advance, found]
    cases event.phase with
    | exit => exact same
    | enter =>
      simp only [View.enter, declareVariableAt, same.mem_declared outside,
        same.checked _ isLocal, same.hasVariable_eq outside]
      split
      · exact same
      · split
        · exact same
        · split
          · exact same
          · split
            · exact { check with
                diagnostics := by
                  simp only [View.log, List.filter_append, check.diagnostics] }
            · exact { check with
                declared := by
                  simp only [View.declare, List.filter_append, check.declared] }
  · cases is
    simp only [View.advance, found]
    cases phase : event.phase with
    | enter => exact same
    | exit =>
      simp only [View.exit, typeDeclarators, types _ type declarators phase found rfl]
      split
      · exact same
      · exact { same with
          variableType := fun id outside => by
            simp only [View.typeVariables, same.mem_declared outside,
              same.variableType id outside] }

end Local

section Runs

variable (prepared : Prepared tree b)
  (inner : ∀ root, tree.node? tree.root = some root → root.kind ≠ .formalParameter)
include prepared inner

/-- A pass over members finds out about everything but locals what a pass with locals does. -/
theorem SameMembers.foldl (same : SameMembers tree b v w) (events : List Event)
    (reached : ∀ event ∈ events, tree.Reachable event.node) :
    SameMembers tree b (events.foldl (View.advance tree b .membersOnly) v)
      (events.foldl (View.advance tree b .withLocals) w) := by
  induction events generalizing v w with
  | nil => exact same
  | cons event events ih =>
    have reachedFirst := reached event (by simp)
    refine ih ?_ fun later member => reached later (by simp [member])
    cases isLocal : b.isLocal tree event.node with
    | false => exact same.advance prepared inner reachedFirst isLocal .membersOnly .withLocals
    | true =>
      rw [advance_membersOnly_eq_self isLocal]
      exact same.trans (.advance_local isLocal prepared reachedFirst
        same.symm.inside _)

theorem SameLocals.foldl_membersOnly (v : View) (events : List Event)
    (reached : ∀ event ∈ events, tree.Reachable event.node) :
    SameLocals tree b v (events.foldl (View.advance tree b .membersOnly) v) := by
  induction events generalizing v with
  | nil => exact .refl v
  | cons event events ih =>
    have reachedFirst := reached event (by simp)
    refine .trans ?_ (ih _ fun later member => reached later (by simp [member]))
    cases isLocal : b.isLocal tree event.node with
    | false => exact advance_writes.sameLocals prepared inner reachedFirst isLocal
    | true =>
      rw [advance_membersOnly_eq_self isLocal]
      exact .refl v

/-- What a pass finds out about locals depends only on the events about them and on the types that
are there when these events come. -/
theorem SameLocals.foldl_filter (events : List Event)
    (reached : ∀ event ∈ events, tree.Reachable event.node) (same : SameLocals tree b v w)
    (types : ∀ before event after, events = before ++ event :: after → ∀ node type declarators,
      event.phase = .exit → tree.node? event.node = some node →
      node.production = .variableDeclarators type declarators →
      (before.foldl (View.advance tree b .withLocals) v).typeOf type = w.typeOf type) :
    SameLocals tree b (events.foldl (View.advance tree b .withLocals) v)
      ((events.filter fun event => b.isLocal tree event.node).foldl
        (View.advance tree b .withLocals) w) := by
  induction events generalizing v w with
  | nil => exact same
  | cons event events ih =>
    have reachedFirst := reached event (by simp)
    have reachedRest : ∀ later ∈ events, tree.Reachable later.node :=
      fun later member => reached later (by simp [member])
    have shifted (before : List Event) (later : Event) (after : List Event)
        (split : events = before ++ later :: after) :=
      types (event :: before) later after (by rw [split, List.cons_append])
    cases isLocal : b.isLocal tree event.node with
    | false =>
      rw [List.filter_cons_of_neg (by simp [isLocal])]
      exact ih reachedRest
        ((advance_writes.sameLocals prepared inner reachedFirst isLocal).symm.trans same) shifted
    | true =>
      rw [List.filter_cons_of_pos (by simpa using isLocal)]
      refine ih reachedRest (same.advance isLocal (types [] event events rfl) _) ?_
      intro before later after split node type declarators exits found is
      rw [typeOf_advance_local isLocal]
      exact shifted before later after split node type declarators exits found is

end Runs

end View

end ScriptSemantics
