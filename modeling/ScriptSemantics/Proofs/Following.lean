import ScriptSemantics.Proofs.Footprints

/-!
# The resolving pass follows its view

On a prepared tree every step of the resolving pass gives a result, and the result is the one that the
step on views describes. A walk from any reachable node therefore never stops.
-/
namespace ScriptSemantics

/-- Whether a pass can be run on a tree. A root that is a parameter has no function, so a pass that
declared its variable would not know what to do with it. -/
def SyntaxTree.Suits (tree : SyntaxTree) (mode : Mode) : Prop :=
  mode = .membersOnly ∨ ∀ node, tree.node? tree.root = some node → node.kind ≠ .formalParameter

namespace View

variable {tree : SyntaxTree} {b r : Resolution} {v : View} {mode : Mode}

namespace Grounded

variable (grounded : v.Grounded tree b)
include grounded

theorem setType (id : NodeId) {type : Ty}
    (known : type.Formed b.IsClassScope v.types.functions.size) :
    (v.setType id type).Grounded tree b :=
  { grounded with
    typed := fun other t isType => by
      simp only [View.setType] at isType
      split at isType
      · cases isType
        exact known
      · exact grounded.typed other t isType }

theorem check (id : NodeId) : (v.check id).Grounded tree b :=
  { grounded with }

theorem log (id : NodeId) (location : Location) (code : DiagnosticCode) (message : String) :
    (v.log id location code message).Grounded tree b :=
  { grounded with }

theorem typeVariables (ids : List NodeId) {type : Option Ty}
    (known : ∀ t, type = some t → t.Formed b.IsClassScope v.types.functions.size) :
    (v.typeVariables ids type).Grounded tree b :=
  { grounded with
    untyped := fun id new => by
      simp only [View.typeVariables]
      rw [if_neg fun both => new both.2]
      exact grounded.untyped id new
    variableTyped := fun id t isType => by
      simp only [View.typeVariables] at isType
      split at isType
      · exact known t isType
      · exact grounded.variableTyped id t isType }

theorem pushParameter (function : SymbolId) {id : NodeId} (member : id ∈ v.declared) :
    (v.pushParameter function id).Grounded tree b :=
  { grounded with
    parameters := fun other p inParameters => by
      simp only [View.pushParameter] at inParameters
      split at inParameters
      · rcases List.mem_append.mp inParameters with old | new
        · exact grounded.parameters _ p old
        · exact List.mem_singleton.mp new ▸ member
      · exact grounded.parameters other p inParameters }

theorem setReturnType (function : SymbolId) {type : Option Ty}
    (known : ∀ t, type = some t → t.Formed b.IsClassScope v.types.functions.size) :
    (v.setReturnType function type).Grounded tree b :=
  { grounded with
    returns := fun other t isType => by
      simp only [View.setReturnType] at isType
      split at isType
      · exact known t isType
      · exact grounded.returns other t isType }

theorem setSuperclass (symbol : SymbolId) {superclass : ScopeId}
    (isClass : b.IsClassScope superclass) :
    (v.setSuperclass symbol superclass).Grounded tree b :=
  { grounded with
    superclasses := fun other scope isSuperclass => by
      simp only [View.setSuperclass] at isSuperclass
      split at isSuperclass
      · cases isSuperclass
        exact isClass
      · exact grounded.superclasses other scope isSuperclass }

theorem declare {id : NodeId} {node : Node} {name : String} (new : id ∉ v.declared)
    (reached : tree.Reachable id) (found : tree.node? id = some node)
    (is : node.production = .variableDeclaratorId name) :
    (v.declare id).Grounded tree b :=
  { grounded with
    nodup := by
      simp only [View.declare]
      refine List.nodup_append.mpr ⟨grounded.nodup, by simp, fun a member other isNew same => ?_⟩
      rw [same, List.mem_singleton.mp isNew] at member
      exact new member
    reached := fun other member => by
      rcases List.mem_append.mp member with old | isNew
      · exact grounded.reached other old
      · exact List.mem_singleton.mp isNew ▸ reached
    named := fun other member => by
      rcases List.mem_append.mp member with old | isNew
      · exact grounded.named other old
      · exact List.mem_singleton.mp isNew ▸ ⟨node, name, found, is⟩
    untyped := fun other outside =>
      grounded.untyped other fun member => outside (List.mem_append_left _ member)
    parameters := fun function p member =>
      List.mem_append_left _ (grounded.parameters function p member) }

/-- Allocation adds one signature whose parts are known, so every known type stays known. -/
theorem allocate {signature : Signature}
    (result : signature.returnType.Formed b.IsClassScope v.types.functions.size)
    (parameters : ∀ type ∈ signature.parameterTypes,
      type.Formed b.IsClassScope v.types.functions.size) :
    (v.allocate signature).Grounded tree b :=
  have size : (v.allocate signature).types.functions.size = v.types.functions.size + 1 := by
    simp [View.allocate, TypeTable.allocate]
  have mono {type : Ty} (known : type.Formed b.IsClassScope v.types.functions.size) :
      type.Formed b.IsClassScope (v.allocate signature).types.functions.size :=
    known.mono (by omega)
  { grounded with
    types := fun index other found => by
      simp only [View.allocate, TypeTable.allocate, Array.getElem?_push] at found
      split at found
      next last =>
        cases found
        rw [last]
        exact ⟨result, parameters⟩
      next => exact grounded.types index other found
    typed := fun id t isType => mono (grounded.typed id t isType)
    variableTyped := fun id t isType => mono (grounded.variableTyped id t isType)
    returns := fun function t isType => mono (grounded.returns function t isType) }

end Grounded

theorem check_eq_self {id : NodeId} (before : v.checked id = true) : v.check id = v := by
  unfold check
  congr 1
  funext other
  split
  next here => rw [here, before]
  next => rfl

theorem typeVariables_cons (first : NodeId) (rest : List NodeId) (type : Option Ty) :
    (v.typeVariables [first] type).typeVariables rest type =
      v.typeVariables (first :: rest) type := by
  unfold typeVariables
  congr 1
  funext other
  by_cases isFirst : other = first
  · subst isFirst
    by_cases member : other ∈ v.declared <;> simp [member]
  · simp [isFirst]

/-- No variable is declared whose parameter is the root and so has no function. -/
def NoOrphan (v : View) (tree : SyntaxTree) : Prop :=
  ∀ node type id, tree.node? tree.root = some node →
    node.production = .formalParameter type id → id ∉ v.declared

/-- A resolution is represented by a view that passes can come to. -/
structure Trails (v : View) (tree : SyntaxTree) (b r : Resolution) : Prop where
  rep : v.Represents tree b r
  grounded : v.Grounded tree b

namespace Trails

variable (prepared : Prepared tree b) (trails : v.Trails tree b r) {id : NodeId} {node : Node}
  (reached : tree.Reachable id) (found : tree.node? id = some node)
include prepared trails reached

theorem setType (type : Ty) (known : type.Formed b.IsClassScope v.types.functions.size) :
    ∃ after, r.setType id type = .ok after ∧ (v.setType id type).Trails tree b after := by
  obtain ⟨after, written, rep⟩ := trails.rep.setType (prepared.index_lt reached) type
  exact ⟨after, written, rep, trails.grounded.setType id known⟩

theorem checkOnce :
    ∃ after, r.checkOnce id = .ok (!v.checked id, after) ∧ (v.check id).Trails tree b after := by
  obtain ⟨after, written, rep⟩ := trails.rep.checkOnce (prepared.index_lt reached)
  exact ⟨after, written, rep, trails.grounded.check id⟩

omit prepared reached in
theorem log (location : Location) (code : DiagnosticCode) (message : String) :
    (v.log id location code message).Trails tree b (r.log code message id location) :=
  ⟨trails.rep.log .., trails.grounded.log ..⟩

/-- A declarator id has a symbol exactly when its variable is declared. -/
theorem declarator_symbol (found : tree.node? id = some node) {name : String}
    (is : node.production = .variableDeclaratorId name) :
    r.symbolOf id = if id ∈ v.declared then some (v.idOf b id) else none := by
  have plain : node.kind.introducesScope = false := by
    simp [Node.kind, is, Production.kind, NodeKind.introducesScope]
  rw [trails.rep.symbolOf_eq prepared reached, symbolOf,
    prepared.registered.symbolOf_plain prepared.formed reached found plain]

include found

theorem declareVariableAt {name : String} (is : node.production = .variableDeclaratorId name) :
    ∃ after, r.declareVariableAt mode id name node.location = .ok after ∧
      (v.declareVariableAt tree b mode id name node.location).Trails tree b after := by
  have symbol := trails.declarator_symbol prepared reached found is
  unfold Resolution.declareVariableAt View.declareVariableAt
  by_cases member : id ∈ v.declared
  · exact ⟨r, by simp [symbol, member, pure, Except.pure], by simpa [member] using trails⟩
  simp only [symbol, member, if_false, Option.isSome_none, Bool.false_eq_true,
    trails.rep.scopeOf_eq_ok prepared reached, Resolution.interrupting_ok, ok_bind,
    trails.rep.declaresIn_eq_ok prepared reached, lift_ok]
  cases declares : b.declaresAt mode (b.scopeAt id) with
  | false => exact ⟨r, rfl, by simpa using trails⟩
  | true =>
    obtain ⟨checked, check, first⟩ := trails.checkOnce prepared reached
    simp only [check, lift_ok, ok_bind, Bool.not_true, Bool.false_eq_true, if_false]
    cases before : v.checked id with
    | true => exact ⟨checked, rfl, by simpa [check_eq_self before] using first⟩
    | false =>
      obtain ⟨other, read, isSome⟩ :=
        first.rep.findVariable_eq_ok prepared first.grounded.nodup reached name
      have same : (v.check id).hasVariable tree b (b.scopeAt id) name =
          v.hasVariable tree b (b.scopeAt id) name := rfl
      simp only [Bool.not_false, Bool.not_true, Bool.false_eq_true, if_false, read, lift_ok, ok_bind,
        isSome, same]
      cases v.hasVariable tree b (b.scopeAt id) name with
      | true => exact ⟨_, rfl, first.log node.location _ _⟩
      | false =>
        obtain ⟨number, table, after, declared, noted, rep⟩ :=
          first.rep.declare prepared first.grounded reached found is member
        exact ⟨after, by simp [declared, noted], rep, first.grounded.declare member reached found is⟩

omit reached found in
/-- Typing one declarator gives the variable of its id a type, if there is one. -/
theorem typeDeclarator {type : Option Ty}
    (known : ∀ t, type = some t → t.Formed b.IsClassScope v.types.functions.size)
    {declarator inner : NodeId} {initializer : Option NodeId} {below : Node}
    (reachedInner : tree.Reachable inner)
    (foundBelow : tree.node? declarator = some below)
    (is : below.production = .variableDeclarator inner initializer) :
    ∃ after, Resolution.typeDeclarator tree type r declarator = .ok after ∧
      (v.typeVariables [inner] type).Trails tree b after := by
  obtain ⟨idNode, name, foundId, isId⟩ := prepared.formed.declarator_id foundBelow is
  have symbol := trails.declarator_symbol prepared reachedInner foundId isId
  simp only [Resolution.typeDeclarator, SyntaxTree.node, foundBelow, orDangling_some, lift_ok, ok_bind,
    is, symbol]
  by_cases member : inner ∈ v.declared
  · obtain ⟨after, written, rep⟩ :=
      trails.rep.setVariableType member trails.grounded.nodup type
    exact ⟨after, by simp [member, written], rep, trails.grounded.typeVariables _ known⟩
  · refine ⟨r, by simp [member, pure, Except.pure], ?_⟩
    have same : v.typeVariables [inner] type = v := by
      unfold typeVariables
      congr 1
      funext other
      apply if_neg
      rintro ⟨isInner, isDeclared⟩
      exact member (List.mem_singleton.mp isInner ▸ isDeclared)
    rwa [same]

theorem typeDeclarators {type : NodeId} {declarators : List NodeId}
    (is : node.production = .variableDeclarators type declarators) :
    ∃ after, r.typeDeclarators mode tree id type declarators = .ok after ∧
      (v.typeDeclarators tree b mode id type declarators).Trails tree b after := by
  have child {other : NodeId} (member : other = type ∨ other ∈ declarators) : tree.HasChild id other :=
    ⟨node, found, by simpa [Node.children, is, Production.children] using member⟩
  unfold Resolution.typeDeclarators View.typeDeclarators
  simp only [trails.rep.scopeOf_eq_ok prepared reached, Resolution.interrupting_ok, ok_bind,
    trails.rep.typesIn_eq_ok prepared reached, lift_ok]
  cases b.typesAt mode (b.scopeAt id) with
  | false => exact ⟨r, rfl, by simpa using trails⟩
  | true =>
    simp only [Bool.not_true, Bool.false_eq_true, if_false,
      trails.rep.typeOf_eq prepared (reached.child (child (.inl rfl)))]
    have known := trails.grounded.typed type
    generalize v.typeOf type = shared at known
    have inside : ∀ declarator ∈ declarators, ∃ below inner initializer,
        tree.node? declarator = some below ∧
          below.production = .variableDeclarator inner initializer ∧ tree.Reachable inner := by
      intro declarator member
      obtain ⟨below, inner, initializer, foundBelow, isBelow⟩ :=
        prepared.formed.statement_declarator found is member
      refine ⟨below, inner, initializer, foundBelow, isBelow,
        (reached.child (child (.inr member))).child ⟨below, foundBelow, ?_⟩⟩
      simp [Node.children, isBelow, Production.children]
    clear is child
    induction declarators generalizing r v with
    | nil => exact ⟨r, rfl, by simpa [View.typeVariables] using trails⟩
    | cons declarator declarators ih =>
      obtain ⟨below, inner, initializer, foundBelow, isBelow, reachedInner⟩ :=
        inside declarator (by simp)
      obtain ⟨middle, typed, first⟩ :=
        trails.typeDeclarator prepared known reachedInner foundBelow isBelow
      obtain ⟨after, rest, last⟩ := ih first known
        fun other member => inside other (by simp [member])
      have declared : tree.declaredBy declarator = some inner := by
        obtain ⟨production, location⟩ := below
        cases isBelow
        simp [SyntaxTree.declaredBy, foundBelow]
      refine ⟨after, by simp only [List.foldlM_cons, typed, ok_bind, rest], ?_⟩
      rwa [List.filterMap_cons_some declared, ← typeVariables_cons]

theorem completeParameter {type declarator : NodeId}
    (is : node.production = .formalParameter type declarator)
    (owned : id = tree.root → v.NoOrphan tree) :
    ∃ after, r.completeParameter id type declarator = .ok after ∧
      (v.completeParameter b id type declarator).Trails tree b after := by
  have child {other : NodeId} (member : other = type ∨ other = declarator) : tree.HasChild id other :=
    ⟨node, found, by simpa [Node.children, is, Production.children] using member⟩
  obtain ⟨below, name, foundBelow, isBelow⟩ := prepared.formed.parameter_declarator found is
  have symbol := trails.declarator_symbol prepared (reached.child (child (.inr rfl))) foundBelow isBelow
  unfold Resolution.completeParameter View.completeParameter
  by_cases member : declarator ∈ v.declared
  · have inner : id ≠ tree.root := by
      intro isRoot
      exact owned isRoot node type declarator (isRoot ▸ found) is member
    obtain ⟨parent, above, _, _, _, _, reachedParent, foundParent, isParent, -, -, kind⟩ :=
      prepared.registered.parameter prepared.formed reached found
        (by simp [Node.kind, is, Production.kind]) inner
    have owner : b.ownerAt id = b.ownerAt parent := by
      simp [Resolution.ownerAt, kind, ScopeKind.owner?]
    obtain ⟨-, -, foundOwner, -⟩ :=
      prepared.registered.function_found prepared.formed reachedParent foundParent isParent
    obtain ⟨scope, read, isKind, -⟩ :=
      trails.rep.scope_eq_ok (prepared.registered.scope_known prepared.formed reached)
    have isFunction : scope.kind = .functionScope (b.ownerAt id) := by
      rw [owner]
      exact Option.some.inj (isKind.symm.trans kind)
    have known := trails.grounded.typed type
    rw [← trails.rep.typeOf_eq prepared (reached.child (child (.inl rfl)))] at known
    obtain ⟨middle, typed, rep⟩ :=
      trails.rep.setVariableType member trails.grounded.nodup (r.typeOf type)
    have ownerKnown : (b.ownerAt id).index < b.table.symbols.size := by
      rw [owner]
      exact (Array.getElem?_eq_some_iff.mp foundOwner).1
    have same : (v.typeVariables [declarator] (r.typeOf type)).idOf b declarator =
        v.idOf b declarator := rfl
    obtain ⟨after, pushed, last⟩ := rep.pushParameter prepared.registered ownerKnown member
    rw [same] at pushed
    rw [trails.rep.typeOf_eq prepared (reached.child (child (.inl rfl)))] at known typed last
    refine ⟨after, ?_, ?_⟩
    · simp only [symbol, member, if_true, Resolution.functionSymbol,
        trails.rep.scopeOf_eq_ok prepared reached, ok_bind, read, lift_ok, isFunction,
        trails.rep.typeOf_eq prepared (reached.child (child (.inl rfl))), typed]
      simp [pushed, pure, Except.pure]
    · rw [if_pos member]
      exact ⟨last, (trails.grounded.typeVariables [declarator] known).pushParameter _ member⟩
  · exact ⟨r, by simp [symbol, member, pure, Except.pure], by simpa [member] using trails⟩

/-- The check of a signature logs the function exactly when the view says that it repeats one. -/
theorem checkSignature {name : String} {returnType : Option NodeId} {parameters : List NodeId}
    {body : NodeId} (is : node.production = .functionDeclaration name returnType parameters body) :
    ∃ after, r.checkSignature id name node.location (b.ownerAt id) (b.enclosingAt id) = .ok after ∧
      (v.checkSignature b id name node.location).Trails tree b after := by
  obtain ⟨-, -, foundOwner, known⟩ :=
    prepared.registered.function_found prepared.formed reached found is
  unfold Resolution.checkSignature View.checkSignature
  simp only [trails.rep.parameterTypes_eq_ok trails.grounded foundOwner rfl rfl, lift_ok, ok_bind]
  cases signature : v.signature (b.ownerAt id) with
  | none => exact ⟨r, rfl, trails⟩
  | some types =>
    have formed := trails.grounded.signature_formed signature
    have repeated : ((b.functionsAt (b.enclosingAt id) name).find? (v.accepts types)).any
        (· != b.ownerAt id) = v.repeats b id name types := rfl
    simp only [trails.rep.findFunction_eq_ok prepared trails.grounded known name formed, lift_ok,
      ok_bind, repeated]
    cases v.repeats b id name types with
    | true =>
      refine ⟨_, ?_, trails.log node.location .duplicateDeclaration _⟩
      simp only [if_true,
        trails.rep.signatureText_eq_ok prepared trails.grounded foundOwner rfl rfl, lift_ok, ok_bind]
      rfl
    | false => exact ⟨r, rfl, trails⟩

/-- A function that has not been checked yet is checked against the scope around it. -/
theorem checkFunction {name : String} {returnType : Option NodeId} {parameters : List NodeId}
    {body : NodeId} (is : node.production = .functionDeclaration name returnType parameters body) :
    ∃ after, (do
        let (first, r) ← r.checkOnce id
        if !first then pure r
        else
          let enclosing ← r.interrupting (r.enclosingScopeOf id)
          r.checkSignature id name node.location (b.ownerAt id) enclosing : Step) = .ok after ∧
      (if v.checked id then v
        else (v.check id).checkSignature b id name node.location).Trails tree b after := by
  obtain ⟨checked, check, first⟩ := trails.checkOnce prepared reached
  simp only [check, lift_ok, ok_bind]
  cases before : v.checked id with
  | true => exact ⟨checked, rfl, by simpa [check_eq_self before] using first⟩
  | false =>
    have enclosing := first.rep.enclosingScopeOf_eq_ok prepared reached found
      (by simp [Node.kind, is, Production.kind, NodeKind.introducesScope])
    simp only [Bool.not_false, Bool.not_true, Bool.false_eq_true, if_false, enclosing,
      Resolution.interrupting_ok, ok_bind]
    exact first.checkSignature prepared reached found is

theorem completeFunction {name : String} {returnType : Option NodeId} {parameters : List NodeId}
    {body : NodeId} (is : node.production = .functionDeclaration name returnType parameters body) :
    ∃ after, r.completeFunction id name node.location returnType = .ok after ∧
      (v.completeFunction b id name node.location returnType).Trails tree b after := by
  obtain ⟨-, kind, foundOwner, -⟩ := prepared.registered.function_found prepared.formed reached found is
  obtain ⟨scope, read, isKind, -⟩ :=
    trails.rep.scope_eq_ok (prepared.registered.scope_known prepared.formed reached)
  have isFunction : scope.kind = .functionScope (b.ownerAt id) :=
    Option.some.inj (isKind.symm.trans kind)
  have ownerKnown : (b.ownerAt id).index < b.table.symbols.size :=
    (Array.getElem?_eq_some_iff.mp foundOwner).1
  simp only [Resolution.completeFunction, Resolution.functionSymbol,
    trails.rep.scopeOf_eq_ok prepared reached, ok_bind, read, lift_ok, isFunction, pure, Except.pure,
    Resolution.interrupting_ok]
  cases returnType with
  | none => exact trails.checkFunction prepared reached found is
  | some result =>
    have child : tree.Reachable result := reached.child
      ⟨node, found, by simp [Node.children, is, Production.children]⟩
    obtain ⟨returned, written, rep⟩ :=
      trails.rep.setReturnType prepared.registered ownerKnown (v.typeOf result)
    have first : (v.setReturnType (b.ownerAt id) (v.typeOf result)).Trails tree b returned :=
      ⟨rep, trails.grounded.setReturnType _ (trails.grounded.typed result)⟩
    simp only [trails.rep.typeOf_eq prepared child, written, lift_ok, ok_bind]
    exact first.checkFunction prepared reached found is

theorem completeClass {name : String} {superclass : Option NodeId} {body : List NodeId}
    (is : node.production = .classDeclaration name superclass body) :
    ∃ after, r.completeClass id name node.location superclass = .ok after ∧
      (v.completeClass b id name node.location superclass).Trails tree b after := by
  have typed : superclass.bind r.typeOf = superclass.bind v.typeOf := by
    cases superclass with
    | none => rfl
    | some child =>
      exact trails.rep.typeOf_eq prepared (reached.child
        ⟨node, found, by simp [Node.children, is, Production.children]⟩)
  have isClass : ∀ target, superclass.bind v.typeOf = some (.classType target) →
      b.IsClassScope target := by
    intro target isType
    obtain ⟨child, -, isType⟩ := Option.bind_eq_some_iff.mp isType
    exact trails.grounded.typed child _ isType
  unfold Resolution.completeClass View.completeClass
  rw [typed]
  cases isType : superclass.bind v.typeOf with
  | none => exact ⟨r, rfl, trails⟩
  | some type =>
    cases type with
    | classType target =>
      obtain ⟨checked, check, first⟩ := trails.checkOnce prepared reached
      simp only [check, lift_ok, ok_bind]
      cases before : v.checked id with
      | true => exact ⟨checked, rfl, by simpa [check_eq_self before] using first⟩
      | false =>
        obtain ⟨-, kind, foundOwner, -⟩ :=
          prepared.registered.class_found prepared.formed reached found is
        obtain ⟨scope, read, isKind, -⟩ :=
          first.rep.scope_eq_ok (prepared.registered.scope_known prepared.formed reached)
        have isOwn : scope.kind = .classScope (b.ownerAt id) :=
          Option.some.inj (isKind.symm.trans kind)
        simp only [Bool.not_false, Bool.not_true, Bool.false_eq_true, if_false,
          Resolution.classSymbol, first.rep.scopeOf_eq_ok prepared reached, ok_bind, read, lift_ok,
          isOwn, pure, Except.pure, Resolution.interrupting_ok]
        by_cases itself : target = b.scopeAt id
        · simp only [itself, if_true]
          exact ⟨_, rfl, first.log node.location _ _⟩
        · obtain ⟨after, written, rep⟩ := first.rep.setSuperclass prepared.registered
            (Array.getElem?_eq_some_iff.mp foundOwner).1 target
          simp only [itself, if_false, written, lift_ok]
          exact ⟨after, rfl, rep, first.grounded.setSuperclass _ (isClass target isType)⟩
    | _ => exact ⟨r, rfl, trails⟩

omit found in
theorem inheritType {child : NodeId} (reachedChild : tree.Reachable child) :
    ∃ after, r.inheritType id child = .ok after ∧ (v.inheritType id child).Trails tree b after := by
  unfold Resolution.inheritType View.inheritType
  rw [trails.rep.typeOf_eq prepared reachedChild]
  cases typed : v.typeOf child with
  | none => exact ⟨r, rfl, trails⟩
  | some type =>
    obtain ⟨after, written, last⟩ :=
      trails.setType prepared reached type (trails.grounded.typed child type typed)
    exact ⟨after, by simp only [written, lift_ok], last⟩

theorem resolveFunctionType {parameters : List NodeId} {returnType : NodeId}
    (is : node.production = .functionType parameters returnType) :
    ∃ after, r.resolveFunctionType id parameters returnType = .ok after ∧
      (v.resolveFunctionType id parameters returnType).Trails tree b after := by
  have child {other : NodeId} (member : other ∈ parameters ∨ other = returnType) :
      tree.Reachable other := reached.child
    ⟨node, found, by simpa [Node.children, is, Production.children] using member⟩
  have typedParameters : parameters.mapM r.typeOf = parameters.mapM v.typeOf := by
    have same : ∀ p ∈ parameters, r.typeOf p = v.typeOf p := fun p member =>
      trails.rep.typeOf_eq prepared (child (.inl member))
    clear is child
    induction parameters with
    | nil => rfl
    | cons p parameters ih =>
      simp only [List.mapM_cons, same p (by simp), ih fun q member => same q (by simp [member])]
  unfold Resolution.resolveFunctionType View.resolveFunctionType
  rw [trails.rep.typeOf_eq prepared reached, typedParameters,
    trails.rep.typeOf_eq prepared (child (.inr rfl))]
  cases v.typeOf id with
  | some type => exact ⟨r, rfl, trails⟩
  | none =>
    cases isResult : v.typeOf returnType with
    | none => exact ⟨r, rfl, trails⟩
    | some result =>
      cases areTypes : parameters.mapM v.typeOf with
      | none => exact ⟨r, rfl, trails⟩
      | some types =>
        have known := trails.grounded.typed returnType result isResult
        have parts := mapM_formed trails.grounded.typed areTypes
        have allocated : (v.allocate ⟨result, types⟩).Trails tree b
            { r with types := (r.types.allocate ⟨result, types⟩).2 } :=
          ⟨trails.rep.allocate _, trails.grounded.allocate known parts⟩
        rw [trails.rep.types] at allocated
        obtain ⟨after, written, last⟩ := allocated.setType prepared reached
          (v.types.allocate ⟨result, types⟩).1
          (by simp [TypeTable.allocate, View.allocate, Ty.Formed])
        exact ⟨after, by simp [trails.rep.types, written], last⟩

omit found in
theorem resolveClassReference {name : String} :
    ∃ after, r.resolveClassReference id name node.location = .ok after ∧
      (v.resolveClassReference b id name node.location).Trails tree b after := by
  unfold Resolution.resolveClassReference View.resolveClassReference
  rw [trails.rep.typeOf_eq prepared reached]
  cases v.typeOf id with
  | some type => exact ⟨r, rfl, trails⟩
  | none =>
    obtain ⟨checked, check, first⟩ := trails.checkOnce prepared reached
    simp only [Option.isSome_none, Bool.false_eq_true, if_false, check, lift_ok, ok_bind]
    cases before : v.checked id with
    | true => exact ⟨checked, rfl, by simpa [check_eq_self before] using first⟩
    | false =>
      simp only [Bool.not_false, Bool.not_true, Bool.false_eq_true, if_false,
        first.rep.scopeOf_eq_ok prepared reached, Resolution.interrupting_ok, ok_bind]
      rcases first.rep.lookupClass_eq_ok prepared reached name with
        ⟨read, missing⟩ | ⟨symbol, x, read, readSymbol, own⟩
      · rw [missing]
        simp only [read, lift_ok, ok_bind]
        exact ⟨_, rfl, first.log node.location _ _⟩
      · rw [← own]
        simp only [read, lift_ok, ok_bind, readSymbol, map_ok]
        cases isClass : x.kind.ownScope with
        | none => exact ⟨_, rfl, first.log node.location _ _⟩
        | some scope =>
          obtain ⟨after, written, last⟩ := first.setType prepared reached (.classType scope)
            (classAt_isClassScope prepared reached (own.symm.trans isClass))
          exact ⟨after, by simp [written], last⟩

end Trails

/-- The passes of an analysis come to views that represent resolutions and leave no parameter without
a function. -/
structure Follows (v : View) (tree : SyntaxTree) (b r : Resolution) : Prop
    extends Trails v tree b r where
  noOrphan : v.NoOrphan tree

section Pass

variable (prepared : Prepared tree b)
include prepared

theorem Trails.start : (View.start b).Trails tree b b := ⟨.start prepared, .start prepared⟩

omit prepared in
theorem NoOrphan.start (_ : Prepared tree b) : (View.start b).NoOrphan tree :=
  fun _ _ _ _ _ member => by cases member

/-- One event of the pass gives a result, and the view of the result is the view's next, unless a
parameter without a function is completed. -/
theorem Trails.advance (trails : v.Trails tree b r) {event : Event}
    (reached : tree.Reachable event.node) (owned : event = ⟨.exit, tree.root⟩ → v.NoOrphan tree) :
    ∃ after, tree.heed (Resolution.typing mode tree) r event = .ok after ∧
      (v.advance tree b mode event).Trails tree b after := by
  obtain ⟨node, found⟩ := prepared.formed.reachable_node reached
  obtain ⟨phase, id⟩ := event
  have child {other : NodeId} (member : other ∈ node.production.children) : tree.Reachable other :=
    SyntaxTree.Reachable.child reached ⟨node, found, member⟩
  simp only [SyntaxTree.heed, SyntaxTree.node, found, orDangling_some, lift_ok, ok_bind, View.advance]
  cases phase with
  | enter =>
    simp only [Resolution.typing, Resolution.enterNode, View.enter]
    cases is : node.production with
    | variableDeclaratorId name => exact trails.declareVariableAt prepared reached found is
    | _ => exact ⟨r, rfl, trails⟩
  | exit =>
    simp only [Resolution.typing, Resolution.exitNode, View.exit]
    cases is : node.production with
    | primitiveType keyword =>
      obtain ⟨after, written, last⟩ :=
        trails.setType prepared reached (.primitive (.forKeyword keyword)) trivial
      exact ⟨after, by simp only [written, lift_ok], last⟩
    | typeOrVoid type =>
      cases type with
      | none =>
        obtain ⟨after, written, last⟩ := trails.setType prepared reached .void trivial
        exact ⟨after, by simp only [written, lift_ok], last⟩
      | some type =>
        exact trails.inheritType prepared reached (child (by simp [is, Production.children]))
    | typeNode alternative =>
      exact trails.inheritType prepared reached (child (by simp [is, Production.children]))
    | functionType parameters returnType =>
      exact trails.resolveFunctionType prepared reached found is
    | classReference name => exact trails.resolveClassReference prepared reached
    | variableDeclarators type declarators => exact trails.typeDeclarators prepared reached found is
    | formalParameter type declarator =>
      exact trails.completeParameter prepared reached found is fun isRoot => owned (isRoot ▸ rfl)
    | functionDeclaration name returnType parameters body =>
      exact trails.completeFunction prepared reached found is
    | classDeclaration name superclass body =>
      exact trails.completeClass prepared reached found is
    | _ => exact ⟨r, rfl, trails⟩

/-- A pass that suits the tree declares no parameter that has no function: a root stands in the
namespace, where only the other mode declares. -/
theorem NoOrphan.advance (noOrphan : v.NoOrphan tree) (suits : tree.Suits mode) (event : Event) :
    (v.advance tree b mode event).NoOrphan tree := by
  intro root type declarator foundRoot isRoot member
  obtain ⟨added, declared, nodes⟩ := (@advance_writes tree b mode event v).declared_append
  have new := member
  rw [declared, List.mem_append] at new
  refine new.elim (noOrphan root type declarator foundRoot isRoot) fun isNew => ?_
  obtain ⟨isNode, isDeclarator⟩ := nodes declarator isNew
  rcases suits with rfl | noParameter
  · have link : tree.HasChild tree.root declarator :=
      ⟨root, foundRoot, by simp [Node.children, isRoot, Production.children]⟩
    have plainRoot : root.kind.introducesScope = false := by
      simp [Node.kind, isRoot, Production.kind, NodeKind.introducesScope]
    obtain ⟨⟨production, location⟩, found, kind⟩ := SyntaxTree.isDeclaratorId_iff.mp isDeclarator
    cases production <;> cases kind
    obtain ⟨space, spaceKind⟩ := prepared.registered.scopeKind_root
    have away : b.declaresAt .membersOnly (b.scopeAt declarator) = false := by
      rw [prepared.registered.scopeAt_child .root link found rfl,
        prepared.registered.scopeAt_root foundRoot plainRoot]
      simp [Resolution.declaresAt, Resolution.isMemberScope, spaceKind, ScopeKind.owner?]
    have still : v.advance tree b .membersOnly event = v := by
      simp only [View.advance, ← isNode, found]
      cases event.phase <;> simp [View.enter, View.exit, View.declareVariableAt, away]
    rw [still] at member
    exact noOrphan root type declarator foundRoot isRoot member
  · exact (noParameter root foundRoot (by simp [Node.kind, isRoot, Production.kind])).elim

section Following

variable (follows : v.Follows tree b r)
include follows

/-- One event of a pass that suits the tree gives a result, and the view of the result is the view's
next. -/
theorem Follows.advance (suits : tree.Suits mode) {event : Event}
    (reached : tree.Reachable event.node) :
    ∃ after, tree.heed (Resolution.typing mode tree) r event = .ok after ∧
      (v.advance tree b mode event).Follows tree b after := by
  obtain ⟨after, stepped, trails⟩ :=
    follows.toTrails.advance prepared reached fun _ => follows.noOrphan
  exact ⟨after, stepped, trails, follows.noOrphan.advance prepared suits event⟩

theorem Follows.run (suits : tree.Suits mode) (events : List Event)
    (reached : ∀ event ∈ events, tree.Reachable event.node) :
    ∃ after, events.foldlM (tree.heed (Resolution.typing mode tree)) r = .ok after ∧
      (events.foldl (View.advance tree b mode) v).Follows tree b after := by
  induction events generalizing r v with
  | nil => exact ⟨r, rfl, follows⟩
  | cons event events ih =>
    obtain ⟨middle, stepped, first⟩ :=
      follows.advance prepared suits (reached event (by simp))
    obtain ⟨after, rest, last⟩ := ih first fun other member => reached other (by simp [member])
    exact ⟨after, by simp only [List.foldlM_cons, stepped, ok_bind, rest], last⟩

/-- A walk from a reachable node gives a result. -/
theorem Follows.resolveFrom (suits : tree.Suits mode) {id : NodeId} (reached : tree.Reachable id) :
    ∃ after, r.resolveFrom tree mode id = .ok after ∧
      ((tree.events id).foldl (View.advance tree b mode) v).Follows tree b after := by
  unfold Resolution.resolveFrom
  rw [prepared.formed.walkFrom_eq_foldlM _ reached]
  exact follows.run prepared suits _ fun event member =>
    reached.within ((prepared.formed.mem_events reached).mp member)

/-- Walks from reachable nodes, one after another, give a result. -/
theorem Follows.resolveEach (suits : tree.Suits mode) (ids : List NodeId)
    (reached : ∀ id ∈ ids, tree.Reachable id) :
    ∃ after, ids.foldlM (fun r id => r.resolveFrom tree mode id) r = .ok after ∧
      ((ids.flatMap tree.events).foldl (View.advance tree b mode) v).Follows tree b after := by
  induction ids generalizing r v with
  | nil => exact ⟨r, rfl, follows⟩
  | cons id ids ih =>
    obtain ⟨middle, walked, first⟩ := follows.resolveFrom prepared suits (reached id (by simp))
    obtain ⟨after, rest, last⟩ := ih first fun other member => reached other (by simp [member])
    refine ⟨after, by simp only [List.foldlM_cons, walked, ok_bind, rest], ?_⟩
    rwa [List.flatMap_cons, List.foldl_append]

end Following

end Pass

end View

end ScriptSemantics
