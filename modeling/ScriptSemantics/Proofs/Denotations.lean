import ScriptSemantics.Proofs.Signatures

/-!
# Types are what their syntax denotes

A type is built from the types of the children of its node, and a name in it refers to the innermost
class of that name, wherever the class is declared. The pass types a node once, when it leaves the
node: the children have got their types by then, and nothing that comes later touches a node that was
left. So the equations between a node and its children hold in the end.
-/
namespace ScriptSemantics

/-- The type that a production denotes, by the types of its children, the signatures of function
types, and the own scopes of the classes that names refer to. -/
def Production.Denotes (production : Production) (typeOf : NodeId → Option Ty) (types : TypeTable)
    (refers : String → Option ScopeId → Prop) (type : Option Ty) : Prop :=
  match production with
  | .primitiveType keyword =>
    ∃ named : PrimitiveType, named.keyword = keyword.text ∧ type = some (.primitive named)
  | .classReference name => ∃ own, refers name own ∧ type = own.map .classType
  | .typeNode child | .typeOrVoid (some child) => type = typeOf child
  | .typeOrVoid none => type = some .void
  | .functionType parameters returnType =>
    match typeOf returnType, parameters.mapM typeOf with
    | some result, some parameters => ∃ handle, type = some (.functionType handle) ∧
        types.signature handle = .ok ⟨result, parameters⟩
    | _, _ => type = none
  | .compilationUnit _ | .classDeclaration .. | .functionDeclaration .. | .formalParameter ..
  | .variableDeclarators .. | .variableDeclarator .. | .variableDeclaratorId _ | .block _
  | .expressionStatement _ | .literal _ | .identifier _ => type = none

/-- What a name at a node refers to: the own scope of the class that a lookup from the scope of the
node finds, or nothing if it finds none. -/
def Resolution.Refers (r : Resolution) (id : NodeId) (name : String) (own : Option ScopeId) : Prop :=
  ∃ scope found, r.scopeOf id = .ok scope ∧ r.table.lookupClass scope name = .ok found ∧
    match found with
    | none => own = none
    | some symbol => ∃ x, r.table.symbol symbol = .ok x ∧ x.kind.isClass = true ∧
        x.kind.ownScope = own

namespace Production.Denotes

variable {production : Production} {typeOf other : NodeId → Option Ty} {types later : TypeTable}
  {refers : String → Option ScopeId → Prop} {type : Option Ty}

/-- A production denotes what it does as long as its children keep their types. -/
theorem keeps (denotes : production.Denotes typeOf types refers type)
    (children : ∀ child ∈ production.children, other child = typeOf child)
    (extension : later.Extends types) : production.Denotes other later refers type := by
  cases production with
  | typeNode child => exact denotes.trans (children child (by simp [Production.children])).symm
  | typeOrVoid child =>
    cases child with
    | none => exact denotes
    | some child => exact denotes.trans (children child (by simp [Production.children])).symm
  | functionType parameters returnType =>
    have result : other returnType = typeOf returnType :=
      children returnType (by simp [Production.children])
    have listed : parameters.mapM other = parameters.mapM typeOf :=
      mapM_congr fun child member => children child (by simp [Production.children, member])
    simp only [Denotes, result, listed] at denotes ⊢
    split at denotes
    next result parameters isResult areParameters =>
      obtain ⟨handle, isType, signature⟩ := denotes
      refine ⟨handle, isType, ?_⟩
      exact orDangling_eq_ok_iff.mpr (extension _ _ (orDangling_eq_ok_iff.mp signature))
    next => exact denotes
  | _ => exact denotes

/-- A production denotes the same under any other account of what names refer to. -/
theorem refers_mono {refers' : String → Option ScopeId → Prop}
    (denotes : production.Denotes typeOf types refers type)
    (mono : ∀ name own, refers name own → refers' name own) :
    production.Denotes typeOf types refers' type := by
  cases production with
  | classReference name =>
    obtain ⟨own, here, isType⟩ := denotes
    exact ⟨own, mono name own here, isType⟩
  | typeOrVoid child => cases child <;> exact denotes
  | _ => exact denotes

end Production.Denotes

namespace View

variable {tree : SyntaxTree} {b : Resolution} {mode : Mode} {v : View} {id : NodeId} {node : Node}

/-- A function type gets a handle of its own once all its parts are typed, and none before. -/
theorem resolveFunctionType_denotes (untyped : v.typeOf id = none) (parameters : List NodeId)
    (returnType : NodeId) (refers : String → Option ScopeId → Prop) :
    (Production.functionType parameters returnType).Denotes v.typeOf
      (v.resolveFunctionType id parameters returnType).types refers
      ((v.resolveFunctionType id parameters returnType).typeOf id) := by
  simp only [Production.Denotes, resolveFunctionType, untyped, Option.isSome_none,
    Bool.false_eq_true, if_false]
  cases result : v.typeOf returnType with
  | none => exact untyped
  | some resultType =>
    cases listed : parameters.mapM v.typeOf with
    | none => exact untyped
    | some types =>
      refine ⟨⟨v.types.functions.size⟩, by simp [View.setType, TypeTable.allocate], ?_⟩
      simp [View.setType, View.allocate, TypeTable.allocate, TypeTable.signature]

/-- A class reference gets the type of the class that registration has for its name. -/
theorem resolveClassReference_denotes (untyped : v.typeOf id = none)
    (unchecked : v.checked id = false) (name : String) (location : Location) :
    (v.resolveClassReference b id name location).typeOf id =
      (b.classAt (b.scopeAt id) name).map .classType := by
  simp only [resolveClassReference, untyped, unchecked, Option.isSome_none, Bool.false_eq_true,
    if_false]
  cases b.classAt (b.scopeAt id) name with
  | none => exact untyped
  | some own => simp [View.setType]

/-- What the pass does when it leaves a node that has no type yet gives it the type that the node
denotes. -/
theorem exit_denotes (untyped : v.typeOf id = none)
    (unchecked : node.kind = .classReference → v.checked id = false) :
    node.production.Denotes v.typeOf (v.exit tree b mode id node).types
      (fun name own => own = b.classAt (b.scopeAt id) name)
      ((v.exit tree b mode id node).typeOf id) := by
  have inherits (child : NodeId) : (v.inheritType id child).typeOf id = v.typeOf child := by
    unfold inheritType
    cases typed : v.typeOf child with
    | none => exact untyped
    | some type => simp [View.setType]
  obtain ⟨production, location⟩ := node
  unfold View.exit
  cases production with
  | primitiveType keyword => simp [Production.Denotes, View.setType]
  | typeOrVoid child =>
    cases child with
    | none => simp [Production.Denotes, View.setType]
    | some child => exact inherits child
  | typeNode child => exact inherits child
  | functionType parameters returnType => exact resolveFunctionType_denotes untyped _ _ _
  | classReference name =>
    exact ⟨_, rfl, resolveClassReference_denotes untyped (unchecked rfl) name location⟩
  | functionDeclaration name returnType parameters body =>
    exact (congrFun (completeFunction_facts id name location returnType).2.1 id).trans untyped
  | variableDeclarators type declarators =>
    simp only [Production.Denotes, typeDeclarators]
    split <;> exact untyped
  | formalParameter type declarator =>
    simp only [Production.Denotes, completeParameter]
    split <;> exact untyped
  | classDeclaration name superclass body =>
    simp only [Production.Denotes, completeClass]
    split
    · split
      · exact untyped
      · split <;> exact untyped
    · exact untyped
  | _ => exact untyped

/-- The pass over the members gives every node the type that it denotes. -/
theorem members_denotes (prepared : Prepared tree b) (reached : tree.Reachable id)
    (found : tree.node? id = some node) :
    node.production.Denotes (members tree b).typeOf (members tree b).types
      (fun name own => own = b.classAt (b.scopeAt id) name) ((members tree b).typeOf id) := by
  have leaves : ⟨.exit, id⟩ ∈ tree.events tree.root := (prepared.formed.mem_events .root).mpr reached
  obtain ⟨before, after, split⟩ := List.append_of_mem leaves
  have nodup := prepared.formed.events_nodup .root
  rw [split] at nodup
  have first : ⟨.exit, id⟩ ∉ before := fun member =>
    List.disjoint_of_nodup_append nodup member (by simp)
  have gone {other : NodeId} (inside : tree.Within id other) : ⟨.exit, other⟩ ∉ after :=
    fun member => prepared.formed.after_exit split _ member inside
  have untyped : (soFar tree b before).typeOf id = none := foldl_typeOf_eq first (start b)
  have unchecked : node.kind = .classReference → (soFar tree b before).checked id = false := by
    intro kind
    obtain ⟨production, location⟩ := node
    cases production <;> cases kind
    refine (foldl_idle ?_ (start b)).1
    rintro ⟨phase, _⟩ member rfl w
    cases phase with
    | enter => simp [View.advance, found, View.enter]
    | exit => exact (first member).elim
  have here := @exit_denotes tree b .membersOnly _ id node untyped unchecked
  have leave : (soFar tree b before).advance tree b .membersOnly ⟨.exit, id⟩ =
      (soFar tree b before).exit tree b .membersOnly id node := by
    simp only [View.advance, found]
  rw [members_of_split split, List.foldl_cons, leave, foldl_typeOf_eq (gone (.refl id))]
  refine here.keeps (fun child member => ?_) (foldl_types_extend _ _)
  have link : tree.HasChild id child := ⟨node, found, member⟩
  have different : (⟨.exit, id⟩ : Event) ≠ ⟨.exit, child⟩ := by
    intro same
    cases same
    exact prepared.formed.not_within_parent reached link (.refl _)
  rw [foldl_typeOf_eq (gone link.within), ← leave]
  exact advance_writes.typeOf_eq different

/-- The analysis gives every reachable node the type that it denotes. -/
theorem analysed_denotes (prepared : Prepared tree b) (reached : tree.Reachable id)
    (found : tree.node? id = some node) (locals : Bool) :
    node.production.Denotes (analysed tree b locals).typeOf (analysed tree b locals).types
      (fun name own => own = b.classAt (b.scopeAt id) name)
      ((analysed tree b locals).typeOf id) := by
  obtain ⟨types, typeOf⟩ := analysed_types prepared locals
  rw [types, typeOf]
  exact members_denotes prepared reached found

end View

variable {tree : SyntaxTree} {b r : Resolution} {v : View}

/-- A name refers in the end to what it referred to after registration. -/
theorem View.Represents.refers (rep : v.Represents tree b r) (prepared : Prepared tree b)
    {id : NodeId} (reached : tree.Reachable id) (name : String) :
    r.Refers id name (b.classAt (b.scopeAt id) name) := by
  have scope := rep.scopeOf_eq_ok prepared reached
  rcases rep.lookupClass_eq_ok prepared reached name with ⟨lookup, nothing⟩ |
    ⟨symbol, x, lookup, isSymbol, own⟩
  · exact ⟨_, _, scope, lookup, nothing⟩
  · refine ⟨_, _, scope, lookup, x, isSymbol, ?_, own⟩
    have nested := prepared.registered.nested.of_sameFrames rep.frames
    have known := rep.frames.size_eq ▸ prepared.registered.scope_known prepared.formed reached
    obtain ⟨y, foundY, isClass⟩ := rep.ordered.lookupClass_isClass nested known lookup
    rw [SymbolTable.symbol, foundY, orDangling_some, Except.ok.injEq] at isSymbol
    rwa [← isSymbol]

/-- The analysis of a valid tree gives every reachable node the type that its production denotes, and
the other nodes no type. -/
theorem analyze_denotes (valid : tree.validate = .ok ()) (settings : Settings) :
    ∃ r, analyze tree settings = .ok r ∧
      (∀ id node, tree.Reachable id → tree.node? id = some node →
        node.production.Denotes r.typeOf r.types (r.Refers id) (r.typeOf id)) ∧
      ∀ id, ¬ tree.Reachable id → r.typeOf id = none := by
  have formed := SyntaxTree.validate_eq_ok_iff.mp valid
  obtain ⟨b, r, -, prepared, analysed, follows⟩ := exists_analysed formed settings
  have typeOf {id : NodeId} (reached : tree.Reachable id) := follows.rep.typeOf_eq prepared reached
  refine ⟨r, analysed, fun id node reached found => ?_, fun id away => ?_⟩
  · have denotes := View.analysed_denotes prepared reached found settings.enterLocalVariables
    rw [typeOf reached, follows.rep.types]
    refine (denotes.keeps (fun child member => ?_) (.refl _)).refers_mono ?_
    · exact typeOf (reached.child ⟨node, found, member⟩)
    · rintro name _ rfl
      exact follows.rep.refers prepared reached name
  · by_cases here : id.index < tree.size
    · rw [Resolution.typeOf, follows.rep.facts id here]
      exact (View.analysed_untouched prepared away settings.enterLocalVariables).untyped
    · rw [Resolution.typeOf, follows.rep.factsOf_beyond here]
      rfl

/-- The unit `m((int, B) -> void f, C c) { } class B { }`. -/
def SyntaxTree.forward : SyntaxTree where
  nodes := #[
    ⟨.primitiveType .int, ⟨3, 6⟩⟩, ⟨.typeNode ⟨0⟩, ⟨3, 6⟩⟩,
    ⟨.classReference "B", ⟨8, 9⟩⟩, ⟨.typeNode ⟨2⟩, ⟨8, 9⟩⟩, ⟨.typeOrVoid none, ⟨14, 18⟩⟩,
    ⟨.functionType [⟨1⟩, ⟨3⟩] ⟨4⟩, ⟨2, 18⟩⟩, ⟨.typeNode ⟨5⟩, ⟨2, 18⟩⟩,
    ⟨.variableDeclaratorId "f", ⟨19, 20⟩⟩, ⟨.formalParameter ⟨6⟩ ⟨7⟩, ⟨2, 20⟩⟩,
    ⟨.classReference "C", ⟨22, 23⟩⟩, ⟨.typeNode ⟨9⟩, ⟨22, 23⟩⟩,
    ⟨.variableDeclaratorId "c", ⟨24, 25⟩⟩, ⟨.formalParameter ⟨10⟩ ⟨11⟩, ⟨22, 25⟩⟩,
    ⟨.block [], ⟨27, 30⟩⟩, ⟨.functionDeclaration "m" none [⟨8⟩, ⟨12⟩] ⟨13⟩, ⟨0, 30⟩⟩,
    ⟨.classDeclaration "B" none [], ⟨31, 42⟩⟩, ⟨.compilationUnit [⟨14⟩, ⟨15⟩], ⟨0, 42⟩⟩]
  root := ⟨16⟩

/-- The class that is declared after the function is known in it, one that is declared nowhere is not,
and the function type gets the types of its parts. -/
theorem analyze_denotes_forward :
    ∃ r, analyze SyntaxTree.forward Settings.standard = .ok r ∧
      r.typeOf ⟨2⟩ = some (.classType ⟨3⟩) ∧ r.typeOf ⟨9⟩ = none ∧
      ∃ handle, r.typeOf ⟨5⟩ = some (.functionType handle) ∧
        r.types.signature handle = .ok ⟨.void, [.primitive .integer, .classType ⟨3⟩]⟩ := by
  obtain ⟨r, analysed, denotes, -⟩ := @analyze_denotes SyntaxTree.forward rfl Settings.standard
  have facts : (analyze SyntaxTree.forward Settings.standard).map (fun r =>
      (r.typeOf ⟨2⟩, r.typeOf ⟨9⟩, r.typeOf ⟨4⟩, [⟨1⟩, ⟨3⟩].mapM r.typeOf)) =
      .ok (some (.classType ⟨3⟩), none, some .void,
        some [.primitive .integer, .classType ⟨3⟩]) := rfl
  rw [analysed] at facts
  simp only [Except.map, Except.ok.injEq, Prod.mk.injEq] at facts
  obtain ⟨named, unknown, result, parameters⟩ := facts
  have reached : SyntaxTree.forward.Reachable ⟨5⟩ :=
    ⟨4, .step (.step (.step (.step .refl ⟨_, rfl, .head _⟩) ⟨_, rfl, .head _⟩)
      ⟨_, rfl, .head _⟩) ⟨_, rfl, .head _⟩⟩
  have function : (Production.functionType [⟨1⟩, ⟨3⟩] ⟨4⟩).Denotes r.typeOf r.types (r.Refers ⟨5⟩)
      (r.typeOf ⟨5⟩) := denotes ⟨5⟩ _ reached rfl
  simp only [Production.Denotes, result, parameters] at function
  exact ⟨r, analysed, named, unknown, function⟩

end ScriptSemantics
