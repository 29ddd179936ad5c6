import ScriptSemantics.Proofs.Interruptions
import ScriptSemantics.Proofs.Nesting
import ScriptSemantics.Proofs.Outlines
import ScriptSemantics.Proofs.Totality

/-!
# Handles that are well formed

No handle dangles and no signature leads back to itself, and `void` stands only where a function says
what it returns. Nothing of this is checked while a tree is analysed. It follows from the kinds of
children that the grammar admits, from the order of the walk, which types the parts of a function type
before the function type, and from the classes that registration discovers.
-/
namespace ScriptSemantics

def SyntaxTree.IsTypeOrVoid (tree : SyntaxTree) (id : NodeId) : Prop :=
  ∃ node, tree.node? id = some node ∧ node.kind = .typeOrVoid

/-- Only a function type and a function have a type or `void` below them. -/
theorem SyntaxTree.WellFormed.typeOrVoid_parent {tree : SyntaxTree} (formed : tree.WellFormed)
    {parent child : NodeId} {above : Node} (foundParent : tree.node? parent = some above)
    (member : child ∈ above.children) (isVoid : tree.IsTypeOrVoid child) :
    (∃ parameters, above.production = .functionType parameters child) ∨
      above.kind = .functionDeclaration := by
  obtain ⟨below, found, kind⟩ := isVoid
  obtain ⟨slot, isSlot, admits⟩ := formed.child_slot foundParent member found
  obtain ⟨production, location⟩ := above
  rw [kind] at admits
  cases production with
  | functionDeclaration name returnType parameters body => exact .inr rfl
  | functionType parameters returnType =>
    simp only [Production.slotOf?] at isSlot
    split at isSlot
    next here => exact .inl ⟨parameters, by rw [← here]⟩
    next =>
      cases isSlot
      exact absurd admits (by decide)
  | _ =>
    exfalso
    simp only [Production.slotOf?] at isSlot
    (repeat' split at isSlot) <;> cases isSlot <;> exact absurd admits (by decide)

namespace Registration

variable {s after : Registration} {id : NodeId} {node : Node}

/-- What has been discovered are the classes of class scopes. -/
def ListsClasses (s : Registration) : Prop :=
  ∀ type ∈ s.resolution.types.discovered, ∃ scope symbol, type = .classType scope ∧
    s.resolution.table.kinds[scope.index]? = some (.classScope symbol)

theorem updateFacts_keeps {r noted : Resolution} {change : NodeFacts → NodeFacts}
    (updated : r.updateFacts id change = .ok noted) :
    noted.table = r.table ∧ noted.types = r.types := by
  obtain ⟨-, rfl⟩ := Resolution.updateFacts_eq_ok_iff.mp updated
  exact ⟨rfl, rfl⟩

theorem openScope_keeps {r : Resolution} {own : ScopeId} (opened : s.openScope r id own = .ok after) :
    after.resolution.table = r.table ∧ after.resolution.types = r.types := by
  obtain ⟨bound, updated, done⟩ := bind_eq_ok_iff.mp opened
  cases done
  exact updateFacts_keeps updated

/-- Scopes that are added leave those of discovered classes in place. -/
theorem ListsClasses.grow (lists : s.ListsClasses) {added : List ScopeKind}
    (kinds : after.resolution.table.kinds = s.resolution.table.kinds ++ added)
    (types : ∀ type ∈ after.resolution.types.discovered, type ∈ s.resolution.types.discovered ∨
      ∃ symbol, type = .classType s.resolution.table.nextScope ∧ added = [.classScope symbol]) :
    after.ListsClasses := by
  intro type discovered
  rw [kinds]
  rcases types type discovered with old | ⟨symbol, rfl, rfl⟩
  · obtain ⟨scope, symbol, isClass, kind⟩ := lists type old
    have known := (List.getElem?_eq_some_iff.mp kind).1
    exact ⟨scope, symbol, isClass, by rw [List.getElem?_append_left known, kind]⟩
  · exact ⟨_, symbol, rfl, by simp [SymbolTable.nextScope, ← SymbolTable.length_kinds]⟩

/-- Entering a node discovers nothing but the class of the node. -/
theorem ListsClasses.enter (lists : s.ListsClasses) (entered : s.enter id node = .ok after) :
    after.ListsClasses := by
  unfold Registration.enter at entered
  cases is : node.production with
  | classDeclaration name superclass body =>
    rw [is] at entered
    obtain ⟨⟨⟨symbol, own⟩, table⟩, declared, rest⟩ := bind_eq_ok_iff.mp entered
    obtain ⟨noted, updated, opened⟩ := bind_eq_ok_iff.mp rest
    obtain ⟨rfl, kinds⟩ := SymbolTable.declareClass_kinds declared
    obtain ⟨sameTable, sameTypes⟩ := openScope_keeps opened
    obtain ⟨notedTable, notedTypes⟩ := updateFacts_keeps updated
    refine lists.grow (by rw [sameTable, notedTable, kinds]) fun type discovered => ?_
    rw [sameTypes, notedTypes, TypeTable.register] at discovered
    split at discovered
    · exact .inl discovered
    · rcases Array.mem_push.mp discovered with old | rfl
      · exact .inl old
      · exact .inr ⟨_, rfl, rfl⟩
  | functionDeclaration name returnType parameters body =>
    rw [is] at entered
    obtain ⟨⟨⟨symbol, own⟩, table⟩, declared, rest⟩ := bind_eq_ok_iff.mp entered
    obtain ⟨noted, updated, opened⟩ := bind_eq_ok_iff.mp rest
    obtain ⟨-, kinds⟩ := SymbolTable.declareFunction_kinds declared
    obtain ⟨sameTable, sameTypes⟩ := openScope_keeps opened
    obtain ⟨notedTable, notedTypes⟩ := updateFacts_keeps updated
    exact lists.grow (by rw [sameTable, notedTable, kinds]) fun type discovered =>
      .inl (by rwa [sameTypes, notedTypes] at discovered)
  | block statements =>
    rw [is] at entered
    obtain ⟨⟨own, table⟩, pushed, opened⟩ := bind_eq_ok_iff.mp entered
    obtain ⟨-, kinds⟩ := SymbolTable.pushBlock_kinds pushed
    obtain ⟨sameTable, sameTypes⟩ := openScope_keeps opened
    exact lists.grow (by rw [sameTable, kinds]) fun type discovered =>
      .inl (by rwa [sameTypes] at discovered)
  | _ =>
    rw [is] at entered
    obtain ⟨bound, updated, done⟩ := bind_eq_ok_iff.mp entered
    cases done
    obtain ⟨sameTable, sameTypes⟩ := updateFacts_keeps updated
    refine lists.grow (show _ = _ ++ [] by rw [sameTable, List.append_nil]) fun type discovered => ?_
    exact .inl (by rwa [sameTypes] at discovered)

/-- Registration discovers nothing but the classes of class scopes, on any tree. -/
theorem build_lists {tree : SyntaxTree} {name : String} {b : Resolution}
    (built : Resolution.build tree name = .ok b) :
    ∀ type ∈ b.types.discovered, ∃ scope, type = .classType scope ∧ b.IsClassScope scope := by
  obtain ⟨last, walked, done⟩ := bind_eq_ok_iff.mp built
  cases done
  rw [Halt.onlyFault, mapError_eq_ok_iff] at walked
  have start : ListsClasses ⟨.new tree name, [SymbolTable.root]⟩ := by
    intro type discovered
    simp [Resolution.new, TypeTable.empty] at discovered
  have left : Leaves ListsClasses (fun _ : Empty => True)
      (tree.walk Registration.listener ⟨.new tree name, [SymbolTable.root]⟩) := by
    refine .walk start fun phase id node s _ lists => ?_
    cases phase with
    | enter => exact .lift fun after entered => lists.enter entered
    | exit =>
      simp only [Registration.listener, Registration.exit]
      split <;> exact lists
  rw [walked] at left
  intro type discovered
  obtain ⟨scope, symbol, isClass, kind⟩ := left type discovered
  refine ⟨scope, isClass, symbol, ?_⟩
  simpa [SymbolTable.kinds, Resolution.scopeKind] using kind

end Registration

namespace View

variable {tree : SyntaxTree} {b : Resolution} {mode : Mode} {v : View}

/-- `void` is the type of nothing but a type or `void` and the result of a function, and what counts
as discovered is known. -/
structure Proper (v : View) (tree : SyntaxTree) (b : Resolution) : Prop where
  nodes : ∀ id, v.typeOf id = some .void → tree.IsTypeOrVoid id
  declared : ∀ id, v.variableType id ≠ some .void
  parameters : ∀ (index : Nat) (signature : Signature),
    v.types.functions[index]? = some signature → Ty.void ∉ signature.parameterTypes
  discovered : ∀ type ∈ v.types.discovered,
    type ≠ .void ∧ type.Formed b.IsClassScope v.types.functions.size

namespace Proper

theorem start {name : String} (built : Resolution.build tree name = .ok b)
    (registered : Registered tree b) : (start b).Proper tree b where
  nodes _ isVoid := by cases isVoid
  declared _ isVoid := by cases isVoid
  parameters index signature found := by simp [View.start, registered.functions] at found
  discovered type member := by
    obtain ⟨scope, rfl, isClass⟩ := Registration.build_lists built type member
    exact ⟨by simp, isClass⟩

section Changes

variable (proper : v.Proper tree b)
include proper

theorem setType {id : NodeId} {type : Ty} (fits : type = .void → tree.IsTypeOrVoid id) :
    (v.setType id type).Proper tree b :=
  { proper with
    nodes := fun other isVoid => by
      simp only [View.setType] at isVoid
      split at isVoid
      next here =>
        rw [here]
        exact fits (Option.some.inj isVoid)
      next => exact proper.nodes other isVoid }

theorem typeVariables (ids : List NodeId) {type : Option Ty} (value : type ≠ some .void) :
    (v.typeVariables ids type).Proper tree b :=
  { proper with
    declared := fun id => by
      simp only [View.typeVariables]
      split
      · exact value
      · exact proper.declared id }

theorem allocate {signature : Signature} (values : Ty.void ∉ signature.parameterTypes) :
    (v.allocate signature).Proper tree b :=
  { proper with
    parameters := fun index other found => by
      simp only [View.allocate, TypeTable.allocate, Array.getElem?_push] at found
      split at found
      · cases found
        exact values
      · exact proper.parameters index other found
    discovered := fun type member => by
      simp only [View.allocate, TypeTable.allocate] at member ⊢
      rw [Array.size_push]
      rcases Array.mem_push.mp member with old | rfl
      · obtain ⟨value, known⟩ := proper.discovered type old
        exact ⟨value, known.mono (Nat.le_succ _)⟩
      · exact ⟨by simp, Nat.lt_succ_self _⟩ }

theorem value_child (formed : tree.WellFormed) {parent child : NodeId} {above : Node}
    (found : tree.node? parent = some above) (member : child ∈ above.children)
    (plain : above.kind ≠ .functionDeclaration)
    (part : ∀ parameters, above.production ≠ .functionType parameters child) :
    v.typeOf child ≠ some .void := by
  intro isVoid
  rcases formed.typeOrVoid_parent found member (proper.nodes child isVoid) with ⟨parameters, is⟩ | kind
  · exact part parameters is
  · exact plain kind

theorem inheritType {id child : NodeId} (fits : v.typeOf child ≠ some .void ∨ tree.IsTypeOrVoid id) :
    (v.inheritType id child).Proper tree b := by
  unfold View.inheritType
  split
  next type isType =>
    refine proper.setType fun isVoid => fits.resolve_left fun value => value ?_
    rw [isType, isVoid]
  next => exact proper

theorem resolveFunctionType (formed : tree.WellFormed) {id : NodeId} {node : Node}
    (found : tree.node? id = some node) {parameters : List NodeId} {returnType : NodeId}
    (is : node.production = .functionType parameters returnType) :
    (v.resolveFunctionType id parameters returnType).Proper tree b := by
  unfold View.resolveFunctionType
  split
  · exact proper
  · split
    next result types isResult areTypes =>
      have values : Ty.void ∉ types := by
        intro member
        obtain ⟨parameter, listed, isVoid⟩ := mem_of_mapM areTypes member
        refine proper.value_child formed found ?_ ?_ ?_ isVoid
        · simp [Node.children, is, Production.children, listed]
        · simp [Node.kind, is, Production.kind]
        · intro others same
          have apart := formed.children_nodup found
          rw [is, Production.functionType.injEq] at same
          simp only [Node.children, is, Production.children, List.nodup_append] at apart
          exact apart.2.2 parameter listed parameter (by simp [same.2]) rfl
      exact (proper.allocate values).setType fun isVoid => by cases isVoid
    next => exact proper

theorem completeFunction (id : NodeId) (name : String) (location : Location)
    (returnType : Option NodeId) :
    (v.completeFunction b id name location returnType).Proper tree b := by
  have returning : (v.returning b id returnType).Proper tree b := by
    cases returnType with
    | none => exact proper
    | some result => exact { proper with }
  unfold View.completeFunction View.checkSignature
  split
  · exact returning
  · split
    · exact { returning with }
    · split <;> exact { returning with }

theorem completeClass (id : NodeId) (name : String) (location : Location)
    (superclass : Option NodeId) :
    (v.completeClass b id name location superclass).Proper tree b := by
  unfold View.completeClass
  split
  · split
    · exact proper
    · split <;> exact { proper with }
  · exact proper

theorem resolveClassReference (id : NodeId) (name : String) (location : Location) :
    (v.resolveClassReference b id name location).Proper tree b := by
  unfold View.resolveClassReference
  split
  · exact proper
  · split
    · exact proper
    · split
      · have checked : (v.check id).Proper tree b := { proper with }
        exact checked.setType fun isVoid => by cases isVoid
      · exact { proper with }

theorem enter (id : NodeId) (node : Node) : (v.enter tree b mode id node).Proper tree b := by
  unfold View.enter View.declareVariableAt
  split
  · split
    · exact proper
    · split
      · exact proper
      · split
        · exact proper
        · split <;> exact { proper with }
  · exact proper

theorem exit (formed : tree.WellFormed) {id : NodeId} {node : Node}
    (found : tree.node? id = some node) : (v.exit tree b mode id node).Proper tree b := by
  have value {child : NodeId} (member : child ∈ node.production.children)
      (plain : node.kind ≠ .functionDeclaration)
      (part : ∀ parameters, node.production ≠ .functionType parameters child) :=
    proper.value_child formed found member plain part
  unfold View.exit
  cases is : node.production with
  | primitiveType keyword => exact proper.setType fun isVoid => by cases isVoid
  | typeOrVoid child =>
    have here : tree.IsTypeOrVoid id := ⟨node, found, Node.kind_of is⟩
    cases child with
    | none => exact proper.setType fun _ => here
    | some child => exact proper.inheritType (.inr here)
  | typeNode child =>
    exact proper.inheritType (.inl (value (by simp [is, Production.children])
      (by simp [Node.kind, is, Production.kind]) (by simp [is])))
  | functionType parameters returnType => exact proper.resolveFunctionType formed found is
  | classReference name => exact proper.resolveClassReference id name node.location
  | variableDeclarators type declarators =>
    simp only [View.typeDeclarators]
    split
    · exact proper
    · exact proper.typeVariables _ (value (by simp [is, Production.children])
        (by simp [Node.kind, is, Production.kind]) (by simp [is]))
  | formalParameter type declarator =>
    have isValue : v.typeOf type ≠ some .void := value (by simp [is, Production.children])
      (by simp [Node.kind, is, Production.kind]) (by simp [is])
    have typed := proper.typeVariables [declarator] isValue
    simp only [View.completeParameter]
    split
    · exact { typed with }
    · exact proper
  | functionDeclaration name returnType parameters body =>
    exact proper.completeFunction id name node.location returnType
  | classDeclaration name superclass body =>
    exact proper.completeClass id name node.location superclass
  | _ => exact proper

theorem advance (formed : tree.WellFormed) (event : Event) :
    (v.advance tree b mode event).Proper tree b := by
  unfold View.advance
  cases found : tree.node? event.node with
  | none => exact proper
  | some node =>
    cases event.phase with
    | enter => exact proper.enter event.node node
    | exit => exact proper.exit formed found

theorem run (formed : tree.WellFormed) (events : List Event) :
    (events.foldl (View.advance tree b mode) v).Proper tree b :=
  List.foldlRecOn events (motive := (View.Proper · tree b)) _ proper
    fun _ proper event _ => proper.advance formed event

end Changes

theorem analysed {name : String} (built : Resolution.build tree name = .ok b)
    (prepared : Prepared tree b) (locals : Bool) :
    (View.analysed tree b locals).Proper tree b := by
  have members : Proper ((tree.events tree.root).foldl (View.advance tree b .membersOnly)
      (View.start b)) tree b := (Proper.start built prepared.registered).run prepared.formed _
  cases locals with
  | false => exact members
  | true => exact members.run prepared.formed _

end Proper

end View

/-- A place that may hold handles to types. -/
inductive HandlePlace where
  | node (id : NodeId)
  | var (symbol : SymbolId)
  | functionResult (symbol : SymbolId)
  | entryResult (entry : FunctionTypeId)
  | entryParameter (entry : FunctionTypeId)
  | discovered
  deriving DecidableEq, Repr

/-- A place of a resolution holds a handle. -/
def Resolution.Holds (r : Resolution) (type : Ty) : HandlePlace → Prop
  | .node id => r.typeOf id = some type
  | .var symbol => ∃ x, r.table.symbols[symbol.index]? = some x ∧ x.kind.variableType = some type
  | .functionResult symbol =>
    ∃ x, r.table.symbols[symbol.index]? = some x ∧ x.kind.returnType = some type
  | .entryResult entry =>
    ∃ signature, r.types.functions[entry.index]? = some signature ∧ signature.returnType = type
  | .entryParameter entry =>
    ∃ signature, r.types.functions[entry.index]? = some signature ∧ type ∈ signature.parameterTypes
  | .discovered => type ∈ r.types.discovered

/-- The number that all function types at a place stay under: an entry refers to entries before it
only. -/
def HandlePlace.bound (r : Resolution) : HandlePlace → Nat
  | .entryResult entry | .entryParameter entry => entry.index
  | .node _ | .var _ | .functionResult _ | .discovered => r.types.functions.size

/-- A place may hold `void`. -/
def HandlePlace.AdmitsVoid (tree : SyntaxTree) : HandlePlace → Prop
  | .node id => tree.IsTypeOrVoid id
  | .functionResult _ | .entryResult _ => True
  | .var _ | .entryParameter _ | .discovered => False

/-- A handle may stand at a place: its class is that of a class scope, its function type is one of
those that the place may refer to, and `void` is admitted if it is that. -/
structure Resolution.Fits (r : Resolution) (tree : SyntaxTree) (type : Ty) (place : HandlePlace) :
    Prop where
  formed : type.Formed r.IsClassScope (place.bound r)
  void : type = .void → place.AdmitsVoid tree

section Represented

variable {tree : SyntaxTree} {b r : Resolution} {v : View}

theorem View.Represents.isClassScope_eq (rep : v.Represents tree b r) :
    r.IsClassScope = b.IsClassScope := by
  funext scope
  have frame := congrArg (Option.map Scope.kind) (rep.frames scope.index)
  have same : r.scopeKind scope = b.scopeKind scope := by
    simpa [Option.map_map, Function.comp_def, Scope.frame, Resolution.scopeKind] using frame
  simp only [Resolution.IsClassScope, same]

variable (prepared : Prepared tree b) (follows : v.Follows tree b r)
include prepared follows

/-- Whatever handle a place holds fits it. -/
theorem holds_fits (proper : v.Proper tree b) {type : Ty} {place : HandlePlace}
    (holds : r.Holds type place) : r.Fits tree type place := by
  have classes := follows.rep.isClassScope_eq
  have types := follows.rep.types
  have symbol {id : SymbolId} {x : Symbol} (found : r.table.symbols[id.index]? = some x) :=
    follows.rep.symbol_cases follows.grounded.nodup found
  cases place with
  | node id =>
    have typed : v.typeOf id = some type := by
      by_cases here : id.index < tree.size
      · simpa only [Resolution.Holds, Resolution.typeOf, follows.rep.facts id here] using holds
      · simp [Resolution.Holds, Resolution.typeOf, follows.rep.factsOf_beyond here,
          NodeFacts.unknown] at holds
    refine ⟨?_, fun isVoid => proper.nodes id (isVoid ▸ typed)⟩
    rw [classes, HandlePlace.bound, types]
    exact follows.grounded.typed id type typed
  | var id =>
    obtain ⟨x, found, isType⟩ := holds
    rcases symbol found with ⟨old, foundOld, rfl⟩ | ⟨node, -, -, rfl⟩
    · rcases prepared.registered.fresh _ old foundOld with ⟨own, kind⟩ | ⟨own, kind⟩ <;>
        simp [View.completed, kind, SymbolKind.variableType] at isType
    · refine ⟨?_, fun isVoid => proper.declared node (isVoid ▸ isType)⟩
      rw [classes, HandlePlace.bound, types]
      exact follows.grounded.variableTyped node type isType
  | functionResult id =>
    obtain ⟨x, found, isType⟩ := holds
    refine ⟨?_, fun _ => trivial⟩
    rw [classes, HandlePlace.bound, types]
    rcases symbol found with ⟨old, foundOld, rfl⟩ | ⟨node, -, -, rfl⟩
    · rcases prepared.registered.fresh _ old foundOld with ⟨own, kind⟩ | ⟨own, kind⟩
      · simp [View.completed, kind, SymbolKind.returnType] at isType
      · simp only [View.completed, kind, SymbolKind.returnType] at isType
        exact follows.grounded.returns old.id type isType
    · cases isType
  | entryResult entry =>
    obtain ⟨signature, found, rfl⟩ := holds
    rw [types] at found
    refine ⟨?_, fun _ => trivial⟩
    rw [classes]
    exact (follows.grounded.types _ signature found).1
  | entryParameter entry =>
    obtain ⟨signature, found, member⟩ := holds
    rw [types] at found
    refine ⟨?_, fun isVoid => proper.parameters _ signature found (isVoid ▸ member)⟩
    rw [classes]
    exact (follows.grounded.types _ signature found).2 type member
  | discovered =>
    simp only [Resolution.Holds, types] at holds
    obtain ⟨value, known⟩ := proper.discovered type holds
    refine ⟨?_, fun isVoid => value isVoid⟩
    rw [classes, HandlePlace.bound, types]
    exact known

omit prepared in
/-- A handle at any place is one of those that the resolution knows. -/
theorem fits_known {type : Ty} {place : HandlePlace} (holds : r.Holds type place)
    (fits : r.Fits tree type place) :
    type.Formed b.IsClassScope v.types.functions.size := by
  rw [← follows.rep.isClassScope_eq, ← follows.rep.types]
  refine fits.formed.mono ?_
  cases place with
  | entryResult entry | entryParameter entry =>
    obtain ⟨signature, found, -⟩ := holds
    exact Nat.le_of_lt (Array.getElem?_eq_some_iff.mp found).1
  | _ => exact Nat.le_refl _

/-- Every symbol has a signature text, those that are no functions one without parameters. -/
theorem signatureText_isOk {symbol : SymbolId} (known : symbol.index < r.table.symbols.size) :
    ∃ text, r.signatureText symbol = .ok text := by
  have found : r.table.symbols[symbol.index]? = some r.table.symbols[symbol.index] := by
    simp [known]
  have plain (none : r.table.symbols[symbol.index].kind.parameters = []) :
      ∃ text, r.signatureText symbol = .ok text :=
    ⟨_, by simp only [Resolution.signatureText, SymbolTable.symbol, found, orDangling_some, ok_bind,
      none, List.mapM_nil]; rfl⟩
  rcases follows.rep.symbol_cases follows.grounded.nodup found with
    ⟨old, foundOld, same⟩ | ⟨node, -, -, same⟩
  · rcases prepared.registered.fresh _ old foundOld with ⟨own, kind⟩ | ⟨own, kind⟩
    · exact plain (by simp [same, View.completed, kind, SymbolKind.parameters])
    · have isId := prepared.registered.ordered.symbol_id _ old foundOld
      exact ⟨_, follows.rep.signatureText_eq_ok prepared follows.grounded foundOld isId kind⟩
  · exact plain (by rw [same]; rfl)

end Represented

/-- In an analysed tree every handle fits the place that holds it: no class and no function type is
missing, a signature refers only to signatures before it, and `void` is the type of nothing but a type
or `void`, a function's result and the result of a function type. So every handle has a text, any two
can be compared, every symbol has a signature text, and the outline can be shown. -/
theorem analyze_handles_fit {tree : SyntaxTree} (valid : tree.validate = .ok ())
    (settings : Settings) :
    ∃ r, analyze tree settings = .ok r ∧
      (∀ type place, r.Holds type place →
        r.Fits tree type place ∧ ∃ text, r.typeText type = .ok text) ∧
      (∀ left right place other, r.Holds left place → r.Holds right other →
        ∃ answer, r.types.sameType left right = .ok answer) ∧
      (∀ symbol : SymbolId, symbol.index < r.table.symbols.size →
        ∃ text, r.signatureText symbol = .ok text) ∧
      ∃ text, r.outlineText = .ok text := by
  obtain ⟨b, r, built, prepared, analysed, follows⟩ :=
    exists_analysed (SyntaxTree.validate_eq_ok_iff.mp valid) settings
  have proper := View.Proper.analysed built prepared settings.enterLocalVariables
  have fits {type : Ty} {place : HandlePlace} (holds : r.Holds type place) :=
    holds_fits prepared follows proper holds
  have known {type : Ty} {place : HandlePlace} (holds : r.Holds type place) :=
    fits_known follows holds (fits holds)
  refine ⟨r, analysed, fun type place holds => ⟨fits holds, ?_⟩, fun left right place other l r' => ?_,
    fun symbol => signatureText_isOk prepared follows,
    follows.rep.outlineText_isOk prepared follows.grounded⟩
  · exact follows.rep.typeText_isOk prepared follows.grounded (known holds)
  · obtain ⟨answer, compared, -⟩ :=
      TypeTable.sameType_spec follows.grounded.types (known l) (known r')
    exact ⟨answer, by rw [follows.rep.types, compared]⟩

/-- The unit `void m(((int) -> void) -> int f) { }`. -/
def SyntaxTree.higherOrder : SyntaxTree where
  nodes := #[
    ⟨.primitiveType .int, ⟨9, 12⟩⟩, ⟨.typeNode ⟨0⟩, ⟨9, 12⟩⟩, ⟨.typeOrVoid none, ⟨17, 21⟩⟩,
    ⟨.functionType [⟨1⟩] ⟨2⟩, ⟨8, 21⟩⟩, ⟨.typeNode ⟨3⟩, ⟨8, 21⟩⟩,
    ⟨.primitiveType .int, ⟨27, 30⟩⟩, ⟨.typeNode ⟨5⟩, ⟨27, 30⟩⟩,
    ⟨.typeOrVoid (some ⟨6⟩), ⟨27, 30⟩⟩, ⟨.functionType [⟨4⟩] ⟨7⟩, ⟨7, 30⟩⟩,
    ⟨.typeNode ⟨8⟩, ⟨7, 30⟩⟩, ⟨.variableDeclaratorId "f", ⟨31, 32⟩⟩,
    ⟨.formalParameter ⟨9⟩ ⟨10⟩, ⟨7, 32⟩⟩, ⟨.typeOrVoid none, ⟨0, 4⟩⟩, ⟨.block [], ⟨34, 37⟩⟩,
    ⟨.functionDeclaration "m" (some ⟨12⟩) [⟨11⟩] ⟨13⟩, ⟨0, 37⟩⟩,
    ⟨.compilationUnit [⟨14⟩], ⟨0, 37⟩⟩]
  root := ⟨15⟩

/-- The outer function type takes the inner one, which comes before it and returns `void`. -/
theorem analyze_handles_fit_higherOrder :
    ∃ r, analyze SyntaxTree.higherOrder Settings.standard = .ok r ∧
      r.Holds (.functionType ⟨0⟩) (.entryParameter ⟨1⟩) ∧
      r.Fits SyntaxTree.higherOrder (.functionType ⟨0⟩) (.entryParameter ⟨1⟩) ∧
      r.Holds .void (.entryResult ⟨0⟩) ∧
      r.Fits SyntaxTree.higherOrder .void (.entryResult ⟨0⟩) ∧
      ∃ text, r.outlineText = .ok text := by
  obtain ⟨r, analysed, fits, -, -, shown⟩ :=
    @analyze_handles_fit SyntaxTree.higherOrder rfl Settings.standard
  have facts : (analyze SyntaxTree.higherOrder Settings.standard).map (fun r => r.types.functions) =
      .ok #[⟨.void, [.primitive .integer]⟩, ⟨.primitive .integer, [.functionType ⟨0⟩]⟩] := rfl
  rw [analysed] at facts
  simp only [Except.map, Except.ok.injEq] at facts
  have taken : r.Holds (.functionType ⟨0⟩) (.entryParameter ⟨1⟩) :=
    ⟨⟨.primitive .integer, [.functionType ⟨0⟩]⟩, by rw [facts]; rfl, by simp⟩
  have returned : r.Holds .void (.entryResult ⟨0⟩) :=
    ⟨⟨.void, [.primitive .integer]⟩, by rw [facts]; rfl, rfl⟩
  exact ⟨r, analysed, taken, (fits _ _ taken).1, returned, (fits _ _ returned).1, shown⟩

end ScriptSemantics
