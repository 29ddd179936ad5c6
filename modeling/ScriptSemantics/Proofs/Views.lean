import ScriptSemantics.Proofs.Bindings
import ScriptSemantics.Typing

/-!
# Views of a resolution

While types are resolved, the scopes, the classes and the functions of registration stay as they are.
A view keeps only what changes, and names variables by the nodes that declare them, not by the numbers
that they happen to get. The steps of the resolving pass are functions from views to views; that the
pass follows them is shown elsewhere.
-/
namespace ScriptSemantics

namespace SyntaxTree

def nameAt (tree : SyntaxTree) (id : NodeId) : String :=
  match tree.node? id with
  | some ⟨.variableDeclaratorId name, _⟩ => name
  | _ => ""

def declaredBy (tree : SyntaxTree) (declarator : NodeId) : Option NodeId :=
  match tree.node? declarator with
  | some ⟨.variableDeclarator id _, _⟩ => some id
  | _ => none

end SyntaxTree

namespace Resolution

/-- Whether a pass declares the variables of a scope. -/
def declaresAt (b : Resolution) (mode : Mode) (scope : ScopeId) : Bool :=
  b.isMemberScope scope || mode == .withLocals

/-- Whether a pass gives types to the variables of a declaration statement in a scope. -/
def typesAt (b : Resolution) (mode : Mode) (scope : ScopeId) : Bool :=
  (b.scopeKind scope).any ScopeKind.isClass || mode == .withLocals

/-- The own scope of the innermost class of a name. -/
def classAt (b : Resolution) (scope : ScopeId) (name : String) : Option ScopeId :=
  match b.table.lookupClass scope name with
  | .ok (some symbol) => (b.table.symbols[symbol.index]?).bind fun s => s.kind.ownScope
  | _ => none

/-- The functions of a name in a scope, in source order. -/
def functionsAt (b : Resolution) (scope : ScopeId) (name : String) : List SymbolId :=
  (b.table.listing scope).filter <|
    b.table.holds fun s => s.name == name && !s.kind.isVariable && !s.kind.isClass

def nameOf (b : Resolution) (symbol : SymbolId) : String :=
  ((b.table.symbols[symbol.index]?).map Symbol.name).getD ""

end Resolution

/-- What the resolving pass has found out beyond registration. Variables are named by the nodes that
declare them, in the order in which they were declared. -/
structure View where
  types : TypeTable
  typeOf : NodeId → Option Ty
  checked : NodeId → Bool
  declared : List NodeId
  variableType : NodeId → Option Ty
  parameters : SymbolId → List NodeId
  returnType : SymbolId → Option Ty
  superclass : SymbolId → Option ScopeId
  diagnostics : List Diagnostic

namespace View

def start (b : Resolution) : View :=
  ⟨b.types, fun _ => none, fun _ => false, [], fun _ => none, fun _ => [], fun _ => none,
    fun _ => none, []⟩

def setType (v : View) (id : NodeId) (type : Ty) : View :=
  { v with typeOf := fun other => if other = id then some type else v.typeOf other }

def check (v : View) (id : NodeId) : View :=
  { v with checked := fun other => if other = id then true else v.checked other }

def log (v : View) (id : NodeId) (location : Location) (code : DiagnosticCode) (message : String) :
    View :=
  { v with diagnostics := v.diagnostics ++ [⟨id, location, code, message⟩] }

def declare (v : View) (id : NodeId) : View := { v with declared := v.declared ++ [id] }

/-- Gives the declared ones among some variables a type or takes it away. -/
def typeVariables (v : View) (ids : List NodeId) (type : Option Ty) : View :=
  { v with variableType := fun id =>
      if id ∈ ids ∧ id ∈ v.declared then type else v.variableType id }

/-- Adds a parameter to a function that does not have it. -/
def pushParameter (v : View) (function : SymbolId) (parameter : NodeId) : View :=
  { v with parameters := fun other =>
      if other = function ∧ parameter ∉ v.parameters function
      then v.parameters function ++ [parameter] else v.parameters other }

def setReturnType (v : View) (function : SymbolId) (type : Option Ty) : View :=
  { v with returnType := fun other => if other = function then type else v.returnType other }

def setSuperclass (v : View) (symbol : SymbolId) (superclass : ScopeId) : View :=
  { v with superclass := fun other =>
      if other = symbol then some superclass else v.superclass other }

def allocate (v : View) (signature : Signature) : View :=
  { v with types := (v.types.allocate signature).2 }

def hasVariable (v : View) (tree : SyntaxTree) (b : Resolution) (scope : ScopeId) (name : String) :
    Bool :=
  v.declared.any fun id => b.scopeAt id = scope && tree.nameAt id = name

/-- The parameter types of a function, unless one of them is missing. -/
def signature (v : View) (function : SymbolId) : Option (List Ty) :=
  (v.parameters function).mapM v.variableType

def sameTypes (v : View) (lefts rights : List Ty) : Bool :=
  v.types.matchParameterTypes lefts rights = .ok true

/-- Whether the parameters of a function are all typed and exactly of the given types. -/
def accepts (v : View) (arguments : List Ty) (function : SymbolId) : Bool :=
  (v.signature function).any (v.sameTypes arguments)

/-- The text of a type, or a question mark if there is none. -/
def textOf (v : View) (b : Resolution) (type : Option Ty) : String :=
  match ({ b with types := v.types } : Resolution).optionalTypeText type with
  | .ok text => text
  | .error _ => ""

def signatureText (v : View) (b : Resolution) (function : SymbolId) : String :=
  b.nameOf function ++ "(" ++
    Resolution.commaSeparated ((v.parameters function).map fun id => v.textOf b (v.variableType id)) ++
      ")"

section Steps

variable (v : View) (tree : SyntaxTree) (b : Resolution) (mode : Mode) (id : NodeId)

def declareVariableAt (name : String) (location : Location) : View :=
  if id ∈ v.declared then v
  else if !b.declaresAt mode (b.scopeAt id) then v
  else if v.checked id then v
  else if v.hasVariable tree b (b.scopeAt id) name then
    (v.check id).log id location .duplicateDeclaration s!"variable or parameter already declared: {name}"
  else (v.check id).declare id

def typeDeclarators (type : NodeId) (declarators : List NodeId) : View :=
  if !b.typesAt mode (b.scopeAt id) then v
  else v.typeVariables (declarators.filterMap tree.declaredBy) (v.typeOf type)

def completeParameter (type declarator : NodeId) : View :=
  if declarator ∈ v.declared then
    (v.typeVariables [declarator] (v.typeOf type)).pushParameter (b.ownerAt id) declarator
  else v

/-- The functions listed before or beside a function that have its signature. The first of them is
the function itself unless it is declared twice. -/
def repeats (name : String) (parameters : List Ty) : Bool :=
  ((b.functionsAt (b.enclosingAt id) name).find? (v.accepts parameters)).any (· != b.ownerAt id)

def checkSignature (name : String) (location : Location) : View :=
  match v.signature (b.ownerAt id) with
  | none => v
  | some parameters =>
    if v.repeats b id name parameters then
      v.log id location .duplicateDeclaration
        ("function or method already declared: " ++ v.signatureText b (b.ownerAt id))
    else v

def returning (returnType : Option NodeId) : View :=
  match returnType with
  | some node => v.setReturnType (b.ownerAt id) (v.typeOf node)
  | none => v

def completeFunction (name : String) (location : Location) (returnType : Option NodeId) : View :=
  if v.checked id then v.returning b id returnType
  else ((v.returning b id returnType).check id).checkSignature b id name location

def completeClass (name : String) (location : Location) (superclass : Option NodeId) : View :=
  match superclass.bind v.typeOf with
  | some (.classType target) =>
    if v.checked id then v
    else if target = b.scopeAt id then
      (v.check id).log id location .invalidSuperclass s!"class {name} cannot extend itself"
    else (v.check id).setSuperclass (b.ownerAt id) target
  | _ => v

def inheritType (child : NodeId) : View :=
  match v.typeOf child with
  | some type => v.setType id type
  | none => v

def resolveFunctionType (parameters : List NodeId) (returnType : NodeId) : View :=
  if (v.typeOf id).isSome then v
  else
    match v.typeOf returnType, parameters.mapM v.typeOf with
    | some result, some parameters =>
      (v.allocate ⟨result, parameters⟩).setType id (v.types.allocate ⟨result, parameters⟩).1
    | _, _ => v

def resolveClassReference (name : String) (location : Location) : View :=
  if (v.typeOf id).isSome then v
  else if v.checked id then v
  else
    match b.classAt (b.scopeAt id) name with
    | some own => (v.check id).setType id (.classType own)
    | none => (v.check id).log id location .unknownType s!"unknown type: {name}"

/-- What the pass does when it comes to a node. -/
def enter (node : Node) : View :=
  match node.production with
  | .variableDeclaratorId name => v.declareVariableAt tree b mode id name node.location
  | _ => v

/-- What the pass does when it leaves a node. -/
def exit (node : Node) : View :=
  match node.production with
  | .primitiveType keyword => v.setType id (.primitive (.forKeyword keyword))
  | .typeOrVoid none => v.setType id .void
  | .typeOrVoid (some child) => v.inheritType id child
  | .typeNode child => v.inheritType id child
  | .functionType parameters returnType => v.resolveFunctionType id parameters returnType
  | .classReference name => v.resolveClassReference b id name node.location
  | .variableDeclarators type declarators => v.typeDeclarators tree b mode id type declarators
  | .formalParameter type declarator => v.completeParameter b id type declarator
  | .functionDeclaration name returnType _ _ => v.completeFunction b id name node.location returnType
  | .classDeclaration name superclass _ => v.completeClass b id name node.location superclass
  | .compilationUnit _ | .variableDeclarator _ _ | .variableDeclaratorId _ | .block _
  | .expressionStatement _ | .literal _ | .identifier _ => v

end Steps

/-- What the pass does at an event. -/
def advance (tree : SyntaxTree) (b : Resolution) (mode : Mode) (v : View) (event : Event) : View :=
  match tree.node? event.node with
  | none => v
  | some node =>
    match event.phase with
    | .enter => v.enter tree b mode event.node node
    | .exit => v.exit tree b mode event.node node

end View

end ScriptSemantics
