import ScriptSemantics.Rendering
import ScriptSemantics.Syntax.Walk

/-!
# Resolving types and declaring variables

This pass gives every type node its type from the bottom up and declares variables. It comes after
the registration of scopes, and every node that it visits must be bound to a scope. What is declared
twice is logged and passed over. A pass may be repeated: nodes that are checked already are not
reported again.

A pass that fails hands over what it had done until then.
-/
namespace ScriptSemantics

/-- Which variables a pass declares. -/
inductive Mode where
  /-- Class fields and function parameters. A later pass declares the locals while it resolves what
  refers to them, so nothing refers to a local that is declared after it. -/
  | membersOnly
  /-- Fields, parameters, and the variables of blocks and of the namespace. -/
  | withLocals
  deriving DecidableEq, Repr

/-- Why a pass stopped, and what had been done by then. -/
structure Interruption where
  cause : SemanticError
  state : Resolution
  deriving DecidableEq, Repr

/-- A step of the pass. -/
abbrev Step := Except (Halt Interruption) Resolution

namespace Resolution

/-- What is read from a resolution in a step, which a failure to read interrupts. -/
def interrupting {α : Type} (r : Resolution) :
    Except (Halt SemanticError) α → Except (Halt Interruption) α :=
  Except.mapError fun
    | .failed cause => .failed ⟨cause, r⟩
    | .fault fault => .fault fault

def declaresIn (r : Resolution) (mode : Mode) (scope : ScopeId) : Except Fault Bool := do
  match (← r.table.scope scope).kind with
  | .classScope _ | .functionScope _ => pure true
  | .namespaceScope _ | .blockScope => pure (mode == .withLocals)

/-- Whether a pass gives types to the variables of a declaration statement in a scope. -/
def typesIn (r : Resolution) (mode : Mode) (scope : ScopeId) : Except Fault Bool := do
  pure ((← r.table.scope scope).kind.isClass || mode == .withLocals)

/-- The function whose scope a node is bound to. -/
def functionSymbol (r : Resolution) (node : NodeId) : Except (Halt SemanticError) SymbolId := do
  match (← r.table.scope (← r.scopeOf node)).kind with
  | .functionScope symbol => pure symbol
  | _ => throw (.failed (.unexpectedScope node .function))

/-- The class whose scope a node is bound to, and that scope. -/
def classSymbol (r : Resolution) (node : NodeId) :
    Except (Halt SemanticError) (SymbolId × ScopeId) := do
  let scope ← r.scopeOf node
  match (← r.table.scope scope).kind with
  | .classScope symbol => pure (symbol, scope)
  | _ => throw (.failed (.unexpectedScope node .classType))

/-- Declares the variable of a declarator id, unless this pass does not declare in its scope, the
node has been checked before, or the scope has a variable of that name. -/
def declareVariableAt (r : Resolution) (mode : Mode) (id : NodeId) (name : String)
    (location : Location) : Step := do
  if (r.symbolOf id).isSome then pure r
  else
    let scope ← r.interrupting (r.scopeOf id)
    if !(← r.declaresIn mode scope) then pure r
    else
      let (first, r) ← r.checkOnce id
      if !first then pure r
      else if (← r.table.findVariable scope name).isSome then
        pure (r.log .duplicateDeclaration s!"variable or parameter already declared: {name}"
          id location)
      else
        let (symbol, table) ← r.table.declareVariable scope name id location
        ({ r with table := table }).setSymbol id symbol

/-- Gives the variable of one declarator a type. Duplicates have no variable. -/
def typeDeclarator (tree : SyntaxTree) (type : Option Ty) (r : Resolution) (declarator : NodeId) :
    Step := do
  match (← tree.node declarator).production with
  | .variableDeclarator id _ =>
    match r.symbolOf id with
    | some symbol => r.onTable fun table => table.setVariableType symbol type
    | none => pure r
  | other => throw (.failed ⟨.unexpectedNode declarator other.kind .variableDeclarator, r⟩)

/-- Gives the variables of a declaration statement the type of its type node. -/
def typeDeclarators (r : Resolution) (mode : Mode) (tree : SyntaxTree) (id type : NodeId)
    (declarators : List NodeId) : Step := do
  let scope ← r.interrupting (r.scopeOf id)
  if !(← r.typesIn mode scope) then pure r
  else declarators.foldlM (typeDeclarator tree (r.typeOf type)) r

/-- Gives a parameter its type and appends it to its function. Duplicates have no variable. -/
def completeParameter (r : Resolution) (id type declarator : NodeId) : Step := do
  match r.symbolOf declarator with
  | none => pure r
  | some symbol =>
    let function ← r.interrupting (r.functionSymbol id)
    let r ← r.onTable fun table => table.setVariableType symbol (r.typeOf type)
    r.onTable fun table => table.pushParameter function symbol

/-- Logs a function whose scope lists another function of the same signature before it. -/
def checkSignature (r : Resolution) (id : NodeId) (name : String) (location : Location)
    (function : SymbolId) (enclosing : ScopeId) : Step := do
  match ← r.table.parameterTypes function with
  | none => pure r
  | some parameters =>
    let found ← r.table.findFunction r.types enclosing name parameters
    if found.any (· != function) then
      let message := "function or method already declared: " ++ (← r.signatureText function)
      pure (r.log .duplicateDeclaration message id location)
    else pure r

/-- Completes a function once its parameters are known: gives it its return type, and checks its
signature against the other functions of the scope around it. -/
def completeFunction (r : Resolution) (id : NodeId) (name : String) (location : Location)
    (returnType : Option NodeId) : Step := do
  let function ← r.interrupting (r.functionSymbol id)
  let r ← match returnType with
    | some node => r.onTable fun table => table.setReturnType function (r.typeOf node)
    | none => pure r
  let (first, r) ← r.checkOnce id
  if !first then pure r
  else
    let enclosing ← r.interrupting (r.enclosingScopeOf id)
    r.checkSignature id name location function enclosing

/-- Gives a class its superclass, unless that is the class itself. -/
def completeClass (r : Resolution) (id : NodeId) (name : String) (location : Location)
    (superclass : Option NodeId) : Step := do
  match superclass.bind r.typeOf with
  | some (.classType target) =>
    let (first, r) ← r.checkOnce id
    if !first then pure r
    else
      let (symbol, scope) ← r.interrupting (r.classSymbol id)
      if target = scope then
        pure (r.log .invalidSuperclass s!"class {name} cannot extend itself" id location)
      else r.onTable fun table => table.setSuperclass symbol target
  | _ => pure r

/-- Gives a node the type of its child, if that has one. -/
def inheritType (r : Resolution) (id child : NodeId) : Step :=
  match r.typeOf child with
  | some type => (r.setType id type : Except Fault Resolution)
  | none => pure r

/-- Gives a function type its handle, unless it has one or some part of it has no type. -/
def resolveFunctionType (r : Resolution) (id : NodeId) (parameters : List NodeId)
    (returnType : NodeId) : Step :=
  if (r.typeOf id).isSome then pure r
  else
    match r.typeOf returnType, parameters.mapM r.typeOf with
    | some result, some parameters =>
      let (type, types) := r.types.allocate ⟨result, parameters⟩
      (({ r with types := types }).setType id type : Except Fault Resolution)
    | _, _ => pure r

/-- Gives a class reference the type of the innermost class of its name, or logs that there is
none. -/
def resolveClassReference (r : Resolution) (id : NodeId) (name : String) (location : Location) :
    Step := do
  if (r.typeOf id).isSome then pure r
  else
    let (first, r) ← r.checkOnce id
    if !first then pure r
    else
      let scope ← r.interrupting (r.scopeOf id)
      let own ← match ← r.table.lookupClass scope name with
        | some symbol => (fun s => s.kind.ownScope) <$> r.table.symbol symbol
        | none => pure none
      match own with
      | some own => r.setType id (.classType own)
      | none => pure (r.log .unknownType s!"unknown type: {name}" id location)

/-- What the pass does when it comes to a node. -/
def enterNode (mode : Mode) (id : NodeId) (node : Node) (r : Resolution) : Step :=
  match node.production with
  | .variableDeclaratorId name => r.declareVariableAt mode id name node.location
  | _ => pure r

/-- What the pass does when it leaves a node. -/
def exitNode (mode : Mode) (tree : SyntaxTree) (id : NodeId) (node : Node) (r : Resolution) :
    Step :=
  match node.production with
  | .primitiveType keyword =>
      (r.setType id (.primitive (.forKeyword keyword)) : Except Fault Resolution)
  | .typeOrVoid none => (r.setType id .void : Except Fault Resolution)
  | .typeOrVoid (some child) => r.inheritType id child
  | .typeNode child => r.inheritType id child
  | .functionType parameters returnType => r.resolveFunctionType id parameters returnType
  | .classReference name => r.resolveClassReference id name node.location
  | .variableDeclarators type declarators => r.typeDeclarators mode tree id type declarators
  | .formalParameter type declarator => r.completeParameter id type declarator
  | .functionDeclaration name returnType _ _ =>
      r.completeFunction id name node.location returnType
  | .classDeclaration name superclass _ => r.completeClass id name node.location superclass
  | .compilationUnit _ | .variableDeclarator _ _ | .variableDeclaratorId _ | .block _
  | .expressionStatement _ | .literal _ | .identifier _ => pure r

def typing (mode : Mode) (tree : SyntaxTree) : Listener Interruption Resolution
  | .enter, id, node, r => enterNode mode id node r
  | .exit, id, node, r => exitNode mode tree id node r

/-- The pass over all reachable nodes of a tree. -/
def resolve (r : Resolution) (tree : SyntaxTree) (mode : Mode) : Step :=
  tree.walk (typing mode tree) r

/-- The pass over the nodes below a node. -/
def resolveFrom (r : Resolution) (tree : SyntaxTree) (mode : Mode) (id : NodeId) : Step :=
  tree.walkFrom (typing mode tree) id r

theorem resolve_eq_resolveFrom (r : Resolution) (tree : SyntaxTree) (mode : Mode) :
    r.resolve tree mode = r.resolveFrom tree mode tree.root := rfl

end Resolution

end ScriptSemantics
