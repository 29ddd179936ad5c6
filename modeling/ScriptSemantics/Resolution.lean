import ScriptSemantics.Diagnostic
import ScriptSemantics.Symbols.Lookup

/-!
# Resolutions

A resolution is what the analysis knows of a tree: the symbols, the types, what is known of each
node, and the diagnostics in the order in which they were logged. A node without a type was not
visited, or its type could not be resolved and a diagnostic says so, unless a pass stopped there.
-/
namespace ScriptSemantics

/-- What is known of one node. -/
structure NodeFacts where
  /-- The scope of the node's own if it introduces one, else the scope that it appears in. -/
  scope : Option ScopeId
  symbol : Option SymbolId
  type : Option Ty
  /-- Whether the node has been checked for declaration errors. -/
  checked : Bool
  deriving DecidableEq, Repr

def NodeFacts.unknown : NodeFacts := ⟨none, none, none, false⟩

/-- Symbols, types, facts by node and diagnostics. -/
structure Resolution where
  table : SymbolTable
  types : TypeTable
  facts : Array NodeFacts
  diagnostics : Array Diagnostic
  deriving DecidableEq, Repr

namespace Resolution

/-- Nothing known of any node of a tree, and a namespace without symbols. -/
def new (tree : SyntaxTree) (namespaceName : String) : Resolution :=
  ⟨.new namespaceName, .empty, Array.replicate tree.size .unknown, #[]⟩

/-- What is known of a node, nothing if the resolution does not cover it. -/
def factsOf (r : Resolution) (node : NodeId) : NodeFacts := r.facts[node.index]?.getD .unknown

def typeOf (r : Resolution) (node : NodeId) : Option Ty := (r.factsOf node).type

def symbolOf (r : Resolution) (node : NodeId) : Option SymbolId := (r.factsOf node).symbol

def scopeOf (r : Resolution) (node : NodeId) : Except (Halt SemanticError) ScopeId :=
  match (r.factsOf node).scope with
  | some scope => .ok scope
  | none => .error (.failed (.missingScopeBinding node))

/-- The scope around the one that a node is bound to. -/
def enclosingScopeOf (r : Resolution) (node : NodeId) : Except (Halt SemanticError) ScopeId := do
  let scope ← r.table.scope (← r.scopeOf node)
  match scope.enclosing with
  | some enclosing => pure enclosing
  | none => throw (.failed (.unexpectedScope node .nested))

/-- Changes what is known of a node, which only nodes that the resolution covers allow. -/
def updateFacts (r : Resolution) (node : NodeId) (change : NodeFacts → NodeFacts) :
    Except Fault Resolution := do
  let facts ← orDangling r.facts[node.index]?
  pure { r with facts := r.facts.setIfInBounds node.index (change facts) }

def setScope (r : Resolution) (node : NodeId) (scope : ScopeId) : Except Fault Resolution :=
  r.updateFacts node fun facts => { facts with scope := some scope }

def setSymbol (r : Resolution) (node : NodeId) (symbol : SymbolId) : Except Fault Resolution :=
  r.updateFacts node fun facts => { facts with symbol := some symbol }

def setType (r : Resolution) (node : NodeId) (type : Ty) : Except Fault Resolution :=
  r.updateFacts node fun facts => { facts with type := some type }

/-- Marks a node as checked and tells whether this is the first time, so that a node that several
passes come to is reported once. -/
def checkOnce (r : Resolution) (node : NodeId) : Except Fault (Bool × Resolution) := do
  let before ← orDangling r.facts[node.index]?
  let r ← r.updateFacts node fun facts => { facts with checked := true }
  pure (!before.checked, r)

def log (r : Resolution) (code : DiagnosticCode) (message : String) (node : NodeId)
    (location : Location) : Resolution :=
  { r with diagnostics := r.diagnostics.push ⟨node, location, code, message⟩ }

/-- The resolution with its symbol table changed. -/
def onTable (r : Resolution) (change : SymbolTable → Except Fault SymbolTable) :
    Except Fault Resolution := do
  pure { r with table := ← change r.table }

end Resolution

end ScriptSemantics
