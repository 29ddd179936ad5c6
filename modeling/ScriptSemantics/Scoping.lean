import ScriptSemantics.Resolution
import ScriptSemantics.Syntax.Walk

/-!
# Registering scopes

The first pass makes the scopes of classes, functions and blocks, declares the classes and
functions, and binds every node that it comes to. Declarations that come later in the source can
then be referred to from anywhere. Variables are left to the passes after it.
-/
namespace ScriptSemantics

/-- A resolution with the scopes that are open around the place of the walk, innermost first. -/
structure Registration where
  resolution : Resolution
  opened : List ScopeId
  deriving DecidableEq, Repr

namespace Registration

/-- The innermost open scope. -/
def current (s : Registration) : ScopeId := s.opened.head?.getD SymbolTable.root

/-- Binds a node to the scope that it introduces, which is open until the node is left. -/
def openScope (s : Registration) (r : Resolution) (id : NodeId) (scope : ScopeId) :
    Except Fault Registration := do
  pure ⟨← r.setScope id scope, scope :: s.opened⟩

/-- Declares the class or function of a node, or adds its block, and binds the node. -/
def enter (s : Registration) (id : NodeId) (node : Node) : Except Fault Registration :=
  let r := s.resolution
  match node.production with
  | .classDeclaration name _ _ => do
    let ((symbol, scope), table) ← r.table.declareClass s.current name id node.location
    let r := { r with table := table, types := r.types.register (.classType scope) }
    s.openScope (← r.setSymbol id symbol) id scope
  | .functionDeclaration name _ _ _ => do
    let ((symbol, scope), table) ← r.table.declareFunction s.current name id node.location
    let r := { r with table := table }
    s.openScope (← r.setSymbol id symbol) id scope
  | .block _ => do
    let (scope, table) ← r.table.pushBlock s.current
    s.openScope { r with table := table } id scope
  | _ => do
    pure { s with resolution := ← r.setScope id s.current }

/-- Closes the scope that the node opened, if it did. -/
def exit (s : Registration) (node : Node) : Registration :=
  if node.kind.introducesScope then { s with opened := s.opened.tail } else s

/-- The pass as a listener. It never fails. -/
def listener : Listener Empty Registration
  | .enter, id, node, s => (s.enter id node : Except Fault Registration)
  | .exit, _, node, s => .ok (s.exit node)

end Registration

/-- The result of a pass that cannot fail. -/
def Halt.onlyFault {α : Type} : Except (Halt Empty) α → Except Fault α :=
  Except.mapError fun
    | .failed impossible => nomatch impossible
    | .fault cause => cause

namespace Resolution

/-- The resolution of a tree with all scopes and bindings of its reachable nodes. -/
def build (tree : SyntaxTree) (namespaceName : String) : Except Fault Resolution := do
  let start : Registration := ⟨new tree namespaceName, [SymbolTable.root]⟩
  let s ← Halt.onlyFault (tree.walk Registration.listener start)
  pure s.resolution

/-- Registers the scopes of the nodes below a node, as if the node stood in the namespace. -/
def registerFrom (r : Resolution) (tree : SyntaxTree) (id : NodeId) : Except Fault Resolution := do
  let s ← Halt.onlyFault (tree.walkFrom Registration.listener id ⟨r, [SymbolTable.root]⟩)
  pure s.resolution

end Resolution

end ScriptSemantics
