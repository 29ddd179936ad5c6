import ScriptSemantics.Scoping
import ScriptSemantics.Settings
import ScriptSemantics.Typing

/-!
# Analysis

A tree that is valid is analysed in up to three steps: its scopes are registered, its types and
members are resolved, and the regions that may declare locals are resolved once more with their
locals.
-/
namespace ScriptSemantics

namespace SyntaxTree

/-- Whether a child of a node may declare locals: the body of a function, and a statement placed
directly in the compilation unit. -/
def isRegion (tree : SyntaxTree) (production : Production) (child : NodeId) :
    Except Fault Bool :=
  match production with
  | .compilationUnit _ => do pure (← tree.node child).kind.isStatement
  | .functionDeclaration _ _ _ body => pure (body == child)
  | _ => pure false

/-- The outermost regions below a node in source order, following links no deeper than the bound.
What lies inside a region is resolved with it. -/
def regionsWithin (tree : SyntaxTree) : Nat → NodeId → Except Fault (List NodeId)
  | 0, _ => .error .endless
  | depth + 1, id => do
    let node ← tree.node id
    let regions ← node.children.mapM fun child => do
      if ← tree.isRegion node.production child then pure [child]
      else tree.regionsWithin depth child
    pure regions.flatten

/-- The outermost regions of a tree in source order. -/
def localRegions (tree : SyntaxTree) : Except Fault (List NodeId) :=
  tree.regionsWithin (tree.size + 1) tree.root

end SyntaxTree

/-- A step whose failure is told without what had been done by then. -/
def Step.result (step : Step) : Except (Halt SemanticError) Resolution :=
  step.mapError fun
    | .failed interruption => .failed interruption.cause
    | .fault fault => .fault fault

/-- Resolves the regions of a tree with their locals, one after another. -/
def Resolution.resolveLocals (r : Resolution) (tree : SyntaxTree) : Step := do
  let regions ← tree.localRegions
  regions.foldlM (fun r region => r.resolveFrom tree .withLocals region) r

/-- Analyses a tree by the given settings. A tree that is not valid is not looked at further. -/
def analyze (tree : SyntaxTree) (settings : Settings) :
    Except (Halt SemanticError) Resolution :=
  match tree.validate with
  | .error error => .error (.failed (.malformed error))
  | .ok () => do
    let r ← Resolution.build tree settings.namespaceName
    let r ← Step.result (r.resolve tree .membersOnly)
    if settings.enterLocalVariables then Step.result (r.resolveLocals tree) else pure r

end ScriptSemantics
