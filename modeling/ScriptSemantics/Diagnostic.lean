import ScriptSemantics.Syntax.Grammar

/-!
# Diagnostics and failures

A diagnostic is about the analysed source, and logging one stops nothing. A failure means that the
tree or the scopes bound to it do not fit what a pass needs; it ends the pass.
-/
namespace ScriptSemantics

/-- What a diagnostic is about. -/
inductive DiagnosticCode where
  | duplicateDeclaration
  | unknownType
  | invalidSuperclass
  deriving DecidableEq, Repr

def DiagnosticCode.text : DiagnosticCode → String
  | .duplicateDeclaration => "duplicate-declaration"
  | .unknownType => "unknown-type"
  | .invalidSuperclass => "invalid-superclass"

structure Diagnostic where
  node : NodeId
  location : Location
  code : DiagnosticCode
  message : String
  deriving DecidableEq, Repr

/-- The line printed for a diagnostic: its place, its code in brackets and its message. -/
def Diagnostic.render (d : Diagnostic) : String :=
  d.location.render ++ ": [" ++ d.code.text ++ "] " ++ d.message

/-- The kind of scope that a node should have been bound to. -/
inductive ExpectedScope where
  | nested
  | function
  | classType
  deriving DecidableEq, Repr

def ExpectedScope.describe : ExpectedScope → String
  | .nested => "nested scope"
  | .function => "function"
  | .classType => "class"

/-- Why a pass could not go on. -/
inductive SemanticError where
  | missingScopeBinding (node : NodeId)
  | unexpectedScope (node : NodeId) (expected : ExpectedScope)
  | unexpectedNode (node : NodeId) (found expected : NodeKind)
  | malformed (error : TreeError)
  deriving DecidableEq, Repr

def SemanticError.message : SemanticError → String
  | .missingScopeBinding node =>
      s!"{node.render} was never bound to a scope by the pre-registration pass"
  | .unexpectedScope node expected =>
      s!"{node.render} is bound to a scope that is not a {expected.describe}"
  | .unexpectedNode node found expected =>
      s!"{node.render} is a {found.name} where a {expected.name} was expected"
  | .malformed error => s!"malformed syntax tree: {error.message}"

end ScriptSemantics
