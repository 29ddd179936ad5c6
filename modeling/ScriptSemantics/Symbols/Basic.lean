import ScriptSemantics.Syntax.Node
import ScriptSemantics.Types.Basic

/-!
# Scopes and symbols

Scopes nest by naming the scope around them. A symbol is declared in a scope; classes and functions
have a scope of their own beside it, and variables have none.
-/
namespace ScriptSemantics

structure SymbolId where
  index : Nat
  deriving DecidableEq, Repr, Inhabited

inductive ScopeKind where
  /-- The outermost scope of a compilation unit. -/
  | namespaceScope (name : String)
  /-- The members of a class. The symbol of the class is in the scope around it. -/
  | classScope (symbol : SymbolId)
  /-- The parameters of a function. -/
  | functionScope (symbol : SymbolId)
  | blockScope
  deriving DecidableEq, Repr

namespace ScopeKind

def isClass : ScopeKind → Bool
  | .classScope _ => true
  | _ => false

def isFunction : ScopeKind → Bool
  | .functionScope _ => true
  | _ => false

/-- The class or function that the scope belongs to. -/
def owner? : ScopeKind → Option SymbolId
  | .classScope symbol | .functionScope symbol => some symbol
  | .namespaceScope _ | .blockScope => none

end ScopeKind

/-- A scope with the scope around it, its symbols in source order and the blocks directly in it. -/
structure Scope where
  id : ScopeId
  kind : ScopeKind
  enclosing : Option ScopeId
  symbols : List SymbolId
  blocks : List ScopeId
  deriving DecidableEq, Repr

/-- What a symbol names. -/
inductive SymbolKind where
  | var (type : Option Ty)
  | function (scope : ScopeId) (returnType : Option Ty) (parameters : List SymbolId)
  | classType (scope : ScopeId) (superclass : Option ScopeId)
  deriving DecidableEq, Repr

namespace SymbolKind

/-- What messages call a symbol of this kind. -/
def name : SymbolKind → String
  | .var _ => "variable"
  | .function .. => "function"
  | .classType .. => "class"

def isVariable : SymbolKind → Bool
  | .var _ => true
  | _ => false

def isClass : SymbolKind → Bool
  | .classType .. => true
  | _ => false

def variableType : SymbolKind → Option Ty
  | .var type => type
  | _ => none

def returnType : SymbolKind → Option Ty
  | .function _ returnType _ => returnType
  | _ => none

def parameters : SymbolKind → List SymbolId
  | .function _ _ parameters => parameters
  | _ => []

def superclass : SymbolKind → Option ScopeId
  | .classType _ superclass => superclass
  | _ => none

def ownScope : SymbolKind → Option ScopeId
  | .function scope _ _ | .classType scope _ => some scope
  | .var _ => none

/-- A variable with its type changed. Other symbols stay as they are. -/
def withVariableType (type : Option Ty) : SymbolKind → SymbolKind
  | .var _ => .var type
  | kind => kind

/-- A function with its return type changed. Other symbols stay as they are. -/
def withReturnType (type : Option Ty) : SymbolKind → SymbolKind
  | .function scope _ parameters => .function scope type parameters
  | kind => kind

/-- A function with one more parameter, unless it has it already. Other symbols stay as they are. -/
def withParameter (parameter : SymbolId) : SymbolKind → SymbolKind
  | .function scope type parameters =>
      .function scope type
        (if parameter ∈ parameters then parameters else parameters ++ [parameter])
  | kind => kind

/-- A class with its superclass changed. Other symbols stay as they are. -/
def withSuperclass (superclass : ScopeId) : SymbolKind → SymbolKind
  | .classType scope _ => .classType scope (some superclass)
  | kind => kind

end SymbolKind

/-- A named declaration, the scope that owns it, and the node that declared it. -/
structure Symbol where
  id : SymbolId
  name : String
  kind : SymbolKind
  enclosing : ScopeId
  node : NodeId
  location : Location
  deriving DecidableEq, Repr

/-- Whether the symbol stands before a declaration at the given place, or beside it: by the start of
the location, and by the node's number where the starts agree. -/
def Symbol.notAfter (symbol : Symbol) (location : Location) (node : NodeId) : Bool :=
  symbol.location.startByte < location.startByte
    || symbol.location.startByte == location.startByte && symbol.node.index ≤ node.index

end ScriptSemantics
