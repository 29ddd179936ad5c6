import ScriptSemantics.Symbols.Table
import ScriptSemantics.Types.Table

/-!
# Finding symbols

Finding searches one scope. Looking up searches a scope and then the scopes around it, innermost
first. Variables, functions and classes of one name do not hide one another. A function is found by
its name and by the exact types of its parameters; one that has an untyped parameter is never found.
-/
namespace ScriptSemantics

namespace SymbolTable

/-- The symbols declared directly in a scope, in source order. -/
def symbolsIn (table : SymbolTable) (scope : ScopeId) : Except Fault (List Symbol) := do
  (← table.scope scope).symbols.mapM table.symbol

/-- The class or function that a scope belongs to. -/
def owner (table : SymbolTable) (scope : ScopeId) : Except Fault (Option SymbolId) := do
  pure (← table.scope scope).kind.owner?

/-- Searches a scope and at most the given number of scopes around it, innermost first. -/
def searchWithin (table : SymbolTable) (find : ScopeId → Except Fault (Option SymbolId)) :
    Nat → ScopeId → Except Fault (Option SymbolId)
  | 0, _ => .error .endless
  | bound + 1, scope => do
    match ← find scope with
    | some symbol => pure (some symbol)
    | none =>
      match (← table.scope scope).enclosing with
      | some enclosing => table.searchWithin find bound enclosing
      | none => pure none

/-- Searches a scope and the scopes around it, innermost first. A chain longer than the table has
scopes repeats one of them. -/
def searchOutward (table : SymbolTable) (find : ScopeId → Except Fault (Option SymbolId))
    (scope : ScopeId) : Except Fault (Option SymbolId) :=
  table.searchWithin find (table.scopes.size + 1) scope

def findVariable (table : SymbolTable) (scope : ScopeId) (name : String) :
    Except Fault (Option SymbolId) := do
  let symbols ← table.symbolsIn scope
  pure ((symbols.find? fun s => s.name == name && s.kind.isVariable).map Symbol.id)

def findClass (table : SymbolTable) (scope : ScopeId) (name : String) :
    Except Fault (Option SymbolId) := do
  let symbols ← table.symbolsIn scope
  pure ((symbols.find? fun s => s.name == name && s.kind.isClass).map Symbol.id)

/-- The innermost variable of a name. -/
def lookupVariable (table : SymbolTable) (scope : ScopeId) (name : String) :
    Except Fault (Option SymbolId) :=
  table.searchOutward (fun scope => table.findVariable scope name) scope

/-- The innermost class of a name. -/
def lookupClass (table : SymbolTable) (scope : ScopeId) (name : String) :
    Except Fault (Option SymbolId) :=
  table.searchOutward (fun scope => table.findClass scope name) scope

/-- The types of variables in order, unless one of them has none. Those after it do not count. -/
def variableTypes (table : SymbolTable) : List SymbolId → Except Fault (Option (List Ty))
  | [] => pure (some [])
  | id :: ids => do
    match (← table.symbol id).kind.variableType with
    | none => pure none
    | some type => pure ((← table.variableTypes ids).map (type :: ·))

/-- The parameter types of a function, unless one of them is missing. Other symbols have none. -/
def parameterTypes (table : SymbolTable) (function : SymbolId) :
    Except Fault (Option (List Ty)) := do
  match (← table.symbol function).kind with
  | .function _ _ parameters => table.variableTypes parameters
  | _ => pure none

/-- Whether the parameters of a symbol are all typed and exactly of the given types. -/
def accepts (table : SymbolTable) (types : TypeTable) (arguments : List Ty) (function : SymbolId) :
    Except Fault Bool := do
  match ← table.parameterTypes function with
  | some declared => types.matchParameterTypes arguments declared
  | none => pure false

/-- The first function of a scope with a name and exactly these parameter types. -/
def findFunction (table : SymbolTable) (types : TypeTable) (scope : ScopeId) (name : String)
    (arguments : List Ty) : Except Fault (Option SymbolId) := do
  let named := (← table.symbolsIn scope).filter fun s => s.name == name
  let found ← named.findM? fun s => table.accepts types arguments s.id
  pure (found.map Symbol.id)

/-- The innermost function with a name and exactly these parameter types. -/
def lookupFunction (table : SymbolTable) (types : TypeTable) (scope : ScopeId) (name : String)
    (arguments : List Ty) : Except Fault (Option SymbolId) :=
  table.searchOutward (fun scope => table.findFunction types scope name arguments) scope

end SymbolTable

end ScriptSemantics
