import ScriptSemantics.Fault
import ScriptSemantics.Symbols.Basic

/-!
# Symbol tables

A table numbers its scopes and symbols in the order in which they were made. Scope zero is the
namespace. Declaring does not reject duplicates: whoever declares looks first.
-/
namespace ScriptSemantics

/-- Scopes and symbols by number. -/
structure SymbolTable where
  scopes : Array Scope
  symbols : Array Symbol
  deriving DecidableEq, Repr

namespace SymbolTable

def root : ScopeId := ⟨0⟩

def new (name : String) : SymbolTable :=
  ⟨#[⟨root, .namespaceScope name, none, [], []⟩], #[]⟩

def scope (table : SymbolTable) (id : ScopeId) : Except Fault Scope :=
  orDangling table.scopes[id.index]?

def symbol (table : SymbolTable) (id : SymbolId) : Except Fault Symbol :=
  orDangling table.symbols[id.index]?

def nextScope (table : SymbolTable) : ScopeId := ⟨table.scopes.size⟩

def nextSymbol (table : SymbolTable) : SymbolId := ⟨table.symbols.size⟩

/-- The table with one more scope, which nothing but its own link refers to. -/
def pushScope (table : SymbolTable) (kind : ScopeKind) (enclosing : ScopeId) : SymbolTable :=
  { table with scopes := table.scopes.push ⟨table.nextScope, kind, some enclosing, [], []⟩ }

def updateScope (table : SymbolTable) (id : ScopeId) (change : Scope → Scope) :
    Except Fault SymbolTable := do
  let scope ← table.scope id
  pure { table with scopes := table.scopes.setIfInBounds id.index (change scope) }

def updateKind (table : SymbolTable) (id : SymbolId) (change : SymbolKind → SymbolKind) :
    Except Fault SymbolTable := do
  let symbol ← table.symbol id
  pure { table with
    symbols := table.symbols.setIfInBounds id.index { symbol with kind := change symbol.kind } }

/-- Whether a listed symbol stays before a declaration at the given place. -/
def staysBefore (table : SymbolTable) (location : Location) (node : NodeId) (id : SymbolId) :
    Bool :=
  (table.symbols[id.index]?).any fun symbol => symbol.notAfter location node

/-- A list of symbols with one more, put before the first that stands after the given place. -/
def insertInOrder (table : SymbolTable) (location : Location) (node : NodeId) (id : SymbolId)
    (listed : List SymbolId) : List SymbolId :=
  let stays := table.staysBefore location node
  listed.takeWhile stays ++ id :: listed.dropWhile stays

/-- Adds a symbol to a scope. The scope lists its symbols by the start of their locations, then by
the number of the declaring node, then in order of declaration, so members that different passes
declare are listed in source order. -/
def addSymbol (table : SymbolTable) (scope : ScopeId) (name : String) (kind : SymbolKind)
    (node : NodeId) (location : Location) : Except Fault (SymbolId × SymbolTable) := do
  let id := table.nextSymbol
  let table := { table with symbols := table.symbols.push ⟨id, name, kind, scope, node, location⟩ }
  let table ← table.updateScope scope fun scope =>
    { scope with symbols := table.insertInOrder location node id scope.symbols }
  pure (id, table)

/-- Declares a variable without a type. -/
def declareVariable (table : SymbolTable) (scope : ScopeId) (name : String) (node : NodeId)
    (location : Location) : Except Fault (SymbolId × SymbolTable) :=
  table.addSymbol scope name (.var none) node location

/-- Declares a function without parameters, and its scope. The scope is there before the symbol is
listed, so it may itself be named as the scope to declare in. -/
def declareFunction (table : SymbolTable) (enclosing : ScopeId) (name : String) (node : NodeId)
    (location : Location) : Except Fault ((SymbolId × ScopeId) × SymbolTable) := do
  let own := table.nextScope
  let table := table.pushScope (.functionScope table.nextSymbol) enclosing
  let (symbol, table) ← table.addSymbol enclosing name (.function own none []) node location
  pure ((symbol, own), table)

/-- Declares a class without a superclass, and its scope. The scope is there before the symbol is
listed, so it may itself be named as the scope to declare in. -/
def declareClass (table : SymbolTable) (enclosing : ScopeId) (name : String) (node : NodeId)
    (location : Location) : Except Fault ((SymbolId × ScopeId) × SymbolTable) := do
  let own := table.nextScope
  let table := table.pushScope (.classScope table.nextSymbol) enclosing
  let (symbol, table) ← table.addSymbol enclosing name (.classType own none) node location
  pure ((symbol, own), table)

/-- Adds a block scope. It is there before it is listed, so it may be named as the scope around
itself. -/
def pushBlock (table : SymbolTable) (enclosing : ScopeId) :
    Except Fault (ScopeId × SymbolTable) := do
  let block := table.nextScope
  let table ← (table.pushScope .blockScope enclosing).updateScope enclosing fun scope =>
    { scope with blocks := scope.blocks ++ [block] }
  pure (block, table)

/-- Gives a variable a type or takes it away. -/
def setVariableType (table : SymbolTable) (id : SymbolId) (type : Option Ty) :
    Except Fault SymbolTable :=
  table.updateKind id (.withVariableType type)

def setReturnType (table : SymbolTable) (function : SymbolId) (type : Option Ty) :
    Except Fault SymbolTable :=
  table.updateKind function (.withReturnType type)

/-- Adds a parameter to a function that does not have it. -/
def pushParameter (table : SymbolTable) (function parameter : SymbolId) :
    Except Fault SymbolTable :=
  table.updateKind function (.withParameter parameter)

def setSuperclass (table : SymbolTable) (symbol : SymbolId) (superclass : ScopeId) :
    Except Fault SymbolTable :=
  table.updateKind symbol (.withSuperclass superclass)

end SymbolTable

end ScriptSemantics
