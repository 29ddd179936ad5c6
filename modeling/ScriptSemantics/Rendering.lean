import ScriptSemantics.Resolution

/-!
# Types, signatures and the scope outline as text

Types are shown in the syntax of the language. The outline shows the scopes of a resolution as an
indented tree: each scope with its symbols in source order, then the blocks directly in it.
-/
namespace ScriptSemantics

namespace Resolution

/-- Texts with a comma and a blank between them. -/
def commaSeparated (texts : List String) : String := ", ".intercalate texts

/-- The text of a class type: the name of the class that owns the scope. -/
def classText (r : Resolution) (scope : ScopeId) : Except Fault String := do
  match ← r.table.owner scope with
  | some symbol => pure (← r.table.symbol symbol).name
  | none => pure "<class>"

/-- The text of a type, unfolding function types no deeper than the bound. -/
def typeTextWithin (r : Resolution) : Nat → Ty → Except Fault String
  | _, .primitive primitive => pure primitive.keyword
  | _, .void => pure "void"
  | _, .classType scope => r.classText scope
  | 0, .functionType _ => .error .endless
  | depth + 1, .functionType id => do
    let signature ← r.types.signature id
    let parameters ← signature.parameterTypes.mapM (r.typeTextWithin depth)
    let result ← r.typeTextWithin depth signature.returnType
    pure ("function(" ++ commaSeparated parameters ++ "): " ++ result)

/-- The text of a type. A path of function types longer than their table repeats one of them. -/
def typeText (r : Resolution) (type : Ty) : Except Fault String :=
  r.typeTextWithin (r.types.functions.size + 1) type

/-- The text of a type, or a question mark if there is none. -/
def optionalTypeText (r : Resolution) : Option Ty → Except Fault String
  | some type => r.typeText type
  | none => pure "?"

/-- The name of a function with the types of its parameters. -/
def signatureText (r : Resolution) (function : SymbolId) : Except Fault String := do
  let symbol ← r.table.symbol function
  let parameters ← symbol.kind.parameters.mapM fun parameter => do
    r.optionalTypeText (← r.table.symbol parameter).kind.variableType
  pure (symbol.name ++ "(" ++ commaSeparated parameters ++ ")")

/-- What a line of the outline shows. -/
inductive OutlineItem where
  | scope (id : ScopeId)
  | var (id : SymbolId)
  deriving DecidableEq, Repr

/-- A line of the outline with the number of steps that it is indented by. -/
structure OutlineLine where
  indent : Nat
  item : OutlineItem
  deriving DecidableEq, Repr

/-- The outline of a scope, following own scopes and blocks no deeper than the bound. -/
def outlineWithin (table : SymbolTable) : Nat → Nat → ScopeId → Except Fault (List OutlineLine)
  | 0, _, _ => .error .endless
  | depth + 1, indent, id => do
    let scope ← table.scope id
    let symbols ← table.symbolsIn id
    let members ← symbols.mapM fun symbol =>
      match symbol.kind.ownScope with
      | some own => outlineWithin table depth (indent + 1) own
      | none => pure [⟨indent + 1, .var symbol.id⟩]
    let blocks ← scope.blocks.mapM (outlineWithin table depth (indent + 1))
    pure (⟨indent, .scope id⟩ :: members.flatten ++ blocks.flatten)

/-- The outline of all scopes from the namespace down. A path longer than the table has scopes
repeats one of them. -/
def outline (r : Resolution) : Except Fault (List OutlineLine) :=
  outlineWithin r.table (r.table.scopes.size + 1) 0 SymbolTable.root

/-- What a scope is, on one line. -/
def scopeText (r : Resolution) (id : ScopeId) : Except Fault String := do
  match (← r.table.scope id).kind with
  | .namespaceScope name => pure ("namespace " ++ name)
  | .blockScope => pure "block"
  | .classScope id =>
    let symbol ← r.table.symbol id
    match symbol.kind.superclass with
    | some superclass => pure ("class " ++ symbol.name ++ " extends " ++ (← r.classText superclass))
    | none => pure ("class " ++ symbol.name)
  | .functionScope id =>
    let signature ← r.signatureText id
    match (← r.table.symbol id).kind.returnType with
    | some type => pure ("function " ++ signature ++ ": " ++ (← r.typeText type))
    | none => pure ("function " ++ signature)

/-- A variable with its type, on one line. -/
def variableText (r : Resolution) (id : SymbolId) : Except Fault String := do
  let symbol ← r.table.symbol id
  pure ("variable " ++ symbol.name ++ ": " ++ (← r.optionalTypeText symbol.kind.variableType))

/-- A line with two blanks for every step of indentation and its end. -/
def lineText (r : Resolution) (line : OutlineLine) : Except Fault String := do
  let text ← match line.item with
    | .scope id => r.scopeText id
    | .var id => r.variableText id
  pure (String.ofList (List.replicate (2 * line.indent) ' ') ++ text ++ "\n")

def outlineText (r : Resolution) : Except Fault String := do
  pure (String.join (← (← r.outline).mapM r.lineText))

end Resolution

end ScriptSemantics
