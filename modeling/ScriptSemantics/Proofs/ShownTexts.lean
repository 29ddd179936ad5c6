import ScriptSemantics.Proofs.Bindings
import ScriptSemantics.Rendering

/-!
# What the texts of a resolution say

Relations between types, functions, scopes and lines and the texts that show them. They name no
function that writes, so they say what is to be read. What is written stands in these relations,
whatever the resolution.
-/
namespace ScriptSemantics

theorem forall₂_of_mapM {ε α β : Type} {f : α → Except ε β} {shows : α → β → Prop} {items : List α}
    {results : List β} (read : items.mapM f = .ok results)
    (each : ∀ a ∈ items, ∀ b, f a = .ok b → shows a b) : List.Forall₂ shows items results := by
  induction items generalizing results with
  | nil =>
    cases read
    exact .nil
  | cons a items ih =>
    rw [List.mapM_cons] at read
    obtain ⟨b, first, rest⟩ := bind_eq_ok_iff.mp read
    obtain ⟨others, readOthers, done⟩ := bind_eq_ok_iff.mp rest
    cases done
    exact .cons (each a (by simp) b first) (ih readOthers fun a member => each a (by simp [member]))

namespace Resolution

variable {r : Resolution}

/-- The name of the class that a scope belongs to. -/
inductive ClassReads (r : Resolution) (scope : ScopeId) : String → Prop where
  | named {kind : ScopeKind} {owner : SymbolId} {symbol : Symbol}
      (isScope : r.scopeKind scope = some kind) (owns : kind.owner? = some owner)
      (declared : r.table.symbols[owner.index]? = some symbol) : ClassReads r scope symbol.name
  | ownerless {kind : ScopeKind} (isScope : r.scopeKind scope = some kind)
      (none : kind.owner? = none) : ClassReads r scope "<class>"

/-- A type in the syntax of the language. -/
inductive TypeReads (r : Resolution) : Ty → String → Prop where
  | primitive (primitive : PrimitiveType) : TypeReads r (.primitive primitive) primitive.keyword
  | void : TypeReads r .void "void"
  | class {scope : ScopeId} {text : String} (named : r.ClassReads scope text) :
      TypeReads r (.classType scope) text
  | function {id : FunctionTypeId} {signature : Signature} {texts : List String} {result : String}
      (known : r.types.functions[id.index]? = some signature)
      (parameters : List.Forall₂ (TypeReads r) signature.parameterTypes texts)
      (returns : TypeReads r signature.returnType result) :
      TypeReads r (.functionType id) ("function(" ++ ", ".intercalate texts ++ "): " ++ result)

/-- The type of a variable, a question mark where it has none. -/
inductive VariableTypeReads (r : Resolution) (id : SymbolId) : String → Prop where
  | typed {symbol : Symbol} {type : Ty} {text : String}
      (declared : r.table.symbols[id.index]? = some symbol)
      (typed : symbol.kind.variableType = some type) (reads : r.TypeReads type text) :
      VariableTypeReads r id text
  | untyped {symbol : Symbol} (declared : r.table.symbols[id.index]? = some symbol)
      (untyped : symbol.kind.variableType = none) : VariableTypeReads r id "?"

/-- The name of a function with the types of its parameters in parentheses. -/
inductive SignatureReads (r : Resolution) (id : SymbolId) : String → Prop where
  | intro {symbol : Symbol} {texts : List String}
      (declared : r.table.symbols[id.index]? = some symbol)
      (parameters : List.Forall₂ r.VariableTypeReads symbol.kind.parameters texts) :
      SignatureReads r id (symbol.name ++ "(" ++ ", ".intercalate texts ++ ")")

/-- What a scope is, with the superclass or the return type where there is one. -/
inductive ScopeReads (r : Resolution) (id : ScopeId) : String → Prop where
  | namespace {name : String} (kind : r.scopeKind id = some (.namespaceScope name)) :
      ScopeReads r id ("namespace " ++ name)
  | block (kind : r.scopeKind id = some .blockScope) : ScopeReads r id "block"
  | class {owner : SymbolId} {symbol : Symbol} (kind : r.scopeKind id = some (.classScope owner))
      (declared : r.table.symbols[owner.index]? = some symbol)
      (base : symbol.kind.superclass = none) : ScopeReads r id ("class " ++ symbol.name)
  | subclass {owner : SymbolId} {symbol : Symbol} {superclass : ScopeId} {text : String}
      (kind : r.scopeKind id = some (.classScope owner))
      (declared : r.table.symbols[owner.index]? = some symbol)
      (derived : symbol.kind.superclass = some superclass) (named : r.ClassReads superclass text) :
      ScopeReads r id ("class " ++ symbol.name ++ " extends " ++ text)
  | function {owner : SymbolId} {symbol : Symbol} {signature : String}
      (kind : r.scopeKind id = some (.functionScope owner))
      (declared : r.table.symbols[owner.index]? = some symbol)
      (reads : r.SignatureReads owner signature) (untyped : symbol.kind.returnType = none) :
      ScopeReads r id ("function " ++ signature)
  | typedFunction {owner : SymbolId} {symbol : Symbol} {signature result : String} {type : Ty}
      (kind : r.scopeKind id = some (.functionScope owner))
      (declared : r.table.symbols[owner.index]? = some symbol)
      (reads : r.SignatureReads owner signature) (typed : symbol.kind.returnType = some type)
      (returns : r.TypeReads type result) :
      ScopeReads r id ("function " ++ signature ++ ": " ++ result)

/-- What a line shows: a scope, or a variable with its name and its type. -/
inductive ItemReads (r : Resolution) : OutlineItem → String → Prop where
  | scope {id : ScopeId} {text : String} (reads : r.ScopeReads id text) :
      ItemReads r (.scope id) text
  | var {id : SymbolId} {symbol : Symbol} {type : String}
      (declared : r.table.symbols[id.index]? = some symbol) (reads : r.VariableTypeReads id type) :
      ItemReads r (.var id) ("variable " ++ symbol.name ++ ": " ++ type)

/-- A line starts with two blanks for every step that it is indented by, and it ends. -/
def LineReads (r : Resolution) (line : OutlineLine) (text : String) : Prop :=
  ∃ shown, r.ItemReads line.item shown ∧
    text = String.ofList (List.replicate (2 * line.indent) ' ') ++ shown ++ "\n"

theorem scopeKind_eq_some {id : ScopeId} {scope : Scope} (found : r.table.scope id = .ok scope) :
    r.scopeKind id = some scope.kind := by
  rw [scopeKind, orDangling_eq_ok_iff.mp found]
  rfl

theorem classText_reads {scope : ScopeId} {text : String} (read : r.classText scope = .ok text) :
    r.ClassReads scope text := by
  obtain ⟨owner, readOwner, rest⟩ := bind_eq_ok_iff.mp read
  obtain ⟨found, isScope, done⟩ := bind_eq_ok_iff.mp readOwner
  cases done
  cases owns : found.kind.owner? with
  | none =>
    rw [owns] at rest
    cases rest
    exact .ownerless (scopeKind_eq_some isScope) owns
  | some owner =>
    rw [owns] at rest
    obtain ⟨symbol, declared, done⟩ := bind_eq_ok_iff.mp rest
    cases done
    exact .named (scopeKind_eq_some isScope) owns (orDangling_eq_ok_iff.mp declared)

theorem typeTextWithin_reads {depth : Nat} {type : Ty} {text : String}
    (read : r.typeTextWithin depth type = .ok text) : r.TypeReads type text := by
  induction depth generalizing type text with
  | zero =>
    cases type with
    | classType scope => exact .class (classText_reads (by simpa [typeTextWithin] using read))
    | functionType id => cases read
    | primitive p =>
      cases read
      exact .primitive p
    | void =>
      cases read
      exact .void
  | succ depth ih =>
    cases type with
    | classType scope => exact .class (classText_reads (by simpa [typeTextWithin] using read))
    | primitive p =>
      cases read
      exact .primitive p
    | void =>
      cases read
      exact .void
    | functionType id =>
      obtain ⟨signature, known, rest⟩ := bind_eq_ok_iff.mp read
      obtain ⟨texts, parameters, rest⟩ := bind_eq_ok_iff.mp rest
      obtain ⟨result, returns, done⟩ := bind_eq_ok_iff.mp rest
      cases done
      exact .function (orDangling_eq_ok_iff.mp known)
        (forall₂_of_mapM parameters fun _ _ _ read => ih read) (ih returns)

theorem typeText_reads {type : Ty} {text : String} (read : r.typeText type = .ok text) :
    r.TypeReads type text :=
  typeTextWithin_reads read

theorem variableType_reads {id : SymbolId} {symbol : Symbol} {text : String}
    (declared : r.table.symbols[id.index]? = some symbol)
    (read : r.optionalTypeText symbol.kind.variableType = .ok text) :
    r.VariableTypeReads id text := by
  cases type : symbol.kind.variableType with
  | none =>
    rw [type] at read
    cases read
    exact .untyped declared type
  | some found =>
    rw [type] at read
    exact .typed declared type (typeText_reads read)

theorem signatureText_reads {function : SymbolId} {text : String}
    (read : r.signatureText function = .ok text) : r.SignatureReads function text := by
  obtain ⟨symbol, declared, rest⟩ := bind_eq_ok_iff.mp read
  obtain ⟨texts, parameters, done⟩ := bind_eq_ok_iff.mp rest
  cases done
  refine .intro (orDangling_eq_ok_iff.mp declared) (forall₂_of_mapM parameters ?_)
  intro id _ text read
  obtain ⟨parameter, found, shown⟩ := bind_eq_ok_iff.mp read
  exact variableType_reads (orDangling_eq_ok_iff.mp found) shown

theorem scopeText_reads {id : ScopeId} {text : String} (read : r.scopeText id = .ok text) :
    r.ScopeReads id text := by
  obtain ⟨scope, found, rest⟩ := bind_eq_ok_iff.mp read
  have isKind := scopeKind_eq_some found
  cases kind : scope.kind with
  | namespaceScope name =>
    rw [kind] at isKind rest
    cases rest
    exact .namespace isKind
  | blockScope =>
    rw [kind] at isKind rest
    cases rest
    exact .block isKind
  | classScope owner =>
    rw [kind] at isKind rest
    obtain ⟨symbol, declared, rest⟩ := bind_eq_ok_iff.mp rest
    have declared := orDangling_eq_ok_iff.mp declared
    cases derived : symbol.kind.superclass with
    | none =>
      rw [derived] at rest
      cases rest
      exact .class isKind declared derived
    | some superclass =>
      rw [derived] at rest
      obtain ⟨named, readNamed, done⟩ := bind_eq_ok_iff.mp rest
      cases done
      exact .subclass isKind declared derived (classText_reads readNamed)
  | functionScope owner =>
    rw [kind] at isKind rest
    obtain ⟨signature, readSignature, rest⟩ := bind_eq_ok_iff.mp rest
    obtain ⟨symbol, declared, rest⟩ := bind_eq_ok_iff.mp rest
    have declared := orDangling_eq_ok_iff.mp declared
    have reads := signatureText_reads readSignature
    cases typed : symbol.kind.returnType with
    | none =>
      rw [typed] at rest
      cases rest
      exact .function isKind declared reads typed
    | some type =>
      rw [typed] at rest
      obtain ⟨result, readResult, done⟩ := bind_eq_ok_iff.mp rest
      cases done
      exact .typedFunction isKind declared reads typed (typeText_reads readResult)

theorem lineText_reads {line : OutlineLine} {text : String} (read : r.lineText line = .ok text) :
    r.LineReads line text := by
  obtain ⟨indent, item⟩ := line
  cases item with
  | scope id =>
    obtain ⟨shown, readShown, done⟩ := bind_eq_ok_iff.mp read
    cases done
    exact ⟨shown, .scope (scopeText_reads readShown), rfl⟩
  | var id =>
    obtain ⟨shown, readShown, done⟩ := bind_eq_ok_iff.mp read
    cases done
    obtain ⟨symbol, found, rest⟩ := bind_eq_ok_iff.mp readShown
    obtain ⟨type, readType, done⟩ := bind_eq_ok_iff.mp rest
    cases done
    have declared := orDangling_eq_ok_iff.mp found
    exact ⟨_, .var declared (variableType_reads declared readType), rfl⟩

end Resolution

end ScriptSemantics
