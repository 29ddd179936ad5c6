import ScriptSemantics.Proofs.Registering

/-!
# Tables without repeated variables

A table is tidy when it is ordered and no scope has two variables of one name. It stays tidy
whatever is declared in a scope that exists, variables of a name that their scope has apart. This
needs no nesting of the scopes, which may come from any number of registrations.
-/
namespace ScriptSemantics

namespace SymbolKind

variable (kind : SymbolKind)

@[simp] theorem isVariable_withVariableType (type : Option Ty) :
    (kind.withVariableType type).isVariable = kind.isVariable := by cases kind <;> rfl

@[simp] theorem isVariable_withReturnType (type : Option Ty) :
    (kind.withReturnType type).isVariable = kind.isVariable := by cases kind <;> rfl

@[simp] theorem isVariable_withParameter (parameter : SymbolId) :
    (kind.withParameter parameter).isVariable = kind.isVariable := by cases kind <;> rfl

@[simp] theorem isVariable_withSuperclass (superclass : ScopeId) :
    (kind.withSuperclass superclass).isVariable = kind.isVariable := by cases kind <;> rfl

end SymbolKind

namespace SymbolTable

variable {table after : SymbolTable}

/-- Two variables of one scope and one name are the same. -/
def Apart (table : SymbolTable) : Prop :=
  ∀ (i j : Nat) (a b : Symbol), table.symbols[i]? = some a → table.symbols[j]? = some b →
    a.kind.isVariable = true → b.kind.isVariable = true → a.enclosing = b.enclosing →
    a.name = b.name → i = j

/-- The table has its namespace, lists its symbols in order, and keeps variables apart. -/
structure Tidy (table : SymbolTable) : Prop where
  ordered : table.Ordered
  rooted : root.index < table.scopes.size
  apart : table.Apart

theorem Tidy.new (name : String) : (SymbolTable.new name).Tidy where
  ordered := .new name
  rooted := Nat.zero_lt_one
  apart i j a b found := by simp [SymbolTable.new] at found

theorem Tidy.variables_nodup (tidy : table.Tidy) {scope : ScopeId}
    (known : scope.index < table.scopes.size) :
    ∃ symbols, table.symbolsIn scope = .ok symbols ∧
      ((symbols.filter fun symbol => symbol.kind.isVariable).map Symbol.name).Nodup := by
  obtain ⟨symbols, read, ids, found⟩ := tidy.ordered.find_symbolsIn known
  have listed (symbol : Symbol) (member : symbol ∈ symbols) : symbol.enclosing = scope := by
    have inListing : symbol.id ∈ table.listing scope := ids ▸ List.mem_map_of_mem member
    obtain ⟨other, foundOther, here⟩ := (tidy.ordered.mem_listing known).mp inListing
    rw [found symbol member, Option.some.injEq] at foundOther
    rw [foundOther, here]
  have once : (symbols.map Symbol.id).Nodup := ids ▸ tidy.ordered.listing_nodup scope
  refine ⟨symbols, read, ?_⟩
  refine List.Nodup.map_on ?_ (once.of_map.filter _)
  intro a inA b inB names
  obtain ⟨memberA, variableA⟩ := List.mem_filter.mp inA
  obtain ⟨memberB, variableB⟩ := List.mem_filter.mp inB
  have scopes : a.enclosing = b.enclosing := (listed a memberA).trans (listed b memberB).symm
  have same := tidy.apart _ _ a b (found a memberA) (found b memberB) variableA variableB scopes
    names
  have foundA := found a memberA
  rw [same, found b memberB, Option.some.injEq] at foundA
  exact foundA.symm

theorem withOwner_scopes_size {scopeKind : SymbolId → ScopeKind} {symbolKind : ScopeId → SymbolKind}
    (enclosing : ScopeId) (name : String) (node : NodeId) (location : Location) :
    (table.withOwner scopeKind symbolKind enclosing name node location).scopes.size =
      table.scopes.size + 1 := by
  rw [withOwner, withSymbol_scopes_size, pushScope, Array.size_push]

/-- One more symbol keeps variables apart, unless it is a variable of a name that its scope has. -/
theorem Apart.push (apart : table.Apart) {new : Symbol}
    (symbols : ∀ i, after.symbols[i]? =
      if i = table.symbols.size then some new else table.symbols[i]?)
    (free : new.kind.isVariable = true → ∀ (i : Nat) (old : Symbol), table.symbols[i]? = some old →
      old.kind.isVariable = true → old.enclosing = new.enclosing → old.name ≠ new.name) :
    after.Apart := by
  intro i j a b foundA foundB variableA variableB scopes names
  rw [symbols] at foundA foundB
  split at foundA <;> split at foundB
  next lastA lastB => rw [lastA, lastB]
  next =>
    cases foundA
    exact absurd names.symm (free variableA j b foundB variableB scopes.symm)
  next =>
    cases foundB
    exact absurd names (free variableB i a foundA variableA scopes)
  next => exact apart i j a b foundA foundB variableA variableB scopes names

theorem Tidy.withOwner (tidy : table.Tidy) {enclosing : ScopeId}
    (known : enclosing.index < table.scopes.size) {scopeKind : SymbolId → ScopeKind}
    {symbolKind : ScopeId → SymbolKind} (name : String) (node : NodeId) (location : Location)
    (sort : ∀ scope, (symbolKind scope).isVariable = false) :
    (table.withOwner scopeKind symbolKind enclosing name node location).Tidy where
  ordered := tidy.ordered.withOwner name node location known.le
  rooted := by
    have rooted := tidy.rooted
    rw [withOwner_scopes_size]
    omega
  apart := tidy.apart.push (withOwner_symbols name node location) fun isVariable => by
    simp [sort] at isVariable

theorem known_of_findVariable {scope : ScopeId} {name : String} {found : Option SymbolId}
    (searched : table.findVariable scope name = .ok found) :
    scope.index < table.scopes.size := by
  by_contra unknown
  simp [findVariable, symbolsIn, SymbolTable.scope, unknown] at searched

/-- A variable may be declared in a scope that has none of its name. -/
theorem Tidy.declareVariable (tidy : table.Tidy) {scope : ScopeId} {name : String} {node : NodeId}
    {location : Location} {symbol : SymbolId} (free : table.findVariable scope name = .ok none)
    (declared : table.declareVariable scope name node location = .ok (symbol, after)) :
    after.Tidy := by
  have known := known_of_findVariable free
  rw [SymbolTable.declareVariable, addSymbol_eq_ok known] at declared
  cases declared
  refine ⟨tidy.ordered.withSymbol _ _ _ _ _ known, ?_,
    tidy.apart.push (withSymbol_symbols scope name (.var none) node location) ?_⟩
  · rw [withSymbol_scopes_size]
    exact tidy.rooted
  intro _ i old found isVariable here named
  obtain ⟨answer, searched, hasName⟩ := tidy.ordered.findVariable_isSome_iff known name
  rw [free, Except.ok.injEq] at searched
  rw [← searched] at hasName
  exact absurd (hasName.mpr ⟨i, old, found, here, named, isVariable⟩) (by simp)

theorem withBlock_scopes_size (enclosing : ScopeId) :
    (table.withBlock enclosing).scopes.size = table.scopes.size + 1 := by
  simp only [withBlock, pushScope, Array.size_modify, Array.size_push]

theorem Tidy.withBlock (tidy : table.Tidy) (enclosing : ScopeId) :
    (table.withBlock enclosing).Tidy where
  ordered := tidy.ordered.withBlock _
  rooted := by
    have rooted := tidy.rooted
    rw [withBlock_scopes_size]
    omega
  apart := tidy.apart

/-- Completing a declaration makes no variable of what was none. -/
theorem Tidy.updateKind (tidy : table.Tidy) {id : SymbolId} {change : SymbolKind → SymbolKind}
    (sort : ∀ kind, (change kind).isVariable = kind.isVariable)
    (updated : table.updateKind id change = .ok after) : after.Tidy := by
  rw [updateKind_eq_ok (updateKind_known updated)] at updated
  cases updated
  have back {i : Nat} {x : Symbol} (found : (table.withKind id change).symbols[i]? = some x) :
      ∃ old, table.symbols[i]? = some old ∧ x.kind.isVariable = old.kind.isVariable ∧
        x.enclosing = old.enclosing ∧ x.name = old.name := by
    rw [withKind_symbols, Option.map_eq_some_iff] at found
    obtain ⟨old, foundOld, rfl⟩ := found
    refine ⟨old, foundOld, ?_⟩
    split
    · exact ⟨sort old.kind, rfl, rfl⟩
    · exact ⟨rfl, rfl, rfl⟩
  refine ⟨tidy.ordered.withKind id change, tidy.rooted, ?_⟩
  intro i j a b foundA foundB variableA variableB scopes names
  obtain ⟨x, foundX, sortX, scopeX, nameX⟩ := back foundA
  obtain ⟨y, foundY, sortY, scopeY, nameY⟩ := back foundB
  exact tidy.apart i j x y foundX foundY (sortX ▸ variableA) (sortY ▸ variableB)
    (scopeX ▸ scopeY ▸ scopes) (nameX ▸ nameY ▸ names)

end SymbolTable

end ScriptSemantics
