import Mathlib.Data.List.TakeWhile
import ScriptSemantics.Proofs.ReachedTables

/-!
# What a declaration changes

A declaration puts one symbol into the listing of one scope. Searches for symbols of another sort do
not see it. A lookup of a variable sees a new variable only if it comes to its scope and finds no
variable of the name there that stands before the new one.
-/
namespace ScriptSemantics

section Insertion

variable {α : Type} {before rest : List α} {new : α}

theorem find?_insert_of_not {p : α → Bool} (unfit : p new = false) :
    (before ++ new :: rest).find? p = (before ++ rest).find? p := by
  simp [List.find?_append, unfit]

theorem find?_insert_of_before {p : α → Bool} (early : ∃ a ∈ before, p a = true) :
    (before ++ new :: rest).find? p = (before ++ rest).find? p := by
  obtain ⟨a, found⟩ := Option.isSome_iff_exists.mp (List.find?_isSome.mpr early)
  simp [List.find?_append, found]

theorem find?_insert_first {p : α → Bool} (fits : p new = true) (first : ∀ a ∈ before, p a = false) :
    (before ++ new :: rest).find? p = some new := by
  have none : before.find? p = none := List.find?_eq_none.mpr fun a member => by simp [first a member]
  simp [List.find?_append, none, fits]

theorem findM?_insert_of_not {f : α → Except Fault Bool} (unfit : f new = .ok false) :
    (before ++ new :: rest).findM? f = (before ++ rest).findM? f := by
  induction before with
  | nil => simp [List.findM?, unfit]
  | cons a before ih => simp only [List.cons_append, List.findM?, ih]

theorem findM?_congr {f g : α → Except Fault Bool} {items : List α}
    (same : ∀ a ∈ items, f a = g a) : items.findM? f = items.findM? g := by
  induction items with
  | nil => rfl
  | cons a items ih =>
    simp only [List.findM?, same a (by simp), ih fun b member => same b (by simp [member])]

/-- In a list where nothing that stays comes after something that goes, all goes from the first that
does. -/
theorem not_of_mem_dropWhile {stays : α → Bool} {items : List α}
    (closed : items.Pairwise fun a b => stays b = true → stays a = true) {a : α}
    (member : a ∈ items.dropWhile stays) : stays a = false := by
  induction items with
  | nil => simp at member
  | cons b items ih =>
    obtain ⟨first, closed⟩ := List.pairwise_cons.mp closed
    by_cases here : stays b = true
    · rw [List.dropWhile_cons_of_pos here] at member
      exact ih closed member
    · rw [List.dropWhile_cons_of_neg here] at member
      rcases List.mem_cons.mp member with rfl | later
      · simpa using here
      · simpa using mt (first a later) here

end Insertion

namespace SymbolTable

open Relation (ReflTransGen TransGen)

variable {table after : SymbolTable} {new : Symbol}

/-- A table has the scopes and symbols of another and one more symbol, which its scope lists after
those that stand before it or beside it. -/
structure Declares (after table : SymbolTable) (new : Symbol) : Prop where
  keeps : after.KeepsLinks table
  kept : ∀ i : Nat, i < table.symbols.size → after.symbols[i]? = table.symbols[i]?
  added : after.symbols[new.id.index]? = some new
  others : ∀ scope : ScopeId, scope.index < table.scopes.size → scope ≠ new.enclosing →
    after.symbolsIn scope = table.symbolsIn scope
  here : ∃ before rest, table.symbolsIn new.enclosing = .ok (before ++ rest) ∧
    after.symbolsIn new.enclosing = .ok (before ++ new :: rest) ∧
    (∀ symbol ∈ before, symbol.place ≤ new.place) ∧ ∀ symbol ∈ rest, new.place < symbol.place

section WithSymbol

variable (scope : ScopeId) (name : String) (kind : SymbolKind) (node : NodeId) (location : Location)

theorem withSymbol_listing_other {other : ScopeId} (different : other ≠ scope) :
    (table.withSymbol scope name kind node location).listing other = table.listing other := by
  have apart : scope.index ≠ other.index := fun same => different (congrArg ScopeId.mk same.symm)
  simp [listing, withSymbol, Array.getElem?_modify, apart]

theorem withSymbol_listing (known : scope.index < table.scopes.size) :
    (table.withSymbol scope name kind node location).listing scope =
      (table.withSymbol scope name kind node location).insertInOrder location node
        table.nextSymbol (table.listing scope) := by
  obtain ⟨s, found⟩ := scope_exists known
  simp [listing, withSymbol, Array.getElem?_modify, found]
  rfl

theorem withSymbol_symbolsOf {ids : List SymbolId}
    (old : ∀ id ∈ ids, id.index < table.symbols.size) :
    (table.withSymbol scope name kind node location).symbolsOf ids = table.symbolsOf ids :=
  symbolsOf_congr fun id member => by
    rw [withSymbol_symbols, if_neg (Nat.ne_of_lt (old id member))]

theorem withSymbol_staysBefore_iff {id : SymbolId} {symbol : Symbol}
    (found : table.symbols[id.index]? = some symbol) :
    (table.withSymbol scope name kind node location).staysBefore location node id = true ↔
      symbol.place ≤ toLex (location.startByte, node.index) := by
  have bound := (Array.getElem?_eq_some_iff.mp found).1
  simp [staysBefore, withSymbol_symbols, Nat.ne_of_lt bound, found, Symbol.notAfter_iff]

theorem Ordered.listing_lt (ordered : table.Ordered) {id : SymbolId}
    (member : id ∈ table.listing scope) : id.index < table.symbols.size := by
  unfold listing at member
  cases found : table.scopes[scope.index]? with
  | none => simp [found] at member
  | some s => exact ordered.listed_lt found (by simpa [found] using member)

/-- What stays before the new symbol comes first in the listing. -/
theorem Ordered.staysBefore_closed (ordered : table.Ordered) :
    (table.listing scope).Pairwise fun a b =>
      (table.withSymbol scope name kind node location).staysBefore location node b = true →
        (table.withSymbol scope name kind node location).staysBefore location node a = true := by
  refine (ordered.listing_sorted scope).imp_of_mem fun {a b} inA inB le low => ?_
  have foundA := Array.getElem?_eq_getElem (ordered.listing_lt scope inA)
  have foundB := Array.getElem?_eq_getElem (ordered.listing_lt scope inB)
  rw [withSymbol_staysBefore_iff _ _ _ _ _ foundB] at low
  rw [withSymbol_staysBefore_iff _ _ _ _ _ foundA]
  refine le_trans ?_ low
  simpa [place, foundA, foundB] using le

/-- The new symbol stands after those that stay before it and before the others. -/
theorem Ordered.withSymbol_symbolsIn (ordered : table.Ordered)
    (known : scope.index < table.scopes.size) : ∃ before rest,
    table.symbolsIn scope = .ok (before ++ rest) ∧
    (table.withSymbol scope name kind node location).symbolsIn scope =
      .ok (before ++ ⟨table.nextSymbol, name, kind, scope, node, location⟩ :: rest) ∧
    (∀ symbol ∈ before, symbol.place ≤ toLex (location.startByte, node.index)) ∧
    ∀ symbol ∈ rest, toLex (location.startByte, node.index) < symbol.place := by
  let stays := (table.withSymbol scope name kind node location).staysBefore location node
  have early := (List.takeWhile_sublist stays (l := table.listing scope)).subset
  have late := (List.dropWhile_sublist stays (l := table.listing scope)).subset
  refine ⟨table.symbolsOf ((table.listing scope).takeWhile stays),
    table.symbolsOf ((table.listing scope).dropWhile stays), ?_, ?_, fun symbol member => ?_,
    fun symbol member => ?_⟩
  · rw [ordered.symbolsIn_eq known, ← symbolsOf_append, List.takeWhile_append_dropWhile]
  · have ordered' := ordered.withSymbol scope name kind node location known
    have known' : scope.index < (table.withSymbol scope name kind node location).scopes.size := by
      rwa [withSymbol_scopes_size]
    have new : (table.withSymbol scope name kind node location).symbols[
        table.nextSymbol.index]? = some ⟨table.nextSymbol, name, kind, scope, node, location⟩ :=
      (withSymbol_symbols _ _ _ _ _ _).trans (if_pos rfl)
    have old {ids : List SymbolId} (part : ids ⊆ table.listing scope) :=
      @withSymbol_symbolsOf table scope name kind node location ids
        fun id member => ordered.listing_lt scope (part member)
    rw [ordered'.symbolsIn_eq known', withSymbol_listing _ _ _ _ _ known, insertInOrder,
      symbolsOf_append, symbolsOf_cons new, old early, old late]
  · obtain ⟨id, inside, found⟩ := List.mem_filterMap.mp member
    exact (withSymbol_staysBefore_iff _ _ _ _ _ found).mp (List.mem_takeWhile_imp inside)
  · obtain ⟨id, inside, found⟩ := List.mem_filterMap.mp member
    have goes : stays id = false :=
      not_of_mem_dropWhile (ordered.staysBefore_closed scope name kind node location) inside
    refine not_le.mp fun low => ?_
    rw [← withSymbol_staysBefore_iff scope name kind node location found] at low
    exact Bool.false_ne_true (goes.symm.trans low)

theorem Ordered.withSymbol_declares (ordered : table.Ordered)
    (known : scope.index < table.scopes.size) :
    (table.withSymbol scope name kind node location).Declares table
      ⟨table.nextSymbol, name, kind, scope, node, location⟩ where
  keeps i s found := by
    obtain ⟨t, foundToo, -, around, -⟩ :=
      (@withSymbol_sameFrames table scope name kind node location).symm.exists_scope found
    exact ⟨t, foundToo, around⟩
  kept i bound := by rw [withSymbol_symbols, if_neg (Nat.ne_of_lt bound)]
  added := (withSymbol_symbols _ _ _ _ _ _).trans (if_pos rfl)
  others other knownOther different := by
    have ordered' := ordered.withSymbol scope name kind node location known
    have known' : other.index < (table.withSymbol scope name kind node location).scopes.size := by
      rwa [withSymbol_scopes_size]
    rw [ordered.symbolsIn_eq knownOther, ordered'.symbolsIn_eq known',
      withSymbol_listing_other _ _ _ _ _ different,
      withSymbol_symbolsOf _ _ _ _ _ fun id member => ordered.listing_lt other member]
  here := ordered.withSymbol_symbolsIn scope name kind node location known

end WithSymbol

theorem pushScope_symbolsIn (kind : ScopeKind) (enclosing : ScopeId) {scope : ScopeId}
    (known : scope.index < table.scopes.size) :
    (table.pushScope kind enclosing).symbolsIn scope = table.symbolsIn scope := by
  have same : (table.pushScope kind enclosing).scope scope = table.scope scope := by
    rw [SymbolTable.scope, pushScope_scopes, if_neg (Nat.ne_of_lt known)]
    rfl
  unfold symbolsIn
  rw [same]
  rfl

theorem Ordered.withOwner_declares (ordered : table.Ordered) {enclosing : ScopeId}
    (known : enclosing.index < table.scopes.size) (scopeKind : SymbolId → ScopeKind)
    (symbolKind : ScopeId → SymbolKind) (name : String) (node : NodeId) (location : Location) :
    (table.withOwner scopeKind symbolKind enclosing name node location).Declares table
      ⟨table.nextSymbol, name, symbolKind table.nextScope, enclosing, node, location⟩ := by
  have grown {scope : ScopeId} (knownScope : scope.index < table.scopes.size) :
      scope.index < (table.pushScope (scopeKind table.nextSymbol) enclosing).scopes.size := by
    rw [pushScope_scopes_size]
    omega
  have declares := (ordered.pushScope (scopeKind table.nextSymbol) enclosing).withSymbol_declares
    enclosing name (symbolKind table.nextScope) node location (grown known)
  refine ⟨fun i s found => ?_, declares.kept, declares.added,
    fun scope knownScope different => ?_, ?_⟩
  · obtain ⟨t, foundToo, -, around⟩ := @withOwner_old_scope table scopeKind symbolKind enclosing
      name node location _ _ found
    exact ⟨t, foundToo, around⟩
  · exact (declares.others scope (grown knownScope) different).trans
      (pushScope_symbolsIn _ _ knownScope)
  · obtain ⟨before, rest, read, rest'⟩ := declares.here
    exact ⟨before, rest, (pushScope_symbolsIn _ _ known).symm.trans read, rest'⟩

theorem findVariable_eq_map (scope : ScopeId) (name : String) : table.findVariable scope name =
    (fun symbols => (symbols.find? (isVariableOf name)).map Symbol.id) <$> table.symbolsIn scope := by
  unfold findVariable
  cases table.symbolsIn scope <;> rfl

theorem findClass_eq_map (scope : ScopeId) (name : String) : table.findClass scope name =
    (fun symbols => (symbols.find? (isClassOf name)).map Symbol.id) <$> table.symbolsIn scope := by
  unfold findClass
  cases table.symbolsIn scope <;> rfl

theorem accepts_of_not_function {id : SymbolId} {symbol : Symbol}
    (found : table.symbols[id.index]? = some symbol)
    (sort : ∀ own type parameters, symbol.kind ≠ .function own type parameters) (types : TypeTable)
    (arguments : List Ty) : table.accepts types arguments id = .ok false := by
  simp only [accepts, parameterTypes, SymbolTable.symbol, found, orDangling_some, ok_bind]
  cases kind : symbol.kind with
  | function own type parameters => exact absurd kind (sort own type parameters)
  | _ => rfl

section Declares

variable (declares : after.Declares table new)
include declares

/-- A scope lists what it listed, and perhaps the new symbol. -/
theorem Declares.symbolsIn_cases (ordered : table.Ordered) {scope : ScopeId}
    (known : scope.index < table.scopes.size) : ∃ before rest,
    table.symbolsIn scope = .ok (before ++ rest) ∧
      (after.symbolsIn scope = .ok (before ++ rest) ∨
        after.symbolsIn scope = .ok (before ++ new :: rest)) := by
  by_cases same : scope = new.enclosing
  · obtain ⟨before, rest, read, inserted, -⟩ := declares.here
    exact ⟨before, rest, same ▸ read, .inr (same ▸ inserted)⟩
  · have read := ordered.symbolsIn_eq known
    exact ⟨_, [], by simpa using read, .inl (by simpa [declares.others scope known same] using read)⟩

/-- The first symbol of a scope that fits stays so if the new one does not fit. -/
theorem Declares.find?_eq (ordered : table.Ordered) {scope : ScopeId}
    (known : scope.index < table.scopes.size) {p : Symbol → Bool} (unfit : p new = false) :
    (fun symbols => (symbols.find? p).map Symbol.id) <$> after.symbolsIn scope =
      (fun symbols => (symbols.find? p).map Symbol.id) <$> table.symbolsIn scope := by
  obtain ⟨before, rest, read, same | inserted⟩ := declares.symbolsIn_cases ordered known
  · rw [read, same]
  · simp only [read, inserted, map_ok, find?_insert_of_not unfit]

theorem Declares.variableTypes_eq {ids : List SymbolId}
    (known : ∀ id ∈ ids, id.index < table.symbols.size) :
    after.variableTypes ids = table.variableTypes ids := by
  induction ids with
  | nil => rfl
  | cons id ids ih =>
    simp only [variableTypes, SymbolTable.symbol, declares.kept _ (known id (by simp)),
      ih fun other member => known other (by simp [member])]

theorem Declares.accepts_eq (parameters : table.ParametersKnown) {symbol : Symbol}
    (found : table.symbols[symbol.id.index]? = some symbol) (types : TypeTable)
    (arguments : List Ty) :
    after.accepts types arguments symbol.id = table.accepts types arguments symbol.id := by
  have bound := (Array.getElem?_eq_some_iff.mp found).1
  simp only [accepts, parameterTypes, SymbolTable.symbol, declares.kept _ bound, found,
    orDangling_some, ok_bind]
  cases kind : symbol.kind with
  | function own type ids =>
    have same : after.variableTypes ids = table.variableTypes ids :=
      declares.variableTypes_eq fun id member => parameters _ symbol found id (by rwa [kind])
    simp only [same]
  | _ => rfl

/-- A search for a function answers the same if the new symbol is none. -/
theorem Declares.findFunction_eq (ordered : table.Ordered) (parameters : table.ParametersKnown)
    (sort : ∀ own type parameters, new.kind ≠ .function own type parameters) {scope : ScopeId}
    (known : scope.index < table.scopes.size) (types : TypeTable) (name : String)
    (arguments : List Ty) :
    after.findFunction types scope name arguments = table.findFunction types scope name arguments := by
  obtain ⟨before, rest, read, cases⟩ := declares.symbolsIn_cases ordered known
  have same : ((before ++ rest).filter fun s => s.name == name).findM?
        (fun s => after.accepts types arguments s.id) =
      ((before ++ rest).filter fun s => s.name == name).findM?
        fun s => table.accepts types arguments s.id := by
    refine findM?_congr fun symbol member => declares.accepts_eq parameters ?_ types arguments
    exact ((ordered.mem_symbolsIn known read).mp (List.mem_filter.mp member).1).1
  have refused := accepts_of_not_function declares.added sort types arguments
  simp only [findFunction, read, ok_bind, ← same]
  rcases cases with unchanged | inserted
  · simp only [unchanged, ok_bind]
  · simp only [inserted, ok_bind, List.filter_append, List.filter_cons]
    split
    · have skip := @findM?_insert_of_not Symbol (before.filter fun s => s.name == name)
        (rest.filter fun s => s.name == name) new (fun s => after.accepts types arguments s.id) refused
      rw [skip]
    · rfl

/-- Lookups of variables from a scope answer what they did. -/
def KeepsVariables (after table : SymbolTable) (start : ScopeId) : Prop :=
  ∀ name, after.lookupVariable start name = table.lookupVariable start name

/-- Lookups of classes from a scope answer what they did. -/
def KeepsClasses (after table : SymbolTable) (start : ScopeId) : Prop :=
  ∀ name, after.lookupClass start name = table.lookupClass start name

/-- Lookups of functions from a scope answer what they did. -/
def KeepsFunctions (after table : SymbolTable) (start : ScopeId) : Prop :=
  ∀ types name arguments, after.lookupFunction types start name arguments =
    table.lookupFunction types start name arguments

section Lookups

variable (ordered : table.Ordered) (nested : table.Nested) (nestedAfter : after.Nested)
  {start : ScopeId} (known : start.index < table.scopes.size)
include ordered nested nestedAfter known

theorem Declares.lookupVariable_eq {name : String} (unfit : isVariableOf name new = false) :
    after.lookupVariable start name = table.lookupVariable start name :=
  declares.keeps.searchOutward_eq nested nestedAfter known fun last bound _ => by
    rw [findVariable_eq_map, findVariable_eq_map, declares.find?_eq ordered bound unfit]

theorem Declares.keepsVariables (sort : new.kind.isVariable = false) :
    after.KeepsVariables table start := fun _ =>
  declares.lookupVariable_eq ordered nested nestedAfter known (by simp [isVariableOf, sort])

theorem Declares.keepsClasses (sort : new.kind.isClass = false) : after.KeepsClasses table start := by
  refine fun name => declares.keeps.searchOutward_eq nested nestedAfter known fun last bound _ => ?_
  have unfit : isClassOf name new = false := by simp [isClassOf, sort]
  rw [findClass_eq_map, findClass_eq_map, declares.find?_eq ordered bound unfit]

theorem Declares.keepsFunctions (parameters : table.ParametersKnown)
    (sort : ∀ own type parameters, new.kind ≠ .function own type parameters) :
    after.KeepsFunctions table start := fun types name arguments =>
  declares.keeps.searchOutward_eq nested nestedAfter known fun _ bound _ =>
    declares.findFunction_eq ordered parameters sort bound types name arguments

end Lookups

end Declares

/-- A symbol of the table is a variable of a name in a scope. -/
structure VariableIn (table : SymbolTable) (scope : ScopeId) (name : String) (symbol : Symbol) :
    Prop where
  housed : table.Houses scope symbol
  named : symbol.name = name
  isVariable : symbol.kind.isVariable = true

/-- A new variable of a scope would come first in a lookup: the chain leads from where the lookup
begins to that scope, no scope strictly inside it has a variable of the name, and all that it has
itself stand after the new one. -/
structure ComesFirst (table : SymbolTable) (scope : ScopeId) (name : String) (place : ℕ ×ₗ ℕ)
    (start : ScopeId) : Prop where
  chain : ReflTransGen table.StandsIn start scope
  inside : ∀ inner, ReflTransGen table.StandsIn start inner → TransGen table.StandsIn inner scope →
    ∀ symbol, ¬ table.VariableIn inner name symbol
  earliest : ∀ symbol, table.VariableIn scope name symbol → place < symbol.place

theorem isVariableOf_iff {name : String} {symbol : Symbol} :
    isVariableOf name symbol = true ↔ symbol.name = name ∧ symbol.kind.isVariable = true := by
  simp [isVariableOf]

theorem Ordered.findVariable_eq_none_iff (ordered : table.Ordered) {scope : ScopeId}
    (known : scope.index < table.scopes.size) (name : String) :
    table.findVariable scope name = .ok none ↔ ∀ symbol, ¬ table.VariableIn scope name symbol := by
  have read := ordered.symbolsIn_eq known
  simp only [findVariable_eq_map, read, map_ok, Except.ok.injEq, Option.map_eq_none_iff,
    List.find?_eq_none, ordered.mem_symbolsIn known read]
  constructor
  · exact fun nothing symbol ⟨housed, named, sort⟩ =>
      nothing symbol housed (isVariableOf_iff.mpr ⟨named, sort⟩)
  · intro nothing symbol housed fits
    obtain ⟨named, sort⟩ := isVariableOf_iff.mp fits
    exact nothing symbol ⟨housed, named, sort⟩

/-- A new variable comes first if the lookup comes to its scope and there is none before it. -/
theorem Ordered.comesFirst_iff (ordered : table.Ordered) (nested : table.Nested)
    {scope start : ScopeId} {name : String} {place : ℕ ×ₗ ℕ} :
    table.ComesFirst scope name place start ↔
      ReflTransGen (table.Passes fun scope => table.findVariable scope name) start scope ∧
        ∀ symbol, table.VariableIn scope name symbol → place < symbol.place := by
  have empty (inner : ScopeId) (inside : TransGen table.StandsIn inner scope) :
      table.findVariable inner name = .ok none ↔ ∀ symbol, ¬ table.VariableIn inner name symbol := by
    obtain ⟨outer, next, -⟩ := TransGen.head'_iff.mp inside
    exact ordered.findVariable_eq_none_iff next.known name
  rw [nested.passes_iff]
  constructor
  · exact fun ⟨chain, nothing, earliest⟩ => ⟨⟨chain, fun inner reached inside =>
      (empty inner inside).mpr (nothing inner reached inside)⟩, earliest⟩
  · exact fun ⟨⟨chain, nothing⟩, earliest⟩ => ⟨chain, fun inner reached inside =>
      (empty inner inside).mp (nothing inner reached inside), earliest⟩

section NewVariable

variable (declares : after.Declares table new) (ordered : table.Ordered) (nested : table.Nested)
  (nestedAfter : after.Nested) (isVariable : new.kind.isVariable = true)
  (housed : new.enclosing.index < table.scopes.size)
include declares ordered isVariable housed

/-- In its scope a new variable is found if none of its name stands before it; else what was found
before is. -/
theorem Declares.findVariable_cases :
    (∀ symbol, table.VariableIn new.enclosing new.name symbol → new.place < symbol.place) ∧
        after.findVariable new.enclosing new.name = .ok (some new.id) ∨
      (∃ symbol, table.VariableIn new.enclosing new.name symbol ∧ symbol.place ≤ new.place) ∧
        after.findVariable new.enclosing new.name = table.findVariable new.enclosing new.name := by
  obtain ⟨before, rest, read, inserted, early, late⟩ := declares.here
  have member {symbol : Symbol} := @Ordered.mem_symbolsIn table ordered _ housed _ read symbol
  simp only [findVariable_eq_map, read, inserted, map_ok]
  by_cases first : ∀ symbol ∈ before, isVariableOf new.name symbol = false
  · left
    refine ⟨fun symbol ⟨here, named, sort⟩ => ?_, ?_⟩
    · rcases List.mem_append.mp (member.mpr here) with listed | listed
      · have fits := isVariableOf_iff.mpr ⟨named, sort⟩
        exact absurd fits (by simp [first symbol listed])
      · exact late symbol listed
    · rw [find?_insert_first (isVariableOf_iff.mpr ⟨rfl, isVariable⟩) first]
      rfl
  · right
    simp only [not_forall, Bool.not_eq_false] at first
    obtain ⟨symbol, listed, fits⟩ := first
    obtain ⟨named, sort⟩ := isVariableOf_iff.mp fits
    refine ⟨⟨symbol, ⟨member.mp (by simp [listed]), named, sort⟩, early symbol listed⟩, ?_⟩
    rw [find?_insert_of_before ⟨symbol, listed, fits⟩]

include nested nestedAfter

theorem Declares.lookupVariable_of_comesFirst {start : ScopeId}
    (first : table.ComesFirst new.enclosing new.name new.place start) :
    after.lookupVariable start new.name = .ok (some new.id) := by
  obtain ⟨passes, earliest⟩ := (ordered.comesFirst_iff nested).mp first
  have found : after.findVariable new.enclosing new.name = .ok (some new.id) := by
    rcases declares.findVariable_cases ordered isVariable housed with
      ⟨-, found⟩ | ⟨⟨symbol, isThere, le⟩, -⟩
    · exact found
    · exact absurd (earliest symbol isThere) (not_lt.mpr le)
  have come : ReflTransGen (after.Passes fun scope => after.findVariable scope new.name) start
      new.enclosing :=
    declares.keeps.passes nested (fun inner known different => by
      rw [findVariable_eq_map, findVariable_eq_map, declares.others inner known different]) passes
  exact (nestedAfter.searchOutward_passes come).trans (searchOutward_here found)

theorem Declares.lookupVariable_of_not_comesFirst {start : ScopeId}
    (known : start.index < table.scopes.size)
    (later : ¬ table.ComesFirst new.enclosing new.name new.place start) :
    after.lookupVariable start new.name = table.lookupVariable start new.name := by
  refine declares.keeps.searchOutward_eq nested nestedAfter known fun last bound passes => ?_
  by_cases here : last = new.enclosing
  · subst here
    rcases declares.findVariable_cases ordered isVariable housed with ⟨earliest, -⟩ | ⟨-, same⟩
    · exact absurd ((ordered.comesFirst_iff nested).mpr ⟨passes, earliest⟩) later
    · exact same
  · rw [findVariable_eq_map, findVariable_eq_map, declares.others last bound here]

end NewVariable

section WithBlock

variable {enclosing : ScopeId}

theorem withBlock_keepsLinks : (table.withBlock enclosing).KeepsLinks table := by
  intro i s found
  obtain ⟨t, foundToo, -, around⟩ := (@withBlock_opens table enclosing).old_scope found
  exact ⟨t, foundToo, around⟩

theorem withBlock_symbolsIn {scope : ScopeId} (known : scope.index < table.scopes.size) :
    (table.withBlock enclosing).symbolsIn scope = table.symbolsIn scope := by
  obtain ⟨s, found⟩ := scope_exists known
  obtain ⟨t, foundToo, same⟩ : ∃ t, (table.withBlock enclosing).scopes[scope.index]? = some t ∧
      t.symbols = s.symbols := by
    rw [withBlock_scopes, pushScope_scopes, if_neg (Nat.ne_of_lt known), found]
    refine ⟨_, rfl, ?_⟩
    split <;> rfl
  simp only [symbolsIn, SymbolTable.scope, found, foundToo, orDangling_some, ok_bind, same]
  rfl

theorem withBlock_variableTypes (ids : List SymbolId) :
    (table.withBlock enclosing).variableTypes ids = table.variableTypes ids := by
  induction ids with
  | nil => rfl
  | cons id ids ih => simp only [variableTypes, ih]; rfl

theorem withBlock_accepts (types : TypeTable) (arguments : List Ty) (id : SymbolId) :
    (table.withBlock enclosing).accepts types arguments id = table.accepts types arguments id := by
  simp only [accepts, parameterTypes, withBlock_variableTypes]
  rfl

end WithBlock

section Calls

variable (reached : table.Reached) {scope start : ScopeId}
  (housed : scope.index < table.scopes.size)
include reached housed

theorem Reached.nested_after (call : Call) (declares : call.declaresIn = some scope)
    (plain : call.parameters = []) (performed : table.perform call = .ok after) : after.Nested := by
  refine (reached.call call ⟨fun other same => ?_, by simp [plain]⟩ performed).nested
  rwa [← Option.some.inj (declares.symm.trans same)]

variable (known : start.index < table.scopes.size) (name : String) (node : NodeId)
  (location : Location)
include known

theorem Reached.declareVariable_local :
    ∃ after, table.declareVariable scope name node location = .ok (table.nextSymbol, after) ∧
      after.KeepsClasses table start ∧ after.KeepsFunctions table start ∧ ∀ other,
        (other = name ∧
            table.ComesFirst scope name (toLex (location.startByte, node.index)) start →
          after.lookupVariable start other = .ok (some table.nextSymbol)) ∧
        (¬ (other = name ∧
            table.ComesFirst scope name (toLex (location.startByte, node.index)) start) →
          after.lookupVariable start other = table.lookupVariable start other) := by
  have ordered := reached.built.ordered
  have nested := reached.nested
  have declared := addSymbol_eq_ok housed name (.var none) node location
  have declares := ordered.withSymbol_declares scope name (.var none) node location housed
  have nestedAfter := reached.nested_after housed (.declareVariable scope name node location) rfl rfl
    (map_eq_ok_iff.mpr ⟨_, declared, rfl⟩)
  refine ⟨_, declared, declares.keepsClasses ordered nested nestedAfter known rfl,
    declares.keepsFunctions ordered nested nestedAfter known reached.parametersKnown (by simp),
    fun other => ⟨?_, fun later => ?_⟩⟩
  · rintro ⟨rfl, first⟩
    exact declares.lookupVariable_of_comesFirst ordered nested nestedAfter rfl housed first
  · by_cases same : other = name
    · subst same
      exact declares.lookupVariable_of_not_comesFirst ordered nested nestedAfter rfl housed known
        fun first => later ⟨rfl, first⟩
    · exact declares.lookupVariable_eq ordered nested nestedAfter known
        (by simp [isVariableOf, Ne.symm same])

theorem Reached.declareFunction_local :
    ∃ answer after, table.declareFunction scope name node location = .ok (answer, after) ∧
      after.KeepsVariables table start ∧ after.KeepsClasses table start := by
  have ordered := reached.built.ordered
  have nested := reached.nested
  have declared := declareFunction_eq_ok housed.le name node location
  have declares := ordered.withOwner_declares housed .functionScope (.function · none []) name node
    location
  have nestedAfter := reached.nested_after housed (.declareFunction scope name node location) rfl rfl
    (map_eq_ok_iff.mpr ⟨_, declared, rfl⟩)
  exact ⟨_, _, declared, declares.keepsVariables ordered nested nestedAfter known rfl,
    declares.keepsClasses ordered nested nestedAfter known rfl⟩

theorem Reached.declareClass_local :
    ∃ answer after, table.declareClass scope name node location = .ok (answer, after) ∧
      after.KeepsVariables table start ∧ after.KeepsFunctions table start := by
  have ordered := reached.built.ordered
  have nested := reached.nested
  have declared := declareClass_eq_ok housed.le name node location
  have declares := ordered.withOwner_declares housed .classScope (.classType · none) name node
    location
  have nestedAfter := reached.nested_after housed (.declareClass scope name node location) rfl rfl
    (map_eq_ok_iff.mpr ⟨_, declared, rfl⟩)
  exact ⟨_, _, declared, declares.keepsVariables ordered nested nestedAfter known rfl,
    declares.keepsFunctions ordered nested nestedAfter known reached.parametersKnown (by simp)⟩

theorem Reached.pushBlock_local :
    ∃ block after, table.pushBlock scope = .ok (block, after) ∧ after.KeepsVariables table start ∧
      after.KeepsClasses table start ∧ after.KeepsFunctions table start := by
  have pushed := pushBlock_eq_ok housed.le
  have nestedAfter := reached.nested_after housed (.pushBlock scope) rfl rfl
    (map_eq_ok_iff.mpr ⟨_, pushed, rfl⟩)
  have search {find other : ScopeId → Except Fault (Option SymbolId)}
      (agree : ∀ last : ScopeId, last.index < table.scopes.size → other last = find last) :
      (table.withBlock scope).searchOutward other start = table.searchOutward find start :=
    withBlock_keepsLinks.searchOutward_eq reached.nested nestedAfter known fun last bound _ =>
      agree last bound
  refine ⟨_, _, pushed, fun other => search fun last bound => ?_,
    fun other => search fun last bound => ?_,
    fun types other arguments => search fun last bound => ?_⟩
  · rw [findVariable_eq_map, findVariable_eq_map, withBlock_symbolsIn bound]
  · rw [findClass_eq_map, findClass_eq_map, withBlock_symbolsIn bound]
  · simp only [findFunction, withBlock_symbolsIn bound, withBlock_accepts]

end Calls

/-- Lookups of variables and classes answer. A new variable changes only what lookups of its name
answer that it comes first in, and these find it; a new function changes no lookup of a variable or
a class, a new class none of a variable or a function, and a new block none at all. -/
theorem declarations_stay_local {table : SymbolTable} (reached : table.Reached)
    {scope start : ScopeId} (housed : scope.index < table.scopes.size)
    (known : start.index < table.scopes.size) (name : String) (node : NodeId)
    (location : Location) :
    (∀ other, (∃ answer, table.lookupVariable start other = .ok answer) ∧
      ∃ answer, table.lookupClass start other = .ok answer) ∧
    (∃ after, table.declareVariable scope name node location = .ok (table.nextSymbol, after) ∧
      after.KeepsClasses table start ∧ after.KeepsFunctions table start ∧ ∀ other,
        (other = name ∧
            table.ComesFirst scope name (toLex (location.startByte, node.index)) start →
          after.lookupVariable start other = .ok (some table.nextSymbol)) ∧
        (¬ (other = name ∧
            table.ComesFirst scope name (toLex (location.startByte, node.index)) start) →
          after.lookupVariable start other = table.lookupVariable start other)) ∧
    (∃ answer after, table.declareFunction scope name node location = .ok (answer, after) ∧
      after.KeepsVariables table start ∧ after.KeepsClasses table start) ∧
    (∃ answer after, table.declareClass scope name node location = .ok (answer, after) ∧
      after.KeepsVariables table start ∧ after.KeepsFunctions table start) ∧
    ∃ block after, table.pushBlock scope = .ok (block, after) ∧ after.KeepsVariables table start ∧
      after.KeepsClasses table start ∧ after.KeepsFunctions table start := by
  have ordered := reached.built.ordered
  refine ⟨fun other => ⟨?_, ordered.lookupClass_isOk reached.nested known other⟩,
    reached.declareVariable_local housed known name node location,
    reached.declareFunction_local housed known name node location,
    reached.declareClass_local housed known name node location,
    reached.pushBlock_local housed known⟩
  exact reached.nested.searchOutward_isOk (fun _ bound => ⟨_, ordered.findVariable_eq bound other⟩)
    known

/-- The table of `int x; class A { f() { } int y; }`. -/
def sketched : SymbolTable where
  scopes := #[
    ⟨⟨0⟩, .namespaceScope "unit", none, [⟨0⟩, ⟨1⟩], []⟩, ⟨⟨1⟩, .classScope ⟨1⟩, some ⟨0⟩, [⟨2⟩, ⟨3⟩], []⟩,
    ⟨⟨2⟩, .functionScope ⟨2⟩, some ⟨1⟩, [], []⟩]
  symbols := #[
    ⟨⟨0⟩, "x", .var none, ⟨0⟩, ⟨0⟩, ⟨4, 5⟩⟩, ⟨⟨1⟩, "A", .classType ⟨1⟩ none, ⟨0⟩, ⟨3⟩, ⟨7, 33⟩⟩,
    ⟨⟨2⟩, "f", .function ⟨2⟩ none [], ⟨1⟩, ⟨1⟩, ⟨17, 24⟩⟩, ⟨⟨3⟩, "y", .var none, ⟨1⟩, ⟨2⟩, ⟨29, 30⟩⟩]

theorem sketched_reached : sketched.Reached := by
  have root : (new "unit").Reached := .new "unit"
  have x := root.call (.declareVariable ⟨0⟩ "x" ⟨0⟩ ⟨4, 5⟩)
    ⟨by rintro _ ⟨⟩; decide, nofun⟩ rfl
  have a := x.call (.declareClass ⟨0⟩ "A" ⟨3⟩ ⟨7, 33⟩) ⟨by rintro _ ⟨⟩; decide, nofun⟩ rfl
  have f := a.call (.declareFunction ⟨1⟩ "f" ⟨1⟩ ⟨17, 24⟩) ⟨by rintro _ ⟨⟩; decide, nofun⟩ rfl
  exact f.call (.declareVariable ⟨1⟩ "y" ⟨2⟩ ⟨29, 30⟩) ⟨by rintro _ ⟨⟩; decide, nofun⟩ rfl

/-- A lookup in the function sees another `x` of the class in place of that of the namespace, and not
another `y` that stands behind that of the class. -/
theorem declarations_stay_local_sketched :
    (∃ after, sketched.declareVariable ⟨1⟩ "x" ⟨4⟩ ⟨31, 32⟩ = .ok (⟨4⟩, after) ∧
      sketched.lookupVariable ⟨2⟩ "x" = .ok (some ⟨0⟩) ∧
      after.lookupVariable ⟨2⟩ "x" = .ok (some ⟨4⟩)) ∧
    ∃ after, sketched.declareVariable ⟨1⟩ "y" ⟨4⟩ ⟨31, 32⟩ = .ok (⟨4⟩, after) ∧
      after.lookupVariable ⟨2⟩ "y" = .ok (some ⟨3⟩) := by
  have ordered := sketched_reached.built.ordered
  have locality (name : String) := (declarations_stay_local sketched_reached
    (show (⟨1⟩ : ScopeId).index < sketched.scopes.size by decide)
    (show (⟨2⟩ : ScopeId).index < sketched.scopes.size by decide) name ⟨4⟩ ⟨31, 32⟩).2.1
  constructor
  · obtain ⟨after, declared, -, -, changes⟩ := locality "x"
    have free := (ordered.findVariable_eq_none_iff
      (show (⟨1⟩ : ScopeId).index < sketched.scopes.size by decide) "x").mp rfl
    have first : sketched.ComesFirst ⟨1⟩ "x" (toLex (31, 4)) ⟨2⟩ :=
      (ordered.comesFirst_iff sketched_reached.nested).mpr
        ⟨.single ⟨⟨_, rfl, rfl⟩, rfl⟩, fun symbol other => absurd other (free symbol)⟩
    exact ⟨after, declared, rfl, (changes "x").1 ⟨rfl, first⟩⟩
  · obtain ⟨after, declared, -, -, changes⟩ := locality "y"
    refine ⟨after, declared, (changes "y").2 fun ⟨_, first⟩ => ?_⟩
    have before := first.earliest ⟨⟨3⟩, "y", .var none, ⟨1⟩, ⟨2⟩, ⟨29, 30⟩⟩ ⟨⟨rfl, rfl⟩, rfl, rfl⟩
    exact absurd before (by decide)

end SymbolTable

end ScriptSemantics
