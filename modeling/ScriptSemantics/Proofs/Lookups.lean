import Mathlib.Data.List.Find
import Mathlib.Data.List.Sort
import ScriptSemantics.Proofs.SymbolTables

/-!
# Lookups in ordered tables

In an ordered table a search of one scope is a search of the scope's listing, and in a nested one a
search outward ends. A table completes another when it has the same scopes, the same classes and
functions, and beyond them only variables: searches for classes and functions then find the same.
-/
namespace ScriptSemantics.SymbolTable

variable {table base : SymbolTable}

/-- The symbols that a scope lists, by number. -/
def listing (table : SymbolTable) (scope : ScopeId) : List SymbolId :=
  ((table.scopes[scope.index]?).map Scope.symbols).getD []

/-- Whether a number names a symbol with a property. -/
def holds (table : SymbolTable) (p : Symbol → Bool) (id : SymbolId) : Bool :=
  (table.symbols[id.index]?).any p

def isVariableOf (name : String) (symbol : Symbol) : Bool :=
  symbol.name == name && symbol.kind.isVariable

def isClassOf (name : String) (symbol : Symbol) : Bool := symbol.name == name && symbol.kind.isClass

theorem holds_iff {p : Symbol → Bool} {id : SymbolId} :
    table.holds p id = true ↔ ∃ symbol, table.symbols[id.index]? = some symbol ∧ p symbol = true := by
  simp [holds, Option.any_eq_true]

theorem scope_exists {scope : ScopeId} (known : scope.index < table.scopes.size) :
    ∃ s, table.scopes[scope.index]? = some s := ⟨table.scopes[scope.index], by simp [known]⟩

theorem Ordered.mem_listing (ordered : table.Ordered) {scope : ScopeId}
    (known : scope.index < table.scopes.size) {id : SymbolId} : id ∈ table.listing scope ↔
      ∃ symbol : Symbol, table.symbols[id.index]? = some symbol ∧ symbol.enclosing = scope := by
  obtain ⟨s, found⟩ := scope_exists known
  simp only [listing, found, Option.map_some, Option.getD_some]
  exact ordered.listed _ s found id

theorem Ordered.listing_nodup (ordered : table.Ordered) (scope : ScopeId) :
    (table.listing scope).Nodup := by
  unfold listing
  cases found : table.scopes[scope.index]? with
  | none => simp
  | some s => exact ordered.nodup _ s found

theorem Ordered.listing_sorted (ordered : table.Ordered) (scope : ScopeId) :
    (table.listing scope).Pairwise fun a b => table.place a ≤ table.place b := by
  unfold listing
  cases found : table.scopes[scope.index]? with
  | none => simp
  | some s => exact ordered.sorted _ s found

/-- The symbols of a scope can be read, and searching them is searching the listing. -/
theorem Ordered.find_symbolsIn (ordered : table.Ordered) {scope : ScopeId}
    (known : scope.index < table.scopes.size) :
    ∃ symbols, table.symbolsIn scope = .ok symbols ∧
      symbols.map Symbol.id = table.listing scope ∧
      ∀ symbol ∈ symbols, table.symbols[symbol.id.index]? = some symbol := by
  obtain ⟨s, found⟩ := scope_exists known
  have read : ∀ id ∈ s.symbols, ∃ symbol : Symbol, table.symbols[id.index]? = some symbol := by
    intro id member
    obtain ⟨symbol, foundSymbol, -⟩ := (ordered.listed _ s found id).mp member
    exact ⟨symbol, foundSymbol⟩
  simp only [symbolsIn, SymbolTable.scope, found, orDangling_some, ok_bind, listing,
    Option.map_some, Option.getD_some]
  generalize s.symbols = ids at read
  induction ids with
  | nil => exact ⟨[], rfl, rfl, by simp⟩
  | cons id ids ih =>
    obtain ⟨symbol, foundSymbol⟩ := read id (by simp)
    obtain ⟨rest, readRest, idsRest, known⟩ := ih fun other member => read other (by simp [member])
    have sameId : symbol.id = id := ordered.symbol_id _ symbol foundSymbol
    refine ⟨symbol :: rest, ?_, by simp [sameId, idsRest], ?_⟩
    · simp only [List.mapM_cons, SymbolTable.symbol, foundSymbol, orDangling_some, ok_bind, readRest]
      rfl
    · intro other member
      rcases List.mem_cons.mp member with rfl | member
      · rwa [sameId]
      · exact known other member

theorem find?_map_id {symbols : List Symbol} {p : Symbol → Bool}
    (known : ∀ symbol ∈ symbols, table.symbols[symbol.id.index]? = some symbol) :
    (symbols.find? p).map Symbol.id = (symbols.map Symbol.id).find? (table.holds p) := by
  rw [List.find?_map]
  congr 1
  induction symbols with
  | nil => rfl
  | cons symbol symbols ih =>
    have here : table.holds p symbol.id = p symbol := by simp [holds, known symbol (by simp)]
    simp only [List.find?_cons, Function.comp_apply, here,
      ih fun other member => known other (by simp [member])]

theorem Ordered.findVariable_eq (ordered : table.Ordered) {scope : ScopeId}
    (known : scope.index < table.scopes.size) (name : String) :
    table.findVariable scope name =
      .ok ((table.listing scope).find? (table.holds (isVariableOf name))) := by
  obtain ⟨symbols, read, ids, found⟩ := ordered.find_symbolsIn known
  simp only [findVariable, read, ok_bind, pure, Except.pure, ← ids, ← find?_map_id found]
  rfl

theorem Ordered.findClass_eq (ordered : table.Ordered) {scope : ScopeId}
    (known : scope.index < table.scopes.size) (name : String) :
    table.findClass scope name =
      .ok ((table.listing scope).find? (table.holds (isClassOf name))) := by
  obtain ⟨symbols, read, ids, found⟩ := ordered.find_symbolsIn known
  simp only [findClass, read, ok_bind, pure, Except.pure, ← ids, ← find?_map_id found]
  rfl

/-- A scope has a variable of a name exactly when some symbol says so. -/
theorem Ordered.findVariable_isSome_iff (ordered : table.Ordered) {scope : ScopeId}
    (known : scope.index < table.scopes.size) (name : String) :
    ∃ found, table.findVariable scope name = .ok found ∧ (found.isSome ↔
      ∃ (i : Nat) (symbol : Symbol), table.symbols[i]? = some symbol ∧ symbol.enclosing = scope ∧
        symbol.name = name ∧ symbol.kind.isVariable = true) := by
  refine ⟨_, ordered.findVariable_eq known name, ?_⟩
  simp only [List.find?_isSome, ordered.mem_listing known, holds_iff, isVariableOf, Bool.and_eq_true,
    beq_iff_eq]
  constructor
  · rintro ⟨id, ⟨symbol, found, here⟩, other, foundOther, named, sort⟩
    rw [found, Option.some.injEq] at foundOther
    subst foundOther
    exact ⟨id.index, symbol, found, here, named, sort⟩
  · rintro ⟨i, symbol, found, here, named, sort⟩
    exact ⟨⟨i⟩, ⟨symbol, found, here⟩, symbol, found, named, sort⟩

/-- A search by an answer that is always there is a search by the answer. -/
theorem findM?_eq_ok {α : Type} {f : α → Except Fault Bool} {g : α → Bool} (items : List α)
    (ok : ∀ a ∈ items, f a = .ok (g a)) : items.findM? f = .ok (items.find? g) := by
  induction items with
  | nil => rfl
  | cons a items ih =>
    simp only [List.findM?, ok a (by simp), ok_bind, List.find?_cons]
    cases g a with
    | true => rfl
    | false => exact ih fun b member => ok b (by simp [member])

theorem Ordered.findFunction_eq (ordered : table.Ordered) {types : TypeTable} {scope : ScopeId}
    (known : scope.index < table.scopes.size) (name : String) {arguments : List Ty}
    {answer : SymbolId → Bool}
    (ok : ∀ id ∈ table.listing scope, table.accepts types arguments id = .ok (answer id)) :
    table.findFunction types scope name arguments =
      .ok ((table.listing scope).find? fun id =>
        table.holds (fun symbol => symbol.name == name) id && answer id) := by
  obtain ⟨symbols, read, ids, found⟩ := ordered.find_symbolsIn known
  have asked := findM?_eq_ok (f := fun s => table.accepts types arguments s.id)
    (g := fun s => answer s.id) (symbols.filter fun s => s.name == name) fun s member => by
      apply ok s.id
      rw [← ids]
      exact List.mem_map_of_mem (List.mem_of_mem_filter member)
  have same : (symbols.find? fun s => s.name == name && answer s.id).map Symbol.id =
      (table.listing scope).find? fun id =>
        table.holds (fun symbol => symbol.name == name) id && answer id := by
    rw [find?_map_id found, ids]
    refine List.find?_congr fun id member => ?_
    rw [← ids, List.mem_map] at member
    obtain ⟨symbol, inList, rfl⟩ := member
    simp [holds, found symbol inList]
  simp only [findFunction, read, ok_bind, asked, pure, Except.pure, ← same]
  rw [List.find?_filter]
  congr 3
  funext symbol
  by_cases named : symbol.name = name <;> simp [named]

/-- A table has the scopes of another and its symbols under the same numbers, each of the same sort
and with the same scope of its own. Whatever it has beyond them is a variable. -/
structure Completes (table base : SymbolTable) : Prop where
  frames : table.SameFrames base
  kept : ∀ (i : Nat) (symbol : Symbol), base.symbols[i]? = some symbol →
    ∃ kind, table.symbols[i]? = some { symbol with kind := kind } ∧
      kind.ownScope = symbol.kind.ownScope ∧ kind.isClass = symbol.kind.isClass
  added : ∀ (i : Nat) (symbol : Symbol), table.symbols[i]? = some symbol →
    base.symbols.size ≤ i → symbol.kind.isVariable = true

/-- No two symbols are declared at one node. -/
def DistinctNodes (table : SymbolTable) : Prop :=
  ∀ (i j : Nat) (a b : Symbol), table.symbols[i]? = some a → table.symbols[j]? = some b →
    a.node = b.node → i = j

/-- Symbols declared at different nodes can be listed in source order in one way only. -/
theorem DistinctNodes.eq_of_sorted (distinct : table.DistinctNodes) {left right : List SymbolId}
    (known : ∀ id ∈ right, ∃ symbol, table.symbols[id.index]? = some symbol) (perm : left.Perm right)
    (sortedLeft : left.Pairwise fun a b => table.place a ≤ table.place b)
    (sortedRight : right.Pairwise fun a b => table.place a ≤ table.place b) : left = right := by
  refine @List.Perm.eq_of_pairwise _ (fun a b => table.place a ≤ table.place b) _ _ ?_ sortedLeft
    sortedRight perm
  intro a b inLeft inRight le ge
  obtain ⟨x, foundX⟩ := known a (perm.mem_iff.mp inLeft)
  obtain ⟨y, foundY⟩ := known b inRight
  have places : x.place = y.place := by
    simpa [place, foundX, foundY] using le_antisymm le ge
  have nodes : x.node = y.node :=
    congrArg NodeId.mk (Prod.ext_iff.mp (toLex.injective places)).2
  exact congrArg SymbolId.mk (distinct _ _ x y foundX foundY nodes)

section Completes

variable (ordered : table.Ordered) (baseOrdered : base.Ordered) (completes : table.Completes base)
include completes

theorem Completes.symbol_cases {i : Nat} {symbol : Symbol}
    (found : table.symbols[i]? = some symbol) :
    (base.symbols.size ≤ i ∧ symbol.kind.isVariable = true) ∨
      ∃ old, base.symbols[i]? = some old ∧ symbol = { old with kind := symbol.kind } ∧
        symbol.kind.ownScope = old.kind.ownScope ∧ symbol.kind.isClass = old.kind.isClass := by
  by_cases old : i < base.symbols.size
  · have foundOld : base.symbols[i]? = some base.symbols[i] := by simp [old]
    obtain ⟨kind, kept, own, sort⟩ := completes.kept i _ foundOld
    rw [found, Option.some.injEq] at kept
    subst kept
    exact .inr ⟨_, foundOld, rfl, own, sort⟩
  · exact .inl ⟨by omega, completes.added i symbol found (by omega)⟩

theorem Completes.place_eq {id : SymbolId} (old : id.index < base.symbols.size) :
    table.place id = base.place id := by
  have foundOld : base.symbols[id.index]? = some base.symbols[id.index] := by simp [old]
  obtain ⟨kind, kept, -⟩ := completes.kept _ _ foundOld
  simp only [place, kept, foundOld]
  rfl

include ordered baseOrdered

/-- Without the added variables, a scope lists its symbols as before: their order is determined by
where they stand. -/
theorem Completes.listing_filter (distinct : base.DistinctNodes) {scope : ScopeId}
    (known : scope.index < base.scopes.size) :
    ((table.listing scope).filter fun id => id.index < base.symbols.size) = base.listing scope := by
  have knownToo : scope.index < table.scopes.size := completes.frames.size_eq ▸ known
  have mem (id : SymbolId) :
      id ∈ (table.listing scope).filter (fun id => id.index < base.symbols.size) ↔
        id ∈ base.listing scope := by
    simp only [List.mem_filter, ordered.mem_listing knownToo, baseOrdered.mem_listing known,
      decide_eq_true_eq]
    constructor
    · rintro ⟨⟨symbol, found, here⟩, old⟩
      rcases completes.symbol_cases found with ⟨new, -⟩ | ⟨other, foundOther, same, -⟩
      · omega
      · exact ⟨other, foundOther, by rw [← here, same]⟩
    · rintro ⟨symbol, found, here⟩
      obtain ⟨kind, kept, -⟩ := completes.kept _ _ found
      exact ⟨⟨_, kept, here⟩, (Array.getElem?_eq_some_iff.mp found).1⟩
  have perm : ((table.listing scope).filter fun id => id.index < base.symbols.size).Perm
      (base.listing scope) :=
    (List.perm_ext_iff_of_nodup ((ordered.listing_nodup scope).filter _)
      (baseOrdered.listing_nodup scope)).mpr mem
  refine distinct.eq_of_sorted (fun id member => ?_) perm ?_ (baseOrdered.listing_sorted scope)
  · obtain ⟨symbol, found, -⟩ := (baseOrdered.mem_listing known).mp member
    exact ⟨symbol, found⟩
  · refine ((ordered.listing_sorted scope).filter _).imp_of_mem fun {a b} inA inB le => ?_
    rwa [completes.place_eq (by simpa using (List.mem_filter.mp inA).2),
      completes.place_eq (by simpa using (List.mem_filter.mp inB).2)] at le

/-- A search that no variable satisfies finds the same in both tables. -/
theorem Completes.find_listing (distinct : base.DistinctNodes) {scope : ScopeId}
    (known : scope.index < base.scopes.size) {p q : SymbolId → Bool}
    (new : ∀ id, base.symbols.size ≤ id.index → p id = false)
    (old : ∀ id, id ∈ base.listing scope → p id = q id) :
    (table.listing scope).find? p = (base.listing scope).find? q := by
  rw [← List.find?_congr old, ← completes.listing_filter ordered baseOrdered distinct known,
    List.find?_filter]
  refine List.find?_congr fun id _ => ?_
  by_cases small : id.index < base.symbols.size
  · simp [small]
  · simp [small, new id (by omega)]

theorem Completes.findClass_eq (distinct : base.DistinctNodes) {scope : ScopeId}
    (known : scope.index < base.scopes.size) (name : String) :
    table.findClass scope name = base.findClass scope name := by
  have knownToo : scope.index < table.scopes.size := completes.frames.size_eq ▸ known
  rw [ordered.findClass_eq knownToo, baseOrdered.findClass_eq known]
  congr 1
  refine completes.find_listing ordered baseOrdered distinct known (fun id new => ?_) fun id member => ?_
  · by_contra isClass
    obtain ⟨symbol, found, named⟩ := holds_iff.mp (by simpa using isClass)
    have isVariable := completes.added _ _ found new
    cases kind : symbol.kind <;> simp_all [isClassOf, SymbolKind.isVariable, SymbolKind.isClass]
  · obtain ⟨symbol, found, -⟩ := (baseOrdered.mem_listing known).mp member
    obtain ⟨kind, kept, -, sort⟩ := completes.kept _ _ found
    simp [holds, kept, found, isClassOf, sort]

end Completes

/-- Searching outward ends in a nested table, whatever each scope answers. -/
theorem Nested.searchOutward_isOk (nested : table.Nested) {find : ScopeId → Except Fault (Option SymbolId)}
    (ok : ∀ scope, scope.index < table.scopes.size → ∃ found, find scope = .ok found)
    {scope : ScopeId} (known : scope.index < table.scopes.size) :
    ∃ found, table.searchOutward find scope = .ok found := by
  have within (bound : Nat) (scope : ScopeId) (room : scope.index < bound)
      (known : scope.index < table.scopes.size) :
      ∃ found, table.searchWithin find bound scope = .ok found := by
    induction bound generalizing scope with
    | zero => omega
    | succ bound ih =>
      obtain ⟨s, foundScope⟩ := scope_exists known
      obtain ⟨found, answer⟩ := ok scope known
      simp only [searchWithin, answer, ok_bind, SymbolTable.scope, foundScope, orDangling_some]
      cases found with
      | some symbol => exact ⟨some symbol, rfl⟩
      | none =>
        cases around : s.enclosing with
        | none => exact ⟨none, rfl⟩
        | some enclosing =>
          have before := nested.enclosing_lt foundScope around
          exact ih enclosing (by omega) (by omega)
  exact within _ scope (by omega) known

/-- Searching outward depends only on what the scopes around answer. -/
theorem SameFrames.searchOutward_eq (same : table.SameFrames base) (nested : base.Nested)
    {find other : ScopeId → Except Fault (Option SymbolId)}
    (agree : ∀ scope, scope.index < base.scopes.size → find scope = other scope)
    {scope : ScopeId} (known : scope.index < base.scopes.size) :
    table.searchOutward find scope = base.searchOutward other scope := by
  have within (bound : Nat) (scope : ScopeId) (known : scope.index < base.scopes.size) :
      table.searchWithin find bound scope = base.searchWithin other bound scope := by
    induction bound generalizing scope with
    | zero => rfl
    | succ bound ih =>
      obtain ⟨s, foundScope⟩ := scope_exists known
      obtain ⟨t, foundOther, -, enclosing, -⟩ := same.symm.exists_scope foundScope
      simp only [searchWithin, agree scope known, SymbolTable.scope, foundScope, foundOther,
        orDangling_some, ok_bind, enclosing]
      cases other scope with
      | error fault => rfl
      | ok found =>
        simp only [ok_bind]
        cases found with
        | some symbol => rfl
        | none =>
          cases around : s.enclosing with
          | none => rfl
          | some outer =>
            have before := nested.enclosing_lt foundScope around
            exact ih outer (by omega)
  unfold searchOutward
  rw [same.size_eq]
  exact within _ scope known

theorem Ordered.lookupClass_isOk (ordered : table.Ordered) (nested : table.Nested) {scope : ScopeId}
    (known : scope.index < table.scopes.size) (name : String) :
    ∃ found, table.lookupClass scope name = .ok found :=
  nested.searchOutward_isOk (fun _ known => ⟨_, ordered.findClass_eq known name⟩) known

theorem Completes.lookupClass_eq (completes : table.Completes base) (ordered : table.Ordered)
    (baseOrdered : base.Ordered) (nested : base.Nested) (distinct : base.DistinctNodes)
    {scope : ScopeId} (known : scope.index < base.scopes.size) (name : String) :
    table.lookupClass scope name = base.lookupClass scope name :=
  completes.frames.searchOutward_eq nested
    (fun _ known => completes.findClass_eq ordered baseOrdered distinct known name) known

theorem Ordered.lookupClass_isClass (ordered : table.Ordered) (nested : table.Nested)
    {scope : ScopeId} (known : scope.index < table.scopes.size) {name : String} {id : SymbolId}
    (found : table.lookupClass scope name = .ok (some id)) :
    ∃ symbol, table.symbols[id.index]? = some symbol ∧ symbol.kind.isClass = true := by
  have within (bound : Nat) (scope : ScopeId) (known : scope.index < table.scopes.size)
      (found : table.searchWithin (fun scope => table.findClass scope name) bound scope =
        .ok (some id)) :
      ∃ symbol, table.symbols[id.index]? = some symbol ∧ symbol.kind.isClass = true := by
    induction bound generalizing scope with
    | zero => simp [searchWithin] at found
    | succ bound ih =>
      obtain ⟨s, foundScope⟩ := scope_exists known
      simp only [searchWithin, ordered.findClass_eq known, ok_bind, SymbolTable.scope, foundScope,
        orDangling_some] at found
      cases here : (table.listing scope).find? (table.holds (isClassOf name)) with
      | some symbol =>
        simp only [here, pure, Except.pure, Except.ok.injEq, Option.some.injEq] at found
        subst found
        obtain ⟨x, foundX, named⟩ := holds_iff.mp (List.find?_some here)
        exact ⟨x, foundX, by simp_all [isClassOf]⟩
      | none =>
        simp only [here] at found
        cases around : s.enclosing with
        | none => simp [around, pure, Except.pure] at found
        | some outer =>
          have before := nested.enclosing_lt foundScope around
          simp only [around] at found
          exact ih outer (by omega) found
  exact within _ scope known found

end ScriptSemantics.SymbolTable
