import ScriptSemantics.Proofs.LexicalLookups
import ScriptSemantics.Proofs.ScopeChains

/-!
# Searches in tables built by calls on what is there

A table is reached by calls that declare only in scopes which exist and pass on only symbols which
exist. Its scopes nest, and the parameters of its functions are symbols of the table. A search
outward goes along the chain of scopes until one of them gives it something, so its answer depends
on the scopes of the chain up to there and on nothing else.
-/
namespace ScriptSemantics.SymbolTable

open Relation (ReflTransGen TransGen)

variable {table after : SymbolTable}

def Call.parameters : Call → List SymbolId
  | .addSymbol _ _ kind _ _ => kind.parameters
  | .pushParameter _ parameter => [parameter]
  | _ => []

/-- A call declares in a scope that exists and names only symbols that exist as parameters. The
symbols that it completes exist too, or else it has no result. -/
structure Call.Known (table : SymbolTable) (call : Call) : Prop where
  scope : ∀ scope, call.declaresIn = some scope → scope.index < table.scopes.size
  parameters : ∀ id ∈ call.parameters, id.index < table.symbols.size

/-- The tables that calls on what is there have built. -/
inductive Reached : SymbolTable → Prop
  | new (name : String) : Reached (.new name)
  | call {table after : SymbolTable} (reached : Reached table) (call : Call)
      (known : call.Known table) (performed : table.perform call = .ok after) : Reached after

theorem Call.declaresIn_of_opensIn {call : Call} {scope : ScopeId}
    (opens : call.opensIn = some scope) : call.declaresIn = some scope := by
  cases call <;> first | exact opens | cases opens

theorem Reached.built (reached : table.Reached) : table.Built := by
  induction reached with
  | new name => exact .new name
  | call _ _ _ performed built => exact built.change (perform_change performed)

theorem Reached.nested (reached : table.Reached) : table.Nested := by
  refine reached.built.linked.nested ?_
  induction reached with
  | new name => exact (Nested.new name).inward
  | call _ _ known performed inward =>
    exact (perform_change performed).inward_iff.mpr
      ⟨inward, fun outer opens => known.scope outer (Call.declaresIn_of_opensIn opens)⟩

/-- The parameters of every function are symbols of the table. -/
def ParametersKnown (table : SymbolTable) : Prop :=
  ∀ (i : Nat) (symbol : Symbol), table.symbols[i]? = some symbol →
    ∀ id ∈ symbol.kind.parameters, id.index < table.symbols.size

theorem ParametersKnown.push (known : table.ParametersKnown) {new : Symbol}
    (symbols : ∀ i, after.symbols[i]? =
      if i = table.symbols.size then some new else table.symbols[i]?)
    (passed : ∀ id ∈ new.kind.parameters, id.index < table.symbols.size) :
    after.ParametersKnown := by
  have grows : table.symbols.size < after.symbols.size := by
    have last := symbols table.symbols.size
    rw [if_pos rfl] at last
    exact (Array.getElem?_eq_some_iff.mp last).1
  intro i symbol found id member
  rw [symbols] at found
  split at found
  · cases found
    exact (passed id member).trans grows
  · exact (known i symbol found id member).trans grows

theorem ParametersKnown.withKind (known : table.ParametersKnown) (id : SymbolId)
    {change : SymbolKind → SymbolKind}
    (parameters : ∀ kind, ∀ parameter ∈ (change kind).parameters,
      parameter ∈ kind.parameters ∨ parameter.index < table.symbols.size) :
    (table.withKind id change).ParametersKnown := by
  have size : (table.withKind id change).symbols.size = table.symbols.size := Array.size_modify
  intro i symbol found parameter member
  rw [withKind_symbols, Option.map_eq_some_iff] at found
  obtain ⟨old, foundOld, rfl⟩ := found
  rw [size]
  split at member
  · rcases parameters old.kind parameter member with listed | bound
    · exact known i old foundOld parameter listed
    · exact bound
  · exact known i old foundOld parameter member

theorem ParametersKnown.updateKind (known : table.ParametersKnown) {id : SymbolId}
    {change : SymbolKind → SymbolKind} (updated : table.updateKind id change = .ok after)
    (parameters : ∀ kind, ∀ parameter ∈ (change kind).parameters,
      parameter ∈ kind.parameters ∨ parameter.index < table.symbols.size) :
    after.ParametersKnown := by
  rw [updateKind_eq_ok (updateKind_known updated)] at updated
  cases updated
  exact known.withKind id parameters

theorem ParametersKnown.addSymbol (known : table.ParametersKnown) {scope : ScopeId} {name : String}
    {kind : SymbolKind} {node : NodeId} {location : Location} {answer : SymbolId × SymbolTable}
    (added : table.addSymbol scope name kind node location = .ok answer)
    (passed : ∀ id ∈ kind.parameters, id.index < table.symbols.size) :
    answer.2.ParametersKnown := by
  rw [addSymbol_eq_ok (addSymbol_known added)] at added
  cases added
  exact known.push (withSymbol_symbols scope name kind node location) passed

theorem Reached.parametersKnown (reached : table.Reached) : table.ParametersKnown := by
  induction reached with
  | new name => exact fun i symbol found => by simp [SymbolTable.new] at found
  | @call table after reached call passed performed known =>
    have opened (kind : ScopeKind) (enclosing : ScopeId) :
        (table.pushScope kind enclosing).ParametersKnown := known
    cases call with
    | addSymbol scope name kind node location =>
      obtain ⟨answer, added, rfl⟩ := map_eq_ok_iff.mp performed
      exact known.addSymbol added passed.parameters
    | declareVariable scope name node location =>
      obtain ⟨answer, added, rfl⟩ := map_eq_ok_iff.mp performed
      exact known.addSymbol added (by simp [SymbolKind.parameters])
    | declareFunction enclosing name node location
    | declareClass enclosing name node location =>
      obtain ⟨answer, declared, rfl⟩ := map_eq_ok_iff.mp performed
      obtain ⟨inner, added, same⟩ := bind_eq_ok_iff.mp declared
      cases same
      exact (opened _ _).addSymbol added (by simp [SymbolKind.parameters])
    | pushBlock enclosing =>
      obtain ⟨answer, pushed, rfl⟩ := map_eq_ok_iff.mp performed
      rw [pushBlock_eq_ok (pushBlock_known pushed)] at pushed
      cases pushed
      exact known
    | setVariableType id type
    | setReturnType id type
    | setSuperclass id superclass =>
      refine known.updateKind performed fun kind parameter member => .inl ?_
      cases kind <;> exact member
    | pushParameter function parameter =>
      refine known.updateKind performed fun kind other member => ?_
      cases kind with
      | function own type parameters =>
        simp only [SymbolKind.withParameter, SymbolKind.parameters] at member ⊢
        split at member
        · exact .inl member
        · rcases List.mem_append.mp member with listed | last
          · exact .inl listed
          · exact .inr (passed.parameters other last)
      | _ => exact .inl member

def symbolsOf (table : SymbolTable) (ids : List SymbolId) : List Symbol :=
  ids.filterMap fun id => table.symbols[id.index]?

theorem symbolsOf_congr {ids : List SymbolId}
    (same : ∀ id ∈ ids, after.symbols[id.index]? = table.symbols[id.index]?) :
    after.symbolsOf ids = table.symbolsOf ids := List.filterMap_congr same

theorem symbolsOf_cons {id : SymbolId} {symbol : Symbol}
    (found : table.symbols[id.index]? = some symbol) (ids : List SymbolId) :
    table.symbolsOf (id :: ids) = symbol :: table.symbolsOf ids :=
  List.filterMap_cons_some found

theorem symbolsOf_append (first second : List SymbolId) :
    table.symbolsOf (first ++ second) = table.symbolsOf first ++ table.symbolsOf second :=
  List.filterMap_append

theorem Ordered.symbolsIn_eq (ordered : table.Ordered) {scope : ScopeId}
    (known : scope.index < table.scopes.size) :
    table.symbolsIn scope = .ok (table.symbolsOf (table.listing scope)) := by
  obtain ⟨symbols, read, ids, found⟩ := ordered.find_symbolsIn known
  have each : symbols.filterMap (fun symbol => table.symbols[symbol.id.index]?) = symbols := by
    rw [List.filterMap_congr found, List.filterMap_some]
  rw [read, ← ids, symbolsOf, List.filterMap_map]
  exact congrArg Except.ok each.symm

/-- A symbol of the table is in a scope. -/
def Houses (table : SymbolTable) (scope : ScopeId) (symbol : Symbol) : Prop :=
  table.symbols[symbol.id.index]? = some symbol ∧ symbol.enclosing = scope

theorem Ordered.mem_symbolsIn (ordered : table.Ordered) {scope : ScopeId}
    (known : scope.index < table.scopes.size) {symbols : List Symbol}
    (read : table.symbolsIn scope = .ok symbols) {symbol : Symbol} :
    symbol ∈ symbols ↔ table.Houses scope symbol := by
  obtain rfl := Except.ok.inj ((ordered.symbolsIn_eq known).symm.trans read)
  simp only [symbolsOf, List.mem_filterMap, ordered.mem_listing known]
  constructor
  · rintro ⟨id, ⟨other, foundOther, here⟩, found⟩
    obtain rfl := Option.some.inj (foundOther.symm.trans found)
    have isId : other.id = id := ordered.symbol_id _ other found
    exact ⟨isId ▸ found, here⟩
  · rintro ⟨found, here⟩
    exact ⟨symbol.id, ⟨symbol, found, here⟩, found⟩

section Searching

variable {find other : ScopeId → Except Fault (Option SymbolId)} {scope last : ScopeId}

/-- A search that comes to a scope has nothing there and goes on in the scope around it. -/
def Passes (table : SymbolTable) (find : ScopeId → Except Fault (Option SymbolId))
    (inner outer : ScopeId) : Prop :=
  table.StandsIn inner outer ∧ find inner = .ok none

theorem chain_of_passes (passes : ReflTransGen (table.Passes find) scope last) :
    ReflTransGen table.StandsIn scope last :=
  passes.lift id fun _ _ pass => pass.1

theorem Nested.standsIn_lt (nested : table.Nested) {inner outer : ScopeId}
    (next : table.StandsIn inner outer) : outer.index < inner.index := by
  obtain ⟨s, found, around⟩ := next
  exact nested.enclosing_lt (orDangling_eq_ok_iff.mp found) around

theorem Nested.chain_le (nested : table.Nested) (chain : ReflTransGen table.StandsIn scope last) :
    last.index ≤ scope.index := by
  induction chain with
  | refl => exact Nat.le_refl _
  | tail _ next before => exact (nested.standsIn_lt next).le.trans before

theorem Nested.chain_lt (nested : table.Nested) (chain : TransGen table.StandsIn scope last) :
    last.index < scope.index := by
  obtain ⟨outer, next, chain⟩ := TransGen.head'_iff.mp chain
  exact (nested.chain_le chain).trans_lt (nested.standsIn_lt next)

/-- Scopes are reached from the outside in: what holds of a scope once it holds of the scope around
it holds of all. -/
theorem Nested.outward_induction (nested : table.Nested) {motive : ScopeId → Prop}
    (step : ∀ scope s, table.scopes[scope.index]? = some s →
      (∀ outer, s.enclosing = some outer → motive outer) → motive scope)
    (known : scope.index < table.scopes.size) : motive scope := by
  obtain ⟨i⟩ := scope
  induction i using Nat.strongRecOn with
  | ind i ih =>
    obtain ⟨s, found⟩ := scope_exists known
    refine step ⟨i⟩ s found fun outer around => ?_
    have before := nested.enclosing_lt found around
    exact ih outer.index before (before.trans known)

/-- A search has nothing in all scopes before one of the chain exactly if it comes to that one. -/
theorem Nested.passes_iff (nested : table.Nested) :
    ReflTransGen (table.Passes find) scope last ↔
      ReflTransGen table.StandsIn scope last ∧
        ∀ inner, ReflTransGen table.StandsIn scope inner → TransGen table.StandsIn inner last →
          find inner = .ok none := by
  constructor
  · intro passes
    refine ⟨chain_of_passes passes, ?_⟩
    induction passes using ReflTransGen.head_induction_on with
    | refl =>
      intro inner chain inside
      have := nested.chain_le chain
      have := nested.chain_lt inside
      omega
    | head pass _ ih =>
      intro inner chain inside
      rcases chain.cases_head with rfl | ⟨outer, next, chain⟩
      · exact pass.2
      · exact ih inner (pass.1.unique next ▸ chain) inside
  · rintro ⟨chain, nothing⟩
    induction chain using ReflTransGen.head_induction_on with
    | refl => exact .refl
    | head next chain ih =>
      have here := nothing _ .refl (.head' next chain)
      exact .head ⟨next, here⟩ (ih fun inner rest inside => nothing inner (.head next rest) inside)

theorem Nested.searchOutward_passes (nested : table.Nested)
    (passes : ReflTransGen (table.Passes find) scope last) :
    table.searchOutward find scope = table.searchOutward find last := by
  induction passes using ReflTransGen.head_induction_on with
  | refl => rfl
  | head pass _ ih =>
    obtain ⟨⟨s, found, around⟩, here⟩ := pass
    rw [nested.searchOutward_next here (orDangling_eq_ok_iff.mp found) around, ih]

/-- A search that finds nothing in a scope without a scope around it finds nothing. -/
theorem searchOutward_last {s : Scope} (here : find scope = .ok none)
    (found : table.scopes[scope.index]? = some s) (around : s.enclosing = none) :
    table.searchOutward find scope = .ok none := by
  simp [searchOutward, searchWithin, here, SymbolTable.scope, found, around, pure, Except.pure]

theorem searchOutward_error {fault : Fault} (here : find scope = .error fault) :
    table.searchOutward find scope = .error fault := by
  simp [searchOutward, searchWithin, here]

/-- A search finds what the first scope gives that has something. -/
theorem Nested.searchOutward_eq_some_iff (nested : table.Nested)
    (known : scope.index < table.scopes.size) {symbol : SymbolId} :
    table.searchOutward find scope = .ok (some symbol) ↔
      ∃ last, ReflTransGen (table.Passes find) scope last ∧ find last = .ok (some symbol) := by
  constructor
  · refine nested.outward_induction (motive := fun scope =>
      table.searchOutward find scope = .ok (some symbol) →
        ∃ last, ReflTransGen (table.Passes find) scope last ∧ find last = .ok (some symbol))
      (fun scope s found ih searched => ?_) known
    cases here : find scope with
    | error fault => cases (searchOutward_error here).symm.trans searched
    | ok answer =>
      cases answer with
      | some symbol =>
        rw [searchOutward_here here] at searched
        exact ⟨scope, .refl, here.trans searched⟩
      | none =>
        cases around : s.enclosing with
        | none => cases (searchOutward_last here found around).symm.trans searched
        | some outer =>
          rw [nested.searchOutward_next here found around] at searched
          obtain ⟨last, passes, there⟩ := ih outer around searched
          exact ⟨last, .head ⟨⟨s, orDangling_eq_ok_iff.mpr found, around⟩, here⟩ passes, there⟩
  · rintro ⟨last, passes, there⟩
    rw [nested.searchOutward_passes passes, searchOutward_here there]

/-- A search finds nothing exactly if no scope of the chain has anything. -/
theorem Nested.searchOutward_eq_none_iff (nested : table.Nested)
    (known : scope.index < table.scopes.size) :
    table.searchOutward find scope = .ok none ↔
      ∀ last, ReflTransGen table.StandsIn scope last → find last = .ok none := by
  refine nested.outward_induction (motive := fun scope =>
    table.searchOutward find scope = .ok none ↔
      ∀ last, ReflTransGen table.StandsIn scope last → find last = .ok none)
    (fun scope s found ih => ?_) known
  have isScope := orDangling_eq_ok_iff.mpr found
  cases here : find scope with
  | error fault =>
    rw [searchOutward_error here]
    exact ⟨nofun, fun nothing => nomatch here.symm.trans (nothing scope .refl)⟩
  | ok answer =>
    cases answer with
    | some symbol =>
      rw [searchOutward_here here]
      exact ⟨nofun, fun nothing => nomatch here.symm.trans (nothing scope .refl)⟩
    | none =>
      cases around : s.enclosing with
      | none =>
        refine iff_of_true (searchOutward_last here found around) fun last chain => ?_
        rcases chain.cases_head with rfl | ⟨outer, ⟨t, foundToo, aroundToo⟩, -⟩
        · exact here
        · obtain rfl := Except.ok.inj (isScope.symm.trans foundToo)
          cases around.symm.trans aroundToo
      | some outer =>
        have next : table.StandsIn scope outer := ⟨s, isScope, around⟩
        rw [nested.searchOutward_next here found around, ih outer around]
        constructor
        · intro nothing last chain
          rcases chain.cases_head with rfl | ⟨first, nextFirst, chain⟩
          · exact here
          · exact nothing last (next.unique nextFirst ▸ chain)
        · exact fun nothing last chain => nothing last (.head next chain)

/-- The scopes of a table stand in another as they do there. -/
def KeepsLinks (after table : SymbolTable) : Prop :=
  ∀ (i : Nat) (s : Scope), table.scopes[i]? = some s →
    ∃ t, after.scopes[i]? = some t ∧ t.enclosing = s.enclosing

section KeepsLinks

variable (keeps : after.KeepsLinks table) (nested : table.Nested)
include keeps

theorem KeepsLinks.standsIn {inner outer : ScopeId} (next : table.StandsIn inner outer) :
    after.StandsIn inner outer := by
  obtain ⟨s, found, around⟩ := next
  obtain ⟨t, foundToo, same⟩ := keeps _ s (orDangling_eq_ok_iff.mp found)
  exact ⟨t, orDangling_eq_ok_iff.mpr foundToo, same.trans around⟩

include nested

/-- A search comes to a scope in both tables if it has the same in all scopes before. -/
theorem KeepsLinks.passes (agree : ∀ inner : ScopeId, inner.index < table.scopes.size →
      inner ≠ last → other inner = find inner)
    (passes : ReflTransGen (table.Passes find) scope last) :
    ReflTransGen (after.Passes other) scope last := by
  induction passes using ReflTransGen.head_induction_on with
  | refl => exact .refl
  | @head inner outer pass rest ih =>
    obtain ⟨next, here⟩ := pass
    have before := nested.standsIn_lt next
    have further := nested.chain_le (chain_of_passes rest)
    have proper : inner ≠ last := by
      rintro rfl
      omega
    exact .head ⟨keeps.standsIn next, (agree inner next.known proper).trans here⟩ ih

/-- A search answers the same in both tables if all scopes do that it comes to. -/
theorem KeepsLinks.searchOutward_eq (nestedAfter : after.Nested)
    (known : scope.index < table.scopes.size)
    (agree : ∀ last : ScopeId, last.index < table.scopes.size →
      ReflTransGen (table.Passes find) scope last → other last = find last) :
    after.searchOutward other scope = table.searchOutward find scope := by
  refine nested.outward_induction (motive := fun scope =>
    (∀ last : ScopeId, last.index < table.scopes.size →
      ReflTransGen (table.Passes find) scope last → other last = find last) →
    after.searchOutward other scope = table.searchOutward find scope)
    (fun scope s found ih agree => ?_) known agree
  have known := (Array.getElem?_eq_some_iff.mp found).1
  have same := agree scope known .refl
  obtain ⟨t, foundToo, aroundToo⟩ := keeps _ s found
  cases here : find scope with
  | error fault => rw [searchOutward_error here, searchOutward_error (same.trans here)]
  | ok answer =>
    cases answer with
    | some symbol => rw [searchOutward_here here, searchOutward_here (same.trans here)]
    | none =>
      cases around : s.enclosing with
      | none =>
        rw [searchOutward_last here found around,
          searchOutward_last (same.trans here) foundToo (aroundToo.trans around)]
      | some outer =>
        have pass : table.Passes find scope outer :=
          ⟨⟨s, orDangling_eq_ok_iff.mpr found, around⟩, here⟩
        rw [nested.searchOutward_next here found around,
          nestedAfter.searchOutward_next (same.trans here) foundToo (aroundToo.trans around)]
        exact ih outer around fun last bound passes => agree last bound (.head pass passes)

end KeepsLinks

end Searching

end ScriptSemantics.SymbolTable
