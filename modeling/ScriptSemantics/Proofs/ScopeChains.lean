import Mathlib.Data.Fintype.EquivFin
import ScriptSemantics.Proofs.Nesting
import ScriptSemantics.Proofs.TableCalls

/-!
# Chains of scopes in tables built by any calls

A call may open a scope in the very scope that it opens, since that one is there before the call
looks for it. Such a scope stands in itself: chains that lead to it have no end, and lookups along
them end only if they find something. As long as every call opens scopes in ones that exist, each
scope stands in an earlier one, and all chains end at the namespace.
-/
namespace ScriptSemantics

open Relation (ReflTransGen)

/-- A computation with a result or a number that names nothing, rather than without end. -/
def Ends {α : Type} (x : Except Fault α) : Prop := x ≠ .error .endless

section Ends

variable {α β : Type}

theorem ends_ok (a : α) : Ends (.ok a) := nofun

theorem ends_orDangling (entry : Option α) : Ends (orDangling entry) := by
  cases entry <;> exact nofun

theorem Ends.bind {x : Except Fault α} {f : α → Except Fault β} (first : Ends x)
    (rest : ∀ a, x = .ok a → Ends (f a)) : Ends (x >>= f) := by
  cases x with
  | ok a => exact rest a rfl
  | error fault =>
    rintro ⟨⟩
    exact first rfl

theorem ends_findM? {f : α → Except Fault Bool} (items : List α) (each : ∀ a ∈ items, Ends (f a)) :
    Ends (items.findM? f) := by
  induction items with
  | nil => exact ends_ok none
  | cons a items ih =>
    refine (each a (by simp)).bind fun here _ => ?_
    cases here with
    | true => exact ends_ok (some a)
    | false => exact ih fun b member => each b (by simp [member])

theorem TypeTable.ends_pairwise {same : Ty → Ty → Except Fault Bool}
    (each : ∀ left right, Ends (same left right)) (lefts rights : List Ty) :
    Ends (pairwise same lefts rights) := by
  induction lefts generalizing rights with
  | nil => exact ends_ok true
  | cons left lefts ih =>
    cases rights with
    | nil => exact ends_ok true
    | cons right rights =>
      refine (each left right).bind fun agree _ => ?_
      cases agree with
      | true => exact ih rights
      | false => exact ends_ok false

end Ends

namespace SymbolTable

variable {table after : SymbolTable}

theorem ends_symbolsIn (table : SymbolTable) (scope : ScopeId) : Ends (table.symbolsIn scope) := by
  refine (ends_orDangling _).bind fun s _ => ?_
  generalize s.symbols = ids
  induction ids with
  | nil => exact ends_ok []
  | cons id ids ih =>
    rw [List.mapM_cons]
    exact (ends_orDangling _).bind fun symbol _ => ih.bind fun rest _ => ends_ok (symbol :: rest)

theorem ends_variableTypes (table : SymbolTable) (ids : List SymbolId) :
    Ends (table.variableTypes ids) := by
  induction ids with
  | nil => exact ends_ok _
  | cons id ids ih =>
    refine (ends_orDangling _).bind fun symbol _ => ?_
    split
    · exact ends_ok none
    · exact ih.bind fun types _ => ends_ok _

/-- Searching one scope for a function ends if comparing types does. -/
theorem ends_findFunction {types : TypeTable}
    (compares : ∀ left right, Ends (types.sameType left right)) (scope : ScopeId) (name : String)
    (arguments : List Ty) : Ends (table.findFunction types scope name arguments) := by
  have accepts (id : SymbolId) : Ends (table.accepts types arguments id) := by
    have declared : Ends (table.parameterTypes id) := by
      refine (ends_orDangling _).bind fun symbol _ => ?_
      split
      · exact ends_variableTypes table _
      · exact ends_ok none
    refine declared.bind fun declared _ => ?_
    cases declared with
    | none => exact ends_ok false
    | some declared =>
      change Ends (if arguments.length = declared.length then _ else _)
      split
      · exact TypeTable.ends_pairwise compares _ _
      · exact ends_ok false
  refine (ends_symbolsIn table scope).bind fun symbols _ => ?_
  exact (ends_findM? _ fun symbol _ => accepts symbol.id).bind fun found _ => ends_ok _

theorem StandsIn.unique {scope outer other : ScopeId} (next : table.StandsIn scope outer)
    (nextOther : table.StandsIn scope other) : other = outer := by
  obtain ⟨s, found, around⟩ := next
  obtain ⟨t, foundOther, aroundOther⟩ := nextOther
  rw [found, Except.ok.injEq] at foundOther
  subst foundOther
  exact Option.some.inj (aroundOther.symm.trans around)

/-- A chain that has come to a scope standing in itself stays there. -/
theorem StandsIn.stuck {scope last : ScopeId} (itself : table.StandsIn scope scope)
    (chain : ReflTransGen table.StandsIn scope last) : last = scope := by
  induction chain with
  | refl => rfl
  | tail _ next same =>
    subst same
    exact itself.unique next

theorem Linked.not_root_standsIn (linked : table.Linked) (outer : ScopeId) :
    ¬ table.StandsIn root outer := by
  rintro ⟨s, found, around⟩
  obtain ⟨outermost, foundOutermost, none⟩ := linked.outermost
  have same := orDangling_eq_ok_iff.mp found
  rw [show root.index = 0 from rfl, foundOutermost, Option.some.injEq] at same
  rw [← same, none] at around
  cases around

theorem Linked.standsIn_le (linked : table.Linked) {inner outer : ScopeId}
    (next : table.StandsIn inner outer) : outer.index ≤ inner.index := by
  obtain ⟨s, found, around⟩ := next
  exact linked.enclosing_le (orDangling_eq_ok_iff.mp found) around

/-- A chain that ends at the namespace goes through earlier and earlier scopes. -/
theorem Linked.standsIn_lt (linked : table.Linked) {inner outer : ScopeId}
    (next : table.StandsIn inner outer) (chain : ReflTransGen table.StandsIn outer root) :
    outer.index < inner.index := by
  refine lt_of_le_of_ne (linked.standsIn_le next) fun same => ?_
  obtain rfl : outer = inner := congrArg ScopeId.mk same
  obtain rfl := next.stuck chain
  exact linked.not_root_standsIn _ next

theorem inward_iff_standsIn : table.Inward ↔
    ∀ inner outer, table.StandsIn inner outer → outer.index < inner.index := by
  constructor
  · rintro inward inner outer ⟨s, found, around⟩
    exact inward _ s outer (orDangling_eq_ok_iff.mp found) around
  · intro lt i s outer found around
    exact lt ⟨i⟩ outer ⟨s, orDangling_eq_ok_iff.mpr found, around⟩

/-- Unless some scope stands in itself, all of them stand in earlier ones. -/
theorem Linked.exists_standsIn_self (linked : table.Linked) (outward : ¬ table.Inward) :
    ∃ scope, table.StandsIn scope scope := by
  simp only [inward_iff_standsIn, not_forall, not_lt] at outward
  obtain ⟨inner, outer, next, ge⟩ := outward
  have same : outer = inner := congrArg ScopeId.mk (le_antisymm (linked.standsIn_le next) ge)
  exact ⟨inner, same ▸ next⟩

theorem StandsIn.known {inner outer : ScopeId} (next : table.StandsIn inner outer) :
    inner.index < table.scopes.size := by
  obtain ⟨s, found, -⟩ := next
  exact (Array.getElem?_eq_some_iff.mp (orDangling_eq_ok_iff.mp found)).1

/-- Scopes stand in earlier ones exactly if every chain ends at the namespace. -/
theorem Linked.inward_iff_rooted (linked : table.Linked) : table.Inward ↔
    ∀ scope : ScopeId, scope.index < table.scopes.size →
      ReflTransGen table.StandsIn scope root := by
  constructor
  · intro inward scope known
    exact (linked.nested inward).rooted known
  · intro rooted
    by_contra outward
    obtain ⟨scope, itself⟩ := linked.exists_standsIn_self outward
    obtain rfl := itself.stuck (rooted scope itself.known)
    exact linked.not_root_standsIn _ itself

variable {find : ScopeId → Except Fault (Option SymbolId)}

/-- A search along a chain that ends at the namespace answers as one of its scopes does, or that
there is nothing. The chain is shorter than the number of the scope that it begins with. -/
theorem Linked.searchWithin_rooted (linked : table.Linked) {bound : Nat} {scope : ScopeId}
    (room : scope.index < bound) (known : scope.index < table.scopes.size)
    (rooted : ReflTransGen table.StandsIn scope root) :
    table.searchWithin find bound scope = .ok none ∨
      ∃ last, last.index < table.scopes.size ∧
        table.searchWithin find bound scope = find last := by
  induction bound generalizing scope with
  | zero => omega
  | succ bound ih =>
    obtain ⟨s, found⟩ := scope_exists known
    simp only [searchWithin, SymbolTable.scope, found, orDangling_some, ok_bind]
    cases here : find scope with
    | error fault => exact .inr ⟨scope, known, here.symm⟩
    | ok answer =>
      cases answer with
      | some symbol => exact .inr ⟨scope, known, here.symm⟩
      | none =>
        cases around : s.enclosing with
        | none => exact .inl rfl
        | some outer =>
          have next : table.StandsIn scope outer := ⟨s, orDangling_eq_ok_iff.mpr found, around⟩
          have rest : ReflTransGen table.StandsIn outer root := by
            rcases rooted.cases_head with rfl | ⟨other, nextOther, rest⟩
            · exact (linked.not_root_standsIn _ next).elim
            · exact next.unique nextOther ▸ rest
          have before := linked.standsIn_lt next rest
          exact ih (by omega) (by omega) rest

theorem Linked.searchOutward_rooted (linked : table.Linked) {scope : ScopeId}
    (known : scope.index < table.scopes.size) (rooted : ReflTransGen table.StandsIn scope root) :
    table.searchOutward find scope = .ok none ∨
      ∃ last, last.index < table.scopes.size ∧ table.searchOutward find scope = find last :=
  linked.searchWithin_rooted (by omega) known rooted

/-- A search in a scope that stands in itself and has nothing to find has no end. -/
theorem searchOutward_endless {scope : ScopeId} (itself : table.StandsIn scope scope)
    (nothing : find scope = .ok none) : table.searchOutward find scope = .error .endless := by
  have within (bound : Nat) : table.searchWithin find bound scope = .error .endless := by
    induction bound with
    | zero => rfl
    | succ bound ih =>
      obtain ⟨s, found, around⟩ := itself
      simp only [searchWithin, nothing, ok_bind, found, around, ih]
  exact within _

/-- Every lookup from a scope of the table ends, for functions if comparing types does. -/
structure LookupsEnd (table : SymbolTable) : Prop where
  variable_ends : ∀ scope : ScopeId, scope.index < table.scopes.size → ∀ name,
    Ends (table.lookupVariable scope name)
  class_ends : ∀ scope : ScopeId, scope.index < table.scopes.size → ∀ name,
    Ends (table.lookupClass scope name)
  function_ends : ∀ types : TypeTable, (∀ left right, Ends (types.sameType left right)) →
    ∀ scope : ScopeId, scope.index < table.scopes.size → ∀ name arguments,
      Ends (table.lookupFunction types scope name arguments)

theorem Linked.lookupsEnd (linked : table.Linked) (inward : table.Inward) : table.LookupsEnd := by
  have search {find : ScopeId → Except Fault (Option SymbolId)} (each : ∀ scope, Ends (find scope))
      (scope : ScopeId) (known : scope.index < table.scopes.size) :
      Ends (table.searchOutward find scope) := by
    have rooted := linked.inward_iff_rooted.mp inward scope known
    rcases linked.searchOutward_rooted known rooted with nothing | ⟨last, -, same⟩
    · rw [nothing]
      exact ends_ok none
    · rw [same]
      exact each last
  refine ⟨fun scope known name => ?_, fun scope known name => ?_,
    fun types compares scope known name arguments => ?_⟩
  · exact search (fun scope => (ends_symbolsIn table scope).bind fun _ _ => ends_ok _) scope known
  · exact search (fun scope => (ends_symbolsIn table scope).bind fun _ _ => ends_ok _) scope known
  · exact search (fun scope => ends_findFunction compares scope name arguments) scope known

theorem exists_unused_name (symbols : List Symbol) :
    ∃ name : String, ∀ symbol ∈ symbols, symbol.name ≠ name := by
  obtain ⟨name, unused⟩ := Infinite.exists_notMem_finset (symbols.map Symbol.name).toFinset
  refine ⟨name, fun symbol member same => unused ?_⟩
  rw [List.mem_toFinset, ← same]
  exact List.mem_map_of_mem member

/-- If every lookup of a variable ends, no scope stands in itself: a lookup from there of a name
that is not in use would not end. -/
theorem LookupsEnd.inward (lookups : table.LookupsEnd) (ordered : table.Ordered)
    (linked : table.Linked) : table.Inward := by
  by_contra outward
  obtain ⟨scope, itself⟩ := linked.exists_standsIn_self outward
  obtain ⟨symbols, read, -⟩ := ordered.find_symbolsIn itself.known
  obtain ⟨name, unused⟩ := exists_unused_name symbols
  refine lookups.variable_ends scope itself.known name (searchOutward_endless itself ?_)
  have nothing : symbols.find? (fun s => s.name == name && s.kind.isVariable) = none := by
    rw [List.find?_eq_none]
    intro symbol member
    simp [unused symbol member]
  simp [findVariable, read, nothing, pure, Except.pure]

/-- The scope in which a call declares something. -/
def Call.declaresIn : Call → Option ScopeId
  | .addSymbol scope .. | .declareVariable scope .. | .declareFunction scope ..
  | .declareClass scope .. | .pushBlock scope => some scope
  | _ => none

/-- A call that opens a scope succeeds in a scope that exists and in the one that it opens. -/
theorem perform_isOk_of_opens {call : Call} {scope : ScopeId} (opens : call.opensIn = some scope) :
    (∃ after, table.perform call = .ok after) ↔ scope.index ≤ table.scopes.size := by
  constructor
  · rintro ⟨after, performed⟩
    have change := perform_change performed
    rw [opens] at change
    cases change with
    | owner _ _ _ _ _ _ known => exact known
    | block _ known => exact known
  · intro known
    cases call with
    | declareFunction enclosing name node location =>
      cases opens
      exact ⟨_, map_eq_ok_iff.mpr ⟨_, declareFunction_eq_ok known name node location, rfl⟩⟩
    | declareClass enclosing name node location =>
      cases opens
      exact ⟨_, map_eq_ok_iff.mpr ⟨_, declareClass_eq_ok known name node location, rfl⟩⟩
    | pushBlock enclosing =>
      cases opens
      exact ⟨_, map_eq_ok_iff.mpr ⟨_, pushBlock_eq_ok known, rfl⟩⟩
    | _ => cases opens

/-- A call that declares in a scope that does not exist succeeds only if it opens that scope. -/
theorem perform_ahead_isOk_iff {call : Call} {scope : ScopeId}
    (declares : call.declaresIn = some scope) (ahead : table.scopes.size ≤ scope.index) :
    (∃ after, table.perform call = .ok after) ↔
      call.opensIn = some scope ∧ scope = table.nextScope := by
  have next : scope = table.nextScope ↔ scope.index ≤ table.scopes.size :=
    ⟨fun same => by rw [same]; rfl, fun le => congrArg ScopeId.mk (le_antisymm le ahead)⟩
  rw [next]
  have refused {name : String} {kind : SymbolKind} {node : NodeId} {location : Location}
      {answer : SymbolId × SymbolTable}
      (added : table.addSymbol scope name kind node location = .ok answer) : False :=
    Nat.not_lt.mpr ahead (addSymbol_known added)
  cases call with
  | addSymbol _ name kind node location =>
    cases declares
    refine ⟨fun ⟨after, performed⟩ => ?_, fun opens => nomatch opens.1⟩
    obtain ⟨_, added, -⟩ := map_eq_ok_iff.mp performed
    exact (refused added).elim
  | declareVariable _ name node location =>
    cases declares
    refine ⟨fun ⟨after, performed⟩ => ?_, fun opens => nomatch opens.1⟩
    obtain ⟨_, added, -⟩ := map_eq_ok_iff.mp performed
    exact (refused added).elim
  | declareFunction | declareClass | pushBlock =>
    cases declares
    rw [perform_isOk_of_opens rfl]
    exact (and_iff_right rfl).symm
  | _ => cases declares

/-- One change keeps links inward unless it opens a scope in one that is not there before. -/
theorem Change.inward_iff {opened : Option ScopeId} (change : table.Change opened after) :
    after.Inward ↔
      table.Inward ∧ ∀ outer, opened = some outer → outer.index < table.scopes.size := by
  cases change with
  | symbol scope name kind node location known =>
    have same := @withSymbol_sameFrames table scope name kind node location
    simp only [reduceCtorEq, false_implies, implies_true, and_true]
    exact ⟨fun inward => inward.of_sameFrames same.symm, fun inward => inward.of_sameFrames same⟩
  | owner scopeKind symbolKind enclosing name node location known owner own sort =>
    rw [(withOwner_opens name node location owner).inward_iff]
    simp
  | block enclosing known =>
    rw [withBlock_opens.inward_iff]
    simp
  | kind id change keeps =>
    simp only [reduceCtorEq, false_implies, implies_true, and_true]
    rfl

/-- Every call of a run that opens a scope does so in a scope that exists by then. -/
def OpensInside (table : SymbolTable) (calls : List Call) : Prop :=
  ∀ (before : List Call) (call : Call) (rest : List Call) (earlier : SymbolTable) (outer : ScopeId),
    calls = before ++ call :: rest → before.foldlM perform table = .ok earlier →
      call.opensIn = some outer → outer.index < earlier.scopes.size

theorem opensInside_cons {call : Call} {calls : List Call} {next : SymbolTable}
    (performed : table.perform call = .ok next) : table.OpensInside (call :: calls) ↔
      (∀ outer, call.opensIn = some outer → outer.index < table.scopes.size) ∧
        next.OpensInside calls := by
  constructor
  · intro inside
    refine ⟨fun outer opens => inside [] call calls table outer rfl rfl opens, ?_⟩
    intro before other rest earlier outer split ran opens
    refine inside (call :: before) other rest earlier outer (by rw [split]; rfl) ?_ opens
    rw [List.foldlM_cons, performed]
    exact ran
  · rintro ⟨first, later⟩ before other rest earlier outer split ran opens
    cases before with
    | nil =>
      cases split
      cases ran
      exact first outer opens
    | cons head before =>
      rw [List.cons_append, List.cons.injEq] at split
      obtain ⟨rfl, rfl⟩ := split
      rw [List.foldlM_cons, performed] at ran
      exact later before other rest earlier outer rfl ran opens

/-- A run keeps links inward exactly if none of its calls opens a scope in one that is not there. -/
theorem run_inward_iff {calls : List Call} (ran : calls.foldlM perform table = .ok after) :
    after.Inward ↔ table.Inward ∧ table.OpensInside calls := by
  induction calls generalizing table with
  | nil =>
    cases ran
    simp [OpensInside]
  | cons call calls ih =>
    rw [List.foldlM_cons] at ran
    obtain ⟨next, performed, rest⟩ := bind_eq_ok_iff.mp ran
    rw [ih rest, (perform_change performed).inward_iff, opensInside_cons performed, and_assoc]

/-- Scopes lead out to the namespace, except through one that was opened in itself. -/
theorem calls_link_scopes {name : String} {calls : List Call}
    (ran : calls.foldlM perform (.new name) = .ok table) :
    (∀ scope : ScopeId, scope.index < table.scopes.size → scope ≠ root →
      ∃ outer, table.StandsIn scope outer ∧ outer.index ≤ scope.index) ∧
    (table.Inward ↔ (SymbolTable.new name).OpensInside calls) ∧
    (table.Inward ↔ ∀ scope : ScopeId, scope.index < table.scopes.size →
      ReflTransGen table.StandsIn scope root) ∧
    (table.Inward ↔ table.LookupsEnd) ∧
    ∀ (call : Call) (scope : ScopeId), call.declaresIn = some scope →
      table.scopes.size ≤ scope.index →
      ((∃ after, table.perform call = .ok after) ↔
        call.opensIn = some scope ∧ scope = table.nextScope) := by
  have built := (Built.new name).run ran
  refine ⟨fun scope known inside => ?_, ?_, built.linked.inward_iff_rooted,
    ⟨built.linked.lookupsEnd, fun lookups => lookups.inward built.ordered built.linked⟩,
    fun call scope declares ahead => perform_ahead_isOk_iff declares ahead⟩
  · obtain ⟨s, found⟩ := scope_exists known
    have notFirst : scope.index ≠ 0 := fun same => inside (congrArg ScopeId.mk same)
    obtain ⟨outer, around, le⟩ := built.linked.enclosed _ s found notFirst
    exact ⟨outer, ⟨s, orDangling_eq_ok_iff.mpr found, around⟩, le⟩
  · rw [run_inward_iff ran]
    exact and_iff_right (Nested.new name).inward

/-- A table with a block that was opened in itself. -/
def circular : SymbolTable :=
  ⟨#[⟨⟨0⟩, .namespaceScope "global", none, [], []⟩, ⟨⟨1⟩, .blockScope, some ⟨1⟩, [], [⟨1⟩]⟩], #[]⟩

theorem calls_link_scopes_circular :
    [Call.pushBlock ⟨1⟩].foldlM perform (.new "global") = .ok circular ∧
      circular.StandsIn ⟨1⟩ ⟨1⟩ ∧ circular.lookupVariable ⟨1⟩ "x" = .error .endless ∧
      ¬ (SymbolTable.new "global").OpensInside [.pushBlock ⟨1⟩] ∧ ¬ circular.LookupsEnd := by
  have ran : [Call.pushBlock ⟨1⟩].foldlM perform (.new "global") = .ok circular := rfl
  obtain ⟨-, inside, -, lookups, -⟩ := calls_link_scopes ran
  have itself : circular.StandsIn ⟨1⟩ ⟨1⟩ := ⟨_, rfl, rfl⟩
  have outward : ¬ circular.Inward := fun inward =>
    lt_irrefl 1 (inward_iff_standsIn.mp inward ⟨1⟩ ⟨1⟩ itself)
  exact ⟨ran, itself, rfl, outward ∘ inside.mpr, outward ∘ lookups.mpr⟩

end SymbolTable

end ScriptSemantics
