import ScriptSemantics.Proofs.ReachedTables
import ScriptSemantics.Proofs.TypeCalls

/-!
# Searching for overloads

A search for a function asks the symbols of its name in the order in which a scope lists them and
takes the first function whose parameters are all typed and match the arguments. Arguments that match
stand for the same terms, so nothing tells them apart: wherever one list is compared, the other gives
the same answer, and a search does too.
-/
namespace ScriptSemantics

/-- What stands in the one list goes with something in the other. -/
theorem exists_of_forall₂_of_mem {α β : Type} {R : α → β → Prop} {xs : List α} {ys : List β}
    (all : List.Forall₂ R xs ys) {x : α} (member : x ∈ xs) : ∃ y ∈ ys, R x y := by
  induction all with
  | nil => cases member
  | cons here _ ih =>
    rcases List.mem_cons.mp member with rfl | member
    · exact ⟨_, by simp, here⟩
    · obtain ⟨y, inside, related⟩ := ih member
      exact ⟨y, by simp [inside], related⟩

section First

variable {α : Type} {f : α → Except Fault Bool} {items : List α}

theorem exists_first_of_findM? {a : α} (found : items.findM? f = .ok (some a)) :
    ∃ before rest, items = before ++ a :: rest ∧ (∀ b ∈ before, f b = .ok false) ∧
      f a = .ok true := by
  induction items with
  | nil => cases found
  | cons first items ih =>
    obtain ⟨answer, here, found⟩ := bind_eq_ok_iff.mp found
    cases answer with
    | true =>
      cases found
      exact ⟨[], items, rfl, by simp, here⟩
    | false =>
      obtain ⟨before, rest, rfl, unfit, fits⟩ := ih found
      exact ⟨first :: before, rest, rfl, by simpa [here] using unfit, fits⟩

theorem unfit_of_findM? (found : items.findM? f = .ok none) : ∀ a ∈ items, f a = .ok false := by
  induction items with
  | nil => simp
  | cons first items ih =>
    obtain ⟨answer, here, found⟩ := bind_eq_ok_iff.mp found
    cases answer with
    | true => cases found
    | false => exact List.forall_mem_cons.mpr ⟨here, ih found⟩

theorem findM?_isOk (ok : ∀ a ∈ items, ∃ answer, f a = .ok answer) :
    ∃ found, items.findM? f = .ok found := by
  induction items with
  | nil => exact ⟨none, rfl⟩
  | cons first items ih =>
    obtain ⟨answer, here⟩ := ok first (by simp)
    simp only [List.findM?, here, ok_bind]
    cases answer with
    | true => exact ⟨some first, rfl⟩
    | false => exact ih fun a member => ok a (by simp [member])

/-- A search among those that are picked passes over the others. -/
theorem findM?_filter {p : α → Bool} :
    (items.filter p).findM? f = items.findM? fun a => if p a then f a else .ok false := by
  induction items with
  | nil => rfl
  | cons first items ih =>
    by_cases picked : p first = true <;> simp [List.findM?, picked, ih]

end First

namespace TypeTable

variable {types : TypeTable} {isClass : ScopeId → Prop}

/-- Handles of the same type are compared with any handle alike, also with one that is unknown. -/
theorem sameType_congr (formed : types.Formed isClass) {left right : Ty}
    (same : types.sameType left right = .ok true) (other : Ty) :
    types.sameType left other = types.sameType right other := by
  by_cases functions : ∃ l r, left = .functionType l ∧ right = .functionType r
  · obtain ⟨l, r, rfl, rfl⟩ := functions
    obtain ⟨leftSignature, leftRead, same'⟩ := bind_eq_ok_iff.mp same
    obtain ⟨rightSignature, rightRead, -⟩ := bind_eq_ok_iff.mp same'
    have known {id : FunctionTypeId} {signature : Signature}
        (read : types.signature id = .ok signature) :
        (Ty.functionType id).Formed isClass types.functions.size :=
      (Array.getElem?_eq_some_iff.mp (orDangling_eq_ok_iff.mp read)).1
    have terms := (sameType_eq_ok_true_iff formed (known leftRead) (known rightRead)).mp same
    cases other with
    | functionType o =>
      cases read : types.signature o with
      | error fault =>
        simp only [sameType, comparisonDepth, sameWithin, leftRead, rightRead, read, ok_bind,
          error_bind]
      | ok signature =>
        obtain ⟨answer, compared, isAnswer⟩ := sameType_spec formed (known leftRead) (known read)
        obtain ⟨answer', compared', isAnswer'⟩ := sameType_spec formed (known rightRead) (known read)
        rw [compared, compared', Bool.eq_iff_iff.mpr (isAnswer.trans (terms ▸ isAnswer'.symm))]
    | _ => rfl
  · have plain : types.sameType left right = .ok (left == right) := by
      cases left <;> cases right <;> first | rfl | exact (functions ⟨_, _, rfl, rfl⟩).elim
    obtain rfl : left = right := by simpa using Except.ok.inj (plain.symm.trans same)
    rfl

/-- Lists that agree position by position agree alike with any list. -/
theorem pairwise_congr {same : Ty → Ty → Except Fault Bool}
    (congr : ∀ left right, same left right = .ok true → ∀ other, same left other = same right other)
    {lefts rights : List Ty} (lengths : lefts.length = rights.length)
    (agree : pairwise same lefts rights = .ok true) (others : List Ty) :
    pairwise same lefts others = pairwise same rights others := by
  induction lefts generalizing rights others with
  | nil =>
    obtain rfl : rights = [] := List.length_eq_zero_iff.mp lengths.symm
    rfl
  | cons left lefts ih =>
    cases rights with
    | nil => simp at lengths
    | cons right rights =>
      obtain ⟨answer, first, rest⟩ := bind_eq_ok_iff.mp agree
      cases answer with
      | false => cases rest
      | true =>
        cases others with
        | nil => rfl
        | cons other others =>
          simp only [pairwise, congr left right first other,
            ih (Nat.succ.inj lengths) rest others]

theorem matchParameterTypes_congr (formed : types.Formed isClass) {lefts rights : List Ty}
    (same : types.matchParameterTypes lefts rights = .ok true) (others : List Ty) :
    types.matchParameterTypes lefts others = types.matchParameterTypes rights others := by
  unfold matchParameterTypes matchWith at same ⊢
  split at same
  next lengths =>
    rw [lengths,
      pairwise_congr (fun left right => sameType_congr formed) lengths same others]
  next => cases same

end TypeTable

namespace SymbolTable

open Relation (ReflTransGen TransGen)
open TypeTable (Sourced fill)

variable {table : SymbolTable} {types : TypeTable} {scope : ScopeId} {name : String}
  {arguments : List Ty}

/-- A number names a variable with a type. -/
def HasType (table : SymbolTable) (id : SymbolId) (type : Ty) : Prop :=
  ∃ symbol, table.symbols[id.index]? = some symbol ∧ symbol.kind.variableType = some type

/-- A number names a function of a scope with a name, whose parameters are all typed and match the
arguments. -/
def Fits (table : SymbolTable) (types : TypeTable) (scope : ScopeId) (name : String)
    (arguments : List Ty) (function : SymbolId) : Prop :=
  ∃ symbol own result parameters declared, table.symbols[function.index]? = some symbol ∧
    symbol.enclosing = scope ∧ symbol.name = name ∧
    symbol.kind = .function own result parameters ∧
    List.Forall₂ table.HasType parameters declared ∧
    types.matchParameterTypes arguments declared = .ok true

theorem variableTypes_eq_ok_some_iff {ids : List SymbolId} {declared : List Ty} :
    table.variableTypes ids = .ok (some declared) ↔ List.Forall₂ table.HasType ids declared := by
  induction ids generalizing declared with
  | nil =>
    rw [List.forall₂_nil_left_iff]
    exact ⟨fun same => (Option.some.inj (Except.ok.inj same)).symm, fun same => same ▸ rfl⟩
  | cons id ids ih =>
    simp only [variableTypes, SymbolTable.symbol, List.forall₂_cons_left_iff, ← ih]
    cases found : table.symbols[id.index]? with
    | none => simp [HasType, found]
    | some symbol =>
      simp only [orDangling_some, ok_bind]
      cases type : symbol.kind.variableType with
      | none => simp [HasType, found, type, pure, Except.pure]
      | some type =>
        cases table.variableTypes ids with
        | error fault => simp
        | ok rest => cases rest <;> simp [HasType, *, pure, Except.pure, eq_comm]

/-- A symbol accepts arguments exactly if it is a function whose parameters are all typed and match
them. -/
theorem accepts_eq_ok_true_iff {symbol : Symbol}
    (found : table.symbols[symbol.id.index]? = some symbol) :
    table.accepts types arguments symbol.id = .ok true ↔
      ∃ own result parameters declared, symbol.kind = .function own result parameters ∧
        List.Forall₂ table.HasType parameters declared ∧
        types.matchParameterTypes arguments declared = .ok true := by
  simp only [accepts, parameterTypes, SymbolTable.symbol, found, orDangling_some, ok_bind,
    ← variableTypes_eq_ok_some_iff]
  cases symbol.kind with
  | function own result parameters =>
    simp only [SymbolKind.function.injEq]
    cases typed : table.variableTypes parameters with
    | error fault => simp [typed]
    | ok answer => cases answer <;> simp [typed, pure, Except.pure]
  | _ => simp [pure, Except.pure]

theorem Fits.typed {function : SymbolId} (fits : table.Fits types scope name arguments function)
    {symbol : Symbol} (found : table.symbols[function.index]? = some symbol) :
    ∀ parameter ∈ symbol.kind.parameters, ∃ type, table.HasType parameter type := by
  obtain ⟨other, own, result, parameters, declared, foundToo, -, -, kind, typed, -⟩ := fits
  obtain rfl := Option.some.inj (found.symm.trans foundToo)
  intro parameter member
  rw [kind] at member
  obtain ⟨type, -, hasType⟩ := exists_of_forall₂_of_mem typed member
  exact ⟨type, hasType⟩

/-- What a search in one scope asks a symbol. -/
def answersTo (table : SymbolTable) (types : TypeTable) (name : String) (arguments : List Ty)
    (symbol : Symbol) : Except Fault Bool :=
  if symbol.name == name then table.accepts types arguments symbol.id else .ok false

theorem answersTo_eq_ok_true_iff {symbol : Symbol} (housed : table.Houses scope symbol) :
    table.answersTo types name arguments symbol = .ok true ↔
      table.Fits types scope name arguments symbol.id := by
  obtain ⟨found, here⟩ := housed
  simp only [answersTo, Fits, found, Option.some.injEq, exists_and_left, exists_eq_left', here,
    true_and]
  by_cases named : symbol.name = name
  · simp only [named, beq_self_eq_true, if_true, true_and, accepts_eq_ok_true_iff found]
    simp only [exists_and_left]
  · simp [named]

theorem findFunction_eq_map (scope : ScopeId) : table.findFunction types scope name arguments =
    table.symbolsIn scope >>= fun symbols =>
      Option.map Symbol.id <$> symbols.findM? (table.answersTo types name arguments) := by
  simp only [findFunction, findM?_filter]
  rfl

section Ordered

variable (ordered : table.Ordered) (known : scope.index < table.scopes.size)
include ordered known

/-- What fits is listed, and a search that came to it would take it. -/
theorem Ordered.exists_of_fits {symbols : List Symbol} (read : table.symbolsIn scope = .ok symbols)
    {function : SymbolId} (fits : table.Fits types scope name arguments function) :
    ∃ symbol ∈ symbols, symbol.id = function ∧
      table.answersTo types name arguments symbol = .ok true := by
  obtain ⟨symbol, own, result, parameters, declared, found, here, rest⟩ := fits
  obtain rfl : symbol.id = function := ordered.symbol_id _ symbol found
  exact ⟨symbol, (ordered.mem_symbolsIn known read).mpr ⟨found, here⟩, rfl,
    (answersTo_eq_ok_true_iff ⟨found, here⟩).mpr
      ⟨symbol, own, result, parameters, declared, found, here, rest⟩⟩

/-- A search finds the first of the listing that fits. -/
theorem Ordered.findFunction_first {function : SymbolId}
    (searched : table.findFunction types scope name arguments = .ok (some function)) :
    table.Fits types scope name arguments function ∧
      ∃ before after, table.listing scope = before ++ function :: after ∧
        ∀ other, table.Fits types scope name arguments other → other ∈ function :: after := by
  obtain ⟨symbols, read, ids, -⟩ := ordered.find_symbolsIn known
  rw [findFunction_eq_map, read, ok_bind] at searched
  obtain ⟨answer, found, isAnswer⟩ := map_eq_ok_iff.mp searched
  obtain ⟨symbol, rfl, rfl⟩ := Option.map_eq_some_iff.mp isAnswer
  obtain ⟨before, rest, rfl, unfit, taken⟩ := exists_first_of_findM? found
  have housed : table.Houses scope symbol := (ordered.mem_symbolsIn known read).mp (by simp)
  refine ⟨(answersTo_eq_ok_true_iff housed).mp taken, before.map Symbol.id, rest.map Symbol.id,
    by simp [← ids], fun other fits => ?_⟩
  obtain ⟨candidate, listed, rfl, accepted⟩ := ordered.exists_of_fits known read fits
  rcases List.mem_append.mp listed with early | late
  · cases (unfit candidate early).symm.trans accepted
  · exact List.mem_map_of_mem late

/-- A search that finds nothing has passed nothing that fits. -/
theorem Ordered.not_fits_of_findFunction
    (searched : table.findFunction types scope name arguments = .ok none) (function : SymbolId) :
    ¬ table.Fits types scope name arguments function := by
  intro fits
  obtain ⟨symbols, read, -⟩ := ordered.find_symbolsIn known
  rw [findFunction_eq_map, read, ok_bind] at searched
  obtain ⟨answer, found, isAnswer⟩ := map_eq_ok_iff.mp searched
  obtain rfl := Option.map_eq_none_iff.mp isAnswer
  obtain ⟨symbol, listed, -, accepted⟩ := ordered.exists_of_fits known read fits
  cases (unfit_of_findM? found symbol listed).symm.trans accepted

end Ordered

theorem exists_variableTypes {ids : List SymbolId}
    (known : ∀ id ∈ ids, id.index < table.symbols.size) :
    ∃ declared, table.variableTypes ids = .ok declared := by
  induction ids with
  | nil => exact ⟨some [], rfl⟩
  | cons id ids ih =>
    obtain ⟨rest, read⟩ := ih fun other member => known other (by simp [member])
    simp only [variableTypes, SymbolTable.symbol, Array.getElem?_eq_getElem (known id (by simp)),
      orDangling_some, ok_bind, read]
    split <;> exact ⟨_, rfl⟩

/-- A search ends with an answer if it can compare the arguments with all types of variables. -/
theorem Ordered.findFunction_isOk (ordered : table.Ordered) (parameters : table.ParametersKnown)
    (known : scope.index < table.scopes.size) (comparable : ∀ ids declared,
      List.Forall₂ table.HasType ids declared →
        ∃ answer, types.matchParameterTypes arguments declared = .ok answer) :
    ∃ answer, table.findFunction types scope name arguments = .ok answer := by
  obtain ⟨symbols, read, -, each⟩ := ordered.find_symbolsIn known
  have asked : ∀ symbol ∈ symbols,
      ∃ answer, table.answersTo types name arguments symbol = .ok answer := by
    intro symbol listed
    simp only [answersTo, accepts, parameterTypes, SymbolTable.symbol, each symbol listed,
      orDangling_some, ok_bind]
    split
    · cases kind : symbol.kind with
      | function own result ids =>
        obtain ⟨declared, typed⟩ : ∃ declared, table.variableTypes ids = .ok declared :=
          exists_variableTypes fun id member =>
            parameters _ symbol (each symbol listed) id (by rwa [kind])
        simp only [typed, ok_bind]
        cases declared with
        | none => exact ⟨false, rfl⟩
        | some declared => exact comparable ids declared (variableTypes_eq_ok_some_iff.mp typed)
      | _ => exact ⟨false, rfl⟩
    · exact ⟨false, rfl⟩
  obtain ⟨found, searched⟩ := findM?_isOk asked
  exact ⟨found.map Symbol.id, by rw [findFunction_eq_map, read, ok_bind, searched, map_ok]⟩

section Lookups

variable {isClass : ScopeId → Prop} (formed : types.Formed isClass) {first second : List Ty}
  (same : types.matchParameterTypes first second = .ok true)
include formed same

theorem accepts_congr (function : SymbolId) :
    table.accepts types first function = table.accepts types second function := by
  simp only [accepts, TypeTable.matchParameterTypes_congr formed same]

theorem findFunction_congr (scope : ScopeId) (name : String) :
    table.findFunction types scope name first = table.findFunction types scope name second := by
  simp only [findFunction, accepts_congr formed same]

theorem lookupFunction_congr (scope : ScopeId) (name : String) :
    table.lookupFunction types scope name first = table.lookupFunction types scope name second := by
  simp only [lookupFunction, findFunction_congr formed same]

end Lookups

/-- A lookup finds what the innermost scope finds that has something, and nothing fits further
inside. -/
theorem Ordered.lookupFunction_innermost (ordered : table.Ordered) (nested : table.Nested)
    (known : scope.index < table.scopes.size) {function : SymbolId}
    (searched : table.lookupFunction types scope name arguments = .ok (some function)) :
    ∃ outer, ReflTransGen table.StandsIn scope outer ∧
      table.findFunction types outer name arguments = .ok (some function) ∧
      table.Fits types outer name arguments function ∧
      ∀ inner, ReflTransGen table.StandsIn scope inner → TransGen table.StandsIn inner outer →
        ∀ other, ¬ table.Fits types inner name arguments other := by
  obtain ⟨outer, passes, found⟩ := (nested.searchOutward_eq_some_iff known).mp searched
  obtain ⟨chain, nothing⟩ := nested.passes_iff.mp passes
  have outward {last : ScopeId} (chain : ReflTransGen table.StandsIn scope last) :
      last.index < table.scopes.size := (nested.chain_le chain).trans_lt known
  exact ⟨outer, chain, found, (ordered.findFunction_first (outward chain) found).1,
    fun inner reached inside =>
      ordered.not_fits_of_findFunction (outward reached) (nothing inner reached inside)⟩

/-- Arguments that match have the same answers. The answer of a scope is the first function of its
listing that fits, the answer of a lookup that of the innermost scope that has one; neither is a
function with an untyped parameter, and without an answer nothing fits. The search does end whenever
the types of the variables and of the arguments come from the table of types. -/
theorem overload_searches {table : SymbolTable} (reached : table.Reached)
    {calls : List TypeTable.Call} (sourced : Sourced calls) {types : TypeTable}
    (filled : (fill calls).types = types) {scope : ScopeId}
    (known : scope.index < table.scopes.size) (name : String) :
    (∀ first second, types.matchParameterTypes first second = .ok true →
      table.findFunction types scope name first = table.findFunction types scope name second ∧
      table.lookupFunction types scope name first =
        table.lookupFunction types scope name second) ∧
    (∀ arguments function,
      table.findFunction types scope name arguments = .ok (some function) →
        table.Fits types scope name arguments function ∧
        ∃ before after, table.listing scope = before ++ function :: after ∧
          ∀ other, table.Fits types scope name arguments other → other ∈ function :: after) ∧
    (∀ arguments function,
      table.lookupFunction types scope name arguments = .ok (some function) →
        ∃ outer, ReflTransGen table.StandsIn scope outer ∧
          table.findFunction types outer name arguments = .ok (some function) ∧
          table.Fits types outer name arguments function ∧
          ∀ inner, ReflTransGen table.StandsIn scope inner → TransGen table.StandsIn inner outer →
            ∀ other, ¬ table.Fits types inner name arguments other) ∧
    (∀ (function : SymbolId) symbol, table.symbols[function.index]? = some symbol →
      (∃ parameter ∈ symbol.kind.parameters, ∀ type, ¬ table.HasType parameter type) →
      ∀ arguments, table.findFunction types scope name arguments ≠ .ok (some function) ∧
        table.lookupFunction types scope name arguments ≠ .ok (some function)) ∧
    (∀ arguments,
      (table.findFunction types scope name arguments = .ok none →
        ∀ function, ¬ table.Fits types scope name arguments function) ∧
      (table.lookupFunction types scope name arguments = .ok none →
        ∀ outer, ReflTransGen table.StandsIn scope outer →
          ∀ function, ¬ table.Fits types outer name arguments function)) ∧
    ((∀ id type, table.HasType id type → (fill calls).Knows type) →
      ∀ arguments, (∀ type ∈ arguments, (fill calls).Knows type) →
        (∃ answer, table.findFunction types scope name arguments = .ok answer) ∧
        ∃ answer, table.lookupFunction types scope name arguments = .ok answer) := by
  subst filled
  have ordered := reached.built.ordered
  have nested := reached.nested
  have formed := sourced.formed
  refine ⟨fun first second same => ⟨findFunction_congr formed same scope name,
      lookupFunction_congr formed same scope name⟩,
    fun arguments function => ordered.findFunction_first known,
    fun arguments function => ordered.lookupFunction_innermost nested known,
    fun function symbol found ⟨parameter, member, untyped⟩ arguments =>
      ⟨fun searched => ?_, fun searched => ?_⟩,
    fun arguments => ⟨ordered.not_fits_of_findFunction known, fun searched outer chain => ?_⟩,
    fun typed arguments passed => ?_⟩
  · obtain ⟨fits, -⟩ := ordered.findFunction_first known searched
    obtain ⟨type, hasType⟩ := fits.typed found parameter member
    exact untyped type hasType
  · obtain ⟨outer, -, -, fits, -⟩ := ordered.lookupFunction_innermost nested known searched
    obtain ⟨type, hasType⟩ := fits.typed found parameter member
    exact untyped type hasType
  · have nothing := (nested.searchOutward_eq_none_iff known).mp searched outer chain
    exact ordered.not_fits_of_findFunction ((nested.chain_le chain).trans_lt known) nothing
  · have isOk (outer : ScopeId) (bound : outer.index < table.scopes.size) :
        ∃ answer, table.findFunction (fill calls).types outer name arguments = .ok answer := by
      refine ordered.findFunction_isOk reached.parametersKnown bound fun ids declared hold => ?_
      obtain ⟨answer, matched, -⟩ := TypeTable.matchParameterTypes_spec formed
        (fun type member => (TypeTable.knows_iff calls type).mp (passed type member))
        fun type member => by
          obtain ⟨id, -, hasType⟩ := exists_of_forall₂_of_mem hold.flip member
          exact (TypeTable.knows_iff calls type).mp (typed id type hasType)
      exact ⟨answer, matched⟩
    exact ⟨isOk scope known, nested.searchOutward_isOk isOk known⟩

/-- The table of `f(q) { } f(p) { }`, of whose parameters only `p` has a type, that of a function. -/
def overloaded : SymbolTable where
  scopes := #[
    ⟨⟨0⟩, .namespaceScope "unit", none, [⟨2⟩, ⟨0⟩], []⟩,
    ⟨⟨1⟩, .functionScope ⟨0⟩, some ⟨0⟩, [⟨1⟩], []⟩, ⟨⟨2⟩, .functionScope ⟨2⟩, some ⟨0⟩, [⟨3⟩], []⟩]
  symbols := #[
    ⟨⟨0⟩, "f", .function ⟨1⟩ none [⟨1⟩], ⟨0⟩, ⟨0⟩, ⟨9, 17⟩⟩,
    ⟨⟨1⟩, "p", .var (some (.functionType ⟨0⟩)), ⟨1⟩, ⟨1⟩, ⟨11, 12⟩⟩,
    ⟨⟨2⟩, "f", .function ⟨2⟩ none [⟨3⟩], ⟨0⟩, ⟨2⟩, ⟨0, 8⟩⟩, ⟨⟨3⟩, "q", .var none, ⟨2⟩, ⟨3⟩, ⟨2, 3⟩⟩]

theorem overloaded_reached : overloaded.Reached := by
  have root : (new "unit").Reached := .new "unit"
  have f := root.call (.declareFunction ⟨0⟩ "f" ⟨0⟩ ⟨9, 17⟩)
    ⟨by rintro _ ⟨⟩; decide, nofun⟩ rfl
  have p := f.call (.declareVariable ⟨1⟩ "p" ⟨1⟩ ⟨11, 12⟩)
    ⟨by rintro _ ⟨⟩; decide, nofun⟩ rfl
  have typed := p.call (.setVariableType ⟨1⟩ (some (.functionType ⟨0⟩))) ⟨nofun, nofun⟩ rfl
  have takes := typed.call (.pushParameter ⟨0⟩ ⟨1⟩) ⟨nofun, by decide⟩ rfl
  have other := takes.call (.declareFunction ⟨0⟩ "f" ⟨2⟩ ⟨0, 8⟩)
    ⟨by rintro _ ⟨⟩; decide, nofun⟩ rfl
  have q := other.call (.declareVariable ⟨2⟩ "q" ⟨3⟩ ⟨2, 3⟩)
    ⟨by rintro _ ⟨⟩; decide, nofun⟩ rfl
  exact q.call (.pushParameter ⟨2⟩ ⟨3⟩) ⟨nofun, by decide⟩ rfl

/-- Another handle of the type of `p` finds the second `f`, from within the first one too. That one
has an untyped parameter and is no answer. -/
theorem overload_searches_overloaded :
    ∃ types, (fill [.allocate ⟨.void, []⟩, .allocate ⟨.void, []⟩]).types = types ∧
      overloaded.findFunction types ⟨0⟩ "f" [.functionType ⟨1⟩] = .ok (some ⟨0⟩) ∧
      overloaded.lookupFunction types ⟨2⟩ "f" [.functionType ⟨1⟩] = .ok (some ⟨0⟩) ∧
      overloaded.Fits types ⟨0⟩ "f" [.functionType ⟨1⟩] ⟨0⟩ ∧
      ∀ arguments, overloaded.findFunction types ⟨0⟩ "f" arguments ≠ .ok (some ⟨2⟩) := by
  have sourced : Sourced [.allocate ⟨.void, []⟩, .allocate ⟨.void, []⟩] := by decide +kernel
  obtain ⟨alike, first, -, typed, -⟩ := overload_searches overloaded_reached sourced rfl
    (show (⟨0⟩ : ScopeId).index < overloaded.scopes.size by decide) "f"
  obtain ⟨inner, -⟩ := overload_searches overloaded_reached sourced rfl
    (show (⟨2⟩ : ScopeId).index < overloaded.scopes.size by decide) "f"
  have found := (alike [.functionType ⟨1⟩] [.functionType ⟨0⟩] (by decide +kernel)).1.trans
    (show _ = .ok (some ⟨0⟩) from rfl)
  refine ⟨_, rfl, found, (inner _ [.functionType ⟨0⟩] (by decide +kernel)).2.trans rfl,
    (first _ _ found).1, fun arguments => (typed ⟨2⟩ _ rfl ⟨⟨3⟩, by decide, ?_⟩ arguments).1⟩
  rintro type ⟨symbol, isQ, hasType⟩
  cases isQ
  cases hasType

end SymbolTable

end ScriptSemantics
