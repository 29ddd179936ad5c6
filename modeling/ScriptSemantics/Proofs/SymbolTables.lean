import Mathlib.Data.List.Nodup
import Mathlib.Data.Prod.Lex
import ScriptSemantics.Proofs.Outcomes
import ScriptSemantics.Symbols.Lookup

/-!
# Tables whose scopes list their symbols in order

A table is ordered when numbers are positions and every scope lists exactly the symbols that name
it as theirs, each once, by the start of their locations and then by the declaring node. Declaring
in a scope that exists keeps a table ordered. Scopes nest when every scope but the first names an
earlier one around it, so searching outward always ends.
-/
namespace ScriptSemantics

/-- The place of a symbol in source order: where it starts, then which node declares it. -/
def Symbol.place (symbol : Symbol) : ℕ ×ₗ ℕ := toLex (symbol.location.startByte, symbol.node.index)

theorem Symbol.notAfter_iff (symbol : Symbol) (location : Location) (node : NodeId) :
    symbol.notAfter location node = true ↔
      symbol.place ≤ toLex (location.startByte, node.index) := by
  simp [notAfter, place, Prod.Lex.toLex_le_toLex]

theorem ScopeKind.ne_namespace_of_owner {kind : ScopeKind} {id : SymbolId}
    (owner : kind.owner? = some id) (name : String) : kind ≠ .namespaceScope name := by
  rintro rfl
  simp [owner?] at owner

/-- A scope without its listing. -/
def Scope.frame (scope : Scope) : Scope := { scope with symbols := [] }

namespace SymbolTable

variable {table : SymbolTable}

def place (table : SymbolTable) (id : SymbolId) : ℕ ×ₗ ℕ :=
  ((table.symbols[id.index]?).map Symbol.place).getD (toLex (0, 0))

/-- Numbers are positions, and every scope lists its own symbols once each and in source order. -/
structure Ordered (table : SymbolTable) : Prop where
  scope_id : ∀ (i : Nat) (scope : Scope), table.scopes[i]? = some scope → scope.id = ⟨i⟩
  symbol_id : ∀ (i : Nat) (symbol : Symbol), table.symbols[i]? = some symbol → symbol.id = ⟨i⟩
  housed : ∀ (i : Nat) (symbol : Symbol), table.symbols[i]? = some symbol →
    symbol.enclosing.index < table.scopes.size
  listed : ∀ (i : Nat) (scope : Scope), table.scopes[i]? = some scope →
    ∀ id : SymbolId, id ∈ scope.symbols ↔
      ∃ symbol : Symbol, table.symbols[id.index]? = some symbol ∧ symbol.enclosing = ⟨i⟩
  nodup : ∀ (i : Nat) (scope : Scope), table.scopes[i]? = some scope → scope.symbols.Nodup
  sorted : ∀ (i : Nat) (scope : Scope), table.scopes[i]? = some scope →
    scope.symbols.Pairwise fun a b => table.place a ≤ table.place b

/-- Putting an element after all that come before it or beside it keeps a list sorted. -/
theorem sorted_insert {α β : Type} [LinearOrder β] {key : α → β} {stays : α → Bool} {x : α}
    {listed : List α} (sorted : listed.Pairwise fun a b => key a ≤ key b)
    (decides : ∀ a ∈ listed, stays a = true ↔ key a ≤ key x) :
    (listed.takeWhile stays ++ x :: listed.dropWhile stays).Pairwise fun a b => key a ≤ key b := by
  induction listed with
  | nil => simp
  | cons a listed ih =>
    obtain ⟨first, rest⟩ := List.pairwise_cons.mp sorted
    by_cases before : stays a = true
    · have low := (decides a (by simp)).mp before
      simp only [List.takeWhile_cons_of_pos before, List.dropWhile_cons_of_pos before,
        List.cons_append, List.pairwise_cons]
      refine ⟨fun b member => ?_, ih rest fun b member => decides b (by simp [member])⟩
      rcases List.mem_append.mp member with member | member
      · exact first b ((List.takeWhile_sublist _).subset member)
      · rcases List.mem_cons.mp member with rfl | member
        · exact low
        · exact first b ((List.dropWhile_sublist _).subset member)
    · have high : key x < key a :=
        not_le.mp fun low => before ((decides a (by simp)).mpr low)
      rw [List.takeWhile_cons_of_neg before, List.dropWhile_cons_of_neg before, List.nil_append,
        List.pairwise_cons]
      refine ⟨fun b member => ?_, sorted⟩
      rcases List.mem_cons.mp member with rfl | member
      · exact high.le
      · exact high.le.trans (first b member)

theorem insertInOrder_perm (location : Location) (node : NodeId) (id : SymbolId)
    (listed : List SymbolId) :
    (table.insertInOrder location node id listed).Perm (id :: listed) := by
  unfold insertInOrder
  apply List.perm_middle.trans
  rw [List.takeWhile_append_dropWhile]

def withSymbol (table : SymbolTable) (scope : ScopeId) (name : String) (kind : SymbolKind)
    (node : NodeId) (location : Location) : SymbolTable :=
  let pushed : SymbolTable :=
    { table with
      symbols := table.symbols.push ⟨table.nextSymbol, name, kind, scope, node, location⟩ }
  { pushed with
    scopes := table.scopes.modify scope.index fun s =>
      { s with symbols := pushed.insertInOrder location node table.nextSymbol s.symbols } }

theorem modify_eq_setIfInBounds {α : Type} {items : Array α} {i : Nat} {item : α}
    (found : items[i]? = some item) (change : α → α) :
    items.setIfInBounds i (change item) = items.modify i change := by
  apply Array.ext_getElem?
  intro j
  rw [Array.getElem?_setIfInBounds, Array.getElem?_modify]
  by_cases same : i = j
  · subst same
    obtain ⟨bound, isItem⟩ := Array.getElem?_eq_some_iff.mp found
    simp [bound, isItem]
  · simp [same]

theorem updateScope_eq_ok {id : ScopeId} (known : id.index < table.scopes.size)
    (change : Scope → Scope) :
    table.updateScope id change =
      .ok { table with scopes := table.scopes.modify id.index change } := by
  have found : table.scopes[id.index]? = some table.scopes[id.index] := by simp [known]
  simp only [updateScope, scope, found, orDangling_some, ok_bind, pure, Except.pure,
    modify_eq_setIfInBounds found]

theorem updateKind_eq_ok {id : SymbolId} (known : id.index < table.symbols.size)
    (change : SymbolKind → SymbolKind) :
    table.updateKind id change = .ok { table with
      symbols := table.symbols.modify id.index fun x => { x with kind := change x.kind } } := by
  have found : table.symbols[id.index]? = some table.symbols[id.index] := by simp [known]
  simp only [updateKind, symbol, found, orDangling_some, ok_bind, pure, Except.pure,
    ← modify_eq_setIfInBounds found]

theorem updateKind_known {id : SymbolId} {change : SymbolKind → SymbolKind} {after : SymbolTable}
    (updated : table.updateKind id change = .ok after) : id.index < table.symbols.size := by
  by_contra unknown
  simp [updateKind, SymbolTable.symbol, unknown] at updated

theorem addSymbol_eq_ok {scope : ScopeId} (known : scope.index < table.scopes.size) (name : String)
    (kind : SymbolKind) (node : NodeId) (location : Location) :
    table.addSymbol scope name kind node location =
      .ok (table.nextSymbol, table.withSymbol scope name kind node location) := by
  unfold addSymbol
  simp only
  rw [updateScope_eq_ok (by exact known)]
  rfl

theorem addSymbol_known {scope : ScopeId} {name : String} {kind : SymbolKind} {node : NodeId}
    {location : Location} {answer : SymbolId × SymbolTable}
    (added : table.addSymbol scope name kind node location = .ok answer) :
    scope.index < table.scopes.size := by
  by_contra unknown
  simp [addSymbol, updateScope, SymbolTable.scope, unknown] at added

section WithSymbol

variable (scope : ScopeId) (name : String) (kind : SymbolKind) (node : NodeId) (location : Location)

theorem withSymbol_symbols (i : Nat) :
    (table.withSymbol scope name kind node location).symbols[i]? =
      if i = table.symbols.size then
        some ⟨table.nextSymbol, name, kind, scope, node, location⟩
      else table.symbols[i]? := by
  simp [withSymbol, Array.getElem?_push]

/-- Adding a symbol changes no scope but the one it is added to, and of that only the listing. -/
theorem withSymbol_scopes (i : Nat) {s : Scope}
    (found : (table.withSymbol scope name kind node location).scopes[i]? = some s) :
    ∃ old, table.scopes[i]? = some old ∧
      (scope.index ≠ i ∧ s = old ∨
        scope.index = i ∧ s = { old with
          symbols := (table.withSymbol scope name kind node location).insertInOrder location node
            table.nextSymbol old.symbols }) := by
  simp only [withSymbol, Array.getElem?_modify] at found
  split at found
  · obtain ⟨old, foundOld, rfl⟩ := Option.map_eq_some_iff.mp found
    exact ⟨old, foundOld, .inr ⟨‹_›, rfl⟩⟩
  · exact ⟨s, found, .inl ⟨‹_›, rfl⟩⟩

theorem withSymbol_scopes_size :
    (table.withSymbol scope name kind node location).scopes.size = table.scopes.size := by
  simp [withSymbol]

theorem withSymbol_place_old {id : SymbolId} (old : id.index ≠ table.symbols.size) :
    (table.withSymbol scope name kind node location).place id = table.place id := by
  simp [place, withSymbol_symbols, old]

theorem Ordered.nextSymbol_not_mem (ordered : table.Ordered) {i : Nat} {s : Scope}
    (found : table.scopes[i]? = some s) : table.nextSymbol ∉ s.symbols := by
  rw [ordered.listed i s found]
  simp [nextSymbol]

theorem Ordered.listed_lt (ordered : table.Ordered) {i : Nat} {s : Scope}
    (found : table.scopes[i]? = some s) {id : SymbolId} (member : id ∈ s.symbols) :
    id.index < table.symbols.size := by
  obtain ⟨x, foundX, -⟩ := (ordered.listed i s found id).mp member
  exact (Array.getElem?_eq_some_iff.mp foundX).1

/-- In the pushed table an older symbol stays before the new one exactly by its place. -/
theorem staysBefore_iff {id : SymbolId} (bound : id.index < table.symbols.size) :
    (table.withSymbol scope name kind node location).staysBefore location node id = true ↔
      (table.withSymbol scope name kind node location).place id ≤
        (table.withSymbol scope name kind node location).place table.nextSymbol := by
  obtain ⟨x, foundX⟩ : ∃ x, table.symbols[id.index]? = some x := by simp [bound]
  have old : id.index ≠ table.symbols.size := by omega
  have new : (table.withSymbol scope name kind node location).place table.nextSymbol =
      toLex (location.startByte, node.index) := by
    simp [place, withSymbol_symbols, nextSymbol, Symbol.place]
  rw [new, withSymbol_place_old _ _ _ _ _ old]
  simp [staysBefore, withSymbol_symbols, old, place, foundX, Symbol.notAfter_iff]

/-- Listings that are sorted stay so, by any key that older symbols keep and by which they stay
before the new symbol. -/
theorem Ordered.sorted_withSymbol (ordered : table.Ordered) {β : Type} [LinearOrder β]
    {before after : SymbolId → β}
    (kept : ∀ id : SymbolId, id.index < table.symbols.size → after id = before id)
    (decides : ∀ id : SymbolId, id.index < table.symbols.size →
      ((table.withSymbol scope name kind node location).staysBefore location node id = true ↔
        after id ≤ after table.nextSymbol))
    (sorted : ∀ (i : Nat) (s : Scope), table.scopes[i]? = some s →
      s.symbols.Pairwise fun a b => before a ≤ before b)
    (i : Nat) (s : Scope)
    (found : (table.withSymbol scope name kind node location).scopes[i]? = some s) :
    s.symbols.Pairwise fun a b => after a ≤ after b := by
  have same {old : Scope} (foundOld : table.scopes[i]? = some old) :
      old.symbols.Pairwise fun a b => after a ≤ after b := by
    refine (sorted i old foundOld).imp_of_mem fun {a b} inA inB le => ?_
    rwa [kept a (ordered.listed_lt foundOld inA), kept b (ordered.listed_lt foundOld inB)]
  obtain ⟨old, foundOld, ⟨-, rfl⟩ | ⟨-, rfl⟩⟩ := withSymbol_scopes scope name kind node location i found
  · exact same foundOld
  · exact sorted_insert (same foundOld) fun id member => decides id (ordered.listed_lt foundOld member)

theorem Ordered.withSymbol (ordered : table.Ordered) (known : scope.index < table.scopes.size) :
    (table.withSymbol scope name kind node location).Ordered where
  scope_id i s found := by
    obtain ⟨old, foundOld, ⟨-, rfl⟩ | ⟨-, rfl⟩⟩ := withSymbol_scopes scope name kind node location i found
    · exact ordered.scope_id i s foundOld
    · exact ordered.scope_id i old foundOld
  symbol_id i x found := by
    rw [withSymbol_symbols] at found
    split at found
    · cases found
      simp_all [nextSymbol]
    · exact ordered.symbol_id i x found
  housed i x found := by
    rw [withSymbol_scopes_size]
    rw [withSymbol_symbols] at found
    split at found
    · cases found
      exact known
    · exact ordered.housed i x found
  listed i s found id := by
    simp only [withSymbol_symbols]
    have next : id.index = table.symbols.size ↔ id = table.nextSymbol :=
      ⟨fun same => congrArg SymbolId.mk same, fun same => by rw [same]; rfl⟩
    obtain ⟨old, foundOld, ⟨other, rfl⟩ | ⟨here, rfl⟩⟩ :=
      withSymbol_scopes scope name kind node location i found
    · rw [ordered.listed i s foundOld]
      split
      next last =>
        have elsewhere : scope ≠ ⟨i⟩ := fun same => other (by rw [same])
        simp [last, elsewhere]
      next => rfl
    · rw [(insertInOrder_perm location node _ _).mem_iff, List.mem_cons, ordered.listed i old foundOld,
        ← next]
      split
      next last =>
        have same : scope = ⟨i⟩ := congrArg ScopeId.mk here
        simp [last, same]
      next older => simp [older]
  nodup i s found := by
    obtain ⟨old, foundOld, ⟨-, rfl⟩ | ⟨-, rfl⟩⟩ := withSymbol_scopes scope name kind node location i found
    · exact ordered.nodup i s foundOld
    · rw [(insertInOrder_perm location node _ _).nodup_iff]
      exact List.nodup_cons.mpr ⟨ordered.nextSymbol_not_mem foundOld, ordered.nodup i old foundOld⟩
  sorted := ordered.sorted_withSymbol scope name kind node location
    (fun _ bound => withSymbol_place_old _ _ _ _ _ (Nat.ne_of_lt bound))
    (fun _ bound => staysBefore_iff _ _ _ _ _ bound) ordered.sorted

end WithSymbol

theorem pushScope_scopes (kind : ScopeKind) (enclosing : ScopeId) (i : Nat) :
    (table.pushScope kind enclosing).scopes[i]? =
      if i = table.scopes.size then some ⟨table.nextScope, kind, some enclosing, [], []⟩
      else table.scopes[i]? := by
  simp [pushScope, Array.getElem?_push]

theorem pushScope_scopes_size (kind : ScopeKind) (enclosing : ScopeId) :
    (table.pushScope kind enclosing).scopes.size = table.scopes.size + 1 := by
  simp [pushScope]

theorem Ordered.pushScope (ordered : table.Ordered) (kind : ScopeKind) (enclosing : ScopeId) :
    (table.pushScope kind enclosing).Ordered where
  scope_id i s found := by
    rw [pushScope_scopes] at found
    split at found
    · cases found
      simp_all [nextScope]
    · exact ordered.scope_id i s found
  symbol_id i x found := ordered.symbol_id i x found
  housed i x found := by
    have := ordered.housed i x found
    simp only [SymbolTable.pushScope, Array.size_push]
    omega
  listed i s found id := by
    rw [pushScope_scopes] at found
    split at found
    next last =>
      cases found
      simp only [List.not_mem_nil, false_iff, not_exists, not_and]
      intro x foundX here
      have := ordered.housed _ x foundX
      simp [here, last] at this
    next => exact ordered.listed i s found id
  nodup i s found := by
    rw [pushScope_scopes] at found
    split at found
    · cases found
      exact List.nodup_nil
    · exact ordered.nodup i s found
  sorted i s found := by
    rw [pushScope_scopes] at found
    split at found
    · cases found
      exact List.Pairwise.nil
    · exact ordered.sorted i s found

def withKind (table : SymbolTable) (id : SymbolId) (change : SymbolKind → SymbolKind) :
    SymbolTable :=
  { table with
    symbols := table.symbols.modify id.index fun x => { x with kind := change x.kind } }

theorem withKind_symbols (id : SymbolId) (change : SymbolKind → SymbolKind) (i : Nat) :
    (table.withKind id change).symbols[i]? = (table.symbols[i]?).map fun x =>
      if id.index = i then { x with kind := change x.kind } else x := by
  simp only [withKind, Array.getElem?_modify]
  split <;> simp_all

theorem withKind_place (id : SymbolId) (change : SymbolKind → SymbolKind) (other : SymbolId) :
    (table.withKind id change).place other = table.place other := by
  simp only [place, withKind_symbols, Option.map_map]
  congr 2
  funext x
  simp only [Function.comp_apply]
  split <;> rfl

theorem Ordered.withKind (ordered : table.Ordered) (id : SymbolId)
    (change : SymbolKind → SymbolKind) : (table.withKind id change).Ordered := by
  have back {i : Nat} {x : Symbol} (found : (table.withKind id change).symbols[i]? = some x) :
      ∃ old, table.symbols[i]? = some old ∧ x.id = old.id ∧ x.enclosing = old.enclosing := by
    rw [withKind_symbols, Option.map_eq_some_iff] at found
    obtain ⟨old, foundOld, rfl⟩ := found
    refine ⟨old, foundOld, ?_⟩
    split <;> exact ⟨rfl, rfl⟩
  refine ⟨ordered.scope_id, fun i x found => ?_, fun i x found => ?_, fun i s found other => ?_,
    ordered.nodup, fun i s found => ?_⟩
  · obtain ⟨old, foundOld, same, -⟩ := back found
    rw [same, ordered.symbol_id i old foundOld]
  · obtain ⟨old, foundOld, -, same⟩ := back found
    rw [same]
    exact ordered.housed i old foundOld
  · rw [ordered.listed i s found]
    constructor
    · rintro ⟨x, foundX, here⟩
      refine ⟨_, by rw [withKind_symbols, foundX]; rfl, ?_⟩
      split <;> exact here
    · rintro ⟨x, foundX, here⟩
      obtain ⟨old, foundOld, -, same⟩ := back foundX
      exact ⟨old, foundOld, same ▸ here⟩
  · simpa only [withKind_place] using ordered.sorted i s found

/-- The first scope is the only namespace and stands in none; every other one stands in an earlier
scope. A scope has exactly the blocks that name it as theirs. -/
structure Nested (table : SymbolTable) : Prop where
  outermost : ∃ scope, table.scopes[0]? = some scope ∧ scope.enclosing = none
  namespace_iff : ∀ (i : Nat) (scope : Scope), table.scopes[i]? = some scope →
    ((∃ name, scope.kind = .namespaceScope name) ↔ i = 0)
  enclosed : ∀ (i : Nat) (scope : Scope), table.scopes[i]? = some scope → i ≠ 0 →
    ∃ enclosing, scope.enclosing = some enclosing ∧ enclosing.index < i
  mem_blocks : ∀ (i : Nat) (scope : Scope), table.scopes[i]? = some scope →
    ∀ block : ScopeId, block ∈ scope.blocks ↔ ∃ inner : Scope,
      table.scopes[block.index]? = some inner ∧ inner.kind = .blockScope ∧
        inner.enclosing = some ⟨i⟩
  blocks_nodup : ∀ (i : Nat) (scope : Scope), table.scopes[i]? = some scope → scope.blocks.Nodup

theorem Nested.enclosing_lt (nested : table.Nested) {i : Nat} {scope : Scope} {enclosing : ScopeId}
    (found : table.scopes[i]? = some scope) (around : scope.enclosing = some enclosing) :
    enclosing.index < i := by
  have inside : i ≠ 0 := by
    rintro rfl
    obtain ⟨outermost, foundOutermost, none⟩ := nested.outermost
    rw [foundOutermost, Option.some.injEq] at found
    rw [← found, none] at around
    cases around
  obtain ⟨outer, isOuter, before⟩ := nested.enclosed i scope found inside
  rw [around, Option.some.injEq] at isOuter
  rwa [isOuter]

/-- The number is that of a block that names a scope as the one around it. -/
def HasBlock (table : SymbolTable) (outer block : ScopeId) : Prop :=
  ∃ inner : Scope, table.scopes[block.index]? = some inner ∧ inner.kind = .blockScope ∧
    inner.enclosing = some outer

/-- As in a nested table, except that a scope may name itself as the one around it. -/
structure Linked (table : SymbolTable) : Prop where
  outermost : ∃ scope, table.scopes[0]? = some scope ∧ scope.enclosing = none
  namespace_iff : ∀ (i : Nat) (scope : Scope), table.scopes[i]? = some scope →
    ((∃ name, scope.kind = .namespaceScope name) ↔ i = 0)
  enclosed : ∀ (i : Nat) (scope : Scope), table.scopes[i]? = some scope → i ≠ 0 →
    ∃ enclosing, scope.enclosing = some enclosing ∧ enclosing.index ≤ i
  mem_blocks : ∀ (i : Nat) (scope : Scope), table.scopes[i]? = some scope →
    ∀ block : ScopeId, block ∈ scope.blocks ↔ table.HasBlock ⟨i⟩ block
  blocks_nodup : ∀ (i : Nat) (scope : Scope), table.scopes[i]? = some scope → scope.blocks.Nodup

/-- A scope that has another around it stands in an earlier one. -/
def Inward (table : SymbolTable) : Prop :=
  ∀ (i : Nat) (scope : Scope) (enclosing : ScopeId), table.scopes[i]? = some scope →
    scope.enclosing = some enclosing → enclosing.index < i

theorem Nested.linked (nested : table.Nested) : table.Linked where
  outermost := nested.outermost
  namespace_iff := nested.namespace_iff
  enclosed i scope found inner := by
    obtain ⟨enclosing, around, before⟩ := nested.enclosed i scope found inner
    exact ⟨enclosing, around, before.le⟩
  mem_blocks := nested.mem_blocks
  blocks_nodup := nested.blocks_nodup

theorem Nested.inward (nested : table.Nested) : table.Inward := fun _ _ _ found around =>
  nested.enclosing_lt found around

theorem Linked.nested (linked : table.Linked) (inward : table.Inward) : table.Nested where
  outermost := linked.outermost
  namespace_iff := linked.namespace_iff
  enclosed i scope found inner := by
    obtain ⟨enclosing, around, -⟩ := linked.enclosed i scope found inner
    exact ⟨enclosing, around, inward i scope enclosing found around⟩
  mem_blocks := linked.mem_blocks
  blocks_nodup := linked.blocks_nodup

theorem Linked.enclosing_le (linked : table.Linked) {i : Nat} {scope : Scope} {enclosing : ScopeId}
    (found : table.scopes[i]? = some scope) (around : scope.enclosing = some enclosing) :
    enclosing.index ≤ i := by
  have inside : i ≠ 0 := by
    rintro rfl
    obtain ⟨outermost, foundOutermost, none⟩ := linked.outermost
    rw [foundOutermost, Option.some.injEq] at found
    rw [← found, none] at around
    cases around
  obtain ⟨outer, isOuter, before⟩ := linked.enclosed i scope found inside
  rw [around, Option.some.injEq] at isOuter
  rwa [isOuter]

/-- A class or function scope belongs to a symbol of that kind in the scope around it, which names
the scope as its own. -/
def Attributed (table : SymbolTable) : Prop :=
  ∀ (i : Nat) (scope : Scope) (id : SymbolId), table.scopes[i]? = some scope →
    scope.kind.owner? = some id → ∃ symbol, table.symbols[id.index]? = some symbol ∧
      symbol.kind.ownScope = some ⟨i⟩ ∧ scope.enclosing = some symbol.enclosing ∧
        scope.kind.isClass = symbol.kind.isClass

/-- A class or function scope belongs to a symbol of that kind in the scope around it, and that
symbol names the scope as its own. -/
structure Owned (table : SymbolTable) : Prop where
  owner : ∀ (i : Nat) (scope : Scope) (id : SymbolId), table.scopes[i]? = some scope →
    scope.kind.owner? = some id → ∃ symbol, table.symbols[id.index]? = some symbol ∧
      symbol.kind.ownScope = some ⟨i⟩ ∧ scope.enclosing = some symbol.enclosing ∧
        scope.kind.isClass = symbol.kind.isClass
  own : ∀ (i : Nat) (symbol : Symbol) (own : ScopeId), table.symbols[i]? = some symbol →
    symbol.kind.ownScope = some own → ∃ scope, table.scopes[own.index]? = some scope ∧
      scope.kind.owner? = some ⟨i⟩

/-- Two tables have the same scopes, listings apart. -/
def SameFrames (table base : SymbolTable) : Prop :=
  ∀ i : Nat, (table.scopes[i]?).map Scope.frame = (base.scopes[i]?).map Scope.frame

section SameFrames

variable {base : SymbolTable}

theorem SameFrames.symm (same : table.SameFrames base) : base.SameFrames table := fun i =>
  (same i).symm

theorem SameFrames.exists_scope (same : table.SameFrames base) {i : Nat} {scope : Scope}
    (found : table.scopes[i]? = some scope) : ∃ other, base.scopes[i]? = some other ∧
      other.kind = scope.kind ∧ other.enclosing = scope.enclosing ∧ other.blocks = scope.blocks := by
  have frames := same i
  rw [found, Option.map_some, eq_comm, Option.map_eq_some_iff] at frames
  obtain ⟨other, foundOther, equal⟩ := frames
  have kind : other.frame.kind = scope.frame.kind := by rw [equal]
  have enclosing : other.frame.enclosing = scope.frame.enclosing := by rw [equal]
  have blocks : other.frame.blocks = scope.frame.blocks := by rw [equal]
  exact ⟨other, foundOther, kind, enclosing, blocks⟩

theorem SameFrames.size_eq (same : table.SameFrames base) :
    table.scopes.size = base.scopes.size := by
  have iff (i : Nat) : i < table.scopes.size ↔ i < base.scopes.size := by
    have frames := congrArg Option.isSome (same i)
    have isSome : (table.scopes[i]?).isSome ↔ (base.scopes[i]?).isSome := by
      simp only [Option.isSome_map] at frames
      rw [frames]
    simpa using isSome
  have := iff table.scopes.size
  have := iff base.scopes.size
  omega

theorem SameFrames.hasBlock_iff (same : table.SameFrames base) (outer block : ScopeId) :
    table.HasBlock outer block ↔ base.HasBlock outer block := by
  have back {table base : SymbolTable} (same : table.SameFrames base)
      (has : table.HasBlock outer block) : base.HasBlock outer block := by
    obtain ⟨inner, foundInner, isBlock, around⟩ := has
    obtain ⟨this, foundThis, kind, enclosing, -⟩ := same.exists_scope foundInner
    exact ⟨this, foundThis, kind.trans isBlock, enclosing.trans around⟩
  exact ⟨back same, back same.symm⟩

theorem Linked.of_sameFrames (linked : base.Linked) (same : table.SameFrames base) :
    table.Linked where
  outermost := by
    obtain ⟨scope, found, none⟩ := linked.outermost
    obtain ⟨other, foundOther, -, enclosing, -⟩ := same.symm.exists_scope found
    exact ⟨other, foundOther, enclosing.trans none⟩
  namespace_iff i scope found := by
    obtain ⟨other, foundOther, kind, -, -⟩ := same.exists_scope found
    rw [← kind]
    exact linked.namespace_iff i other foundOther
  enclosed i scope found inner := by
    obtain ⟨other, foundOther, -, enclosing, -⟩ := same.exists_scope found
    rw [← enclosing]
    exact linked.enclosed i other foundOther inner
  mem_blocks i scope found block := by
    obtain ⟨other, foundOther, -, -, blocks⟩ := same.exists_scope found
    rw [← blocks, linked.mem_blocks i other foundOther, same.hasBlock_iff]
  blocks_nodup i scope found := by
    obtain ⟨other, foundOther, -, -, blocks⟩ := same.exists_scope found
    rw [← blocks]
    exact linked.blocks_nodup i other foundOther

theorem Inward.of_sameFrames (inward : base.Inward) (same : table.SameFrames base) :
    table.Inward := by
  intro i scope enclosing found around
  obtain ⟨other, foundOther, -, outer, -⟩ := same.exists_scope found
  exact inward i other enclosing foundOther (outer.trans around)

theorem Nested.of_sameFrames (nested : base.Nested) (same : table.SameFrames base) :
    table.Nested :=
  (nested.linked.of_sameFrames same).nested (nested.inward.of_sameFrames same)

end SameFrames

theorem withSymbol_sameFrames (scope : ScopeId) (name : String) (kind : SymbolKind) (node : NodeId)
    (location : Location) :
    (table.withSymbol scope name kind node location).SameFrames table := by
  intro i
  simp only [withSymbol, Array.getElem?_modify]
  split
  · rw [Option.map_map]
    rfl
  · rfl

/-- Listings apart, a table after a scope was opened. The scope around it lists it if it is a
block. -/
def Opens (table : SymbolTable) (kind : ScopeKind) (enclosing : ScopeId) (after : SymbolTable) :
    Prop :=
  ∀ i : Nat, (after.scopes[i]?).map Scope.frame =
    ((table.pushScope kind enclosing).scopes[i]?).map fun s => { s.frame with
      blocks := s.blocks ++
        if kind = .blockScope ∧ enclosing = ⟨i⟩ then [table.nextScope] else [] }

section Opens

variable {after : SymbolTable} {kind : ScopeKind} {enclosing : ScopeId}
  (opens : table.Opens kind enclosing after)
include opens

/-- Every scope is the new one or was there before, with no change but the new block. -/
theorem Opens.scope_cases {i : Nat} {s : Scope} (found : after.scopes[i]? = some s) :
    ∃ old, (table.pushScope kind enclosing).scopes[i]? = some old ∧ s.kind = old.kind ∧
      s.enclosing = old.enclosing ∧ s.blocks = old.blocks ++
        if kind = .blockScope ∧ enclosing = ⟨i⟩ then [table.nextScope] else [] := by
  have frames := opens i
  rw [found, Option.map_some, eq_comm, Option.map_eq_some_iff] at frames
  obtain ⟨old, foundOld, equal⟩ := frames
  obtain ⟨-, kinds, arounds, -, blocks⟩ := Scope.mk.injEq .. ▸ equal
  exact ⟨old, foundOld, kinds.symm, arounds.symm, blocks.symm⟩

theorem Opens.exists_scope {i : Nat} {old : Scope}
    (found : (table.pushScope kind enclosing).scopes[i]? = some old) :
    ∃ s, after.scopes[i]? = some s ∧ s.kind = old.kind ∧ s.enclosing = old.enclosing := by
  have frames := opens i
  rw [found, Option.map_some, Option.map_eq_some_iff] at frames
  obtain ⟨s, foundS, equal⟩ := frames
  obtain ⟨-, kinds, arounds, -⟩ := Scope.mk.injEq .. ▸ equal
  exact ⟨s, foundS, kinds, arounds⟩

/-- The scopes that were there before stay, with their kinds and the scopes around them. -/
theorem Opens.old_scope {i : Nat} {old : Scope} (found : table.scopes[i]? = some old) :
    ∃ s, after.scopes[i]? = some s ∧ s.kind = old.kind ∧ s.enclosing = old.enclosing := by
  have bound := (Array.getElem?_eq_some_iff.mp found).1
  exact opens.exists_scope (by rw [pushScope_scopes, if_neg (by omega), found])

theorem Opens.hasBlock_iff (outer block : ScopeId) : after.HasBlock outer block ↔
    table.HasBlock outer block ∨
      block = table.nextScope ∧ kind = .blockScope ∧ enclosing = outer := by
  have new : block.index = table.scopes.size ↔ block = table.nextScope :=
    ⟨fun same => congrArg ScopeId.mk same, fun same => by rw [same]; rfl⟩
  have pushed : after.HasBlock outer block ↔
      (table.pushScope kind enclosing).HasBlock outer block := by
    constructor
    · rintro ⟨inner, found, isBlock, around⟩
      obtain ⟨old, foundOld, kinds, arounds, -⟩ := opens.scope_cases found
      exact ⟨old, foundOld, kinds ▸ isBlock, arounds ▸ around⟩
    · rintro ⟨old, foundOld, isBlock, around⟩
      obtain ⟨inner, found, kinds, arounds⟩ := opens.exists_scope foundOld
      exact ⟨inner, found, kinds.trans isBlock, arounds.trans around⟩
  rw [pushed, HasBlock, pushScope_scopes, ← new]
  split
  next last => simp [HasBlock, last]
  next older => simp [HasBlock, older]

/-- A table stays linked when a scope other than a namespace is opened in a scope that exists, or in
itself. -/
theorem Opens.linked (linked : table.Linked) (known : enclosing.index ≤ table.scopes.size)
    (inner : ∀ name, kind ≠ .namespaceScope name) : after.Linked where
  outermost := by
    obtain ⟨scope, found, none⟩ := linked.outermost
    obtain ⟨s, foundS, -, around⟩ := opens.old_scope found
    exact ⟨s, foundS, around.trans none⟩
  namespace_iff i s found := by
    obtain ⟨first, foundFirst, -⟩ := linked.outermost
    have bound := (Array.getElem?_eq_some_iff.mp foundFirst).1
    obtain ⟨old, foundOld, kinds, -⟩ := opens.scope_cases found
    rw [pushScope_scopes] at foundOld
    rw [kinds]
    split at foundOld
    · cases foundOld
      simp only [inner, exists_const, false_iff]
      omega
    · exact linked.namespace_iff i old foundOld
  enclosed i s found inside := by
    obtain ⟨old, foundOld, -, arounds, -⟩ := opens.scope_cases found
    rw [pushScope_scopes] at foundOld
    rw [arounds]
    split at foundOld
    · cases foundOld
      exact ⟨enclosing, rfl, by omega⟩
    · exact linked.enclosed i old foundOld inside
  mem_blocks i s found block := by
    obtain ⟨old, foundOld, -, -, blocks⟩ := opens.scope_cases found
    have olds : block ∈ old.blocks ↔ table.HasBlock ⟨i⟩ block := by
      rw [pushScope_scopes] at foundOld
      split at foundOld
      next last =>
        cases foundOld
        simp only [List.not_mem_nil, false_iff]
        rintro ⟨inner, foundInner, -, around⟩
        have before := linked.enclosing_le foundInner around
        have bound := (Array.getElem?_eq_some_iff.mp foundInner).1
        simp only at before
        omega
      next => exact linked.mem_blocks i old foundOld block
    rw [blocks, List.mem_append, olds, opens.hasBlock_iff]
    split
    next new => simp [new]
    next other => simp [other]
  blocks_nodup i s found := by
    obtain ⟨old, foundOld, -, -, blocks⟩ := opens.scope_cases found
    have olds : old.blocks.Nodup ∧ table.nextScope ∉ old.blocks := by
      rw [pushScope_scopes] at foundOld
      split at foundOld
      next =>
        cases foundOld
        simp
      next =>
        refine ⟨linked.blocks_nodup i old foundOld, ?_⟩
        rw [linked.mem_blocks i old foundOld]
        simp [HasBlock, nextScope]
    rw [blocks]
    split
    next => exact List.concat_eq_append ▸ olds.1.concat olds.2
    next => simpa using olds.1

/-- Links keep running inward exactly if the new scope stands in one that was there before. -/
theorem Opens.inward_iff :
    after.Inward ↔ table.Inward ∧ enclosing.index < table.scopes.size := by
  constructor
  · intro inward
    refine ⟨fun i scope outer found around => ?_, ?_⟩
    · obtain ⟨s, foundS, -, arounds⟩ := opens.old_scope found
      exact inward i s outer foundS (arounds.trans around)
    · obtain ⟨s, foundS, -, arounds⟩ := opens.exists_scope
        (by rw [pushScope_scopes]; exact if_pos rfl)
      exact inward _ s enclosing foundS arounds
  · rintro ⟨inward, known⟩ i s outer found around
    obtain ⟨old, foundOld, -, arounds, -⟩ := opens.scope_cases found
    rw [pushScope_scopes] at foundOld
    rw [arounds] at around
    split at foundOld
    · cases foundOld
      cases around
      omega
    · exact inward i old outer foundOld around

/-- A table stays nested when a scope other than a namespace is opened in a scope that exists. -/
theorem Opens.nested (nested : table.Nested) (known : enclosing.index < table.scopes.size)
    (inner : ∀ name, kind ≠ .namespaceScope name) : after.Nested :=
  (opens.linked nested.linked known.le inner).nested (opens.inward_iff.mpr ⟨nested.inward, known⟩)

end Opens

/-- The table after a class or a function and its scope were declared. -/
def withOwner (table : SymbolTable) (scopeKind : SymbolId → ScopeKind)
    (symbolKind : ScopeId → SymbolKind) (enclosing : ScopeId) (name : String) (node : NodeId)
    (location : Location) : SymbolTable :=
  (table.pushScope (scopeKind table.nextSymbol) enclosing).withSymbol enclosing name
    (symbolKind table.nextScope) node location

theorem declareFunction_eq_ok {enclosing : ScopeId} (known : enclosing.index ≤ table.scopes.size)
    (name : String) (node : NodeId) (location : Location) :
    table.declareFunction enclosing name node location =
      .ok ((table.nextSymbol, table.nextScope),
        table.withOwner .functionScope (.function · none []) enclosing name node location) := by
  unfold declareFunction
  simp only
  rw [addSymbol_eq_ok (by simp [pushScope]; omega)]
  rfl

theorem declareClass_eq_ok {enclosing : ScopeId} (known : enclosing.index ≤ table.scopes.size)
    (name : String) (node : NodeId) (location : Location) :
    table.declareClass enclosing name node location =
      .ok ((table.nextSymbol, table.nextScope),
        table.withOwner .classScope (.classType · none) enclosing name node location) := by
  unfold declareClass
  simp only
  rw [addSymbol_eq_ok (by simp [pushScope]; omega)]
  rfl

section WithOwner

variable {scopeKind : SymbolId → ScopeKind} {symbolKind : ScopeId → SymbolKind}
  {enclosing : ScopeId} (name : String) (node : NodeId) (location : Location)

theorem withOwner_symbols (i : Nat) :
    (table.withOwner scopeKind symbolKind enclosing name node location).symbols[i]? =
      if i = table.symbols.size then
        some ⟨table.nextSymbol, name, symbolKind table.nextScope, enclosing, node, location⟩
      else table.symbols[i]? := by
  rw [withOwner, withSymbol_symbols]
  rfl

theorem withOwner_sameFrames :
    (table.withOwner scopeKind symbolKind enclosing name node location).SameFrames
      (table.pushScope (scopeKind table.nextSymbol) enclosing) :=
  withSymbol_sameFrames _ _ _ _ _

theorem withOwner_new_scope :
    ∃ s, (table.withOwner scopeKind symbolKind enclosing name node location).scopes[
        table.nextScope.index]? = some s ∧
      s.kind = scopeKind table.nextSymbol ∧ s.enclosing = some enclosing := by
  have new : (table.pushScope (scopeKind table.nextSymbol) enclosing).scopes[
      table.nextScope.index]? =
      some ⟨table.nextScope, scopeKind table.nextSymbol, some enclosing, [], []⟩ := by
    simp [pushScope_scopes, nextScope]
  obtain ⟨s, found, kind, around, -⟩ :=
    (@withOwner_sameFrames table scopeKind symbolKind enclosing name node location).symm.exists_scope
      new
  exact ⟨s, found, kind, around⟩

/-- The scopes that were there before stay as they were, listings apart. -/
theorem withOwner_old_scope {i : Nat} {old : Scope} (found : table.scopes[i]? = some old) :
    ∃ s, (table.withOwner scopeKind symbolKind enclosing name node location).scopes[i]? = some s ∧
      s.kind = old.kind ∧ s.enclosing = old.enclosing := by
  have bound := (Array.getElem?_eq_some_iff.mp found).1
  have kept : (table.pushScope (scopeKind table.nextSymbol) enclosing).scopes[i]? = some old := by
    rw [pushScope_scopes, if_neg (by omega), found]
  obtain ⟨s, foundS, kind, around, -⟩ :=
    (@withOwner_sameFrames table scopeKind symbolKind enclosing name node location).symm.exists_scope
      kept
  exact ⟨s, foundS, kind, around⟩

theorem withOwner_scope_cases {i : Nat} {s : Scope}
    (found : (table.withOwner scopeKind symbolKind enclosing name node location).scopes[i]? =
      some s) :
    (i = table.scopes.size ∧ s.kind = scopeKind table.nextSymbol ∧ s.enclosing = some enclosing) ∨
      ∃ old, table.scopes[i]? = some old ∧ s.kind = old.kind ∧ s.enclosing = old.enclosing := by
  obtain ⟨other, foundOther, kind, around, -⟩ :=
    (withOwner_sameFrames name node location).exists_scope found
  rw [pushScope_scopes] at foundOther
  split at foundOther
  next last =>
    cases foundOther
    exact .inl ⟨last, kind.symm, around.symm⟩
  next => exact .inr ⟨other, foundOther, kind.symm, around.symm⟩

theorem Ordered.withOwner (ordered : table.Ordered) (known : enclosing.index ≤ table.scopes.size) :
    (table.withOwner scopeKind symbolKind enclosing name node location).Ordered := by
  refine (ordered.pushScope _ _).withSymbol _ _ _ _ _ ?_
  simp only [SymbolTable.pushScope, Array.size_push]
  omega

theorem withOwner_opens (owner : ∀ id, (scopeKind id).owner? = some id) :
    table.Opens (scopeKind table.nextSymbol) enclosing
      (table.withOwner scopeKind symbolKind enclosing name node location) := by
  have notBlock : scopeKind table.nextSymbol ≠ .blockScope := fun isBlock => by
    have isOwner := owner table.nextSymbol
    simp [isBlock, ScopeKind.owner?] at isOwner
  intro i
  rw [withOwner_sameFrames name node location i]
  simp only [notBlock, false_and, if_false, List.append_nil]
  rfl

theorem Nested.withOwner (nested : table.Nested) (known : enclosing.index < table.scopes.size)
    (owner : ∀ id, (scopeKind id).owner? = some id) :
    (table.withOwner scopeKind symbolKind enclosing name node location).Nested :=
  (withOwner_opens name node location owner).nested nested known
    (ScopeKind.ne_namespace_of_owner (owner _))

/-- The symbol declared with a new scope is the one that the scope belongs to. -/
theorem Attributed.withOwner (attributed : table.Attributed)
    (owner : ∀ id, (scopeKind id).owner? = some id)
    (own : ∀ scope, (symbolKind scope).ownScope = some scope)
    (sort : ∀ id scope, (scopeKind id).isClass = (symbolKind scope).isClass) :
    (table.withOwner scopeKind symbolKind enclosing name node location).Attributed := by
  intro i s id found ofScope
  rw [withOwner_symbols]
  rcases withOwner_scope_cases name node location found with ⟨last, kind, around⟩ | old
  · rw [kind, owner, Option.some.injEq] at ofScope
    subst ofScope
    refine ⟨_, if_pos rfl, ?_, around, ?_⟩
    · simp [own, nextScope, last]
    · rw [kind]
      exact sort _ _
  · obtain ⟨old, foundOld, kind, around⟩ := old
    obtain ⟨x, foundX, ownX, enclosingX, sortX⟩ := attributed i old id foundOld (kind ▸ ofScope)
    have bound := (Array.getElem?_eq_some_iff.mp foundX).1
    exact ⟨x, by rw [if_neg (by omega), foundX], ownX, around.trans enclosingX,
      (congrArg ScopeKind.isClass kind).trans sortX⟩

theorem Owned.withOwner (owned : table.Owned) (owner : ∀ id, (scopeKind id).owner? = some id)
    (own : ∀ scope, (symbolKind scope).ownScope = some scope)
    (sort : ∀ id scope, (scopeKind id).isClass = (symbolKind scope).isClass) :
    (table.withOwner scopeKind symbolKind enclosing name node location).Owned where
  owner := Attributed.withOwner name node location owned.owner owner own sort
  own i x inner found ofSymbol := by
    rw [withOwner_symbols] at found
    split at found
    next last =>
      cases found
      rw [own, Option.some.injEq] at ofSymbol
      subst ofSymbol
      obtain ⟨s, foundS, kind, -⟩ := @withOwner_new_scope table scopeKind symbolKind enclosing
        name node location
      exact ⟨s, foundS, by rw [kind, owner, last]; rfl⟩
    next =>
      obtain ⟨old, foundOld, ofOld⟩ := owned.own i x inner found ofSymbol
      obtain ⟨s, foundS, kind, -⟩ := @withOwner_old_scope table scopeKind symbolKind enclosing
        name node location _ _ foundOld
      exact ⟨s, foundS, kind ▸ ofOld⟩

end WithOwner

def withBlock (table : SymbolTable) (enclosing : ScopeId) : SymbolTable :=
  let pushed := table.pushScope .blockScope enclosing
  { pushed with
    scopes := pushed.scopes.modify enclosing.index fun s =>
      { s with blocks := s.blocks ++ [table.nextScope] } }

theorem pushBlock_eq_ok {enclosing : ScopeId} (known : enclosing.index ≤ table.scopes.size) :
    table.pushBlock enclosing = .ok (table.nextScope, table.withBlock enclosing) := by
  unfold pushBlock
  simp only
  rw [updateScope_eq_ok (by simp [pushScope]; omega)]
  rfl

section WithBlock

variable {enclosing : ScopeId}

theorem withBlock_scopes (i : Nat) :
    (table.withBlock enclosing).scopes[i]? =
      ((table.pushScope .blockScope enclosing).scopes[i]?).map fun s =>
        if enclosing.index = i then { s with blocks := s.blocks ++ [table.nextScope] } else s := by
  simp only [withBlock, Array.getElem?_modify]
  split <;> simp_all

theorem withBlock_opens : table.Opens .blockScope enclosing (table.withBlock enclosing) := by
  intro i
  have here : enclosing = ⟨i⟩ ↔ enclosing.index = i :=
    ⟨fun same => by rw [same], fun same => congrArg ScopeId.mk same⟩
  rw [withBlock_scopes, Option.map_map]
  congr 1
  funext s
  simp only [Function.comp_apply, true_and, here]
  split <;> simp [Scope.frame]

theorem withBlock_new_scope (known : enclosing.index < table.scopes.size) :
    (table.withBlock enclosing).scopes[table.nextScope.index]? =
      some ⟨table.nextScope, .blockScope, some enclosing, [], []⟩ := by
  have other : enclosing.index ≠ table.scopes.size := Nat.ne_of_lt known
  simp [withBlock_scopes, other, pushScope_scopes, nextScope]

theorem Ordered.withBlock (ordered : table.Ordered) (enclosing : ScopeId) :
    (table.withBlock enclosing).Ordered := by
  have back {i : Nat} {s : Scope} (found : (table.withBlock enclosing).scopes[i]? = some s) :
      ∃ old, (table.pushScope .blockScope enclosing).scopes[i]? = some old ∧ s.id = old.id ∧
        s.symbols = old.symbols := by
    rw [withBlock_scopes, Option.map_eq_some_iff] at found
    obtain ⟨old, foundOld, rfl⟩ := found
    refine ⟨old, foundOld, ?_⟩
    split <;> exact ⟨rfl, rfl⟩
  have pushed := ordered.pushScope .blockScope enclosing
  refine ⟨fun i s found => ?_, ordered.symbol_id, fun i x found => ?_, fun i s found id => ?_,
    fun i s found => ?_, fun i s found => ?_⟩
  · obtain ⟨old, foundOld, same, -⟩ := back found
    rw [same]
    exact pushed.scope_id i old foundOld
  · simpa only [SymbolTable.withBlock, Array.size_modify] using pushed.housed i x found
  · obtain ⟨old, foundOld, -, same⟩ := back found
    rw [same]
    exact pushed.listed i old foundOld id
  · obtain ⟨old, foundOld, -, same⟩ := back found
    rw [same]
    exact pushed.nodup i old foundOld
  · obtain ⟨old, foundOld, -, same⟩ := back found
    rw [same]
    exact pushed.sorted i old foundOld

theorem Attributed.withBlock (attributed : table.Attributed) (enclosing : ScopeId) :
    (table.withBlock enclosing).Attributed := by
  intro i s id found ofScope
  obtain ⟨old, foundOld, kind, around, -⟩ := withBlock_opens.scope_cases found
  rw [pushScope_scopes] at foundOld
  rw [kind] at ofScope ⊢
  rw [around]
  split at foundOld
  · cases foundOld
    simp [ScopeKind.owner?] at ofScope
  · exact attributed i old id foundOld ofScope

theorem Owned.withBlock (owned : table.Owned) (enclosing : ScopeId) :
    (table.withBlock enclosing).Owned where
  owner := Attributed.withBlock owned.owner enclosing
  own i x inner found ofSymbol := by
    obtain ⟨old, foundOld, ofOld⟩ := owned.own i x inner found ofSymbol
    obtain ⟨s, foundS, kind, -⟩ := (@withBlock_opens table enclosing).old_scope foundOld
    exact ⟨s, foundS, kind ▸ ofOld⟩

theorem Nested.withBlock (nested : table.Nested) (known : enclosing.index < table.scopes.size) :
    (table.withBlock enclosing).Nested :=
  withBlock_opens.nested nested known fun _ => by simp

end WithBlock

end SymbolTable

end ScriptSemantics
