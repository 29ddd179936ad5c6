import ScriptSemantics.Proofs.Lookups
import ScriptSemantics.Proofs.Renaming

/-!
# The shape of an outline

Scopes name the scope around them, and the outline is written downwards, from a scope to what its
symbols have for their own and to its blocks. In a table where the two directions agree, going down
comes to every scope and every variable once, at the depth from which going outward comes back.
-/
namespace ScriptSemantics

namespace Resolution

/-- The line of an item in an outline, with the lines after it that are indented further. -/
def rendering (lines : List OutlineLine) (item : OutlineItem) : List OutlineLine :=
  match lines.dropWhile fun line => line.item ≠ item with
  | [] => []
  | line :: later => line :: later.takeWhile fun other => line.indent < other.indent

/-- Lines that are all indented further than the first of them, up to one that is not, are its
rendering. -/
theorem rendering_eq {before inner after : List OutlineLine} {indent : Nat} {item : OutlineItem}
    (first : item ∉ before.map OutlineLine.item) (further : ∀ line ∈ inner, indent < line.indent)
    (ends : ∀ line ∈ after.head?, line.indent ≤ indent) :
    rendering (before ++ (⟨indent, item⟩ :: inner ++ after)) item = ⟨indent, item⟩ :: inner := by
  have skipped : ∀ line ∈ before, decide (line.item ≠ item) = true := fun line member =>
    decide_eq_true fun same => first (List.mem_map.mpr ⟨line, member, same⟩)
  have stops : after.takeWhile (fun other => decide (indent < other.indent)) = [] := by
    cases after with
    | nil => rfl
    | cons line after =>
      exact List.takeWhile_cons_of_neg (by simpa using ends line (by simp))
  rw [rendering, List.dropWhile_append_of_pos skipped, List.cons_append,
    List.dropWhile_cons_of_neg (by simp)]
  simp only [List.cons.injEq, true_and]
  rw [List.takeWhile_append_of_pos fun line member => decide_eq_true (further line member), stops,
    List.append_nil]

end Resolution

namespace SymbolTable

open Resolution

variable {table : SymbolTable}

/-- The scope around an item: the one that a scope stands in or a variable is declared in. -/
def around (table : SymbolTable) : OutlineItem → Option ScopeId
  | .scope id => (table.scopes[id.index]?).bind Scope.enclosing
  | .var id => (table.symbols[id.index]?).bind fun symbol =>
    if symbol.kind.isVariable then some symbol.enclosing else none

/-- The item that lies a number of steps outward. -/
def outward (table : SymbolTable) (item : OutlineItem) : Nat → Option OutlineItem
  | 0 => some item
  | steps + 1 => ((table.outward item steps).bind table.around).map .scope

/-- An item that the table has: one of its scopes or one of its variables. -/
def Has (table : SymbolTable) : OutlineItem → Prop
  | .scope id => id.index < table.scopes.size
  | .var id => ∃ symbol, table.symbol id = .ok symbol ∧ symbol.kind.isVariable = true

theorem has_of_around {item : OutlineItem} {outer : ScopeId}
    (isAround : table.around item = some outer) : table.Has item := by
  cases item with
  | scope id =>
    obtain ⟨scope, found, -⟩ := Option.bind_eq_some_iff.mp isAround
    exact (Array.getElem?_eq_some_iff.mp found).1
  | var id =>
    obtain ⟨symbol, found, isOuter⟩ := Option.bind_eq_some_iff.mp isAround
    split at isOuter
    next isVariable => exact ⟨symbol, orDangling_eq_ok_iff.mpr found, isVariable⟩
    next => cases isOuter

theorem outward_add (item : OutlineItem) (first second : Nat) :
    table.outward item (first + second) =
      (table.outward item first).bind fun middle => table.outward middle second := by
  induction second with
  | zero => simp [outward]
  | succ second ih =>
    rw [← Nat.add_assoc, outward, ih]
    cases table.outward item first <;> rfl

theorem outward_succ_eq_some_iff {item outer : OutlineItem} {steps : Nat} :
    table.outward item (steps + 1) = some outer ↔
      ∃ middle id, table.outward item steps = some middle ∧ table.around middle = some id ∧
        outer = .scope id := by
  simp only [outward, Option.map_eq_some_iff, Option.bind_eq_some_iff]
  constructor
  · rintro ⟨id, ⟨middle, isMiddle, isAround⟩, rfl⟩
    exact ⟨middle, id, isMiddle, isAround, rfl⟩
  · rintro ⟨middle, id, isMiddle, isAround, rfl⟩
    exact ⟨id, ⟨middle, isMiddle, isAround⟩, rfl⟩

/-- The step from an item to the scope around it comes before the steps from there. -/
theorem outward_of_around {item : OutlineItem} {outer : ScopeId} {steps : Nat}
    (isAround : table.around item = some outer) :
    table.outward item (steps + 1) = table.outward (.scope outer) steps := by
  rw [Nat.add_comm, outward_add]
  simp [outward, isAround]

theorem has_of_outward {item top : OutlineItem} {steps : Nat}
    (leads : table.outward item steps = some top) (has : table.Has top) : table.Has item := by
  cases steps with
  | zero =>
    cases leads
    exact has
  | succ steps =>
    cases isAround : table.around item with
    | some outer => exact has_of_around isAround
    | none =>
      rw [Nat.add_comm, outward_add] at leads
      simp [outward, isAround] at leads

/-- What a symbol shows: its own scope, or a line for itself. -/
def itemOf (table : SymbolTable) (id : SymbolId) : OutlineItem :=
  match (table.symbols[id.index]?).bind (·.kind.ownScope) with
  | some own => .scope own
  | none => .var id

/-- What stands directly in a scope: what its symbols show, and then its blocks. -/
def contents (table : SymbolTable) (id : ScopeId) : List OutlineItem :=
  (table.listing id).map table.itemOf ++
    (((table.scopes[id.index]?).map Scope.blocks).getD []).map .scope

/-- The scopes of a table nest, list their symbols, and belong to them. -/
structure Arranged (table : SymbolTable) : Prop where
  ordered : table.Ordered
  nested : table.Nested
  owned : table.Owned

namespace Arranged

variable (arranged : table.Arranged)
include arranged

/-- A scope belongs to one symbol, which is in the scope around it. -/
theorem around_own {i : Nat} {symbol : Symbol} {own : ScopeId}
    (found : table.symbols[i]? = some symbol) (isOwn : symbol.kind.ownScope = some own) :
    table.around (.scope own) = some symbol.enclosing := by
  obtain ⟨scope, foundScope, owner⟩ := arranged.owned.own i symbol own found isOwn
  obtain ⟨other, foundOther, -, isAround, -⟩ := arranged.owned.owner _ scope _ foundScope owner
  obtain rfl : symbol = other := Option.some.inj (found.symm.trans foundOther)
  simp [around, foundScope, isAround]

theorem around_known {item : OutlineItem} {outer : ScopeId}
    (isAround : table.around item = some outer) : outer.index < table.scopes.size := by
  cases item with
  | scope id =>
    obtain ⟨scope, found, isOuter⟩ := Option.bind_eq_some_iff.mp isAround
    have := arranged.nested.enclosing_lt found isOuter
    have := (Array.getElem?_eq_some_iff.mp found).1
    omega
  | var id =>
    obtain ⟨symbol, found, isOuter⟩ := Option.bind_eq_some_iff.mp isAround
    split at isOuter
    · cases isOuter
      exact arranged.ordered.housed _ symbol found
    · cases isOuter

theorem around_scope_lt {id outer : ScopeId} (isAround : table.around (.scope id) = some outer) :
    outer.index < id.index := by
  obtain ⟨scope, found, isOuter⟩ := Option.bind_eq_some_iff.mp isAround
  exact arranged.nested.enclosing_lt found isOuter

theorem around_root : table.around (.scope root) = none := by
  obtain ⟨scope, found, none⟩ := arranged.nested.outermost
  simp [around, root, found, none]

/-- The two directions agree: a scope contains what it is around. -/
theorem mem_contents {id : ScopeId} (known : id.index < table.scopes.size) {item : OutlineItem} :
    item ∈ table.contents id ↔ table.around item = some id := by
  obtain ⟨scope, found⟩ := scope_exists known
  simp only [contents, found, Option.map_some, Option.getD_some, List.mem_append, List.mem_map]
  constructor
  · rintro (⟨symbol, listed, rfl⟩ | ⟨block, member, rfl⟩)
    · obtain ⟨x, foundX, here⟩ := (arranged.ordered.mem_listing known).mp listed
      unfold itemOf
      simp only [foundX, Option.bind_some]
      cases isOwn : x.kind.ownScope with
      | some own => exact here ▸ arranged.around_own foundX isOwn
      | none =>
        have isVariable : x.kind.isVariable = true := by
          cases kind : x.kind <;> simp_all [SymbolKind.ownScope, SymbolKind.isVariable]
        simp [around, foundX, isVariable, here]
    · obtain ⟨inner, foundInner, -, isAround⟩ :=
        (arranged.nested.mem_blocks _ scope found block).mp member
      simp [around, foundInner, isAround]
  · intro isAround
    cases item with
    | var symbol =>
      obtain ⟨x, foundX, isOuter⟩ := Option.bind_eq_some_iff.mp isAround
      split at isOuter
      next isVariable =>
        refine .inl ⟨symbol, ?_, ?_⟩
        · exact (arranged.ordered.mem_listing known).mpr ⟨x, foundX, Option.some.inj isOuter⟩
        · cases kind : x.kind <;> simp_all [itemOf, SymbolKind.ownScope, SymbolKind.isVariable]
      next => cases isOuter
    | scope own =>
      obtain ⟨inner, foundInner, isOuter⟩ := Option.bind_eq_some_iff.mp isAround
      cases kind : inner.kind with
      | namespaceScope name =>
        have outermost := (arranged.nested.namespace_iff _ inner foundInner).mp ⟨name, kind⟩
        have before := arranged.nested.enclosing_lt foundInner isOuter
        omega
      | blockScope =>
        exact .inr ⟨own, (arranged.nested.mem_blocks _ scope found own).mpr
          ⟨inner, foundInner, kind, isOuter⟩, rfl⟩
      | classScope symbol | functionScope symbol =>
        obtain ⟨x, foundX, isOwn, here, -⟩ := arranged.owned.owner _ inner symbol foundInner
          (by rw [kind]; rfl)
        refine .inl ⟨symbol, ?_, by simp [itemOf, foundX, isOwn]⟩
        exact (arranged.ordered.mem_listing known).mpr
          ⟨x, foundX, Option.some.inj (here.symm.trans isOuter)⟩

theorem contents_nodup {id : ScopeId} (known : id.index < table.scopes.size) :
    (table.contents id).Nodup := by
  obtain ⟨scope, found⟩ := scope_exists known
  have shows {symbol : SymbolId} {own : ScopeId} (isItem : table.itemOf symbol = .scope own) :
      ∃ inner, table.scopes[own.index]? = some inner ∧ inner.kind.owner? = some symbol := by
    unfold itemOf at isItem
    split at isItem
    next other isOwn =>
      cases isItem
      obtain ⟨x, foundX, isOwn⟩ := Option.bind_eq_some_iff.mp isOwn
      exact arranged.owned.own _ x own foundX isOwn
    next => cases isItem
  simp only [contents, found, Option.map_some, Option.getD_some]
  refine List.nodup_append.mpr ⟨?_, ?_, ?_⟩
  · refine (arranged.ordered.listing_nodup id).map_on fun first _ second _ same => ?_
    cases isItem : table.itemOf first with
    | scope own =>
      obtain ⟨inner, foundInner, isFirst⟩ := shows isItem
      obtain ⟨other, foundOther, isSecond⟩ := shows (same ▸ isItem)
      rw [foundInner, Option.some.injEq] at foundOther
      subst foundOther
      exact Option.some.inj (isFirst.symm.trans isSecond)
    | var symbol =>
      have isVar {id : SymbolId} (isItem : table.itemOf id = .var symbol) : id = symbol := by
        unfold itemOf at isItem
        split at isItem <;> cases isItem
        rfl
      exact (isVar isItem).trans (isVar (same ▸ isItem)).symm
  · exact (arranged.nested.blocks_nodup _ scope found).map fun _ _ => OutlineItem.scope.inj
  · intro item ofSymbol other ofBlock same
    obtain ⟨symbol, -, isItem⟩ := List.mem_map.mp ofSymbol
    obtain ⟨block, member, rfl⟩ := List.mem_map.mp ofBlock
    obtain ⟨inner, foundInner, owner⟩ := shows (isItem.trans same)
    obtain ⟨other, foundOther, isBlock, -⟩ :=
      (arranged.nested.mem_blocks _ scope found block).mp member
    rw [foundInner, Option.some.injEq] at foundOther
    rw [foundOther, isBlock] at owner
    cases owner

/-- What holds of a scope as soon as it holds of all that stands in it holds of every item. -/
theorem item_induction {motive : OutlineItem → Prop} (var : ∀ id, motive (.var id))
    (scope : ∀ id : ScopeId, id.index < table.scopes.size →
      (∀ item, table.around item = some id → motive item) → motive (.scope id))
    {item : OutlineItem} (has : table.Has item) : motive item := by
  cases item with
  | var id => exact var id
  | scope id =>
    replace has : id.index < table.scopes.size := has
    induction rest : table.scopes.size - id.index using Nat.strong_induction_on generalizing id with
    | _ rest ih =>
      refine scope id has fun item isAround => ?_
      cases item with
      | var symbol => exact var symbol
      | scope inner =>
        have later := arranged.around_scope_lt isAround
        have known : inner.index < table.scopes.size := has_of_around isAround
        exact ih _ (by omega) inner known rfl

/-- From every item of the table some number of steps leads outward to the namespace. -/
theorem exists_outward {item : OutlineItem} (has : table.Has item) :
    ∃ steps, table.outward item steps = some (.scope root) := by
  have chain : ∀ id : ScopeId, id.index < table.scopes.size →
      ∃ steps, table.outward (.scope id) steps = some (.scope root) := by
    rintro ⟨index⟩ known
    induction index using Nat.strong_induction_on with
    | _ index ih =>
      by_cases outermost : index = 0
      · exact ⟨0, by rw [outermost]; rfl⟩
      · obtain ⟨scope, found⟩ := scope_exists known
        obtain ⟨outer, isOuter, before⟩ := arranged.nested.enclosed _ scope found outermost
        obtain ⟨steps, ends⟩ := ih outer.index before (Nat.lt_trans before known)
        have isAround : table.around (.scope ⟨index⟩) = some outer := by simp [around, found, isOuter]
        exact ⟨steps + 1, (outward_of_around isAround).trans ends⟩
  cases item with
  | scope id => exact chain id has
  | var id =>
    obtain ⟨symbol, found, isVariable⟩ := has
    have found := orDangling_eq_ok_iff.mp found
    have isAround : table.around (.var id) = some symbol.enclosing := by
      simp [around, found, isVariable]
    obtain ⟨steps, ends⟩ := chain _ (arranged.ordered.housed _ symbol found)
    exact ⟨steps + 1, (outward_of_around isAround).trans ends⟩

theorem outward_root_unique {item : OutlineItem} {first second : Nat}
    (left : table.outward item first = some (.scope root))
    (right : table.outward item second = some (.scope root)) : first = second := by
  have beyond (steps : Nat) : table.outward (.scope root) (steps + 1) = none := by
    induction steps with
    | zero => simp [outward, arranged.around_root]
    | succ steps ih => rw [outward, ih]; rfl
  have notLess {low high : Nat} (least : table.outward item low = some (.scope root))
      (most : table.outward item high = some (.scope root)) : ¬ low < high := by
    intro less
    obtain ⟨more, rfl⟩ := Nat.exists_eq_add_of_lt less
    rw [Nat.add_assoc, outward_add, least, Option.bind_some, beyond] at most
    cases most
  have := notLess left right
  have := notLess right left
  omega

/-- Only one number of steps leads from an item to a scope of the table. -/
theorem outward_unique {item : OutlineItem} {id : ScopeId} {first second : Nat}
    (known : id.index < table.scopes.size) (left : table.outward item first = some (.scope id))
    (right : table.outward item second = some (.scope id)) : first = second := by
  obtain ⟨steps, ends⟩ := arranged.exists_outward (show table.Has (.scope id) from known)
  have whole {count : Nat} (leads : table.outward item count = some (.scope id)) :
      table.outward item (count + steps) = some (.scope root) := by
    rw [outward_add, leads, Option.bind_some, ends]
  have := arranged.outward_root_unique (whole left) (whole right)
  omega

end Arranged

/-- The lines of an item and of what stands in it, no deeper than the bound. -/
def linesWithin (table : SymbolTable) : Nat → Nat → OutlineItem → List OutlineLine
  | depth + 1, indent, .scope id =>
    ⟨indent, .scope id⟩ :: (table.contents id).flatMap (table.linesWithin depth (indent + 1))
  | _, indent, item => [⟨indent, item⟩]

def lines (table : SymbolTable) (indent : Nat) (item : OutlineItem) : List OutlineLine :=
  table.linesWithin (table.scopes.size + 1) indent item

theorem lines_var (indent : Nat) (id : SymbolId) :
    table.lines indent (.var id) = [⟨indent, .var id⟩] := rfl

theorem exists_lines_eq_cons (indent : Nat) (item : OutlineItem) :
    ∃ inner, table.lines indent item = ⟨indent, item⟩ :: inner := by
  cases item <;> exact ⟨_, rfl⟩

namespace Arranged

variable (arranged : table.Arranged)
include arranged

/-- A bound that lets every path of scopes end may as well be greater. -/
theorem linesWithin_succ (depth indent : Nat) {id : ScopeId} (known : id.index < table.scopes.size)
    (room : table.scopes.size < depth + id.index) :
    table.linesWithin (depth + 1) indent (.scope id) =
      table.linesWithin depth indent (.scope id) := by
  induction depth generalizing indent id with
  | zero => omega
  | succ depth ih =>
    rw [linesWithin, linesWithin]
    refine congrArg _ (List.flatMap_congr fun item member => ?_)
    have isAround := (arranged.mem_contents known).mp member
    cases item with
    | var symbol => cases depth <;> rfl
    | scope inner =>
      have later := arranged.around_scope_lt isAround
      exact ih (indent + 1) (has_of_around isAround) (by omega)

/-- The lines of a scope are its own and, indented further, those of what stands in it. -/
theorem lines_scope (indent : Nat) {id : ScopeId} (known : id.index < table.scopes.size) :
    table.lines indent (.scope id) =
      ⟨indent, .scope id⟩ :: (table.contents id).flatMap (table.lines (indent + 1)) := by
  rw [lines, linesWithin]
  refine congrArg _ (List.flatMap_congr fun item member => ?_)
  have isAround := (arranged.mem_contents known).mp member
  cases item with
  | var symbol => cases table.scopes.size <;> rfl
  | scope inner =>
    have later := arranged.around_scope_lt isAround
    exact (arranged.linesWithin_succ _ _ (has_of_around isAround) (by omega)).symm

/-- The recursion of the outline ends with the lines of the scope. -/
theorem outlineWithin_eq_ok (depth indent : Nat) {id : ScopeId}
    (known : id.index < table.scopes.size) (room : table.scopes.size < depth + id.index) :
    outlineWithin table depth indent id = .ok (table.linesWithin depth indent (.scope id)) := by
  induction depth generalizing indent id with
  | zero => omega
  | succ depth ih =>
    obtain ⟨scope, found⟩ := scope_exists known
    obtain ⟨symbols, read, ids, foundSymbols⟩ := arranged.ordered.find_symbolsIn known
    have inner {own : ScopeId} (member : .scope own ∈ table.contents id) :
        outlineWithin table depth (indent + 1) own =
          .ok (table.linesWithin depth (indent + 1) (.scope own)) := by
      have isAround := (arranged.mem_contents known).mp member
      have later := arranged.around_scope_lt isAround
      exact ih (indent + 1) (has_of_around isAround) (by omega)
    have members : symbols.mapM (memberOutline table depth indent) = .ok (symbols.map fun symbol =>
        table.linesWithin depth (indent + 1) (table.itemOf symbol.id)) := by
      refine mapM_eq_ok symbols fun symbol member => ?_
      have listed : table.itemOf symbol.id ∈ table.contents id :=
        List.mem_append_left _ (List.mem_map_of_mem (ids ▸ List.mem_map_of_mem member))
      have isItem : table.itemOf symbol.id = match symbol.kind.ownScope with
          | some own => .scope own
          | none => .var symbol.id := by
        rw [itemOf, foundSymbols symbol member]
        rfl
      unfold memberOutline
      rw [isItem] at listed ⊢
      cases isOwn : symbol.kind.ownScope with
      | some own =>
        rw [isOwn] at listed
        exact inner listed
      | none => cases depth <;> rfl
    have blocks : scope.blocks.mapM (outlineWithin table depth (indent + 1)) =
        .ok (scope.blocks.map fun block => table.linesWithin depth (indent + 1) (.scope block)) := by
      refine mapM_eq_ok scope.blocks fun block member => inner ?_
      simp only [contents, found, Option.map_some, Option.getD_some]
      exact List.mem_append_right _ (List.mem_map_of_mem member)
    have within : table.contents id = symbols.map (fun symbol => table.itemOf symbol.id) ++
        scope.blocks.map .scope := by
      simp [contents, found, ← ids, List.map_map, Function.comp_def]
    simp only [outlineWithin_succ, SymbolTable.scope, found, orDangling_some, ok_bind, read, members,
      blocks]
    rw [linesWithin, within, List.flatMap_append, List.flatMap_map, List.flatMap_map,
      List.flatMap_def, List.flatMap_def]
    rfl

/-- The lines of an item show what lies in it, each as far in as it lies. -/
theorem mem_lines {top : OutlineItem} (has : table.Has top) {indent : Nat} {line : OutlineLine} :
    line ∈ table.lines indent top ↔
      ∃ steps, line.indent = indent + steps ∧ table.outward line.item steps = some top := by
  have here {indent : Nat} {top : OutlineItem} : line = ⟨indent, top⟩ ↔
      line.indent = indent + 0 ∧ table.outward line.item 0 = some top := by
    cases line
    simp [outward]
  revert indent
  refine arranged.item_induction (motive := fun top => ∀ {indent}, line ∈ table.lines indent top ↔
    ∃ steps, line.indent = indent + steps ∧ table.outward line.item steps = some top) ?_ ?_ has
  · intro id indent
    rw [lines_var, List.mem_singleton, here]
    constructor
    · exact fun isFirst => ⟨0, isFirst⟩
    · rintro ⟨_ | steps, isIndent, leads⟩
      · exact ⟨isIndent, leads⟩
      · obtain ⟨_, _, _, _, impossible⟩ := outward_succ_eq_some_iff.mp leads
        cases impossible
  · intro id known ih indent
    rw [arranged.lines_scope indent known, List.mem_cons, List.mem_flatMap, here]
    constructor
    · rintro (isFirst | ⟨inner, member, inLines⟩)
      · exact ⟨0, isFirst⟩
      · have isAround := (arranged.mem_contents known).mp member
        obtain ⟨steps, isIndent, leads⟩ := (ih inner isAround).mp inLines
        exact ⟨steps + 1, by omega, outward_succ_eq_some_iff.mpr ⟨inner, id, leads, isAround, rfl⟩⟩
    · rintro ⟨_ | steps, isIndent, leads⟩
      · exact .inl ⟨isIndent, leads⟩
      · obtain ⟨inner, other, leads, isAround, same⟩ := outward_succ_eq_some_iff.mp leads
        cases same
        exact .inr ⟨inner, (arranged.mem_contents known).mpr isAround,
          (ih inner isAround).mpr ⟨steps, by omega, leads⟩⟩

/-- An item has one line, and what stands in it has lines that are indented further. -/
theorem exists_lines_eq (indent : Nat) {item : OutlineItem} (has : table.Has item) :
    ∃ inner, table.lines indent item = ⟨indent, item⟩ :: inner ∧
      ∀ line ∈ inner, indent < line.indent := by
  cases item with
  | var id => exact ⟨[], rfl, by simp⟩
  | scope id =>
    refine ⟨_, arranged.lines_scope indent has, fun line member => ?_⟩
    obtain ⟨item, inContents, inLines⟩ := List.mem_flatMap.mp member
    have isAround := (arranged.mem_contents has).mp inContents
    obtain ⟨steps, isIndent, -⟩ := (arranged.mem_lines (has_of_around isAround)).mp inLines
    omega

theorem lines_nodup {top : OutlineItem} (has : table.Has top) (indent : Nat) :
    ((table.lines indent top).map OutlineLine.item).Nodup := by
  revert indent
  refine arranged.item_induction (motive := fun top => ∀ indent,
    ((table.lines indent top).map OutlineLine.item).Nodup) ?_ ?_ has
  · intro id indent
    simp [lines_var]
  · intro id known ih indent
    -- A line below one of the items that stand in the scope lies one step further in.
    have leads {inner : OutlineItem} {line : OutlineLine} (member : inner ∈ table.contents id)
        (inLines : line ∈ table.lines (indent + 1) inner) : ∃ steps,
        table.outward line.item steps = some inner ∧
          table.outward line.item (steps + 1) = some (.scope id) := by
      have isAround := (arranged.mem_contents known).mp member
      obtain ⟨steps, -, leads⟩ := (arranged.mem_lines (has_of_around isAround)).mp inLines
      exact ⟨steps, leads, outward_succ_eq_some_iff.mpr ⟨inner, id, leads, isAround, rfl⟩⟩
    rw [arranged.lines_scope indent known, List.map_cons, List.map_flatMap, List.nodup_cons,
      List.nodup_flatMap]
    refine ⟨fun again => ?_, fun inner member => ih inner ?_ _, ?_⟩
    · obtain ⟨inner, member, inLines⟩ := List.mem_flatMap.mp again
      obtain ⟨line, inLines, same⟩ := List.mem_map.mp inLines
      obtain ⟨steps, -, back⟩ := leads member inLines
      rw [same] at back
      have start : table.outward (.scope id) 0 = some (.scope id) := rfl
      cases arranged.outward_unique known start back
    · exact (arranged.mem_contents known).mp member
    · refine (arranged.contents_nodup known).imp_of_mem fun {a b} inA inB different => ?_
      intro item ofA ofB
      obtain ⟨line, inLines, rfl⟩ := List.mem_map.mp ofA
      obtain ⟨other, inOther, same⟩ := List.mem_map.mp ofB
      obtain ⟨steps, toA, fromA⟩ := leads inA inLines
      obtain ⟨others, toB, fromB⟩ := leads inB inOther
      rw [same] at toB fromB
      have count := arranged.outward_unique known fromA fromB
      obtain rfl : steps = others := by omega
      exact different (Option.some.inj (toA.symm.trans toB))

/-- The lines of an item come one after another among those of the items around it. -/
theorem exists_lines_split {top item : OutlineItem} (has : table.Has top) {steps : Nat}
    (leads : table.outward item steps = some top) (indent : Nat) :
    ∃ before after,
      table.lines indent top = before ++ (table.lines (indent + steps) item ++ after) ∧
        ∀ line ∈ after.head?, line.indent ≤ indent + steps := by
  induction steps generalizing top indent with
  | zero =>
    cases leads
    exact ⟨[], [], by simp, by simp⟩
  | succ steps ih =>
    obtain ⟨middle, id, toMiddle, isAround, rfl⟩ := outward_succ_eq_some_iff.mp leads
    obtain ⟨before, after, split, ends⟩ := ih (has_of_around isAround) toMiddle (indent + 1)
    obtain ⟨earlier, later, isContents⟩ :=
      List.append_of_mem ((arranged.mem_contents has).mpr isAround)
    rw [Nat.add_right_comm] at split ends
    refine ⟨⟨indent, .scope id⟩ :: earlier.flatMap (table.lines (indent + 1)) ++ before,
      after ++ later.flatMap (table.lines (indent + 1)), ?_, ?_⟩
    · rw [arranged.lines_scope indent has, isContents, List.flatMap_append, List.flatMap_cons, split]
      simp [Nat.add_assoc]
    · intro line isHead
      cases after with
      | cons first after => exact ends line (by simpa using isHead)
      | nil =>
        cases later with
        | nil => simp at isHead
        | cons next later =>
          obtain ⟨inner, isLines⟩ := @exists_lines_eq_cons table (indent + 1) next
          simp only [List.nil_append, List.flatMap_cons, isLines, List.cons_append, List.head?_cons,
            Option.mem_def, Option.some.injEq] at isHead
          rw [← isHead]
          simp only
          omega

/-- What an outline shows of an item and further in are the lines of the item. -/
theorem rendering_lines {top item : OutlineItem} (has : table.Has top) {steps : Nat}
    (leads : table.outward item steps = some top) (indent : Nat) :
    rendering (table.lines indent top) item = table.lines (indent + steps) item := by
  obtain ⟨before, after, split, ends⟩ := arranged.exists_lines_split has leads indent
  obtain ⟨inner, isLines, further⟩ :=
    arranged.exists_lines_eq (indent + steps) (has_of_outward leads has)
  have once := arranged.lines_nodup has indent
  rw [split, isLines, List.map_append, List.nodup_append] at once
  rw [split, isLines]
  refine rendering_eq (fun again => ?_) further ends
  exact once.2.2 item again item (by simp) rfl

/-- The lines of a scope that are indented by one step more are those of what stands in it. -/
theorem lines_filter {id : ScopeId} (known : id.index < table.scopes.size) (indent : Nat) :
    ((table.lines indent (.scope id)).filter fun line => line.indent = indent + 1).map
      OutlineLine.item = table.contents id := by
  have each : ∀ item ∈ table.contents id,
      (table.lines (indent + 1) item).filter (fun line => line.indent = indent + 1) =
        [⟨indent + 1, item⟩] := by
    intro item member
    have isAround := (arranged.mem_contents known).mp member
    obtain ⟨inner, isLines, further⟩ :=
      arranged.exists_lines_eq (indent + 1) (has_of_around isAround)
    rw [isLines, List.filter_cons_of_pos (by simp), List.filter_eq_nil_iff.mpr]
    intro line member
    have := further line member
    simp only [decide_eq_true_eq]
    omega
  rw [arranged.lines_scope indent known, List.filter_cons_of_neg (by simp), List.filter_flatMap,
    List.flatMap_congr each]
  simp [List.map_flatMap]

end Arranged

/-- Lines show a table: every scope and every variable once, as far in as it lies, and within the
lines of the scope around it. What stands in a scope comes in the order of its symbols, and then its
blocks in the order in which they were made. -/
structure Outlined (table : SymbolTable) (lines : List OutlineLine) : Prop where
  once : (lines.map OutlineLine.item).Nodup
  complete : ∀ item, item ∈ lines.map OutlineLine.item ↔ table.Has item
  depth : ∀ indent item, ⟨indent, item⟩ ∈ lines →
    table.outward item indent = some (.scope root)
  inside : ∀ item outer, table.around item = some outer → ∃ indent,
    ⟨indent, .scope outer⟩ ∈ lines ∧ ⟨indent + 1, item⟩ ∈ lines ∧
      rendering lines item <:+: (rendering lines (.scope outer)).tail
  written : ∀ indent id, ⟨indent, .scope id⟩ ∈ lines →
    outlineWithin table (table.scopes.size + 1) indent id = .ok (rendering lines (.scope id))
  order : ∀ indent id scope, ⟨indent, .scope id⟩ ∈ lines → table.scope id = .ok scope →
    ((rendering lines (.scope id)).filter fun line => line.indent = indent + 1).map
      OutlineLine.item = scope.symbols.map table.itemOf ++ scope.blocks.map .scope
  created : ∀ id scope, table.scope id = .ok scope →
    scope.blocks.Pairwise fun first second => first.index < second.index

/-- The outline of an arranged table shows it. -/
theorem Arranged.outlined (arranged : table.Arranged)
    (created : ∀ id scope, table.scope id = .ok scope →
      scope.blocks.Pairwise fun first second => first.index < second.index) :
    ∃ lines, outlineWithin table (table.scopes.size + 1) 0 root = .ok lines ∧
      table.Outlined lines := by
  have known : root.index < table.scopes.size := by
    obtain ⟨scope, found, -⟩ := arranged.nested.outermost
    exact (Array.getElem?_eq_some_iff.mp found).1
  have has : table.Has (.scope root) := known
  have mem {indent : Nat} {item : OutlineItem} : ⟨indent, item⟩ ∈ table.lines 0 (.scope root) ↔
      table.outward item indent = some (.scope root) := by
    simp [arranged.mem_lines has]
  have isRendering {indent : Nat} {item : OutlineItem}
      (leads : table.outward item indent = some (.scope root)) :
      rendering (table.lines 0 (.scope root)) item = table.lines indent item := by
    rw [arranged.rendering_lines has leads, Nat.zero_add]
  have scopeKnown {indent : Nat} {id : ScopeId}
      (leads : table.outward (.scope id) indent = some (.scope root)) :
      id.index < table.scopes.size := has_of_outward leads has
  refine ⟨table.lines 0 (.scope root), arranged.outlineWithin_eq_ok _ _ known (by omega),
    arranged.lines_nodup has 0, fun item => ?_, fun _ _ => mem.mp, fun item outer isAround => ?_,
    fun indent id member => ?_, fun indent id scope member found => ?_, created⟩
  · constructor
    · intro member
      obtain ⟨line, inLines, rfl⟩ := List.mem_map.mp member
      exact has_of_outward (mem.mp inLines) has
    · intro inTable
      obtain ⟨steps, leads⟩ := arranged.exists_outward inTable
      exact List.mem_map.mpr ⟨_, mem.mpr leads, rfl⟩
  · have knownOuter := arranged.around_known isAround
    obtain ⟨indent, leads⟩ := arranged.exists_outward (show table.Has (.scope outer) from knownOuter)
    have further : table.outward item (indent + 1) = some (.scope root) :=
      (outward_of_around isAround).trans leads
    refine ⟨indent, mem.mpr leads, mem.mpr further, ?_⟩
    obtain ⟨earlier, later, isContents⟩ :=
      List.append_of_mem ((arranged.mem_contents knownOuter).mpr isAround)
    rw [isRendering leads, isRendering further, arranged.lines_scope _ knownOuter, isContents,
      List.tail_cons, List.flatMap_append, List.flatMap_cons]
    exact ⟨_, _, List.append_assoc ..⟩
  · have leads := mem.mp member
    rw [isRendering leads]
    exact arranged.outlineWithin_eq_ok _ _ (scopeKnown leads) (by omega)
  · have leads := mem.mp member
    rw [isRendering leads, arranged.lines_filter (scopeKnown leads), contents,
      orDangling_eq_ok_iff.mp found]
    simp [listing, orDangling_eq_ok_iff.mp found]

end SymbolTable

end ScriptSemantics
