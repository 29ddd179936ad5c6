import ScriptSemantics.Proofs.Renaming
import ScriptSemantics.Proofs.ViewReadings

/-!
# The outline of a represented resolution

Every resolution that the pass comes to can be shown. Going down from a scope to the scopes of its
symbols and to its blocks leads to later scopes only, so the outline ends, and each of its lines has a
text.
-/
namespace ScriptSemantics.View

variable {tree : SyntaxTree} {b r : Resolution} {v : View}

/-- What a line shows is there. -/
def Shown (r : Resolution) (line : Resolution.OutlineLine) : Prop :=
  match line.item with
  | .scope id => id.index < r.table.scopes.size
  | .var id => id.index < r.table.symbols.size

section Outline

variable (prepared : Prepared tree b) (rep : v.Represents tree b r) (grounded : v.Grounded tree b)
include prepared rep grounded

/-- The own scope of a symbol comes after the scope that lists the symbol. -/
theorem Represents.ownScope_lt {i : Nat} {symbol : Symbol} {own : ScopeId}
    (found : r.table.symbols[i]? = some symbol) (isOwn : symbol.kind.ownScope = some own) :
    symbol.enclosing.index < own.index ∧ own.index < r.table.scopes.size := by
  rcases rep.symbol_cases grounded.nodup found with ⟨old, foundOld, rfl⟩ | ⟨id, -, -, rfl⟩
  · obtain ⟨kind, kept, sameOwn, -⟩ := rep.completes.kept i old foundOld
    rw [found, Option.some.injEq] at kept
    have ownOld : old.kind.ownScope = some own := by
      rw [← sameOwn, ← isOwn, kept]
    obtain ⟨scope, foundScope, owner⟩ := prepared.registered.owned.own i old own foundOld ownOld
    obtain ⟨other, foundOther, -, around, -⟩ :=
      prepared.registered.owned.owner _ scope _ foundScope owner
    obtain rfl : old = other := Option.some.inj (foundOld.symm.trans foundOther)
    refine ⟨prepared.registered.nested.enclosing_lt foundScope around, ?_⟩
    rw [rep.frames.size_eq]
    exact (Array.getElem?_eq_some_iff.mp foundScope).1
  · cases isOwn

theorem Represents.outlineWithin_isOk (depth indent : Nat) {id : ScopeId}
    (known : id.index < r.table.scopes.size) (room : r.table.scopes.size < depth + id.index) :
    ∃ lines, Resolution.outlineWithin r.table depth indent id = .ok lines ∧
      ∀ line ∈ lines, Shown r line := by
  have nested := prepared.registered.nested.of_sameFrames rep.frames
  induction depth generalizing indent id with
  | zero => omega
  | succ depth ih =>
    obtain ⟨scope, foundScope⟩ := SymbolTable.scope_exists known
    obtain ⟨symbols, read, ids, found⟩ := rep.ordered.find_symbolsIn known
    have each : ∀ symbol ∈ symbols, ∃ lines,
        Resolution.memberOutline r.table depth indent symbol = .ok lines ∧
          ∀ line ∈ lines, Shown r line := by
      intro symbol member
      have foundSymbol := found symbol member
      have listed : symbol.id ∈ r.table.listing id := ids ▸ List.mem_map_of_mem member
      obtain ⟨other, foundOther, here⟩ := (rep.ordered.mem_listing known).mp listed
      obtain rfl : symbol = other := Option.some.inj (foundSymbol.symm.trans foundOther)
      unfold Resolution.memberOutline
      cases isOwn : symbol.kind.ownScope with
      | none =>
        refine ⟨_, rfl, ?_⟩
        simpa [Shown] using (Array.getElem?_eq_some_iff.mp foundSymbol).1
      | some own =>
        obtain ⟨later, knownOwn⟩ := rep.ownScope_lt prepared grounded foundSymbol isOwn
        rw [here] at later
        exact ih (indent + 1) knownOwn (by omega)
    have inner : ∀ block ∈ scope.blocks, ∃ lines,
        Resolution.outlineWithin r.table depth (indent + 1) block = .ok lines ∧
          ∀ line ∈ lines, Shown r line := by
      intro block member
      obtain ⟨below, foundBelow, -, around⟩ :=
        (nested.mem_blocks _ scope foundScope block).mp member
      have later := nested.enclosing_lt foundBelow around
      exact ih (indent + 1) (Array.getElem?_eq_some_iff.mp foundBelow).1 (by simp at later; omega)
    obtain ⟨members, readMembers, shownMembers⟩ := mapM_isOk_and symbols each
    obtain ⟨blocks, readBlocks, shownBlocks⟩ := mapM_isOk_and scope.blocks inner
    refine ⟨⟨indent, .scope id⟩ :: members.flatten ++ blocks.flatten, ?_, ?_⟩
    · simp only [Resolution.outlineWithin_succ, SymbolTable.scope, foundScope, orDangling_some,
        ok_bind, read, readMembers, readBlocks]
      rfl
    · intro line member
      rw [List.cons_append, List.mem_cons, List.mem_append] at member
      rcases member with rfl | member | member
      · exact known
      · obtain ⟨lines, inMembers, inLines⟩ := List.mem_flatten.mp member
        exact shownMembers lines inMembers line inLines
      · obtain ⟨lines, inBlocks, inLines⟩ := List.mem_flatten.mp member
        exact shownBlocks lines inBlocks line inLines

theorem Represents.typeText_isOk {type : Ty}
    (known : type.Formed b.IsClassScope v.types.functions.size) :
    ∃ text, r.typeText type = .ok text := by
  have formed : ∀ t, some type = some t → t.Formed b.IsClassScope v.types.functions.size :=
    fun t isType => Option.some.inj isType ▸ known
  exact ⟨_, rep.optionalTypeText_eq_ok prepared grounded formed⟩

theorem Represents.scopeText_isOk {id : ScopeId} (known : id.index < r.table.scopes.size) :
    ∃ text, r.scopeText id = .ok text := by
  obtain ⟨scope, foundScope⟩ := SymbolTable.scope_exists known
  obtain ⟨base, foundBase, sameKind, -⟩ := rep.frames.exists_scope foundScope
  unfold Resolution.scopeText
  simp only [SymbolTable.scope, foundScope, orDangling_some, ok_bind]
  have owner {symbol : SymbolId} (owns : scope.kind.owner? = some symbol) :
      ∃ x, b.table.symbols[symbol.index]? = some x ∧ x.id = symbol ∧
        scope.kind.isClass = x.kind.isClass := by
    obtain ⟨x, foundX, -, -, isClass⟩ :=
      prepared.registered.owned.owner _ base symbol foundBase (by rwa [sameKind])
    exact ⟨x, foundX, prepared.registered.ordered.symbol_id _ x foundX, by rw [← sameKind, isClass]⟩
  cases kind : scope.kind with
  | namespaceScope name => exact ⟨_, rfl⟩
  | blockScope => exact ⟨_, rfl⟩
  | classScope symbol =>
    obtain ⟨x, foundX, isId, -⟩ := owner (by rw [kind]; rfl)
    simp only [SymbolTable.symbol, rep.old_symbol foundX, orDangling_some, ok_bind]
    cases isSuperclass : (v.completed b x).kind.superclass with
    | none => exact ⟨_, rfl⟩
    | some superclass =>
      have isClass : b.IsClassScope superclass := by
        apply grounded.superclasses x.id superclass
        rcases prepared.registered.fresh _ x foundX with ⟨own, isKind⟩ | ⟨own, isKind⟩
        · simpa [completed, isKind, SymbolKind.superclass] using isSuperclass
        · simp [completed, isKind, SymbolKind.superclass] at isSuperclass
      obtain ⟨text, isText⟩ := classText_isOk prepared isClass b.types
      exact ⟨_, by simp only [rep.classText_eq prepared isClass b.types, isText, ok_bind]; rfl⟩
  | functionScope symbol =>
    obtain ⟨x, foundX, isId, isClass⟩ := owner (by rw [kind]; rfl)
    rcases prepared.registered.fresh _ x foundX with ⟨own, isKind⟩ | ⟨own, isKind⟩
    · simp [kind, ScopeKind.isClass, isKind, SymbolKind.isClass] at isClass
    · simp only [rep.signatureText_eq_ok prepared grounded foundX isId isKind, SymbolTable.symbol,
        rep.old_symbol foundX, orDangling_some, ok_bind, completed, isKind, SymbolKind.returnType]
      cases returns : v.returnType x.id with
      | none => exact ⟨_, rfl⟩
      | some type =>
        obtain ⟨text, isText⟩ := rep.typeText_isOk prepared grounded (grounded.returns _ type returns)
        exact ⟨_, by simp only [isText, ok_bind]; rfl⟩

theorem Represents.variableText_isOk {id : SymbolId} (known : id.index < r.table.symbols.size) :
    ∃ text, r.variableText id = .ok text := by
  have found : r.table.symbols[id.index]? = some r.table.symbols[id.index] := by simp [known]
  have formed : ∀ type, (r.table.symbols[id.index]).kind.variableType = some type →
      type.Formed b.IsClassScope v.types.functions.size := by
    intro type isType
    rcases rep.symbol_cases grounded.nodup found with ⟨old, foundOld, isOld⟩ | ⟨node, -, -, isNew⟩
    · rw [isOld] at isType
      rcases prepared.registered.fresh _ old foundOld with ⟨own, isKind⟩ | ⟨own, isKind⟩ <;>
        simp [completed, isKind, SymbolKind.variableType] at isType
    · rw [isNew] at isType
      exact grounded.variableTyped node type isType
  unfold Resolution.variableText
  simp only [SymbolTable.symbol, found, orDangling_some, ok_bind,
    rep.optionalTypeText_eq_ok prepared grounded formed]
  exact ⟨_, rfl⟩

/-- The outline of a resolution that the pass comes to has a text. -/
theorem Represents.outlineText_isOk : ∃ text, r.outlineText = .ok text := by
  have known : SymbolTable.root.index < r.table.scopes.size :=
    rep.frames.size_eq ▸ prepared.registered.root_known
  obtain ⟨lines, isOutline, shown⟩ :=
    rep.outlineWithin_isOk prepared grounded (r.table.scopes.size + 1) 0 known (by omega)
  obtain ⟨texts, read⟩ := mapM_isOk (f := r.lineText) lines fun line member => by
    have there := shown line member
    obtain ⟨indent, item⟩ := line
    cases item with
    | scope id =>
      obtain ⟨text, isText⟩ := rep.scopeText_isOk prepared grounded there
      exact ⟨_, by simp only [Resolution.lineText, isText, ok_bind]; rfl⟩
    | var id =>
      obtain ⟨text, isText⟩ := rep.variableText_isOk prepared grounded there
      exact ⟨_, by simp only [Resolution.lineText, isText, ok_bind]; rfl⟩
  exact ⟨_, by simp only [Resolution.outlineText, Resolution.outline, isOutline, read, ok_bind]; rfl⟩

end Outline

end ScriptSemantics.View
