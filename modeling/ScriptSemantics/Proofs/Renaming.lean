import ScriptSemantics.Proofs.SymbolTables
import ScriptSemantics.Rendering

/-!
# Renumbering the symbols

The numbers of symbols mean nothing beyond which symbol is which. A resolution whose symbols are
renumbered shows the same outline, since a number is never printed and every listing is renumbered
with its symbols.
-/
namespace ScriptSemantics

/-- What a symbol names, with the symbols in it renumbered. -/
def SymbolKind.rename (σ : SymbolId → SymbolId) : SymbolKind → SymbolKind
  | .var type => .var type
  | .function scope type parameters => .function scope type (parameters.map σ)
  | .classType scope superclass => .classType scope superclass

def Symbol.rename (σ : SymbolId → SymbolId) (symbol : Symbol) : Symbol :=
  { symbol with id := σ symbol.id, kind := symbol.kind.rename σ }

def Resolution.OutlineLine.rename (σ : SymbolId → SymbolId) :
    Resolution.OutlineLine → Resolution.OutlineLine
  | ⟨indent, .scope id⟩ => ⟨indent, .scope id⟩
  | ⟨indent, .var id⟩ => ⟨indent, .var (σ id)⟩

@[simp] theorem SymbolKind.rename_ownScope (σ : SymbolId → SymbolId) (kind : SymbolKind) :
    (kind.rename σ).ownScope = kind.ownScope := by cases kind <;> rfl

@[simp] theorem SymbolKind.rename_variableType (σ : SymbolId → SymbolId) (kind : SymbolKind) :
    (kind.rename σ).variableType = kind.variableType := by cases kind <;> rfl

@[simp] theorem SymbolKind.rename_returnType (σ : SymbolId → SymbolId) (kind : SymbolKind) :
    (kind.rename σ).returnType = kind.returnType := by cases kind <;> rfl

@[simp] theorem SymbolKind.rename_superclass (σ : SymbolId → SymbolId) (kind : SymbolKind) :
    (kind.rename σ).superclass = kind.superclass := by cases kind <;> rfl

@[simp] theorem SymbolKind.rename_parameters (σ : SymbolId → SymbolId) (kind : SymbolKind) :
    (kind.rename σ).parameters = kind.parameters.map σ := by cases kind <;> rfl

namespace Resolution

/-- What a symbol adds to the outline of its scope: the outline of its own scope, or a line. -/
def memberOutline (table : SymbolTable) (depth indent : Nat) (symbol : Symbol) :
    Except Fault (List OutlineLine) :=
  match symbol.kind.ownScope with
  | some own => outlineWithin table depth (indent + 1) own
  | none => pure [⟨indent + 1, .var symbol.id⟩]

theorem outlineWithin_succ (table : SymbolTable) (depth indent : Nat) (id : ScopeId) :
    outlineWithin table (depth + 1) indent id = (do
      let scope ← table.scope id
      let symbols ← table.symbolsIn id
      let members ← symbols.mapM (memberOutline table depth indent)
      let blocks ← scope.blocks.mapM (outlineWithin table depth (indent + 1))
      pure (⟨indent, .scope id⟩ :: members.flatten ++ blocks.flatten)) := rfl

/-- The second resolution is the first with its symbols renumbered: it has the same types and, under
their new numbers, the same symbols. Its scopes are the same but for the numbers that they list, and
the symbols that scopes belong to keep theirs. -/
structure Renames (σ : SymbolId → SymbolId) (r r' : Resolution) : Prop where
  types : r'.types = r.types
  symbols : ∀ id : SymbolId, r'.table.symbols[(σ id).index]? =
    (r.table.symbols[id.index]?).map (Symbol.rename σ)
  scopes : ∀ i : Nat, r'.table.scopes[i]? =
    (r.table.scopes[i]?).map fun scope => { scope with symbols := scope.symbols.map σ }
  owners : ∀ (i : Nat) (scope : Scope) (symbol : SymbolId), r.table.scopes[i]? = some scope →
    scope.kind.owner? = some symbol → σ symbol = symbol

namespace Renames

variable {σ : SymbolId → SymbolId} {r r' : Resolution} (renames : Renames σ r r')
include renames

theorem sameFrames : r'.table.SameFrames r.table := by
  intro i
  rw [renames.scopes]
  cases r.table.scopes[i]? <;> rfl

theorem symbol_eq (id : SymbolId) :
    r'.table.symbol (σ id) = Symbol.rename σ <$> r.table.symbol id := by
  rw [SymbolTable.symbol, SymbolTable.symbol, renames.symbols]
  cases r.table.symbols[id.index]? <;> rfl

theorem scope_eq (id : ScopeId) : r'.table.scope id =
    (fun scope => { scope with symbols := scope.symbols.map σ }) <$> r.table.scope id := by
  rw [SymbolTable.scope, SymbolTable.scope, renames.scopes]
  cases r.table.scopes[id.index]? <;> rfl

theorem owner_kept {id : ScopeId} {scope : Scope} {symbol : SymbolId}
    (found : r.table.scope id = .ok scope) (owner : scope.kind.owner? = some symbol) :
    σ symbol = symbol := by
  refine renames.owners id.index scope symbol ?_ owner
  unfold SymbolTable.scope at found
  cases inTable : r.table.scopes[id.index]? with
  | none => simp [inTable, orDangling] at found
  | some other =>
    rw [inTable, orDangling_some, Except.ok.injEq] at found
    rw [found]

theorem owner_eq {id : ScopeId} {scope : Scope} {symbol : SymbolId}
    (found : r.table.scope id = .ok scope) (owner : scope.kind.owner? = some symbol) :
    r'.table.symbol symbol = Symbol.rename σ <$> r.table.symbol symbol := by
  have renamed := renames.symbol_eq symbol
  rwa [renames.owner_kept found owner] at renamed

theorem symbolsIn_eq (id : ScopeId) : r'.table.symbolsIn id =
    List.map (Symbol.rename σ) <$> r.table.symbolsIn id := by
  have each : r'.table.symbol ∘ σ = fun id => Symbol.rename σ <$> r.table.symbol id :=
    funext renames.symbol_eq
  rw [SymbolTable.symbolsIn, SymbolTable.symbolsIn, renames.scope_eq]
  cases r.table.scope id with
  | error fault => rfl
  | ok scope =>
    simp only [map_ok, ok_bind, List.mapM_map, each]
    exact mapM_map_result _

/-- The outline of a scope is that of the scope before, renumbered. -/
theorem outlineWithin_eq (depth indent : Nat) (id : ScopeId) :
    outlineWithin r'.table depth indent id =
      List.map (OutlineLine.rename σ) <$> outlineWithin r.table depth indent id := by
  induction depth generalizing indent id with
  | zero => rfl
  | succ depth ih =>
    have member (symbol : Symbol) : memberOutline r'.table depth indent (symbol.rename σ) =
        List.map (OutlineLine.rename σ) <$> memberOutline r.table depth indent symbol := by
      simp only [memberOutline, Symbol.rename, SymbolKind.rename_ownScope]
      cases symbol.kind.ownScope with
      | none => rfl
      | some own => exact ih ..
    have block : outlineWithin r'.table depth (indent + 1) =
        fun id => List.map (OutlineLine.rename σ) <$> outlineWithin r.table depth (indent + 1) id :=
      funext (ih (indent + 1))
    rw [outlineWithin_succ, outlineWithin_succ, renames.scope_eq, renames.symbolsIn_eq, block]
    cases r.table.scope id with
    | error fault => rfl
    | ok scope =>
      cases r.table.symbolsIn id with
      | error fault => rfl
      | ok symbols =>
        simp only [map_ok, ok_bind, List.mapM_map, Function.comp_def, member, mapM_map_result]
        cases symbols.mapM (memberOutline r.table depth indent) with
        | error fault => rfl
        | ok members =>
          cases scope.blocks.mapM (outlineWithin r.table depth (indent + 1)) with
          | error fault => rfl
          | ok blocks => simp [pure, Except.pure, OutlineLine.rename, List.map_flatten]

theorem classText_eq (scope : ScopeId) : r'.classText scope = r.classText scope := by
  unfold classText SymbolTable.owner
  rw [renames.scope_eq]
  cases found : r.table.scope scope with
  | error fault => rfl
  | ok s =>
    simp only [map_ok, ok_bind, pure, Except.pure]
    cases owner : s.kind.owner? with
    | none => rfl
    | some symbol =>
      simp only [renames.owner_eq found owner]
      cases r.table.symbol symbol <;> rfl

theorem typeText_eq (type : Ty) : r'.typeText type = r.typeText type := by
  have within (depth : Nat) (type : Ty) : r'.typeTextWithin depth type =
      r.typeTextWithin depth type := by
    induction depth generalizing type with
    | zero => cases type <;> simp [typeTextWithin, renames.classText_eq]
    | succ depth ih =>
      cases type with
      | functionType id =>
        have each : r'.typeTextWithin depth = r.typeTextWithin depth := funext ih
        simp only [typeTextWithin, renames.types, each]
      | _ => simp [typeTextWithin, renames.classText_eq]
  unfold typeText
  rw [renames.types]
  exact within _ type

theorem optionalTypeText_eq (type : Option Ty) :
    r'.optionalTypeText type = r.optionalTypeText type := by
  cases type with
  | none => rfl
  | some type => exact renames.typeText_eq type

theorem signatureText_eq (function : SymbolId) :
    r'.signatureText (σ function) = r.signatureText function := by
  unfold signatureText
  rw [renames.symbol_eq]
  cases r.table.symbol function with
  | error fault => rfl
  | ok symbol =>
    have parameter (id : SymbolId) : (do
        r'.optionalTypeText (← r'.table.symbol (σ id)).kind.variableType) =
          (do r.optionalTypeText (← r.table.symbol id).kind.variableType : Except Fault String) := by
      rw [renames.symbol_eq]
      cases r.table.symbol id with
      | error fault => rfl
      | ok found =>
        simp only [map_ok, ok_bind, Symbol.rename, SymbolKind.rename_variableType,
          renames.optionalTypeText_eq]
    simp only [map_ok, ok_bind, Symbol.rename, SymbolKind.rename_parameters, List.mapM_map,
      Function.comp_def, parameter]

theorem scopeText_eq (id : ScopeId) : r'.scopeText id = r.scopeText id := by
  unfold scopeText
  rw [renames.scope_eq]
  cases found : r.table.scope id with
  | error fault => rfl
  | ok scope =>
    simp only [map_ok, ok_bind]
    cases kind : scope.kind with
    | namespaceScope name => rfl
    | blockScope => rfl
    | classScope symbol =>
      simp only [renames.owner_eq found (by rw [kind]; rfl)]
      cases r.table.symbol symbol with
      | error fault => rfl
      | ok symbol =>
        simp only [map_ok, ok_bind, Symbol.rename, SymbolKind.rename_superclass,
          renames.classText_eq]
    | functionScope symbol =>
      have owner : scope.kind.owner? = some symbol := by rw [kind]; rfl
      have signature := renames.signatureText_eq symbol
      rw [renames.owner_kept found owner] at signature
      simp only [renames.owner_eq found owner, signature]
      cases r.signatureText symbol with
      | error fault => rfl
      | ok text =>
        cases r.table.symbol symbol with
        | error fault => rfl
        | ok symbol =>
          simp only [map_ok, ok_bind, Symbol.rename, SymbolKind.rename_returnType,
            renames.typeText_eq]

theorem variableText_eq (id : SymbolId) : r'.variableText (σ id) = r.variableText id := by
  unfold variableText
  rw [renames.symbol_eq]
  cases r.table.symbol id with
  | error fault => rfl
  | ok symbol =>
    simp only [map_ok, ok_bind, Symbol.rename, SymbolKind.rename_variableType,
      renames.optionalTypeText_eq]

theorem lineText_eq (line : OutlineLine) : r'.lineText (line.rename σ) = r.lineText line := by
  obtain ⟨indent, item⟩ := line
  cases item with
  | scope id => simp only [OutlineLine.rename, lineText, renames.scopeText_eq]
  | var id => simp only [OutlineLine.rename, lineText, renames.variableText_eq]

/-- Renumbering the symbols does not change the text of the outline. -/
theorem outlineText_eq : r'.outlineText = r.outlineText := by
  unfold outlineText outline
  rw [renames.outlineWithin_eq, renames.sameFrames.size_eq]
  cases outlineWithin r.table (r.table.scopes.size + 1) 0 SymbolTable.root with
  | error fault => rfl
  | ok lines =>
    simp only [map_ok, ok_bind, List.mapM_map, Function.comp_def, renames.lineText_eq]

end Renames

end Resolution

end ScriptSemantics
