import Mathlib.Logic.Equiv.Defs
import ScriptSemantics.Proofs.Outlines
import ScriptSemantics.Proofs.TwoPhases

/-!
# One pass or two

Two views that agree are represented by resolutions that differ in the numbers of their variables and
in the order of their diagnostics, and in nothing else. So it does not matter whether a unit is
resolved in two phases or in one pass.
-/
namespace ScriptSemantics

namespace View

variable {tree : SyntaxTree} {b r r' : Resolution} {v w : View}

/-- The number that a symbol has when variables are declared in the order of another view. -/
def renumber (v w : View) (b : Resolution) (id : SymbolId) : SymbolId :=
  if id.index < b.table.symbols.size then id
  else
    match v.declared[id.index - b.table.symbols.size]? with
    | some node => w.idOf b node
    | none => id

theorem renumber_old {id : SymbolId} (old : id.index < b.table.symbols.size) :
    renumber v w b id = id := if_pos old

theorem renumber_idOf {node : NodeId} (member : node ∈ v.declared) :
    renumber v w b (v.idOf b node) = w.idOf b node := by
  have position := List.idxOf_lt_length_of_mem member
  have found : v.declared[v.declared.idxOf node]? = some node :=
    List.getElem?_eq_some_iff.mpr ⟨position, List.getElem_idxOf position⟩
  simp [renumber, idOf, found]

/-- A number is that of a class or function, of a variable, or of nothing. -/
theorem idOf_cases (nodup : v.declared.Nodup) (id : SymbolId) :
    id.index < b.table.symbols.size ∨ (∃ node ∈ v.declared, id = v.idOf b node) ∨
      b.table.symbols.size + v.declared.length ≤ id.index := by
  by_cases old : id.index < b.table.symbols.size
  · exact .inl old
  by_cases new : id.index - b.table.symbols.size < v.declared.length
  · refine .inr (.inl ⟨v.declared[id.index - b.table.symbols.size], List.getElem_mem _, ?_⟩)
    refine congrArg SymbolId.mk (show id.index = _ from ?_)
    rw [nodup.idxOf_getElem]
    omega
  · exact .inr (.inr (by omega))

theorem renumber_beyond {id : SymbolId}
    (beyond : b.table.symbols.size + v.declared.length ≤ id.index) : renumber v w b id = id := by
  unfold renumber
  rw [if_neg (by omega), List.getElem?_eq_none (by omega)]

theorem renumber_renumber (perm : v.declared.Perm w.declared) (nodup : v.declared.Nodup)
    (id : SymbolId) : renumber w v b (renumber v w b id) = id := by
  rcases idOf_cases (b := b) nodup id with old | ⟨node, member, rfl⟩ | beyond
  · rw [renumber_old old, renumber_old old]
  · rw [renumber_idOf member, renumber_idOf (perm.mem_iff.mp member)]
  · rw [renumber_beyond beyond, renumber_beyond (by rw [← perm.length_eq]; exact beyond)]

/-- The renumbering between two orders of declaration. -/
def renumbering (b : Resolution) (perm : v.declared.Perm w.declared) (nodup : v.declared.Nodup) :
    Equiv.Perm SymbolId where
  toFun := renumber v w b
  invFun := renumber w v b
  left_inv := renumber_renumber perm nodup
  right_inv := renumber_renumber perm.symm (perm.nodup nodup)

/-- No two symbols of a represented resolution are declared at one node. -/
theorem Represents.distinct (prepared : Prepared tree b) (rep : v.Represents tree b r)
    (grounded : v.Grounded tree b) : r.table.DistinctNodes := by
  have apart {i : Nat} {old : Symbol} {id : NodeId} (found : b.table.symbols[i]? = some old)
      (member : id ∈ v.declared) : old.node ≠ id := by
    rintro rfl
    obtain ⟨-, -, node, foundNode, sort⟩ := prepared.registered.symbol prepared.formed found
    obtain ⟨other, name, foundOther, is⟩ := grounded.named _ member
    obtain rfl : node = other := Option.some.inj (foundNode.symm.trans foundOther)
    rcases sort with ⟨_, _, isClass, -⟩ | ⟨_, _, _, isFunction, -⟩
    · rw [is] at isClass
      cases isClass
    · rw [is] at isFunction
      cases isFunction
  intro i j x y foundX foundY same
  rcases rep.symbol_cases grounded.nodup foundX with ⟨old, foundOld, rfl⟩ | ⟨id, member, place, rfl⟩ <;>
    rcases rep.symbol_cases grounded.nodup foundY with
      ⟨old', foundOld', rfl⟩ | ⟨id', member', place', rfl⟩
  · exact prepared.registered.distinct i j old old' foundOld foundOld' same
  · exact (apart foundOld member' same).elim
  · exact (apart foundOld' member same.symm).elim
  · obtain rfl : id = id' := same
    rw [place, place']

/-- Completing a symbol in the one view or in the other differs in the numbers of its parameters. -/
theorem completed_rename (agree : Agrees v w) (grounded : v.Grounded tree b) {symbol : Symbol}
    (old : symbol.id.index < b.table.symbols.size) :
    (v.completed b symbol).rename (renumber v w b) = w.completed b symbol := by
  have parameters : ((v.parameters symbol.id).map (v.idOf b)).map (renumber v w b) =
      (w.parameters symbol.id).map (w.idOf b) := by
    rw [List.map_map, ← agree.parameters]
    exact List.map_congr_left fun id member => renumber_idOf (grounded.parameters _ id member)
  obtain ⟨id, name, kind, enclosing, node, location⟩ := symbol
  simp only [Symbol.rename, completed, renumber_old old, Symbol.mk.injEq, true_and, and_true]
  cases kind with
  | var type => rfl
  | function own result given =>
    simp only [SymbolKind.rename, agree.returnType]
    exact congrArg _ parameters
  | classType own superclass => simp only [SymbolKind.rename, agree.superclass]

section Agreeing

variable (prepared : Prepared tree b) (agree : Agrees v w) (follows : v.Follows tree b r)
  (follows' : w.Follows tree b r')
include prepared agree follows follows'

/-- The symbols of the one resolution are those of the other under new numbers. -/
theorem symbols_renumber (id : SymbolId) :
    r'.table.symbols[(renumber v w b id).index]? =
      (r.table.symbols[id.index]?).map (Symbol.rename (renumber v w b)) := by
  rcases idOf_cases (b := b) follows.grounded.nodup id with old | ⟨node, member, rfl⟩ | beyond
  · have found : b.table.symbols[id.index]? = some b.table.symbols[id.index] := by simp [old]
    have isId := prepared.registered.ordered.symbol_id _ _ found
    rw [renumber_old old, follows.rep.old_symbol found, follows'.rep.old_symbol found, Option.map_some,
      completed_rename agree follows.grounded (by rw [isId]; exact old)]
  · rw [renumber_idOf member, follows.rep.variable_symbol member,
      follows'.rep.variable_symbol (agree.declared.mem_iff.mp member), ← agree.variableType]
    simp [Symbol.rename, SymbolKind.rename, renumber_idOf member]
  · have size : r.table.symbols.size ≤ id.index := by rwa [follows.rep.symbols_size]
    have size' : r'.table.symbols.size ≤ id.index := by
      rwa [follows'.rep.symbols_size, ← agree.declared.length_eq]
    rw [renumber_beyond beyond, Array.getElem?_eq_none size, Array.getElem?_eq_none size']
    rfl

theorem place_renumber (id : SymbolId) :
    r'.table.place (renumber v w b id) = r.table.place id := by
  unfold SymbolTable.place
  rw [symbols_renumber prepared agree follows follows', Option.map_map]
  rfl

theorem listing_renumber {i : Nat} {scope scope' : Scope} (found : r.table.scopes[i]? = some scope)
    (found' : r'.table.scopes[i]? = some scope') :
    scope'.symbols = scope.symbols.map (renumber v w b) := by
  have symbols := symbols_renumber prepared agree follows follows'
  have nodup : (scope.symbols.map (renumber v w b)).Nodup :=
    (follows.rep.ordered.nodup i scope found).map (renumbering b agree.declared follows.grounded.nodup).injective
  have mem (id : SymbolId) :
      id ∈ scope'.symbols ↔ id ∈ scope.symbols.map (renumber v w b) := by
    rw [follows'.rep.ordered.listed i scope' found', List.mem_map]
    constructor
    · rintro ⟨symbol, foundSymbol, here⟩
      have back := renumber_renumber (b := b) agree.declared.symm follows'.grounded.nodup id
      have isRenamed := symbols (renumber w v b id)
      rw [back, foundSymbol, eq_comm, Option.map_eq_some_iff] at isRenamed
      obtain ⟨old, foundOld, rfl⟩ := isRenamed
      exact ⟨renumber w v b id, (follows.rep.ordered.listed i scope found _).mpr ⟨old, foundOld, here⟩, back⟩
    · rintro ⟨old, listed, rfl⟩
      obtain ⟨symbol, foundSymbol, here⟩ := (follows.rep.ordered.listed i scope found old).mp listed
      exact ⟨symbol.rename (renumber v w b), by rw [symbols, foundSymbol]; rfl, here⟩
  have perm : scope'.symbols.Perm (scope.symbols.map (renumber v w b)) :=
    (List.perm_ext_iff_of_nodup (follows'.rep.ordered.nodup i scope' found') nodup).mpr mem
  refine (follows'.rep.distinct prepared follows'.grounded).eq_of_sorted (fun id member => ?_) perm
    (follows'.rep.ordered.sorted i scope' found') ?_
  · obtain ⟨symbol, foundSymbol, -⟩ :=
      (follows'.rep.ordered.listed i scope' found' id).mp ((mem id).mpr member)
    exact ⟨symbol, foundSymbol⟩
  · rw [List.pairwise_map]
    refine (follows.rep.ordered.sorted i scope found).imp fun {a c} le => ?_
    rwa [place_renumber prepared agree follows follows',
      place_renumber prepared agree follows follows']

/-- Agreeing views are represented by one resolution up to the numbers of symbols. -/
theorem Agrees.renames : Resolution.Renames (renumber v w b) r r' where
  types := by rw [follows.rep.types, follows'.rep.types, agree.types]
  symbols := symbols_renumber prepared agree follows follows'
  scopes i := by
    have frames : (r'.table.scopes[i]?).map Scope.frame = (r.table.scopes[i]?).map Scope.frame :=
      (follows'.rep.frames i).trans (follows.rep.frames i).symm
    cases found : r.table.scopes[i]? with
    | none => simpa [found] using frames
    | some scope =>
      rw [found, Option.map_some, Option.map_eq_some_iff] at frames
      obtain ⟨scope', found', same⟩ := frames
      have listed := listing_renumber prepared agree follows follows' found found'
      rw [found', Option.map_some, Option.some.injEq, ← listed]
      obtain ⟨id, kind, enclosing, symbols, blocks⟩ := scope
      obtain ⟨id', kind', enclosing', symbols', blocks'⟩ := scope'
      simp only [Scope.frame, Scope.mk.injEq] at same ⊢
      tauto
  owners i scope symbol found owner := by
    obtain ⟨base, foundBase, sameKind, -⟩ := follows.rep.frames.exists_scope found
    obtain ⟨x, foundX, -⟩ :=
      prepared.registered.owned.owner i base symbol foundBase (by rwa [sameKind])
    exact renumber_old (Array.getElem?_eq_some_iff.mp foundX).1

/-- Agreeing views are represented by the same facts up to the numbers of symbols. -/
theorem Agrees.factsOf_eq (id : NodeId) : r'.factsOf id =
    { r.factsOf id with symbol := (r.factsOf id).symbol.map (renumber v w b) } := by
  by_cases inside : id.index < tree.size
  · rw [follows.rep.facts id inside, follows'.rep.facts id inside, agree.typeOf, agree.checked]
    simp only [NodeFacts.mk.injEq, true_and, and_true]
    unfold View.symbolOf
    by_cases member : id ∈ v.declared
    · simp [member, agree.declared.mem_iff.mp member, renumber_idOf member]
    · have notMember : id ∉ w.declared := fun other => member (agree.declared.mem_iff.mpr other)
      simp only [member, notMember, if_false]
      cases symbol : b.symbolOf id with
      | none => rfl
      | some symbol =>
        have old := prepared.registered.symbol_known prepared.formed symbol
        rw [Option.map_some, renumber_old old]
  · have outside : r.facts[id.index]? = none :=
      Array.getElem?_eq_none (by rw [follows.rep.size]; omega)
    have outside' : r'.facts[id.index]? = none :=
      Array.getElem?_eq_none (by rw [follows'.rep.size]; omega)
    simp [Resolution.factsOf, outside, outside', NodeFacts.unknown]

end Agreeing

end View

/-- Analysing a unit gives what one pass with locals over the whole unit gives, up to the numbers of
variables and the order of diagnostics. -/
theorem analyze_renames_onePass {tree : SyntaxTree} {root : Node} (valid : tree.validate = .ok ())
    (found : tree.node? tree.root = some root) (unit : root.kind = .compilationUnit)
    (settings : Settings) (locals : settings.enterLocalVariables = true) :
    ∃ (built inPhases inOne : Resolution) (σ : Equiv.Perm SymbolId) (text : String),
      Resolution.build tree settings.namespaceName = .ok built ∧
      analyze tree settings = .ok inPhases ∧
      built.resolve tree .withLocals = .ok inOne ∧
      Resolution.Renames σ inPhases inOne ∧
      (∀ id, inOne.factsOf id =
        { inPhases.factsOf id with symbol := (inPhases.factsOf id).symbol.map σ }) ∧
      inPhases.outlineText = .ok text ∧ inOne.outlineText = .ok text ∧
      inOne.diagnostics.toList.Perm inPhases.diagnostics.toList := by
  obtain ⟨built, inPhases, isBuilt, prepared, analysed, follows⟩ :=
    exists_analysed (SyntaxTree.validate_eq_ok_iff.mp valid) settings
  rw [locals] at follows
  have suits : tree.Suits .withLocals := by
    refine .inr fun node foundNode => ?_
    obtain rfl : root = node := Option.some.inj (found.symm.trans foundNode)
    simp [unit]
  have start : (View.start built).Follows tree built built := ⟨.start prepared, .start prepared⟩
  obtain ⟨inOne, resolved, follows'⟩ := start.resolveFrom prepared suits .root
  have agree := View.analysed_agrees_atOnce prepared found unit
  have renames := agree.renames prepared follows follows'
  obtain ⟨text, shown⟩ := follows.rep.outlineText_isOk prepared follows.grounded
  refine ⟨built, inPhases, inOne, View.renumbering built agree.declared follows.grounded.nodup, text,
    isBuilt, analysed, resolved, renames, agree.factsOf_eq prepared follows follows', shown,
    renames.outlineText_eq.trans shown, ?_⟩
  rw [follows.rep.diagnostics, follows'.rep.diagnostics]
  exact agree.diagnostics.symm

/-- The unit `int x; class A { int x; } int x;`. -/
def SyntaxTree.repeated : SyntaxTree where
  nodes := #[
    ⟨.primitiveType .int, ⟨0, 3⟩⟩, ⟨.typeNode ⟨0⟩, ⟨0, 3⟩⟩,
    ⟨.variableDeclaratorId "x", ⟨4, 5⟩⟩, ⟨.variableDeclarator ⟨2⟩ none, ⟨4, 5⟩⟩,
    ⟨.variableDeclarators ⟨1⟩ [⟨3⟩], ⟨0, 5⟩⟩,
    ⟨.primitiveType .int, ⟨17, 20⟩⟩, ⟨.typeNode ⟨5⟩, ⟨17, 20⟩⟩,
    ⟨.variableDeclaratorId "x", ⟨21, 22⟩⟩, ⟨.variableDeclarator ⟨7⟩ none, ⟨21, 22⟩⟩,
    ⟨.variableDeclarators ⟨6⟩ [⟨8⟩], ⟨17, 22⟩⟩, ⟨.classDeclaration "A" none [⟨9⟩], ⟨7, 25⟩⟩,
    ⟨.primitiveType .int, ⟨26, 29⟩⟩, ⟨.typeNode ⟨11⟩, ⟨26, 29⟩⟩,
    ⟨.variableDeclaratorId "x", ⟨30, 31⟩⟩, ⟨.variableDeclarator ⟨13⟩ none, ⟨30, 31⟩⟩,
    ⟨.variableDeclarators ⟨12⟩ [⟨14⟩], ⟨26, 31⟩⟩,
    ⟨.compilationUnit [⟨4⟩, ⟨10⟩, ⟨15⟩], ⟨0, 32⟩⟩]
  root := ⟨16⟩

/-- The field is declared before the first local in two phases, and after it in one pass. The outline
shows them alike, and the second local is reported once either way. -/
theorem analyze_renames_onePass_repeated :
    ∃ (built inPhases inOne : Resolution) (σ : Equiv.Perm SymbolId),
      Resolution.build SyntaxTree.repeated "global" = .ok built ∧
      analyze SyntaxTree.repeated Settings.standard = .ok inPhases ∧
      built.resolve SyntaxTree.repeated .withLocals = .ok inOne ∧
      Resolution.Renames σ inPhases inOne ∧ σ ⟨1⟩ = ⟨2⟩ ∧
      inPhases.outlineText =
        .ok "namespace global\n  variable x: int\n  class A\n    variable x: int\n" ∧
      inOne.outlineText = inPhases.outlineText ∧
      inOne.diagnostics.toList.Perm inPhases.diagnostics.toList ∧
      inPhases.diagnostics.toList.map Diagnostic.node = [⟨13⟩] := by
  obtain ⟨built, inPhases, inOne, σ, text, isBuilt, analysed, resolved, renames, facts, shown,
    shownInOne, reports⟩ :=
    @analyze_renames_onePass SyntaxTree.repeated _ rfl rfl rfl Settings.standard rfl
  have isBuilt : Resolution.build SyntaxTree.repeated "global" = .ok built := isBuilt
  have before : (analyze SyntaxTree.repeated Settings.standard).map (fun r =>
      (r.symbolOf ⟨7⟩, r.outlineText, r.diagnostics.toList.map Diagnostic.node)) =
      .ok (some ⟨1⟩,
        .ok "namespace global\n  variable x: int\n  class A\n    variable x: int\n", [⟨13⟩]) := rfl
  have after : ((Resolution.build SyntaxTree.repeated "global").toOption.bind fun built =>
      (built.resolve SyntaxTree.repeated .withLocals).toOption).map (fun r => r.symbolOf ⟨7⟩) =
      some (some ⟨2⟩) := rfl
  rw [analysed] at before
  rw [isBuilt] at after
  simp only [Except.map, Except.ok.injEq, Prod.mk.injEq] at before
  simp only [Except.toOption, Option.bind_some, resolved, Option.map_some, Option.some.injEq]
    at after
  have renamed : inOne.symbolOf ⟨7⟩ = (inPhases.symbolOf ⟨7⟩).map σ :=
    congrArg NodeFacts.symbol (facts ⟨7⟩)
  rw [before.1, after, Option.map_some, Option.some.injEq] at renamed
  exact ⟨built, inPhases, inOne, σ, isBuilt, analysed, resolved, renames, renamed.symm,
    before.2.1, shownInOne.trans shown.symm, reports, before.2.2⟩

end ScriptSemantics
