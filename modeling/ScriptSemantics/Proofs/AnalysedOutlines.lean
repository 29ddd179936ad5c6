import ScriptSemantics.Proofs.Handles
import ScriptSemantics.Proofs.LexicalLookups
import ScriptSemantics.Proofs.OutlineShapes
import ScriptSemantics.Proofs.ShownTexts
import ScriptSemantics.Proofs.TableCalls

/-!
# The outline of an analysed tree

Registration opens one scope after another and adds each block at the end of the list of the scope
around it, so blocks are listed in the order in which they were made. What the passes add later are
variables, and so the table that they leave is arranged as that of registration, and its outline shows
all of it.
-/
namespace ScriptSemantics

namespace SymbolTable

variable {table base after : SymbolTable}

/-- Every scope lists its blocks in the order in which they were made. -/
def BlocksRise (table : SymbolTable) : Prop :=
  ∀ (i : Nat) (scope : Scope), table.scopes[i]? = some scope →
    scope.blocks.Pairwise fun first second => first.index < second.index

theorem BlocksRise.of_sameFrames (rise : base.BlocksRise) (same : table.SameFrames base) :
    table.BlocksRise := by
  intro i scope found
  obtain ⟨other, foundOther, -, -, blocks⟩ := same.exists_scope found
  exact blocks ▸ rise i other foundOther

theorem Opens.blocksRise {kind : ScopeKind} {enclosing : ScopeId}
    (opens : table.Opens kind enclosing after) (linked : table.Linked) (rise : table.BlocksRise) :
    after.BlocksRise := by
  intro i scope found
  obtain ⟨old, foundOld, -, -, blocks⟩ := opens.scope_cases found
  have olds : (old.blocks.Pairwise fun first second => first.index < second.index) ∧
      ∀ block ∈ old.blocks, block.index < table.scopes.size := by
    rw [pushScope_scopes] at foundOld
    split at foundOld
    next =>
      cases foundOld
      exact ⟨.nil, by simp⟩
    next =>
      refine ⟨rise i old foundOld, fun block member => ?_⟩
      obtain ⟨inner, foundInner, -⟩ := (linked.mem_blocks i old foundOld block).mp member
      exact (Array.getElem?_eq_some_iff.mp foundInner).1
  rw [blocks]
  split
  next => exact List.pairwise_append.mpr ⟨olds.1, List.pairwise_singleton _ _, by
    simpa [nextScope] using olds.2⟩
  next => simpa using olds.1

/-- No call puts a block in front of one that was made before. -/
theorem BlocksRise.change (rise : table.BlocksRise) (built : table.Built) {opened : Option ScopeId}
    (change : table.Change opened after) : after.BlocksRise := by
  cases change with
  | symbol scope name kind node location known =>
    exact rise.of_sameFrames (withSymbol_sameFrames _ _ _ _ _)
  | owner scopeKind symbolKind enclosing name node location known owner own sort =>
    exact (withOwner_opens name node location owner).blocksRise built.linked rise
  | block enclosing known => exact withBlock_opens.blocksRise built.linked rise
  | kind id change keeps => exact rise.of_sameFrames fun _ => rfl

/-- Scopes and symbols still belong to each other when variables were added and declarations
completed. -/
theorem Completes.owned (completes : table.Completes base) (owned : base.Owned) : table.Owned where
  owner i scope id found ofScope := by
    obtain ⟨old, foundOld, kind, around, -⟩ := completes.frames.exists_scope found
    obtain ⟨symbol, foundSymbol, isOwn, isAround, sort⟩ :=
      owned.owner i old id foundOld (kind ▸ ofScope)
    obtain ⟨completed, kept, sameOwn, sameSort⟩ := completes.kept _ symbol foundSymbol
    exact ⟨_, kept, sameOwn.trans isOwn, around ▸ isAround, kind ▸ sort.trans sameSort.symm⟩
  own i symbol own found isOwn := by
    rcases completes.symbol_cases found with ⟨-, isVariable⟩ | ⟨old, foundOld, -, sameOwn, -⟩
    · cases kind : symbol.kind <;> simp_all [SymbolKind.ownScope, SymbolKind.isVariable]
    · obtain ⟨scope, foundScope, owner⟩ := owned.own i old own foundOld (sameOwn ▸ isOwn)
      obtain ⟨other, foundOther, kind, -⟩ := completes.frames.symm.exists_scope foundScope
      exact ⟨other, foundOther, kind ▸ owner⟩

end SymbolTable

namespace Registration

variable {s after : Registration} {id : NodeId} {node : Node}

/-- Entering a node leaves the table alone or calls it once. -/
theorem enter_change (entered : s.enter id node = .ok after) :
    after.resolution.table = s.resolution.table ∨
      ∃ opened, s.resolution.table.Change opened after.resolution.table := by
  unfold Registration.enter at entered
  cases is : node.production with
  | classDeclaration name superclass body =>
    rw [is] at entered
    obtain ⟨⟨⟨symbol, own⟩, table⟩, declared, rest⟩ := bind_eq_ok_iff.mp entered
    obtain ⟨noted, updated, opened⟩ := bind_eq_ok_iff.mp rest
    have performed : s.resolution.table.perform (.declareClass s.current name id node.location) =
        .ok table := map_eq_ok_iff.mpr ⟨_, declared, rfl⟩
    rw [(openScope_keeps opened).1, (updateFacts_keeps updated).1]
    exact .inr ⟨_, SymbolTable.perform_change performed⟩
  | functionDeclaration name returnType parameters body =>
    rw [is] at entered
    obtain ⟨⟨⟨symbol, own⟩, table⟩, declared, rest⟩ := bind_eq_ok_iff.mp entered
    obtain ⟨noted, updated, opened⟩ := bind_eq_ok_iff.mp rest
    have performed : s.resolution.table.perform
        (.declareFunction s.current name id node.location) = .ok table :=
      map_eq_ok_iff.mpr ⟨_, declared, rfl⟩
    rw [(openScope_keeps opened).1, (updateFacts_keeps updated).1]
    exact .inr ⟨_, SymbolTable.perform_change performed⟩
  | block statements =>
    rw [is] at entered
    obtain ⟨⟨own, table⟩, pushed, opened⟩ := bind_eq_ok_iff.mp entered
    have performed : s.resolution.table.perform (.pushBlock s.current) = .ok table :=
      map_eq_ok_iff.mpr ⟨_, pushed, rfl⟩
    rw [(openScope_keeps opened).1]
    exact .inr ⟨_, SymbolTable.perform_change performed⟩
  | _ =>
    rw [is] at entered
    obtain ⟨bound, updated, done⟩ := bind_eq_ok_iff.mp entered
    cases done
    exact .inl (updateFacts_keeps updated).1

/-- Registration makes blocks in the order in which it lists them, on any tree. -/
theorem build_blocksRise {tree : SyntaxTree} {name : String} {b : Resolution}
    (built : Resolution.build tree name = .ok b) : b.table.BlocksRise := by
  obtain ⟨last, walked, done⟩ := bind_eq_ok_iff.mp built
  cases done
  rw [Halt.onlyFault, mapError_eq_ok_iff] at walked
  let kept (s : Registration) : Prop := s.resolution.table.Built ∧ s.resolution.table.BlocksRise
  have start : kept ⟨.new tree name, [SymbolTable.root]⟩ := by
    refine ⟨.new name, fun i scope found => ?_⟩
    obtain ⟨-, rfl⟩ := SymbolTable.new_scopes found
    exact .nil
  have left : Leaves kept (fun _ : Empty => True)
      (tree.walk Registration.listener ⟨.new tree name, [SymbolTable.root]⟩) := by
    refine .walk start fun phase id node s _ before => ?_
    cases phase with
    | enter =>
      refine .lift fun after entered => ?_
      rcases enter_change entered with same | ⟨opened, change⟩
      · exact ⟨same ▸ before.1, same ▸ before.2⟩
      · exact ⟨before.1.change change, before.2.change before.1 change⟩
    | exit =>
      simp only [Registration.listener, Registration.exit]
      split <;> exact before
  rw [walked] at left
  exact left.2

end Registration

/-- The table of a resolution that the pass comes to is arranged. -/
theorem View.Represents.arranged {tree : SyntaxTree} {b r : Resolution} {v : View}
    (prepared : Prepared tree b) (rep : v.Represents tree b r) : r.table.Arranged where
  ordered := rep.ordered
  nested := prepared.registered.nested.of_sameFrames rep.frames
  owned := rep.completes.owned prepared.registered.owned

/-- The outline of an analysed tree ends, and it shows every scope and every variable of the table
once: as many steps in as lead outward from it to the namespace, and within the lines of the scope
around it, where symbols come in the order of the scope and then the blocks in the order in which they
were made. Every line has a text, which says after two blanks for every step what the scope is or how
the variable is called and of what type it is, and the text of the outline is made of these. -/
theorem analyze_outlined {tree : SyntaxTree} (valid : tree.validate = .ok ())
    (settings : Settings) :
    ∃ r lines texts, analyze tree settings = .ok r ∧ r.outline = .ok lines ∧
      r.table.Outlined lines ∧ lines.mapM r.lineText = .ok texts ∧
      List.Forall₂ r.LineReads lines texts ∧ r.outlineText = .ok (String.join texts) := by
  obtain ⟨b, r, built, prepared, analysed, follows⟩ :=
    exists_analysed (SyntaxTree.validate_eq_ok_iff.mp valid) settings
  have rise := (Registration.build_blocksRise built).of_sameFrames follows.rep.frames
  obtain ⟨lines, isOutline, outlined⟩ := (follows.rep.arranged prepared).outlined
    fun id scope found => rise _ scope (orDangling_eq_ok_iff.mp found)
  obtain ⟨text, shown⟩ := follows.rep.outlineText_isOk prepared follows.grounded
  obtain ⟨others, isOther, rest⟩ := bind_eq_ok_iff.mp shown
  obtain ⟨texts, read, -⟩ := bind_eq_ok_iff.mp rest
  obtain rfl : lines = others := Except.ok.inj (isOutline.symm.trans isOther)
  refine ⟨r, lines, texts, analysed, isOutline, outlined, read,
    forall₂_of_mapM read fun _ _ _ => Resolution.lineText_reads, ?_⟩
  simp only [Resolution.outlineText, isOther, read, ok_bind]
  rfl

/-- The scope of the parameter and the block with the local are shown in that of the function, and
the inner class before the inner block, though it comes after it in the source. -/
theorem analyze_outlined_shadowed :
    ∃ r lines texts, analyze SyntaxTree.shadowed Settings.standard = .ok r ∧
      r.outline = .ok lines ∧ r.table.Outlined lines ∧ List.Forall₂ r.LineReads lines texts ∧
      r.outlineText = .ok (String.join texts) ∧
      lines = [⟨0, .scope ⟨0⟩⟩, ⟨1, .var ⟨4⟩⟩, ⟨1, .scope ⟨1⟩⟩, ⟨2, .var ⟨3⟩⟩, ⟨2, .scope ⟨2⟩⟩,
        ⟨3, .var ⟨5⟩⟩, ⟨3, .scope ⟨4⟩⟩, ⟨3, .scope ⟨3⟩⟩, ⟨1, .scope ⟨5⟩⟩] ∧
      texts = ["namespace global\n", "  variable x: int\n", "  function m(int)\n",
        "    variable x: int\n", "    block\n", "      variable x: int\n", "      class A\n",
        "      block\n", "  class A\n"] := by
  obtain ⟨r, lines, texts, analysed, isOutline, outlined, read, reads, shown⟩ :=
    @analyze_outlined SyntaxTree.shadowed rfl Settings.standard
  have facts : (analyze SyntaxTree.shadowed Settings.standard).map (fun r =>
        (r.outline, r.outline.bind fun lines => lines.mapM r.lineText)) =
      .ok (.ok [⟨0, .scope ⟨0⟩⟩, ⟨1, .var ⟨4⟩⟩, ⟨1, .scope ⟨1⟩⟩, ⟨2, .var ⟨3⟩⟩, ⟨2, .scope ⟨2⟩⟩,
        ⟨3, .var ⟨5⟩⟩, ⟨3, .scope ⟨4⟩⟩, ⟨3, .scope ⟨3⟩⟩, ⟨1, .scope ⟨5⟩⟩],
        .ok ["namespace global\n", "  variable x: int\n", "  function m(int)\n",
          "    variable x: int\n", "    block\n", "      variable x: int\n", "      class A\n",
          "      block\n", "  class A\n"]) := rfl
  rw [analysed] at facts
  simp only [Except.map, Except.ok.injEq, isOutline, Prod.mk.injEq, Except.bind, read] at facts
  exact ⟨r, lines, texts, analysed, isOutline, outlined, reads, shown, facts.1, facts.2⟩

end ScriptSemantics
