import ScriptSemantics.Proofs.Following
import ScriptSemantics.Proofs.Regions
import ScriptSemantics.Proofs.Validity

/-!
# Analysis always ends in an answer

A tree that is not valid is refused with the rule that it breaks. A valid one is analysed to the end,
whatever its root is and whatever lies unreachable in its store: no pass fails, no number dangles and
no chain is endless.
-/
namespace ScriptSemantics

namespace View

/-- What the resolving passes of an analysis find out. -/
def analysed (tree : SyntaxTree) (b : Resolution) (locals : Bool) : View :=
  let members := (tree.events tree.root).foldl (View.advance tree b .membersOnly) (View.start b)
  if locals then
    ((tree.regions tree.root).flatMap tree.events).foldl (View.advance tree b .withLocals) members
  else members

end View

variable {tree : SyntaxTree}

/-- A well-formed tree is prepared by registration. -/
theorem exists_prepared (formed : tree.WellFormed) (name : String) :
    ∃ b, Resolution.build tree name = .ok b ∧ Prepared tree b := by
  obtain ⟨b, built, registered⟩ := exists_registered formed name
  exact ⟨b, built, formed, registered⟩

/-- The regions of a prepared tree are resolved with their locals whatever its root is. -/
theorem Prepared.resolveLocals {b r : Resolution} {v : View} (prepared : Prepared tree b)
    (follows : v.Follows tree b r) :
    ∃ after, r.resolveLocals tree = .ok after ∧
      (((tree.regions tree.root).flatMap tree.events).foldl (View.advance tree b .withLocals)
        v).Follows tree b after := by
  have regions : ∀ region ∈ tree.regions tree.root, tree.Reachable region := fun region member =>
    prepared.formed.regions_within .root member
  unfold Resolution.resolveLocals
  simp only [prepared.formed.localRegions_eq_ok, lift_ok, ok_bind]
  obtain ⟨root, found⟩ := prepared.formed.reachable_node .root
  by_cases parameter : root.kind = .formalParameter
  · rw [prepared.formed.regions_of_parameter found parameter]
    exact ⟨r, rfl, follows⟩
  · refine follows.resolveEach prepared (.inr fun node foundNode => ?_) _ regions
    obtain rfl : root = node := Option.some.inj (found.symm.trans foundNode)
    exact parameter

/-- The analysis of a valid tree gives a result, which its view represents. -/
theorem exists_analysed (formed : tree.WellFormed) (settings : Settings) :
    ∃ b r, Resolution.build tree settings.namespaceName = .ok b ∧ Prepared tree b ∧
      analyze tree settings = .ok r ∧
      (View.analysed tree b settings.enterLocalVariables).Follows tree b r := by
  obtain ⟨b, built, prepared⟩ := exists_prepared formed settings.namespaceName
  have start : (View.start b).Follows tree b b := ⟨.start prepared, .start prepared⟩
  obtain ⟨members, resolved, first⟩ :=
    start.resolveFrom prepared (show tree.Suits .membersOnly from .inl rfl) .root
  have valid := SyntaxTree.validate_eq_ok_iff.mpr formed
  cases locals : settings.enterLocalVariables with
  | false =>
    refine ⟨b, members, built, prepared, ?_, by simpa [View.analysed] using first⟩
    simp only [analyze, valid, built, lift_ok, ok_bind, Resolution.resolve_eq_resolveFrom, resolved,
      Step.result, ok_mapError, locals]
    rfl
  | true =>
    obtain ⟨after, regions, last⟩ := prepared.resolveLocals first
    refine ⟨b, after, built, prepared, ?_, by simpa [View.analysed] using last⟩
    simp only [analyze, valid, built, lift_ok, ok_bind, Resolution.resolve_eq_resolveFrom, resolved,
      Step.result, ok_mapError, locals, if_true, regions]

/-- A tree is analysed exactly when it is valid, and refused with the broken rule otherwise. -/
theorem analyze_outcome (tree : SyntaxTree) (settings : Settings) :
    match tree.validate with
    | .error error => analyze tree settings = .error (.failed (.malformed error))
    | .ok () => ∃ r, analyze tree settings = .ok r := by
  cases valid : tree.validate with
  | error error => simp [analyze, valid]
  | ok done =>
    obtain ⟨b, r, -, -, analysed, -⟩ :=
      exists_analysed (SyntaxTree.validate_eq_ok_iff.mp valid) settings
    exact ⟨r, analysed⟩

end ScriptSemantics
