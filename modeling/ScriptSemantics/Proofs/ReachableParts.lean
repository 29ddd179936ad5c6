import Mathlib.Tactic.IntervalCases
import ScriptSemantics.Proofs.TwoPhases

/-!
# What the analysis does not look at

Two trees agree if the root and the size are the same and every node that the root reaches is the
same in both. Walks of the same listener, the passes and the search for regions read reachable nodes
only, so agreeing trees have one result. The other nodes of a tree stay unknown in it.
-/
namespace ScriptSemantics

namespace SyntaxTree

variable {ε σ : Type}

/-- The trees have the same root, the same number of nodes, and the same nodes below the root. -/
structure Agrees (first second : SyntaxTree) : Prop where
  root : first.root = second.root
  size : first.size = second.size
  node : ∀ id, first.Reachable id → first.node? id = second.node? id

namespace Agrees

variable {first second : SyntaxTree} (agrees : first.Agrees second)
include agrees

theorem reachable {id : NodeId} (reached : first.Reachable id) : second.Reachable id := by
  obtain ⟨distance, path⟩ := reached
  induction path with
  | refl => exact agrees.root ▸ .root
  | step path link ih =>
    obtain ⟨node, found, member⟩ := link
    exact ih.child ⟨node, (agrees.node _ ⟨_, path⟩).symm.trans found, member⟩

/-- A walk below a reachable node is the same in both trees if the listeners do the same at reachable
nodes. -/
theorem walkWithin_eq {listen other : Listener ε σ}
    (same : ∀ phase id node, first.Reachable id → first.node? id = some node →
      listen phase id node = other phase id node)
    (depth : Nat) {id : NodeId} (reached : first.Reachable id) (state : σ) :
    first.walkWithin listen depth id state = second.walkWithin other depth id state := by
  induction depth generalizing id state with
  | zero => rfl
  | succ depth ih =>
    have here : first.node id = second.node id := congrArg orDangling (agrees.node id reached)
    simp only [walkWithin, ← here]
    cases found : first.node? id with
    | none => simp [SyntaxTree.node, found]
    | some node =>
      have below (entered : σ) :
          node.children.foldlM (fun s child => first.walkWithin listen depth child s) entered =
            node.children.foldlM (fun s child => second.walkWithin other depth child s) entered :=
        foldlM_congr fun child member s => ih (reached.child ⟨node, found, member⟩) s
      simp only [SyntaxTree.node, found, orDangling_some, lift_ok, ok_bind, below,
        same _ id node reached found]

theorem walkFrom_eq {listen other : Listener ε σ}
    (same : ∀ phase id node, first.Reachable id → first.node? id = some node →
      listen phase id node = other phase id node)
    {id : NodeId} (reached : first.Reachable id) (state : σ) :
    first.walkFrom listen id state = second.walkFrom other id state := by
  unfold walkFrom
  rw [agrees.size]
  exact agrees.walkWithin_eq same _ reached state

theorem isRegion_eq {id child : NodeId} {node : Node} (reached : first.Reachable id)
    (found : first.node? id = some node) (member : child ∈ node.children) :
    first.isRegion node.production child = second.isRegion node.production child := by
  have here : first.node child = second.node child :=
    congrArg orDangling (agrees.node child (reached.child ⟨node, found, member⟩))
  cases node.production <;> simp only [isRegion, here]

theorem regionsWithin_eq (depth : Nat) {id : NodeId} (reached : first.Reachable id) :
    first.regionsWithin depth id = second.regionsWithin depth id := by
  induction depth generalizing id with
  | zero => rfl
  | succ depth ih =>
    have here : first.node id = second.node id := congrArg orDangling (agrees.node id reached)
    simp only [regionsWithin, ← here]
    cases found : first.node? id with
    | none => simp [SyntaxTree.node, found]
    | some node =>
      simp only [SyntaxTree.node, found, orDangling_some, ok_bind]
      congr 1
      refine mapM_congr fun child member => ?_
      rw [agrees.isRegion_eq reached found member, ih (reached.child ⟨node, found, member⟩)]

theorem localRegions_eq : first.localRegions = second.localRegions := by
  unfold localRegions
  rw [← agrees.root, ← agrees.size]
  exact agrees.regionsWithin_eq _ .root

end Agrees

end SyntaxTree

namespace SyntaxTree.Agrees

variable {first second : SyntaxTree} (agrees : first.Agrees second)
include agrees

theorem build_eq (name : String) : Resolution.build first name = Resolution.build second name := by
  have start : Resolution.new first name = Resolution.new second name := by
    simp only [Resolution.new, agrees.size]
  have walks (s : Registration) :
      first.walk Registration.listener s = second.walk Registration.listener s := by
    unfold walk
    rw [← agrees.root]
    exact agrees.walkFrom_eq (fun _ _ _ _ _ => rfl) .root s
  simp only [Resolution.build, start, walks]

/-- Of the tree, the pass reads at a node only its children. -/
theorem typing_eq (mode : Mode) (phase : Phase) {id : NodeId} {node : Node}
    (reached : first.Reachable id) (found : first.node? id = some node) :
    Resolution.typing mode first phase id node = Resolution.typing mode second phase id node := by
  obtain ⟨production, location⟩ := node
  cases phase with
  | enter => rfl
  | exit =>
    cases production with
    | variableDeclarators type declarators =>
      funext r
      have declared : declarators.foldlM (Resolution.typeDeclarator first (r.typeOf type)) r =
          declarators.foldlM (Resolution.typeDeclarator second (r.typeOf type)) r := by
        refine foldlM_congr fun declarator member s => ?_
        have link : first.HasChild id declarator := ⟨_, found, .tail _ member⟩
        have here : first.node declarator = second.node declarator :=
          congrArg orDangling (agrees.node _ (reached.child link))
        simp only [Resolution.typeDeclarator, here]
      simp only [Resolution.typing, Resolution.exitNode, Resolution.typeDeclarators, declared]
    | typeOrVoid type => cases type <;> rfl
    | _ => rfl

theorem resolveFrom_eq (r : Resolution) (mode : Mode) {id : NodeId} (reached : first.Reachable id) :
    r.resolveFrom first mode id = r.resolveFrom second mode id :=
  agrees.walkFrom_eq (fun phase _ _ reached found => agrees.typing_eq mode phase reached found)
    reached r

theorem resolveLocals_eq (formed : first.WellFormed) (r : Resolution) :
    r.resolveLocals first = r.resolveLocals second := by
  have regions : first.localRegions = .ok (first.regions first.root) := formed.localRegions_eq_ok
  unfold Resolution.resolveLocals
  rw [← agrees.localRegions_eq, regions]
  simp only [lift_ok, ok_bind]
  exact foldlM_congr fun region member s =>
    agrees.resolveFrom_eq s .withLocals (formed.regions_within .root member)

/-- Valid trees that agree have one analysis. -/
theorem analyze_eq (valid : first.validate = .ok ()) (validOther : second.validate = .ok ())
    (settings : Settings) : analyze first settings = analyze second settings := by
  have formed := validate_eq_ok_iff.mp valid
  have resolve (r : Resolution) : r.resolve first .membersOnly = r.resolve second .membersOnly := by
    rw [Resolution.resolve_eq_resolveFrom, Resolution.resolve_eq_resolveFrom, ← agrees.root]
    exact agrees.resolveFrom_eq r .membersOnly .root
  simp only [analyze, valid, validOther, agrees.build_eq, resolve, agrees.resolveLocals_eq formed]

end SyntaxTree.Agrees

/-- The analysis of a valid tree depends only on what its root reaches. Two valid trees that agree
have one result: one symbol table, one type table, the same facts about every node and the same
diagnostics, and so one outline. Nothing is known in it of the nodes that the root does not reach. -/
theorem analyze_reads_reachable {first second : SyntaxTree} (agrees : first.Agrees second)
    (valid : first.validate = .ok ()) (validOther : second.validate = .ok ())
    (settings : Settings) :
    ∃ r, analyze first settings = .ok r ∧ analyze second settings = .ok r ∧
      ∀ id, ¬ first.Reachable id ∨ ¬ second.Reachable id →
        r.factsOf id = .unknown ∧ ∀ diagnostic ∈ r.diagnostics, diagnostic.node ≠ id := by
  obtain ⟨b, r, -, prepared, analysed, follows⟩ :=
    exists_analysed (SyntaxTree.validate_eq_ok_iff.mp valid) settings
  refine ⟨r, analysed, (agrees.analyze_eq valid validOther settings) ▸ analysed, fun id away => ?_⟩
  have away : ¬ first.Reachable id := fun reached =>
    away.elim (· reached) (· (agrees.reachable reached))
  have untouched := View.analysed_untouched prepared away settings.enterLocalVariables
  have unbound := prepared.registered.unreached id away
  refine ⟨?_, fun diagnostic member => ?_⟩
  · by_cases here : id.index < first.size
    · rw [follows.rep.facts id here, unbound, untouched.untyped, untouched.unchecked,
        View.symbolOf, if_neg untouched.undeclared, Resolution.symbolOf, unbound]
      rfl
    · rw [follows.rep.factsOf_beyond here]
  · rw [← Array.mem_toList_iff, follows.rep.diagnostics] at member
    exact untouched.unreported diagnostic member

/-- The unit `class A { } A x;` with two nodes more, which it does not reach. -/
def SyntaxTree.besides (seventh eighth : Production) : SyntaxTree where
  nodes := #[
    ⟨.compilationUnit [⟨1⟩, ⟨6⟩], ⟨0, 16⟩⟩, ⟨.classDeclaration "A" none [], ⟨0, 11⟩⟩,
    ⟨.classReference "A", ⟨12, 13⟩⟩, ⟨.typeNode ⟨2⟩, ⟨12, 13⟩⟩,
    ⟨.variableDeclaratorId "x", ⟨14, 15⟩⟩, ⟨.variableDeclarator ⟨4⟩ none, ⟨14, 15⟩⟩,
    ⟨.variableDeclarators ⟨3⟩ [⟨5⟩], ⟨12, 16⟩⟩, ⟨seventh, ⟨0, 11⟩⟩, ⟨eighth, ⟨12, 16⟩⟩]
  root := ⟨0⟩

/-- The root reaches neither of the two nodes, so they may be any. -/
theorem SyntaxTree.besides_agrees (seventh eighth other another : Production) :
    (besides seventh eighth).Agrees (besides other another) := by
  have closed (i : Nat) (small : i < 7) :
      ∀ child ∈ ((besides seventh eighth).node? ⟨i⟩).elim [] Node.children, child.index < 7 := by
    interval_cases i <;> simp [besides, node?, Node.children, Production.children]
  have inside {id : NodeId} (reached : (besides seventh eighth).Reachable id) : id.index < 7 := by
    obtain ⟨distance, path⟩ := reached
    induction path with
    | refl => exact Nat.zero_lt_succ 6
    | step _ link ih =>
      obtain ⟨node, found, member⟩ := link
      exact closed _ ih _ (by rwa [found])
  refine ⟨rfl, rfl, fun id reached => ?_⟩
  have small := inside reached
  obtain ⟨i⟩ := id
  simp only at small
  interval_cases i <;> rfl

/-- Two classes in one another, of names that are in use, and two blocks in one another. -/
theorem analyze_reads_reachable_circular :
    ∃ r, analyze (.besides (.classDeclaration "A" none [⟨8⟩]) (.classDeclaration "x" none [⟨7⟩]))
        Settings.standard = .ok r ∧
      analyze (.besides (.block [⟨8⟩]) (.block [⟨7⟩])) Settings.standard = .ok r ∧
      r.typeOf ⟨3⟩ = some (.classType ⟨1⟩) ∧ r.factsOf ⟨7⟩ = .unknown := by
  have agrees := SyntaxTree.besides_agrees (.classDeclaration "A" none [⟨8⟩])
    (.classDeclaration "x" none [⟨7⟩]) (.block [⟨8⟩]) (.block [⟨7⟩])
  obtain ⟨r, analysed, same, -⟩ := analyze_reads_reachable agrees rfl rfl Settings.standard
  have facts : (fun r : Resolution => (r.typeOf ⟨3⟩, r.factsOf ⟨7⟩)) <$>
      analyze (.besides (.block [⟨8⟩]) (.block [⟨7⟩])) Settings.standard =
      .ok (some (.classType ⟨1⟩), .unknown) := rfl
  rw [same, map_ok, Except.ok.injEq, Prod.mk.injEq] at facts
  exact ⟨r, analysed, same, facts⟩

end ScriptSemantics
