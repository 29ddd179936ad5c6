import Mathlib.Data.List.Flatten
import ScriptSemantics.Proofs.Additions
import ScriptSemantics.Proofs.ClassOutcomes
import ScriptSemantics.Proofs.SymbolNodes

/-!
# What the regions of a tree cover

The regions stand in the order in which the walk over the whole tree enters them, and no node lies
in two of them, so the walks over them come to no node twice. Below a unit each local lies in one of
them, and it is the walk over that region that declares it.
-/
namespace ScriptSemantics

namespace SyntaxTree

/-- Nodes stand in the order in which the walk from the root enters them, each of them once, and
none of them lies within another. -/
structure ListsApart (tree : SyntaxTree) (ids : List NodeId) : Prop where
  inOrder : ids.Sublist (visits .enter (tree.events tree.root) fun _ => true)
  nodup : ids.Nodup
  apart : ∀ first ∈ ids, ∀ second ∈ ids, tree.Within first second → first = second

namespace WellFormed

variable {tree : SyntaxTree} (formed : tree.WellFormed) {top : NodeId}
include formed

/-- The walk enters a node before its children, and these in source order. -/
theorem visits_events {node : Node} (reached : tree.Reachable top)
    (found : tree.node? top = some node) :
    visits .enter (tree.events top) (fun _ => true) =
      top :: node.children.flatMap fun child => visits .enter (tree.events child) fun _ => true := by
  rw [formed.events_eq reached found]
  simp [visits, List.filter_flatMap, List.map_flatMap]

/-- The regions below a node stand in the order in which the walk from the node enters them. -/
theorem regions_sublist (reached : tree.Reachable top) :
    (tree.regions top).Sublist (visits .enter (tree.events top) fun _ => true) := by
  refine formed.reachable_induction (motive := fun top =>
    (tree.regions top).Sublist (visits .enter (tree.events top) fun _ => true)) ?_ reached
  intro top node reached found ih
  rw [formed.regions_eq reached found, formed.visits_events reached found]
  apply List.Sublist.cons
  apply List.Sublist.flatMap_right
  intro child member
  split
  next =>
    have reachedChild : tree.Reachable child := reached.child ⟨node, found, member⟩
    apply List.singleton_sublist.mpr
    exact mem_visits.mpr ⟨(formed.mem_events reachedChild).mpr (.refl child), rfl⟩
  next => exact ih child member

theorem regions_listsApart : tree.ListsApart (tree.regions tree.root) where
  inOrder := formed.regions_sublist .root
  nodup := (formed.regions_sublist .root).nodup (visits_nodup (formed.events_nodup .root) _)
  apart _ inFirst second inSecond below :=
    formed.regions_disjoint .root inFirst inSecond below (.refl second)

theorem regions_events_nodup (reached : tree.Reachable top) :
    ((tree.regions top).flatMap tree.events).Nodup := by
  rw [formed.flatMap_regions reached]
  exact (formed.events_nodup reached).filter _

/-- Resolving the locals hands the events of each region to the pass, one region after another. -/
theorem resolveLocals_eq_foldlM (r : Resolution) : r.resolveLocals tree =
    ((tree.regions tree.root).flatMap tree.events).foldlM
      (tree.heed (Resolution.typing .withLocals tree)) r := by
  rw [foldlM_flatMap, Resolution.resolveLocals, formed.localRegions_eq_ok, lift_ok, ok_bind]
  apply foldlM_congr
  intro region member s
  exact formed.walkFrom_eq_foldlM _ (formed.regions_within .root member) s

end WellFormed

end SyntaxTree

/-- The first declarator id of its name in a scope has a variable of the scope and is not reported.
Any other has no symbol and is reported once, as a duplicate. -/
def Resolution.DeclaresOrReports (r : Resolution) (tree : SyntaxTree) (scope : ScopeId)
    (id : NodeId) : Prop :=
  if (r.declarators tree scope (tree.nameAt id)).head? = some id then
    ∃ symbol type, r.symbolOf id = some symbol ∧
      r.table.symbols[symbol.index]? =
        some ⟨symbol, tree.nameAt id, .var type, scope, id, tree.locationAt id⟩ ∧
      r.codesAt id = []
  else r.symbolOf id = none ∧ r.codesAt id = [.duplicateDeclaration]

section Locals

variable {tree : SyntaxTree} {b r : Resolution} {v : View} {root : Node} {id : NodeId}
  (prepared : Prepared tree b) (reached : tree.Reachable id)
  (isDeclarator : tree.isDeclaratorId id = true)
include prepared reached isDeclarator

/-- Below a unit a declarator id that is no member lies in exactly one region. -/
theorem Prepared.existsUnique_region (found : tree.node? tree.root = some root)
    (unit : root.kind = .compilationUnit) (outside : b.isMember id = false) :
    ∃! region, region ∈ tree.regions tree.root ∧ tree.Within region id := by
  obtain ⟨node, foundNode, kind⟩ := SyntaxTree.isDeclaratorId_iff.mp isDeclarator
  have isLocal : b.isLocal tree id = true := by
    rw [Resolution.isLocal_eq foundNode (.inl kind), outside]
    rfl
  obtain ⟨region, listed, holds⟩ := View.region_of_local prepared found unit reached isLocal
  refine ⟨region, ⟨listed, holds⟩, ?_⟩
  rintro other ⟨listedToo, holdsToo⟩
  exact prepared.formed.regions_disjoint .root listedToo listed holdsToo holds

/-- An analysis comes to such a declarator id only through the region that holds it. -/
theorem Prepared.isEntered_eq (found : tree.node? tree.root = some root)
    (unit : root.kind = .compilationUnit) (outside : b.isMember id = false) (locals : Bool) :
    b.isEntered tree locals id = locals := by
  have unique := prepared.existsUnique_region reached isDeclarator found unit outside
  have holds := (prepared.formed.holdsInRegion_iff .root).mpr unique.exists
  rw [Resolution.isEntered, outside, holds, Bool.false_or, Bool.and_true]

omit reached isDeclarator in
theorem Prepared.entered_named (found : tree.node? tree.root = some root)
    (unit : root.kind = .compilationUnit) (outside : b.isMember id = false) :
    ((tree.declaratorIds (tree.events tree.root)).filter (b.isEntered tree true)).filter
        (b.isNamed tree (b.scopeAt id) (tree.nameAt id)) =
      (tree.declaratorIds (tree.events tree.root)).filter
        (b.isNamed tree (b.scopeAt id) (tree.nameAt id)) := by
  rw [List.filter_comm, List.filter_eq_self]
  intro other member
  obtain ⟨listed, named⟩ := List.mem_filter.mp member
  obtain ⟨reachedOther, isOther⟩ := prepared.formed.mem_declaratorIds.mp listed
  have same : b.scopeAt other = b.scopeAt id := by
    simp only [Resolution.isNamed, Bool.and_eq_true, decide_eq_true_eq] at named
    exact named.1
  have outsideToo : b.isMember other = false := by rwa [Resolution.isMember, same]
  exact prepared.isEntered_eq reachedOther isOther found unit outsideToo true

variable (follows : v.Follows tree b r) {entered : List NodeId}
  (declaring : v.Declaring tree b entered)
include follows declaring

/-- A declarator id is declared or reported if all of its name in its scope were entered. -/
theorem declaresOrReports_of_entered (member : id ∈ entered)
    (whole : entered.filter (b.isNamed tree (b.scopeAt id) (tree.nameAt id)) =
      (tree.declaratorIds (tree.events tree.root)).filter
        (b.isNamed tree (b.scopeAt id) (tree.nameAt id))) :
    r.DeclaresOrReports tree (b.scopeAt id) id := by
  have first : id ∈ v.declared ↔
      (r.declarators tree (b.scopeAt id) (tree.nameAt id)).head? = some id := by
    rw [declaring.mem_declared_iff, whole, declarators_eq prepared follows]
  have reported := declaring.reported id isDeclarator
  rw [← follows.rep.diagnostics] at reported
  have symbol := symbolOf_declarator prepared follows reached isDeclarator
  rw [Resolution.DeclaresOrReports]
  split
  next isFirst =>
    have declared := first.mpr isFirst
    rw [if_pos declared] at symbol
    rw [if_neg fun both => both.2 declared] at reported
    exact ⟨_, _, symbol, follows.rep.variable_symbol declared, reported⟩
  next notFirst =>
    have undeclared : id ∉ v.declared := fun declared => notFirst (first.mp declared)
    rw [if_neg undeclared] at symbol
    rw [if_pos ⟨member, undeclared⟩] at reported
    exact ⟨symbol, reported⟩

/-- Of a declarator id that was not entered nothing is known. -/
theorem untouched_of_not_entered (away : id ∉ entered) :
    r.symbolOf id = none ∧ r.codesAt id = [] := by
  have reported := declaring.reported id isDeclarator
  rw [← follows.rep.diagnostics, if_neg fun both => away both.1] at reported
  have symbol := symbolOf_declarator prepared follows reached isDeclarator
  rw [if_neg fun declared => away (declaring.inside id declared)] at symbol
  exact ⟨symbol, reported⟩

end Locals

/-- The regions of a valid tree stand in the order of the walk, each of them once and none within
another. Resolving the locals hands the events of the regions to the pass, and no event twice. In a
unit every declarator id bound to the namespace or to a block lies in exactly one region. If the
locals are resolved, the first of its name in its scope is declared and the others are reported, and
otherwise nothing is known of it. -/
theorem regions_cover_locals {tree : SyntaxTree} (valid : tree.validate = .ok ()) :
    ∃ regions, tree.localRegions = .ok regions ∧ tree.ListsApart regions ∧
      (∀ r : Resolution, r.resolveLocals tree = (regions.flatMap tree.events).foldlM
        (tree.heed (Resolution.typing .withLocals tree)) r) ∧
      (regions.flatMap tree.events).Nodup ∧
      ∀ root, tree.node? tree.root = some root → root.kind = .compilationUnit →
        ∀ settings : Settings, ∃ r, analyze tree settings = .ok r ∧
          ∀ id scope, tree.Reachable id → tree.isDeclaratorId id = true →
            r.scopeOf id = .ok scope → r.HoldsLocals scope →
            (∃! region, region ∈ regions ∧ tree.Within region id) ∧
              if settings.enterLocalVariables then r.DeclaresOrReports tree scope id
              else r.symbolOf id = none ∧ r.codesAt id = [] := by
  have formed := SyntaxTree.validate_eq_ok_iff.mp valid
  refine ⟨tree.regions tree.root, formed.localRegions_eq_ok, formed.regions_listsApart,
    formed.resolveLocals_eq_foldlM, formed.regions_events_nodup .root, ?_⟩
  intro root found unit settings
  obtain ⟨b, r, -, prepared, analysed, follows⟩ := exists_analysed formed settings
  refine ⟨r, analysed, ?_⟩
  intro id scope reached isDeclarator bound holdsLocals
  obtain rfl : b.scopeAt id = scope :=
    Except.ok.inj ((follows.rep.scopeOf_eq_ok prepared reached).symm.trans bound)
  have outside := (follows.rep.holdsLocals_iff prepared reached).mp holdsLocals
  have unique := prepared.existsUnique_region reached isDeclarator found unit outside
  refine ⟨unique, ?_⟩
  have declaring := View.analysed_declaring prepared settings.enterLocalVariables
  have comes := prepared.isEntered_eq reached isDeclarator found unit outside
    settings.enterLocalVariables
  have listed := formed.mem_declaratorIds.mpr ⟨reached, isDeclarator⟩
  split
  next locals =>
    apply declaresOrReports_of_entered prepared reached isDeclarator follows declaring
    · exact List.mem_filter.mpr ⟨listed, comes.trans locals⟩
    · rw [locals]
      exact prepared.entered_named found unit outside
  next without =>
    apply untouched_of_not_entered prepared reached isDeclarator follows declaring
    intro member
    exact without (comes.symm.trans (List.mem_filter.mp member).2)

/-- The unit `f() { class L { g() { int x; } } } int x; class A { m() { int x, x; } }`. -/
def SyntaxTree.nestedBodies : SyntaxTree where
  nodes := #[
    ⟨.compilationUnit [⟨1⟩, ⟨11⟩, ⟨16⟩], ⟨0, 71⟩⟩, ⟨.functionDeclaration "f" none [] ⟨2⟩, ⟨0, 34⟩⟩,
    ⟨.block [⟨3⟩], ⟨4, 34⟩⟩, ⟨.classDeclaration "L" none [⟨4⟩], ⟨6, 32⟩⟩,
    ⟨.functionDeclaration "g" none [] ⟨5⟩, ⟨16, 30⟩⟩, ⟨.block [⟨6⟩], ⟨20, 30⟩⟩,
    ⟨.variableDeclarators ⟨7⟩ [⟨9⟩], ⟨22, 28⟩⟩, ⟨.typeNode ⟨8⟩, ⟨22, 25⟩⟩,
    ⟨.primitiveType .int, ⟨22, 25⟩⟩, ⟨.variableDeclarator ⟨10⟩ none, ⟨26, 27⟩⟩,
    ⟨.variableDeclaratorId "x", ⟨26, 27⟩⟩, ⟨.variableDeclarators ⟨12⟩ [⟨14⟩], ⟨35, 41⟩⟩,
    ⟨.typeNode ⟨13⟩, ⟨35, 38⟩⟩, ⟨.primitiveType .int, ⟨35, 38⟩⟩,
    ⟨.variableDeclarator ⟨15⟩ none, ⟨39, 40⟩⟩, ⟨.variableDeclaratorId "x", ⟨39, 40⟩⟩,
    ⟨.classDeclaration "A" none [⟨17⟩], ⟨42, 71⟩⟩,
    ⟨.functionDeclaration "m" none [] ⟨18⟩, ⟨52, 69⟩⟩, ⟨.block [⟨19⟩], ⟨56, 69⟩⟩,
    ⟨.variableDeclarators ⟨20⟩ [⟨22⟩, ⟨24⟩], ⟨58, 67⟩⟩,
    ⟨.typeNode ⟨21⟩, ⟨58, 61⟩⟩, ⟨.primitiveType .int, ⟨58, 61⟩⟩,
    ⟨.variableDeclarator ⟨23⟩ none, ⟨62, 63⟩⟩, ⟨.variableDeclaratorId "x", ⟨62, 63⟩⟩,
    ⟨.variableDeclarator ⟨25⟩ none, ⟨65, 66⟩⟩, ⟨.variableDeclaratorId "x", ⟨65, 66⟩⟩]
  root := ⟨0⟩

/-- The body of the inner method is no region of its own, and its variable lies in the outer
body. -/
theorem regions_cover_locals_nested :
    SyntaxTree.nestedBodies.localRegions = .ok [⟨2⟩, ⟨11⟩, ⟨18⟩] ∧
      SyntaxTree.nestedBodies.ListsApart [⟨2⟩, ⟨11⟩, ⟨18⟩] ∧
      ∃ r, analyze SyntaxTree.nestedBodies Settings.standard = .ok r ∧
        (∃! region, region ∈ [⟨2⟩, ⟨11⟩, ⟨18⟩] ∧ SyntaxTree.nestedBodies.Within region ⟨10⟩) ∧
        r.DeclaresOrReports SyntaxTree.nestedBodies ⟨5⟩ ⟨10⟩ := by
  have valid : SyntaxTree.nestedBodies.validate = .ok () := rfl
  have listed : SyntaxTree.nestedBodies.localRegions = .ok [⟨2⟩, ⟨11⟩, ⟨18⟩] := rfl
  obtain ⟨regions, isList, apart, -, -, covered⟩ := regions_cover_locals valid
  obtain rfl := Except.ok.inj (listed.symm.trans isList)
  obtain ⟨r, analysed, each⟩ := covered _ rfl rfl Settings.standard
  have facts : (analyze SyntaxTree.nestedBodies Settings.standard).map (fun r =>
      (r.scopeOf ⟨10⟩, (r.table.scope ⟨5⟩).map Scope.kind)) = .ok (.ok ⟨5⟩, .ok .blockScope) := rfl
  rw [analysed] at facts
  simp only [Except.map, Except.ok.injEq, Prod.mk.injEq] at facts
  obtain ⟨bound, kind⟩ := facts
  have holdsLocals : r.HoldsLocals ⟨5⟩ := by
    cases read : r.table.scope ⟨5⟩ with
    | error => simp [read] at kind
    | ok scope => exact ⟨scope, read, .inr (by simpa [read] using kind)⟩
  have enters : ⟨.enter, ⟨10⟩⟩ ∈ SyntaxTree.nestedBodies.events SyntaxTree.nestedBodies.root := by
    decide
  have reached : SyntaxTree.nestedBodies.Reachable ⟨10⟩ :=
    ((SyntaxTree.validate_eq_ok_iff.mp valid).mem_events .root).mp enters
  exact ⟨listed, apart, r, analysed, each ⟨10⟩ ⟨5⟩ reached rfl bound holdsLocals⟩

end ScriptSemantics
