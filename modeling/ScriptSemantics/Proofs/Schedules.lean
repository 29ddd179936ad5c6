import ScriptSemantics.Proofs.Declarations
import ScriptSemantics.Proofs.Nesting

/-!
# Schedules of the regions

The regions of a unit can be walked in other orders than that of the source, and more than once. Two
of them hold variables of one scope only if both are declaration statements that stand directly in the
unit. So as long as these are first walked in their order, the walks come to the same first variable
of each name in each scope.
-/
namespace ScriptSemantics

namespace SyntaxTree

def isDeclaration (tree : SyntaxTree) (id : NodeId) : Bool :=
  (tree.node? id).any fun node => node.kind == .variableDeclarators

/-- Walks over the regions of a tree in any order and with any repetitions, of which none is left out.
The declaration statements that stand directly in the unit are first walked in source order. -/
structure Schedule (tree : SyntaxTree) (walks : List NodeId) : Prop where
  regions : ∃ regions, tree.localRegions = .ok regions ∧ ∀ id, id ∈ walks ↔ id ∈ regions
  inOrder : ∀ root, tree.node? tree.root = some root →
    (root.children.filter tree.isDeclaration).Pairwise fun earlier later =>
      walks.idxOf earlier < walks.idxOf later

variable {tree : SyntaxTree}

namespace WellFormed

variable (formed : tree.WellFormed)
include formed

theorem body_isBlock {id body : NodeId} {node : Node} {name : String} {returnType : Option NodeId}
    {parameters : List NodeId} (found : tree.node? id = some node)
    (is : node.production = .functionDeclaration name returnType parameters body) :
    ∃ below, tree.node? body = some below ∧ below.kind = .block := by
  have different : returnType ≠ some body := by
    rintro rfl
    have once := formed.children_nodup found
    simp [Node.children, is, Production.children] at once
  obtain ⟨below, foundBelow, admitted⟩ := formed.child_of_slot found body
    (by simp [is, Production.children]) (by simp [is, Production.slotOf?, different]; rfl)
  exact ⟨below, foundBelow, by simpa [Slot.admits] using admitted⟩

theorem region_kind {id child : NodeId} {node : Node} (found : tree.node? id = some node)
    (isRegion : tree.regionAt node.production child = true) :
    ∃ below, tree.node? child = some below ∧
      (node.kind = .compilationUnit ∧ below.kind.isStatement = true ∨ below.kind = .block) := by
  obtain ⟨production, location⟩ := node
  cases production with
  | compilationUnit items =>
    simp only [regionAt, Option.any_eq_true] at isRegion
    obtain ⟨below, foundBelow, isStatement⟩ := isRegion
    exact ⟨below, foundBelow, .inl ⟨rfl, isStatement⟩⟩
  | functionDeclaration name returnType parameters body =>
    obtain rfl : body = child := by simpa [regionAt] using isRegion
    obtain ⟨below, foundBelow, kind⟩ := formed.body_isBlock found rfl
    exact ⟨below, foundBelow, .inr kind⟩
  | _ => cases isRegion

theorem region_isBlock {id region : NodeId} (reached : tree.Reachable id) (inner : id ≠ tree.root)
    (member : region ∈ tree.regions id) :
    ∃ below, tree.node? region = some below ∧ below.kind = .block := by
  refine formed.reachable_induction (motive := fun id => id ≠ tree.root →
    region ∈ tree.regions id → ∃ below, tree.node? region = some below ∧ below.kind = .block)
    ?_ reached inner member
  intro id node reached found ih inner member
  rw [formed.regions_eq reached found, List.mem_flatMap] at member
  obtain ⟨child, listed, member⟩ := member
  split at member
  next isRegion =>
    obtain rfl := List.mem_singleton.mp member
    obtain ⟨below, foundBelow, ⟨unit, -⟩ | kind⟩ := formed.region_kind found isRegion
    · exact (inner (formed.unit_is_root reached found unit)).elim
    · exact ⟨below, foundBelow, kind⟩
  next =>
    refine ih child listed ?_ member
    rintro rfl
    exact formed.not_hasChild_root id ⟨node, found, listed⟩

/-- The declaration statements among the regions are those that stand directly in the unit. -/
theorem regions_filter_isDeclaration {root : Node} (found : tree.node? tree.root = some root)
    (unit : root.kind = .compilationUnit) :
    (tree.regions tree.root).filter tree.isDeclaration =
      root.children.filter tree.isDeclaration := by
  rw [formed.regions_eq .root found, ← List.flatMap_singleton' root.children, List.flatMap_assoc,
    List.filter_flatMap, List.filter_flatMap]
  refine List.flatMap_congr fun child member => ?_
  rw [List.flatMap_singleton]
  split
  · rfl
  next noRegion =>
    have link : tree.HasChild tree.root child := ⟨root, found, member⟩
    have noDeclaration : tree.isDeclaration child = false := by
      obtain ⟨production, location⟩ := root
      cases production <;> cases unit
      simp only [regionAt, Option.any_eq_true, not_exists, not_and] at noRegion
      simp only [isDeclaration, Option.any_eq_false]
      intro node foundNode
      exact beq_eq_false_iff_ne.mpr fun kind => noRegion node foundNode (by rw [kind]; rfl)
    have inner : child ≠ tree.root := by
      rintro rfl
      exact formed.not_hasChild_root _ link
    have blocks : (tree.regions child).filter tree.isDeclaration = [] := by
      rw [List.filter_eq_nil_iff]
      intro region inRegions
      obtain ⟨below, foundBelow, kind⟩ :=
        formed.region_isBlock (Reachable.root.child link) inner inRegions
      simp [isDeclaration, foundBelow, kind]
    simp [blocks, noDeclaration]

theorem regions_disjoint {id first second inner : NodeId} (reached : tree.Reachable id)
    (inFirst : first ∈ tree.regions id) (inSecond : second ∈ tree.regions id)
    (left : tree.Within first inner) (right : tree.Within second inner) : first = second := by
  refine formed.reachable_induction (motive := fun id => first ∈ tree.regions id →
    second ∈ tree.regions id → first = second) ?_ reached inFirst inSecond
  intro id node reached found ih inFirst inSecond
  rw [formed.regions_eq reached found, List.mem_flatMap] at inFirst inSecond
  obtain ⟨child, listed, inFirst⟩ := inFirst
  obtain ⟨child', listed', inSecond⟩ := inSecond
  have link {other : NodeId} (member : other ∈ node.children) : tree.HasChild id other :=
    ⟨node, found, member⟩
  have through {other region : NodeId} (member : other ∈ node.children)
      (inRegion : region ∈ if tree.regionAt node.production other then [other]
        else tree.regions other) : tree.Within other region := by
    split at inRegion
    · exact List.mem_singleton.mp inRegion ▸ .refl _
    · exact formed.regions_within (reached.child (link member)) inRegion
  obtain rfl : child = child' := formed.siblings_disjoint reached (link listed) (link listed')
    ((through listed inFirst).trans left) ((through listed' inSecond).trans right)
  split at inFirst
  next isRegion =>
    rw [if_pos isRegion] at inSecond
    rw [List.mem_singleton.mp inFirst, List.mem_singleton.mp inSecond]
  next noRegion =>
    rw [if_neg noRegion] at inSecond
    exact ih child listed inFirst inSecond

theorem not_within_expressionStatement {id declarator : NodeId} {node : Node}
    (found : tree.node? id = some node) (kind : node.kind = .expressionStatement)
    (isDeclarator : tree.isDeclaratorId declarator = true) : ¬ tree.Within id declarator := by
  intro inside
  obtain ⟨last, foundLast, isLast⟩ := isDeclaratorId_iff.mp isDeclarator
  rcases within_iff.mp inside with rfl | ⟨child, ⟨other, foundOther, member⟩, below⟩
  · obtain rfl : node = last := Option.some.inj (found.symm.trans foundLast)
    simp [kind] at isLast
  · obtain rfl : node = other := Option.some.inj (found.symm.trans foundOther)
    obtain ⟨middle, foundMiddle⟩ := formed.child_node ⟨node, found, member⟩
    obtain ⟨slot, isSlot, admits⟩ := formed.child_slot found member foundMiddle
    have isExpression : middle.kind.isExpression = true := by
      obtain ⟨production, location⟩ := node
      cases production <;> cases kind
      cases isSlot
      exact admits
    obtain ⟨production, location⟩ := middle
    rcases within_iff.mp below with rfl | ⟨_, ⟨other, foundOther, member⟩, -⟩
    · obtain rfl := Option.some.inj (foundMiddle.symm.trans foundLast)
      rw [isLast] at isExpression
      cases isExpression
    · obtain rfl := Option.some.inj (foundMiddle.symm.trans foundOther)
      have leaf : (⟨production, location⟩ : Node).children = [] := by
        cases production <;> first | rfl | cases isExpression
      simp [leaf] at member

end WellFormed

/-- A region of a unit is a statement that stands directly in it, or a block. -/
theorem WellFormed.region_of_unit (formed : tree.WellFormed) {root : Node} {region : NodeId}
    (found : tree.node? tree.root = some root) (member : region ∈ tree.regions tree.root) :
    ∃ node, tree.node? region = some node ∧ node.kind.isStatement = true := by
  rw [formed.regions_eq .root found, List.mem_flatMap] at member
  obtain ⟨child, listed, member⟩ := member
  have link : tree.HasChild tree.root child := ⟨root, found, listed⟩
  split at member
  next isRegion =>
    obtain rfl := List.mem_singleton.mp member
    obtain ⟨below, foundBelow, ⟨-, isStatement⟩ | kind⟩ := formed.region_kind found isRegion
    · exact ⟨below, foundBelow, isStatement⟩
    · exact ⟨below, foundBelow, by rw [kind]; rfl⟩
  next =>
    have inner : child ≠ tree.root := by
      rintro rfl
      exact formed.not_hasChild_root _ link
    obtain ⟨below, foundBelow, kind⟩ :=
      formed.region_isBlock (Reachable.root.child link) inner member
    exact ⟨below, foundBelow, by rw [kind]; rfl⟩

end SyntaxTree

section Shared

variable {tree : SyntaxTree} {b : Resolution} {name : String} (prepared : Prepared tree b)
  (built : Resolution.build tree name = .ok b)
include prepared

theorem Prepared.surrounds_declarator {id : NodeId} (reached : tree.Reachable id)
    (isDeclarator : tree.isDeclaratorId id = true) : b.Surrounds tree (b.scopeAt id) id := by
  obtain ⟨node, found, kind⟩ := SyntaxTree.isDeclaratorId_iff.mp isDeclarator
  obtain ⟨outer, bound, surrounds⟩ :=
    prepared.registered.exists_surrounds prepared.formed reached found
  have plain : node.kind.introducesScope = false := by rw [kind]; rfl
  have scope : b.scopeAt id = outer := by simp [Resolution.scopeAt, bound.plain plain]
  rwa [scope]

include built

/-- A block keeps its variables to itself, so a region that shares a scope with another is a
declaration statement. -/
theorem Prepared.isDeclaration_of_shared {root : Node} (foundRoot : tree.node? tree.root = some root)
    {region other first second : NodeId} (inRegions : region ∈ tree.regions tree.root)
    (otherInRegions : other ∈ tree.regions tree.root) (differ : region ≠ other)
    (isFirst : tree.isDeclaratorId first = true) (isSecond : tree.isDeclaratorId second = true)
    (left : tree.Within region first) (right : tree.Within other second)
    (shared : b.scopeAt first = b.scopeAt second) : tree.isDeclaration region = true := by
  have formed := prepared.formed
  have reached : tree.Reachable region := formed.regions_within .root inRegions
  have reachedFirst := reached.within left
  have reachedSecond : tree.Reachable second :=
    (show tree.Reachable other from formed.regions_within .root otherInRegions).within right
  have beside : tree.Beside first second :=
    (prepared.surrounds_declarator reachedFirst isFirst).beside formed built reachedFirst
      reachedSecond (shared ▸ prepared.surrounds_declarator reachedSecond isSecond)
  obtain ⟨node, found, isStatement⟩ := formed.region_of_unit foundRoot inRegions
  cases kind : node.kind with
  | variableDeclarators => simp [SyntaxTree.isDeclaration, found, kind]
  | expressionStatement =>
    exact (formed.not_within_expressionStatement found kind isFirst left).elim
  | block =>
    exfalso
    have encloses : tree.Encloses region first := by
      refine ⟨left, ?_, by simp [tree.introduces_eq found, kind, NodeKind.introducesScope]⟩
      rintro rfl
      simp [SyntaxTree.isDeclaratorId, found, kind] at isFirst
    rcases prepared.surrounds_declarator reachedFirst isFirst with
      ⟨outer, innermost, -⟩ | ⟨free, -⟩
    · -- The nearest scope around both variables lies within the block, so the second one does.
      have around := (beside outer).mp innermost
      exact differ (formed.regions_disjoint .root inRegions otherInRegions
        ((innermost.nearest region encloses).trans around.encloses.within) right)
    · exact free region encloses
  | _ => rw [kind] at isStatement; cases isStatement

end Shared

/-- The first of some elements with a property comes before all others with it. -/
theorem idxOf_le_of_find? {ids : List NodeId} {p : NodeId → Bool} {first other : NodeId}
    (found : ids.find? p = some first) (holds : p other = true) :
    ids.idxOf first ≤ ids.idxOf other := by
  obtain ⟨isFirst, before, after, rfl, none⟩ := List.find?_eq_some_iff_append.mp found
  have absent {id : NodeId} (holds : p id = true) : id ∉ before := fun member => by
    simpa [holds] using none id member
  rw [List.idxOf_append_of_notMem (absent isFirst), List.idxOf_append_of_notMem (absent holds),
    List.idxOf_cons_self]
  omega

/-- What is found first is found at the first element at which there is anything to find. -/
theorem findSome?_eq_bind_find? {α : Type} (find : NodeId → Option α) (ids : List NodeId) :
    ids.findSome? find = (ids.find? fun id => (find id).isSome).bind find := by
  induction ids with
  | nil => rfl
  | cons id ids ih =>
    rw [List.findSome?_cons, List.find?_cons]
    cases here : find id with
    | none => exact ih
    | some a => simp [here]

namespace SyntaxTree.Schedule

variable {tree : SyntaxTree} {walks : List NodeId} (schedule : tree.Schedule walks)
  (formed : tree.WellFormed)
include schedule formed

theorem mem_iff {id : NodeId} : id ∈ walks ↔ id ∈ tree.regions tree.root := by
  obtain ⟨regions, listed, same⟩ := schedule.regions
  rw [formed.localRegions_eq_ok, Except.ok.injEq] at listed
  rw [same, listed]

theorem reachable {id : NodeId} (member : id ∈ walks) : tree.Reachable id :=
  formed.regions_within .root ((schedule.mem_iff formed).mp member)

variable {root : Node} (found : tree.node? tree.root = some root)
  (unit : root.kind = .compilationUnit)
include found unit

/-- Of the regions with a property the walks come first to the one that stands first, if only
declaration statements share the property. -/
theorem find?_eq {p : NodeId → Bool}
    (shared : ∀ first ∈ tree.regions tree.root, ∀ second ∈ tree.regions tree.root, first ≠ second →
      p first = true → p second = true → tree.isDeclaration first = true) :
    walks.find? p = (tree.regions tree.root).find? p := by
  cases first : (tree.regions tree.root).find? p with
  | none =>
    rw [List.find?_eq_none] at first ⊢
    exact fun id member => first id ((schedule.mem_iff formed).mp member)
  | some region =>
    have holds := List.find?_some first
    have inRegions := List.mem_of_find?_eq_some first
    obtain ⟨other, walked⟩ : ∃ other, walks.find? p = some other := by
      rw [← Option.isSome_iff_exists, List.find?_isSome]
      exact ⟨region, (schedule.mem_iff formed).mpr inRegions, holds⟩
    have holdsToo := List.find?_some walked
    have otherInRegions := (schedule.mem_iff formed).mp (List.mem_of_find?_eq_some walked)
    by_contra differ
    have different : region ≠ other := fun same => differ (same ▸ walked)
    -- Both are declaration statements of the unit, so the walks come to the first one first.
    have isDeclaration := shared region inRegions other otherInRegions different holds holdsToo
    have isDeclarationToo :=
      shared other otherInRegions region inRegions different.symm holdsToo holds
    obtain ⟨-, before, after, split, none⟩ := List.find?_eq_some_iff_append.mp first
    have later : other ∈ after := by
      have listed := otherInRegions
      rw [split, List.mem_append, List.mem_cons] at listed
      refine (listed.resolve_left fun member => ?_).resolve_left different.symm
      simpa [holdsToo] using none other member
    have ordered := schedule.inOrder root found
    rw [← formed.regions_filter_isDeclaration found unit, split, List.filter_append,
      List.filter_cons_of_pos isDeclaration, List.pairwise_append, List.pairwise_cons] at ordered
    have earlier := ordered.2.1.1 other (List.mem_filter.mpr ⟨later, isDeclarationToo⟩)
    have := idxOf_le_of_find? walked holds
    omega

end SyntaxTree.Schedule

theorem SyntaxTree.declaratorIds_flatMap (tree : SyntaxTree) (walks : List NodeId) :
    tree.declaratorIds (walks.flatMap tree.events) =
      walks.flatMap fun id => tree.declaratorIds (tree.events id) := by
  simp only [SyntaxTree.declaratorIds, visits, List.filter_flatMap, List.map_flatMap]

section Locals

variable {tree : SyntaxTree} {b : Resolution} {name : String} {walks : List NodeId} {root : Node}
  (schedule : tree.Schedule walks) (prepared : Prepared tree b)
  (found : tree.node? tree.root = some root) (unit : root.kind = .compilationUnit)
include prepared found unit

/-- The variables of a scope without members are found in the regions, in the order of the unit. -/
theorem Prepared.declaratorIds_regions {scope : ScopeId} (locals : b.isMemberScope scope = false)
    (called : String) :
    (tree.declaratorIds ((tree.regions tree.root).flatMap tree.events)).filter
        (b.isNamed tree scope called) =
      (tree.declaratorIds (tree.events tree.root)).filter (b.isNamed tree scope called) := by
  have isLocal {id : NodeId} (isDeclarator : tree.isDeclaratorId id = true)
      (named : b.isNamed tree scope called id = true) : b.isLocal tree id = true := by
    obtain ⟨node, foundNode, kind⟩ := SyntaxTree.isDeclaratorId_iff.mp isDeclarator
    simp only [Resolution.isNamed, Bool.and_eq_true, decide_eq_true_eq] at named
    rw [Resolution.isLocal_eq foundNode (.inl kind), Resolution.isMember, named.1, locals]
    rfl
  have narrow (events : List Event) :
      (tree.declaratorIds events).filter (b.isNamed tree scope called) =
        (tree.declaratorIds (events.filter fun event => b.isLocal tree event.node)).filter
          (b.isNamed tree scope called) := by
    simp only [SyntaxTree.declaratorIds, visits, List.filter_map, List.filter_filter]
    congr 1
    refine List.filter_congr fun event _ => ?_
    cases isDeclarator : tree.isDeclaratorId event.node with
    | false => simp
    | true =>
      cases named : b.isNamed tree scope called event.node with
      | false => simp [named]
      | true => simp [isLocal isDeclarator named]
  rw [narrow, narrow (tree.events tree.root),
    prepared.registered.events_filter_isLocal prepared.formed found unit]

include schedule in
/-- The walks come to the same first variable of a name in a scope without members as the walk over
the unit does. -/
theorem SyntaxTree.Schedule.head?_eq (built : Resolution.build tree name = .ok b) {scope : ScopeId}
    (locals : b.isMemberScope scope = false) (called : String) :
    ((tree.declaratorIds (walks.flatMap tree.events)).filter (b.isNamed tree scope called)).head? =
      ((tree.declaratorIds (tree.events tree.root)).filter (b.isNamed tree scope called)).head? := by
  let first (id : NodeId) : Option NodeId :=
    ((tree.declaratorIds (tree.events id)).filter (b.isNamed tree scope called)).head?
  have among (ids : List NodeId) :
      ((tree.declaratorIds (ids.flatMap tree.events)).filter (b.isNamed tree scope called)).head? =
        (ids.find? fun id => (first id).isSome).bind first := by
    rw [tree.declaratorIds_flatMap, List.filter_flatMap, List.head?_flatMap]
    exact findSome?_eq_bind_find? first ids
  rw [← prepared.declaratorIds_regions found unit locals called, among, among,
    schedule.find?_eq prepared.formed found unit]
  intro region inRegions other otherInRegions differ holds holdsToo
  have inside {id : NodeId} (member : id ∈ tree.regions tree.root)
      (holds : (first id).isSome = true) : ∃ declarator, tree.isDeclaratorId declarator = true ∧
        tree.Within id declarator ∧ b.scopeAt declarator = scope := by
    obtain ⟨declarator, isFirst⟩ := Option.isSome_iff_exists.mp holds
    obtain ⟨listed, named⟩ := List.mem_filter.mp (List.mem_of_head? isFirst)
    obtain ⟨comes, isDeclarator⟩ := mem_visits.mp listed
    have reached : tree.Reachable id := prepared.formed.regions_within .root member
    simp only [Resolution.isNamed, Bool.and_eq_true, decide_eq_true_eq] at named
    exact ⟨declarator, isDeclarator, (prepared.formed.mem_events reached).mp comes, named.1⟩
  obtain ⟨one, isOne, left, scopeOne⟩ := inside inRegions holds
  obtain ⟨two, isTwo, right, scopeTwo⟩ := inside otherInRegions holdsToo
  exact prepared.isDeclaration_of_shared built found inRegions otherInRegions differ isOne isTwo left
    right (scopeOne.trans scopeTwo.symm)

include schedule in
/-- The walks come to every variable of a scope without members. -/
theorem SyntaxTree.Schedule.mem_declaratorIds {id : NodeId} (locals : b.isMember id = false) :
    id ∈ tree.declaratorIds (walks.flatMap tree.events) ↔
      id ∈ tree.declaratorIds (tree.events tree.root) := by
  have self (ids : List NodeId) : id ∈ ids ↔
      id ∈ ids.filter (b.isNamed tree (b.scopeAt id) (tree.nameAt id)) := by
    simp [List.mem_filter, Resolution.isNamed]
  rw [self (tree.declaratorIds (tree.events tree.root)),
    ← prepared.declaratorIds_regions found unit locals, ← self, tree.declaratorIds_flatMap,
    tree.declaratorIds_flatMap, List.mem_flatMap, List.mem_flatMap]
  simp only [schedule.mem_iff prepared.formed]

end Locals

end ScriptSemantics
