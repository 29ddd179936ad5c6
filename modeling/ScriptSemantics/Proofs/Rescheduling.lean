import ScriptSemantics.Proofs.Schedules

/-!
# Any schedule does

After the members are resolved it does not matter in which order the regions are walked, nor how often,
as long as their schedule keeps the declaration statements of the unit in order. Each walk leaves its
region done with, no walk touches another region, and of the variables of one name the same one comes
first.
-/
namespace ScriptSemantics

/-- The report about a variable whose name is taken. -/
def SyntaxTree.duplicateAt (tree : SyntaxTree) (id : NodeId) : Diagnostic :=
  ⟨id, tree.locationAt id, .duplicateDeclaration,
    s!"variable or parameter already declared: {tree.nameAt id}"⟩

namespace View

variable {tree : SyntaxTree} {b : Resolution} {v w : View} {walks : List NodeId} {root : Node}

/-- What is found out when the members are resolved and some regions walked. -/
def scheduled (tree : SyntaxTree) (b : Resolution) (walks : List NodeId) : View :=
  (walks.flatMap tree.events).foldl (View.advance tree b .withLocals) (members tree b)

theorem Agrees.symm (agree : Agrees v w) : Agrees w v where
  types := agree.types.symm
  typeOf := agree.typeOf.symm
  checked := agree.checked.symm
  declared := agree.declared.symm
  variableType := agree.variableType.symm
  parameters := agree.parameters.symm
  returnType := agree.returnType.symm
  superclass := agree.superclass.symm
  diagnostics := agree.diagnostics.symm

theorem Agrees.trans {u : View} (first : Agrees u v) (second : Agrees v w) : Agrees u w where
  types := first.types.trans second.types
  typeOf := first.typeOf.trans second.typeOf
  checked := first.checked.trans second.checked
  declared := first.declared.trans second.declared
  variableType := first.variableType.trans second.variableType
  parameters := first.parameters.trans second.parameters
  returnType := first.returnType.trans second.returnType
  superclass := first.superclass.trans second.superclass
  diagnostics := first.diagnostics.trans second.diagnostics

/-- What is reported about a declarator id is that its name is taken, and nothing is reported about a
declaration statement. -/
def Reports (v : View) (tree : SyntaxTree) : Prop :=
  ∀ d ∈ v.diagnostics, (tree.isDeclaratorId d.node = true → d = tree.duplicateAt d.node) ∧
    tree.isDeclaration d.node = false

theorem Reports.advance (reports : v.Reports tree) (mode : Mode) (event : Event) :
    (v.advance tree b mode event).Reports tree := by
  obtain ⟨phase, id⟩ := event
  cases found : tree.node? id with
  | none => simpa only [View.advance, found] using reports
  | some node =>
    obtain ⟨production, location⟩ := node
    -- What other nodes report is about themselves.
    have others (notId : production.kind ≠ .variableDeclaratorId)
        (notStatement : production.kind ≠ .variableDeclarators) :
        (v.advance tree b mode ⟨phase, id⟩).Reports tree := by
      have writes : Writes tree b ⟨phase, id⟩ v (v.advance tree b mode ⟨phase, id⟩) := advance_writes
      obtain ⟨added, diagnostics, nodes⟩ := writes.diagnostics_eq
      intro d member
      rw [diagnostics, List.mem_append] at member
      refine member.elim (reports d) fun new => ?_
      rw [nodes d new]
      simp [SyntaxTree.isDeclaratorId, SyntaxTree.isDeclaration, found, Node.kind, notId, notStatement]
    cases production with
    | variableDeclaratorId name =>
      simp only [View.advance, found]
      cases phase with
      | exit => exact reports
      | enter =>
        simp only [View.enter, declareVariableAt]
        split
        · exact reports
        split
        · exact reports
        split
        · exact reports
        split
        · intro d member
          refine (List.mem_append.mp member).elim (reports d) fun new => ?_
          obtain rfl := List.mem_singleton.mp new
          simp [SyntaxTree.duplicateAt, SyntaxTree.locationAt, SyntaxTree.nameAt,
            SyntaxTree.isDeclaration, found, Node.kind, Production.kind]
        · exact reports
    | variableDeclarators type declarators =>
      simp only [View.advance, found]
      cases phase with
      | enter => exact reports
      | exit =>
        simp only [View.exit, typeDeclarators]
        split <;> exact reports
    | _ => exact others (by simp [Production.kind]) (by simp [Production.kind])

theorem Reports.run (reports : v.Reports tree) (mode : Mode) (events : List Event) :
    (events.foldl (View.advance tree b mode) v).Reports tree :=
  List.foldlRecOn events (motive := fun w : View => w.Reports tree) _ reports
    fun _ reports event _ => reports.advance mode event

theorem Reports.start : (start b).Reports tree := fun _ member => by cases member

/-- A declarator id is reported once or not at all, and the report says that its name is taken. -/
theorem Reports.filter_eq (reports : v.Reports tree) {entered : List NodeId}
    (declaring : Declaring tree b entered v) {id : NodeId}
    (isDeclarator : tree.isDeclaratorId id = true) :
    v.diagnostics.filter (fun d => d.node = id) =
      if id ∈ entered ∧ id ∉ v.declared then [tree.duplicateAt id] else [] := by
  have codes := declaring.reported id isDeclarator
  have each : ∀ d ∈ v.diagnostics.filter (fun d => d.node = id), d = tree.duplicateAt id := by
    intro d member
    obtain ⟨listed, here⟩ := List.mem_filter.mp member
    obtain rfl : d.node = id := by simpa using here
    exact (reports d listed).1 isDeclarator
  have length := congrArg List.length codes
  rw [List.length_map] at length
  split at length
  next reported =>
    rw [if_pos reported]
    obtain ⟨d, only⟩ := List.length_eq_one_iff.mp length
    rw [only, each d (by simp [only])]
  next silent =>
    rw [if_neg silent]
    exact List.length_eq_zero_iff.mp length

theorem isDeclaratorId_or_isDeclaration {id : NodeId} (isLocal : b.isLocal tree id = true) :
    tree.isDeclaratorId id = true ∨ tree.isDeclaration id = true := by
  obtain ⟨node, found, ⟨_, is⟩ | ⟨_, _, is⟩⟩ := @local_cases tree b ⟨.enter, id⟩ isLocal
  · exact .inl (SyntaxTree.isDeclaratorId_iff.mpr ⟨node, found, Node.kind_of is⟩)
  · right
    simp [SyntaxTree.isDeclaration, show tree.node? id = some node from found, Node.kind_of is,
      Production.kind]

/-- Views that declare the same variables and report the same about other nodes report the same. -/
theorem Reports.perm (reports : v.Reports tree) (reports' : w.Reports tree)
    {entered : List NodeId} (declaring : Declaring tree b entered v)
    (declaring' : Declaring tree b entered w) (declared : ∀ id, id ∈ v.declared ↔ id ∈ w.declared)
    (others : v.diagnostics.filter (fun d => !b.isLocal tree d.node) =
      w.diagnostics.filter fun d => !b.isLocal tree d.node) :
    v.diagnostics.Perm w.diagnostics := by
  rw [List.perm_iff_count]
  intro d
  have narrow (p : Diagnostic → Bool) (holds : p d = true) (ds : List Diagnostic) :
      ds.count d = (ds.filter p).count d := (List.count_filter holds).symm
  cases isLocal : b.isLocal tree d.node with
  | false =>
    have kept := narrow (fun d => !b.isLocal tree d.node) (by simp [isLocal])
    rw [kept, kept w.diagnostics, others]
  | true =>
    rcases isDeclaratorId_or_isDeclaration isLocal with isDeclarator | isDeclaration
    · have here := narrow (fun other => other.node = d.node) (by simp)
      rw [here, here w.diagnostics, reports.filter_eq declaring isDeclarator,
        reports'.filter_eq declaring' isDeclarator]
      simp only [declared]
    · have absent {u : View} (reports : u.Reports tree) : d ∉ u.diagnostics := fun member =>
        Bool.false_ne_true ((reports d member).2.symm.trans isDeclaration)
      rw [List.count_eq_zero_of_not_mem (absent reports),
        List.count_eq_zero_of_not_mem (absent reports')]

theorem foldl_checked_eq {id : NodeId} (isDeclaration : tree.isDeclaration id = true) (mode : Mode)
    (events : List Event) (v : View) :
    (events.foldl (View.advance tree b mode) v).checked id = v.checked id := by
  simp only [SyntaxTree.isDeclaration, Option.any_eq_true, beq_iff_eq] at isDeclaration
  obtain ⟨⟨production, location⟩, found, kind⟩ := isDeclaration
  cases production <;> cases kind
  refine List.foldlRecOn events (motive := fun w : View => w.checked id = v.checked id) _ rfl ?_
  intro w same event _
  refine Eq.trans ?_ same
  by_cases here : event.node = id
  · obtain ⟨phase, _⟩ := event
    subst here
    simp only [View.advance, found]
    cases phase with
    | enter => rfl
    | exit =>
      simp only [View.exit, typeDeclarators]
      split <;> rfl
  · exact advance_writes.checked_eq here

theorem filter_isNamed_isMember (ids : List NodeId) (scope : ScopeId) (called : String) :
    ids.filter (fun id => b.isNamed tree scope called id && b.isMember id) =
      if b.isMemberScope scope then ids.filter (b.isNamed tree scope called) else [] := by
  have each (id : NodeId) : (b.isNamed tree scope called id && b.isMember id) =
      (b.isNamed tree scope called id && b.isMemberScope scope) := by
    cases named : b.isNamed tree scope called id with
    | false => rfl
    | true =>
      simp only [Resolution.isNamed, Bool.and_eq_true, decide_eq_true_eq] at named
      rw [Resolution.isMember, named.1]
  simp only [each]
  cases b.isMemberScope scope <;> simp

section Walks

variable (prepared : Prepared tree b)
include prepared

/-- Walks over regions are done with all nodes of the regions that they come to. -/
theorem foldl_regions_done (inRegions : ∀ id ∈ walks, id ∈ tree.regions tree.root) {region id : NodeId}
    {node : Node} (found : tree.node? id = some node) (member : region ∈ walks)
    (inside : tree.Within region id) (v : View) :
    ((walks.flatMap tree.events).foldl (View.advance tree b .withLocals) v).Done tree b .withLocals
      id node := by
  have formed := prepared.formed
  have reach {other : NodeId} (listed : other ∈ walks) : tree.Reachable other :=
    formed.regions_within .root (inRegions other listed)
  have reached : tree.Reachable id := (reach member).within inside
  induction walks generalizing v with
  | nil => cases member
  | cons first rest ih =>
    rw [List.flatMap_cons, List.foldl_append]
    by_cases again : region ∈ rest
    · exact ih (fun other listed => inRegions other (by simp [listed])) again _
        fun listed => reach (by simp [listed])
    · obtain rfl : region = first := (List.mem_cons.mp member).resolve_right again
      refine List.foldlRecOn _ (motive := (View.Done · tree b .withLocals id node)) _
        (foldl_done_within prepared reached found (reach member) inside v) ?_
      intro w done event later
      obtain ⟨other, listed, comes⟩ := List.mem_flatMap.mp later
      have reachedOther : tree.Reachable other := reach (by simp [listed])
      have within := (formed.mem_events reachedOther).mp comes
      refine advance_writes.done prepared reached found (reachedOther.within within)
        (fun path => again ?_) done
      rw [formed.regions_disjoint .root (inRegions region member) (inRegions other (by simp [listed]))
        (inside.trans path) within]
      exact listed

theorem region_of_local (foundRoot : tree.node? tree.root = some root)
    (unit : root.kind = .compilationUnit) {id : NodeId} (reached : tree.Reachable id)
    (isLocal : b.isLocal tree id = true) :
    ∃ region ∈ tree.regions tree.root, tree.Within region id := by
  have comes : (⟨.enter, id⟩ : Event) ∈
      (tree.events tree.root).filter fun event => b.isLocal tree event.node :=
    List.mem_filter.mpr ⟨(prepared.formed.mem_events .root).mpr reached, isLocal⟩
  rw [← prepared.registered.events_filter_isLocal prepared.formed foundRoot unit] at comes
  obtain ⟨region, listed, inRegion⟩ := List.mem_flatMap.mp (List.mem_filter.mp comes).1
  have reachedRegion : tree.Reachable region := prepared.formed.regions_within .root listed
  exact ⟨region, listed, (prepared.formed.mem_events reachedRegion).mp inRegion⟩

end Walks

section Scheduled

variable (prepared : Prepared tree b) (found : tree.node? tree.root = some root)
  (unit : root.kind = .compilationUnit) (schedule : tree.Schedule walks)
include prepared found unit schedule

omit found unit in
theorem reachable_of_schedule :
    ∀ event ∈ walks.flatMap tree.events, tree.Reachable event.node := by
  intro event member
  obtain ⟨region, listed, inside⟩ := List.mem_flatMap.mp member
  have reached := schedule.reachable prepared.formed listed
  exact reached.within ((prepared.formed.mem_events reached).mp inside)

/-- Of each name in each scope the same declarator id is entered first. -/
theorem scheduled_declaring {name : String} (built : Resolution.build tree name = .ok b) :
    Declaring tree b (tree.declaratorIds (tree.events tree.root)) (scheduled tree b walks) := by
  have start : Declaring tree b [] (start b) := .start
  have inner : Declaring tree b _ (scheduled tree b walks) :=
    (start.run .membersOnly (tree.events tree.root)).run_withLocals (walks.flatMap tree.events)
  have members : (tree.declaratorIds (tree.events tree.root)).filter (fun id =>
      b.declaresAt .membersOnly (b.scopeAt id)) =
        (tree.declaratorIds (tree.events tree.root)).filter b.isMember :=
    List.filter_congr fun id _ => by simp [Resolution.declaresAt, Resolution.isMember]
  rw [members, List.nil_append] at inner
  have back {id : NodeId} (listed : id ∈ tree.declaratorIds (walks.flatMap tree.events)) :
      id ∈ tree.declaratorIds (tree.events tree.root) := by
    obtain ⟨comes, isDeclarator⟩ := mem_visits.mp listed
    exact prepared.formed.mem_declaratorIds.mpr
      ⟨reachable_of_schedule prepared schedule _ comes, isDeclarator⟩
  refine inner.congr (fun id => ?_) fun scope called => ?_
  · rw [List.mem_append, List.mem_filter]
    cases isMember : b.isMember id with
    | true => simpa using back
    | false => simpa using (schedule.mem_declaratorIds prepared found unit isMember).symm
  · rw [List.filter_append, List.filter_filter, filter_isNamed_isMember]
    cases locals : b.isMemberScope scope with
    | false =>
      rw [if_neg Bool.false_ne_true, List.nil_append,
        schedule.head?_eq prepared found unit built locals]
    | true =>
      cases group : (tree.declaratorIds (tree.events tree.root)).filter
          (b.isNamed tree scope called) with
      | cons first rest => simp
      | nil =>
        rw [List.filter_eq_nil_iff] at group
        simp [List.filter_eq_nil_iff.mpr fun id listed => group id (back listed)]

/-- A declared local has the type that its holder is bound to, as the region of the holder is walked. -/
theorem scheduled_variableType {id holder type : NodeId}
    (member : id ∈ (scheduled tree b walks).declared) (reached : tree.Reachable holder)
    (isLocal : b.isLocal tree holder = true) (holds : tree.HoldsVariable holder type id) :
    (scheduled tree b walks).variableType id = (scheduled tree b walks).typeOf type := by
  obtain ⟨region, inRegions, inside⟩ := region_of_local prepared found unit reached isLocal
  have done (node : Node) (foundHolder : tree.node? holder = some node) :
      (scheduled tree b walks).Done tree b .withLocals holder node :=
    foldl_regions_done prepared (fun _ => (schedule.mem_iff prepared.formed).mp) foundHolder
      ((schedule.mem_iff prepared.formed).mpr inRegions) inside _
  exact variableType_of_done holds done member

/-- A schedule finds out what one pass over the unit does. -/
theorem scheduled_agrees_atOnce {name : String} (built : Resolution.build tree name = .ok b)
    (grounded : (scheduled tree b walks).Grounded tree b)
    (grounded' : (atOnce tree b).Grounded tree b) :
    Agrees (scheduled tree b walks) (atOnce tree b) := by
  have inner : ∀ node, tree.node? tree.root = some node → node.kind ≠ .formalParameter := by
    intro node foundNode
    obtain rfl : root = node := Option.some.inj (found.symm.trans foundNode)
    simp [unit]
  have once := members_sameMembers_atOnce prepared inner
  have members : SameMembers tree b (members tree b) (View.members tree b) := .refl once.inside
  have same : SameMembers tree b (scheduled tree b walks) (atOnce tree b) :=
    (members.again prepared inner _ (reachable_of_schedule prepared schedule)).symm.trans once
  have declaring := scheduled_declaring prepared found unit schedule built
  have declaring' := atOnce_declaring tree b
  have declared (id : NodeId) : id ∈ (scheduled tree b walks).declared ↔
      id ∈ (atOnce tree b).declared :=
    (declaring.mem_declared_iff id).trans (declaring'.mem_declared_iff id).symm
  have checked (id : NodeId) : (scheduled tree b walks).checked id = (atOnce tree b).checked id := by
    cases isLocal : b.isLocal tree id with
    | false => exact same.checked id isLocal
    | true =>
      rcases isDeclaratorId_or_isDeclaration isLocal with isDeclarator | isDeclaration
      · exact Bool.eq_iff_iff.mpr
          ((declaring.checked id isDeclarator).trans (declaring'.checked id isDeclarator).symm)
      · rw [scheduled, View.members, atOnce, foldl_checked_eq isDeclaration,
          foldl_checked_eq isDeclaration, foldl_checked_eq isDeclaration]
  have variableType (id : NodeId) :
      (scheduled tree b walks).variableType id = (atOnce tree b).variableType id := by
    by_cases member : id ∈ (scheduled tree b walks).declared
    · cases isMember : b.isMember id with
      | true => exact same.variableType id isMember
      | false =>
        obtain ⟨node, called, foundNode, is⟩ := grounded.named id member
        obtain ⟨holder, type, reached, holds⟩ := prepared.formed.exists_holder found unit
          (grounded.reached id member) foundNode (Node.kind_of is)
        have isLocal : b.isLocal tree holder = true := by
          by_contra notLocal
          have typed := prepared.typedBy_isMember inner reached (by simpa using notLocal)
            holds.mem_typedBy
          simp [isMember] at typed
        rw [scheduled_variableType prepared found unit schedule member reached isLocal holds,
          same.typeOf, atOnce_variableType prepared reached ((declared id).mp member) holds]
    · rw [grounded.untyped id member, grounded'.untyped id fun other => member ((declared id).mpr other)]
  have empty : (start b).Reports tree := .start
  have reports : (scheduled tree b walks).Reports tree := Reports.run (empty.run _ _) _ _
  have reports' : (atOnce tree b).Reports tree := empty.run _ _
  exact {
    types := same.types
    typeOf := same.typeOf
    checked := funext checked
    declared := (List.perm_ext_iff_of_nodup grounded.nodup grounded'.nodup).mpr declared
    variableType := funext variableType
    parameters := same.parameters
    returnType := same.returnType
    superclass := same.superclass
    diagnostics := reports.perm reports' declaring declaring' declared same.diagnostics }

end Scheduled

end View

/-- Once the members of a unit are resolved, its regions may be walked with their locals by any
schedule. The result is that of the analysis up to the numbers of variables and the order of
diagnostics. -/
theorem resolve_by_any_schedule {tree : SyntaxTree} {root : Node} (valid : tree.validate = .ok ())
    (found : tree.node? tree.root = some root) (unit : root.kind = .compilationUnit)
    (settings : Settings) (locals : settings.enterLocalVariables = true) {walks : List NodeId}
    (schedule : tree.Schedule walks) :
    ∃ (built members scheduled analysed : Resolution) (σ : Equiv.Perm SymbolId) (text : String),
      Resolution.build tree settings.namespaceName = .ok built ∧
      built.resolve tree .membersOnly = .ok members ∧
      walks.foldlM (fun r id => r.resolveFrom tree .withLocals id) members = .ok scheduled ∧
      analyze tree settings = .ok analysed ∧
      Resolution.Renames σ analysed scheduled ∧
      (∀ id, scheduled.factsOf id =
        { analysed.factsOf id with symbol := (analysed.factsOf id).symbol.map σ }) ∧
      analysed.outlineText = .ok text ∧ scheduled.outlineText = .ok text ∧
      scheduled.diagnostics.toList.Perm analysed.diagnostics.toList := by
  obtain ⟨built, analysed, isBuilt, prepared, isAnalysed, follows⟩ :=
    exists_analysed (SyntaxTree.validate_eq_ok_iff.mp valid) settings
  rw [locals] at follows
  have suits (mode : Mode) : tree.Suits mode := by
    refine .inr fun node foundNode => ?_
    obtain rfl : root = node := Option.some.inj (found.symm.trans foundNode)
    simp [unit]
  have start : (View.start built).Follows tree built built := ⟨.start prepared, .start prepared⟩
  obtain ⟨members, resolved, first⟩ := start.resolveFrom prepared (suits .membersOnly) .root
  obtain ⟨scheduled, walked, follows'⟩ := first.resolveEach prepared (suits .withLocals) walks
    fun id member => schedule.reachable prepared.formed member
  obtain ⟨_, _, once⟩ := start.resolveFrom prepared (suits .withLocals) .root
  have agree := (View.analysed_agrees_atOnce prepared found unit).trans
    (View.scheduled_agrees_atOnce prepared found unit schedule isBuilt follows'.grounded
      once.grounded).symm
  have renames := agree.renames prepared follows follows'
  obtain ⟨text, shown⟩ := follows.rep.outlineText_isOk prepared follows.grounded
  refine ⟨built, members, scheduled, analysed,
    View.renumbering built agree.declared follows.grounded.nodup, text, isBuilt, resolved, walked,
    isAnalysed, renames, agree.factsOf_eq prepared follows follows', shown,
    renames.outlineText_eq.trans shown, ?_⟩
  rw [follows.rep.diagnostics, follows'.rep.diagnostics]
  exact agree.diagnostics.symm

/-- The unit `f() { int x; } int x; int x;`. -/
def SyntaxTree.scattered : SyntaxTree where
  nodes := #[
    ⟨.primitiveType .int, ⟨6, 9⟩⟩, ⟨.typeNode ⟨0⟩, ⟨6, 9⟩⟩,
    ⟨.variableDeclaratorId "x", ⟨10, 11⟩⟩, ⟨.variableDeclarator ⟨2⟩ none, ⟨10, 11⟩⟩,
    ⟨.variableDeclarators ⟨1⟩ [⟨3⟩], ⟨6, 11⟩⟩, ⟨.block [⟨4⟩], ⟨4, 14⟩⟩,
    ⟨.functionDeclaration "f" none [] ⟨5⟩, ⟨0, 14⟩⟩,
    ⟨.primitiveType .int, ⟨15, 18⟩⟩, ⟨.typeNode ⟨7⟩, ⟨15, 18⟩⟩,
    ⟨.variableDeclaratorId "x", ⟨19, 20⟩⟩, ⟨.variableDeclarator ⟨9⟩ none, ⟨19, 20⟩⟩,
    ⟨.variableDeclarators ⟨8⟩ [⟨10⟩], ⟨15, 20⟩⟩,
    ⟨.primitiveType .int, ⟨22, 25⟩⟩, ⟨.typeNode ⟨12⟩, ⟨22, 25⟩⟩,
    ⟨.variableDeclaratorId "x", ⟨26, 27⟩⟩, ⟨.variableDeclarator ⟨14⟩ none, ⟨26, 27⟩⟩,
    ⟨.variableDeclarators ⟨13⟩ [⟨15⟩], ⟨22, 27⟩⟩,
    ⟨.compilationUnit [⟨6⟩, ⟨11⟩, ⟨16⟩], ⟨0, 28⟩⟩]
  root := ⟨17⟩

/-- The statements of the unit are walked before the body of the function and once more after it, so
the variable in the body gets its number last, and the second `x` of the unit is reported once. -/
theorem resolve_by_any_schedule_scattered :
    ∃ (built members scheduled analysed : Resolution) (σ : Equiv.Perm SymbolId),
      Resolution.build SyntaxTree.scattered "global" = .ok built ∧
      built.resolve SyntaxTree.scattered .membersOnly = .ok members ∧
      ([⟨11⟩, ⟨16⟩, ⟨5⟩, ⟨16⟩, ⟨11⟩] : List NodeId).foldlM
        (fun (r : Resolution) id => r.resolveFrom SyntaxTree.scattered .withLocals id) members = .ok scheduled ∧
      analyze SyntaxTree.scattered Settings.standard = .ok analysed ∧
      Resolution.Renames σ analysed scheduled ∧ σ ⟨1⟩ = ⟨2⟩ ∧
      scheduled.diagnostics.toList.map Diagnostic.node = [⟨14⟩] := by
  have schedule : SyntaxTree.scattered.Schedule [⟨11⟩, ⟨16⟩, ⟨5⟩, ⟨16⟩, ⟨11⟩] := by
    refine ⟨⟨[⟨5⟩, ⟨11⟩, ⟨16⟩], rfl, fun id => ?_⟩, fun root found => ?_⟩
    · simp only [List.mem_cons, List.not_mem_nil, or_false]
      tauto
    · cases found
      decide
  obtain ⟨built, members, scheduled, analysed, σ, text, isBuilt, resolved, walked, isAnalysed,
    renames, facts, -⟩ := @resolve_by_any_schedule SyntaxTree.scattered _ rfl rfl rfl
      Settings.standard rfl _ schedule
  have before : (analyze SyntaxTree.scattered Settings.standard).map (fun r => r.symbolOf ⟨2⟩) =
      .ok (some ⟨1⟩) := rfl
  have after : ((Resolution.build SyntaxTree.scattered "global").toOption.bind fun built =>
      (built.resolve SyntaxTree.scattered .membersOnly).toOption.bind fun members =>
        (([⟨11⟩, ⟨16⟩, ⟨5⟩, ⟨16⟩, ⟨11⟩] : List NodeId).foldlM
          (fun (r : Resolution) id => r.resolveFrom SyntaxTree.scattered .withLocals id) members).toOption.map
            fun r => (r.symbolOf ⟨2⟩, r.diagnostics.toList.map Diagnostic.node)) =
      some (some ⟨2⟩, [⟨14⟩]) := rfl
  have isBuilt : Resolution.build SyntaxTree.scattered "global" = .ok built := isBuilt
  rw [isAnalysed] at before
  rw [isBuilt] at after
  simp only [Except.map, Except.ok.injEq] at before
  simp only [Except.toOption, Option.bind_some, resolved, walked, Option.map_some,
    Option.some.injEq, Prod.mk.injEq] at after
  have renamed : scheduled.symbolOf ⟨2⟩ = (analysed.symbolOf ⟨2⟩).map σ :=
    congrArg NodeFacts.symbol (facts ⟨2⟩)
  rw [before, after.1, Option.map_some, Option.some.injEq] at renamed
  exact ⟨built, members, scheduled, analysed, σ, isBuilt, resolved, walked, isAnalysed, renames,
    renamed.symm, after.2⟩

end ScriptSemantics
