import Mathlib.Data.List.Induction
import ScriptSemantics.Proofs.Denotations
import ScriptSemantics.Proofs.Handles

/-!
# The types that an analysis discovers

Registration registers the class of each class declaration that it enters, in a scope that was not
there before, so the check for repetitions never finds one. The pass over the members allocates one
function type for each node that it leaves with all its parts typed. It leaves every node once, and the
walks over regions find every function type either typed or without some part, so they allocate none.
-/
namespace ScriptSemantics

namespace SyntaxTree

def hasKind (tree : SyntaxTree) (kind : NodeKind) (id : NodeId) : Bool :=
  (tree.node? id).any fun node => node.kind == kind

theorem hasKind_eq {tree : SyntaxTree} {kind : NodeKind} {id : NodeId} {node : Node}
    (found : tree.node? id = some node) : tree.hasKind kind id = (node.kind == kind) := by
  simp [hasKind, found]

/-- The class declarations of a tree in the order in which the walk enters them. -/
def classes (tree : SyntaxTree) : List NodeId :=
  visits .enter (tree.events tree.root) (tree.hasKind .classDeclaration)

/-- The signature of a function type, if all its parts have types. Other nodes have none. -/
def signatureOf (tree : SyntaxTree) (typeOf : NodeId → Option Ty) (id : NodeId) : Option Signature :=
  match tree.node? id with
  | some ⟨.functionType parameters returnType, _⟩ => do
    pure ⟨← typeOf returnType, ← parameters.mapM typeOf⟩
  | _ => none

theorem signatureOf_congr {tree : SyntaxTree} {typeOf other : NodeId → Option Ty} {id : NodeId}
    (same : ∀ child, tree.HasChild id child → typeOf child = other child) :
    tree.signatureOf typeOf id = tree.signatureOf other id := by
  unfold signatureOf
  cases found : tree.node? id with
  | none => rfl
  | some node =>
    obtain ⟨production, location⟩ := node
    cases production with
    | functionType parameters returnType =>
      have child {part : NodeId} (member : part ∈ parameters ++ [returnType]) :
          typeOf part = other part := same part ⟨_, found, member⟩
      simp only [child (List.mem_append_right _ (List.mem_singleton_self _)),
        mapM_congr fun part member => child (List.mem_append_left _ member)]
    | _ => rfl

/-- A node has a signature if it is a function type all of whose parts have types. -/
theorem signatureOf_isSome_iff {tree : SyntaxTree} {typeOf : NodeId → Option Ty} {id : NodeId} :
    (tree.signatureOf typeOf id).isSome = true ↔ ∃ node, tree.node? id = some node ∧
      node.kind = .functionType ∧ ∀ part ∈ node.children, (typeOf part).isSome = true := by
  have all (parts : List NodeId) :
      (parts.mapM typeOf).isSome = true ↔ ∀ part ∈ parts, (typeOf part).isSome = true := by
    induction parts with
    | nil => simp
    | cons part parts ih =>
      simp only [List.mem_cons, forall_eq_or_imp, ← ih, List.mapM_cons]
      cases typeOf part <;> cases parts.mapM typeOf <;> simp
  cases found : tree.node? id with
  | none => simp [signatureOf, found]
  | some node =>
    obtain ⟨production, location⟩ := node
    cases production with
    | functionType parameters returnType =>
      have parts : (tree.signatureOf typeOf id).isSome = true ↔
          ∀ part ∈ parameters ++ [returnType], (typeOf part).isSome = true := by
        simp only [signatureOf, found, List.mem_append, List.mem_singleton, or_imp, forall_and,
          forall_eq, ← all]
        cases typeOf returnType <;> cases parameters.mapM typeOf <;> simp
      simpa [Node.kind, Production.kind, Node.children, Production.children] using parts
    | _ => simp [signatureOf, found, Node.kind, Production.kind]

/-- The function types of a tree all of whose parts have types, in the order in which the walk leaves
them. -/
def functionTypes (tree : SyntaxTree) (typeOf : NodeId → Option Ty) : List NodeId :=
  visits .exit (tree.events tree.root) fun id => (tree.signatureOf typeOf id).isSome

end SyntaxTree

namespace Registration

variable {tree : SyntaxTree} {s after : Registration} {id : NodeId} {node : Node}

/-- Entering a class registers the class of the next scope, and entering any other node registers
nothing. -/
theorem enter_types (entered : s.enter id node = .ok after) :
    after.resolution.types = if node.kind = .classDeclaration then
      s.resolution.types.register (.classType s.resolution.table.nextScope)
    else s.resolution.types := by
  unfold Registration.enter at entered
  obtain ⟨production, location⟩ := node
  cases production with
  | classDeclaration name superclass body =>
    obtain ⟨⟨⟨symbol, own⟩, table⟩, declared, rest⟩ := bind_eq_ok_iff.mp entered
    obtain ⟨noted, updated, opened⟩ := bind_eq_ok_iff.mp rest
    obtain ⟨rfl, -⟩ := SymbolTable.declareClass_kinds declared
    rw [(openScope_keeps opened).2, (updateFacts_keeps updated).2]
    rfl
  | functionDeclaration name returnType parameters body =>
    obtain ⟨⟨⟨symbol, own⟩, table⟩, -, rest⟩ := bind_eq_ok_iff.mp entered
    obtain ⟨noted, updated, opened⟩ := bind_eq_ok_iff.mp rest
    rw [(openScope_keeps opened).2, (updateFacts_keeps updated).2]
    rfl
  | block statements =>
    obtain ⟨⟨own, table⟩, -, opened⟩ := bind_eq_ok_iff.mp entered
    rw [(openScope_keeps opened).2]
    rfl
  | _ =>
    obtain ⟨bound, updated, done⟩ := bind_eq_ok_iff.mp entered
    cases done
    rw [(updateFacts_keeps updated).2]
    rfl

/-- The types registered so far are the classes of the class declarations entered so far. -/
structure Registers (tree : SyntaxTree) (seen : List Event) (r : Resolution) : Prop where
  listed : (visits .enter seen (tree.hasKind .classDeclaration)).map
    (fun id => (r.factsOf id).scope.map Ty.classType) = r.types.discovered.toList.map some
  known : ∀ scope, .classType scope ∈ r.types.discovered → scope.index < r.table.scopes.size
  nodup : r.types.discovered.toList.Nodup

theorem Registers.new (tree : SyntaxTree) (name : String) :
    Registers tree [] (.new tree name) :=
  ⟨rfl, fun scope member => by simp [Resolution.new, TypeTable.empty] at member, .nil⟩

/-- Entering a node for the first time registers its class, if it is one. -/
theorem Registers.enter {seen : List Event} (registers : Registers tree seen s.resolution)
    (found : tree.node? id = some node) (new : ⟨.enter, id⟩ ∉ seen)
    (entered : s.enter id node = .ok after) :
    Registers tree (seen ++ [⟨.enter, id⟩]) after.resolution := by
  have numbers := enter_numbers entered
  have types := enter_types entered
  obtain ⟨added, kinds, count⟩ := numbers.kinds
  have grown : s.resolution.table.scopes.size ≤ after.resolution.table.scopes.size := by
    rw [← SymbolTable.length_kinds, ← SymbolTable.length_kinds, kinds, List.length_append]
    omega
  have earlier : (visits .enter seen (tree.hasKind .classDeclaration)).map
      (fun id => (after.resolution.factsOf id).scope.map Ty.classType) =
        s.resolution.types.discovered.toList.map some := by
    rw [← registers.listed]
    refine List.map_congr_left fun other member => ?_
    rw [numbers.elsewhere other]
    rintro rfl
    exact new (mem_visits.mp member).1
  by_cases isClass : node.kind = .classDeclaration
  · have introduces : node.kind.introducesScope = true := by rw [isClass]; rfl
    have fresh : .classType s.resolution.table.nextScope ∉ s.resolution.types.discovered :=
      fun member => Nat.lt_irrefl _ (registers.known _ member)
    have discovered : after.resolution.types.discovered.toList =
        s.resolution.types.discovered.toList ++ [.classType s.resolution.table.nextScope] := by
      rw [types, if_pos isClass, TypeTable.register, if_neg fresh, Array.toList_push]
    refine ⟨?_, fun scope member => ?_, ?_⟩
    · rw [visits_append, visits_singleton, if_pos ⟨rfl, by simp [SyntaxTree.hasKind_eq found, isClass]⟩,
        List.map_append, earlier, discovered, List.map_append, List.map_singleton,
        numbers.own introduces]
      rfl
    · rw [← Array.mem_toList_iff, discovered, List.mem_append] at member
      rcases member with old | new
      · exact Nat.lt_of_lt_of_le (registers.known scope (Array.mem_toList_iff.mp old)) grown
      · obtain rfl : scope = s.resolution.table.nextScope := by simpa using new
        rw [← SymbolTable.length_kinds, kinds, List.length_append, count, if_pos introduces,
          SymbolTable.length_kinds]
        exact Nat.lt_succ_self _
    · rw [discovered, ← List.concat_eq_append]
      exact registers.nodup.concat fun member => fresh (Array.mem_toList_iff.mp member)
  · rw [if_neg isClass] at types
    refine ⟨?_, fun scope member => ?_, types ▸ registers.nodup⟩
    · rw [visits_append, visits_singleton, if_neg (by simp [SyntaxTree.hasKind_eq found, isClass]),
        List.append_nil, earlier, types]
    · exact Nat.lt_of_lt_of_le (registers.known scope (types ▸ member)) grown

theorem registers_run {name : String} {seen : List Event} (nodup : seen.Nodup)
    (ran : seen.foldlM (tree.heed listener) ⟨.new tree name, [SymbolTable.root]⟩ = .ok s) :
    Registers tree seen s.resolution := by
  induction seen using List.reverseRecOn generalizing s with
  | nil =>
    cases ran
    exact .new tree name
  | append_singleton seen event ih =>
    rw [List.foldlM_append] at ran
    obtain ⟨before, first, last⟩ := bind_eq_ok_iff.mp ran
    obtain ⟨after, heeded, done⟩ := bind_eq_ok_iff.mp last
    cases done
    obtain ⟨old, -, apart⟩ := List.nodup_append.mp nodup
    have registers := ih old first
    obtain ⟨phase, id⟩ := event
    obtain ⟨node, isNode, heard⟩ := bind_eq_ok_iff.mp heeded
    cases phase with
    | enter =>
      have new : (⟨.enter, id⟩ : Event) ∉ seen := fun member => apart _ member _ (by simp) rfl
      exact registers.enter (orDangling_eq_ok_iff.mp (lift_eq_ok_iff.mp isNode)) new
        (lift_eq_ok_iff.mp heard)
    | exit =>
      cases heard
      have same : (before.exit node).resolution = before.resolution := by
        unfold Registration.exit
        split <;> rfl
      rw [same]
      refine ⟨?_, registers.known, registers.nodup⟩
      rw [visits_append, visits_singleton, if_neg (by simp), List.append_nil]
      exact registers.listed

/-- Registration discovers the classes of a tree in the order in which the walk enters them. -/
theorem build_registers {name : String} {b : Resolution} (formed : tree.WellFormed)
    (built : Resolution.build tree name = .ok b) : Registers tree (tree.events tree.root) b := by
  obtain ⟨after, walked, done⟩ := bind_eq_ok_iff.mp built
  cases done
  rw [Halt.onlyFault, mapError_eq_ok_iff, formed.walk_eq_foldlM] at walked
  exact registers_run (formed.events_nodup .root) walked

end Registration

namespace View

variable {tree : SyntaxTree} {b : Resolution} {mode : Mode} {v : View} {id : NodeId} {node : Node}

/-- Leaving a node other than a function type allocates nothing. -/
theorem exit_types (plain : node.kind ≠ .functionType) :
    (v.exit tree b mode id node).types = v.types := by
  obtain ⟨production, location⟩ := node
  unfold View.exit
  cases production with
  | functionType parameters returnType => exact absurd rfl plain
  | typeOrVoid child =>
    cases child with
    | none => rfl
    | some child => simp only [inheritType]; split <;> rfl
  | typeNode child => simp only [inheritType]; split <;> rfl
  | classReference name =>
    simp only [resolveClassReference]
    (repeat' split) <;> rfl
  | variableDeclarators type declarators => simp only [typeDeclarators]; split <;> rfl
  | formalParameter type declarator => simp only [completeParameter]; split <;> rfl
  | functionDeclaration name returnType parameters body =>
    have returning : (v.returning b id returnType).types = v.types := by
      unfold View.returning
      split <;> rfl
    simp only [completeFunction, checkSignature]
    (repeat' split) <;> exact returning
  | classDeclaration name superclass body =>
    simp only [completeClass]
    (repeat' split) <;> rfl
  | _ => rfl

theorem enter_types : (v.enter tree b mode id node).types = v.types := by
  unfold View.enter declareVariableAt
  (repeat' split) <;> rfl

/-- An event leaves the types and all function types as they are, unless it leaves a function type
that has no type yet, which may then get a handle of its own. -/
theorem advance_cases (event : Event) (untyped : event.phase = .exit → v.typeOf event.node = none) :
    ((v.advance tree b mode event).types = v.types ∧
        ∀ other, tree.hasKind .functionType other = true →
          (v.advance tree b mode event).typeOf other = v.typeOf other) ∨
      event.phase = .exit ∧ tree.hasKind .functionType event.node = true ∧
        ∃ signature, v.advance tree b mode event =
          (v.allocate signature).setType event.node (v.types.allocate signature).1 := by
  have writes : Writes tree b event v (v.advance tree b mode event) := advance_writes
  obtain ⟨phase, id⟩ := event
  cases found : tree.node? id with
  | none => exact .inl (by simp [View.advance, found])
  | some node =>
    cases phase with
    | enter =>
      refine .inl ⟨?_, fun other _ => writes.typeOf_eq (by simp)⟩
      simp only [View.advance, found, enter_types]
    | exit =>
      have exits : v.advance tree b mode ⟨.exit, id⟩ = v.exit tree b mode id node := by
        simp only [View.advance, found]
      by_cases isFunctionType : node.kind = .functionType
      · rw [exits]
        obtain ⟨production, location⟩ := node
        cases production <;> cases isFunctionType
        rename_i parameters returnType
        simp only [View.exit, resolveFunctionType, untyped rfl, Option.isSome_none,
          Bool.false_eq_true, if_false]
        split
        · exact .inr ⟨trivial, by simp [SyntaxTree.hasKind_eq found, Node.kind, Production.kind],
            _, rfl⟩
        · exact .inl ⟨rfl, fun _ _ => rfl⟩
      · refine .inl ⟨exits ▸ exit_types isFunctionType, fun other isOther => writes.typeOf_eq ?_⟩
        rintro ⟨⟩
        simp [SyntaxTree.hasKind_eq found, isFunctionType] at isOther

/-- Whether a node is a function type with a type. -/
def isTyped (v : View) (tree : SyntaxTree) (id : NodeId) : Bool :=
  tree.hasKind .functionType id && (v.typeOf id).isSome

/-- The function types allocated so far are the types of the function type nodes left so far, in that
order, and were discovered after the classes. -/
structure Allots (tree : SyntaxTree) (b : Resolution) (seen : List Event) (v : View) : Prop where
  discovered : v.types.discovered.toList = b.types.discovered.toList ++
    (List.range v.types.functions.size).map fun i => .functionType ⟨i⟩
  handles : (visits .exit seen (v.isTyped tree)).map v.typeOf =
    (List.range v.types.functions.size).map fun i => some (.functionType ⟨i⟩)

theorem Allots.start (registered : Registered tree b) : Allots tree b [] (start b) := by
  have none : b.types.functions.size = 0 := by rw [registered.functions]; rfl
  exact ⟨by simp [View.start, none], by simp [View.start, none, visits]⟩

/-- A node that has not been left yet gets at most one handle when it is left. -/
theorem Allots.advance {seen : List Event} {event : Event} (allots : Allots tree b seen v)
    (new : event ∉ seen) (untyped : event.phase = .exit → v.typeOf event.node = none) :
    Allots tree b (seen ++ [event]) (v.advance tree b mode event) := by
  rcases @advance_cases tree b mode v event untyped with
    ⟨types, kept⟩ | ⟨exits, isFunctionType, signature, advanced⟩
  · have same : (v.advance tree b mode event).isTyped tree = v.isTyped tree := by
      funext other
      unfold isTyped
      by_cases isOther : tree.hasKind .functionType other = true
      · rw [kept other isOther]
      · simp [isOther]
    have silent : ¬ (event.phase = .exit ∧ v.isTyped tree event.node = true) := by
      rintro ⟨exits, typed⟩
      simp [isTyped, untyped exits] at typed
    refine ⟨types ▸ allots.discovered, ?_⟩
    rw [same, visits_append, visits_singleton, if_neg silent, List.append_nil, types,
      ← allots.handles]
    refine List.map_congr_left fun other member => kept other ?_
    have typed := (mem_visits.mp member).2
    simp only [isTyped, Bool.and_eq_true] at typed
    exact typed.1
  · obtain ⟨phase, id⟩ := event
    cases exits
    rw [advanced]
    have others {other : NodeId} (different : other ≠ id) :
        ((v.allocate signature).setType id (v.types.allocate signature).1).typeOf other =
          v.typeOf other := if_neg different
    have here : ((v.allocate signature).setType id (v.types.allocate signature).1).typeOf id =
        some (.functionType ⟨v.types.functions.size⟩) := if_pos rfl
    have size : ((v.allocate signature).setType id
        (v.types.allocate signature).1).types.functions.size = v.types.functions.size + 1 :=
      Array.size_push _
    have left {other : NodeId} (member : ⟨.exit, other⟩ ∈ seen) : other ≠ id := by
      rintro rfl
      exact new member
    constructor
    · rw [size, List.range_succ, List.map_append, ← List.append_assoc, ← allots.discovered]
      exact Array.toList_push
    · rw [size, List.range_succ, List.map_append, ← allots.handles, visits_append, List.map_append]
      congr 1
      · rw [visits_congr fun other member => by rw [isTyped, others (left member), ← isTyped]]
        exact List.map_congr_left fun other member => others (left (mem_visits.mp member).1)
      · rw [visits_singleton, if_pos ⟨rfl, by simp [isTyped, isFunctionType, here]⟩]
        simp [here]

/-- The pass over the members gives out handles in the order in which it leaves function types. -/
theorem members_allots (prepared : Prepared tree b) :
    Allots tree b (tree.events tree.root) (members tree b) := by
  have run {seen : List Event} (nodup : seen.Nodup) : Allots tree b seen (soFar tree b seen) := by
    induction seen using List.reverseRecOn with
    | nil => exact .start prepared.registered
    | append_singleton seen event ih =>
      obtain ⟨old, -, apart⟩ := List.nodup_append.mp nodup
      have new : event ∉ seen := fun member => apart _ member _ (by simp) rfl
      rw [soFar, List.foldl_append]
      refine (ih old).advance new fun exits => ?_
      refine foldl_typeOf_eq (fun member => new ?_) (View.start b)
      rwa [← exits] at member
  exact run (prepared.formed.events_nodup .root)

/-- A function type has a handle in the end exactly if all its parts have types, and its signature is
the entry of the handle. -/
theorem members_signature (prepared : Prepared tree b) (reached : tree.Reachable id)
    (isFunctionType : tree.hasKind .functionType id = true) :
    match tree.signatureOf (members tree b).typeOf id with
    | some signature => ∃ handle, (members tree b).typeOf id = some (.functionType handle) ∧
        (members tree b).types.functions[handle.index]? = some signature
    | none => (members tree b).typeOf id = none := by
  obtain ⟨node, found⟩ := prepared.formed.reachable_node reached
  have denotes := members_denotes prepared reached found
  rw [SyntaxTree.hasKind_eq found, beq_iff_eq] at isFunctionType
  obtain ⟨production, location⟩ := node
  cases production <;> cases isFunctionType
  rename_i parameters returnType
  simp only [Production.Denotes] at denotes
  simp only [SyntaxTree.signatureOf, found]
  cases result : (members tree b).typeOf returnType with
  | none => simpa [result] using denotes
  | some resultType =>
    cases listed : parameters.mapM (members tree b).typeOf with
    | none => simpa [result, listed] using denotes
    | some types =>
      simp only [result, listed] at denotes
      obtain ⟨handle, isType, isSignature⟩ := denotes
      exact ⟨handle, isType, orDangling_eq_ok_iff.mp isSignature⟩

/-- The function types with a handle are those all of whose parts have types. -/
theorem members_functionTypes (prepared : Prepared tree b) :
    tree.functionTypes (members tree b).typeOf =
      visits .exit (tree.events tree.root) ((members tree b).isTyped tree) := by
  refine visits_congr fun id member => ?_
  have reached : tree.Reachable id := (prepared.formed.mem_events .root).mp member
  by_cases isFunctionType : tree.hasKind .functionType id = true
  · have signature := members_signature prepared reached isFunctionType
    simp only [isTyped, isFunctionType, Bool.true_and]
    cases isSignature : tree.signatureOf (members tree b).typeOf id with
    | none => simp_all
    | some entry =>
      simp only [isSignature] at signature
      obtain ⟨handle, isType, -⟩ := signature
      simp [isType]
  · have none : tree.signatureOf (members tree b).typeOf id = none := by
      by_contra some
      obtain ⟨node, found, kind, -⟩ :=
        SyntaxTree.signatureOf_isSome_iff.mp (Option.isSome_iff_ne_none.mpr some)
      simp [SyntaxTree.hasKind_eq found, kind] at isFunctionType
    simp [isTyped, isFunctionType, none]

end View

/-- What has been discovered are the classes of a tree in the order in which it declares them, and
then the function types in the order of their table. The entries of the table belong to the function
types of the tree all of whose parts have types, one to each, in the order in which the walk leaves
them. -/
structure Resolution.Discovers (r : Resolution) (tree : SyntaxTree) : Prop where
  once : r.types.discovered.toList.Nodup
  listed : ∃ scopes, tree.classes.mapM r.scopeOf = .ok scopes ∧
    r.types.discovered.toList = scopes.map .classType ++
      (List.range r.types.functions.size).map fun i => .functionType ⟨i⟩
  composite : ∀ type ∈ r.types.discovered, type ≠ .void ∧ ∀ primitive, type ≠ .primitive primitive
  distinct : (tree.functionTypes r.typeOf).Nodup
  typed : ∀ id, id ∈ tree.functionTypes r.typeOf ↔ tree.Reachable id ∧ ∃ node,
    tree.node? id = some node ∧ node.kind = .functionType ∧
      ∀ part ∈ node.children, (r.typeOf part).isSome = true
  handles : (tree.functionTypes r.typeOf).map r.typeOf =
    (List.range r.types.functions.size).map fun i => some (.functionType ⟨i⟩)
  signatures : (tree.functionTypes r.typeOf).map (tree.signatureOf r.typeOf) =
    r.types.functions.toList.map some
  untyped : ∀ id node, tree.Reachable id → tree.node? id = some node → node.kind = .functionType →
    id ∉ tree.functionTypes r.typeOf → r.typeOf id = none

section Represented

variable {tree : SyntaxTree} {b r : Resolution} {name : String} {locals : Bool}
  (prepared : Prepared tree b) (built : Resolution.build tree name = .ok b)
  (rep : (View.analysed tree b locals).Represents tree b r)
include prepared built rep

theorem exists_scopes_listed : ∃ scopes, tree.classes.mapM r.scopeOf = .ok scopes ∧
    r.types.discovered.toList = scopes.map .classType ++
      (List.range r.types.functions.size).map fun i => .functionType ⟨i⟩ := by
  have reached {id : NodeId} (member : id ∈ tree.classes) : tree.Reachable id :=
    (prepared.formed.mem_events .root).mp (mem_visits.mp member).1
  have registers := Registration.build_registers prepared.formed built
  have classes : b.types.discovered.toList = (tree.classes.map b.scopeAt).map .classType := by
    refine List.map_injective_iff.mpr (Option.some_injective _) ?_
    rw [← registers.listed, List.map_map, List.map_map]
    refine List.map_congr_left fun id member => ?_
    simp [(prepared.registered.facts prepared.formed (reached member)).1]
  refine ⟨tree.classes.map b.scopeAt, mapM_eq_ok _ fun id member => ?_, ?_⟩
  · exact rep.scopeOf_eq_ok prepared (reached member)
  · rw [rep.types, (View.analysed_types prepared locals).1, ← classes]
    exact (View.members_allots prepared).discovered

/-- A resolution that the analysis comes to has discovered the classes and the function types. -/
theorem View.Represents.discovers : r.Discovers tree := by
  have typeOf {id : NodeId} (reached : tree.Reachable id) :
      r.typeOf id = (View.members tree b).typeOf id := by
    rw [rep.typeOf_eq prepared reached, (View.analysed_types prepared locals).2]
  have types : r.types = (View.members tree b).types := by
    rw [rep.types, (View.analysed_types prepared locals).1]
  have signatureOf {id : NodeId} (reached : tree.Reachable id) :
      tree.signatureOf r.typeOf id = tree.signatureOf (View.members tree b).typeOf id :=
    SyntaxTree.signatureOf_congr fun child link => typeOf (reached.child link)
  have visited {phase : Phase} {id : NodeId} (member : ⟨phase, id⟩ ∈ tree.events tree.root) :
      tree.Reachable id := by
    have inside := (prepared.formed.mem_events .root).mp member
    exact inside
  have same : tree.functionTypes r.typeOf = tree.functionTypes (View.members tree b).typeOf :=
    visits_congr fun id member => by rw [signatureOf (visited member)]
  have mem {id : NodeId} : id ∈ tree.functionTypes r.typeOf ↔
      tree.Reachable id ∧ (tree.signatureOf r.typeOf id).isSome = true :=
    mem_visits.trans (and_congr_left' (prepared.formed.mem_events .root))
  have isFunctionType {id : NodeId} (member : id ∈ tree.functionTypes r.typeOf) :
      tree.hasKind .functionType id = true := by
    obtain ⟨node, found, kind, -⟩ := SyntaxTree.signatureOf_isSome_iff.mp (mem.mp member).2
    simp [SyntaxTree.hasKind_eq found, kind]
  have handles : (tree.functionTypes r.typeOf).map r.typeOf =
      (List.range r.types.functions.size).map fun i => some (.functionType ⟨i⟩) := by
    rw [types, ← (View.members_allots prepared).handles, ← View.members_functionTypes prepared, ← same]
    exact List.map_congr_left fun id member => typeOf (mem.mp member).1
  obtain ⟨scopes, areScopes, listed⟩ := exists_scopes_listed prepared built rep
  have kinds : ∀ type ∈ r.types.discovered,
      (∃ scope, type = .classType scope) ∨ ∃ id, type = .functionType id := by
    intro type member
    rw [← Array.mem_toList_iff, listed, List.mem_append, List.mem_map, List.mem_map] at member
    rcases member with ⟨scope, -, rfl⟩ | ⟨i, -, rfl⟩
    · exact .inl ⟨scope, rfl⟩
    · exact .inr ⟨_, rfl⟩
  refine ⟨?_, ⟨scopes, areScopes, listed⟩, fun type member => ?_, ?_, fun id => ?_, handles, ?_,
    fun id node reached found kind away => ?_⟩
  · rw [types, (View.members_allots prepared).discovered]
    refine List.nodup_append.mpr ⟨(Registration.build_registers prepared.formed built).nodup, ?_, ?_⟩
    · exact List.nodup_range.map fun i j same => by simpa using same
    · intro type isClass other isFunctionType same
      obtain ⟨scope, rfl, -⟩ := Registration.build_lists built type (Array.mem_toList_iff.mp isClass)
      obtain ⟨i, -, rfl⟩ := List.mem_map.mp isFunctionType
      cases same
  · rcases kinds type member with ⟨scope, rfl⟩ | ⟨id, rfl⟩ <;> simp
  · exact visits_nodup (prepared.formed.events_nodup .root) _
  · rw [mem, SyntaxTree.signatureOf_isSome_iff]
  · have length : (tree.functionTypes r.typeOf).length = r.types.functions.size := by
      simpa using congrArg List.length handles
    refine List.ext_getElem (by simpa using length) fun i here there => ?_
    simp only [List.length_map] at here
    obtain ⟨reached, typed⟩ := mem.mp (List.getElem_mem here)
    have signature := View.members_signature prepared reached (isFunctionType (List.getElem_mem here))
    rw [← signatureOf reached] at signature
    obtain ⟨entry, isEntry⟩ := Option.isSome_iff_exists.mp typed
    rw [isEntry] at signature
    obtain ⟨handle, isHandle, found⟩ := signature
    have isType : r.typeOf (tree.functionTypes r.typeOf)[i] = some (.functionType ⟨i⟩) := by
      have entries := congrArg (·[i]?) handles
      simpa [here, length ▸ here] using entries
    rw [← typeOf reached, isType] at isHandle
    cases isHandle
    rw [← types, Array.getElem?_eq_getElem (length ▸ here), Option.some.injEq] at found
    rw [List.getElem_map, isEntry, List.getElem_map, Array.getElem_toList, found]
  · have signature := View.members_signature prepared reached
      (by simp [SyntaxTree.hasKind_eq found, kind])
    have none : tree.signatureOf r.typeOf id = none := by
      by_contra some
      exact away (mem.mpr ⟨reached, Option.isSome_iff_ne_none.mpr some⟩)
    rw [signatureOf reached] at none
    rw [typeOf reached]
    simpa [none] using signature

end Represented

/-- The analysis of a valid tree discovers its classes in the order in which they are declared, and
then one function type for each function type node whose parts all have types, in the order in which
the walk leaves these nodes. -/
theorem analyze_discovers {tree : SyntaxTree} (valid : tree.validate = .ok ())
    (settings : Settings) : ∃ r, analyze tree settings = .ok r ∧ r.Discovers tree := by
  obtain ⟨b, r, built, prepared, analysed, follows⟩ :=
    exists_analysed (SyntaxTree.validate_eq_ok_iff.mp valid) settings
  exact ⟨r, analysed, follows.rep.discovers prepared built⟩

/-- The unit `class A { } m() { (A) -> int f; (Nope) -> int g; class B { (A) -> int h; } }`. -/
def SyntaxTree.partlyTyped : SyntaxTree where
  nodes := #[
    ⟨.classDeclaration "A" none [], ⟨0, 11⟩⟩, ⟨.classReference "A", ⟨19, 20⟩⟩,
    ⟨.typeNode ⟨1⟩, ⟨19, 20⟩⟩, ⟨.primitiveType .int, ⟨25, 28⟩⟩, ⟨.typeNode ⟨3⟩, ⟨25, 28⟩⟩,
    ⟨.typeOrVoid (some ⟨4⟩), ⟨25, 28⟩⟩, ⟨.functionType [⟨2⟩] ⟨5⟩, ⟨18, 28⟩⟩,
    ⟨.typeNode ⟨6⟩, ⟨18, 28⟩⟩, ⟨.variableDeclaratorId "f", ⟨29, 30⟩⟩,
    ⟨.variableDeclarator ⟨8⟩ none, ⟨29, 30⟩⟩, ⟨.variableDeclarators ⟨7⟩ [⟨9⟩], ⟨18, 30⟩⟩,
    ⟨.classReference "Nope", ⟨33, 37⟩⟩, ⟨.typeNode ⟨11⟩, ⟨33, 37⟩⟩,
    ⟨.primitiveType .int, ⟨42, 45⟩⟩, ⟨.typeNode ⟨13⟩, ⟨42, 45⟩⟩,
    ⟨.typeOrVoid (some ⟨14⟩), ⟨42, 45⟩⟩, ⟨.functionType [⟨12⟩] ⟨15⟩, ⟨32, 45⟩⟩,
    ⟨.typeNode ⟨16⟩, ⟨32, 45⟩⟩, ⟨.variableDeclaratorId "g", ⟨46, 47⟩⟩,
    ⟨.variableDeclarator ⟨18⟩ none, ⟨46, 47⟩⟩, ⟨.variableDeclarators ⟨17⟩ [⟨19⟩], ⟨32, 47⟩⟩,
    ⟨.classReference "A", ⟨60, 61⟩⟩, ⟨.typeNode ⟨21⟩, ⟨60, 61⟩⟩,
    ⟨.primitiveType .int, ⟨66, 69⟩⟩, ⟨.typeNode ⟨23⟩, ⟨66, 69⟩⟩,
    ⟨.typeOrVoid (some ⟨24⟩), ⟨66, 69⟩⟩, ⟨.functionType [⟨22⟩] ⟨25⟩, ⟨59, 69⟩⟩,
    ⟨.typeNode ⟨26⟩, ⟨59, 69⟩⟩, ⟨.variableDeclaratorId "h", ⟨70, 71⟩⟩,
    ⟨.variableDeclarator ⟨28⟩ none, ⟨70, 71⟩⟩, ⟨.variableDeclarators ⟨27⟩ [⟨29⟩], ⟨59, 71⟩⟩,
    ⟨.classDeclaration "B" none [⟨30⟩], ⟨49, 74⟩⟩, ⟨.block [⟨10⟩, ⟨20⟩, ⟨31⟩], ⟨16, 76⟩⟩,
    ⟨.functionDeclaration "m" none [] ⟨32⟩, ⟨12, 76⟩⟩, ⟨.compilationUnit [⟨0⟩, ⟨33⟩], ⟨0, 76⟩⟩]
  root := ⟨34⟩

/-- Two function types that look alike get a handle each, though the body of the function is walked
twice, and the one with the unknown class gets none. -/
theorem analyze_discovers_partlyTyped :
    ∃ r, analyze SyntaxTree.partlyTyped Settings.standard = .ok r ∧
      r.Discovers SyntaxTree.partlyTyped ∧
      r.types.discovered =
        #[.classType ⟨1⟩, .classType ⟨4⟩, .functionType ⟨0⟩, .functionType ⟨1⟩] ∧
      SyntaxTree.partlyTyped.functionTypes r.typeOf = [⟨6⟩, ⟨26⟩] ∧ r.typeOf ⟨16⟩ = none := by
  obtain ⟨r, analysed, discovers⟩ :=
    @analyze_discovers SyntaxTree.partlyTyped rfl Settings.standard
  have facts : (analyze SyntaxTree.partlyTyped Settings.standard).map (fun r =>
      (r.types.discovered, SyntaxTree.partlyTyped.functionTypes r.typeOf, r.typeOf ⟨16⟩)) =
      .ok (#[.classType ⟨1⟩, .classType ⟨4⟩, .functionType ⟨0⟩, .functionType ⟨1⟩],
        [⟨6⟩, ⟨26⟩], none) := by decide +kernel
  rw [analysed] at facts
  simp only [Except.map, Except.ok.injEq, Prod.mk.injEq] at facts
  exact ⟨r, analysed, discovers, facts⟩

end ScriptSemantics
