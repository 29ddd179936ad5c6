import Mathlib.Data.List.Induction
import ScriptSemantics.Proofs.Outcomes
import ScriptSemantics.Proofs.SlotGrammar
import ScriptSemantics.Syntax.Draft

/-!
# What a draft adds

Every request to a draft comes down to nodes added one after another, and which productions these
carry depends on the request and on the size of the draft only. So the draft that a sequence of
requests leaves is known from the productions, and its nodes are read off them: each request adds
its own at the end, and a move changes no production.
-/
namespace ScriptSemantics

/-- The width in bytes of a node without children. -/
def Production.width : Production → Nat
  | .classDeclaration name _ _ => name.utf8ByteSize
  | .variableDeclaratorId name => name.utf8ByteSize
  | .typeOrVoid none => "void".utf8ByteSize
  | .primitiveType keyword => keyword.text.utf8ByteSize
  | .classReference name => name.utf8ByteSize
  | .block _ => 2
  | .literal text => text.utf8ByteSize
  | .identifier name => name.utf8ByteSize
  | _ => 0

namespace TreeDraft

/-- The draft with a node of the production. -/
def add (draft : TreeDraft) (production : Production) : Except Fault TreeDraft :=
  Prod.snd <$> (allocate production production.width).run draft

/-- The draft with nodes of the productions, one after another. -/
def addAll (draft : TreeDraft) (productions : List Production) : Except Fault TreeDraft :=
  productions.foldlM add draft

/-- The productions of the nodes in the order in which they were added. -/
def productions (draft : TreeDraft) : List Production := draft.nodes.toList.map Node.production

/-- The declarators of the names, each after its declarator id. -/
def namedDeclarators : Nat → List String → List Production
  | _, [] => []
  | size, name :: names =>
      .variableDeclaratorId name :: .variableDeclarator ⟨size⟩ none ::
        namedDeclarators (size + 2) names

/-- The numbers of the declarators of so many names. -/
def namedDeclaratorIds (size count : Nat) : List NodeId :=
  (List.range count).map fun i => ⟨size + 2 * i + 1⟩

end TreeDraft

namespace DraftStep

/-- A request that moves a node and adds none. -/
def moves : DraftStep → Bool
  | .place _ _ => true
  | _ => false

/-- The productions of the nodes that a request adds to a draft of this size. -/
def additions (size : Nat) : DraftStep → List Production
  | .place _ _ => []
  | .primitiveType keyword => [.primitiveType keyword]
  | .primitive keyword => [.primitiveType keyword, .typeNode ⟨size⟩]
  | .classReference name => [.classReference name]
  | .classType name => [.classReference name, .typeNode ⟨size⟩]
  | .functionType parameters result => [.functionType parameters result, .typeNode ⟨size⟩]
  | .typeNode alternative => [.typeNode alternative]
  | .void => [.typeOrVoid none]
  | .returns type => [.typeOrVoid (some type)]
  | .declaratorId name => [.variableDeclaratorId name]
  | .declarator name initializer =>
      [.variableDeclaratorId name, .variableDeclarator ⟨size⟩ initializer]
  | .declarators type each => [.variableDeclarators type each]
  | .variableDeclaration type names =>
      TreeDraft.namedDeclarators size names ++
        [.variableDeclarators type (TreeDraft.namedDeclaratorIds size names.length)]
  | .parameter type name => [.variableDeclaratorId name, .formalParameter type ⟨size⟩]
  | .function name result parameters body => [.functionDeclaration name result parameters body]
  | .classDeclaration name none body => [.classDeclaration name none body]
  | .classDeclaration name (some superclass) body =>
      [.classReference superclass, .classDeclaration name (some ⟨size⟩) body]
  | .block statements => [.block statements]
  | .expression e => [.expressionStatement e]
  | .literal text => [.literal text]
  | .identifier name => [.identifier name]

end DraftStep

namespace TreeDraft

variable {draft after : TreeDraft} {production : Production}

theorem size_eq_length (draft : TreeDraft) : draft.nodes.size = draft.productions.length := by
  simp [productions]

@[simp] theorem locationOf_eq_ok_iff {id : NodeId} {location : Location} :
    draft.locationOf id = .ok location ↔
      ∃ node, draft.nodes[id.index]? = some node ∧ node.location = location := by
  simp only [locationOf, bind_eq_ok_iff, orDangling_eq_ok_iff]
  exact exists_congr fun node => and_congr_right fun _ => by simp [pure, Except.pure]

/-- A list of children is empty, or it has a first and a last one. -/
theorem ends_cases (children : List NodeId) :
    children = [] ∨ ∃ first last, children.head? = some first ∧ children.getLast? = some last := by
  cases children with
  | nil => exact .inl rfl
  | cons first rest =>
    exact .inr ⟨first, _, rfl, List.getLast?_eq_some_getLast (List.cons_ne_nil first rest)⟩

/-- The width counts for a childless node only. -/
theorem allocate_run {width : Nat} (fits : production.children = [] → width = production.width)
    (draft : TreeDraft) : (allocate production width).run draft =
      (fun after => (⟨draft.nodes.size⟩, after)) <$> draft.add production := by
  simp only [add, allocate, StateT.run]
  obtain childless | ⟨first, last, isFirst, isLast⟩ := ends_cases production.children
  · rw [childless, fits childless]
    rfl
  · rw [isFirst, isLast]
    dsimp only
    cases draft.locationOf first with
    | error => rfl
    | ok start => cases draft.locationOf last <;> rfl

/-- A node without children is added at the cursor, which moves behind it. -/
theorem add_childless (childless : production.children = []) :
    draft.add production = .ok ⟨draft.nodes.push ⟨production,
      ⟨draft.cursor, draft.cursor + production.width⟩⟩, draft.cursor + production.width + 1⟩ := by
  simp only [add, allocate, StateT.run, childless, push]
  rfl

/-- A node with children is added where its first and its last child say. -/
theorem add_eq_ok_iff {first last : NodeId} (isFirst : production.children.head? = some first)
    (isLast : production.children.getLast? = some last) :
    draft.add production = .ok after ↔
      ∃ start stop, draft.nodes[first.index]? = some start ∧
        draft.nodes[last.index]? = some stop ∧
        after = ⟨draft.nodes.push ⟨production, start.location.merge stop.location⟩,
          draft.cursor⟩ := by
  simp only [add, allocate, StateT.run, isFirst, isLast, push, map_eq_ok_iff, bind_eq_ok_iff,
    locationOf_eq_ok_iff]
  constructor
  · rintro ⟨_, ⟨_, ⟨start, foundStart, rfl⟩, _, ⟨stop, foundStop, rfl⟩, same⟩, rfl⟩
    cases same
    exact ⟨start, stop, foundStart, foundStop, rfl⟩
  · rintro ⟨start, stop, foundStart, foundStop, rfl⟩
    exact ⟨_, ⟨_, ⟨start, foundStart, rfl⟩, _, ⟨stop, foundStop, rfl⟩, rfl⟩, rfl⟩

theorem exists_added (inside : ∀ child ∈ production.children, child.index < draft.nodes.size) :
    ∃ after, draft.add production = .ok after := by
  obtain childless | ⟨first, last, isFirst, isLast⟩ := ends_cases production.children
  · exact ⟨_, add_childless childless⟩
  · have firstInside := inside first (List.mem_of_head? isFirst)
    have lastInside := inside last (List.mem_of_getLast? isLast)
    exact ⟨_, (add_eq_ok_iff isFirst isLast).mpr ⟨_, _, Array.getElem?_eq_getElem firstInside,
      Array.getElem?_eq_getElem lastInside, rfl⟩⟩

theorem productions_add (added : draft.add production = .ok after) :
    after.productions = draft.productions ++ [production] := by
  obtain childless | ⟨first, last, isFirst, isLast⟩ := ends_cases production.children
  · rw [add_childless childless, Except.ok.injEq] at added
    simp [← added, productions]
  · obtain ⟨start, stop, -, -, rfl⟩ := (add_eq_ok_iff isFirst isLast).mp added
    simp [productions]

theorem size_add (added : draft.add production = .ok after) :
    after.nodes.size = draft.nodes.size + 1 := by
  simp [size_eq_length, productions_add added]

theorem addAll_append (first second : List Production) :
    draft.addAll (first ++ second) = draft.addAll first >>= (·.addAll second) :=
  List.foldlM_append

@[simp] theorem addAll_nil : draft.addAll [] = .ok draft := rfl

theorem addAll_cons (first : Production) (rest : List Production) :
    draft.addAll (first :: rest) = draft.add first >>= (·.addAll rest) :=
  List.foldlM_cons

@[simp] theorem addAll_singleton : draft.addAll [production] = draft.add production := by
  rw [addAll_cons]
  cases draft.add production <;> rfl

theorem productions_addAll {additions : List Production}
    (added : draft.addAll additions = .ok after) :
    after.productions = draft.productions ++ additions := by
  induction additions generalizing draft with
  | nil =>
    cases added
    simp
  | cons production additions ih =>
    obtain ⟨next, first, rest⟩ := bind_eq_ok_iff.mp (addAll_cons production additions ▸ added)
    rw [ih rest, productions_add first, List.append_assoc, List.singleton_append]

theorem size_addAll {additions : List Production} (added : draft.addAll additions = .ok after) :
    after.nodes.size = draft.nodes.size + additions.length := by
  simp [size_eq_length, productions_addAll added]

/-- Nodes can be added if all their children are there by then. -/
theorem exists_addedAll {additions : List Production}
    (inside : ∀ (i : Nat) production, additions[i]? = some production →
      ∀ child ∈ production.children, child.index < draft.nodes.size + i) :
    ∃ after, draft.addAll additions = .ok after := by
  induction additions generalizing draft with
  | nil => exact ⟨draft, rfl⟩
  | cons production additions ih =>
    obtain ⟨next, first⟩ := exists_added (inside 0 production rfl)
    obtain ⟨after, rest⟩ := @ih next fun i later found child member => by
      have := inside (i + 1) later found child member
      rw [size_add first]
      omega
    exact ⟨after, by rw [addAll_cons, first, ok_bind, rest]⟩

/-- One allocation, and whatever goes on with the new node's number. -/
theorem bind_allocate_run {α : Type} {width : Nat} {goOn : NodeId → Drafting α} {result : α}
    (fits : production.children = [] → width = production.width) :
    (allocate production width >>= goOn).run draft = .ok (result, after) ↔
      ∃ next, draft.add production = .ok next ∧
        (goOn ⟨draft.nodes.size⟩).run next = .ok (result, after) := by
  rw [StateT.run_bind, allocate_run fits, bind_eq_ok_iff]
  simp only [map_eq_ok_iff]
  constructor
  · rintro ⟨_, ⟨next, added, rfl⟩, rest⟩
    exact ⟨next, added, rest⟩
  · rintro ⟨next, added, rest⟩
    exact ⟨_, ⟨next, added, rfl⟩, rest⟩

theorem allocate_run_eq_ok_iff {width : Nat} {id : NodeId}
    (fits : production.children = [] → width = production.width) :
    (allocate production width).run draft = .ok (id, after) ↔
      draft.addAll [production] = .ok after ∧ id.index + 1 = after.nodes.size := by
  rw [allocate_run fits, map_eq_ok_iff, addAll_singleton]
  constructor
  · rintro ⟨_, added, same⟩
    cases same
    exact ⟨added, (size_add added).symm⟩
  · rintro ⟨added, last⟩
    rw [size_add added, Nat.add_right_cancel_iff] at last
    exact ⟨after, added, by rw [← last]⟩

/-- Two allocations, the second of which may refer to the first. -/
theorem allocate_twice_run_eq_ok_iff {first : Production} {second : NodeId → Production}
    {width otherWidth : Nat} {id : NodeId} (fits : first.children = [] → width = first.width)
    (alsoFits : ∀ id, (second id).children = [] → otherWidth = (second id).width) :
    (allocate first width >>= fun id => allocate (second id) otherWidth).run draft =
        .ok (id, after) ↔
      draft.addAll [first, second ⟨draft.nodes.size⟩] = .ok after ∧
        id.index + 1 = after.nodes.size := by
  simp only [bind_allocate_run fits, allocate_run_eq_ok_iff (alsoFits _), addAll_cons first,
    bind_eq_ok_iff, ← and_assoc, exists_and_right]

theorem declarator_run_eq_ok_iff {name : String} {initializer : Option NodeId} {id : NodeId} :
    (declarator name initializer).run draft = .ok (id, after) ↔
      draft.addAll [.variableDeclaratorId name,
          .variableDeclarator ⟨draft.nodes.size⟩ initializer] = .ok after ∧
        id.index + 1 = after.nodes.size :=
  allocate_twice_run_eq_ok_iff (fun _ => rfl) nofun

theorem namedDeclaratorIds_succ (size count : Nat) :
    namedDeclaratorIds size (count + 1) = ⟨size + 1⟩ :: namedDeclaratorIds (size + 2) count := by
  simp only [namedDeclaratorIds, List.range_succ_eq_map, List.map_cons, List.map_map,
    Function.comp_def]
  congr 2
  funext i
  congr 1
  omega

@[simp] theorem length_namedDeclarators (size : Nat) (names : List String) :
    (namedDeclarators size names).length = 2 * names.length := by
  induction names generalizing size with
  | nil => rfl
  | cons name names ih => simp only [namedDeclarators, List.length_cons, ih]; omega

theorem bounds_of_mem_namedDeclaratorIds {size count : Nat} {id : NodeId}
    (member : id ∈ namedDeclaratorIds size count) :
    size < id.index ∧ id.index < size + 2 * count := by
  obtain ⟨i, inside, rfl⟩ := List.mem_map.mp member
  have := List.mem_range.mp inside
  constructor <;> dsimp only <;> omega

theorem nodup_namedDeclaratorIds (size count : Nat) : (namedDeclaratorIds size count).Nodup := by
  refine List.nodup_range.map fun i j same => ?_
  have : size + 2 * i + 1 = size + 2 * j + 1 := congrArg NodeId.index same
  omega

theorem declarators_run_eq_ok_iff {names : List String} {ids : List NodeId} :
    (names.mapM fun name => declarator name none).run draft = .ok (ids, after) ↔
      draft.addAll (namedDeclarators draft.nodes.size names) = .ok after ∧
        ids = namedDeclaratorIds draft.nodes.size names.length := by
  induction names generalizing draft after ids with
  | nil =>
    simp only [List.mapM_nil, StateT.run_pure, namedDeclarators, addAll_nil]
    constructor
    · intro same
      cases same
      exact ⟨rfl, rfl⟩
    · rintro ⟨same, rfl⟩
      cases same
      rfl
  | cons name names ih =>
    have split : namedDeclarators draft.nodes.size (name :: names) =
        [.variableDeclaratorId name, .variableDeclarator ⟨draft.nodes.size⟩ none] ++
          namedDeclarators (draft.nodes.size + 2) names := rfl
    simp only [List.mapM_cons, StateT.run_bind, bind_eq_ok_iff, Prod.exists, StateT.run_pure,
      declarator_run_eq_ok_iff, ih, split, addAll_append, List.length_cons,
      namedDeclaratorIds_succ]
    constructor
    · rintro ⟨id, middle, ⟨added, answered⟩, _, _, ⟨others, rfl⟩, same⟩
      cases same
      have grown : middle.nodes.size = draft.nodes.size + 2 := size_addAll added
      obtain rfl : id = ⟨draft.nodes.size + 1⟩ := congrArg NodeId.mk (by omega)
      rw [grown] at others ⊢
      exact ⟨⟨middle, added, others⟩, rfl⟩
    · rintro ⟨⟨middle, added, others⟩, rfl⟩
      have grown : middle.nodes.size = draft.nodes.size + 2 := size_addAll added
      rw [← grown] at others
      exact ⟨⟨draft.nodes.size + 1⟩, middle, ⟨added, grown.symm⟩, _, after, ⟨others, rfl⟩,
        by rw [grown]; rfl⟩

end TreeDraft

theorem DraftStep.run_eq_ok_iff {step : DraftStep} (adds : step.moves = false)
    {draft after : TreeDraft} {id : NodeId} :
    step.run.run draft = .ok (id, after) ↔
      draft.addAll (step.additions draft.nodes.size) = .ok after ∧
        id.index + 1 = after.nodes.size := by
  cases step with
  | place => cases adds
  | declarator => exact TreeDraft.declarator_run_eq_ok_iff
  | primitive | classType | parameter =>
    exact TreeDraft.allocate_twice_run_eq_ok_iff (fun _ => rfl) nofun
  | functionType =>
    exact TreeDraft.allocate_twice_run_eq_ok_iff (by simp [Production.children]) nofun
  | variableDeclaration type names =>
    simp only [DraftStep.run, TreeDraft.variableDeclaration, StateT.run_bind, bind_eq_ok_iff,
      Prod.exists, TreeDraft.declarators_run_eq_ok_iff, additions, TreeDraft.addAll_append]
    constructor
    · rintro ⟨_, next, ⟨named, rfl⟩, last⟩
      obtain ⟨last, answered⟩ := (TreeDraft.allocate_run_eq_ok_iff (by exact fun _ => rfl)).mp last
      exact ⟨⟨next, named, last⟩, answered⟩
    · rintro ⟨⟨next, named, last⟩, answered⟩
      refine ⟨_, next, ⟨named, rfl⟩, ?_⟩
      exact (TreeDraft.allocate_run_eq_ok_iff (by exact fun _ => rfl)).mpr ⟨last, answered⟩
  | classDeclaration name superclass body =>
    cases superclass with
    | none =>
      refine TreeDraft.allocate_run_eq_ok_iff ?_
      exact fun _ => rfl
    | some superclass =>
      have added := @TreeDraft.allocate_twice_run_eq_ok_iff draft after (.classReference superclass)
        (fun id => .classDeclaration name (some id) body) _ _ id (fun _ => rfl) (fun _ _ => rfl)
      exact added
  | function =>
    refine TreeDraft.allocate_run_eq_ok_iff ?_
    simp [Production.children]
  | _ =>
    simp only [DraftStep.run, TreeDraft.primitiveType, TreeDraft.classReference, TreeDraft.typeNode,
      TreeDraft.void, TreeDraft.returns, TreeDraft.declaratorId, TreeDraft.declarators,
      TreeDraft.block, TreeDraft.expression, TreeDraft.literal, TreeDraft.identifier, additions]
    refine TreeDraft.allocate_run_eq_ok_iff ?_
    exact fun _ => rfl

/-- A move keeps the productions, and stops only if the node is not there. -/
theorem TreeDraft.place_run_eq_ok_iff {draft after : TreeDraft} {id answer : NodeId}
    {location : Location} :
    (place id location).run draft = .ok (answer, after) ↔
      answer = id ∧ ∃ node, draft.nodes[id.index]? = some node ∧
        after = { draft with
          nodes := draft.nodes.setIfInBounds id.index { node with location := location } } := by
  simp only [place, StateT.run, bind_eq_ok_iff, orDangling_eq_ok_iff]
  constructor
  · rintro ⟨node, found, same⟩
    cases same
    exact ⟨rfl, node, found, rfl⟩
  · rintro ⟨rfl, node, found, rfl⟩
    exact ⟨node, found, rfl⟩

theorem DraftStep.productions_run {step : DraftStep} {draft after : TreeDraft} {id : NodeId}
    (ran : step.run.run draft = .ok (id, after)) :
    after.productions = draft.productions ++ step.additions draft.nodes.size := by
  cases moves : step.moves with
  | false => exact TreeDraft.productions_addAll ((run_eq_ok_iff moves).mp ran).1
  | true =>
    cases step with
    | place placed location =>
      obtain ⟨-, node, found, rfl⟩ := TreeDraft.place_run_eq_ok_iff.mp ran
      obtain ⟨inside, rfl⟩ := Array.getElem?_eq_some_iff.mp found
      apply List.ext_getElem?
      intro i
      simp only [TreeDraft.productions, additions, List.append_nil, Array.toList_setIfInBounds,
        List.map_set, List.getElem?_set]
      split
      case isTrue same => simp [← same, inside]
      case isFalse => rfl
    | _ => cases moves

theorem DraftStep.additions_length_pos {step : DraftStep} (adds : step.moves = false) (size : Nat) :
    0 < (step.additions size).length := by
  cases step with
  | place => cases adds
  | classDeclaration _ superclass => cases superclass <;> simp [additions]
  | _ => simp [additions]

/-- A request does not stop if what it moves is there, and so are the children of what it adds. -/
theorem DraftStep.exists_run {step : DraftStep} {draft : TreeDraft}
    (present : ∀ id location, step = .place id location → id.index < draft.nodes.size)
    (inside : ∀ (i : Nat) production, (step.additions draft.nodes.size)[i]? = some production →
      ∀ child ∈ production.children, child.index < draft.nodes.size + i) :
    ∃ id after, step.run.run draft = .ok (id, after) := by
  cases moves : step.moves with
  | true =>
    cases step with
    | place id location =>
      have found := Array.getElem?_eq_getElem (present id location rfl)
      exact ⟨id, _, TreeDraft.place_run_eq_ok_iff.mpr ⟨rfl, _, found, rfl⟩⟩
    | _ => cases moves
  | false =>
    obtain ⟨after, added⟩ := TreeDraft.exists_addedAll inside
    have grown := TreeDraft.size_addAll added
    have some := step.additions_length_pos moves draft.nodes.size
    exact ⟨⟨after.nodes.size - 1⟩, after, (run_eq_ok_iff moves).mpr ⟨added, by dsimp only; omega⟩⟩

namespace TreeDraft

theorem finish_eq_ok_iff {draft : TreeDraft} {items : List NodeId} {tree : SyntaxTree} :
    draft.finish items = .ok tree ↔
      ∃ after, draft.add (.compilationUnit items) = .ok after ∧
        tree = ⟨after.nodes, ⟨draft.nodes.size⟩⟩ := by
  have fits : (Production.compilationUnit items).children = [] →
      0 = (Production.compilationUnit items).width := fun _ => rfl
  rw [finish, allocate_run fits]
  cases draft.add (.compilationUnit items) with
  | error => simp
  | ok after =>
    simp only [map_ok, ok_bind, Except.ok.injEq, exists_eq_left']
    exact ⟨fun same => (Except.ok.inj same).symm, fun same => congrArg _ same.symm⟩

/-- The last request starts from the draft that those before it leave. -/
theorem runAll_snoc_eq_ok_iff {steps : List DraftStep} {step : DraftStep}
    {draft after : TreeDraft} {answers : List NodeId} :
    (runAll (steps ++ [step])).run draft = .ok (answers, after) ↔
      ∃ earlier middle id, (runAll steps).run draft = .ok (earlier, middle) ∧
        step.run.run middle = .ok (id, after) ∧ answers = earlier ++ [id] := by
  simp only [runAll, List.mapM_append, List.mapM_cons, List.mapM_nil, StateT.run_bind,
    StateT.run_pure, bind_eq_ok_iff, Prod.exists]
  constructor
  · rintro ⟨earlier, middle, before, _, _, ⟨id, _, ran, _, _, same, also⟩, result⟩
    cases same
    cases also
    cases result
    exact ⟨earlier, middle, id, before, ran, rfl⟩
  · rintro ⟨earlier, middle, id, before, ran, rfl⟩
    exact ⟨earlier, middle, before, [id], after, ⟨id, after, ran, [], after, rfl, rfl⟩, rfl⟩

theorem length_answers {steps : List DraftStep} {draft after : TreeDraft} {answers : List NodeId}
    (ran : (runAll steps).run draft = .ok (answers, after)) : answers.length = steps.length := by
  induction steps using List.reverseRecOn generalizing answers after with
  | nil =>
    cases ran
    rfl
  | append_singleton steps step ih =>
    obtain ⟨earlier, middle, id, before, -, rfl⟩ := runAll_snoc_eq_ok_iff.mp ran
    simp [ih before]

end TreeDraft

/-- What a request passes as children, in walk order, each with the slot that it is to take. -/
def DraftStep.passes : DraftStep → List (Slot × NodeId)
  | .functionType parameters result => (Production.functionType parameters result).seats
  | .typeNode alternative => (Production.typeNode alternative).seats
  | .returns type => (Production.typeOrVoid (some type)).seats
  | .declarator _ initializer => initializer.toList.map (Prod.mk .expression)
  | .declarators type each => (Production.variableDeclarators type each).seats
  | .variableDeclaration type _ | .parameter type _ => [(.type, type)]
  | .function name result parameters body =>
      (Production.functionDeclaration name result parameters body).seats
  | .classDeclaration _ _ body => body.map (Prod.mk .member)
  | .block statements => (Production.block statements).seats
  | .expression e => (Production.expressionStatement e).seats
  | .place _ _ | .primitiveType _ | .primitive _ | .classReference _ | .classType _ | .void
  | .declaratorId _ | .literal _ | .identifier _ => []

theorem TreeDraft.namedDeclarators_child {size i : Nat} {names : List String}
    {production : Production} {child : NodeId}
    (found : (namedDeclarators size names)[i]? = some production)
    (member : child ∈ production.children) : size ≤ child.index ∧ child.index < size + i := by
  induction names generalizing size i with
  | nil => cases found
  | cons name names ih =>
    match i, found with
    | 0, found =>
      cases found
      cases member
    | 1, found =>
      cases found
      cases member with
      | head => exact ⟨Nat.le_refl _, Nat.lt_succ_self _⟩
      | tail _ member => cases member
    | i + 2, found =>
      have := ih found
      omega

/-- Besides the declaration of several names, a request moves a node, or adds one that takes what is
passed, or adds two, of which the second takes the first and what the first leaves. -/
theorem DraftStep.additions_cases (step : DraftStep) (size : Nat) :
    (step.additions size = [] ∧ step.passes = []) ∨
    (∃ only, step.additions size = [only] ∧ only.seats = step.passes) ∨
    (∃ first second slot rest, step.additions size = [first, second] ∧
      slot.admits first.kind = true ∧ first.seats ++ rest = step.passes ∧
        second.seats.Perm ((slot, ⟨size⟩) :: rest)) ∨
    ∃ type names, step = .variableDeclaration type names := by
  cases step with
  | place => exact .inl ⟨rfl, rfl⟩
  | primitive | classType | declarator =>
    exact .inr (.inr (.inl ⟨_, _, _, _, rfl, rfl, rfl, .refl _⟩))
  | parameter => exact .inr (.inr (.inl ⟨_, _, _, _, rfl, rfl, rfl, .swap _ _ _⟩))
  | functionType => exact .inr (.inr (.inl ⟨_, _, _, _, rfl, rfl, List.append_nil _, .refl _⟩))
  | variableDeclaration type names => exact .inr (.inr (.inr ⟨type, names, rfl⟩))
  | classDeclaration name superclass body =>
    cases superclass with
    | none => exact .inr (.inl ⟨_, rfl, rfl⟩)
    | some superclass => exact .inr (.inr (.inl ⟨_, _, _, _, rfl, rfl, rfl, .refl _⟩))
  | _ => exact .inr (.inl ⟨_, rfl, rfl⟩)

/-- What a request adds has as children what is passed, and what it added before. -/
theorem DraftStep.child_cases {step : DraftStep} {size i : Nat} {production : Production}
    {child : NodeId} (found : (step.additions size)[i]? = some production)
    (member : child ∈ production.children) :
    child ∈ step.passes.map Prod.snd ∨ size ≤ child.index ∧ child.index < size + i := by
  rcases step.additions_cases size with ⟨none, -⟩ | ⟨only, one, same⟩ |
    ⟨first, second, slot, rest, two, -, both, takes⟩ | ⟨type, names, rfl⟩
  · rw [none] at found
    cases found
  · rw [one, List.getElem?_singleton] at found
    split at found <;> cases found
    rw [← same, Production.map_snd_seats]
    exact .inl member
  · rw [two] at found
    rw [← both, List.map_append, List.mem_append]
    match i, found with
    | 0, found =>
      cases found
      rw [← Production.map_snd_seats] at member
      exact .inl (.inl member)
    | 1, found =>
      cases found
      rw [← Production.map_snd_seats, (takes.map Prod.snd).mem_iff, List.map_cons] at member
      rcases List.mem_cons.mp member with rfl | passed
      · exact .inr ⟨Nat.le_refl _, Nat.lt_succ_self _⟩
      · exact .inl (.inr passed)
  · rw [additions, List.getElem?_append] at found
    split at found
    case isTrue => exact .inr (TreeDraft.namedDeclarators_child found member)
    case isFalse early =>
      rw [List.getElem?_singleton] at found
      split at found <;> cases found
      rcases List.mem_cons.mp member with rfl | named
      · exact .inl (List.mem_singleton_self _)
      · have := TreeDraft.bounds_of_mem_namedDeclaratorIds named
        rw [TreeDraft.length_namedDeclarators] at early
        exact .inr (by omega)

namespace TreeDraft

variable {steps before after : List DraftStep} {step : DraftStep} {items : List NodeId}

/-- What is passed by each call, with the requests before it. The last call makes the root. -/
def calls (steps : List DraftStep) (items : List NodeId) :
    List (List DraftStep × List (Slot × NodeId)) :=
  (steps.zipIdx.map fun (step, i) => (steps.take i, step.passes)) ++
    [(steps, (Production.compilationUnit items).seats)]

/-- What the requests answer and the draft that they leave. Requests that stop answer nothing. -/
def outcome (steps : List DraftStep) : List NodeId × TreeDraft :=
  match (runAll steps).run empty with
  | .ok outcome => outcome
  | .error _ => ([], empty)

/-- The nodes with which those of the requests have answered that add nodes. -/
def answered (steps : List DraftStep) : List NodeId :=
  ((steps.zip (outcome steps).1).filter fun entry => !entry.1.moves).map Prod.snd

theorem mem_calls_of_split : (before, step.passes) ∈ calls (before ++ step :: after) items := by
  refine List.mem_append_left _ (List.mem_map.mpr ⟨(step, before.length), ?_, by simp⟩)
  simp [List.mem_zipIdx_iff_getElem?]

theorem mem_calls_last : (steps, (Production.compilationUnit items).seats) ∈ calls steps items := by
  simp [calls]

theorem outcome_eq {answers : List NodeId} {draft : TreeDraft}
    (ran : (runAll steps).run empty = .ok (answers, draft)) : outcome steps = (answers, draft) := by
  rw [outcome, ran]

theorem answered_snoc {answers : List NodeId} {draft after : TreeDraft} {id : NodeId}
    (ran : (runAll steps).run empty = .ok (answers, draft))
    (last : step.run.run draft = .ok (id, after)) :
    answered (steps ++ [step]) = answered steps ++ if step.moves then [] else [id] := by
  have both := runAll_snoc_eq_ok_iff.mpr ⟨answers, draft, id, ran, last, rfl⟩
  rw [answered, answered, outcome_eq ran, outcome_eq both, List.zip_append (length_answers ran).symm,
    List.filter_append, List.map_append]
  cases moves : step.moves <;> simp [moves]

/-- Every child that is passed was answered by an earlier request that adds nodes. -/
def PassesAnswers (steps : List DraftStep) (items : List NodeId) : Prop :=
  ∀ call ∈ calls steps items, ∀ pass ∈ call.2, pass.2 ∈ answered call.1

/-- Every node that is moved is there by then. -/
def MovesPresent (steps : List DraftStep) : Prop :=
  ∀ (i : Nat) id location, steps[i]? = some (.place id location) →
    id.index < (outcome (steps.take i)).2.nodes.size

/-- What requests answered is there. By induction on the last request. -/
theorem answered_inside {answers : List NodeId} {draft : TreeDraft}
    (ran : (runAll steps).run empty = .ok (answers, draft)) :
    ∀ id ∈ answered steps, id.index < draft.nodes.size := by
  induction steps using List.reverseRecOn generalizing answers draft with
  | nil => nofun
  | append_singleton steps step ih =>
    obtain ⟨earlier, middle, id, start, last, -⟩ := runAll_snoc_eq_ok_iff.mp ran
    have grown : draft.nodes.size = middle.nodes.size + (step.additions middle.nodes.size).length := by
      simp [size_eq_length, step.productions_run last]
    intro other isAnswer
    rw [answered_snoc start last, List.mem_append] at isAnswer
    rcases isAnswer with earlier | new
    · have := ih start other earlier
      omega
    · split at new
      case isTrue => cases new
      case isFalse adds =>
        obtain rfl := List.mem_singleton.mp new
        have := ((DraftStep.run_eq_ok_iff (eq_false_of_ne_true adds)).mp last).2
        omega

theorem PassesAnswers.inside {passes : List (Slot × NodeId)} {answers : List NodeId}
    {draft : TreeDraft} (passesAnswers : PassesAnswers steps items)
    (listed : (before, passes) ∈ calls steps items)
    (ran : (runAll before).run empty = .ok (answers, draft)) :
    ∀ id ∈ passes.map Prod.snd, id.index < draft.nodes.size := by
  intro id member
  obtain ⟨pass, listedPass, rfl⟩ := List.mem_map.mp member
  exact answered_inside ran _ (passesAnswers _ listed pass listedPass)

/-- Children are older than their parents. By induction on the last request. -/
theorem children_older {answers : List NodeId} {draft : TreeDraft}
    (passes : PassesAnswers steps items) (split : steps = before ++ after)
    (ran : (runAll before).run empty = .ok (answers, draft)) {i : Nat} {production : Production}
    (found : draft.productions[i]? = some production) {child : NodeId}
    (member : child ∈ production.children) : child.index < i := by
  induction before using List.reverseRecOn generalizing after answers draft i with
  | nil =>
    cases ran
    cases found
  | append_singleton before step ih =>
    rw [List.append_assoc, List.singleton_append] at split
    obtain ⟨earlier, middle, id, start, last, -⟩ := runAll_snoc_eq_ok_iff.mp ran
    rw [step.productions_run last, List.getElem?_append, ← size_eq_length] at found
    split at found
    case isTrue => exact ih split start found
    case isFalse late =>
      rcases step.child_cases found member with old | new
      · have := passes.inside (split ▸ mem_calls_of_split) start child old
        omega
      · omega

/-- Requests that pass only what was answered, and move only what is there, do not stop. By
induction on the last request. -/
theorem exists_runAll (passes : PassesAnswers steps items) (moves : MovesPresent steps)
    (split : steps = before ++ after) :
    ∃ answers draft, (runAll before).run empty = .ok (answers, draft) := by
  induction before using List.reverseRecOn generalizing after with
  | nil => exact ⟨[], empty, rfl⟩
  | append_singleton before step ih =>
    rw [List.append_assoc, List.singleton_append] at split
    obtain ⟨answers, draft, ran⟩ := ih split
    have present : ∀ id location, step = .place id location → id.index < draft.nodes.size := by
      rintro id location rfl
      have present := moves before.length id location (by simp [split])
      rwa [split, List.take_left, outcome_eq ran] at present
    have inside := passes.inside (split ▸ mem_calls_of_split) ran
    obtain ⟨id, next, last⟩ := step.exists_run present fun i production found child member => by
      rcases step.child_cases found member with old | new
      · exact Nat.lt_add_right i (inside child old)
      · exact new.2
    exact ⟨_, next, runAll_snoc_eq_ok_iff.mpr ⟨answers, draft, id, ran, last, rfl⟩⟩

theorem exists_tree (passes : PassesAnswers steps items) (moves : MovesPresent steps) :
    ∃ answers draft after, (runAll steps).run empty = .ok (answers, draft) ∧
      draft.add (.compilationUnit items) = .ok after ∧
      TreeDraft.tree steps items = .ok ⟨after.nodes, ⟨draft.nodes.size⟩⟩ := by
  obtain ⟨answers, draft, ran⟩ := exists_runAll passes moves (List.append_nil steps).symm
  have inside := passes.inside mem_calls_last ran
  rw [Production.map_snd_seats] at inside
  obtain ⟨after, added⟩ := @exists_added draft (.compilationUnit items) inside
  refine ⟨answers, draft, after, ran, added, ?_⟩
  rw [TreeDraft.tree, ran, ok_bind]
  exact finish_eq_ok_iff.mpr ⟨after, added, rfl⟩

end TreeDraft

end ScriptSemantics
