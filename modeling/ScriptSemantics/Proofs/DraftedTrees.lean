import ScriptSemantics.Proofs.Drafts

/-!
# Drafted trees are valid

A draft grows at its end, so whatever a new node refers to is older than it. A node that was
answered stays free until a request passes it, and nodes that a request adds for itself are used up
by the same request. With kinds that fit the slots, the nodes are a tree of the grammar at any time,
whichever of them are never used.
-/
namespace ScriptSemantics

/-- Every production refers to earlier ones only, which fit its slots, and none is referred to
twice. -/
structure BottomUp (productions : List Production) : Prop where
  seated : ∀ (i : Nat) production, productions[i]? = some production →
    ∀ seat ∈ production.seats, seat.2.index < i ∧
      ∃ below, productions[seat.2.index]? = some below ∧ seat.1.admits below.kind = true
  once : (productions.flatMap Production.children).Nodup

/-- A production is there and nobody's child yet. -/
structure Free (productions : List Production) (id : NodeId) : Prop where
  inside : id.index < productions.length
  unused : id ∉ productions.flatMap Production.children

/-- A free production of a kind that the slot admits. -/
structure Fits (productions : List Production) (pass : Slot × NodeId) : Prop where
  free : Free productions pass.2
  admitted : ∃ below, productions[pass.2.index]? = some below ∧ pass.1.admits below.kind = true

/-- Productions have become more of them, and of the free ones only those that are listed were taken
as children. -/
structure Grown (productions : List Production) (taken : List NodeId)
    (more : List Production) : Prop where
  bottomUp : BottomUp more
  extended : productions <+: more
  kept : ∀ id, Free productions id → id ∉ taken → Free more id

variable {productions more : List Production} {production : Production} {id : NodeId}

/-- What is there stays there when the productions become more. -/
theorem getElem?_extended (extended : productions <+: more) {i : Nat}
    (found : productions[i]? = some production) : more[i]? = some production := by
  obtain ⟨rest, rfl⟩ := extended
  rw [List.getElem?_append_left (List.getElem?_eq_some_iff.mp found).1, found]

theorem BottomUp.nil : BottomUp [] := ⟨by simp, by simp⟩

theorem BottomUp.child_lt (bottomUp : BottomUp productions) {i : Nat}
    (found : productions[i]? = some production) (member : id ∈ production.children) :
    id.index < i := by
  rw [← production.map_snd_seats] at member
  obtain ⟨seat, listed, rfl⟩ := List.mem_map.mp member
  exact (bottomUp.seated i production found seat listed).1

theorem BottomUp.last_free (bottomUp : BottomUp productions) (last : id.index + 1 = productions.length) :
    Free productions id := by
  refine ⟨by omega, fun member => ?_⟩
  obtain ⟨production, listed, member⟩ := List.mem_flatMap.mp member
  obtain ⟨i, found⟩ := List.mem_iff_getElem?.mp listed
  have older := bottomUp.child_lt found member
  have inside := (List.getElem?_eq_some_iff.mp found).1
  omega

theorem Fits.child_free (fits : ∀ seat ∈ production.seats, Fits productions seat)
    (member : id ∈ production.children) : Free productions id := by
  rw [← production.map_snd_seats] at member
  obtain ⟨seat, listed, rfl⟩ := List.mem_map.mp member
  exact (fits seat listed).free

/-- One more production, whose children are free and fit. -/
theorem BottomUp.snoc (bottomUp : BottomUp productions)
    (fits : ∀ seat ∈ production.seats, Fits productions seat)
    (once : production.children.Nodup) :
    Grown productions production.children (productions ++ [production]) := by
  have unused (id : NodeId) : id ∉ (productions ++ [production]).flatMap Production.children ↔
      id ∉ productions.flatMap Production.children ∧ id ∉ production.children := by
    simp [not_or]
  refine ⟨⟨?seated, ?once⟩, List.prefix_append _ _, ?kept⟩
  case seated =>
    intro i later found seat listed
    rcases Nat.lt_or_ge i productions.length with old | new
    · rw [List.getElem?_append_left old] at found
      obtain ⟨earlier, below, foundBelow, admitted⟩ := bottomUp.seated i later found seat listed
      exact ⟨earlier, below, getElem?_extended (List.prefix_append _ _) foundBelow, admitted⟩
    · rw [List.getElem?_append_right new, List.getElem?_singleton] at found
      split at found <;> cases found
      obtain ⟨⟨inside, -⟩, below, foundBelow, admitted⟩ := fits seat listed
      exact ⟨by omega, below, getElem?_extended (List.prefix_append _ _) foundBelow, admitted⟩
  case once =>
    rw [List.flatMap_append, List.flatMap_singleton, List.nodup_append]
    exact ⟨bottomUp.once, once,
      fun a old b new same => (Fits.child_free fits new).unused (same ▸ old)⟩
  case kept =>
    intro id free untaken
    exact ⟨by simpa using Nat.lt_succ_of_lt free.inside, (unused id).mpr ⟨free.unused, untaken⟩⟩

namespace Grown

variable {first second third : List Production} {taken alsoTaken : List NodeId}

theorem refl (bottomUp : BottomUp first) : Grown first [] (first ++ []) := by
  rw [List.append_nil]
  exact ⟨bottomUp, List.prefix_refl _, fun _ free _ => free⟩

/-- What is taken of the productions that come in between does not count. -/
theorem trans (grown : Grown first taken second) (again : Grown second alsoTaken third)
    {both : List NodeId}
    (covered : ∀ id ∈ taken ++ alsoTaken, id.index < first.length → id ∈ both) :
    Grown first both third where
  bottomUp := again.bottomUp
  extended := grown.extended.trans again.extended
  kept id free untaken := by
    have avoided : id ∉ taken ++ alsoTaken :=
      fun member => untaken (covered id member free.inside)
    rw [List.mem_append, not_or] at avoided
    exact again.kept id (grown.kept id free avoided.1) avoided.2

theorem fits (grown : Grown first taken second) {pass : Slot × NodeId}
    (fits : Fits first pass) (untaken : pass.2 ∉ taken) : Fits second pass := by
  obtain ⟨free, below, found, admitted⟩ := fits
  exact ⟨grown.kept _ free untaken, below, getElem?_extended grown.extended found, admitted⟩

end Grown

namespace BottomUp

variable (bottomUp : BottomUp productions)
include bottomUp

theorem single {passes : List (Slot × NodeId)} (takes : production.seats = passes)
    (fits : ∀ pass ∈ passes, Fits productions pass) (once : (passes.map Prod.snd).Nodup) :
    Grown productions (passes.map Prod.snd) (productions ++ [production]) := by
  subst takes
  rw [production.map_snd_seats] at once ⊢
  exact bottomUp.snoc fits once

/-- Two productions of which the second takes the first, and together they take just what is
passed. -/
theorem pair {first second : Production} {slot : Slot} {passes rest : List (Slot × NodeId)}
    (takes : second.seats.Perm ((slot, ⟨productions.length⟩) :: rest))
    (admits : slot.admits first.kind = true) (both : first.seats ++ rest = passes)
    (fits : ∀ pass ∈ passes, Fits productions pass) (once : (passes.map Prod.snd).Nodup) :
    Grown productions (passes.map Prod.snd) (productions ++ [first, second]) := by
  subst both
  rw [List.map_append, List.nodup_append] at once
  obtain ⟨firstOnce, restOnce, apart⟩ := once
  have before := bottomUp.single rfl (fun seat listed => fits seat (List.mem_append_left _ listed))
    firstOnce
  have fresh : ⟨productions.length⟩ ∉ rest.map Prod.snd := by
    intro member
    obtain ⟨pass, listed, same⟩ := List.mem_map.mp member
    have inside := (fits pass (List.mem_append_right _ listed)).free.inside
    rw [same] at inside
    exact Nat.lt_irrefl _ inside
  have after := @single _ second before.bottomUp _ rfl ?fits ?once
  case fits =>
    intro seat listed
    rcases List.mem_cons.mp (takes.mem_iff.mp listed) with rfl | member
    · exact ⟨before.bottomUp.last_free (by simp), first, by simp, admits⟩
    · refine before.fits (fits seat (List.mem_append_right _ member)) fun taken => ?_
      exact apart _ taken _ (List.mem_map_of_mem member) rfl
  case once =>
    rw [(takes.map Prod.snd).nodup_iff]
    exact List.nodup_cons.mpr ⟨fresh, restOnce⟩
  rw [List.append_assoc, List.singleton_append] at after
  refine before.trans after fun id member old => ?_
  rw [List.map_append]
  rcases List.mem_append.mp member with taken | taken
  · exact List.mem_append_left _ taken
  · rcases List.mem_cons.mp ((takes.map Prod.snd).mem_iff.mp taken) with rfl | passed
    · exact absurd old (Nat.lt_irrefl _)
    · exact List.mem_append_right _ passed

/-- The declarators of any names take only their own declarator ids, and all of them are free. -/
theorem named (names : List String) :
    Grown productions [] (productions ++ TreeDraft.namedDeclarators productions.length names) ∧
      ∀ id ∈ TreeDraft.namedDeclaratorIds productions.length names.length,
        Fits (productions ++ TreeDraft.namedDeclarators productions.length names)
          (.declarator, id) := by
  induction names generalizing productions with
  | nil =>
    exact ⟨.refl bottomUp, nofun⟩
  | cons name names ih =>
    let head : List Production :=
      [.variableDeclaratorId name, .variableDeclarator ⟨productions.length⟩ none]
    have first : Grown productions [] (productions ++ head) :=
      @pair _ bottomUp _ _ .declaratorId [] _ (.refl _) rfl rfl nofun .nil
    obtain ⟨rest, free⟩ := ih first.bottomUp
    have split : (productions ++ head) ++
          TreeDraft.namedDeclarators (productions ++ head).length names =
        productions ++ TreeDraft.namedDeclarators productions.length (name :: names) := by
      simp [head, TreeDraft.namedDeclarators]
    rw [split] at rest free
    refine ⟨first.trans rest (by simp), ?_⟩
    rw [List.length_cons, TreeDraft.namedDeclaratorIds_succ]
    intro id listed
    rcases List.mem_cons.mp listed with rfl | later
    · refine rest.fits ⟨first.bottomUp.last_free (by simp [head]), ?_⟩ (by simp)
      exact ⟨.variableDeclarator ⟨productions.length⟩ none, by simp [head], rfl⟩
    · exact free id (by simpa [head] using later)

/-- A declaration of any names takes its own declarators, and the type that is passed. -/
theorem variableDeclaration {type : NodeId} {names : List String}
    (fits : Fits productions (.type, type)) :
    Grown productions [type] (productions ++
      (DraftStep.variableDeclaration type names).additions productions.length) := by
  obtain ⟨named, free⟩ := bottomUp.named names
  have last := @single _ (.variableDeclarators type
    (TreeDraft.namedDeclaratorIds productions.length names.length)) named.bottomUp _ rfl ?fits ?once
  case fits =>
    intro pass listed
    rcases List.mem_cons.mp listed with rfl | later
    · exact named.fits fits (by simp)
    · obtain ⟨id, member, rfl⟩ := List.mem_map.mp later
      exact free id member
  case once =>
    rw [Production.map_snd_seats, Production.children, List.nodup_cons]
    refine ⟨fun listed => ?_, TreeDraft.nodup_namedDeclaratorIds _ _⟩
    exact Nat.lt_asymm fits.free.inside (TreeDraft.bounds_of_mem_namedDeclaratorIds listed).1
  rw [List.append_assoc] at last
  refine named.trans last fun id listed old => ?_
  rw [List.nil_append, Production.map_snd_seats, Production.children, List.mem_cons] at listed
  rcases listed with rfl | later
  · exact List.mem_singleton_self _
  · exact absurd old (Nat.lt_asymm (TreeDraft.bounds_of_mem_namedDeclaratorIds later).1)

end BottomUp

/-- A request takes just what is passed to it. -/
theorem DraftStep.grown {step : DraftStep} (bottomUp : BottomUp productions)
    (fits : ∀ pass ∈ step.passes, Fits productions pass) (once : (step.passes.map Prod.snd).Nodup) :
    Grown productions (step.passes.map Prod.snd)
      (productions ++ step.additions productions.length) := by
  rcases step.additions_cases productions.length with ⟨none, nothing⟩ | ⟨only, one, same⟩ |
    ⟨first, second, slot, rest, two, admits, both, takes⟩ | ⟨type, names, rfl⟩
  · rw [none, nothing]
    exact .refl bottomUp
  · rw [one]
    exact bottomUp.single same fits once
  · rw [two]
    exact bottomUp.pair takes admits both fits once
  · exact bottomUp.variableDeclaration (fits _ (List.mem_singleton_self _))

namespace TreeDraft

/-- Each child that is passed was answered by an earlier request that adds nodes, has a kind that
its slot admits, and is passed once over the whole sequence; and what is moved is there. -/
structure Careful (steps : List DraftStep) (items : List NodeId) : Prop where
  answered : PassesAnswers steps items
  admitted : ∀ call ∈ calls steps items, ∀ pass ∈ call.2,
    ∀ node ∈ (outcome call.1).2.nodes[pass.2.index]?, pass.1.admits node.kind = true
  once : ((steps.flatMap DraftStep.passes).map Prod.snd ++ items).Nodup
  moved : MovesPresent steps

variable {steps before after : List DraftStep} {items : List NodeId} {draft : TreeDraft}

/-- What was answered and is not passed yet is free. -/
def Spares (steps : List DraftStep) (draft : TreeDraft) : Prop :=
  ∀ id ∈ answered steps, id ∉ (steps.flatMap DraftStep.passes).map Prod.snd →
    Free draft.productions id

theorem Careful.fits {passes : List (Slot × NodeId)} {answers : List NodeId}
    (careful : Careful steps items) (listed : (before, passes) ∈ calls steps items)
    (ran : (runAll before).run empty = .ok (answers, draft)) (spares : Spares before draft)
    (new : ∀ pass ∈ passes, pass.2 ∉ (before.flatMap DraftStep.passes).map Prod.snd) :
    ∀ pass ∈ passes, Fits draft.productions pass := by
  intro pass member
  have free := spares _ (careful.answered _ listed pass member) (new pass member)
  have inside := free.inside
  rw [← size_eq_length] at inside
  refine ⟨free, draft.nodes[pass.2.index].production, by simp [productions, inside], ?_⟩
  have admitted := careful.admitted _ listed pass member
  rw [outcome_eq ran] at admitted
  exact admitted _ (Array.getElem?_eq_getElem inside)

/-- The draft stays bottom-up. By induction on the last request. -/
theorem Careful.bottomUp {answers : List NodeId} (careful : Careful steps items)
    (split : steps = before ++ after) (ran : (runAll before).run empty = .ok (answers, draft)) :
    BottomUp draft.productions ∧ Spares before draft := by
  induction before using List.reverseRecOn generalizing after answers draft with
  | nil =>
    cases ran
    exact ⟨.nil, nofun⟩
  | append_singleton before step ih =>
    rw [List.append_assoc, List.singleton_append] at split
    obtain ⟨earlier, middle, id, start, last, rfl⟩ := runAll_snoc_eq_ok_iff.mp ran
    obtain ⟨bottomUp, spares⟩ := ih split start
    have once := careful.once
    rw [split, List.flatMap_append, List.flatMap_cons, List.map_append, List.map_append,
      List.append_assoc, List.append_assoc, List.nodup_append] at once
    obtain ⟨-, once, apart⟩ := once
    have fits := careful.fits (split ▸ mem_calls_of_split) start spares fun pass member earlier =>
      apart _ earlier _ (List.mem_append_left _ (List.mem_map_of_mem member)) rfl
    have grown := step.grown bottomUp fits (List.nodup_append.mp once).1
    rw [← size_eq_length, ← step.productions_run last] at grown
    refine ⟨grown.bottomUp, fun other isAnswer unpassed => ?_⟩
    rw [List.flatMap_append, List.flatMap_singleton, List.map_append, List.mem_append,
      not_or] at unpassed
    rw [answered_snoc start last, List.mem_append] at isAnswer
    rcases isAnswer with earlier | new
    · exact grown.kept other (spares other earlier unpassed.1) unpassed.2
    · split at new
      case isTrue => cases new
      case isFalse adds =>
        obtain rfl := List.mem_singleton.mp new
        refine grown.bottomUp.last_free ?_
        rw [← size_eq_length]
        exact ((DraftStep.run_eq_ok_iff (eq_false_of_ne_true adds)).mp last).2

end TreeDraft

namespace SyntaxTree

variable {tree : SyntaxTree}

theorem node?_production {parent : NodeId} {node : Node} (found : tree.node? parent = some node) :
    (tree.nodes.toList.map Node.production)[parent.index]? = some node.production := by
  rw [List.getElem?_map, Array.getElem?_toList]
  exact congrArg (Option.map Node.production) found

/-- A tree that is bottom-up and ends with its root is one of the grammar. -/
theorem grammatical_of_bottomUp (bottomUp : BottomUp (tree.nodes.toList.map Node.production))
    (last : tree.root.index + 1 = tree.size) : tree.Grammatical := by
  have same : tree.childIds = (tree.nodes.toList.map Node.production).flatMap Production.children :=
    by rw [List.flatMap_map]; rfl
  have free : tree.root ∉ tree.childIds :=
    same ▸ (bottomUp.last_free (by simpa [size] using last)).unused
  have once : tree.childIds.Nodup := same ▸ bottomUp.once
  constructor
  case root_inside => omega
  case child_inside =>
    intro parent node found child member
    have older := bottomUp.child_lt (node?_production found) member
    have inside := (node?_isSome_iff tree parent).mp (by simp [found])
    omega
  case root_free => exact List.count_eq_zero_of_not_mem free
  case one_parent => exact (nodup_childIds_iff free).mp once
  case seated =>
    intro parent node found seat listed below foundBelow
    obtain ⟨-, stored, isStored, admitted⟩ :=
      bottomUp.seated _ _ (node?_production found) seat listed
    rw [node?_production foundBelow, Option.some.injEq] at isStored
    rw [← seat.1.admits_iff_mem_allowed, Node.kind, isStored]
    exact admitted

end SyntaxTree

/-- If every child that is passed was answered by an earlier request that adds nodes, fits its slot
and is passed once, and every node that is moved is there, then no request stops and the finished
tree is valid. Its children are older than their parents and its root is the last node. -/
theorem TreeDraft.tree_valid {steps : List DraftStep} {items : List NodeId}
    (careful : TreeDraft.Careful steps items) :
    ∃ tree, TreeDraft.tree steps items = .ok tree ∧ tree.validate = .ok () ∧
      (∀ parent child, tree.HasChild parent child → child.index < parent.index) ∧
      tree.root.index + 1 = tree.size := by
  obtain ⟨answers, draft, after, ran, added, finished⟩ := exists_tree careful.answered careful.moved
  obtain ⟨bottomUp, spares⟩ := careful.bottomUp (List.append_nil steps).symm ran
  obtain ⟨-, once, apart⟩ := List.nodup_append.mp careful.once
  have passed : (Production.compilationUnit items).seats.map Prod.snd = items :=
    Production.map_snd_seats _
  have fits := careful.fits mem_calls_last ran spares fun pass member earlier =>
    apart _ earlier _ (passed ▸ List.mem_map_of_mem member) rfl
  have grown := bottomUp.single rfl fits (by rwa [passed])
  have last := size_add added
  rw [← productions_add added] at grown
  refine ⟨_, finished, ?valid, ?older, last.symm⟩
  case valid =>
    rw [SyntaxTree.validate_eq_ok_iff, SyntaxTree.wellFormed_iff_grammatical]
    exact SyntaxTree.grammatical_of_bottomUp grown.bottomUp last.symm
  case older =>
    rintro parent child ⟨node, found, member⟩
    exact grown.bottomUp.child_lt (SyntaxTree.node?_production found) member

/-- A function with one parameter, and a literal that nobody uses. The keyword of the parameter's type
is moved. -/
def TreeDraft.functionSteps : List DraftStep :=
  [.primitive .int, .literal "1", .place ⟨0⟩ ⟨40, 43⟩, .parameter ⟨1⟩ "a", .block [],
    .function "f" none [⟨4⟩] ⟨5⟩]

/-- The unused literal stays in the tree, which is valid all the same. -/
theorem TreeDraft.tree_valid_function : TreeDraft.Careful TreeDraft.functionSteps [⟨6⟩] ∧
    ∃ tree, TreeDraft.tree TreeDraft.functionSteps [⟨6⟩] = .ok tree ∧ tree.validate = .ok () ∧
      tree.root = ⟨7⟩ ∧ tree.node? ⟨2⟩ = some ⟨.literal "1", ⟨4, 5⟩⟩ := by
  have careful : TreeDraft.Careful TreeDraft.functionSteps [⟨6⟩] := by
    refine ⟨by unfold PassesAnswers; decide, by decide, by decide, fun i id location found => ?_⟩
    match i, found with
    | 2, found =>
      cases found
      decide
    | i + 6, found => cases found
  obtain ⟨tree, finished, valid, -, -⟩ := TreeDraft.tree_valid careful
  have drafted : (TreeDraft.tree TreeDraft.functionSteps [⟨6⟩]).map (fun tree =>
      (tree.root, tree.node? ⟨2⟩)) = .ok (⟨7⟩, some ⟨.literal "1", ⟨4, 5⟩⟩) := rfl
  rw [finished] at drafted
  simp only [Except.map, Except.ok.injEq, Prod.mk.injEq] at drafted
  exact ⟨careful, tree, finished, valid, drafted⟩

/-- Another type around the keyword that already has one. -/
def TreeDraft.movedSteps : List DraftStep :=
  [.primitive .int, .place ⟨0⟩ ⟨0, 3⟩, .typeNode ⟨0⟩]

/-- It is not enough that each child was answered by any earlier request, fits its slot and is
passed once: a move answers with a node that is a child already, too, and it stops if there is no
such node. -/
theorem TreeDraft.not_tree_valid_moved :
    ((∀ call ∈ calls movedSteps [], ∀ pass ∈ call.2, pass.2 ∈ (outcome call.1).1 ∧
        ∀ node ∈ (outcome call.1).2.nodes[pass.2.index]?, pass.1.admits node.kind = true) ∧
      ((movedSteps.flatMap DraftStep.passes).map Prod.snd).Nodup ∧
      (TreeDraft.tree movedSteps []).map SyntaxTree.validate = .ok (.error (.sharedChild ⟨0⟩))) ∧
    TreeDraft.tree [.place ⟨0⟩ ⟨0, 3⟩] [] = .error .dangling :=
  ⟨⟨by decide, by decide, rfl⟩, rfl⟩

end ScriptSemantics
