import ScriptSemantics.Proofs.Separation
import ScriptSemantics.Proofs.Totality

/-!
# Members first, locals later

Resolving the members of a unit and then the regions with their locals finds out what one pass over
the whole unit with all its locals does. Only the order in which variables are declared and problems
are logged differs.
-/
namespace ScriptSemantics.View

variable {tree : SyntaxTree} {b : Resolution} {v w : View}

/-- What a pass over the members of a tree finds out. -/
def members (tree : SyntaxTree) (b : Resolution) : View :=
  (tree.events tree.root).foldl (View.advance tree b .membersOnly) (start b)

/-- What one pass over a tree with all its locals finds out. -/
def atOnce (tree : SyntaxTree) (b : Resolution) : View :=
  (tree.events tree.root).foldl (View.advance tree b .withLocals) (start b)

/-- Two views agree up to the order of declarations and diagnostics. -/
structure Agrees (v w : View) : Prop where
  types : v.types = w.types
  typeOf : v.typeOf = w.typeOf
  checked : v.checked = w.checked
  declared : v.declared.Perm w.declared
  variableType : v.variableType = w.variableType
  parameters : v.parameters = w.parameters
  returnType : v.returnType = w.returnType
  superclass : v.superclass = w.superclass
  diagnostics : v.diagnostics.Perm w.diagnostics

/-- Two lists that agree on both sides of a test are permutations of each other. -/
theorem perm_of_filter {α : Type} {p : α → Bool} {xs ys : List α}
    (yes : xs.filter p = ys.filter p) (no : xs.filter (fun a => !p a) = ys.filter fun a => !p a) :
    xs.Perm ys := by
  have left := List.filter_append_perm p xs
  have right := List.filter_append_perm p ys
  rw [yes, no] at left
  exact left.symm.trans right

/-- Views that agree on members and on locals agree. -/
theorem SameMembers.agrees (members : SameMembers tree b v w) (locals : SameLocals tree b v w) :
    Agrees v w where
  types := members.types
  typeOf := members.typeOf
  checked := by
    funext id
    cases isLocal : b.isLocal tree id with
    | false => exact members.checked id isLocal
    | true => exact locals.checked id isLocal
  declared := perm_of_filter members.declared locals.declared
  variableType := by
    funext id
    cases isMember : b.isMember id with
    | false => exact locals.variableType id isMember
    | true => exact members.variableType id isMember
  parameters := members.parameters
  returnType := members.returnType
  superclass := members.superclass
  diagnostics := perm_of_filter locals.diagnostics members.diagnostics

theorem reachable_of_mem_events (prepared : Prepared tree b) :
    ∀ event ∈ tree.events tree.root, tree.Reachable event.node :=
  fun _ => (prepared.formed.mem_events .root).mp

theorem reachable_of_mem_regions (prepared : Prepared tree b) :
    ∀ event ∈ (tree.regions tree.root).flatMap tree.events, tree.Reachable event.node := by
  intro event member
  obtain ⟨region, listed, inside⟩ := List.mem_flatMap.mp member
  have reached : tree.Reachable region := prepared.formed.regions_within .root listed
  exact reached.within ((prepared.formed.mem_events reached).mp inside)

/-- The analysis does not touch a node that the root does not reach. -/
theorem analysed_untouched (prepared : Prepared tree b) {id : NodeId} (away : ¬ tree.Reachable id)
    (locals : Bool) : (analysed tree b locals).Untouched id := by
  have members : ((tree.events tree.root).foldl (View.advance tree b .membersOnly)
      (start b)).Untouched id :=
    (Untouched.start b id).run _ fun event member here =>
      away (here ▸ reachable_of_mem_events prepared event member)
  unfold analysed
  split
  · exact members.run _ fun event member here =>
      away (here ▸ reachable_of_mem_regions prepared event member)
  · exact members

section Phases

variable (prepared : Prepared tree b)
  (inner : ∀ root, tree.node? tree.root = some root → root.kind ≠ .formalParameter)
include prepared inner

theorem members_sameMembers_atOnce : SameMembers tree b (members tree b) (atOnce tree b) :=
  have start : SameMembers tree b (start b) (start b) := .refl fun _ _ member => by cases member
  start.foldl prepared inner _ (reachable_of_mem_events prepared)

/-- Once the members are resolved, no later event changes anything but locals. -/
theorem SameMembers.again (same : SameMembers tree b (members tree b) v) (events : List Event)
    (reached : ∀ event ∈ events, tree.Reachable event.node) :
    SameMembers tree b (members tree b) (events.foldl (View.advance tree b .withLocals) v) := by
  refine List.foldlRecOn events (motive := SameMembers tree b (members tree b)) _ same ?_
  intro w same event member
  have reachedEvent := reached event member
  cases isLocal : b.isLocal tree event.node with
  | true =>
    exact same.trans (.advance_local isLocal prepared reachedEvent same.symm.inside _)
  | false =>
    obtain ⟨node, found⟩ := prepared.formed.reachable_node reachedEvent
    have done : (members tree b).Done tree b .membersOnly event.node node :=
      foldl_done prepared reachedEvent found (start b)
    have next := same.advance prepared inner reachedEvent isLocal .membersOnly .withLocals
    rwa [done.advance_eq_self found] at next

/-- The regions add nothing but locals to what is known of the members. -/
theorem members_sameMembers_analysed (locals : Bool) :
    SameMembers tree b (members tree b) (analysed tree b locals) := by
  have start : SameMembers tree b (members tree b) (members tree b) :=
    .refl (members_sameMembers_atOnce prepared inner).inside
  cases locals with
  | false => exact start
  | true => exact start.again prepared inner _ (reachable_of_mem_regions prepared)

/-- The locals are found out in one pass from the types that are there in the end. -/
theorem atOnce_sameLocals : SameLocals tree b (atOnce tree b)
    (((tree.events tree.root).filter fun event => b.isLocal tree event.node).foldl
      (View.advance tree b .withLocals) (members tree b)) := by
  have reached := reachable_of_mem_events prepared
  refine SameLocals.foldl_filter prepared inner _ reached
    (SameLocals.foldl_membersOnly prepared inner (start b) _ reached) ?_
  intro before event after split node type declarators exits found is
  have link : tree.HasChild event.node type :=
    ⟨node, found, by simp [Node.children, is, Production.children]⟩
  have last := congrFun (members_sameMembers_atOnce prepared inner).typeOf type
  rw [last, atOnce, split, List.foldl_append]
  refine (foldl_typeOf_eq (fun member => ?_) _).symm
  rcases List.mem_cons.mp member with here | later
  · refine prepared.formed.not_within_parent (reached event (by simp [split])) link ?_
    rw [← here]
    exact .refl type
  · have isExit : event = ⟨.exit, event.node⟩ := by rw [← exits]
    exact prepared.formed.after_exit (isExit ▸ split) _ later link.within

end Phases

/-- Below a root that is a parameter there are no locals to find out. -/
theorem analysed_of_parameter (prepared : Prepared tree b) {root : Node}
    (found : tree.node? tree.root = some root) (parameter : root.kind = .formalParameter)
    (locals : Bool) : analysed tree b locals = members tree b := by
  unfold analysed
  rw [prepared.formed.regions_of_parameter found parameter]
  cases locals <;> rfl

theorem analysed_types (prepared : Prepared tree b) (locals : Bool) :
    (analysed tree b locals).types = (members tree b).types ∧
      (analysed tree b locals).typeOf = (members tree b).typeOf := by
  obtain ⟨root, found⟩ := prepared.formed.reachable_node .root
  by_cases parameter : root.kind = .formalParameter
  · rw [analysed_of_parameter prepared found parameter]
    exact ⟨rfl, rfl⟩
  · have same := members_sameMembers_analysed prepared (fun node foundNode => by
      obtain rfl : root = node := Option.some.inj (found.symm.trans foundNode)
      exact parameter) locals
    exact ⟨same.types.symm, same.typeOf.symm⟩

/-- Resolving a unit in two phases finds out what one pass does. -/
theorem analysed_agrees_atOnce (prepared : Prepared tree b) {root : Node}
    (found : tree.node? tree.root = some root) (unit : root.kind = .compilationUnit) :
    Agrees (analysed tree b true) (atOnce tree b) := by
  have inner : ∀ node, tree.node? tree.root = some node → node.kind ≠ .formalParameter := by
    intro node foundNode
    obtain rfl : root = node := Option.some.inj (found.symm.trans foundNode)
    simp [unit]
  have regions := reachable_of_mem_regions prepared
  have once := members_sameMembers_atOnce prepared inner
  have start : SameMembers tree b (members tree b) (members tree b) := .refl once.inside
  have whole := members_sameMembers_analysed prepared inner true
  have full : analysed tree b true = ((tree.regions tree.root).flatMap tree.events).foldl
      (View.advance tree b .withLocals) (members tree b) := rfl
  have locals : SameLocals tree b (analysed tree b true)
      (((tree.events tree.root).filter fun event => b.isLocal tree event.node).foldl
        (View.advance tree b .withLocals) (members tree b)) := by
    rw [full, ← prepared.registered.events_filter_isLocal prepared.formed found unit]
    refine SameLocals.foldl_filter prepared inner _ regions (.refl _) ?_
    intro before event after split node type declarators _ _ _
    have earlier : ∀ other ∈ before, tree.Reachable other.node := fun other member =>
      regions other (by simp [split, member])
    exact (congrFun (start.again prepared inner before earlier).typeOf type).symm
  refine (whole.symm.trans once).agrees ?_
  exact locals.trans (atOnce_sameLocals prepared inner).symm

end ScriptSemantics.View
