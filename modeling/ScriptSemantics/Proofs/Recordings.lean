import ScriptSemantics.Proofs.Traversal

/-!
# What a walk tells its listener

A walk over a valid tree ends, and a listener that never stops it is told the node's entry, what the
children tell in source order, and the node's exit. So each node below the start is entered once and
left once, and no other is come to, whatever circles the store holds elsewhere.
-/
namespace ScriptSemantics

/-- A listener that never stops a walk. -/
def Listener.always {ε σ : Type} (answer : Phase → NodeId → Node → σ → σ) : Listener ε σ :=
  fun phase id node s => .ok (answer phase id node s)

namespace SyntaxTree

variable {tree : SyntaxTree} {ε σ : Type} {id : NodeId}

/-- What a listener that never stops a walk makes of one event. -/
def tell (tree : SyntaxTree) (answer : Phase → NodeId → Node → σ → σ) (s : σ) (event : Event) : σ :=
  match tree.node? event.node with
  | some node => answer event.phase event.node node s
  | none => s

/-- The recording of a walk that nothing stops. -/
def recording (tree : SyntaxTree) (id : NodeId) : List Event × Ending :=
  tree.recordFrom (fun _ => false) id

namespace WellFormed

variable (formed : tree.WellFormed) (reached : tree.Reachable id)
include formed reached

theorem node_of_mem_events {event : Event} (member : event ∈ tree.events id) :
    ∃ node, tree.node? event.node = some node :=
  formed.reachable_node (reached.within ((formed.mem_events reached).mp member))

/-- A listener that never stops a walk is told all its events, and the walk ends. -/
theorem walkFrom_always (answer : Phase → NodeId → Node → σ → σ) (s : σ) :
    tree.walkFrom (Listener.always answer : Listener ε σ) id s =
      .ok ((tree.events id).foldl (tree.tell answer) s) := by
  rw [formed.walkFrom_eq_foldlM _ reached]
  apply foldlM_eq_ok
  intro t event member
  obtain ⟨node, found⟩ := formed.node_of_mem_events reached member
  simp only [heed, SyntaxTree.node, found, orDangling_some, lift_ok, ok_bind, Listener.always, tell]

/-- The recorder is told the events of the walk, and the walk is complete. -/
theorem recording_eq : tree.recording id = (tree.events id, .complete) := by
  have told := calc
    (tree.events id).foldl (tree.tell fun phase id _ told => ⟨phase, id⟩ :: told) []
      = (tree.events id).foldl (fun told event => event :: told) [] := by
        apply List.foldl_ext
        intro told event member
        obtain ⟨node, found⟩ := formed.node_of_mem_events reached member
        simp only [tell, found]
    _ = (tree.events id).reverse := by simp
  have walked : tree.walkFrom (recorder fun _ => false) id [] = .ok (tree.events id).reverse :=
    (formed.walkFrom_always reached _ []).trans (congrArg Except.ok told)
  simp only [recording, recordFrom, walked, List.reverse_reverse]

end WellFormed

end SyntaxTree

/-- A walk from a reachable node of a valid tree ends without a fault, whatever the listener that
never stops it makes of the events. They are the node's entry, those of its children in source order
and its exit; each node below is entered once and left once, and no other node is come to. -/
theorem walk_visits_once {tree : SyntaxTree} {id : NodeId} (valid : tree.validate = .ok ())
    (reached : tree.Reachable id) :
    ∃ node, tree.node? id = some node ∧
      tree.recording id = (⟨.enter, id⟩ ::
        node.children.flatMap (fun child => (tree.recording child).1) ++ [⟨.exit, id⟩], .complete) ∧
      (∀ (ε σ : Type) (answer : Phase → NodeId → Node → σ → σ) (s : σ),
        tree.walkFrom (Listener.always answer : Listener ε σ) id s =
          .ok ((tree.recording id).1.foldl (tree.tell answer) s)) ∧
      (∀ phase other, tree.Within id other → (tree.recording id).1.count ⟨phase, other⟩ = 1) ∧
      ∀ event ∈ (tree.recording id).1, tree.Within id event.node := by
  have formed := SyntaxTree.validate_eq_ok_iff.mp valid
  obtain ⟨node, found⟩ := formed.reachable_node reached
  have children : node.children.flatMap (fun child => (tree.recording child).1) =
      node.children.flatMap tree.events := by
    refine List.flatMap_congr fun child member => ?_
    rw [formed.recording_eq (reached.child ⟨node, found, member⟩)]
  refine ⟨node, found, ?_, ?_, ?_, ?_⟩
  · rw [formed.recording_eq reached, children, formed.events_eq reached found]
  · intro ε σ answer s
    rw [formed.recording_eq reached]
    exact formed.walkFrom_always reached answer s
  · intro phase other path
    rw [formed.recording_eq reached]
    exact List.count_eq_one_of_mem (formed.events_nodup reached)
      ((formed.mem_events reached).mpr path)
  · intro event member
    rw [formed.recording_eq reached] at member
    exact (formed.mem_events reached).mp member

/-- A unit with an empty block, in a store with two blocks that hold each other. -/
def SyntaxTree.circular : SyntaxTree where
  nodes := #[⟨.compilationUnit [⟨1⟩], ⟨0, 2⟩⟩, ⟨.block [], ⟨0, 2⟩⟩, ⟨.block [⟨3⟩], ⟨3, 5⟩⟩,
    ⟨.block [⟨2⟩], ⟨3, 5⟩⟩]
  root := ⟨0⟩

/-- The unit is walked to its end, though a walk from one of the other blocks would have none. -/
theorem walk_visits_once_circular :
    SyntaxTree.circular.recording ⟨0⟩ =
        ([⟨.enter, ⟨0⟩⟩, ⟨.enter, ⟨1⟩⟩, ⟨.exit, ⟨1⟩⟩, ⟨.exit, ⟨0⟩⟩], .complete) ∧
      (SyntaxTree.circular.recording ⟨0⟩).1.count ⟨.exit, ⟨1⟩⟩ = 1 ∧
      (SyntaxTree.circular.recording ⟨2⟩).2 = .broken .endless := by
  have block : SyntaxTree.circular.Within ⟨0⟩ ⟨1⟩ := SyntaxTree.HasChild.within ⟨_, rfl, by decide⟩
  obtain ⟨node, found, recorded, -, once, -⟩ :=
    @walk_visits_once SyntaxTree.circular ⟨0⟩ rfl .root
  obtain rfl := Option.some.inj found
  exact ⟨recorded, once .exit ⟨1⟩ block, rfl⟩

end ScriptSemantics
