import ScriptSemantics.Proofs.Outcomes
import ScriptSemantics.Proofs.Shape
import ScriptSemantics.Syntax.Walk

/-!
# Walks as sequences of events

On every tree a walk hands the events of its trace to the listener, one after another, and ends in
the fault of the trace if it has one. On a well-formed tree the trace below a reachable node has no
fault: it is the node's entry, the traces of the children in source order, and the node's exit, and
no event occurs in it twice.
-/
namespace ScriptSemantics.SyntaxTree

variable {ε σ : Type} {tree : SyntaxTree}

/-- Hands one event to a listener. -/
def heed (tree : SyntaxTree) (listen : Listener ε σ) (state : σ) (event : Event) :
    Except (Halt ε) σ := do
  let node ← tree.node event.node
  listen event.phase event.node node state

/-- Hands the events of a trace to a listener and ends as the trace does. -/
def replay (tree : SyntaxTree) (listen : Listener ε σ) (trace : Trace) (state : σ) :
    Except (Halt ε) σ := do
  let after ← trace.events.foldlM (tree.heed listen) state
  match trace.fault with
  | some fault => .error (.fault fault)
  | none => .ok after

theorem replay_append (listen : Listener ε σ) (first : Trace) (second : Unit → Trace) (state : σ) :
    tree.replay listen (first.append second) state =
      tree.replay listen first state >>= tree.replay listen (second ()) := by
  obtain ⟨events, fault⟩ := first
  cases fault with
  | some fault =>
    simp only [replay, Trace.append]
    cases events.foldlM (tree.heed listen) state <;> rfl
  | none =>
    simp only [replay, Trace.append, List.foldlM_append]
    cases events.foldlM (tree.heed listen) state <;> rfl

theorem replay_foldl (listen : Listener ε σ) (traceOf : NodeId → Trace) (children : List NodeId)
    (first : Trace) (state : σ) :
    tree.replay listen
        (children.foldl (fun trace child => trace.append fun _ => traceOf child) first) state =
      tree.replay listen first state >>=
        children.foldlM (fun s child => tree.replay listen (traceOf child) s) := by
  induction children generalizing first with
  | nil => exact (bind_pure _).symm
  | cons child children ih =>
    simp only [List.foldl_cons, ih, replay_append]
    cases tree.replay listen first state <;> rfl

/-- A walk does what its trace says, whatever the tree and the listener. -/
theorem walkWithin_eq_replay (listen : Listener ε σ) (depth : Nat) (id : NodeId) (state : σ) :
    tree.walkWithin listen depth id state =
      tree.replay listen (tree.traceWithin depth id) state := by
  induction depth generalizing id state with
  | zero => rfl
  | succ depth ih =>
    unfold walkWithin traceWithin
    cases found : tree.node? id with
    | none => simp [node, found, replay, Trace.broken, pure, Except.pure]
    | some here =>
      have single (phase : Phase) :
          tree.replay listen (.single ⟨phase, id⟩) = listen phase id here := by
        funext s
        simp only [replay, Trace.single, List.foldlM_cons, List.foldlM_nil, heed, node, found,
          orDangling_some, lift_ok, ok_bind]
        cases listen phase id here s <;> rfl
      simp only [node, found, orDangling_some, lift_ok, ok_bind, replay_append, replay_foldl, single,
        ih, bind_assoc]

theorem walkFrom_eq_replay (listen : Listener ε σ) (id : NodeId) (state : σ) :
    tree.walkFrom listen id state = tree.replay listen (tree.trace id) state :=
  walkWithin_eq_replay listen _ id state

def events (tree : SyntaxTree) (id : NodeId) : List Event := (tree.trace id).events

theorem foldl_append_faultless (traceOf : NodeId → Trace) (children : List NodeId) (first : Trace)
    (start : first.fault = none) (faultless : ∀ child ∈ children, (traceOf child).fault = none) :
    children.foldl (fun trace child => trace.append fun _ => traceOf child) first =
      ⟨first.events ++ children.flatMap fun child => (traceOf child).events, none⟩ := by
  induction children generalizing first with
  | nil => simp [← start]
  | cons child children ih =>
    have next : (first.append fun _ => traceOf child) =
        ⟨first.events ++ (traceOf child).events, none⟩ := by
      simp [Trace.append, start, faultless child]
    simp only [List.foldl_cons, next]
    rw [ih _ rfl fun c member => faultless c (by simp [member])]
    simp

namespace WellFormed

variable (formed : tree.WellFormed)
include formed

/-- The bound of a trace does not matter as long as it exceeds what is left of the tree's size. -/
theorem traceWithin_stable {id : NodeId} {depth : Nat} (path : tree.Below tree.root depth id)
    {j k : Nat} (roomJ : tree.size < j + depth) (roomK : tree.size < k + depth) :
    (tree.traceWithin j id).fault = none ∧ tree.traceWithin j id = tree.traceWithin k id := by
  induction j generalizing k id depth with
  | zero =>
    have := formed.depth_lt_size path
    omega
  | succ j ih =>
    have := formed.depth_lt_size path
    obtain ⟨k, rfl⟩ : ∃ m, k = m + 1 := ⟨k - 1, by omega⟩
    obtain ⟨node, found⟩ := formed.reachable_node ⟨depth, path⟩
    have below (child : NodeId) (member : child ∈ node.children) :=
      ih (.step path ⟨node, found, member⟩) (k := k) (by omega) (by omega)
    unfold traceWithin
    simp only [found]
    have left := foldl_append_faultless (tree.traceWithin j) node.children
      (.single ⟨.enter, id⟩) rfl fun child member => (below child member).1
    have right := foldl_append_faultless (tree.traceWithin k) node.children
      (.single ⟨.enter, id⟩) rfl fun child member => by
        rw [← (below child member).2]
        exact (below child member).1
    have same : (node.children.flatMap fun child => (tree.traceWithin j child).events) =
        node.children.flatMap fun child => (tree.traceWithin k child).events :=
      List.flatMap_congr fun child member => by rw [(below child member).2]
    rw [left, right, same]
    exact ⟨rfl, rfl⟩

theorem trace_fault {id : NodeId} (reached : tree.Reachable id) : (tree.trace id).fault = none := by
  obtain ⟨depth, path⟩ := reached
  exact (formed.traceWithin_stable path (k := tree.size + 1) (by omega) (by omega)).1

/-- A node's events are its entry, the events of its children in source order, and its exit. -/
theorem events_eq {id : NodeId} {node : Node} (reached : tree.Reachable id)
    (found : tree.node? id = some node) :
    tree.events id = ⟨.enter, id⟩ :: node.children.flatMap tree.events ++ [⟨.exit, id⟩] := by
  obtain ⟨depth, path⟩ := reached
  have below (child : NodeId) (member : child ∈ node.children) :=
    formed.traceWithin_stable (.step path ⟨node, found, member⟩) (j := tree.size)
      (k := tree.size + 1) (by omega) (by omega)
  have inner := foldl_append_faultless (tree.traceWithin tree.size) node.children
    (.single ⟨.enter, id⟩) rfl fun child member => (below child member).1
  have same : (node.children.flatMap fun child => (tree.traceWithin tree.size child).events) =
      node.children.flatMap tree.events :=
    List.flatMap_congr fun child member => by rw [(below child member).2]; rfl
  rw [events, trace, traceWithin]
  simp only [found]
  rw [inner, same]
  simp [Trace.append, Trace.single]

/-- The walk from a reachable node hands the node's events to the listener. -/
theorem walkFrom_eq_foldlM (listen : Listener ε σ) {id : NodeId} (reached : tree.Reachable id)
    (state : σ) :
    tree.walkFrom listen id state = (tree.events id).foldlM (tree.heed listen) state := by
  rw [walkFrom_eq_replay, replay, formed.trace_fault reached, events]
  cases (tree.trace id).events.foldlM (tree.heed listen) state <;> rfl

theorem walk_eq_foldlM (listen : Listener ε σ) (state : σ) :
    tree.walk listen state = (tree.events tree.root).foldlM (tree.heed listen) state :=
  formed.walkFrom_eq_foldlM listen .root state

/-- The events below a node are the entries and exits of the nodes within it. -/
theorem mem_events {id : NodeId} (reached : tree.Reachable id) {event : Event} :
    event ∈ tree.events id ↔ tree.Within id event.node := by
  refine formed.reachable_induction
    (motive := fun id => event ∈ tree.events id ↔ tree.Within id event.node) ?_ reached
  intro id node reached found ih
  rw [formed.events_eq reached found, within_iff]
  simp only [List.cons_append, List.mem_cons, List.mem_append, List.mem_flatMap, List.not_mem_nil,
    or_false]
  have self : event = ⟨.enter, id⟩ ∨ event = ⟨.exit, id⟩ ↔ event.node = id := by
    obtain ⟨phase, node⟩ := event
    cases phase <;> simp
  have children : (∃ child ∈ node.children, event ∈ tree.events child) ↔
      ∃ child, tree.HasChild id child ∧ tree.Within child event.node := by
    constructor
    · rintro ⟨child, member, inside⟩
      exact ⟨child, ⟨node, found, member⟩, (ih child member).mp inside⟩
    · rintro ⟨child, ⟨other, foundOther, member⟩, inside⟩
      obtain rfl : node = other := Option.some.inj (found.symm.trans foundOther)
      exact ⟨child, member, (ih child member).mpr inside⟩
  rw [← self, ← children, or_assoc]
  exact or_congr_right or_comm

theorem events_nodup {id : NodeId} (reached : tree.Reachable id) : (tree.events id).Nodup := by
  refine formed.reachable_induction (motive := fun id => (tree.events id).Nodup) ?_ reached
  intro id node reached found ih
  have inside {event : Event} (member : event ∈ node.children.flatMap tree.events) :
      event.node ≠ id := by
    obtain ⟨child, listed, member⟩ := List.mem_flatMap.mp member
    have link : tree.HasChild id child := ⟨node, found, listed⟩
    rintro rfl
    exact formed.not_within_parent reached link
      ((formed.mem_events (reached.child link)).mp member)
  have middle : (node.children.flatMap tree.events).Nodup := by
    rw [List.nodup_flatMap]
    refine ⟨ih, ?_⟩
    refine (formed.children_nodup found).imp_of_mem fun {first second} left right different => ?_
    intro event inFirst inSecond
    have firstLink : tree.HasChild id first := ⟨node, found, left⟩
    have secondLink : tree.HasChild id second := ⟨node, found, right⟩
    exact different (formed.siblings_disjoint reached firstLink secondLink
      ((formed.mem_events (reached.child firstLink)).mp inFirst)
      ((formed.mem_events (reached.child secondLink)).mp inSecond))
  rw [formed.events_eq reached found, List.cons_append, List.nodup_cons]
  refine ⟨fun member => ?_, List.nodup_append.mpr ⟨middle, by simp, ?_⟩⟩
  · rcases List.mem_append.mp member with member | member
    · exact inside member rfl
    · simp at member
  · intro event member exit isExit
    rw [List.mem_singleton.mp isExit]
    rintro rfl
    exact inside member rfl

/-- The events within a node stand together in the events of every node above it. -/
theorem events_infix {top id : NodeId} (reached : tree.Reachable top) (path : tree.Within top id) :
    tree.events id <:+: tree.events top := by
  refine formed.reachable_induction
    (motive := fun top => tree.Within top id → tree.events id <:+: tree.events top) ?_ reached path
  intro top node reached found ih path
  rcases within_iff.mp path with rfl | ⟨child, ⟨other, foundOther, member⟩, path⟩
  · exact List.infix_refl _
  · obtain rfl : node = other := Option.some.inj (found.symm.trans foundOther)
    obtain ⟨before, after, split⟩ := List.append_of_mem member
    rw [formed.events_eq reached found, split]
    refine (ih child member path).trans ⟨⟨.enter, top⟩ :: before.flatMap tree.events,
      after.flatMap tree.events ++ [⟨.exit, top⟩], ?_⟩
    simp

end WellFormed

theorem fault_append_eq_none {first : Trace} {second : Unit → Trace} :
    (first.append second).fault = none ↔ first.fault = none ∧ (second ()).fault = none := by
  unfold Trace.append
  cases isFirst : first.fault <;> simp [isFirst]

theorem faultless_of_foldl_append {traceOf : NodeId → Trace} {children : List NodeId} {first : Trace}
    (faultless : (children.foldl
      (fun trace child => trace.append fun _ => traceOf child) first).fault = none) :
    first.fault = none ∧ ∀ child ∈ children, (traceOf child).fault = none := by
  induction children generalizing first with
  | nil => exact ⟨faultless, by simp⟩
  | cons child children ih =>
    obtain ⟨joined, rest⟩ := ih faultless
    obtain ⟨before, here⟩ := fault_append_eq_none.mp joined
    exact ⟨before, by simpa using ⟨here, rest⟩⟩

/-- A trace without a fault leaves everything within its node, whatever the tree. -/
theorem exit_mem_of_faultless {depth : Nat} {top id : NodeId}
    (faultless : (tree.traceWithin depth top).fault = none) (path : tree.Within top id) :
    ⟨.exit, id⟩ ∈ (tree.traceWithin depth top).events := by
  induction depth generalizing top with
  | zero => cases faultless
  | succ depth ih =>
    unfold traceWithin at faultless ⊢
    cases found : tree.node? top with
    | none => simp [found, Trace.broken] at faultless
    | some here =>
      simp only [found] at faultless ⊢
      obtain ⟨entered, below⟩ := faultless_of_foldl_append (fault_append_eq_none.mp faultless).1
      rw [foldl_append_faultless _ _ _ entered below]
      rcases within_iff.mp path with rfl | ⟨child, ⟨other, foundOther, member⟩, path⟩
      · simp [Trace.append, Trace.single]
      · obtain rfl : here = other := Option.some.inj (found.symm.trans foundOther)
        have listed : ⟨.exit, id⟩ ∈
            here.children.flatMap fun child => (tree.traceWithin depth child).events :=
          List.mem_flatMap.mpr ⟨child, member, ih (below child member) path⟩
        simp [Trace.append, Trace.single, listed]

end ScriptSemantics.SyntaxTree

namespace ScriptSemantics

/-- The nodes of some sort that a run of events comes to in a phase, in order. -/
def visits (phase : Phase) (events : List Event) (holds : NodeId → Bool) : List NodeId :=
  (events.filter fun event => event.phase == phase && holds event.node).map Event.node

section Visits

variable {phase : Phase} {events : List Event}

theorem visits_append (first second : List Event) (holds : NodeId → Bool) :
    visits phase (first ++ second) holds = visits phase first holds ++ visits phase second holds := by
  simp [visits]

theorem visits_singleton (event : Event) (holds : NodeId → Bool) : visits phase [event] holds =
    if event.phase = phase ∧ holds event.node = true then [event.node] else [] := by
  simp only [visits, List.filter_cons, List.filter_nil, Bool.and_eq_true, beq_iff_eq]
  split <;> rfl

theorem mem_visits {holds : NodeId → Bool} {id : NodeId} :
    id ∈ visits phase events holds ↔ ⟨phase, id⟩ ∈ events ∧ holds id = true := by
  simp only [visits, List.mem_map, List.mem_filter, Bool.and_eq_true, beq_iff_eq]
  constructor
  · rintro ⟨⟨phase, node⟩, ⟨listed, rfl, isSort⟩, rfl⟩
    exact ⟨listed, isSort⟩
  · rintro ⟨listed, isSort⟩
    exact ⟨_, ⟨listed, rfl, isSort⟩, rfl⟩

theorem visits_nodup (nodup : events.Nodup) (holds : NodeId → Bool) :
    (visits phase events holds).Nodup := by
  refine List.Nodup.map_on ?_ (nodup.filter _)
  rintro ⟨phase, id⟩ left ⟨phase', id'⟩ right rfl
  simp only [List.mem_filter, Bool.and_eq_true, beq_iff_eq] at left right
  rw [left.2.1, right.2.1]

/-- The visits are the same for sorts that agree on the nodes that are visited. -/
theorem visits_congr {holds other : NodeId → Bool}
    (same : ∀ id, ⟨phase, id⟩ ∈ events → holds id = other id) :
    visits phase events holds = visits phase events other := by
  unfold visits
  congr 1
  refine List.filter_congr fun event member => ?_
  obtain ⟨when, id⟩ := event
  by_cases here : when = phase
  · subst here
    rw [same id member]
  · rw [beq_eq_false_iff_ne.mpr here, Bool.false_and, Bool.false_and]

end Visits

end ScriptSemantics
