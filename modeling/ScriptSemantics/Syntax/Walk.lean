import ScriptSemantics.Syntax.Tree

/-!
# Walks

A walk enters a node, walks its children in source order and exits the node, so whatever the
children's exits produce is there when their parent exits. A listener folds a state along the walk
and may stop it. The trace of a walk is the sequence of its events, without any listener.
-/
namespace ScriptSemantics

/-- Whether a walk comes to a node or leaves it. -/
inductive Phase where
  | enter
  | exit
  deriving DecidableEq, Repr

/-- One step of a walk. -/
structure Event where
  phase : Phase
  node : NodeId
  deriving DecidableEq, Repr

/-- What to do at an event: the phase, the node's number and the node, and the state so far. -/
abbrev Listener (ε σ : Type) := Phase → NodeId → Node → σ → Except (Halt ε) σ

namespace SyntaxTree

variable {ε σ : Type}

/-- The walk below a node, following links no deeper than the bound. -/
def walkWithin (tree : SyntaxTree) (listen : Listener ε σ) :
    Nat → NodeId → σ → Except (Halt ε) σ
  | 0, _, _ => .error (.fault .endless)
  | depth + 1, id, state => do
    let node ← tree.node id
    let entered ← listen .enter id node state
    let below ← node.children.foldlM (fun s child => tree.walkWithin listen depth child s) entered
    listen .exit id node below

/-- The walk from a node. A path that is longer than the tree has nodes repeats one of them, and a
walk that comes back to a node above it never ends. -/
def walkFrom (tree : SyntaxTree) (listen : Listener ε σ) (id : NodeId) (state : σ) :
    Except (Halt ε) σ :=
  tree.walkWithin listen (tree.size + 1) id state

/-- The walk from the root. -/
def walk (tree : SyntaxTree) (listen : Listener ε σ) (state : σ) : Except (Halt ε) σ :=
  tree.walkFrom listen tree.root state

end SyntaxTree

/-- The events of a walk in order, and the fault that cut them short, if one did. -/
structure Trace where
  events : List Event
  fault : Option Fault
  deriving DecidableEq, Repr

namespace Trace

def single (event : Event) : Trace := ⟨[event], none⟩

def broken (fault : Fault) : Trace := ⟨[], some fault⟩

/-- One trace after another. Nothing follows a fault. -/
def append (first : Trace) (second : Unit → Trace) : Trace :=
  match first.fault with
  | some _ => first
  | none =>
    let after := second ()
    ⟨first.events ++ after.events, after.fault⟩

end Trace

namespace SyntaxTree

/-- The trace of the walk below a node, following links no deeper than the bound. -/
def traceWithin (tree : SyntaxTree) : Nat → NodeId → Trace
  | 0, _ => .broken .endless
  | depth + 1, id =>
    match tree.node? id with
    | none => .broken .dangling
    | some node =>
      let entered := Trace.single ⟨.enter, id⟩
      let below := node.children.foldl
        (fun trace child => Trace.append trace fun _ => tree.traceWithin depth child) entered
      below.append fun _ => .single ⟨.exit, id⟩

/-- The trace of the walk from a node. -/
def trace (tree : SyntaxTree) (id : NodeId) : Trace := tree.traceWithin (tree.size + 1) id

end SyntaxTree

/-- How a recorded walk ended. -/
inductive Ending where
  | complete
  | stopped (node : NodeId)
  | broken (fault : Fault)
  deriving DecidableEq, Repr

/-- A listener that keeps every event it is told, latest first, and gives up at the first one that
it is to stop at. Its failure carries that event and the events kept. -/
def recorder (stop : Event → Bool) : Listener (Event × List Event) (List Event) :=
  fun phase id _ told =>
    let event : Event := ⟨phase, id⟩
    if stop event then .error (.failed (event, event :: told)) else .ok (event :: told)

/-- Records the events of the walk from a node up to the first one to stop at. -/
def SyntaxTree.recordFrom (tree : SyntaxTree) (stop : Event → Bool) (id : NodeId) :
    List Event × Ending :=
  match tree.walkFrom (recorder stop) id [] with
  | .ok told => (told.reverse, .complete)
  | .error (.failed (event, told)) => (told.reverse, .stopped event.node)
  | .error (.fault fault) => ((tree.trace id).events, .broken fault)

end ScriptSemantics
