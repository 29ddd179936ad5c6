import ScriptSemantics.Fault
import ScriptSemantics.Syntax.Node

/-!
# Syntax trees

A tree is a store of numbered nodes with one of them named as the root. The store says nothing about
its shape: children may be missing, shared or circular until the tree has been validated.
-/
namespace ScriptSemantics

/-- Numbered nodes and the number of the root. -/
structure SyntaxTree where
  nodes : Array Node
  root : NodeId
  deriving DecidableEq, Repr

namespace SyntaxTree

/-- The number of nodes, reachable from the root or not. -/
def size (tree : SyntaxTree) : Nat := tree.nodes.size

def node? (tree : SyntaxTree) (id : NodeId) : Option Node := tree.nodes[id.index]?

/-- The node of a number that the caller promises to be one of the tree. -/
def node (tree : SyntaxTree) (id : NodeId) : Except Fault Node := orDangling (tree.node? id)

def ids (tree : SyntaxTree) : List NodeId := (List.range tree.size).map NodeId.mk

theorem node?_isSome_iff (tree : SyntaxTree) (id : NodeId) :
    (tree.node? id).isSome ↔ id.index < tree.size := by
  simp [node?, size]

@[simp] theorem mem_ids (tree : SyntaxTree) (id : NodeId) :
    id ∈ tree.ids ↔ id.index < tree.size := by
  cases id
  simp [ids]

end SyntaxTree

end ScriptSemantics
