import ScriptSemantics.Syntax.Tree

/-!
# The grammar of trees

A stored tree is valid when its root exists, every child exists and has one parent, the root has
none, and every child has a kind that its place in the parent allows. Nodes that the root does not
reach are held to the same rules.

The links of the tree are checked one after another, parents in increasing order and the children of
one parent in source order, and the first broken rule is the one reported.
-/
namespace ScriptSemantics

/-- A place that a production has for children. -/
inductive Slot where
  | item
  | superclass
  | member
  | typeOrVoid
  | body
  | formalParameter
  | type
  | declaratorId
  | declarator
  | expression
  | typeAlternative
  | statement
  deriving DecidableEq, Repr

namespace Slot

def describe : Slot → String
  | .item => "declaration or statement"
  | .superclass => "class type"
  | .member => "member declaration"
  | .typeOrVoid => "type or void"
  | .body => "block"
  | .formalParameter => "formal parameter"
  | .type => "type"
  | .declaratorId => "variable declarator id"
  | .declarator => "variable declarator"
  | .expression => "expression"
  | .typeAlternative => "primitive, class or function type"
  | .statement => "statement"

def admits (slot : Slot) (kind : NodeKind) : Bool :=
  match slot with
  | .item => kind.isMember || kind.isStatement
  | .superclass => kind == .classReference
  | .member => kind.isMember
  | .typeOrVoid => kind == .typeOrVoid
  | .body => kind == .block
  | .formalParameter => kind == .formalParameter
  | .type => kind == .typeNode
  | .declaratorId => kind == .variableDeclaratorId
  | .declarator => kind == .variableDeclarator
  | .expression => kind.isExpression
  | .typeAlternative => kind.isTypeAlternative
  | .statement => kind.isStatement || kind == .classDeclaration

end Slot

/-- The slot in which a child stands. It is told by the child's number: a child that is listed twice
is judged by the slot that holds a single child. -/
def Production.slotOf? (production : Production) (child : NodeId) : Option Slot :=
  match production with
  | .compilationUnit _ => some .item
  | .classDeclaration _ superclass _ =>
      if superclass = some child then some .superclass else some .member
  | .functionDeclaration _ returnType _ body =>
      if returnType = some child then some .typeOrVoid
      else if body = child then some .body
      else some .formalParameter
  | .formalParameter type _ => if type = child then some .type else some .declaratorId
  | .variableDeclarators type _ => if type = child then some .type else some .declarator
  | .variableDeclarator id _ => if id = child then some .declaratorId else some .expression
  | .typeNode _ => some .typeAlternative
  | .typeOrVoid _ => some .type
  | .functionType _ returnType => if returnType = child then some .typeOrVoid else some .type
  | .block _ => some .statement
  | .expressionStatement _ => some .expression
  | .variableDeclaratorId _ | .primitiveType _ | .classReference _ | .literal _
  | .identifier _ => none

/-- A broken rule of the grammar. -/
inductive TreeError where
  | invalidRoot (root : NodeId)
  | danglingChild (parent child : NodeId)
  | unexpectedChild (parent child : NodeId) (found : NodeKind) (expected : Slot)
  | sharedChild (child : NodeId)
  deriving DecidableEq, Repr

def TreeError.message : TreeError → String
  | .invalidRoot root => s!"root {root.render} is not a node of the tree"
  | .danglingChild parent child =>
      s!"{parent.render} refers to {child.render} which is not a node of the tree"
  | .unexpectedChild parent child found expected =>
      s!"{child.render} under {parent.render} is a {found.name}, expected {expected.describe}"
  | .sharedChild child => s!"{child.render} has more than one parent"

/-- One place where a node refers to a child. -/
structure Link where
  parent : NodeId
  production : Production
  child : NodeId
  deriving DecidableEq, Repr

/-- The slot of the link, if a child of this kind may not stand in it. -/
def Link.brokenSlot? (link : Link) (kind : NodeKind) : Option Slot :=
  (link.production.slotOf? link.child).filter fun slot => !slot.admits kind

/-- The links of one node, in source order. -/
def Node.linksFrom (node : Node) (id : NodeId) : List Link :=
  node.children.map fun child => ⟨id, node.production, child⟩

namespace SyntaxTree

/-- All links of the tree, by the parent's number and then in source order. -/
def links (tree : SyntaxTree) : List Link :=
  tree.nodes.toList.zipIdx.flatMap fun (node, index) => node.linksFrom ⟨index⟩

/-- Checks one link against the nodes that are children already, and adds its child to them. -/
def checkLink (tree : SyntaxTree) (taken : Array Bool) (link : Link) :
    Except TreeError (Array Bool) :=
  match tree.node? link.child with
  | none => .error (.danglingChild link.parent link.child)
  | some child =>
    if link.child = tree.root ∨ taken[link.child.index]? = some true then
      .error (.sharedChild link.child)
    else
      match link.brokenSlot? child.kind with
      | some slot => .error (.unexpectedChild link.parent link.child child.kind slot)
      | none => .ok (taken.setIfInBounds link.child.index true)

/-- Checks that the store is a tree whose children have the kinds that their slots allow, or names
the first broken rule. -/
def validate (tree : SyntaxTree) : Except TreeError Unit :=
  match tree.node? tree.root with
  | none => .error (.invalidRoot tree.root)
  | some _ => do
    let _ ← tree.links.foldlM tree.checkLink (Array.replicate tree.size false)
    pure ()

end SyntaxTree

end ScriptSemantics
