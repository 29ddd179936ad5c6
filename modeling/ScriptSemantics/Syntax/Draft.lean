import ScriptSemantics.Syntax.Tree

/-!
# Drafting trees

A draft allocates children before their parents. A node without children gets the next free location
of its width in bytes, one byte after the one before it; a node with children covers the span from
its first child to its last.
-/
namespace ScriptSemantics

/-- A tree under construction: its nodes, and the byte at which the next childless node starts. -/
structure TreeDraft where
  nodes : Array Node
  cursor : Nat
  deriving DecidableEq, Repr

/-- A drafting step reads and changes a draft. It faults when it looks up a node that is not
there. -/
abbrev Drafting := StateT TreeDraft (Except Fault)

namespace TreeDraft

def empty : TreeDraft := ⟨#[], 0⟩

def locationOf (draft : TreeDraft) (id : NodeId) : Except Fault Location := do
  let node ← orDangling draft.nodes[id.index]?
  pure node.location

def push (draft : TreeDraft) (node : Node) : TreeDraft :=
  { draft with nodes := draft.nodes.push node }

/-- Adds a node. Its width counts only if it has no children; if it has, only its first and its last
child are looked up. -/
def allocate (production : Production) (width : Nat) : Drafting NodeId := fun draft =>
  let id : NodeId := ⟨draft.nodes.size⟩
  match production.children.head?, production.children.getLast? with
  | some first, some last => do
    let start ← draft.locationOf first
    let stop ← draft.locationOf last
    pure (id, draft.push ⟨production, start.merge stop⟩)
  | _, _ =>
    let stop := draft.cursor + width
    pure (id, { draft.push ⟨production, ⟨draft.cursor, stop⟩⟩ with cursor := stop + 1 })

/-- Moves a node of the draft to a location of the caller's choice. -/
def place (id : NodeId) (location : Location) : Drafting NodeId := fun draft => do
  let node ← orDangling draft.nodes[id.index]?
  pure (id, { draft with
    nodes := draft.nodes.setIfInBounds id.index { node with location := location } })

/-- A primitive type, as wide as its keyword. -/
def primitiveType (keyword : PrimitiveKeyword) : Drafting NodeId :=
  allocate (.primitiveType keyword) keyword.text.utf8ByteSize

/-- A type around a primitive type, a class reference or a function type. -/
def typeNode (alternative : NodeId) : Drafting NodeId := allocate (.typeNode alternative) 0

/-- A primitive type with the type around it. -/
def primitive (keyword : PrimitiveKeyword) : Drafting NodeId := do
  typeNode (← primitiveType keyword)

/-- A class reference, as wide as the name. -/
def classReference (name : String) : Drafting NodeId :=
  allocate (.classReference name) name.utf8ByteSize

/-- A class reference with the type around it. -/
def classType (name : String) : Drafting NodeId := do
  typeNode (← classReference name)

/-- A function type with the type around it. -/
def functionType (parameters : List NodeId) (returnType : NodeId) : Drafting NodeId := do
  typeNode (← allocate (.functionType parameters returnType) "function".utf8ByteSize)

def void : Drafting NodeId := allocate (.typeOrVoid none) "void".utf8ByteSize

/-- A type in the place where `void` could stand. -/
def returns (type : NodeId) : Drafting NodeId := allocate (.typeOrVoid (some type)) 0

/-- The name of a variable, as wide as the name. -/
def declaratorId (name : String) : Drafting NodeId :=
  allocate (.variableDeclaratorId name) name.utf8ByteSize

/-- A variable with its name and an initializer, which is drafted before the name. -/
def declarator (name : String) (initializer : Option NodeId) : Drafting NodeId := do
  allocate (.variableDeclarator (← declaratorId name) initializer) 0

/-- A declaration of the given declarators. -/
def declarators (type : NodeId) (declarators : List NodeId) : Drafting NodeId :=
  allocate (.variableDeclarators type declarators) 0

/-- A declaration of variables without initializers. -/
def variableDeclaration (type : NodeId) (names : List String) : Drafting NodeId := do
  declarators type (← names.mapM fun name => declarator name none)

def parameter (type : NodeId) (name : String) : Drafting NodeId := do
  allocate (.formalParameter type (← declaratorId name)) 0

def function (name : String) (returnType : Option NodeId) (parameters : List NodeId)
    (body : NodeId) : Drafting NodeId :=
  allocate (.functionDeclaration name returnType parameters body) name.utf8ByteSize

/-- A class declaration. The reference to its superclass is drafted just before it, after the
body. -/
def classDeclaration (name : String) (superclass : Option String) (body : List NodeId) :
    Drafting NodeId := do
  allocate (.classDeclaration name (← superclass.mapM classReference) body) name.utf8ByteSize

/-- A block, two bytes wide if it is empty. -/
def block (statements : List NodeId) : Drafting NodeId := allocate (.block statements) 2

/-- An expression in the place of a statement. -/
def expression (expression : NodeId) : Drafting NodeId :=
  allocate (.expressionStatement expression) 0

/-- A literal, as wide as its text. -/
def literal (text : String) : Drafting NodeId := allocate (.literal text) text.utf8ByteSize

/-- An identifier, as wide as its name. -/
def identifier (name : String) : Drafting NodeId := allocate (.identifier name) name.utf8ByteSize

/-- Ends a draft with a compilation unit of the given items, which becomes the root. -/
def finish (draft : TreeDraft) (items : List NodeId) : Except Fault SyntaxTree := do
  let (root, draft) ← (allocate (.compilationUnit items) 0).run draft
  pure ⟨draft.nodes, root⟩

end TreeDraft

/-- One request to a draft. -/
inductive DraftStep where
  | place (id : NodeId) (location : Location)
  | primitiveType (keyword : PrimitiveKeyword)
  | primitive (keyword : PrimitiveKeyword)
  | classReference (name : String)
  | classType (name : String)
  | functionType (parameters : List NodeId) (returnType : NodeId)
  | typeNode (alternative : NodeId)
  | void
  | returns (type : NodeId)
  | declaratorId (name : String)
  | declarator (name : String) (initializer : Option NodeId)
  | declarators (type : NodeId) (declarators : List NodeId)
  | variableDeclaration (type : NodeId) (names : List String)
  | parameter (type : NodeId) (name : String)
  | function (name : String) (returnType : Option NodeId) (parameters : List NodeId)
      (body : NodeId)
  | classDeclaration (name : String) (superclass : Option String) (body : List NodeId)
  | block (statements : List NodeId)
  | expression (expression : NodeId)
  | literal (text : String)
  | identifier (name : String)
  deriving DecidableEq, Repr

/-- Carries out one request, which answers with the node that it adds or moves. -/
def DraftStep.run : DraftStep → Drafting NodeId
  | .place id location => TreeDraft.place id location
  | .primitiveType keyword => TreeDraft.primitiveType keyword
  | .primitive keyword => TreeDraft.primitive keyword
  | .classReference name => TreeDraft.classReference name
  | .classType name => TreeDraft.classType name
  | .functionType parameters result => TreeDraft.functionType parameters result
  | .typeNode alternative => TreeDraft.typeNode alternative
  | .void => TreeDraft.void
  | .returns type => TreeDraft.returns type
  | .declaratorId name => TreeDraft.declaratorId name
  | .declarator name initializer => TreeDraft.declarator name initializer
  | .declarators type each => TreeDraft.declarators type each
  | .variableDeclaration type names => TreeDraft.variableDeclaration type names
  | .parameter type name => TreeDraft.parameter type name
  | .function name result parameters body => TreeDraft.function name result parameters body
  | .classDeclaration name superclass body => TreeDraft.classDeclaration name superclass body
  | .block statements => TreeDraft.block statements
  | .expression e => TreeDraft.expression e
  | .literal text => TreeDraft.literal text
  | .identifier name => TreeDraft.identifier name

namespace TreeDraft

/-- Carries out requests in order, with the node that each of them answered. -/
def runAll (steps : List DraftStep) : Drafting (List NodeId) := steps.mapM DraftStep.run

/-- The tree drafted by the requests, with a compilation unit of the given items as its root. -/
def tree (steps : List DraftStep) (items : List NodeId) : Except Fault SyntaxTree := do
  let (_, draft) ← (runAll steps).run empty
  draft.finish items

end TreeDraft

end ScriptSemantics
