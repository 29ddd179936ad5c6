import ScriptSemantics.Location
import ScriptSemantics.Syntax.Keyword

/-!
# Syntax nodes

A node carries one production of the grammar and a location. Productions refer to their children by
number, so a node on its own says nothing about what its children are.
-/
namespace ScriptSemantics

structure NodeId where
  index : Nat
  deriving DecidableEq, Repr, Inhabited

/-- The name of a node in messages. -/
def NodeId.render (id : NodeId) : String := s!"NodeId({id.index})"

/-- The productions of the grammar, without their contents. -/
inductive NodeKind where
  | compilationUnit
  | classDeclaration
  | functionDeclaration
  | formalParameter
  | variableDeclarators
  | variableDeclarator
  | variableDeclaratorId
  | typeNode
  | typeOrVoid
  | primitiveType
  | functionType
  | classReference
  | block
  | expressionStatement
  | literal
  | identifier
  deriving DecidableEq, Repr

namespace NodeKind

def all : List NodeKind :=
  [.compilationUnit, .classDeclaration, .functionDeclaration, .formalParameter,
    .variableDeclarators, .variableDeclarator, .variableDeclaratorId, .typeNode, .typeOrVoid,
    .primitiveType, .functionType, .classReference, .block, .expressionStatement, .literal,
    .identifier]

def name : NodeKind → String
  | .compilationUnit => "compilation unit"
  | .classDeclaration => "class declaration"
  | .functionDeclaration => "function declaration"
  | .formalParameter => "formal parameter"
  | .variableDeclarators => "variable declarators"
  | .variableDeclarator => "variable declarator"
  | .variableDeclaratorId => "variable declarator id"
  | .typeNode => "type"
  | .typeOrVoid => "type or void"
  | .primitiveType => "primitive type"
  | .functionType => "function type"
  | .classReference => "class type"
  | .block => "block"
  | .expressionStatement => "expression statement"
  | .literal => "literal"
  | .identifier => "identifier"

/-- Primitive types, class references and function types. -/
def isTypeAlternative : NodeKind → Bool
  | .primitiveType | .classReference | .functionType => true
  | _ => false

def isExpression : NodeKind → Bool
  | .literal | .identifier => true
  | _ => false

def isStatement : NodeKind → Bool
  | .variableDeclarators | .block | .expressionStatement => true
  | _ => false

/-- What a class body may hold. -/
def isMember : NodeKind → Bool
  | .variableDeclarators | .functionDeclaration | .classDeclaration => true
  | _ => false

/-- Classes, functions and blocks have a scope of their own. -/
def introducesScope : NodeKind → Bool
  | .classDeclaration | .functionDeclaration | .block => true
  | _ => false

end NodeKind

/-- One production of the grammar with its texts and the numbers of its children. -/
inductive Production where
  | compilationUnit (items : List NodeId)
  | classDeclaration (name : String) (superclass : Option NodeId) (body : List NodeId)
  | functionDeclaration (name : String) (returnType : Option NodeId) (parameters : List NodeId)
      (body : NodeId)
  | formalParameter (type declarator : NodeId)
  | variableDeclarators (type : NodeId) (declarators : List NodeId)
  | variableDeclarator (id : NodeId) (initializer : Option NodeId)
  | variableDeclaratorId (name : String)
  /-- Wraps exactly one primitive type, class reference or function type. -/
  | typeNode (alternative : NodeId)
  /-- The keyword `void` when there is no type. -/
  | typeOrVoid (type : Option NodeId)
  | primitiveType (keyword : PrimitiveKeyword)
  | functionType (parameters : List NodeId) (returnType : NodeId)
  | classReference (name : String)
  | block (statements : List NodeId)
  | expressionStatement (expression : NodeId)
  | literal (text : String)
  | identifier (name : String)
  deriving DecidableEq, Repr

namespace Production

def kind : Production → NodeKind
  | .compilationUnit .. => .compilationUnit
  | .classDeclaration .. => .classDeclaration
  | .functionDeclaration .. => .functionDeclaration
  | .formalParameter .. => .formalParameter
  | .variableDeclarators .. => .variableDeclarators
  | .variableDeclarator .. => .variableDeclarator
  | .variableDeclaratorId .. => .variableDeclaratorId
  | .typeNode .. => .typeNode
  | .typeOrVoid .. => .typeOrVoid
  | .primitiveType .. => .primitiveType
  | .functionType .. => .functionType
  | .classReference .. => .classReference
  | .block .. => .block
  | .expressionStatement .. => .expressionStatement
  | .literal .. => .literal
  | .identifier .. => .identifier

/-- The children in source order, which is also the order of a walk. -/
def children : Production → List NodeId
  | .compilationUnit items => items
  | .classDeclaration _ superclass body => superclass.toList ++ body
  | .functionDeclaration _ returnType parameters body =>
      returnType.toList ++ parameters ++ [body]
  | .formalParameter type declarator => [type, declarator]
  | .variableDeclarators type declarators => type :: declarators
  | .variableDeclarator id initializer => id :: initializer.toList
  | .typeNode alternative => [alternative]
  | .typeOrVoid type => type.toList
  | .functionType parameters returnType => parameters ++ [returnType]
  | .block statements => statements
  | .expressionStatement expression => [expression]
  | .variableDeclaratorId _ | .primitiveType _ | .classReference _ | .literal _
  | .identifier _ => []

end Production

/-- A production at a place in the source text. -/
structure Node where
  production : Production
  location : Location
  deriving DecidableEq, Repr

def Node.kind (node : Node) : NodeKind := node.production.kind

/-- The children of the node in source order. -/
def Node.children (node : Node) : List NodeId := node.production.children

end ScriptSemantics
