import ScriptSemantics.Json.Text
import ScriptSemantics.Syntax.Tree

/-!
# Trees as JSON

A tree is an object with its nodes and its root. A node is one flat object: the kind, the fields of
its production and the location. The reader takes members in any order, takes a missing or null
child where one is optional, and a missing location as the origin. It refuses a repeated member that
it knows and passes over members that it does not know.
-/
namespace ScriptSemantics

def NodeKind.tag : NodeKind → String
  | .compilationUnit => "compilation_unit"
  | .classDeclaration => "class_declaration"
  | .functionDeclaration => "function_declaration"
  | .formalParameter => "formal_parameter"
  | .variableDeclarators => "variable_declarators"
  | .variableDeclarator => "variable_declarator"
  | .variableDeclaratorId => "variable_declarator_id"
  | .typeNode => "type_type"
  | .typeOrVoid => "type_type_or_void"
  | .primitiveType => "primitive_type"
  | .functionType => "function_type"
  | .classReference => "class_or_interface_type"
  | .block => "block"
  | .expressionStatement => "expression_statement"
  | .literal => "literal"
  | .identifier => "identifier"

def NodeId.toJson (id : NodeId) : Json := .ofNat id.index

def Location.toJson (l : Location) : Json :=
  .record [("start_byte", .ofNat l.startByte), ("end_byte", .ofNat l.endByte)]

def Production.fields : Production → List (String × Json)
  | .compilationUnit items => [("items", .ofList NodeId.toJson items)]
  | .classDeclaration name superclass body =>
      [("name", .text name), ("superclass", .ofOption NodeId.toJson superclass),
        ("body", .ofList NodeId.toJson body)]
  | .functionDeclaration name returnType parameters body =>
      [("name", .text name), ("return_type", .ofOption NodeId.toJson returnType),
        ("parameters", .ofList NodeId.toJson parameters), ("body", body.toJson)]
  | .formalParameter type declarator =>
      [("type_type", type.toJson), ("declarator_id", declarator.toJson)]
  | .variableDeclarators type declarators =>
      [("type_type", type.toJson), ("declarators", .ofList NodeId.toJson declarators)]
  | .variableDeclarator id initializer =>
      [("id", id.toJson), ("initializer", .ofOption NodeId.toJson initializer)]
  | .variableDeclaratorId name => [("name", .text name)]
  | .typeNode alternative => [("alternative", alternative.toJson)]
  | .typeOrVoid type => [("type_type", .ofOption NodeId.toJson type)]
  | .primitiveType keyword => [("keyword", .text keyword.text)]
  | .functionType parameters returnType =>
      [("parameter_types", .ofList NodeId.toJson parameters), ("return_type", returnType.toJson)]
  | .classReference name => [("name", .text name)]
  | .block statements => [("statements", .ofList NodeId.toJson statements)]
  | .expressionStatement expression => [("expression", expression.toJson)]
  | .literal text => [("text", .text text)]
  | .identifier name => [("name", .text name)]

def Node.toJson (node : Node) : Json :=
  .record (("kind", .text node.kind.tag) :: node.production.fields
    ++ [("location", node.location.toJson)])

def SyntaxTree.toJson (tree : SyntaxTree) : Json :=
  .record [("nodes", .ofList Node.toJson tree.nodes.toList), ("root", tree.root.toJson)]

def SyntaxTree.render (tree : SyntaxTree) : String := tree.toJson.render

namespace Json

/-- The value of a member that is there at most once, if it is there. -/
def unique? (members : Members) (name : String) : Option (Option Json) :=
  match valuesOf members name with
  | [] => some none
  | [value] => some (some value)
  | _ => none

/-- A member that must be there once. -/
def required? {α : Type} (members : Members) (name : String) (read : Json → Option α) :
    Option α := do
  let value ← (← unique? members name)
  read value

/-- A member that may be missing or null. -/
def optional? {α : Type} (members : Members) (name : String) (read : Json → Option α) :
    Option (Option α) := do
  match ← unique? members name with
  | none => some none
  | some .null => some none
  | some value => (read value).map some

def natUpTo? (bound : Nat) (json : Json) : Option Nat := json.toNat?.filter (· ≤ bound)

def list? {α : Type} (read : Json → Option α) (json : Json) : Option (List α) := do
  (← json.toItems?).mapM read

/-- Whether the names of all members are texts. -/
def namesAreTexts (members : Members) : Bool := members.all fun m => m.1.isSome

end Json

/-- The kind of a name of the format, or of a plain number that counts kinds from zero. -/
def NodeKind.ofJson? : Json → Option NodeKind
  | .string text => text.bind fun tag => NodeKind.all.find? fun kind => kind.tag == tag
  | .number n => n.toNat?.bind fun index => NodeKind.all[index]?
  | _ => none

/-- The greatest node number of 32 bits. -/
def NodeId.greatest : Nat := 4294967295

/-- The greatest end of a location of 64 bits. -/
def Location.greatest : Nat := 18446744073709551615

/-- A node number of 32 bits, whether the tree has such a node or not. -/
def NodeId.ofJson? (json : Json) : Option NodeId := (json.natUpTo? greatest).map NodeId.mk

/-- The keyword of a text, or of an object whose only member it names. -/
def PrimitiveKeyword.ofJson? : Json → Option PrimitiveKeyword
  | .string text => text.bind PrimitiveKeyword.ofText?
  | .object [(name, .null)] | .object [(name, .object [])] => name.bind PrimitiveKeyword.ofText?
  | _ => none

/-- A location of 64 bits at both ends, as an object or as the array of its ends. -/
def Location.ofJson? : Json → Option Location
  | .object members => do
    guard (Json.namesAreTexts members)
    let start ← Json.required? members "start_byte" (Json.natUpTo? greatest)
    let stop ← Json.required? members "end_byte" (Json.natUpTo? greatest)
    some ⟨start, stop⟩
  | .array [start, stop] => do
    let start ← start.natUpTo? greatest
    let stop ← stop.natUpTo? greatest
    some ⟨start, stop⟩
  | _ => none

/-- The production of a kind, read from the members of a node. -/
def Production.ofMembers? (members : Json.Members) : NodeKind → Option Production
  | .compilationUnit => do
    let items ← Json.required? members "items" (Json.list? NodeId.ofJson?)
    some (.compilationUnit items)
  | .classDeclaration => do
    let name ← Json.required? members "name" Json.toText?
    let superclass ← Json.optional? members "superclass" NodeId.ofJson?
    let body ← Json.required? members "body" (Json.list? NodeId.ofJson?)
    some (.classDeclaration name superclass body)
  | .functionDeclaration => do
    let name ← Json.required? members "name" Json.toText?
    let returnType ← Json.optional? members "return_type" NodeId.ofJson?
    let parameters ← Json.required? members "parameters" (Json.list? NodeId.ofJson?)
    let body ← Json.required? members "body" NodeId.ofJson?
    some (.functionDeclaration name returnType parameters body)
  | .formalParameter => do
    let type ← Json.required? members "type_type" NodeId.ofJson?
    let declarator ← Json.required? members "declarator_id" NodeId.ofJson?
    some (.formalParameter type declarator)
  | .variableDeclarators => do
    let type ← Json.required? members "type_type" NodeId.ofJson?
    let declarators ← Json.required? members "declarators" (Json.list? NodeId.ofJson?)
    some (.variableDeclarators type declarators)
  | .variableDeclarator => do
    let id ← Json.required? members "id" NodeId.ofJson?
    let initializer ← Json.optional? members "initializer" NodeId.ofJson?
    some (.variableDeclarator id initializer)
  | .variableDeclaratorId => do
    let name ← Json.required? members "name" Json.toText?
    some (.variableDeclaratorId name)
  | .typeNode => do
    let alternative ← Json.required? members "alternative" NodeId.ofJson?
    some (.typeNode alternative)
  | .typeOrVoid => do
    let type ← Json.optional? members "type_type" NodeId.ofJson?
    some (.typeOrVoid type)
  | .primitiveType => do
    let keyword ← Json.required? members "keyword" PrimitiveKeyword.ofJson?
    some (.primitiveType keyword)
  | .functionType => do
    let parameters ← Json.required? members "parameter_types" (Json.list? NodeId.ofJson?)
    let returnType ← Json.required? members "return_type" NodeId.ofJson?
    some (.functionType parameters returnType)
  | .classReference => do
    let name ← Json.required? members "name" Json.toText?
    some (.classReference name)
  | .block => do
    let statements ← Json.required? members "statements" (Json.list? NodeId.ofJson?)
    some (.block statements)
  | .expressionStatement => do
    let expression ← Json.required? members "expression" NodeId.ofJson?
    some (.expressionStatement expression)
  | .literal => do
    let text ← Json.required? members "text" Json.toText?
    some (.literal text)
  | .identifier => do
    let name ← Json.required? members "name" Json.toText?
    some (.identifier name)

/-- The location among the members of a node. A missing one is the origin. -/
def Location.ofMembers? (members : Json.Members) : Option Location := do
  match ← Json.unique? members "location" with
  | none => some .origin
  | some value => Location.ofJson? value

/-- How many brackets a member of a node may nest: a text nests at most 127 brackets where values
are kept, and a node stands inside three. -/
def Node.memberDepth : Nat := 124

/-- A node. All members but the location are kept until the kind is known, also those that no
production has. -/
def Node.ofJson? : Json → Option Node
  | .object members => do
    let kept := members.filter fun m => m.1 != some "location"
    guard (Json.membersKeepable Node.memberDepth kept)
    let kind ← Json.required? members "kind" NodeKind.ofJson?
    let production ← Production.ofMembers? members kind
    let location ← Location.ofMembers? members
    some ⟨production, location⟩
  | _ => none

def Node.listOfJson? (json : Json) : Option (Array Node) :=
  (Json.list? Node.ofJson? json).map List.toArray

/-- A tree, as an object or as the array of its nodes and its root. -/
def SyntaxTree.ofJson? : Json → Option SyntaxTree
  | .object members => do
    guard (Json.namesAreTexts members)
    let nodes ← Json.required? members "nodes" Node.listOfJson?
    let root ← Json.required? members "root" NodeId.ofJson?
    some ⟨nodes, root⟩
  | .array [nodes, root] => do
    let nodes ← Node.listOfJson? nodes
    let root ← NodeId.ofJson? root
    some ⟨nodes, root⟩
  | _ => none

def SyntaxTree.parse? (source : String) : Option SyntaxTree :=
  (Json.parse? source).bind SyntaxTree.ofJson?

end ScriptSemantics
