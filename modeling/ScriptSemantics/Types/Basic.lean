import ScriptSemantics.Syntax.Keyword

/-!
# Types

A type is a handle. Primitive types and `void` are told apart by themselves, class types by the
scope of their class, and function types by the place of their signature in a table, so two function
types of one signature may be two handles.
-/
namespace ScriptSemantics

structure ScopeId where
  index : Nat
  deriving DecidableEq, Repr, Inhabited

structure FunctionTypeId where
  index : Nat
  deriving DecidableEq, Repr, Inhabited

/-- A type that a keyword names. -/
inductive PrimitiveType where
  | boolean
  | integer
  | long
  | float
  | double
  | byte
  | short
  | char
  | string
  deriving DecidableEq, Repr

namespace PrimitiveType

/-- The type that a keyword names. -/
def forKeyword : PrimitiveKeyword → PrimitiveType
  | .boolean => .boolean
  | .int => .integer
  | .long => .long
  | .float => .float
  | .double => .double
  | .byte => .byte
  | .short => .short
  | .char => .char
  | .string => .string

/-- The text that a type is shown by. -/
def keyword : PrimitiveType → String
  | .boolean => "boolean"
  | .integer => "int"
  | .long => "long"
  | .float => "float"
  | .double => "double"
  | .byte => "byte"
  | .short => "short"
  | .char => "char"
  | .string => "string"

/-- A type is shown by the keyword that names it. -/
@[simp] theorem keyword_forKeyword (k : PrimitiveKeyword) : (forKeyword k).keyword = k.text := by
  cases k <;> rfl

end PrimitiveType

/-- A handle to a type. -/
inductive Ty where
  | primitive (primitive : PrimitiveType)
  /-- The absence of a value. Only a function may return it. -/
  | void
  | classType (scope : ScopeId)
  | functionType (id : FunctionTypeId)
  deriving DecidableEq, Repr

/-- What a function returns and takes. -/
structure Signature where
  returnType : Ty
  parameterTypes : List Ty
  deriving DecidableEq, Repr

end ScriptSemantics
