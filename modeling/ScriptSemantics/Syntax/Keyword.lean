/-!
# Keywords of primitive types

The nine keywords by which the language names a type.
-/
namespace ScriptSemantics

/-- A keyword that names a type. -/
inductive PrimitiveKeyword where
  | boolean
  | int
  | long
  | float
  | double
  | byte
  | short
  | char
  | string
  deriving DecidableEq, Repr

namespace PrimitiveKeyword

def all : List PrimitiveKeyword :=
  [.boolean, .int, .long, .float, .double, .byte, .short, .char, .string]

def text : PrimitiveKeyword → String
  | .boolean => "boolean"
  | .int => "int"
  | .long => "long"
  | .float => "float"
  | .double => "double"
  | .byte => "byte"
  | .short => "short"
  | .char => "char"
  | .string => "string"

def ofText? (text : String) : Option PrimitiveKeyword := all.find? fun k => k.text == text

@[simp] theorem ofText?_text (keyword : PrimitiveKeyword) : ofText? keyword.text = some keyword := by
  cases keyword <;> decide

end PrimitiveKeyword

end ScriptSemantics
