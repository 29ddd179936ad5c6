/-!
# Byte ranges

A location is a half-open range of bytes of the source text. Nothing forces its start to lie before
its end: a stored tree may carry any two numbers.
-/
namespace ScriptSemantics

/-- A range of bytes, compared by start first and by end second. -/
structure Location where
  startByte : Nat
  endByte : Nat
  deriving DecidableEq, Repr, Ord

namespace Location

/-- The empty range at the beginning, which stands for a location that was never recorded. -/
def origin : Location := ⟨0, 0⟩

/-- From the start of the first range to the end of the second. -/
def merge (first last : Location) : Location := ⟨first.startByte, last.endByte⟩

@[simp] theorem merge_startByte (a b : Location) : (a.merge b).startByte = a.startByte := rfl

@[simp] theorem merge_endByte (a b : Location) : (a.merge b).endByte = b.endByte := rfl

/-- Both ends in decimal with two dots between them. -/
def render (l : Location) : String := s!"{l.startByte}..{l.endByte}"

end Location

end ScriptSemantics
