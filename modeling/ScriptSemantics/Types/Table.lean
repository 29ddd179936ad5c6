import ScriptSemantics.Fault
import ScriptSemantics.Types.Basic

/-!
# Type tables

A table owns the signatures of all function types and lists the types in the order in which they
were discovered. Handles are compared by what they stand for: two function types are the same when
their signatures agree position by position, without any widening.
-/
namespace ScriptSemantics

/-- Signatures by number, and the discovered types in order. -/
structure TypeTable where
  functions : Array Signature
  discovered : Array Ty
  deriving DecidableEq, Repr

namespace TypeTable

def empty : TypeTable := ⟨#[], #[]⟩

/-- A fresh function type, which counts as discovered. No two calls give the same handle. -/
def allocate (types : TypeTable) (signature : Signature) : Ty × TypeTable :=
  let type := Ty.functionType ⟨types.functions.size⟩
  (type, ⟨types.functions.push signature, types.discovered.push type⟩)

/-- Notes that a type was discovered, unless it is noted already. -/
def register (types : TypeTable) (type : Ty) : TypeTable :=
  if type ∈ types.discovered then types
  else { types with discovered := types.discovered.push type }

def signature (types : TypeTable) (id : FunctionTypeId) : Except Fault Signature :=
  orDangling types.functions[id.index]?

/-- Whether two lists agree position by position. Their lengths are compared before any element, and
nothing is compared after the first difference. -/
def pairwise (same : Ty → Ty → Except Fault Bool) : List Ty → List Ty → Except Fault Bool
  | left :: lefts, right :: rights => do
    if ← same left right then pairwise same lefts rights else pure false
  | _, _ => pure true

/-- Whether two lists have one length and agree position by position. -/
def matchWith (same : Ty → Ty → Except Fault Bool) (lefts rights : List Ty) :
    Except Fault Bool :=
  if lefts.length = rights.length then pairwise same lefts rights else pure false

/-- Whether two handles stand for the same type, unfolding function types no deeper than the
bound. -/
def sameWithin (types : TypeTable) : Nat → Ty → Ty → Except Fault Bool
  | 0, .functionType _, .functionType _ => .error .endless
  | depth + 1, .functionType left, .functionType right => do
    let left ← types.signature left
    let right ← types.signature right
    if ← sameWithin types depth left.returnType right.returnType then
      matchWith (sameWithin types depth) left.parameterTypes right.parameterTypes
    else pure false
  | _, left, right => pure (left == right)

/-- How deep a comparison may go. A longer path of pairs would repeat one of them. -/
def comparisonDepth (types : TypeTable) : Nat := types.functions.size * types.functions.size + 1

/-- Whether two handles stand for the same type. -/
def sameType (types : TypeTable) (left right : Ty) : Except Fault Bool :=
  types.sameWithin types.comparisonDepth left right

/-- Whether a list of argument types is exactly a list of declared types. -/
def matchParameterTypes (types : TypeTable) (candidate declared : List Ty) : Except Fault Bool :=
  matchWith types.sameType candidate declared

end TypeTable

end ScriptSemantics
