/-!
# Finite doubles

A double has a significand of 53 binary digits. Naturals are rounded to the nearest such number, and
from a limit on they round to none that is finite.
-/
namespace ScriptSemantics.Double

/-- The least natural number that rounds to no finite double: halfway between the largest and the
power of two above it. -/
def overflowLimit : Nat := Nat.pow 2 1024 - Nat.pow 2 970

/-- A natural number rounded to 53 binary digits, a tie to the even neighbour. -/
def round (n : Nat) : Nat :=
  let unit := Nat.pow 2 (n.log2 + 1 - 53)
  let quotient := n / unit
  let twice := 2 * (n % unit)
  if twice < unit ∨ (twice = unit ∧ quotient % 2 = 0) then quotient * unit
  else (quotient + 1) * unit

end ScriptSemantics.Double
