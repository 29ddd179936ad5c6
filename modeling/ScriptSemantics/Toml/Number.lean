import ScriptSemantics.Double
import ScriptSemantics.Toml.Text

/-!
# Numbers of TOML

Integers have 64 bits and may be written in base ten, sixteen, eight or two. Floats are doubles. An
underscore may stand between two digits. A decimal float that is too large for a double is refused,
and one that is too small for a negative double is not.
-/
namespace ScriptSemantics.Toml

/-- A decimal float as it is written: the digits before and after the point, and the exponent. -/
structure Decimal where
  negative : Bool
  whole : List Char
  fraction : List Char
  exponent : Int
  deriving DecidableEq, Repr

/-- Whether the size of the decimal rounds to no finite double. The number of its digits decides,
except where the digits before the point are as many as those of the largest double. -/
def Decimal.overflows (d : Decimal) : Bool :=
  let digits := (d.whole ++ d.fraction).dropWhile (· == '0')
  let scale := d.exponent - (d.fraction.length : Int)
  let wholeDigits := (digits.length : Int) + scale
  if digits.isEmpty ∨ wholeDigits < 309 then false
  else if 309 < wholeDigits then true
  else
    let significand := Scan.digitsValue 10 digits
    if 0 ≤ scale then Double.overflowLimit ≤ significand * Nat.pow 10 scale.toNat
    else Double.overflowLimit * Nat.pow 10 (-scale).toNat ≤ significand

inductive FloatValue where
  | decimal (value : Decimal)
  | infinity (negative : Bool)
  | notANumber (negative : Bool)
  deriving DecidableEq, Repr

namespace Scan

/-- A sign, and whether it is a minus. -/
def sign : Scan Bool := do
  pure ((← maybe (satisfy fun c => c == '+' || c == '-')) == some '-')

/-- A further digit with an underscore before it, if there is one. -/
def furtherDigit (isDigit : Char → Bool) : Scan Char :=
  satisfy isDigit <|> do
    char '_'
    satisfy isDigit

/-- One digit or more, with underscores between some of them. -/
def digits (isDigit : Char → Bool) : Scan (List Char) := do
  let first ← satisfy isDigit
  pure (first :: (← many (furtherDigit isDigit)))

/-- The digits of a decimal number. Only zero begins with a zero. -/
def decimalDigits : Scan (List Char) :=
  (do
    let first ← satisfy fun c => '1' ≤ c && c ≤ '9'
    pure (first :: (← many (furtherDigit Char.isDigit))))
  <|> (do pure [← satisfy Char.isDigit])

/-- The size of the least integer of 64 bits, which is one more than the greatest. -/
def integerLimit : Nat := 9223372036854775808

/-- An integer of a base that a letter after a zero names. -/
def basedInteger (letter : Char) (base : Nat) (isDigit : Char → Bool) : Scan Int := do
  word ['0', letter]
  let value := digitsValue base (← digits isDigit)
  if value < integerLimit then pure value else failure

/-- A decimal integer with an optional sign. -/
def decimalInteger : Scan Int := do
  let negative ← sign
  let size := digitsValue 10 (← decimalDigits)
  if negative then
    if size ≤ integerLimit then pure (-(size : Int)) else failure
  else if size < integerLimit then pure size
  else failure

def integer : Scan Int :=
  basedInteger 'x' 16 isHexDigit
    <|> basedInteger 'o' 8 (fun c => '0' ≤ c && c ≤ '7')
    <|> basedInteger 'b' 2 (fun c => c == '0' || c == '1')
    <|> decimalInteger

/-- The digits after a point. -/
def fraction : Scan (List Char) := do
  char '.'
  digits Char.isDigit

def exponent : Scan Int := do
  let _ ← satisfy fun c => c == 'e' || c == 'E'
  let negative ← sign
  let size := digitsValue 10 (← digits Char.isDigit)
  pure (if negative then -(size : Int) else size)

/-- A decimal with a fraction, an exponent or both. -/
def decimal : Scan Decimal := do
  let negative ← sign
  let whole ← decimalDigits
  let fraction ← maybe fraction
  let exponent ← if fraction.isSome then maybe exponent else do pure (some (← exponent))
  pure ⟨negative, whole, fraction.getD [], exponent.getD 0⟩

/-- Infinity or no number, with an optional sign. -/
def specialFloat : Scan FloatValue := do
  let negative ← sign
  (do word ['i', 'n', 'f']; pure (.infinity negative))
    <|> (do word ['n', 'a', 'n']; pure (.notANumber negative))

def float : Scan FloatValue :=
  (do
    let decimal ← decimal
    if !decimal.negative && decimal.overflows then failure else pure (.decimal decimal))
  <|> specialFloat

end Scan

end ScriptSemantics.Toml
