import ScriptSemantics.Double

/-!
# JSON numerals

A numeral is kept as it is written, digit by digit, because readers tell `1`, `1.0`, `1e0` and `-0`
apart. A plain numeral has no sign, no fraction and no exponent.
-/
namespace ScriptSemantics

/-- A JSON number as it is written. Digits are decimal characters. -/
structure Numeral where
  negative : Bool
  whole : List Char
  fraction : Option (List Char)
  exponent : Option Int
  deriving DecidableEq, Repr

namespace Numeral

def digitsValue (digits : List Char) : Nat := Nat.ofDigitChars 10 digits 0

def ofNat (n : Nat) : Numeral := ⟨false, Nat.toDigits 10 n, none, none⟩

def toNat? (n : Numeral) : Option Nat :=
  match n with
  | ⟨false, whole, none, none⟩ => some (digitsValue whole)
  | _ => none

@[simp] theorem toNat?_ofNat (n : Nat) : (ofNat n).toNat? = some n := by
  simp [toNat?, ofNat, digitsValue, Nat.ofDigitChars_toDigits]

/-- A row of at least one digit and what follows it. -/
def takeDigits (cs : List Char) : Option (List Char × List Char) :=
  match cs.span Char.isDigit with
  | ([], _) => none
  | (digits, rest) => some (digits, rest)

/-- The part after the sign that comes before point and exponent. Only the numeral zero begins with
a zero. -/
def takeWhole (cs : List Char) : Option (List Char × List Char) :=
  match takeDigits cs with
  | some ('0' :: _ :: _, _) => none
  | whole => whole

/-- A point with its digits, if one comes next. -/
def takeFraction : List Char → Option (Option (List Char) × List Char)
  | '.' :: rest => (takeDigits rest).map fun (digits, rest) => (some digits, rest)
  | cs => some (none, cs)

/-- The digits of an exponent with an optional sign before them. -/
def takeSigned : List Char → Option (Int × List Char)
  | '-' :: rest => (takeDigits rest).map fun (digits, rest) => (-(digitsValue digits : Int), rest)
  | '+' :: rest => (takeDigits rest).map fun (digits, rest) => ((digitsValue digits : Int), rest)
  | cs => (takeDigits cs).map fun (digits, rest) => ((digitsValue digits : Int), rest)

def takeExponent : List Char → Option (Option Int × List Char)
  | 'e' :: rest | 'E' :: rest => (takeSigned rest).map fun (exponent, rest) => (some exponent, rest)
  | cs => some (none, cs)

/-- The numeral that begins after a sign and takes all characters. -/
def ofUnsigned? (negative : Bool) (cs : List Char) : Option Numeral := do
  let (whole, rest) ← takeWhole cs
  let (fraction, rest) ← takeFraction rest
  let (exponent, rest) ← takeExponent rest
  if rest.isEmpty then some ⟨negative, whole, fraction, exponent⟩ else none

/-- The numeral that takes all characters. -/
def ofChars? : List Char → Option Numeral
  | '-' :: rest => ofUnsigned? true rest
  | cs => ofUnsigned? false cs

def exponentChars : Int → List Char
  | .ofNat n => 'e' :: Nat.toDigits 10 n
  | .negSucc n => 'e' :: '-' :: Nat.toDigits 10 (n + 1)

def chars (n : Numeral) : List Char :=
  (if n.negative then ['-'] else []) ++ n.whole
    ++ (n.fraction.map fun digits => '.' :: digits).getD []
    ++ (n.exponent.map exponentChars).getD []

-- A reader that keeps a number holds it as a double. It gathers a significand of at most 64 bits,
-- scales it by a power of ten, and refuses the numeral if the product is no finite double.
def significandLimit : Nat := 18446744073709551616

/-- The significand after as many further digits as fit into 64 bits, and their count. -/
def gather (significand : Nat) : List Char → Nat × Nat
  | [] => (significand, 0)
  | c :: rest =>
    let next := significand * 10 + digitsValue [c]
    if next < significandLimit then
      let (gathered, count) := gather next rest
      (gathered, count + 1)
    else (significand, 0)

/-- Whether the product of a significand and a power of ten, both rounded to doubles, rounds to a
finite double. -/
def scalesFinite (significand : Nat) (exponent : Int) : Bool :=
  if exponent < 0 ∨ significand = 0 then true
  else if 308 < exponent then false
  else
    Double.round significand * Double.round (Nat.pow 10 exponent.toNat) < Double.overflowLimit

/-- Whether the numeral is the text of a finite double. Digits of the whole part beyond the
significand raise the exponent, digits of the fraction beyond it are dropped. -/
def inRange (n : Numeral) : Bool :=
  let (whole, wholeCount) := gather 0 n.whole
  let (significand, fractionCount) := gather whole (n.fraction.getD [])
  let exponent := n.exponent.getD 0 + (n.whole.length - wholeCount : Nat) - fractionCount
  scalesFinite significand exponent

end Numeral

end ScriptSemantics
