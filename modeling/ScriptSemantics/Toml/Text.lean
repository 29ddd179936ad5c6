import ScriptSemantics.Toml.Scan

/-!
# Strings and keys of TOML

Basic strings stand in double quotes and know escapes; literal strings stand in single quotes and
know none. Both have a form in three quotes that may run over several lines.
-/
namespace ScriptSemantics.Toml

namespace Scan

/-- The characters of a basic string that stand for themselves. -/
def isBasicChar (c : Char) : Bool :=
  c == '\t' || ' ' ≤ c && c ≤ '~' && c != '"' && c != '\\' || isBeyondAscii c

/-- The characters of a literal string. -/
def isLiteralChar (c : Char) : Bool :=
  c == '\t' || ' ' ≤ c && c ≤ '~' && c != '\'' || isBeyondAscii c

def isHexDigit (c : Char) : Bool :=
  c.isDigit || 'a' ≤ c && c ≤ 'f' || 'A' ≤ c && c ≤ 'F'

def digitValue (c : Char) : Nat :=
  if c.isDigit then c.toNat - '0'.toNat
  else if 'a' ≤ c then c.toNat - 'a'.toNat + 10
  else c.toNat - 'A'.toNat + 10

/-- The number that digits of a base stand for. -/
def digitsValue (base : Nat) (digits : List Char) : Nat :=
  digits.foldl (fun value c => value * base + digitValue c) 0

/-- The character of a number of hexadecimal digits, unless they name none. -/
def scalar (count : Nat) : Scan Char := do
  let value := digitsValue 16 (← exactly isHexDigit count)
  if value.isValidChar then pure (Char.ofNat value) else failure

/-- The rest of an escape after its backslash. -/
def escape : Scan Char := do
  match ← satisfy fun _ => true with
  | 'b' => pure '\x08'
  | 't' => pure '\t'
  | 'n' => pure '\n'
  | 'f' => pure '\x0c'
  | 'r' => pure '\r'
  | '"' => pure '"'
  | '\\' => pure '\\'
  | 'u' => scalar 4
  | 'U' => scalar 8
  | _ => failure

/-- A piece of a basic string. -/
def basicPiece : Scan (List Char) :=
  run1 isBasicChar <|> do
    char '\\'
    pure [← escape]

/-- A basic string on one line. -/
def basicString : Scan String := do
  char '"'
  let pieces ← many basicPiece
  char '"'
  pure (String.ofList pieces.flatten)

def literalString : Scan String := do
  char '\''
  let chars ← run isLiteralChar
  char '\''
  pure (String.ofList chars)

/-- One or two quotes inside a string in three quotes. -/
def innerQuotes (quote : Char) : Scan (List Char) := do
  let quotes ← run1 (· == quote)
  if quotes.length ≤ 2 then pure quotes else failure

/-- The quotes that end a string in three quotes, with up to two that still belong to it. -/
def closingQuotes (quote : Char) : Scan (List Char) := do
  let quotes ← run (· == quote)
  if 3 ≤ quotes.length ∧ quotes.length ≤ 5 then pure (quotes.drop 3) else failure

/-- A line end, which every string holds as a line feed. -/
def innerNewline : Scan (List Char) := do
  newline
  pure ['\n']

/-- A backslash at the end of a line, which takes all blanks and line ends after it away. -/
def lineContinuation : Scan (List Char) := do
  char '\\'
  blanks
  newline
  let _ ← many ((do let _ ← run1 isBlank) <|> newline)
  pure []

/-- A string in three quotes whose text is made of the given pieces. A line end right after the
opening quotes is no part of it. -/
def longString (quote : Char) (piece : Scan (List Char)) : Scan String := do
  word [quote, quote, quote]
  let _ ← maybe newline
  let pieces ← many (piece <|> innerNewline <|> innerQuotes quote)
  let last ← closingQuotes quote
  pure (String.ofList (pieces.flatten ++ last))

def string : Scan String :=
  longString '"' (lineContinuation <|> basicPiece)
    <|> longString '\'' (run1 isLiteralChar)
    <|> basicString <|> literalString

/-- The characters of a key without quotes. -/
def isBareKeyChar (c : Char) : Bool := c.isAlphanum || c == '_' || c == '-'

/-- One part of a key. -/
def simpleKey : Scan String :=
  (do pure (String.ofList (← run1 isBareKeyChar))) <|> basicString <|> literalString

/-- A part of a key with blanks around it. -/
def spacedKey : Scan String := do
  blanks
  let key ← simpleKey
  blanks
  pure key

/-- A key of fewer than eighty parts with dots between them: the parts before the last, and the
last. -/
def keyPath : Scan (List String × String) := do
  let first ← spacedKey
  let others ← many do
    char '.'
    spacedKey
  let parts := first :: others
  if parts.length < 80 then pure (parts.dropLast, others.getLast?.getD first) else failure

end Scan

end ScriptSemantics.Toml
