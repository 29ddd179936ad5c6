import ScriptSemantics.Json.Numeral

/-!
# JSON tokens

A text is a sequence of tokens with blanks between them. Brackets, commas and colons are tokens of
one character; a string runs from quote to quote; everything else is a word, which ends where a
blank, a quote or one of those characters begins. The lexer is a machine that takes one character at
a time.
-/
namespace ScriptSemantics

inductive JsonToken where
  | openBracket
  | closeBracket
  | openBrace
  | closeBrace
  | colon
  | comma
  | null
  | bool (value : Bool)
  | number (value : Numeral)
  /-- There is no text if the string escapes a lone surrogate. -/
  | string (text : Option String)
  deriving DecidableEq, Repr

/-- The inside of a string as far as it has been read. -/
structure Spelling where
  /-- The characters spelled so far, latest first. -/
  chars : List Char
  /-- A high surrogate whose low half must come next. -/
  high : Option Nat
  /-- Whether some surrogate has been left alone. -/
  lone : Bool
  deriving DecidableEq, Repr

namespace Spelling

def empty : Spelling := ⟨[], none, false⟩

/-- One more character, written as itself or by an escape of its own. -/
def addChar (s : Spelling) (c : Char) : Spelling := ⟨c :: s.chars, none, s.lone || s.high.isSome⟩

/-- One more code unit, written by its four hexadecimal digits. Two surrogates in a row that form a
pair are one character. -/
def addUnit (s : Spelling) (unit : Nat) : Spelling :=
  if 0xDC00 ≤ unit ∧ unit < 0xE000 then
    match s.high with
    | some high =>
      ⟨Char.ofNat (0x10000 + (high - 0xD800) * 0x400 + (unit - 0xDC00)) :: s.chars, none, s.lone⟩
    | none => { s with lone := true }
  else if 0xD800 ≤ unit ∧ unit < 0xDC00 then
    ⟨s.chars, some unit, s.lone || s.high.isSome⟩
  else s.addChar (Char.ofNat unit)

/-- The text that the string names, unless it has left a surrogate alone. -/
def text? (s : Spelling) : Option String :=
  if s.lone || s.high.isSome then none else some (String.ofList s.chars.reverse)

end Spelling

/-- The value of a hexadecimal digit of either case. -/
def hexValue? (c : Char) : Option Nat :=
  if '0' ≤ c ∧ c ≤ '9' then some (c.toNat - '0'.toNat)
  else if 'a' ≤ c ∧ c ≤ 'f' then some (c.toNat - 'a'.toNat + 10)
  else if 'A' ≤ c ∧ c ≤ 'F' then some (c.toNat - 'A'.toNat + 10)
  else none

/-- The character that a letter after a backslash names. -/
def escapedChar? : Char → Option Char
  | '"' => some '"'
  | '\\' => some '\\'
  | '/' => some '/'
  | 'b' => some '\x08'
  | 'f' => some '\x0c'
  | 'n' => some '\n'
  | 'r' => some '\r'
  | 't' => some '\t'
  | _ => none

namespace JsonToken

def isBlank (c : Char) : Bool := c == ' ' || c == '\t' || c == '\n' || c == '\r'

/-- The tokens of one character. -/
def ofMark? : Char → Option JsonToken
  | '[' => some .openBracket
  | ']' => some .closeBracket
  | '{' => some .openBrace
  | '}' => some .closeBrace
  | ':' => some .colon
  | ',' => some .comma
  | _ => none

/-- The token that a whole word is. -/
def ofWord? : List Char → Option JsonToken
  | ['n', 'u', 'l', 'l'] => some .null
  | ['t', 'r', 'u', 'e'] => some (.bool true)
  | ['f', 'a', 'l', 's', 'e'] => some (.bool false)
  | word => (Numeral.ofChars? word).map .number

/-- What the lexer is in the middle of. -/
inductive Mode where
  | between
  /-- The characters of a word, latest first. -/
  | word (chars : List Char)
  | inString (spelling : Spelling)
  /-- After a backslash. -/
  | escape (spelling : Spelling)
  /-- After a backslash and the letter `u`, with the digits still owed and the value so far. -/
  | unit (spelling : Spelling) (owed value : Nat)
  deriving DecidableEq, Repr

/-- The lexer between two characters: its mode, and the tokens that are complete, latest first. -/
structure Lexer where
  mode : Mode
  tokens : List JsonToken
  deriving DecidableEq, Repr

namespace Lexer

def start : Lexer := ⟨.between, []⟩

/-- Takes a character that does not continue a word. -/
def takeBetween (tokens : List JsonToken) (c : Char) : Lexer :=
  if isBlank c then ⟨.between, tokens⟩
  else if c = '"' then ⟨.inString .empty, tokens⟩
  else match ofMark? c with
    | some token => ⟨.between, token :: tokens⟩
    | none => ⟨.word [c], tokens⟩

def endsWord (c : Char) : Bool := isBlank c || c == '"' || (ofMark? c).isSome

/-- Takes one character. Inside a string, characters below the blank must be escaped. -/
def take (lexer : Lexer) (c : Char) : Option Lexer :=
  match lexer.mode with
  | .between => some (takeBetween lexer.tokens c)
  | .word chars =>
    if endsWord c then do
      let token ← ofWord? chars.reverse
      some (takeBetween (token :: lexer.tokens) c)
    else some { lexer with mode := .word (c :: chars) }
  | .inString spelling =>
    if c = '"' then some ⟨.between, .string spelling.text? :: lexer.tokens⟩
    else if c = '\\' then some { lexer with mode := .escape spelling }
    else if c < ' ' then none
    else some { lexer with mode := .inString (spelling.addChar c) }
  | .escape spelling =>
    if c = 'u' then some { lexer with mode := .unit spelling 4 0 }
    else do
      let escaped ← escapedChar? c
      some { lexer with mode := .inString (spelling.addChar escaped) }
  | .unit spelling owed value => do
    let digit ← hexValue? c
    let value := value * 16 + digit
    if owed ≤ 1 then some { lexer with mode := .inString (spelling.addUnit value) }
    else some { lexer with mode := .unit spelling (owed - 1) value }

/-- The tokens in order, if the text may end here. -/
def finish (lexer : Lexer) : Option (List JsonToken) :=
  match lexer.mode with
  | .between => some lexer.tokens.reverse
  | .word chars => (ofWord? chars.reverse).map fun token => (token :: lexer.tokens).reverse
  | _ => none

end Lexer

/-- The tokens of a text, or none if it has a part that is no token. -/
def ofText? (text : String) : Option (List JsonToken) := do
  let lexer ← text.toList.foldlM Lexer.take Lexer.start
  lexer.finish

/-- The hexadecimal digit of a value below sixteen, in lower case. -/
def hexDigit (n : Nat) : Char := Nat.digitChar n

/-- The letter that names a character after a backslash where strings are written. -/
def escapeLetter? : Char → Option Char
  | '"' => some '"'
  | '\\' => some '\\'
  | '\x08' => some 'b'
  | '\x0c' => some 'f'
  | '\n' => some 'n'
  | '\r' => some 'r'
  | '\t' => some 't'
  | _ => none

/-- How a character is written inside a string: by its letter if it has one, by its number if it is
another character below the blank, else as itself. -/
def escapeChar (c : Char) : List Char :=
  match escapeLetter? c with
  | some letter => ['\\', letter]
  | none =>
    if c < ' ' then ['\\', 'u', '0', '0', hexDigit (c.toNat / 16), hexDigit (c.toNat % 16)] else [c]

/-- A string as it is written. One that names no text is written as an escaped lone surrogate. -/
def stringChars : Option String → List Char
  | some text => '"' :: text.toList.flatMap escapeChar ++ ['"']
  | none => ['"', '\\', 'u', 'd', '8', '0', '0', '"']

def chars : JsonToken → List Char
  | .openBracket => ['[']
  | .closeBracket => [']']
  | .openBrace => ['{']
  | .closeBrace => ['}']
  | .colon => [':']
  | .comma => [',']
  | .null => ['n', 'u', 'l', 'l']
  | .bool true => ['t', 'r', 'u', 'e']
  | .bool false => ['f', 'a', 'l', 's', 'e']
  | .number n => n.chars
  | .string text => stringChars text

end JsonToken

end ScriptSemantics
