/-!
# Scanning TOML

A scanner takes characters from the front of a text or refuses it, in which case nothing is taken.
Here are the scanners for blanks, comments and line ends.
-/
namespace ScriptSemantics.Toml

/-- Takes something from the front of a text, or refuses. -/
abbrev Scan := StateT (List Char) Option

namespace Scan

variable {α : Type}

/-- Takes one character that satisfies a condition. -/
def satisfy (p : Char → Bool) : Scan Char
  | c :: rest => if p c then some (c, rest) else none
  | [] => none

def char (c : Char) : Scan Unit := do
  let _ ← satisfy (· == c)
  pure ()

def word : List Char → Scan Unit
  | [] => pure ()
  | c :: cs => do
    char c
    word cs

/-- Takes as many characters as satisfy a condition, perhaps none. -/
def run (p : Char → Bool) : Scan (List Char) := fun cs => some (cs.span p)

/-- Takes at least one character and as many as satisfy a condition. -/
def run1 (p : Char → Bool) : Scan (List Char) := do
  let cs ← run p
  if cs.isEmpty then failure else pure cs

/-- Takes exactly a number of characters, which all satisfy a condition. -/
def exactly (p : Char → Bool) : Nat → Scan (List Char)
  | 0 => pure []
  | n + 1 => do
    let c ← satisfy p
    pure (c :: (← exactly p n))

/-- Takes the same thing up to a number of times, put before what was taken already, latest
first. -/
def repeatOnto (scan : Scan α) : Nat → List α → Scan (List α)
  | 0, taken => pure taken
  | bound + 1, taken => fun cs =>
    match scan cs with
    | some (a, rest) => repeatOnto scan bound (a :: taken) rest
    | none => some (taken, cs)

/-- Takes the same thing as often as it is there. Something that takes at least one character is
there no more often than the text has characters. -/
def many (scan : Scan α) : Scan (List α) := fun cs => do
  let (taken, rest) ← repeatOnto scan cs.length [] cs
  some (taken.reverse, rest)

/-- Takes something if it is there. -/
def maybe (scan : Scan α) : Scan (Option α) := fun cs =>
  match scan cs with
  | some (a, rest) => some (some a, rest)
  | none => some (none, cs)

/-- Takes nothing, and refuses unless the text is at its end. -/
def atEnd : Scan Unit
  | [] => some ((), [])
  | _ :: _ => none

/-- Things with a separator between them, perhaps none. -/
def separatedBy (scan : Scan α) (separator : Scan Unit) : Scan (List α) := do
  match ← maybe scan with
  | none => pure []
  | some first =>
    let others ← many do
      separator
      scan
    pure (first :: others)

/-- Blanks and tabs. -/
def isBlank (c : Char) : Bool := c == ' ' || c == '\t'

/-- The characters beyond ASCII. -/
def isBeyondAscii (c : Char) : Bool := '\x80' ≤ c

/-- The characters of a comment: tabs, and everything from the blank up but the delete
character. -/
def isCommentChar (c : Char) : Bool := c == '\t' || ' ' ≤ c && c ≤ '~' || isBeyondAscii c

def blanks : Scan Unit := do
  let _ ← run isBlank
  pure ()

def newline : Scan Unit := word ['\n'] <|> word ['\r', '\n']

def comment : Scan Unit := do
  char '#'
  let _ ← run isCommentChar
  pure ()

/-- The end of a line or of the text. -/
def lineEnd : Scan Unit := newline <|> atEnd

/-- What may follow a statement on its line. -/
def lineRest : Scan Unit := do
  blanks
  let _ ← maybe comment
  lineEnd

/-- One piece of the space between the items of an array. -/
def gapPiece : Scan Unit :=
  (do let _ ← run1 isBlank) <|> newline <|> (do comment; newline)

/-- Blanks, line ends and comments. -/
def gap : Scan Unit := do
  let _ ← many gapPiece

end Scan

end ScriptSemantics.Toml
