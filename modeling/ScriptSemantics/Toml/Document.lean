import ScriptSemantics.Toml.Table

/-!
# TOML documents

A document is a sequence of statements, each on its own line: assignments, headers of tables and
headers of repeated tables. An assignment belongs to the table of the header before it.
-/
namespace ScriptSemantics.Toml

namespace Scan

/-- A value that holds no other value. -/
def atom : Scan Item :=
  (do pure (.string (← string)))
    <|> (do pure (.dateTime (← dateTime)))
    <|> (do pure (.float (← float)))
    <|> (do pure (.integer (← integer)))
    <|> (do word ['t', 'r', 'u', 'e']; pure (.boolean true))
    <|> (do word ['f', 'a', 'l', 's', 'e']; pure (.boolean false))

/-- An array of values. A comma may follow the last one. -/
def array (value : Scan Item) : Scan Item := do
  char '['
  let items ← separatedBy (do gap; let item ← value; gap; pure item) (char ',')
  if !items.isEmpty then
    let _ ← maybe (char ',')
  gap
  char ']'
  pure (.array items)

/-- A key and its value with an equals sign between them. -/
def assignment (value : Scan Item) : Scan ((List String × String) × Item) := do
  let key ← keyPath
  char '='
  blanks
  let item ← value
  pure (key, item)

/-- A table written as a value, on one line. -/
def inlineTable (value : Scan Item) : Scan Item := do
  char '{'
  let pairs ← separatedBy (do let pair ← assignment value; blanks; pure pair) (char ',')
  blanks
  char '}'
  let entries ← (pairs.foldlM
    (fun entries ((path, key), item) => Entries.addDotted? entries key item path)
    ([] : Entries) : Option Entries)
  pure (.inlineTable entries)

/-- A value that nests no more arrays and tables than the bound. -/
def value : Nat → Scan Item
  | 0 => atom
  | depth + 1 => array (value depth) <|> inlineTable (value depth) <|> atom

end Scan

/-- A line of a document. -/
inductive Statement where
  | blank
  | assign (path : List String) (key : String) (item : Item)
  | header (path : List String) (key : String)
  | repeatedHeader (path : List String) (key : String)
  deriving Repr

namespace Scan

/-- A line with nothing but a comment on it, or with nothing at all. -/
def blankLine : Scan Statement := do
  (do comment; lineEnd) <|> newline
  pure .blank

/-- An assignment, whose value nests fewer than eighty arrays and tables. -/
def assignLine : Scan Statement := do
  let ((path, key), item) ← assignment (value 79)
  lineRest
  pure (.assign path key item)

/-- The header of one more table of a sequence. -/
def repeatedHeaderLine : Scan Statement := do
  word ['[', '[']
  let (path, key) ← keyPath
  word [']', ']']
  lineRest
  pure (.repeatedHeader path key)

/-- The header of a table. -/
def headerLine : Scan Statement := do
  char '['
  let (path, key) ← keyPath
  char ']'
  lineRest
  pure (.header path key)

/-- A statement and the blanks before the next. -/
def statement : Scan Statement := do
  let statement ← blankLine <|> repeatedHeaderLine <|> headerLine <|> assignLine
  blanks
  pure statement

/-- All statements of a document, which a byte order mark may precede. -/
def document : Scan (List Statement) := do
  let _ ← maybe (char '\ufeff')
  blanks
  let statements ← many statement
  atEnd
  pure statements

end Scan

/-- A document as far as it has been read: its entries, and the path of the header in force. -/
structure Document where
  entries : Entries
  place : List String
  deriving Repr

namespace Document

def empty : Document := ⟨[], []⟩

/-- Carries out one statement, unless it gives a key a second time. -/
def execute? (d : Document) : Statement → Option Document
  | .blank => some d
  | .assign path key item => do
    let entries ← d.entries.updateUnder? (fun table => table.addDotted? key item path) d.place
    some { d with entries := entries }
  | .header path key => do
    let entries ← d.entries.updateUnder? (fun table => table.openTable? key) path
    some ⟨entries, path ++ [key]⟩
  | .repeatedHeader path key => do
    let entries ← d.entries.updateUnder? (fun table => table.openElement? key) path
    some ⟨entries, path ++ [key]⟩

end Document

/-- The entries of a document, if it is well formed and gives no key twice. -/
def parse? (source : String) : Option Entries := do
  let (statements, _) ← Scan.document source.toList
  let document ← statements.foldlM Document.execute? Document.empty
  some document.entries

end ScriptSemantics.Toml
