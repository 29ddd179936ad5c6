import ScriptSemantics.Toml.DateTime
import ScriptSemantics.Toml.Number

/-!
# Tables of TOML

A table is made by a header, by a dotted key, or on the way to one that is. How a table was made
decides what may still be added to it, and a value once given is never changed.
-/
namespace ScriptSemantics.Toml

/-- How a table was made. -/
inductive TableForm where
  /-- By a header of its own. -/
  | header
  /-- On the way to the table of another header. -/
  | passage
  /-- By a dotted key. -/
  | dotted
  deriving DecidableEq, Repr

/-- What a key may hold. -/
inductive Item where
  | string (text : String)
  | boolean (value : Bool)
  | integer (value : Int)
  | float (value : FloatValue)
  | dateTime (value : DateTime)
  | array (items : List Item)
  /-- A table written as a value. Nothing can be added to it. -/
  | inlineTable (entries : List (String × Item))
  | table (form : TableForm) (entries : List (String × Item))
  /-- The tables of one repeated header, in order. -/
  | tables (elements : List (List (String × Item)))
  deriving Repr

/-- Keys with what they hold, in order of appearance. -/
abbrev Entries := List (String × Item)

namespace Entries

def get? (entries : Entries) (key : String) : Option Item := entries.lookup key

/-- The entries with what one key holds changed, or with a new key at the end. -/
def put (entries : Entries) (key : String) (item : Item) : Entries :=
  if (entries.get? key).isSome then
    entries.map fun entry => if entry.1 == key then (key, item) else entry
  else entries ++ [(key, item)]

/-- The entries with a new key at the end, unless the key is there. -/
def add? (entries : Entries) (key : String) (item : Item) : Option Entries :=
  if (entries.get? key).isSome then none else some (entries ++ [(key, item)])

/-- Adds what a dotted key holds. Tables on the way must have been made by dotted keys or, except
for the last, on the way to a header; the last table of a repeated header may be passed. -/
def addDotted? (entries : Entries) (key : String) (item : Item) : List String → Option Entries
  | [] => entries.add? key item
  | step :: path =>
    match entries.get? step with
    | none => do
      let inner ← addDotted? [] key item path
      some (entries.put step (.table .dotted inner))
    | some (.table .dotted inner) => do
      let inner ← addDotted? inner key item path
      some (entries.put step (.table .dotted inner))
    | some (.table .passage inner) =>
      if path.isEmpty then none
      else do
        let inner ← addDotted? inner key item path
        some (entries.put step (.table .passage inner))
    | some (.tables elements) =>
      if path.isEmpty then none
      else do
        let inner ← addDotted? (← elements.getLast?) key item path
        some (entries.put step (.tables (elements.dropLast ++ [inner])))
    | some _ => none

/-- Changes the table at a path of headers, making the tables on the way. Of a repeated header the
last table is meant. -/
def updateUnder? (entries : Entries) (change : Entries → Option Entries) :
    List String → Option Entries
  | [] => change entries
  | step :: path =>
    match entries.get? step with
    | none => do
      let inner ← updateUnder? [] change path
      some (entries.put step (.table .passage inner))
    | some (.table form inner) => do
      let inner ← updateUnder? inner change path
      some (entries.put step (.table form inner))
    | some (.tables elements) => do
      let inner ← updateUnder? (← elements.getLast?) change path
      some (entries.put step (.tables (elements.dropLast ++ [inner])))
    | some _ => none

/-- Opens the table of a header. It must be new or have been made on the way to another header. -/
def openTable? (entries : Entries) (key : String) : Option Entries :=
  match entries.get? key with
  | none => some (entries.put key (.table .header []))
  | some (.table .passage inner) => some (entries.put key (.table .header inner))
  | some _ => none

/-- Opens one more table of a repeated header. -/
def openElement? (entries : Entries) (key : String) : Option Entries :=
  match entries.get? key with
  | none => some (entries.put key (.tables [[]]))
  | some (.tables elements) => some (entries.put key (.tables (elements ++ [[]])))
  | some _ => none

end Entries

end ScriptSemantics.Toml
