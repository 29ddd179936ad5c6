import ScriptSemantics.Json.Numeral

/-!
# JSON values

Objects keep their members in order and keep repeated names. A string that escapes a lone surrogate
names no text, and neither does the name of a member that does.
-/
namespace ScriptSemantics

/-- A JSON value as it is written, blanks and the choice of escapes apart. -/
inductive Json where
  | null
  | bool (value : Bool)
  | number (value : Numeral)
  /-- There is no text if the string escapes a lone surrogate. -/
  | string (text : Option String)
  | array (items : List Json)
  | object (members : List (Option String × Json))
  deriving Inhabited, Repr

namespace Json

def text (s : String) : Json := .string (some s)

def ofNat (n : Nat) : Json := .number (.ofNat n)

def ofList {α : Type} (f : α → Json) (xs : List α) : Json := .array (xs.map f)

/-- A value, or null in the place of none. -/
def ofOption {α : Type} (f : α → Json) : Option α → Json
  | some a => f a
  | none => .null

/-- An object with named members. -/
def record (members : List (String × Json)) : Json :=
  .object (members.map fun (name, value) => (some name, value))

def toNat? : Json → Option Nat
  | .number n => n.toNat?
  | _ => none

def toText? : Json → Option String
  | .string text => text
  | _ => none

def toItems? : Json → Option (List Json)
  | .array items => some items
  | _ => none

/-- The values of all members of one name, in order. -/
def valuesOf (members : List (Option String × Json)) (name : String) : List Json :=
  (members.filter fun m => m.1 == some name).map Prod.snd

/-- The value of the first member of a name. -/
def member? (json : Json) (name : String) : Option Json :=
  match json with
  | .object members => (valuesOf members name).head?
  | _ => none

mutual

/-- Whether the value can be kept: its strings name texts, its numbers are finite doubles, and it
nests no more brackets than the bound. -/
def keepable (depth : Nat) : Json → Bool
  | .null => true
  | .bool _ => true
  | .number n => n.inRange
  | .string text => text.isSome
  | .array items =>
    match depth with
    | 0 => false
    | depth + 1 => itemsKeepable depth items
  | .object members =>
    match depth with
    | 0 => false
    | depth + 1 => membersKeepable depth members

def itemsKeepable (depth : Nat) : List Json → Bool
  | [] => true
  | item :: rest => keepable depth item && itemsKeepable depth rest

def membersKeepable (depth : Nat) : List (Option String × Json) → Bool
  | [] => true
  | (name, value) :: rest => name.isSome && keepable depth value && membersKeepable depth rest

end

end Json

end ScriptSemantics
