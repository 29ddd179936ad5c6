import ScriptSemantics.Json.Token
import ScriptSemantics.Json.Value

/-!
# JSON texts

Reading is a machine over tokens. It keeps the arrays and objects that are open around the place it
has come to, so it needs no bound on the nesting of its input. Writing puts no blanks between
tokens.
-/
namespace ScriptSemantics

namespace Json

/-- The members of an object as far as they have been read, latest first. -/
abbrev Members := List (Option String × Json)

/-- An array or object that is still open around a value. -/
inductive Frame where
  /-- The items before the value, latest first. -/
  | array (items : List Json)
  /-- The members before the value, latest first, and the name of the value. -/
  | object (members : Members) (name : Option String)
  deriving Repr

/-- What the reader is ready for, inside the given open frames. -/
inductive Reader where
  /-- A value must come. -/
  | atValue (frames : List Frame)
  /-- The first item of an array or its end. -/
  | atFirstItem (frames : List Frame)
  /-- The first name of an object or its end. -/
  | atFirstName (frames : List Frame)
  /-- The name of a further member. -/
  | atName (members : Members) (frames : List Frame)
  /-- The colon after a name. -/
  | atColon (members : Members) (name : Option String) (frames : List Frame)
  /-- A comma or a closing bracket after a value, or the end of the text. -/
  | after (value : Json) (frames : List Frame)
  deriving Repr

namespace Reader

/-- Takes the first token of a value. -/
def takeValue (frames : List Frame) : JsonToken → Option Reader
  | .openBracket => some (.atFirstItem frames)
  | .openBrace => some (.atFirstName frames)
  | .null => some (.after .null frames)
  | .bool b => some (.after (.bool b) frames)
  | .number n => some (.after (.number n) frames)
  | .string text => some (.after (.string text) frames)
  | _ => none

def take : Reader → JsonToken → Option Reader
  | .atValue frames, token => takeValue frames token
  | .atFirstItem frames, .closeBracket => some (.after (.array []) frames)
  | .atFirstItem frames, token => takeValue (.array [] :: frames) token
  | .atFirstName frames, .closeBrace => some (.after (.object []) frames)
  | .atFirstName frames, .string name => some (.atColon [] name frames)
  | .atName members frames, .string name => some (.atColon members name frames)
  | .atColon members name frames, .colon => some (.atValue (.object members name :: frames))
  | .after v (.array items :: frames), .comma => some (.atValue (.array (v :: items) :: frames))
  | .after v (.array items :: frames), .closeBracket =>
      some (.after (.array (v :: items).reverse) frames)
  | .after v (.object members name :: frames), .comma =>
      some (.atName ((name, v) :: members) frames)
  | .after v (.object members name :: frames), .closeBrace =>
      some (.after (.object ((name, v) :: members).reverse) frames)
  | _, _ => none

/-- The value that has been read, if no frame is open around it. -/
def finish : Reader → Option Json
  | .after v [] => some v
  | _ => none

end Reader

def ofTokens? (tokens : List JsonToken) : Option Json := do
  let reader ← tokens.foldlM Reader.take (.atValue [])
  reader.finish

def parse? (source : String) : Option Json := do
  let tokens ← JsonToken.ofText? source
  ofTokens? tokens

mutual

/-- The tokens of a value, put before others. -/
def tokensOnto (rest : List JsonToken) : Json → List JsonToken
  | .null => .null :: rest
  | .bool b => .bool b :: rest
  | .number n => .number n :: rest
  | .string text => .string text :: rest
  | .array [] => .openBracket :: .closeBracket :: rest
  | .array (item :: items) => .openBracket :: tokensOnto (itemsOnto rest items) item
  | .object [] => .openBrace :: .closeBrace :: rest
  | .object ((name, value) :: members) =>
      .openBrace :: .string name :: .colon :: tokensOnto (membersOnto rest members) value

/-- The tokens of the items after the first, and of the end of their array. -/
def itemsOnto (rest : List JsonToken) : List Json → List JsonToken
  | [] => .closeBracket :: rest
  | item :: items => .comma :: tokensOnto (itemsOnto rest items) item

/-- The tokens of the members after the first, and of the end of their object. -/
def membersOnto (rest : List JsonToken) : List (Option String × Json) → List JsonToken
  | [] => .closeBrace :: rest
  | (name, value) :: members =>
      .comma :: .string name :: .colon :: tokensOnto (membersOnto rest members) value

end

def tokens (json : Json) : List JsonToken := tokensOnto [] json

def render (json : Json) : String := String.ofList (json.tokens.flatMap JsonToken.chars)

end Json

end ScriptSemantics
