/-!
# Command lines

The program knows two commands. `check` takes a tree and options in any order; `init` takes at most
one path. Two dashes alone end the options. Arguments are read from left to right: the first that
does not fit refuses the line, and a request for help or for the version that comes before it is
granted at once.
-/
namespace ScriptSemantics

/-- What `check` was asked to do. -/
structure CheckOptions where
  tree : String
  membersOnly : Bool
  scopes : Bool
  configDir : Option String
  deriving DecidableEq, Repr

inductive Request where
  | check (options : CheckOptions)
  | init (path : Option String)
  | version
  | help
  deriving DecidableEq, Repr

/-- An argument by its shape. -/
inductive Argument where
  /-- Two dashes and nothing else. -/
  | endOfOptions
  /-- A name after two dashes, and what follows an equals sign. -/
  | long (name : String) (value : Option String)
  /-- The letters after one dash. -/
  | short (letters : List Char)
  | plain (text : String)
  deriving DecidableEq, Repr

namespace Argument

/-- The shape of an argument. One dash alone is a plain argument. -/
def ofText (text : String) : Argument :=
  match text.toList with
  | ['-', '-'] => .endOfOptions
  | '-' :: '-' :: rest =>
    match rest.span (· != '=') with
    | (name, []) => .long (String.ofList name) none
    | (name, _ :: value) => .long (String.ofList name) (some (String.ofList value))
  | '-' :: letter :: letters => .short (letter :: letters)
  | _ => .plain text

def asksHelp : Argument → Bool
  | .long name none => name == "help"
  | .short ('h' :: _) => true
  | _ => false

def asksVersion : Argument → Bool
  | .long name none => name == "version"
  | .short ('V' :: _) => true
  | _ => false

end Argument

/-- The options of `check` as far as they have been read. -/
structure CheckDraft where
  tree : Option String
  membersOnly : Bool
  scopes : Bool
  configDir : Option String
  deriving DecidableEq, Repr

namespace CheckDraft

def empty : CheckDraft := ⟨none, false, false, none⟩

def finish? (d : CheckDraft) : Option Request :=
  d.tree.map fun tree => .check ⟨tree, d.membersOnly, d.scopes, d.configDir⟩

/-- Names the tree, once, by a text that is not empty. -/
def withTree? (d : CheckDraft) (text : String) : Option CheckDraft :=
  if d.tree.isSome || text.isEmpty then none else some { d with tree := some text }

/-- Names the directory of the settings, once, by a text that is not empty. -/
def withConfigDir? (d : CheckDraft) (text : String) : Option CheckDraft :=
  if d.configDir.isSome || text.isEmpty then none else some { d with configDir := some text }

/-- Takes an option that stands alone, at most once. -/
def withFlag? (d : CheckDraft) (name : String) : Option CheckDraft :=
  if name = "members-only" ∧ !d.membersOnly then some { d with membersOnly := true }
  else if name = "scopes" ∧ !d.scopes then some { d with scopes := true }
  else none

inductive Expecting where
  | anything
  /-- The directory of the settings, which must be a plain argument. -/
  | configDir
  /-- The tree, however it is written. -/
  | operand
  deriving DecidableEq, Repr

/-- Takes the remaining arguments. -/
def take? : Expecting → CheckDraft → List String → Option Request
  | .configDir, _, [] => none
  | _, d, [] => d.finish?
  | .operand, d, text :: rest => do take? .operand (← d.withTree? text) rest
  | .configDir, d, text :: rest =>
    match Argument.ofText text with
    | .plain value => do take? .anything (← d.withConfigDir? value) rest
    | _ => none
  | .anything, d, text :: rest =>
    match Argument.ofText text with
    | .endOfOptions => take? .operand d rest
    | .plain tree => do take? .anything (← d.withTree? tree) rest
    | .long "help" none => some .help
    | .long "config-dir" none => take? .configDir d rest
    | .long "config-dir" (some value) => do take? .anything (← d.withConfigDir? value) rest
    | .long name none => do take? .anything (← d.withFlag? name) rest
    | argument => if argument.asksHelp then some .help else none

end CheckDraft

namespace Request

def withPath? (path : Option String) (text : String) : Option (Option String) :=
  if path.isSome || text.isEmpty then none else some (some text)

def takeInit? (path : Option String) : List String → Option Request
  | [] => some (.init path)
  | text :: rest =>
    match Argument.ofText text with
    | .endOfOptions => (rest.foldlM withPath? path).map .init
    | .plain text => do takeInit? (← withPath? path text) rest
    | argument => if argument.asksHelp then some .help else none

/-- Takes the arguments after `help`, which may name one command. -/
def takeHelp? : List String → Option Request
  | [] | ["check"] | ["init"] | ["help"] => some .help
  | _ => none

/-- What a command line asks for, or none if it is not understood. -/
def ofArguments? : List String → Option Request
  | "check" :: rest => CheckDraft.take? .anything .empty rest
  | "init" :: rest => takeInit? none rest
  | "help" :: rest => takeHelp? rest
  | text :: _ =>
    let argument := Argument.ofText text
    if argument.asksVersion then some .version
    else if argument.asksHelp then some .help
    else none
  | [] => none

end Request

end ScriptSemantics
