import ScriptSemantics.Settings
import ScriptSemantics.Toml.Document

/-!
# Settings as text

Settings are written in TOML under three keys. Keys that are not there keep what holds without them,
and other keys are passed over. A text that is no TOML, or that gives one of the three keys a value
of another type, says nothing at all.
-/
namespace ScriptSemantics

namespace Settings

def fileName : String := "toyscript.toml"

/-- What one of the keys says: what holds without it, or its value if that has the right type. -/
def entry? {α : Type} (entries : Toml.Entries) (key : String) (standard : α)
    (read : Toml.Item → Option α) : Option α :=
  match entries.get? key with
  | none => some standard
  | some item => read item

def truth? : Toml.Item → Option Bool
  | .boolean value => some value
  | _ => none

def text? : Toml.Item → Option String
  | .string text => some text
  | _ => none

/-- The settings that the entries of a document give. -/
def ofEntries? (entries : Toml.Entries) : Option Settings := do
  let enterLocalVariables ←
    entry? entries "enter_local_variables" standard.enterLocalVariables truth?
  let dumpScopeTree ← entry? entries "dump_scope_tree" standard.dumpScopeTree truth?
  let namespaceName ← entry? entries "namespace" standard.namespaceName text?
  some ⟨enterLocalVariables, dumpScopeTree, namespaceName⟩

def ofText? (text : String) : Option Settings := (Toml.parse? text).bind ofEntries?

/-- The settings that a file gives, where there may be no file or none that is text. -/
def ofFile (text : Option String) : Settings := (text.bind ofText?).getD standard

/-- The text of settings whose namespace needs no escapes. -/
def render (s : Settings) : String :=
  "enter_local_variables = " ++ toString s.enterLocalVariables ++ "\n"
    ++ "dump_scope_tree = " ++ toString s.dumpScopeTree ++ "\n"
    ++ "namespace = \"" ++ s.namespaceName ++ "\"\n"

end Settings

end ScriptSemantics
