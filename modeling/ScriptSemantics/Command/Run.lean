import ScriptSemantics.Analysis
import ScriptSemantics.Command.Arguments
import ScriptSemantics.Command.Files
import ScriptSemantics.Settings.Text
import ScriptSemantics.Syntax.Format

/-!
# Running commands

A run ends in an exit status, a text for standard output and, if it failed, a line for standard
error. The status is zero if all went well, one after a failure, and two if the checked tree has
diagnostics or the command line was not understood.
-/
namespace ScriptSemantics

structure Outcome where
  status : Nat
  output : String
  failure : Option String
  deriving DecidableEq, Repr

namespace Outcome

def success (output : String) : Outcome := ⟨0, output, none⟩

def failed (reason : String) : Outcome := ⟨1, "", some ("error: " ++ reason)⟩

/-- A run whose command line was not understood. -/
def misused : Outcome := ⟨2, "", none⟩

/-- A run that a fault cut short. Checking never ends so: a valid tree has no faults. -/
def broken : Outcome := ⟨101, "", none⟩

end Outcome

/-- The text for a resolution: its diagnostics, a line each, and the outline if it is wanted. -/
def Resolution.report (r : Resolution) (settings : Settings) : Except Fault String := do
  let lines := String.join (r.diagnostics.toList.map fun d => d.render ++ "\n")
  if settings.dumpScopeTree then pure (lines ++ (← r.outlineText)) else pure lines

def checkTree (tree : SyntaxTree) (settings : Settings) : Outcome :=
  match analyze tree settings with
  | .error (.failed cause) => .failed cause.message
  | .error (.fault _) => .broken
  | .ok r =>
    match r.report settings with
    | .error _ => .broken
    | .ok text => ⟨if r.diagnostics.isEmpty then 0 else 2, text, none⟩

/-- Settings with what the options of `check` say put over them. -/
def CheckOptions.adjust (options : CheckOptions) (settings : Settings) : Settings :=
  { settings with
    enterLocalVariables := settings.enterLocalVariables && !options.membersOnly
    dumpScopeTree := settings.dumpScopeTree || options.scopes }

/-- The path of the settings: in the directory that the options name, else beside the tree. -/
def CheckOptions.settingsPath (options : CheckOptions) : String :=
  joinPath (options.configDir.getD (parentPath options.tree)) Settings.fileName

section

variable {m : Type → Type} [Monad m]

/-- Checks a tree in a file. Settings that cannot be read say nothing. -/
def runCheck (files : Files m) (options : CheckOptions) : m Outcome := do
  match ← files.read options.tree with
  | .error e => pure (.failed s!"failed to read {options.tree}: {e.message}")
  | .ok text =>
    match SyntaxTree.parse? text with
    | none => pure (.failed s!"{options.tree} is not a syntax tree")
    | some tree =>
      let settings := Settings.ofFile (← files.read options.settingsPath).toOption
      pure (checkTree tree (options.adjust settings))

/-- Makes a file of the standard settings where there is none. -/
def runInit (files : Files m) (path : Option String) : m Outcome := do
  let path := joinPath (path.getD ".") Settings.fileName
  if ← files.present path then pure (.failed s!"{path} already exists")
  else
    match ← files.write path Settings.standard.render with
    | .ok () => pure (.success s!"Initialised {path}\n")
    | .error e => pure (.failed s!"failed to write {path}: {e.message}")

def runCommand (files : Files m) (arguments : List String) : m Outcome :=
  match Request.ofArguments? arguments with
  | some (.check options) => runCheck files options
  | some (.init path) => runInit files path
  | some .version => pure (.success "toyscript 0.1.0\n")
  | some .help => pure (.success "")
  | none => pure .misused

end

end ScriptSemantics
