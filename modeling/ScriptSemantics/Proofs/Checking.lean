import ScriptSemantics.Command.Directory
import ScriptSemantics.Proofs.CheckArguments
import ScriptSemantics.Proofs.Outlines
import ScriptSemantics.Proofs.SettingsFiles
import ScriptSemantics.Proofs.Totality
import ScriptSemantics.Proofs.TreeTexts

/-!
# What a check answers

A check fails for one of three reasons: the file cannot be read as text, its text is not that of a
tree, or the tree is not valid. A valid tree is analysed to the end and its outline has a text, so
whatever else there is to check ends in a report. The settings decide what is reported, never whether
there is a report.
-/
namespace ScriptSemantics

/-- What was read from a file is the text of a valid tree. -/
def HoldsTree (content : Except FileError String) (tree : SyntaxTree) : Prop :=
  ∃ text, content = .ok text ∧ SyntaxTree.parse? text = some tree ∧ tree.validate = .ok ()

/-- The diagnostics of a resolution in the order in which they were logged, each on its line. -/
def Resolution.diagnosticLines (r : Resolution) : String :=
  String.join (r.diagnostics.toList.map fun d => d.render ++ "\n")

/-- The end of a check that has come to a resolution: its diagnostics are printed, then its outline if
that is wanted, and the status tells whether there are diagnostics. -/
def Resolution.Shows (r : Resolution) (settings : Settings) (outcome : Outcome) : Prop :=
  ∃ outline, r.outlineText = .ok outline ∧
    outcome.output = r.diagnosticLines ++ (if settings.dumpScopeTree then outline else "") ∧
    outcome.status = (if r.diagnostics.isEmpty then 0 else 2) ∧ outcome.failure = none

/-- What a check makes of its options, of what was read from the file of the tree and of what was read
from the file of the settings. -/
def CheckOptions.outcome (options : CheckOptions) (content second : Except FileError String) :
    Outcome :=
  match content with
  | .error e => .failed s!"failed to read {options.tree}: {e.message}"
  | .ok text =>
    match SyntaxTree.parse? text with
    | none => .failed s!"{options.tree} is not a syntax tree"
    | some tree => checkTree tree (options.adjust (Settings.ofFile second.toOption))

/-- How a check ends, by what was read from the file of the tree and from that of the settings. -/
structure CheckOptions.Answers (options : CheckOptions) (content second : Except FileError String)
    (given settings : Settings) (outcome : Outcome) : Prop where
  readFrom : Settings.ReadFrom second given
  plain : ∀ lines : List Toml.PlainLine, (lines.map Toml.PlainLine.key).Nodup →
    second = .ok (Toml.plainText lines) → ∀ s : Settings,
      s.GivenBy (lines.map Toml.PlainLine.entry) → given = s
  adjusted : settings = ⟨given.enterLocalVariables && !options.membersOnly,
    given.dumpScopeTree || options.scopes, given.namespaceName⟩
  fails : outcome.status = 1 ↔ ¬ ∃ tree, HoldsTree content tree
  silent : outcome.status = 1 → outcome.output = ""
  shows : ∀ tree, HoldsTree content tree →
    ∃ r, analyze tree settings = .ok r ∧ r.Shows settings outcome
  dumps : settings.dumpScopeTree = true ↔ options.scopes = true ∨ given.dumpScopeTree = true
  membersOnly : options.membersOnly = true → settings.enterLocalVariables = false

section Files

variable {σ : Type} {files : Files (StateM σ)} {s between after : σ} {options : CheckOptions}
  {content second : Except FileError String}

end Files

theorem Toml.plainChar_app : ∀ c ∈ "app".toList, PlainChar c := by
  have all : "app".toList.all (fun c => decide (PlainChar c)) = true := by decide
  simpa using all

end ScriptSemantics
