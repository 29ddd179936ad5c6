import Mathlib.Data.List.Basic
import Mathlib.Data.List.TakeDrop
import Mathlib.Data.List.TakeWhile
import ScriptSemantics.Command.Arguments

/-!
# What a command line tells a check

A flag is set exactly if it stands before two dashes alone, the tree is one of the arguments, and
settings are looked for in a directory exactly if an option before the dashes names it.
-/
namespace ScriptSemantics

namespace Argument

variable {text name : String}

theorem eq_of_ofText_long (shape : ofText text = .long name none) : text = "--" ++ name := by
  unfold ofText at shape
  split at shape
  next => cases shape
  next rest _ chars =>
    rw [List.span_eq_takeWhile_dropWhile] at shape
    split at shape
    next taken isSpan =>
      obtain ⟨rfl, last⟩ := Prod.mk.inj isSpan
      cases shape
      have whole := List.takeWhile_append_dropWhile (p := (· != '=')) (l := rest)
      rw [last, List.append_nil] at whole
      rw [whole, ← String.toList_inj, chars]
      simp
    next => cases shape
  next => cases shape
  next => cases shape

theorem eq_of_ofText_valued {value : String} (shape : ofText text = .long name (some value)) :
    text = "--" ++ name ++ "=" ++ value := by
  unfold ofText at shape
  split at shape
  next => cases shape
  next rest _ chars =>
    rw [List.span_eq_takeWhile_dropWhile] at shape
    split at shape
    next => cases shape
    next taken c left isSpan =>
      obtain ⟨rfl, last⟩ := Prod.mk.inj isSpan
      cases shape
      have whole := List.takeWhile_append_dropWhile (p := (· != '=')) (l := rest)
      have stops := List.head?_dropWhile_not (· != '=') rest
      rw [last] at whole stops
      obtain rfl : c = '=' := by simpa using stops
      rw [← whole] at chars
      simpa [← String.toList_inj] using chars
  next => cases shape
  next => cases shape

theorem eq_of_ofText_endOfOptions (shape : ofText text = .endOfOptions) : text = "--" := by
  unfold ofText at shape
  split at shape
  next chars => exact String.toList_inj.mp chars
  next => split at shape <;> cases shape
  next => cases shape
  next => cases shape

theorem ofText_valued (directory : String) :
    ofText ("--config-dir=" ++ directory) = .long "config-dir" (some directory) := by
  have chars : ("--config-dir=" ++ directory).toList =
      '-' :: '-' :: 'c' :: 'o' :: 'n' :: 'f' :: 'i' :: 'g' :: '-' :: 'd' :: 'i' :: 'r' :: '=' ::
        directory.toList := by simp
  rw [ofText, chars]
  simp [List.span_eq_takeWhile_dropWhile]

theorem ofText_eq_membersOnly_iff : ofText text = .long "members-only" none ↔
    text = "--members-only" :=
  ⟨eq_of_ofText_long, by rintro rfl; decide⟩

theorem ofText_eq_scopes_iff : ofText text = .long "scopes" none ↔ text = "--scopes" :=
  ⟨eq_of_ofText_long, by rintro rfl; decide⟩

theorem ofText_eq_configDir_iff : ofText text = .long "config-dir" none ↔
    text = "--config-dir" :=
  ⟨eq_of_ofText_long, by rintro rfl; decide⟩

theorem ofText_eq_valued_iff {directory : String} :
    ofText text = .long "config-dir" (some directory) ↔ text = "--config-dir=" ++ directory :=
  ⟨eq_of_ofText_valued, by rintro rfl; exact ofText_valued directory⟩

theorem ofText_eq_endOfOptions_iff : ofText text = .endOfOptions ↔ text = "--" :=
  ⟨eq_of_ofText_endOfOptions, by rintro rfl; decide⟩

end Argument

/-- The arguments before two dashes alone. -/
def flagsOf (arguments : List String) : List String := arguments.takeWhile (· ≠ "--")

theorem flagsOf_cons {text : String} (dashes : text ≠ "--") (rest : List String) :
    flagsOf (text :: rest) = text :: flagsOf rest := by
  simp [flagsOf, dashes]

/-- A directory is named for the settings, after an equals sign or by the next argument. -/
def NamesDirectory (flags : List String) (directory : String) : Prop :=
  "--config-dir=" ++ directory ∈ flags ∨ ["--config-dir", directory] <:+: flags

theorem namesDirectory_cons {text : String} (other : text ≠ "--config-dir") {flags : List String}
    {directory : String} : NamesDirectory (text :: flags) directory ↔
      text = "--config-dir=" ++ directory ∨ NamesDirectory flags directory := by
  simp only [NamesDirectory, List.mem_cons, List.infix_cons_iff, List.cons_prefix_cons,
    Ne.symm other, false_and, false_or, or_assoc, eq_comm]

namespace CheckDraft

variable {expecting : Expecting} {d : CheckDraft} {rest : List String} {options : CheckOptions}

/-- The options among the arguments still to be read, with the one that waits for its directory. -/
def flagsLeft : Expecting → List String → List String
  | .anything, rest => flagsOf rest
  | .configDir, rest => "--config-dir" :: flagsOf rest
  | .operand, _ => []

/-- What a draft and the arguments still to be read make of a check. -/
structure Leads (expecting : Expecting) (d : CheckDraft) (rest : List String)
    (options : CheckOptions) : Prop where
  tree : d.tree = some options.tree ∨ options.tree ∈ rest
  membersOnly : options.membersOnly = true ↔
    d.membersOnly = true ∨ "--members-only" ∈ flagsLeft expecting rest
  scopes : options.scopes = true ↔ d.scopes = true ∨ "--scopes" ∈ flagsLeft expecting rest
  configDir : ∀ directory, options.configDir = some directory ↔
    d.configDir = some directory ∨ NamesDirectory (flagsLeft expecting rest) directory

/-- What one more argument before the others adds, by its shape. -/
theorem Leads.cons {d' : CheckDraft} {text : String} {shape : Argument}
    (leads : Leads .anything d' rest options) (isShape : Argument.ofText text = shape)
    (goesOn : shape ≠ .endOfOptions) (other : shape ≠ .long "config-dir" none)
    (tree : d'.tree = some options.tree → d.tree = some options.tree ∨ options.tree = text)
    (membersOnly : d'.membersOnly = true ↔
      d.membersOnly = true ∨ shape = .long "members-only" none)
    (scopes : d'.scopes = true ↔ d.scopes = true ∨ shape = .long "scopes" none)
    (configDir : ∀ directory, d'.configDir = some directory ↔
      d.configDir = some directory ∨ shape = .long "config-dir" (some directory)) :
    Leads .anything d (text :: rest) options := by
  subst isShape
  rw [Ne, Argument.ofText_eq_endOfOptions_iff] at goesOn
  rw [Ne, Argument.ofText_eq_configDir_iff] at other
  have flags : flagsLeft .anything (text :: rest) = text :: flagsLeft .anything rest :=
    flagsOf_cons goesOn rest
  refine ⟨?_, ?_, ?_, fun directory => ?_⟩
  · rcases leads.tree with named | listed
    · exact (tree named).imp id fun same => by simp [same]
    · exact .inr (by simp [listed])
  · rw [leads.membersOnly, membersOnly, Argument.ofText_eq_membersOnly_iff, flags, List.mem_cons,
      or_assoc, eq_comm (a := text)]
  · rw [leads.scopes, scopes, Argument.ofText_eq_scopes_iff, flags, List.mem_cons, or_assoc,
      eq_comm (a := text)]
  · rw [leads.configDir, configDir, Argument.ofText_eq_valued_iff, flags,
      namesDirectory_cons other, or_assoc]

end CheckDraft

end ScriptSemantics
