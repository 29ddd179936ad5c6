import ScriptSemantics.Command.Run
import ScriptSemantics.Proofs.Outcomes
import ScriptSemantics.Proofs.TomlLines

/-!
# Where settings stand and what they say

The file of the settings stands in the directory that the options name, else beside the tree. Each of
its keys says something or leaves what holds without it. What is written for settings is read back, and
a file that says nothing gives the standard settings.
-/
namespace ScriptSemantics

/-- What the entries of a document say under a key: its value, or what holds without the key. -/
def Toml.Entries.Tells {α : Type} (entries : Toml.Entries) (key : String) (item : α → Toml.Item)
    (standard value : α) : Prop :=
  entries.get? key = some (item value) ∨ entries.get? key = none ∧ value = standard

namespace Settings

variable {s : Settings} {entries : Toml.Entries} {text : String}

/-- The entries of a document give these settings. -/
structure GivenBy (s : Settings) (entries : Toml.Entries) : Prop where
  enterLocalVariables :
    entries.Tells "enter_local_variables" .boolean true s.enterLocalVariables
  dumpScopeTree : entries.Tells "dump_scope_tree" .boolean false s.dumpScopeTree
  namespaceName : entries.Tells "namespace" .string "global" s.namespaceName

theorem entry?_eq_some_iff {α : Type} {key : String} {item : α → Toml.Item} {standard value : α}
    {read : Toml.Item → Option α} (reads : ∀ other value, read other = some value ↔ other = item value) :
    entry? entries key standard read = some value ↔ entries.Tells key item standard value := by
  unfold entry? Toml.Entries.Tells
  cases entries.get? key with
  | none => simp [eq_comm]
  | some other => simp [reads]

theorem truth?_eq_some_iff (item : Toml.Item) (value : Bool) :
    truth? item = some value ↔ item = .boolean value := by
  cases item <;> simp [truth?]

theorem text?_eq_some_iff (item : Toml.Item) (value : String) :
    text? item = some value ↔ item = .string value := by
  cases item <;> simp [text?]

theorem ofEntries?_eq_some_iff : ofEntries? entries = some s ↔ s.GivenBy entries := by
  obtain ⟨locals, dump, name⟩ := s
  simp only [ofEntries?, standard, Option.bind_eq_bind, Option.bind_eq_some_iff,
    entry?_eq_some_iff truth?_eq_some_iff, entry?_eq_some_iff text?_eq_some_iff,
    Option.some.injEq, mk.injEq]
  constructor
  · rintro ⟨_, first, _, second, _, third, rfl, rfl, rfl⟩
    exact ⟨first, second, third⟩
  · rintro ⟨first, second, third⟩
    exact ⟨_, first, _, second, _, third, rfl, rfl, rfl⟩

theorem ofText?_eq_some_iff :
    ofText? text = some s ↔ ∃ entries, Toml.parse? text = some entries ∧ s.GivenBy entries := by
  simp only [ofText?, Option.bind_eq_some_iff, ofEntries?_eq_some_iff]

/-- A document without the three keys leaves the standard settings. -/
theorem ofText?_without (parsed : Toml.parse? text = some entries)
    (locals : entries.get? "enter_local_variables" = none)
    (dump : entries.get? "dump_scope_tree" = none) (name : entries.get? "namespace" = none) :
    ofText? text = some standard :=
  ofText?_eq_some_iff.mpr ⟨entries, parsed, .inr ⟨locals, rfl⟩, .inr ⟨dump, rfl⟩, .inr ⟨name, rfl⟩⟩

theorem ofText?_plainText {lines : List Toml.PlainLine}
    (apart : (lines.map Toml.PlainLine.key).Nodup) :
    ofText? (Toml.plainText lines) = some s ↔ s.GivenBy (lines.map Toml.PlainLine.entry) := by
  simp only [ofText?_eq_some_iff, Toml.parse?_plainText apart, Option.some.injEq, exists_eq_left']

def localsLine (value : Bool) : Toml.PlainLine :=
  ⟨"enter_local_variables", _, _, by decide, List.all_eq_true.mp (by decide), .boolean value⟩

def dumpLine (value : Bool) : Toml.PlainLine :=
  ⟨"dump_scope_tree", _, _, by decide, List.all_eq_true.mp (by decide), .boolean value⟩

def namespaceLine {name : String} (plain : ∀ c ∈ name.toList, Toml.PlainChar c) :
    Toml.PlainLine :=
  ⟨"namespace", _, _, by decide, List.all_eq_true.mp (by decide), .string plain⟩

/-- The lines of the text of settings. -/
def lines (s : Settings) (plain : ∀ c ∈ s.namespaceName.toList, Toml.PlainChar c) :
    List Toml.PlainLine :=
  [localsLine s.enterLocalVariables, dumpLine s.dumpScopeTree, namespaceLine plain]

/-- Settings are read back from their text, if the name of the namespace needs no escapes. -/
theorem ofText?_render (plain : ∀ c ∈ s.namespaceName.toList, Toml.PlainChar c) :
    ofText? s.render = some s := by
  have text : s.render = Toml.plainText (s.lines plain) := by
    -- each key is written with the sign after it
    change "enter_local_variables" ++ " = " ++ toString s.enterLocalVariables ++ "\n"
      ++ ("dump_scope_tree" ++ " = ") ++ toString s.dumpScopeTree ++ "\n"
      ++ ("namespace" ++ " = " ++ "\"") ++ s.namespaceName ++ ("\"" ++ "\n") = _
    simp only [lines, localsLine, dumpLine, namespaceLine, Toml.plainText, Toml.PlainLine.text,
      List.map_cons, List.map_nil, String.join_cons, String.join_nil, String.append_assoc,
      String.append_empty]
  have apart : ((s.lines plain).map Toml.PlainLine.key).Nodup := by
    simp [lines, localsLine, dumpLine, namespaceLine]
  have found : (s.lines plain).map Toml.PlainLine.entry =
      [("enter_local_variables", .boolean s.enterLocalVariables),
        ("dump_scope_tree", .boolean s.dumpScopeTree), ("namespace", .string s.namespaceName)] := rfl
  rw [text, ofText?_plainText apart, found]
  exact ⟨.inl rfl, .inl rfl, .inl rfl⟩

/-- A file gives the settings of its document. It gives the standard ones if it cannot be read, is no
document or holds something else under one of the keys. -/
inductive ReadFrom (content : Except FileError String) : Settings → Prop where
  | document {text : String} {entries : Toml.Entries} {s : Settings} (read : content = .ok text)
      (parsed : Toml.parse? text = some entries) (given : s.GivenBy entries) : ReadFrom content s
  | unreadable {error : FileError} (unread : content = .error error) :
      ReadFrom content ⟨true, false, "global"⟩
  | malformed {text : String} (read : content = .ok text) (broken : Toml.parse? text = none) :
      ReadFrom content ⟨true, false, "global"⟩
  | mistyped {text : String} {entries : Toml.Entries} (read : content = .ok text)
      (parsed : Toml.parse? text = some entries) (other : ∀ s : Settings, ¬ s.GivenBy entries) :
      ReadFrom content ⟨true, false, "global"⟩

end Settings

end ScriptSemantics
