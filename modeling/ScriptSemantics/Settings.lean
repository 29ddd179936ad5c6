/-!
# Settings

What a project may choose, with what holds when it does not.
-/
namespace ScriptSemantics

/-- The choices of a project. -/
structure Settings where
  /-- Whether the variables of function bodies and of the compilation unit are declared. -/
  enterLocalVariables : Bool
  /-- Whether the outline of the scopes is printed. -/
  dumpScopeTree : Bool
  /-- The name of the outermost scope of each compilation unit. -/
  namespaceName : String
  deriving DecidableEq, Repr

/-- What holds without a project of its own. -/
def Settings.standard : Settings := ⟨true, false, "global"⟩

end ScriptSemantics
