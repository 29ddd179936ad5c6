/-!
# Ways in which a computation over numbered stores stops

Nodes, scopes, symbols and function types refer to one another by number. A number may name nothing,
and a chain of numbers may return to itself; both are faults. A fault differs from a failure: a
failure is an answer that the caller is told about, and it has a cause of its own.
-/
namespace ScriptSemantics

/-- What makes a computation over numbered stores impossible to finish. -/
inductive Fault where
  /-- A number names no entry of its store. -/
  | dangling
  /-- The entries refer to one another in a circle, so following them has no end. -/
  | endless
  deriving DecidableEq, Repr

/-- Why a computation stopped: a failure with its cause, or a fault. -/
inductive Halt (ε : Type) where
  | failed (cause : ε)
  | fault (cause : Fault)
  deriving DecidableEq, Repr

/-- The entry that a number names, or the fault of naming none. -/
def orDangling {α : Type} : Option α → Except Fault α
  | some entry => .ok entry
  | none => .error .dangling

@[simp] theorem orDangling_some {α : Type} (entry : α) : orDangling (some entry) = .ok entry := rfl

@[simp] theorem orDangling_none {α : Type} : orDangling (none : Option α) = .error .dangling := rfl

instance {ε : Type} : MonadLift (Except Fault) (Except (Halt ε)) where
  monadLift := Except.mapError .fault

end ScriptSemantics
