import ScriptSemantics.Proofs.Traversal
import ScriptSemantics.Scoping
import ScriptSemantics.Typing

/-!
# What passes leave behind

A pass that does not fault leaves a resolution behind: its result, or what it had done when it was
interrupted. Either may be handed to the next pass. Something holds of all that is left behind once
every step keeps it, wherever in the step it may be interrupted.
-/
namespace ScriptSemantics

/-- What a computation leaves behind satisfies a property: its result, or the cause of its failure.
A fault leaves nothing behind. -/
def Leaves {ε α : Type} (holds : α → Prop) (failing : ε → Prop) : Except (Halt ε) α → Prop
  | .ok a => holds a
  | .error (.failed cause) => failing cause
  | .error (.fault _) => True

namespace Leaves

variable {ε α β σ : Type} {holds : α → Prop} {after : β → Prop} {failing : ε → Prop}

theorem imp {x : Except (Halt ε) α} {holds' : α → Prop} {failing' : ε → Prop}
    (leaves : Leaves holds failing x) (result : ∀ a, holds a → holds' a)
    (cause : ∀ e, failing e → failing' e) : Leaves holds' failing' x := by
  match x, leaves with
  | .ok a, leaves => exact result a leaves
  | .error (.failed e), leaves => exact cause e leaves
  | .error (.fault _), _ => trivial

theorem bind {x : Except (Halt ε) α} {f : α → Except (Halt ε) β} (first : Leaves holds failing x)
    (next : ∀ a, holds a → Leaves after failing (f a)) : Leaves after failing (x >>= f) := by
  match x, first with
  | .ok a, first => exact next a first
  | .error (.failed _), first => exact first
  | .error (.fault _), _ => trivial

theorem lift {x : Except Fault α} (result : ∀ a, x = .ok a → holds a) :
    Leaves holds failing (liftM x) := by
  cases x with
  | ok a => exact result a rfl
  | error fault => trivial

theorem bind_lift {x : Except Fault α} {f : α → Except (Halt ε) β}
    (next : ∀ a, x = .ok a → Leaves after failing (f a)) : Leaves after failing (liftM x >>= f) :=
  bind (lift fun _ done => done) next

theorem foldlM {kept : σ → Prop} {f : σ → α → Except (Halt ε) σ} {items : List α} {s : σ}
    (start : kept s) (round : ∀ t, kept t → ∀ a ∈ items, Leaves kept failing (f t a)) :
    Leaves kept failing (items.foldlM f s) := by
  induction items generalizing s with
  | nil => exact start
  | cons a items ih =>
    rw [List.foldlM_cons]
    exact bind (round s start a (by simp)) fun t kept =>
      ih kept fun t kept b member => round t kept b (by simp [member])

/-- What one round of a loop achieves, the loop achieves, if no round undoes it. -/
theorem foldlM_past {kept achieved : σ → Prop} {f : σ → α → Except (Halt ε) σ} {items : List α}
    {s : σ} {item : α} (member : item ∈ items) (start : kept s)
    (round : ∀ t, kept t → ∀ a ∈ items, Leaves kept failing (f t a))
    (achieves : ∀ t, kept t → Leaves achieved failing (f t item))
    (stays : ∀ t, achieved t → ∀ a ∈ items, Leaves achieved failing (f t a)) :
    Leaves achieved failing (items.foldlM f s) := by
  obtain ⟨before, rest, rfl⟩ := List.append_of_mem member
  rw [List.foldlM_append]
  refine bind (foldlM start fun t kept a listed => round t kept a (by simp [listed])) fun t kept => ?_
  rw [List.foldlM_cons]
  exact bind (achieves t kept) fun t done =>
    foldlM done fun t done a listed => stays t done a (by simp [listed])

theorem heed {tree : SyntaxTree} {listen : Listener ε σ} {after : σ → Prop} {event : Event} {t : σ}
    (heard : ∀ node, tree.node? event.node = some node →
      Leaves after failing (listen event.phase event.node node t)) :
    Leaves after failing (tree.heed listen t event) :=
  bind_lift fun node read => heard node (orDangling_eq_ok_iff.mp read)

/-- A walk keeps what the listener keeps at every event, on any tree. -/
theorem walkFrom {tree : SyntaxTree} {listen : Listener ε σ} {kept : σ → Prop} {id : NodeId} {s : σ}
    (start : kept s) (step : ∀ phase other node t, tree.node? other = some node → kept t →
      Leaves kept failing (listen phase other node t)) :
    Leaves kept failing (tree.walkFrom listen id s) := by
  rw [SyntaxTree.walkFrom_eq_replay]
  refine bind (foldlM start fun t kept event _ => heed fun node found => ?_) fun t kept => ?_
  · exact step event.phase event.node node t found kept
  · cases (tree.trace id).fault with
    | none => exact kept
    | some fault => trivial

theorem walk {tree : SyntaxTree} {listen : Listener ε σ} {kept : σ → Prop} {s : σ} (start : kept s)
    (step : ∀ phase other node t, tree.node? other = some node → kept t →
      Leaves kept failing (listen phase other node t)) :
    Leaves kept failing (tree.walk listen s) :=
  walkFrom start step

/-- What leaving a node achieves, a walk over the node achieves, if no event undoes it. -/
theorem walkFrom_past {tree : SyntaxTree} {listen : Listener ε σ} (kept : σ → Prop)
    {achieved : σ → Prop} {top id : NodeId} {s : σ} (path : tree.Within top id) (start : kept s)
    (step : ∀ phase other node t, tree.node? other = some node → kept t →
      Leaves kept failing (listen phase other node t))
    (achieves : ∀ node t, tree.node? id = some node → kept t →
      Leaves achieved failing (listen .exit id node t))
    (stays : ∀ phase other node t, tree.node? other = some node → achieved t →
      Leaves achieved failing (listen phase other node t)) :
    Leaves achieved failing (tree.walkFrom listen top s) := by
  rw [SyntaxTree.walkFrom_eq_replay, SyntaxTree.replay]
  cases ended : (tree.trace top).fault with
  | some fault =>
    exact bind (foldlM start fun t kept event _ => heed fun node found =>
      step event.phase event.node node t found kept) fun _ _ => trivial
  | none =>
    refine bind (foldlM_past (SyntaxTree.exit_mem_of_faultless ended path) start ?_ ?_ ?_)
      fun _ done => done
    · exact fun t kept event _ => heed fun node found => step _ _ node t found kept
    · exact fun t kept => heed fun node found => achieves node t found kept
    · exact fun t done event _ => heed fun node found => stays _ _ node t found done

end Leaves

/-- What a step leaves behind, its result or the state of its interruption, satisfies a property. -/
abbrev Step.Leaves (holds : Resolution → Prop) (step : Step) : Prop :=
  ScriptSemantics.Leaves holds (fun interruption : Interruption => holds interruption.state) step

theorem Leaves.interrupting {α : Type} {holds : Resolution → Prop} {r : Resolution}
    {x : Except (Halt SemanticError) α} {f : α → Step} (kept : holds r)
    (next : ∀ a, x = .ok a → (f a).Leaves holds) : Step.Leaves holds (r.interrupting x >>= f) := by
  match x with
  | .ok a => exact next a rfl
  | .error (.failed _) => exact kept
  | .error (.fault _) => trivial

/-- The resolution that a step leaves behind, if it does not fault. -/
def Step.left? : Step → Option Resolution
  | .ok r => some r
  | .error (.failed interruption) => some interruption.state
  | .error (.fault _) => none

theorem Step.Leaves.of_left? {holds : Resolution → Prop} {step : Step} {r : Resolution}
    (kept : step.Leaves holds) (left : step.left? = some r) : holds r := by
  match step, kept with
  | .ok _, kept => exact Option.some.inj left ▸ kept
  | .error (.failed _), kept => exact Option.some.inj left ▸ kept
  | .error (.fault _), _ => cases left

/-- A pass over the nodes below one node of a tree. -/
inductive Pass where
  | register (start : NodeId)
  | resolve (mode : Mode) (start : NodeId)
  deriving DecidableEq, Repr

namespace Resolution

/-- What a pass leaves behind, if it does not fault. -/
def pass? (r : Resolution) (tree : SyntaxTree) : Pass → Option Resolution
  | .register start => (r.registerFrom tree start).toOption
  | .resolve mode start => (r.resolveFrom tree mode start).left?

/-- What passes leave behind one after another, of which any may have been interrupted. -/
def passes? (r : Resolution) (tree : SyntaxTree) (passes : List Pass) : Option Resolution :=
  passes.foldlM (fun r pass => r.pass? tree pass) r

theorem passes?_induction {tree : SyntaxTree} {kept : Resolution → Prop}
    (step : ∀ r pass after, kept r → r.pass? tree pass = some after → kept after)
    {r after : Resolution} {passes : List Pass} (start : kept r)
    (left : r.passes? tree passes = some after) : kept after := by
  induction passes generalizing r with
  | nil => exact Option.some.inj left ▸ start
  | cons pass passes ih =>
    rw [passes?, List.foldlM_cons] at left
    obtain ⟨between, first, rest⟩ := Option.bind_eq_some_iff.mp left
    exact ih (step r pass between start first) rest

end Resolution

end ScriptSemantics
