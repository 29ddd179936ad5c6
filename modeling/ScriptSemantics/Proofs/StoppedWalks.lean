import ScriptSemantics.Proofs.Recordings

/-!
# Walks that a listener stops

On any tree, a walk that ends when nothing stops it has a sequence of events, and every listener is
told an initial part of it. One that fails at an event is told nothing after that event, neither of
what lies below it nor of what lies beside or above, and its failure is what the walk ends with.
-/
namespace ScriptSemantics

section Loops

variable {ε α σ : Type} {f : σ → α → Except ε σ} {s : σ}

theorem round_of_foldlM {items : List α} {last : σ} (ended : items.foldlM f s = .ok last) {a : α}
    (member : a ∈ items) : ∃ before after, f before a = .ok after := by
  obtain ⟨first, rest, rfl⟩ := List.append_of_mem member
  rw [List.foldlM_append] at ended
  obtain ⟨before, -, ended⟩ := bind_eq_ok_iff.mp ended
  rw [List.foldlM_cons] at ended
  obtain ⟨after, round, -⟩ := bind_eq_ok_iff.mp ended
  exact ⟨before, after, round⟩

theorem foldlM_stopped {before : List α} {a : α} {t : σ} {cause : ε}
    (passed : before.foldlM f s = .ok t) (fails : f t a = .error cause) (after : List α) :
    (before ++ a :: after).foldlM f s = .error cause := by
  rw [List.foldlM_append, passed, ok_bind, List.foldlM_cons, fails, error_bind]

end Loops

namespace SyntaxTree

variable {tree : SyntaxTree} {ε σ : Type} {id : NodeId} {events : List Event}

theorem heed_of_node {event : Event} {node : Node} (found : tree.node? event.node = some node)
    (listen : Listener ε σ) (s : σ) :
    tree.heed listen s event = listen event.phase event.node node s := by
  simp only [heed, SyntaxTree.node, found, orDangling_some, lift_ok, ok_bind]

theorem foldlM_recorder {stop : Event → Bool}
    (known : ∀ event ∈ events, ∃ node, tree.node? event.node = some node)
    (passes : ∀ event ∈ events, stop event = false) (told : List Event) :
    events.foldlM (tree.heed (recorder stop)) told = .ok (events.reverse ++ told) := by
  rw [foldlM_eq_ok (g := fun told event => event :: told), List.foldl_flip_cons_eq_append]
  · simp
  · intro told event member
    obtain ⟨node, found⟩ := known event member
    rw [heed_of_node found]
    simp [recorder, passes event member]

theorem walkFrom_of_recording (ended : tree.recording id = (events, .complete)) :
    tree.walkFrom (recorder fun _ => false) id [] = .ok events.reverse := by
  unfold recording recordFrom at ended
  split at ended
  next told walked =>
    obtain ⟨rfl, -⟩ := Prod.mk.injEq .. ▸ ended
    rw [walked, List.reverse_reverse]
  all_goals cases ended

/-- A recording that is complete has the events of the trace, which has no fault and is about nodes
that exist. -/
theorem trace_of_recording (ended : tree.recording id = (events, .complete)) :
    tree.trace id = ⟨events, none⟩ ∧
      ∀ event ∈ events, ∃ node, tree.node? event.node = some node := by
  have walked := walkFrom_of_recording ended
  rw [walkFrom_eq_replay, replay] at walked
  obtain ⟨told, folded, rest⟩ := bind_eq_ok_iff.mp walked
  have known : ∀ event ∈ (tree.trace id).events, ∃ node, tree.node? event.node = some node := by
    intro event member
    obtain ⟨before, after, heard⟩ := round_of_foldlM folded member
    obtain ⟨node, read, -⟩ := bind_eq_ok_iff.mp heard
    exact ⟨node, orDangling_eq_ok_iff.mp (lift_eq_ok_iff.mp read)⟩
  rw [foldlM_recorder known fun _ _ => rfl, List.append_nil, Except.ok.injEq] at folded
  cases faultless : (tree.trace id).fault with
  | some fault => simp [faultless] at rest
  | none =>
    rw [faultless, Except.ok.injEq, ← folded, List.reverse_inj] at rest
    subst rest
    exact ⟨by rw [← faultless], known⟩

/-- A walk that ends when nothing stops it hands its events to any listener, one after another. -/
theorem walkFrom_of_trace (trace : tree.trace id = ⟨events, none⟩) (listen : Listener ε σ) (s : σ) :
    tree.walkFrom listen id s = events.foldlM (tree.heed listen) s := by
  rw [walkFrom_eq_replay, trace, replay]
  cases events.foldlM (tree.heed listen) s <;> rfl

end SyntaxTree

/-- Take the events of any walk that ends when nothing stops it. The recorder that is to stop at
some of them keeps those up to the first of these, and that one, and its failure is what the walk
ends with; if there is none to stop at, it keeps all of them and the walk ends. Whatever a listener
does, its failure at one of the events is what the walk ends with, and nothing that it would do at
later events plays a part. -/
theorem walk_stops_at_failure {tree : SyntaxTree} {id : NodeId} {events : List Event}
    (ended : tree.recording id = (events, .complete)) :
    (∀ (stop : Event → Bool) (before : List Event) (event : Event) (after : List Event),
      events = before ++ event :: after → (∀ earlier ∈ before, stop earlier = false) →
      stop event = true →
      tree.walkFrom (recorder stop) id [] =
          .error (.failed (event, (before ++ [event]).reverse)) ∧
        tree.recordFrom stop id = (before ++ [event], .stopped event.node)) ∧
    (∀ stop : Event → Bool, (∀ event ∈ events, stop event = false) →
      tree.walkFrom (recorder stop) id [] = .ok events.reverse ∧
        tree.recordFrom stop id = (events, .complete)) ∧
    ∀ (ε σ : Type) (listen : Listener ε σ) (s : σ),
      tree.walkFrom listen id s = events.foldlM (tree.heed listen) s ∧
      ∀ (before : List Event) (event : Event) (after : List Event) (node : Node) (t : σ)
        (cause : ε), events = before ++ event :: after → tree.node? event.node = some node →
        before.foldlM (tree.heed listen) s = .ok t →
        listen event.phase event.node node t = .error (.failed cause) →
        tree.walkFrom listen id s = .error (.failed cause) := by
  obtain ⟨trace, known⟩ := SyntaxTree.trace_of_recording ended
  have walked {ε σ : Type} (listen : Listener ε σ) (s : σ) :=
    SyntaxTree.walkFrom_of_trace trace listen s
  refine ⟨fun stop before event after split passes stops => ?_, fun stop passes => ?_,
    fun ε σ listen s => ⟨walked listen s, ?_⟩⟩
  · obtain ⟨node, found⟩ := known event (by simp [split])
    have kept := SyntaxTree.foldlM_recorder
      (fun earlier member => known earlier (by simp [split, member])) passes []
    have stopped : tree.walkFrom (recorder stop) id [] =
        .error (.failed (event, (before ++ [event]).reverse)) := by
      rw [walked, split]
      refine foldlM_stopped kept ?_ after
      rw [SyntaxTree.heed_of_node found]
      simp [recorder, stops]
    exact ⟨stopped, by simp only [SyntaxTree.recordFrom, stopped, List.reverse_reverse]⟩
  · have complete : tree.walkFrom (recorder stop) id [] = .ok events.reverse := by
      rw [walked, SyntaxTree.foldlM_recorder known passes, List.append_nil]
    exact ⟨complete, by simp only [SyntaxTree.recordFrom, complete, List.reverse_reverse]⟩
  · intro before event after node t cause split found passed fails
    rw [walked, split]
    exact foldlM_stopped passed ((SyntaxTree.heed_of_node found listen t).trans fails) after

/-- A block that lists one statement twice, in a store with another block whose child is missing. -/
def SyntaxTree.listedTwice : SyntaxTree where
  nodes := #[⟨.block [⟨1⟩, ⟨1⟩], ⟨0, 5⟩⟩, ⟨.expressionStatement ⟨2⟩, ⟨1, 2⟩⟩,
    ⟨.identifier "x", ⟨1, 2⟩⟩, ⟨.block [⟨9⟩], ⟨6, 8⟩⟩]
  root := ⟨3⟩

/-- The recorder that is to stop when the statement is left comes to it once, and to what the block
does at its end not at all. -/
theorem walk_stops_at_failure_listedTwice :
    SyntaxTree.listedTwice.validate ≠ .ok () ∧
      SyntaxTree.listedTwice.recording ⟨0⟩ =
        ([⟨.enter, ⟨0⟩⟩, ⟨.enter, ⟨1⟩⟩, ⟨.enter, ⟨2⟩⟩, ⟨.exit, ⟨2⟩⟩, ⟨.exit, ⟨1⟩⟩, ⟨.enter, ⟨1⟩⟩,
          ⟨.enter, ⟨2⟩⟩, ⟨.exit, ⟨2⟩⟩, ⟨.exit, ⟨1⟩⟩, ⟨.exit, ⟨0⟩⟩], .complete) ∧
      SyntaxTree.listedTwice.recordFrom (· == ⟨.exit, ⟨1⟩⟩) ⟨0⟩ =
        ([⟨.enter, ⟨0⟩⟩, ⟨.enter, ⟨1⟩⟩, ⟨.enter, ⟨2⟩⟩, ⟨.exit, ⟨2⟩⟩, ⟨.exit, ⟨1⟩⟩],
          .stopped ⟨1⟩) := by
  have ended : SyntaxTree.listedTwice.recording ⟨0⟩ =
      ([⟨.enter, ⟨0⟩⟩, ⟨.enter, ⟨1⟩⟩, ⟨.enter, ⟨2⟩⟩, ⟨.exit, ⟨2⟩⟩, ⟨.exit, ⟨1⟩⟩, ⟨.enter, ⟨1⟩⟩,
        ⟨.enter, ⟨2⟩⟩, ⟨.exit, ⟨2⟩⟩, ⟨.exit, ⟨1⟩⟩, ⟨.exit, ⟨0⟩⟩], .complete) := rfl
  obtain ⟨stops, -, -⟩ := walk_stops_at_failure ended
  exact ⟨by decide, ended, (stops (· == ⟨.exit, ⟨1⟩⟩)
    [⟨.enter, ⟨0⟩⟩, ⟨.enter, ⟨1⟩⟩, ⟨.enter, ⟨2⟩⟩, ⟨.exit, ⟨2⟩⟩] ⟨.exit, ⟨1⟩⟩ _ rfl (by decide)
    (by decide)).2⟩

end ScriptSemantics
