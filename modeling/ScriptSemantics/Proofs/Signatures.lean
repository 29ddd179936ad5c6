import Mathlib.Data.List.Basic
import ScriptSemantics.Proofs.TwoPhases

/-!
# When a signature is known

A function has no parameters before the walk comes to it and keeps the ones it has once the walk has
left it. No two functions of a scope contain each other. So what the check at the end of a function
sees of another one is either nothing, or all there is to see.
-/
namespace ScriptSemantics

/-- An item stands at one place of a list without repetitions. -/
theorem split_unique {α : Type} {item : α} {before after front back : List α}
    (nodup : (before ++ item :: after).Nodup)
    (same : before ++ item :: after = front ++ item :: back) : before = front ∧ after = back := by
  obtain ⟨-, rest, disjoint⟩ := List.nodup_append.mp nodup
  have left : item ∉ before := fun member => disjoint item member item (by simp) rfl
  obtain ⟨first, -, last⟩ :=
    (List.append_cons_inj_of_notMem left (List.nodup_cons.mp rest).1).mp same
  exact ⟨first, last⟩

/-- What a search finds is another item than one that it would find exactly when something before that
item satisfies it. -/
theorem find?_any_ne {α : Type} [DecidableEq α] {item : α} {earlier later : List α} {p : α → Bool}
    (nodup : (earlier ++ item :: later).Nodup) (holds : p item = true) :
    ((earlier ++ item :: later).find? p).any (· != item) = earlier.any p := by
  rw [List.find?_append, List.find?_cons_of_pos holds]
  cases found : earlier.find? p with
  | none =>
    have none := List.find?_eq_none.mp found
    simpa using none
  | some other =>
    have member := List.mem_of_find?_eq_some found
    have different : other ≠ item := by
      rintro rfl
      exact List.disjoint_of_nodup_append nodup member (by simp)
    have any : earlier.any p = true := List.any_eq_true.mpr ⟨other, member, List.find?_some found⟩
    simpa [any] using different

theorem any_congr_of_mem {α : Type} {items : List α} {p q : α → Bool}
    (same : ∀ item ∈ items, p item = q item) : items.any p = items.any q := by
  rw [Bool.eq_iff_iff, List.any_eq_true, List.any_eq_true]
  exact exists_congr fun item => and_congr_right fun member => by rw [same item member]

namespace SyntaxTree

variable {tree : SyntaxTree}

/-- Whether a walk leaves a node before it leaves another. -/
def leavesFirst (tree : SyntaxTree) (first second : NodeId) : Bool :=
  (tree.events tree.root).idxOf ⟨.exit, first⟩ < (tree.events tree.root).idxOf ⟨.exit, second⟩

namespace WellFormed

variable (formed : tree.WellFormed)
include formed

theorem mem_before_iff_leavesFirst (first : NodeId) {second : NodeId} {before after : List Event}
    (split : tree.events tree.root = before ++ ⟨.exit, second⟩ :: after) :
    ⟨.exit, first⟩ ∈ before ↔ tree.leavesFirst first second = true := by
  have nodup := formed.events_nodup .root
  rw [split] at nodup
  have new : ⟨.exit, second⟩ ∉ before := fun member =>
    List.disjoint_of_nodup_append nodup member (by simp)
  simp only [leavesFirst, split, List.idxOf_append_of_notMem new, List.idxOf_cons_self,
    decide_eq_true_eq]
  by_cases member : ⟨.exit, first⟩ ∈ before
  · have position := List.idxOf_lt_length_of_mem member
    rw [List.idxOf_append_of_mem member]
    exact ⟨fun _ => by omega, fun _ => member⟩
  · rw [List.idxOf_append_of_notMem member]
    exact ⟨fun absurd => (member absurd).elim, fun less => by omega⟩

/-- When a node is left, a node that does not contain it is either not yet entered or left already. -/
theorem events_apart {first second : NodeId} (reached : tree.Reachable first)
    (apart : ¬ tree.Within first second) {before after : List Event}
    (split : tree.events tree.root = before ++ ⟨.exit, second⟩ :: after) :
    (∀ event ∈ before, ¬ tree.Within first event.node) ∨
      ∀ event ∈ after, ¬ tree.Within first event.node := by
  obtain ⟨front, back, whole⟩ := formed.events_infix .root reached
  have nodup := formed.events_nodup .root
  have clean {event : Event} (member : event ∈ front ∨ event ∈ back) :
      ¬ tree.Within first event.node := by
    intro path
    have inside : event ∈ tree.events first := (formed.mem_events reached).mpr path
    rw [← whole, List.append_assoc] at nodup
    rcases member with member | member
    · exact List.disjoint_of_nodup_append nodup member (List.mem_append_left _ inside)
    · exact List.disjoint_of_nodup_append (List.nodup_append.mp nodup).2.1 inside member
  have outside : ⟨.exit, second⟩ ∉ tree.events first := fun member =>
    apart ((formed.mem_events reached).mp member)
  have listed : ⟨.exit, second⟩ ∈ front ++ tree.events first ++ back := by simp [whole, split]
  rw [split] at nodup whole
  rcases List.mem_append.mp listed with listed | inBack
  · have inFront := (List.mem_append.mp listed).resolve_right outside
    obtain ⟨start, rest, rfl⟩ := List.append_of_mem inFront
    obtain ⟨rfl, -⟩ := split_unique nodup (by simpa using whole.symm)
    exact .inl fun event earlier => clean (.inl (by simp [earlier]))
  · obtain ⟨start, rest, rfl⟩ := List.append_of_mem inBack
    obtain ⟨-, rfl⟩ := split_unique nodup
      (show _ = (front ++ tree.events first ++ start) ++ _ :: rest by simpa using whole.symm)
    exact .inr fun event later => clean (.inr (by simp [later]))

theorem root_of_function {id : NodeId} (reached : tree.Reachable id) (isFunction : tree.IsFunction id)
    {root : Node} (found : tree.node? tree.root = some root) : root.kind ≠ .formalParameter := by
  intro parameter
  have parts : ∀ node, tree.node? id = some node →
      node.kind = .formalParameter ∨ node.kind.isParameterPart = true := by
    obtain ⟨distance, path⟩ := reached
    clear isFunction
    induction path with
    | refl =>
      intro node foundNode
      obtain rfl : root = node := Option.some.inj (found.symm.trans foundNode)
      exact .inl parameter
    | step path link ih =>
      intro node foundNode
      obtain ⟨above, foundAbove, member⟩ := link
      exact .inr (formed.parameter_part foundAbove (ih above foundAbove) member foundNode)
  obtain ⟨node, foundNode, kind⟩ := isFunction
  simpa [kind, NodeKind.isParameterPart, NodeKind.isTypeAlternative] using parts node foundNode

end WellFormed

end SyntaxTree

/-- The diagnostic about a function that is declared twice. -/
def SyntaxTree.repetition (tree : SyntaxTree) (id : NodeId) (signature : String) : Diagnostic :=
  ⟨id, tree.locationAt id, .duplicateDeclaration,
    "function or method already declared: " ++ signature⟩

/-- The node that declares a symbol. -/
def Resolution.nodeOf (b : Resolution) (symbol : SymbolId) : NodeId :=
  ((b.table.symbols[symbol.index]?).map Symbol.node).getD ⟨0⟩

namespace Prepared

variable {tree : SyntaxTree} {b : Resolution} (prepared : Prepared tree b)
include prepared

/-- The scope around a function comes before its own, and is the scope that the function stands in. -/
theorem enclosingAt_function {id : NodeId} (reached : tree.Reachable id)
    (isFunction : tree.IsFunction id) : (b.enclosingAt id).index < (b.scopeAt id).index ∧
      ∀ parent, tree.Reachable parent → tree.HasChild parent id →
        b.enclosingAt id = b.scopeAt parent := by
  obtain ⟨node, found, kind⟩ := isFunction
  have around {outer : ScopeId} (bound : b.Bound id node outer) : ∃ scope,
      b.table.scopes[(b.scopeAt id).index]? = some scope ∧ scope.enclosing = some outer ∧
        b.enclosingAt id = outer := by
    obtain ⟨scope, foundScope, enclosing⟩ :=
      bound.introduced (by simp [kind, NodeKind.introducesScope])
    exact ⟨scope, foundScope, enclosing, by simp [Resolution.enclosingAt, foundScope, enclosing]⟩
  constructor
  · obtain ⟨outer, -, bound⟩ := prepared.registered.bound prepared.formed reached found
    obtain ⟨scope, foundScope, enclosing, rfl⟩ := around bound
    exact prepared.registered.nested.enclosing_lt foundScope enclosing
  · intro parent reachedParent link
    obtain ⟨-, -, -, same⟩ := around (prepared.registered.child parent id node reachedParent link found)
    exact same

/-- No function contains another function of the scope that it is declared in. -/
theorem functions_apart {first second : NodeId} (reachedFirst : tree.Reachable first)
    (reachedSecond : tree.Reachable second) (isFirst : tree.IsFunction first)
    (isSecond : tree.IsFunction second) (beside : b.enclosingAt first = b.enclosingAt second)
    (different : first ≠ second) : ¬ tree.Within first second := by
  rintro ⟨distance, path⟩
  cases path with
  | refl => exact different rfl
  | @step _ parent _ path link =>
    have inside : tree.Within first parent := ⟨_, path⟩
    have standing := (prepared.enclosingAt_function reachedSecond isSecond).2 parent
      (reachedFirst.within inside) link
    have below := (prepared.enclosingAt_function reachedFirst isFirst).1
    have deeper := prepared.registered.scopeAt_le prepared.formed reachedFirst inside
    rw [beside, standing] at below
    omega

theorem parameter_listed {id parameter declarator : NodeId} (reached : tree.Reachable id)
    (isFunction : tree.IsFunction id) (reachedParameter : tree.Reachable parameter)
    (isParameter : tree.IsParameter parameter declarator)
    (owned : b.ownerAt parameter = b.ownerAt id) :
    ∃ node name returnType parameters body, tree.node? id = some node ∧
      node.production = .functionDeclaration name returnType parameters body ∧
        parameter ∈ parameters := by
  obtain ⟨node, type, found, is⟩ := isParameter
  have kind : node.kind = .formalParameter := Node.kind_of is
  have inner : parameter ≠ tree.root := by
    rintro rfl
    exact prepared.formed.root_of_function reached isFunction found kind
  obtain ⟨parent, above, name, returnType, parameters, body, reachedParent, foundParent, isParent,
    member, sameScope, -⟩ :=
    prepared.registered.parameter prepared.formed reachedParameter found kind inner
  have sameOwner : b.ownerAt parent = b.ownerAt id := by
    rw [← owned, Resolution.ownerAt, Resolution.ownerAt, sameScope]
  obtain rfl := prepared.ownerAt_inj reachedParent reached
    (.inl ⟨above, foundParent, Node.kind_of isParent⟩) (.inl isFunction) sameOwner
  exact ⟨above, name, returnType, parameters, body, foundParent, isParent, member⟩

theorem parameter_within {id parameter declarator : NodeId} (reached : tree.Reachable id)
    (isFunction : tree.IsFunction id) (reachedParameter : tree.Reachable parameter)
    (isParameter : tree.IsParameter parameter declarator)
    (owned : b.ownerAt parameter = b.ownerAt id) : tree.Within id parameter := by
  obtain ⟨node, _, _, _, _, found, is, member⟩ :=
    prepared.parameter_listed reached isFunction reachedParameter isParameter owned
  exact SyntaxTree.HasChild.within
    ⟨node, found, by simp [Node.children, is, Production.children, member]⟩

/-- A function of a name in a scope is declared by a node that knows it. -/
theorem exists_function {scope : ScopeId} {name : String} {function : SymbolId}
    (listed : function ∈ b.functionsAt scope name) : ∃ node returnType parameters body,
      tree.Reachable (b.nodeOf function) ∧ tree.node? (b.nodeOf function) = some node ∧
        node.production = .functionDeclaration name returnType parameters body ∧
        b.ownerAt (b.nodeOf function) = function ∧ b.enclosingAt (b.nodeOf function) = scope := by
  obtain ⟨inScope, sort⟩ := List.mem_filter.mp listed
  obtain ⟨symbol, found, isFunction⟩ := SymbolTable.holds_iff.mp sort
  simp only [Bool.and_eq_true, beq_iff_eq, Bool.not_eq_true'] at isFunction
  have known : scope.index < b.table.scopes.size := by
    by_contra unknown
    simp [SymbolTable.listing, Array.getElem?_eq_none (Nat.le_of_not_lt unknown)] at inScope
  have here : symbol.enclosing = scope := by
    obtain ⟨other, foundOther, here⟩ := (prepared.registered.ordered.mem_listing known).mp inScope
    rwa [Option.some.inj (found.symm.trans foundOther)]
  have isNode : b.nodeOf function = symbol.node := by simp [Resolution.nodeOf, found]
  obtain ⟨reached, declares, node, foundNode, ⟨superclass, body, is, kind⟩ |
    ⟨returnType, parameters, body, is, kind⟩⟩ := prepared.registered.symbol prepared.formed found
  · simp [kind, SymbolKind.isClass] at isFunction
  · obtain ⟨symbolOf, -, declared, -⟩ :=
      prepared.registered.function_found prepared.formed reached foundNode is
    rw [declares, Option.some.injEq] at symbolOf
    rw [← symbolOf, found, Option.some.injEq] at declared
    rw [isNode]
    refine ⟨node, returnType, parameters, body, reached, foundNode, ?_, symbolOf.symm, ?_⟩
    · rw [← isFunction.1.1]
      exact is
    · rw [← here, declared]

section Listed

variable {scope : ScopeId} {name : String} {first second : SymbolId}
  (inFirst : first ∈ b.functionsAt scope name)
include inFirst

/-- The node of a listed function is a function that stands in the scope. -/
theorem listed_function : tree.Reachable (b.nodeOf first) ∧ tree.IsFunction (b.nodeOf first) ∧
    b.enclosingAt (b.nodeOf first) = scope := by
  obtain ⟨node, _, _, _, reached, found, is, -, around⟩ := prepared.exists_function inFirst
  exact ⟨reached, ⟨node, found, Node.kind_of is⟩, around⟩

variable (inSecond : second ∈ b.functionsAt scope name)
include inSecond

theorem nodeOf_inj (same : b.nodeOf first = b.nodeOf second) : first = second := by
  obtain ⟨_, _, _, _, -, -, -, owner, -⟩ := prepared.exists_function inFirst
  obtain ⟨_, _, _, _, -, -, -, ownerSecond, -⟩ := prepared.exists_function inSecond
  rw [← owner, ← ownerSecond, same]

theorem listed_apart (different : first ≠ second) :
    ¬ tree.Within (b.nodeOf first) (b.nodeOf second) := by
  obtain ⟨reached, isFunction, around⟩ := prepared.listed_function inFirst
  obtain ⟨reachedSecond, isSecond, aroundSecond⟩ := prepared.listed_function inSecond
  exact prepared.functions_apart reached reachedSecond isFunction isSecond
    (around.trans aroundSecond.symm) fun same => different (prepared.nodeOf_inj inFirst inSecond same)

end Listed

end Prepared

namespace View

variable {tree : SyntaxTree} {b : Resolution} {mode : Mode} {v w : View}

/-- A function gets its parameters when the walk leaves them. -/
theorem Writes.parameters_source {event : Event} (writes : Writes tree b event v w)
    (function : SymbolId) : ∀ declarator ∈ w.parameters function,
      declarator ∈ v.parameters function ∨
        tree.IsParameter event.node declarator ∧ b.ownerAt event.node = function := by
  induction writes with
  | refl => exact fun _ member => .inl member
  | pushParameter _ isParameter _ ih =>
    intro declarator member
    simp only [View.pushParameter] at member
    split at member
    next here =>
      rcases List.mem_append.mp member with member | last
      · exact ih declarator (here.1 ▸ member)
      · rw [List.mem_singleton.mp last]
        exact .inr ⟨isParameter, here.1.symm⟩
    next => exact ih declarator member
  | _ => assumption

/-- A run leaves alone what is known of a variable that it comes to no type for. -/
theorem foldl_variableType_eq {events : List Event} {declarator : NodeId}
    (untyped : ∀ event ∈ events, declarator ∉ tree.typedBy event.node) (v : View) :
    (events.foldl (View.advance tree b mode) v).variableType declarator =
      v.variableType declarator := by
  refine List.foldlRecOn events
    (motive := fun w : View => w.variableType declarator = v.variableType declarator) _ rfl ?_
  intro w same event member
  exact (advance_writes.variableType_eq fun _ => untyped event member).trans same

/-- A run in which nothing is done at a node neither checks nor reports it. -/
theorem foldl_idle {events : List Event} {id : NodeId}
    (idle : ∀ event ∈ events, event.node = id → ∀ w, View.advance tree b mode w event = w) (v : View) :
    (events.foldl (View.advance tree b mode) v).checked id = v.checked id ∧
      (events.foldl (View.advance tree b mode) v).diagnostics.filter (fun d => d.node = id) =
        v.diagnostics.filter fun d => d.node = id := by
  refine List.foldlRecOn events (motive := fun w : View => w.checked id = v.checked id ∧
    w.diagnostics.filter (fun d => d.node = id) = v.diagnostics.filter fun d => d.node = id) _
    ⟨rfl, rfl⟩ ?_
  rintro w ⟨checked, silent⟩ event member
  by_cases here : event.node = id
  · rw [idle event member here]
    exact ⟨checked, silent⟩
  obtain ⟨added, same, nodes⟩ :=
    (advance_writes : Writes tree b event w (w.advance tree b mode event)).diagnostics_eq
  have others : added.filter (fun d => d.node = id) = [] := by
    rw [List.filter_eq_nil_iff]
    intro d isAdded
    simpa [nodes d isAdded] using here
  rw [same, List.filter_append, silent, others, List.append_nil]
  exact ⟨(advance_writes.checked_eq here).trans checked, rfl⟩

section Function

variable (prepared : Prepared tree b) {id : NodeId} (reached : tree.Reachable id)
  (isFunction : tree.IsFunction id) {events : List Event}
  (reachedEvents : ∀ event ∈ events, tree.Reachable event.node)
include prepared reached isFunction reachedEvents

theorem foldl_parameters_within :
    ∀ declarator ∈ (events.foldl (View.advance tree b mode) (start b)).parameters (b.ownerAt id),
      ∃ parameter, tree.Within id parameter ∧ tree.IsParameter parameter declarator := by
  refine List.foldlRecOn events (motive := fun w : View => ∀ declarator ∈ w.parameters (b.ownerAt id),
    ∃ parameter, tree.Within id parameter ∧ tree.IsParameter parameter declarator) _ ?_ ?_
  · intro declarator member
    cases member
  · intro w within event member declarator added
    rcases advance_writes.parameters_source _ declarator added with before | ⟨isParameter, owned⟩
    · exact within declarator before
    · exact ⟨event.node, prepared.parameter_within reached isFunction (reachedEvents event member)
        isParameter owned, isParameter⟩

variable (outside : ∀ event ∈ events, ∀ declarator, tree.IsParameter event.node declarator →
  ¬ tree.Within id event.node)
include outside

theorem foldl_parameters_eq (v : View) :
    (events.foldl (View.advance tree b mode) v).parameters (b.ownerAt id) =
      v.parameters (b.ownerAt id) := by
  refine List.foldlRecOn events
    (motive := fun w : View => w.parameters (b.ownerAt id) = v.parameters (b.ownerAt id)) _ rfl ?_
  intro w same event member
  refine (advance_writes.parameters_eq fun _ declarator isParameter owned => ?_).trans same
  exact outside event member declarator isParameter
    (prepared.parameter_within reached isFunction (reachedEvents event member) isParameter owned)

omit reached isFunction reachedEvents in
/-- A run that does not come to the parameters of a function leaves their types alone. -/
theorem foldl_parameterType_eq {v : View} {declarator : NodeId}
    (within : ∃ parameter, tree.Within id parameter ∧ tree.IsParameter parameter declarator) :
    (events.foldl (View.advance tree b mode) v).variableType declarator =
      v.variableType declarator := by
  refine foldl_variableType_eq (fun event listed typed => ?_) v
  obtain ⟨parameter, path, isParameter⟩ := within
  have typedHere : declarator ∈ tree.typedBy parameter := by
    obtain ⟨⟨production, location⟩, type, found, is⟩ := isParameter
    cases is
    simp [SyntaxTree.typedBy, found]
  obtain rfl := prepared.formed.typedBy_unique typedHere typed
  exact outside event listed declarator isParameter path

end Function

/-- What a pass over members finds out along some events. -/
def soFar (tree : SyntaxTree) (b : Resolution) (events : List Event) : View :=
  events.foldl (View.advance tree b .membersOnly) (start b)

/-- Completing a function that has not been looked at reports it if its signature is there before. -/
theorem completeFunction_reports {id : NodeId} (unchecked : v.checked id = false)
    (silent : v.diagnostics.filter (fun d => d.node = id) = []) (name : String)
    (returnType : Option NodeId) :
    (v.completeFunction b id name (tree.locationAt id) returnType).diagnostics.filter
        (fun d => d.node = id) =
      match v.signature (b.ownerAt id) with
      | none => []
      | some types =>
        if v.repeats b id name types then [tree.repetition id (v.signatureText b (b.ownerAt id))]
        else [] := by
  -- Giving the function its return type changes nothing that the check looks at.
  have returning : ((v.returning b id returnType).check id).diagnostics = v.diagnostics ∧
      ((v.returning b id returnType).check id).signature = v.signature ∧
      (∀ types, ((v.returning b id returnType).check id).repeats b id name types =
        v.repeats b id name types) ∧
      ((v.returning b id returnType).check id).signatureText b = v.signatureText b := by
    cases returnType <;> exact ⟨rfl, rfl, fun _ => rfl, rfl⟩
  obtain ⟨diagnostics, signature, repeats, text⟩ := returning
  simp only [completeFunction, unchecked, Bool.false_eq_true, if_false, checkSignature, signature, text]
  cases v.signature (b.ownerAt id) with
  | none => simp only [diagnostics, silent]
  | some types =>
    simp only [repeats]
    split
    · simp [View.log, diagnostics, List.filter_append, silent, SyntaxTree.repetition]
    · simp only [diagnostics, silent]

/-- A function is reported at its end, by what is known then, and at no other time. -/
theorem members_reports_at (prepared : Prepared tree b) {id : NodeId} {node : Node} {name : String}
    {returnType : Option NodeId} {parameters : List NodeId} {body : NodeId}
    (found : tree.node? id = some node)
    (is : node.production = .functionDeclaration name returnType parameters body)
    {before after : List Event} (split : tree.events tree.root = before ++ ⟨.exit, id⟩ :: after) :
    (members tree b).diagnostics.filter (fun d => d.node = id) =
      match (soFar tree b before).signature (b.ownerAt id) with
      | none => []
      | some types =>
        if (soFar tree b before).repeats b id name types then
          [tree.repetition id ((soFar tree b before).signatureText b (b.ownerAt id))]
        else [] := by
  obtain ⟨production, location⟩ := node
  cases is
  have nodup := prepared.formed.events_nodup .root
  rw [split] at nodup
  have enters : ∀ event ∈ before, event.node = id →
      ∀ w, View.advance tree b .membersOnly w event = w := by
    rintro ⟨phase, _⟩ member rfl w
    cases phase with
    | enter => simp [View.advance, found, View.enter]
    | exit => exact (List.disjoint_of_nodup_append nodup member (by simp)).elim
  have gone : ∀ event ∈ after, event.node = id →
      ∀ w, View.advance tree b .membersOnly w event = w := by
    rintro event member rfl
    exact (prepared.formed.after_exit split event member (.refl _)).elim
  obtain ⟨unchecked, silent⟩ := foldl_idle enters (start b)
  rw [members, split, List.foldl_append, List.foldl_cons, (foldl_idle gone _).2]
  have exits (v : View) : v.advance tree b .membersOnly ⟨.exit, id⟩ =
      v.completeFunction b id name (tree.locationAt id) returnType := by
    simp [View.advance, found, View.exit, SyntaxTree.locationAt]
  rw [exits]
  exact completeFunction_reports unchecked silent name returnType

theorem foldl_types_extend (events : List Event) (v : View) :
    (events.foldl (View.advance tree b mode) v).types.Extends v.types := by
  refine List.foldlRecOn events (motive := fun w : View => w.types.Extends v.types) _ (.refl _) ?_
  intro w extension event member
  exact advance_writes.types_extend.trans extension

/-- Later allocations do not change which lists of types are the same. -/
theorem Grounded.sameTypes_eq (grounded : v.Grounded tree b) (later : w.Grounded tree b)
    (extension : w.types.Extends v.types) {lefts rights : List Ty}
    (knownLefts : ∀ type ∈ lefts, type.Formed b.IsClassScope v.types.functions.size)
    (knownRights : ∀ type ∈ rights, type.Formed b.IsClassScope v.types.functions.size) :
    v.sameTypes lefts rights = w.sameTypes lefts rights := by
  have mono {types : List Ty}
      (known : ∀ type ∈ types, type.Formed b.IsClassScope v.types.functions.size) :
      (∀ type ∈ types, type.Formed b.IsClassScope w.types.functions.size) ∧
        types.map w.types.term = types.map v.types.term :=
    ⟨fun type member => (known type member).mono extension.size_le,
      List.map_congr_left fun type member =>
        TypeTable.term_extends grounded.types extension (known type member)⟩
  apply Bool.eq_iff_iff.mpr
  simp only [sameTypes, decide_eq_true_eq]
  rw [TypeTable.matchParameterTypes_eq_ok_true_iff grounded.types knownLefts knownRights,
    TypeTable.matchParameterTypes_eq_ok_true_iff later.types (mono knownLefts).1 (mono knownRights).1,
    (mono knownLefts).2, (mono knownRights).2]

theorem Grounded.textOf_eq (grounded : v.Grounded tree b) (extension : w.types.Extends v.types)
    {type : Option Ty}
    (known : ∀ t, type = some t → t.Formed b.IsClassScope v.types.functions.size) :
    w.textOf b type = v.textOf b type := by
  cases type with
  | none => rfl
  | some type =>
    let shown : Resolution := { b with types := v.types }
    let later : Resolution := { b with types := w.types }
    have same : later.typeText type = shown.typeText type := by
      refine Resolution.typeText_extends (r := shown) grounded.types extension ?_ (known type rfl)
      exact fun _ _ => rfl
    simp only [textOf, Resolution.optionalTypeText]
    rw [same]

section Exit

variable (prepared : Prepared tree b) {second : NodeId} {before after : List Event}
  (split : tree.events tree.root = before ++ ⟨.exit, second⟩ :: after)
include prepared split

theorem reachable_of_split :
    (∀ event ∈ before, tree.Reachable event.node) ∧ tree.Reachable second ∧
      ∀ event ∈ after, tree.Reachable event.node := by
  have reached := reachable_of_mem_events prepared
  rw [split] at reached
  exact ⟨fun event member => reached event (by simp [member]), reached ⟨.exit, second⟩ (by simp),
    fun event member => reached event (by simp [member])⟩

/-- A prefix of the pass comes to a view that represents a resolution. -/
theorem grounded_of_split :
    (soFar tree b before).Grounded tree b ∧ (members tree b).Grounded tree b := by
  have begins : (View.start b).Follows tree b b := ⟨.start prepared, .start prepared⟩
  obtain ⟨_, _, first⟩ := begins.run prepared (show tree.Suits .membersOnly from .inl rfl) before
    (reachable_of_split prepared split).1
  obtain ⟨_, _, last⟩ := begins.run prepared (show tree.Suits .membersOnly from .inl rfl)
    (tree.events tree.root) (reachable_of_mem_events prepared)
  exact ⟨first.grounded, last.grounded⟩

omit prepared in
theorem members_of_split : members tree b =
    (⟨.exit, second⟩ :: after).foldl (View.advance tree b .membersOnly) (soFar tree b before) := by
  rw [members, split, List.foldl_append, soFar]

variable (isSecond : tree.IsFunction second)
include isSecond

/-- Parameters that nothing is added to any more are the final ones, and so are their types. -/
theorem parameters_of_split {first : NodeId} (reached : tree.Reachable first)
    (isFirst : tree.IsFunction first) (gone : ∀ event ∈ after, ¬ tree.Within first event.node) :
    (members tree b).parameters (b.ownerAt first) =
        (soFar tree b before).parameters (b.ownerAt first) ∧
      ∀ declarator ∈ (soFar tree b before).parameters (b.ownerAt first),
        (members tree b).variableType declarator = (soFar tree b before).variableType declarator := by
  obtain ⟨reachedBefore, reachedSecond, reachedAfter⟩ := reachable_of_split prepared split
  have rest : ∀ event ∈ (⟨.exit, second⟩ :: after : List Event), tree.Reachable event.node := by
    intro event member
    rcases List.mem_cons.mp member with rfl | member
    · exact reachedSecond
    · exact reachedAfter event member
  have outside : ∀ event ∈ (⟨.exit, second⟩ :: after : List Event), ∀ declarator,
      tree.IsParameter event.node declarator → ¬ tree.Within first event.node := by
    intro event member declarator isParameter
    rcases List.mem_cons.mp member with rfl | member
    · obtain ⟨node, type, found, is⟩ := isParameter
      obtain ⟨other, foundOther, kind⟩ := isSecond
      obtain rfl : node = other := Option.some.inj (found.symm.trans foundOther)
      simp [Node.kind, is, Production.kind] at kind
    · exact gone event member
  rw [members_of_split split]
  refine ⟨foldl_parameters_eq prepared reached isFirst rest outside _, fun declarator member => ?_⟩
  exact foldl_parameterType_eq prepared outside
    (foldl_parameters_within prepared reached isFirst reachedBefore declarator member)

/-- A signature that no parameter is added to any more is the final one. -/
theorem signature_of_split {first : NodeId} (reached : tree.Reachable first)
    (isFirst : tree.IsFunction first) (gone : ∀ event ∈ after, ¬ tree.Within first event.node) :
    (soFar tree b before).signature (b.ownerAt first) =
      (members tree b).signature (b.ownerAt first) := by
  obtain ⟨parameters, types⟩ := parameters_of_split prepared split isSecond reached isFirst gone
  unfold signature
  rw [parameters]
  exact (mapM_congr types).symm

theorem signatureText_of_split {first : NodeId} (reached : tree.Reachable first)
    (isFirst : tree.IsFunction first) (gone : ∀ event ∈ after, ¬ tree.Within first event.node) :
    (soFar tree b before).signatureText b (b.ownerAt first) =
      (members tree b).signatureText b (b.ownerAt first) := by
  obtain ⟨parameters, types⟩ := parameters_of_split prepared split isSecond reached isFirst gone
  obtain ⟨grounded, -⟩ := grounded_of_split prepared split
  have extension : (members tree b).types.Extends (soFar tree b before).types := by
    rw [members_of_split split]
    exact foldl_types_extend _ _
  have texts : ∀ declarator ∈ (soFar tree b before).parameters (b.ownerAt first),
      (soFar tree b before).textOf b ((soFar tree b before).variableType declarator) =
        (members tree b).textOf b ((members tree b).variableType declarator) := by
    intro declarator member
    rw [types declarator member]
    exact (grounded.textOf_eq extension fun type => grounded.variableTyped declarator type).symm
  unfold signatureText
  rw [parameters, List.map_congr_left texts]

/-- At the end of a function, another one of the scope accepts what it will accept in the end if it
has been left, and looks like a function without parameters if not. -/
theorem accepts_of_split {first : NodeId} (reached : tree.Reachable first)
    (isFirst : tree.IsFunction first) (beside : b.enclosingAt first = b.enclosingAt second)
    (different : first ≠ second) {types : List Ty}
    (signature : (members tree b).signature (b.ownerAt second) = some types) :
    (soFar tree b before).accepts types (b.ownerAt first) =
      if tree.leavesFirst first second then (members tree b).accepts types (b.ownerAt first)
      else types.isEmpty := by
  obtain ⟨reachedBefore, reachedSecond, reachedAfter⟩ := reachable_of_split prepared split
  obtain ⟨grounded, last⟩ := grounded_of_split prepared split
  have extension : (members tree b).types.Extends (soFar tree b before).types := by
    rw [members_of_split split]
    exact foldl_types_extend _ _
  have known := grounded.signature_formed ((signature_of_split prepared split isSecond reachedSecond
    isSecond (prepared.formed.after_exit split)).trans signature)
  have apart := prepared.functions_apart reached reachedSecond isFirst isSecond beside different
  have left := prepared.formed.mem_before_iff_leavesFirst first split
  rcases prepared.formed.events_apart reached apart split with none | gone
  · have notLeft : tree.leavesFirst first second = false := by
      refine Bool.eq_false_iff.mpr fun leaves => ?_
      exact none _ (left.mpr leaves) (.refl first)
    have empty : (soFar tree b before).parameters
        (b.ownerAt first) = [] := foldl_parameters_eq prepared reached isFirst reachedBefore
      (fun event member _ _ => none event member) (start b)
    simp only [notLeft, Bool.false_eq_true, if_false, accepts, View.signature, empty]
    cases types with
    | nil => rfl
    | cons type types => rfl
  · have isLeft : tree.leavesFirst first second = true := by
      apply left.mp
      have listed : ⟨.exit, first⟩ ∈ tree.events tree.root :=
        (prepared.formed.mem_events .root).mpr reached
      rw [split, List.mem_append, List.mem_cons] at listed
      rcases listed with listed | same | later
      · exact listed
      · exact (different (congrArg Event.node same)).elim
      · exact (gone _ later (.refl first)).elim
    have sameSignature := signature_of_split prepared split isSecond reached isFirst gone
    simp only [isLeft, if_true, accepts, sameSignature]
    cases found : (members tree b).signature (b.ownerAt first) with
    | none => rfl
    | some others =>
      exact grounded.sameTypes_eq last extension known
        (grounded.signature_formed (sameSignature.trans found))

end Exit

/-- Whether a function is reported depends on the functions that its scope lists before it: on the
signatures of those that the walk leaves before it, and on nothing of the others. -/
theorem members_reports (prepared : Prepared tree b) {scope : ScopeId} {name : String}
    {earlier later : List SymbolId} {function : SymbolId}
    (listed : b.functionsAt scope name = earlier ++ function :: later) :
    (members tree b).diagnostics.filter (fun d => d.node = b.nodeOf function) =
      match (members tree b).signature function with
      | none => []
      | some types =>
        if earlier.any fun other =>
            if tree.leavesFirst (b.nodeOf other) (b.nodeOf function) then
              (members tree b).accepts types other
            else types.isEmpty
        then [tree.repetition (b.nodeOf function) ((members tree b).signatureText b function)]
        else [] := by
  have inScope {other : SymbolId} (member : other ∈ earlier ++ function :: later) :
      other ∈ b.functionsAt scope name := listed ▸ member
  have here := inScope (show function ∈ _ by simp)
  obtain ⟨node, returnType, parameters, body, reached, found, is, owner, around⟩ :=
    prepared.exists_function here
  have isFunction : tree.IsFunction (b.nodeOf function) := ⟨node, found, Node.kind_of is⟩
  have leaves : ⟨.exit, b.nodeOf function⟩ ∈ tree.events tree.root :=
    (prepared.formed.mem_events .root).mpr reached
  obtain ⟨before, after, split⟩ := List.append_of_mem leaves
  have signature := signature_of_split prepared split isFunction reached isFunction
    (prepared.formed.after_exit split)
  have text := signatureText_of_split prepared split isFunction reached isFunction
    (prepared.formed.after_exit split)
  rw [owner] at signature text
  rw [members_reports_at prepared found is split, owner, signature, text]
  cases final : (members tree b).signature function with
  | none => rfl
  | some types =>
    obtain ⟨grounded, -⟩ := grounded_of_split prepared split
    have formed := grounded.signature_formed (signature.trans final)
    have itself : (soFar tree b before).accepts types function = true := by
      simp only [accepts, signature, final, Option.any_some, sameTypes, decide_eq_true_eq]
      exact (TypeTable.matchParameterTypes_eq_ok_true_iff grounded.types formed formed).mpr rfl
    have nodup : (earlier ++ function :: later).Nodup := by
      rw [← listed]
      exact (prepared.registered.ordered.listing_nodup scope).filter _
    have others : ∀ other ∈ earlier,
        (soFar tree b before).accepts types other =
          if tree.leavesFirst (b.nodeOf other) (b.nodeOf function) then
            (members tree b).accepts types other
          else types.isEmpty := by
      intro other member
      have listedOther := inScope (show other ∈ _ by simp [member])
      obtain ⟨above, _, _, _, reachedOther, foundOther, isOther, ownerOther, aroundOther⟩ :=
        prepared.exists_function listedOther
      have different : b.nodeOf other ≠ b.nodeOf function := by
        intro same
        obtain rfl := prepared.nodeOf_inj listedOther here same
        exact List.disjoint_of_nodup_append nodup member (by simp)
      have accepted := accepts_of_split prepared split isFunction reachedOther
        ⟨above, foundOther, Node.kind_of isOther⟩ (aroundOther.trans around.symm) different
        (owner.symm ▸ final)
      rwa [ownerOther] at accepted
    simp only [repeats, around, owner, listed, find?_any_ne nodup itself]
    rw [any_congr_of_mem others]

end View

end ScriptSemantics
