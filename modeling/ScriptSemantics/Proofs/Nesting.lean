import Mathlib.Logic.Relation
import ScriptSemantics.Proofs.Bindings

/-!
# Scopes nest as the syntax does

Registration numbers the classes, functions and blocks in the order in which the walk enters them,
and what each of them and every other node stands in is the scope of the nearest class, function or
block above it. The order is proved along the walk, event by event. The nesting is proved downwards
from the root, since a node is bound where its parent is.
-/
namespace ScriptSemantics

namespace SyntaxTree

variable {tree : SyntaxTree}

def introduces (tree : SyntaxTree) (id : NodeId) : Bool :=
  (tree.node? id).any fun node => node.kind.introducesScope

theorem introduces_eq {id : NodeId} {node : Node} (found : tree.node? id = some node) :
    tree.introduces id = node.kind.introducesScope := by
  simp [introduces, found]

/-- A class, a function or a block lies above a node. -/
structure Encloses (tree : SyntaxTree) (outer id : NodeId) : Prop where
  within : tree.Within outer id
  proper : outer ≠ id
  introduces : tree.introduces outer = true

/-- The nearest class, function or block above a node. -/
structure Innermost (tree : SyntaxTree) (outer id : NodeId) : Prop where
  encloses : tree.Encloses outer id
  nearest : ∀ other, tree.Encloses other id → tree.Within other outer

/-- Two nodes stand in the same class, function or block, or both in none. -/
def Beside (tree : SyntaxTree) (first second : NodeId) : Prop :=
  ∀ outer, tree.Innermost outer first ↔ tree.Innermost outer second

namespace WellFormed

variable (formed : tree.WellFormed)
include formed

theorem not_encloses_root (outer : NodeId) : ¬ tree.Encloses outer tree.root := by
  rintro ⟨⟨distance, path⟩, proper, -⟩
  cases path with
  | refl => exact proper rfl
  | step _ link => exact formed.not_hasChild_root _ link

/-- Around a child lies what lies around its parent, and the parent itself if it introduces a
scope. -/
theorem encloses_child_iff {outer parent child : NodeId} (reached : tree.Reachable parent)
    (link : tree.HasChild parent child) : tree.Encloses outer child ↔
      tree.Encloses outer parent ∨ outer = parent ∧ tree.introduces parent = true := by
  constructor
  · rintro ⟨⟨distance, path⟩, proper, introduces⟩
    cases path with
    | refl => exact absurd rfl proper
    | step path other =>
      obtain rfl := formed.parent_unique link other
      by_cases same : outer = parent
      · exact .inr ⟨same, same ▸ introduces⟩
      · exact .inl ⟨⟨_, path⟩, same, introduces⟩
  · have different {top : NodeId} (path : tree.Within top parent) : top ≠ child := by
      rintro rfl
      exact formed.not_within_parent reached link path
    rintro (⟨path, -, introduces⟩ | ⟨rfl, introduces⟩)
    · exact ⟨path.trans link.within, different path, introduces⟩
    · exact ⟨link.within, different (.refl _), introduces⟩

theorem reachable_of_encloses {outer id : NodeId} (reached : tree.Reachable id)
    (around : tree.Encloses outer id) : tree.Reachable outer := by
  obtain ⟨distance, path⟩ := reached
  induction path with
  | refl => exact absurd around (formed.not_encloses_root outer)
  | @step distance parent child path link ih =>
    rcases (formed.encloses_child_iff ⟨_, path⟩ link).mp around with around | ⟨rfl, -⟩
    · exact ih around
    · exact ⟨_, path⟩

/-- A parent that introduces a scope is the nearest to do so. -/
theorem innermost_parent {parent child : NodeId} (reached : tree.Reachable parent)
    (link : tree.HasChild parent child) (introduces : tree.introduces parent = true) :
    tree.Innermost parent child := by
  refine ⟨(formed.encloses_child_iff reached link).mpr (.inr ⟨rfl, introduces⟩), fun other around => ?_⟩
  rcases (formed.encloses_child_iff reached link).mp around with around | ⟨rfl, -⟩
  · exact around.within
  · exact .refl _

theorem innermost_unique {first second id : NodeId} (reached : tree.Reachable id)
    (left : tree.Innermost first id) (right : tree.Innermost second id) : first = second :=
  formed.within_antisymm (formed.reachable_of_encloses reached left.encloses)
    (right.nearest first left.encloses) (left.nearest second right.encloses)

/-- Around a child lies exactly what lies around a parent that introduces no scope. -/
theorem encloses_plain_parent {outer parent child : NodeId} (reached : tree.Reachable parent)
    (link : tree.HasChild parent child) (plain : tree.introduces parent = false) :
    tree.Encloses outer child ↔ tree.Encloses outer parent := by
  simp [formed.encloses_child_iff reached link, plain]

theorem innermost_plain_parent {outer parent child : NodeId} (reached : tree.Reachable parent)
    (link : tree.HasChild parent child) (plain : tree.introduces parent = false) :
    tree.Innermost outer child ↔ tree.Innermost outer parent := by
  have around (outer : NodeId) := @encloses_plain_parent _ formed outer _ _ reached link plain
  constructor
  · rintro ⟨encloses, nearest⟩
    exact ⟨(around outer).mp encloses, fun other here => nearest other ((around other).mpr here)⟩
  · rintro ⟨encloses, nearest⟩
    exact ⟨(around outer).mpr encloses, fun other here => nearest other ((around other).mp here)⟩

end WellFormed

/-- The classes, functions and blocks of a tree in the order in which the walk enters them. -/
def introducers (tree : SyntaxTree) : List NodeId :=
  visits .enter (tree.events tree.root) tree.introduces

/-- The walk enters every reachable class, function and block. -/
theorem WellFormed.mem_introducers (formed : tree.WellFormed) {id : NodeId} :
    id ∈ tree.introducers ↔ tree.Reachable id ∧ tree.introduces id = true :=
  mem_visits.trans (and_congr_left' (formed.mem_events .root))

theorem WellFormed.introducers_nodup (formed : tree.WellFormed) : tree.introducers.Nodup :=
  visits_nodup (formed.events_nodup .root) tree.introduces

end SyntaxTree

variable {tree : SyntaxTree}

/-- A scope is that of the nearest class, function or block above a node, or the namespace if there
is none. -/
def Resolution.Surrounds (r : Resolution) (tree : SyntaxTree) (scope : ScopeId) (id : NodeId) :
    Prop :=
  (∃ outer, tree.Innermost outer id ∧ r.scopeOf outer = .ok scope) ∨
    (∀ outer, ¬ tree.Encloses outer id) ∧ scope = SymbolTable.root

namespace Registered

variable {b : Resolution} (registered : Registered tree b) (formed : tree.WellFormed)
include registered formed

theorem scopeOf_eq_ok {id : NodeId} (reached : tree.Reachable id) :
    b.scopeOf id = .ok (b.scopeAt id) := by
  rw [Resolution.scopeOf, (registered.facts formed reached).1]

theorem exists_surrounds {id : NodeId} {node : Node} (reached : tree.Reachable id)
    (found : tree.node? id = some node) :
    ∃ outer, b.Bound id node outer ∧ b.Surrounds tree outer id := by
  obtain ⟨distance, path⟩ := reached
  induction path generalizing node with
  | refl => exact ⟨_, registered.root node found, .inr ⟨formed.not_encloses_root, rfl⟩⟩
  | @step distance parent child path link ih =>
    have reached : tree.Reachable parent := ⟨_, path⟩
    refine ⟨_, registered.child parent child node reached link found, ?_⟩
    cases introduces : tree.introduces parent with
    | true =>
      exact .inl ⟨parent, formed.innermost_parent reached link introduces,
        registered.scopeOf_eq_ok formed reached⟩
    | false =>
      obtain ⟨above, foundParent⟩ := formed.reachable_node reached
      obtain ⟨outer, bound, surrounds⟩ := ih foundParent
      have scope : b.scopeAt parent = outer := by
        rw [tree.introduces_eq foundParent] at introduces
        simp [Resolution.scopeAt, bound.plain introduces]
      rw [scope]
      simpa only [Resolution.Surrounds, formed.innermost_plain_parent reached link introduces,
        formed.encloses_plain_parent reached link introduces] using surrounds

end Registered

namespace SymbolTable

variable {table after : SymbolTable}

/-- What introduces the scopes of a table, by number. -/
def kinds (table : SymbolTable) : List ScopeKind := table.scopes.toList.map Scope.kind

theorem length_kinds : table.kinds.length = table.scopes.size := by simp [kinds]

theorem pushScope_kinds (kind : ScopeKind) (enclosing : ScopeId) :
    (table.pushScope kind enclosing).kinds = table.kinds ++ [kind] := by
  simp [kinds, pushScope]

theorem updateScope_kinds {id : ScopeId} {change : Scope → Scope}
    (updated : table.updateScope id change = .ok after)
    (keeps : ∀ scope, (change scope).kind = scope.kind) : after.kinds = table.kinds := by
  by_cases known : id.index < table.scopes.size
  · rw [updateScope_eq_ok known, Except.ok.injEq] at updated
    subst updated
    apply List.ext_getElem?
    intro i
    simp only [kinds, List.getElem?_map, Array.getElem?_toList, Array.getElem?_modify]
    split
    · cases table.scopes[i]? <;> simp [keeps]
    · rfl
  · simp [updateScope, scope, Array.getElem?_eq_none (Nat.le_of_not_lt known)] at updated

theorem addSymbol_kinds {scope : ScopeId} {name : String} {kind : SymbolKind} {node : NodeId}
    {location : Location} {symbol : SymbolId}
    (added : table.addSymbol scope name kind node location = .ok (symbol, after)) :
    after.kinds = table.kinds := by
  obtain ⟨listed, updated, done⟩ := bind_eq_ok_iff.mp added
  cases done
  have kinds := updateScope_kinds updated fun _ => rfl
  exact kinds

theorem declareClass_kinds {enclosing own : ScopeId} {name : String} {node : NodeId}
    {location : Location} {symbol : SymbolId}
    (declared : table.declareClass enclosing name node location = .ok ((symbol, own), after)) :
    own = table.nextScope ∧ after.kinds = table.kinds ++ [.classScope table.nextSymbol] := by
  obtain ⟨⟨symbol, listed⟩, added, done⟩ := bind_eq_ok_iff.mp declared
  cases done
  exact ⟨rfl, (addSymbol_kinds added).trans (pushScope_kinds _ _)⟩

theorem declareFunction_kinds {enclosing own : ScopeId} {name : String} {node : NodeId}
    {location : Location} {symbol : SymbolId}
    (declared : table.declareFunction enclosing name node location = .ok ((symbol, own), after)) :
    own = table.nextScope ∧ after.kinds = table.kinds ++ [.functionScope table.nextSymbol] := by
  obtain ⟨⟨symbol, listed⟩, added, done⟩ := bind_eq_ok_iff.mp declared
  cases done
  exact ⟨rfl, (addSymbol_kinds added).trans (pushScope_kinds _ _)⟩

theorem pushBlock_kinds {enclosing own : ScopeId}
    (pushed : table.pushBlock enclosing = .ok (own, after)) :
    own = table.nextScope ∧ after.kinds = table.kinds ++ [.blockScope] := by
  obtain ⟨listed, updated, done⟩ := bind_eq_ok_iff.mp pushed
  cases done
  exact ⟨rfl, (updateScope_kinds updated fun _ => rfl).trans (pushScope_kinds _ _)⟩

end SymbolTable

theorem Resolution.updateFacts_eq_ok_iff {r after : Resolution} {id : NodeId}
    {change : NodeFacts → NodeFacts} : r.updateFacts id change = .ok after ↔
      id.index < r.facts.size ∧ after = r.withFacts id change := by
  by_cases known : id.index < r.facts.size
  · rw [updateFacts_eq_ok known]
    simp [known, eq_comm]
  · simp [updateFacts, known]

namespace Registration

variable {s after : Registration} {id : NodeId}

/-- What entering a node adds to the numbering: a class, a function or a block gets the next number,
and what is known of other nodes stays. -/
structure Numbers (s : Registration) (id : NodeId) (introduces : Bool) (after : Registration) :
    Prop where
  kinds : ∃ added, after.resolution.table.kinds = s.resolution.table.kinds ++ added ∧
    added.length = if introduces then 1 else 0
  own : introduces = true →
    (after.resolution.factsOf id).scope = some s.resolution.table.nextScope
  elsewhere : ∀ other, other ≠ id →
    (after.resolution.factsOf other).scope = (s.resolution.factsOf other).scope

theorem Numbers.openScope {r : Resolution} {own : ScopeId} {kind : ScopeKind}
    (opened : s.openScope r id own = .ok after) (next : own = s.resolution.table.nextScope)
    (kinds : r.table.kinds = s.resolution.table.kinds ++ [kind])
    (elsewhere : ∀ other, other ≠ id →
      (r.factsOf other).scope = (s.resolution.factsOf other).scope) :
    s.Numbers id true after := by
  obtain ⟨bound, updated, done⟩ := bind_eq_ok_iff.mp opened
  obtain ⟨known, rfl⟩ := Resolution.updateFacts_eq_ok_iff.mp updated
  cases done
  refine ⟨⟨[kind], kinds, rfl⟩, fun _ => ?_, fun other different => ?_⟩
  · rw [Resolution.factsOf_withFacts known, if_pos rfl, next]
  · rw [Resolution.factsOf_withFacts known, if_neg different]
    exact elsewhere other different

/-- Declaring the symbol of a node changes the scope of no node. -/
theorem setSymbol_scope {r noted : Resolution} {symbol : SymbolId}
    (updated : r.setSymbol id symbol = .ok noted) :
    noted.table = r.table ∧ ∀ other, (noted.factsOf other).scope = (r.factsOf other).scope := by
  obtain ⟨known, rfl⟩ := Resolution.updateFacts_eq_ok_iff.mp updated
  refine ⟨rfl, fun other => ?_⟩
  rw [Resolution.factsOf_withFacts known]
  split
  · next same => rw [same]
  · rfl

theorem enter_numbers {node : Node} (entered : s.enter id node = .ok after) :
    s.Numbers id node.kind.introducesScope after := by
  unfold Registration.enter at entered
  cases is : node.production with
  | classDeclaration name superclass body =>
    rw [is] at entered
    obtain ⟨⟨⟨symbol, own⟩, table⟩, declared, rest⟩ := bind_eq_ok_iff.mp entered
    obtain ⟨noted, updated, opened⟩ := bind_eq_ok_iff.mp rest
    obtain ⟨rfl, kinds⟩ := SymbolTable.declareClass_kinds declared
    obtain ⟨same, elsewhere⟩ := setSymbol_scope updated
    rw [Node.kind, is]
    exact .openScope opened rfl (by rw [same, kinds]) fun other _ => elsewhere other
  | functionDeclaration name returnType parameters body =>
    rw [is] at entered
    obtain ⟨⟨⟨symbol, own⟩, table⟩, declared, rest⟩ := bind_eq_ok_iff.mp entered
    obtain ⟨noted, updated, opened⟩ := bind_eq_ok_iff.mp rest
    obtain ⟨rfl, kinds⟩ := SymbolTable.declareFunction_kinds declared
    obtain ⟨same, elsewhere⟩ := setSymbol_scope updated
    rw [Node.kind, is]
    exact .openScope opened rfl (by rw [same, kinds]) fun other _ => elsewhere other
  | block statements =>
    rw [is] at entered
    obtain ⟨⟨own, table⟩, pushed, opened⟩ := bind_eq_ok_iff.mp entered
    obtain ⟨rfl, kinds⟩ := SymbolTable.pushBlock_kinds pushed
    rw [Node.kind, is]
    exact .openScope opened rfl kinds fun _ _ => rfl
  | _ =>
    rw [is] at entered
    obtain ⟨bound, updated, done⟩ := bind_eq_ok_iff.mp entered
    obtain ⟨known, rfl⟩ := Resolution.updateFacts_eq_ok_iff.mp updated
    cases done
    rw [Node.kind, is]
    refine ⟨⟨[], (List.append_nil _).symm, rfl⟩, fun introduces => ?_, fun other different => ?_⟩
    · cases introduces
    · rw [Resolution.factsOf_withFacts known, if_neg different]

end Registration

/-- The scopes of the nodes entered so far are numbered from one on, after the namespace. -/
structure Numbered (name : String) (opened : List NodeId) (r : Resolution) : Prop where
  kinds : ∃ inner, r.table.kinds = .namespaceScope name :: inner ∧ inner.length = opened.length
  own : ∀ (i : Nat) (id : NodeId), opened[i]? = some id → (r.factsOf id).scope = some ⟨i + 1⟩

namespace Numbered

variable {name : String} {opened : List NodeId} {s after : Registration}

theorem new (tree : SyntaxTree) (name : String) : Numbered name [] (.new tree name) :=
  ⟨⟨[], rfl, rfl⟩, fun i id found => by simp at found⟩

/-- Entering a new node carries the numbering on. -/
theorem enter {id : NodeId} {introduces : Bool} (numbered : Numbered name opened s.resolution)
    (numbers : s.Numbers id introduces after) (fresh : id ∉ opened) :
    Numbered name (opened ++ if introduces then [id] else []) after.resolution := by
  obtain ⟨inner, isKinds, length⟩ := numbered.kinds
  obtain ⟨added, kinds, count⟩ := numbers.kinds
  constructor
  · refine ⟨inner ++ added, by rw [kinds, isKinds, List.cons_append], ?_⟩
    rw [List.length_append, List.length_append, length, count]
    cases introduces <;> rfl
  · intro i other found
    by_cases old : i < opened.length
    · rw [List.getElem?_append_left old] at found
      have different : other ≠ id := by
        rintro rfl
        exact fresh (List.mem_of_getElem? found)
      rw [numbers.elsewhere other different]
      exact numbered.own i other found
    · rw [List.getElem?_append_right (by omega)] at found
      cases introduces with
      | false => simp at found
      | true =>
        obtain ⟨last, rfl⟩ : i - opened.length = 0 ∧ id = other := by
          simpa [List.getElem?_singleton, eq_comm] using found
        rw [numbers.own rfl, SymbolTable.nextScope, ← SymbolTable.length_kinds, isKinds]
        simp only [List.length_cons, length, Option.some.injEq, ScopeId.mk.injEq]
        omega

theorem heed {seen : List Event} {event : Event}
    (numbered : Numbered name (visits .enter seen tree.introduces) s.resolution) (new : event ∉ seen)
    (heeded : tree.heed Registration.listener s event = .ok after) :
    Numbered name (visits .enter (seen ++ [event]) tree.introduces) after.resolution := by
  obtain ⟨phase, id⟩ := event
  obtain ⟨node, isNode, heard⟩ := bind_eq_ok_iff.mp heeded
  rw [visits_append, visits_singleton]
  cases phase with
  | enter =>
    have found : tree.node? id = some node :=
      orDangling_eq_ok_iff.mp (lift_eq_ok_iff.mp isNode)
    have numbers := Registration.enter_numbers (lift_eq_ok_iff.mp heard)
    rw [← tree.introduces_eq found] at numbers
    have fresh : id ∉ visits .enter seen tree.introduces := fun member => new (mem_visits.mp member).1
    simpa only [true_and] using numbered.enter numbers fresh
  | exit =>
    cases heard
    rw [if_neg (by simp), List.append_nil, Registration.exit]
    split <;> exact numbered

/-- What holds of the numbering after each event holds after a run. -/
theorem run {seen events : List Event}
    (numbered : Numbered name (visits .enter seen tree.introduces) s.resolution)
    (nodup : (seen ++ events).Nodup)
    (walked : events.foldlM (tree.heed Registration.listener) s = .ok after) :
    Numbered name (visits .enter (seen ++ events) tree.introduces) after.resolution := by
  induction events generalizing seen s with
  | nil =>
    cases walked
    simpa using numbered
  | cons event events ih =>
    rw [List.foldlM_cons] at walked
    obtain ⟨between, heeded, rest⟩ := bind_eq_ok_iff.mp walked
    rw [List.append_cons] at nodup ⊢
    refine ih ?_ nodup rest
    have new : event ∉ seen := fun member =>
      (List.nodup_append.mp (List.nodup_append.mp nodup).1).2.2 event member event (by simp) rfl
    exact numbered.heed new heeded

end Numbered

/-- Registration numbers the scopes in the order in which the walk enters their nodes. -/
theorem build_numbered {b : Resolution} {name : String} (formed : tree.WellFormed)
    (built : Resolution.build tree name = .ok b) : Numbered name tree.introducers b := by
  obtain ⟨after, walked, done⟩ := bind_eq_ok_iff.mp built
  cases done
  rw [Halt.onlyFault, mapError_eq_ok_iff, formed.walk_eq_foldlM] at walked
  have start : Numbered name (visits .enter [] tree.introduces) (.new tree name) := .new tree name
  have numbered := Numbered.run (s := ⟨_, [SymbolTable.root]⟩) start (formed.events_nodup .root) walked
  exact numbered

/-- Nodes that stand in one scope stand in one class, function or block. -/
theorem Resolution.Surrounds.beside {b : Resolution} {name : String} (formed : tree.WellFormed)
    (built : Resolution.build tree name = .ok b) {scope : ScopeId} {first second : NodeId}
    (reachedFirst : tree.Reachable first) (reachedSecond : tree.Reachable second)
    (left : b.Surrounds tree scope first) (right : b.Surrounds tree scope second) :
    tree.Beside first second := by
  -- A scope of its own is not the namespace, and it belongs to one node only.
  have own {outer id : NodeId} (reached : tree.Reachable id) (innermost : tree.Innermost outer id)
      (isScope : b.scopeOf outer = .ok scope) :
      ∃ i, tree.introducers[i]? = some outer ∧ scope = ⟨i + 1⟩ := by
    have listed : outer ∈ tree.introducers := formed.mem_introducers.mpr
      ⟨formed.reachable_of_encloses reached innermost.encloses, innermost.encloses.introduces⟩
    obtain ⟨i, found⟩ := List.mem_iff_getElem?.mp listed
    refine ⟨i, found, ?_⟩
    simpa [scopeOf, (build_numbered formed built).own i outer found, eq_comm] using isScope
  intro other
  rcases left with ⟨outer, innermost, isScope⟩ | ⟨free, isRoot⟩ <;>
    rcases right with ⟨outer', innermost', isScope'⟩ | ⟨free', isRoot'⟩
  · obtain ⟨i, found, here⟩ := own reachedFirst innermost isScope
    obtain ⟨j, found', here'⟩ := own reachedSecond innermost' isScope'
    obtain rfl : i = j := by simpa using here.symm.trans here'
    obtain rfl : outer = outer' := Option.some.inj (found.symm.trans found')
    constructor
    · intro around
      exact formed.innermost_unique reachedFirst innermost around ▸ innermost'
    · intro around
      exact formed.innermost_unique reachedSecond innermost' around ▸ innermost
  · obtain ⟨i, -, here⟩ := own reachedFirst innermost isScope
    simp [here, SymbolTable.root] at isRoot'
  · obtain ⟨i, -, here⟩ := own reachedSecond innermost' isScope'
    simp [here, SymbolTable.root] at isRoot
  · exact ⟨fun around => (free _ around.encloses).elim, fun around => (free' _ around.encloses).elim⟩

/-- A scope's kind is that of the node which introduces it, and names the symbol of that node. -/
def Resolution.KindMatches (r : Resolution) (id : NodeId) (node : Node) (kind : ScopeKind) : Prop :=
  match node.kind with
  | .classDeclaration => ∃ symbol, r.symbolOf id = some symbol ∧ kind = .classScope symbol
  | .functionDeclaration => ∃ symbol, r.symbolOf id = some symbol ∧ kind = .functionScope symbol
  | .block => kind = .blockScope
  | _ => False

/-- A class, a function or a block has the scope of a number as its own, and that scope stands in
the scope around the node. -/
structure Resolution.Opens (r : Resolution) (tree : SyntaxTree) (number : ScopeId) (id : NodeId) :
    Prop where
  bound : r.scopeOf id = .ok number
  scope : ∃ node scope outer, tree.node? id = some node ∧ r.table.scope number = .ok scope ∧
    r.KindMatches id node scope.kind ∧ scope.enclosing = some outer ∧ r.Surrounds tree outer id

/-- One scope stands directly in another. -/
def SymbolTable.StandsIn (table : SymbolTable) (inner outer : ScopeId) : Prop :=
  ∃ scope, table.scope inner = .ok scope ∧ scope.enclosing = some outer

/-- The scopes and bindings of a resolution mirror a tree: the namespace comes first and then the
classes, functions and blocks in the order of the walk, each with its own scope. All other reachable
nodes are bound to the scope around them, and the rest to none. -/
structure Resolution.Mirrors (r : Resolution) (tree : SyntaxTree) (name : String) : Prop where
  namespaceScope : ∃ scope, r.table.scope SymbolTable.root = .ok scope ∧
    scope.kind = .namespaceScope name ∧ scope.enclosing = none
  size : r.table.scopes.size = tree.introducers.length + 1
  once : tree.introducers.Nodup
  complete : ∀ id, id ∈ tree.introducers ↔ tree.Reachable id ∧ tree.introduces id = true
  opens : ∀ (i : Nat) (id : NodeId), tree.introducers[i]? = some id → r.Opens tree ⟨i + 1⟩ id
  plain : ∀ id, tree.Reachable id → tree.introduces id = false →
    ∃ scope, r.scopeOf id = .ok scope ∧ r.Surrounds tree scope id
  unreached : ∀ id, ¬ tree.Reachable id → r.factsOf id = .unknown
  descends : ∀ inner outer, r.table.StandsIn inner outer → outer.index < inner.index
  rooted : ∀ scope : ScopeId, scope.index < r.table.scopes.size →
    Relation.ReflTransGen r.table.StandsIn scope SymbolTable.root

namespace Resolution

variable {r : Resolution} {id : NodeId} {node : Node} {outer : ScopeId}

/-- The scope that a bound class, function or block introduces. -/
theorem Bound.kindMatches (bound : r.Bound id node outer)
    (introduces : node.kind.introducesScope = true) :
    ∃ scope, r.table.scope (r.scopeAt id) = .ok scope ∧ r.KindMatches id node scope.kind ∧
      scope.enclosing = some outer := by
  have owner {scopeKind : SymbolId → ScopeKind} {symbolKind : ScopeId → SymbolKind} {name : String}
      (bound : r.BoundOwner scopeKind symbolKind id name node.location outer) :
      ∃ scope symbol, r.table.scope (r.scopeAt id) = .ok scope ∧ r.symbolOf id = some symbol ∧
        scope.kind = scopeKind symbol ∧ scope.enclosing = some outer := by
    obtain ⟨own, symbol, facts, ⟨scope, found, kind, around⟩, -⟩ := bound
    refine ⟨scope, symbol, ?_, by simp [symbolOf, facts], kind, around⟩
    simp [SymbolTable.scope, scopeAt, facts, found]
  unfold Bound at bound
  unfold KindMatches Node.kind
  cases is : node.production with
  | classDeclaration name superclass body =>
    rw [is] at bound
    obtain ⟨scope, symbol, found, declares, kind, around⟩ := owner bound
    exact ⟨scope, found, ⟨symbol, declares, kind⟩, around⟩
  | functionDeclaration name returnType parameters body =>
    rw [is] at bound
    obtain ⟨scope, symbol, found, declares, kind, around⟩ := owner bound
    exact ⟨scope, found, ⟨symbol, declares, kind⟩, around⟩
  | block statements =>
    rw [is] at bound
    obtain ⟨own, facts, scope, found, kind, around⟩ := bound
    refine ⟨scope, ?_, kind, around⟩
    simp [SymbolTable.scope, scopeAt, facts, found]
  | _ => simp [Node.kind, is, Production.kind, NodeKind.introducesScope] at introduces

end Resolution

theorem SymbolTable.Nested.rooted {table : SymbolTable} (nested : table.Nested) {scope : ScopeId}
    (known : scope.index < table.scopes.size) :
    Relation.ReflTransGen table.StandsIn scope root := by
  obtain ⟨index⟩ := scope
  induction index using Nat.strong_induction_on with
  | _ index ih =>
    by_cases outermost : index = 0
    · rw [outermost]
      exact .refl
    · obtain ⟨scope, found⟩ := scope_exists known
      obtain ⟨outer, around, before⟩ := nested.enclosed _ scope found outermost
      have next : table.StandsIn ⟨index⟩ outer :=
        ⟨scope, orDangling_eq_ok_iff.mpr found, around⟩
      exact .head next (ih outer.index before (Nat.lt_trans before known))

/-- Registration mirrors every valid tree. -/
theorem build_mirrors_tree (valid : tree.validate = .ok ()) (name : String) :
    ∃ b, Resolution.build tree name = .ok b ∧ b.Mirrors tree name := by
  have formed := SyntaxTree.validate_eq_ok_iff.mp valid
  obtain ⟨b, built, registered⟩ := exists_registered formed name
  have numbered := build_numbered formed built
  obtain ⟨inner, kinds, length⟩ := numbered.kinds
  refine ⟨b, built, ?_, ?_, formed.introducers_nodup, fun id => formed.mem_introducers, ?_, ?_,
    registered.unreached, ?_, fun scope => registered.nested.rooted⟩
  · obtain ⟨scope, found, none⟩ := registered.nested.outermost
    refine ⟨scope, orDangling_eq_ok_iff.mpr found, ?_, none⟩
    have first : b.table.kinds[0]? = some scope.kind := by
      simp [SymbolTable.kinds, found]
    simpa [kinds, eq_comm] using first
  · rw [← SymbolTable.length_kinds, kinds, List.length_cons, length]
  · intro i id found
    obtain ⟨reached, introduces⟩ := formed.mem_introducers.mp (List.mem_of_getElem? found)
    obtain ⟨node, foundNode⟩ := formed.reachable_node reached
    obtain ⟨outer, bound, surrounds⟩ := registered.exists_surrounds formed reached foundNode
    rw [tree.introduces_eq foundNode] at introduces
    obtain ⟨scope, foundScope, kind, around⟩ := bound.kindMatches introduces
    have own : b.scopeAt id = ⟨i + 1⟩ := by
      simp [Resolution.scopeAt, numbered.own i id found]
    exact ⟨own ▸ registered.scopeOf_eq_ok formed reached,
      node, scope, outer, foundNode, own ▸ foundScope, kind, around, surrounds⟩
  · intro id reached plain
    obtain ⟨node, found⟩ := formed.reachable_node reached
    obtain ⟨outer, bound, surrounds⟩ := registered.exists_surrounds formed reached found
    rw [tree.introduces_eq found] at plain
    refine ⟨outer, ?_, surrounds⟩
    rw [Resolution.scopeOf, bound.plain plain]
  · rintro inner outer ⟨scope, found, around⟩
    exact registered.nested.enclosing_lt (orDangling_eq_ok_iff.mp found) around

/-- The unit `class A { m() { { } class B { } } }` with its inner class and blocks numbered first, and
an expression that nothing refers to. -/
def SyntaxTree.deep : SyntaxTree where
  nodes := #[
    ⟨.classDeclaration "B" none [], ⟨16, 28⟩⟩, ⟨.block [], ⟨16, 19⟩⟩, ⟨.block [⟨1⟩, ⟨0⟩], ⟨14, 30⟩⟩,
    ⟨.functionDeclaration "m" none [] ⟨2⟩, ⟨10, 30⟩⟩, ⟨.classDeclaration "A" none [⟨3⟩], ⟨0, 32⟩⟩,
    ⟨.identifier "x", .origin⟩, ⟨.compilationUnit [⟨4⟩], ⟨0, 32⟩⟩]
  root := ⟨6⟩

/-- The inner class gets the last number and stands in the body of the method. -/
theorem build_mirrors_tree_deep :
    ∃ b, Resolution.build SyntaxTree.deep "unit" = .ok b ∧ b.Mirrors SyntaxTree.deep "unit" ∧
      SyntaxTree.deep.introducers = [⟨4⟩, ⟨3⟩, ⟨2⟩, ⟨1⟩, ⟨0⟩] ∧ b.scopeOf ⟨0⟩ = .ok ⟨5⟩ ∧
      b.enclosingScopeOf ⟨0⟩ = .ok ⟨3⟩ ∧ b.factsOf ⟨5⟩ = .unknown := by
  obtain ⟨b, built, mirrors⟩ := @build_mirrors_tree SyntaxTree.deep rfl "unit"
  have facts : (Resolution.build SyntaxTree.deep "unit").map (fun b =>
      (b.scopeOf ⟨0⟩, b.enclosingScopeOf ⟨0⟩, b.factsOf ⟨5⟩)) =
      .ok (.ok ⟨5⟩, .ok ⟨3⟩, .unknown) := rfl
  rw [built] at facts
  simp only [Except.map, Except.ok.injEq, Prod.mk.injEq] at facts
  exact ⟨b, built, mirrors, rfl, facts⟩

end ScriptSemantics
