import ScriptSemantics.Proofs.Consistency

/-!
# References that a pass misses

A class reference that a pass leaves has a type or is reported, with one exception. It is marked as
checked before its scope is read. A pass that stops there because the scope is missing leaves it marked,
and later passes take it for done, also when the scope is there by then. So a reference stays silent
exactly if some pass has stopped at it.
-/
namespace ScriptSemantics

namespace Resolution

variable {tree : SyntaxTree} {mode : Mode} {base r after : Resolution} {id other : NodeId}
  {node : Node}

/-- What is found out about a node, its type, its check and its reports, stays. -/
structure Keeps (other : NodeId) (before after : Resolution) : Prop where
  type : after.typeOf other = before.typeOf other
  checked : (after.factsOf other).checked = (before.factsOf other).checked
  reports : ∀ d : Diagnostic, d.node = other → (d ∈ after.diagnostics ↔ d ∈ before.diagnostics)

theorem Keeps.refl (r : Resolution) : Keeps other r r := ⟨rfl, rfl, fun _ _ => .rfl⟩

/-- Symbols and types have no part in what is found out about a node. -/
theorem Keeps.withTable (kept : Keeps other base r) (table : SymbolTable) (types : TypeTable) :
    Keeps other base { r with table := table, types := types } :=
  ⟨kept.type, kept.checked, kept.reports⟩

theorem Keeps.onTable (kept : Keeps other base r) {change : SymbolTable → Except Fault SymbolTable}
    (changed : r.onTable change = .ok after) : Keeps other base after := by
  obtain ⟨table, -, same⟩ := bind_eq_ok_iff.mp changed
  cases same
  exact kept.withTable table r.types

/-- A write to the facts of another node, or one that leaves types and checks alone. -/
theorem Keeps.updateFacts (kept : Keeps other base r) {change : NodeFacts → NodeFacts}
    (updated : r.updateFacts id change = .ok after)
    (spares : id ≠ other ∨ ∀ facts, (change facts).type = facts.type ∧
      (change facts).checked = facts.checked) : Keeps other base after := by
  obtain ⟨known, rfl⟩ := updateFacts_eq_ok_iff.mp updated
  have facts : ((r.withFacts id change).factsOf other).type = (r.factsOf other).type ∧
      ((r.withFacts id change).factsOf other).checked = (r.factsOf other).checked := by
    rw [factsOf_withFacts known]
    split
    next same =>
      subst same
      exact (spares.resolve_left fun differs => differs rfl) _
    next => exact ⟨rfl, rfl⟩
  exact ⟨facts.1.trans kept.type, facts.2.trans kept.checked, kept.reports⟩

theorem Keeps.log (kept : Keeps other base r) (elsewhere : id ≠ other) (code : DiagnosticCode)
    (message : String) (location : Location) : Keeps other base (r.log code message id location) := by
  refine ⟨kept.type, kept.checked, fun d here => ?_⟩
  rw [← kept.reports d here, Resolution.log, Array.mem_push, or_iff_left_iff_imp]
  rintro rfl
  exact absurd here elsewhere

/-- A reading misses no scope but that of one node. -/
def Blames {α : Type} (id : NodeId) (reading : Except (Halt SemanticError) α) : Prop :=
  ∀ missing, reading = .error (.failed (.missingScopeBinding missing)) → missing = id

theorem scopeOf_blames (r : Resolution) (id : NodeId) : Blames id (r.scopeOf id) := by
  intro missing stopped
  unfold scopeOf at stopped
  split at stopped
  · cases stopped
  · cases stopped
    rfl

theorem Blames.bind {α β : Type} {reading : Except (Halt SemanticError) α}
    {next : α → Except (Halt SemanticError) β} (blames : Blames id reading)
    (found : ∀ a missing, next a ≠ .error (.failed (.missingScopeBinding missing))) :
    Blames id (reading >>= next) := by
  intro missing stopped
  cases reading with
  | ok a => exact absurd stopped (found a missing)
  | error halt =>
    cases stopped
    exact blames missing rfl

theorem scope_blames {α : Type} (r : Resolution) (id : NodeId)
    {read : ScopeId → Scope → Except (Halt SemanticError) α}
    (found : ∀ scope s missing, read scope s ≠ .error (.failed (.missingScopeBinding missing))) :
    Blames id (do
      let scope ← r.scopeOf id
      let s ← r.table.scope scope
      read scope s) := by
  refine (scopeOf_blames r id).bind fun scope missing stopped => ?_
  cases present : r.table.scope scope with
  | error fault => simp [present] at stopped
  | ok s =>
    simp only [present, lift_ok, ok_bind] at stopped
    exact found scope s missing stopped

theorem enclosingScopeOf_blames (r : Resolution) (id : NodeId) :
    Blames id (r.enclosingScopeOf id) :=
  scope_blames r id fun scope s missing stopped => by split at stopped <;> cases stopped

theorem functionSymbol_blames (r : Resolution) (id : NodeId) : Blames id (r.functionSymbol id) :=
  scope_blames r id fun scope s missing stopped => by split at stopped <;> cases stopped

theorem classSymbol_blames (r : Resolution) (id : NodeId) : Blames id (r.classSymbol id) :=
  scope_blames r id fun scope s missing stopped => by split at stopped <;> cases stopped

end Resolution

/-- A step leaves what is found out about a node alone, and if it stops, not for the scope of the
node. -/
abbrev Step.Spares (step : Step) (other : NodeId) (base : Resolution) : Prop :=
  ScriptSemantics.Leaves (Resolution.Keeps other base)
    (fun interruption : Interruption => Resolution.Keeps other base interruption.state ∧
      interruption.cause ≠ .missingScopeBinding other) step

namespace Resolution

variable {tree : SyntaxTree} {mode : Mode} {base r after : Resolution} {id other : NodeId}
  {node : Node}

theorem Keeps.interrupting {α : Type} {reading : Except (Halt SemanticError) α} {next : α → Step}
    (kept : Keeps other base r) (elsewhere : id ≠ other) (blames : Blames id reading)
    (rest : ∀ a, reading = .ok a → (next a).Spares other base) :
    Step.Spares (r.interrupting reading >>= next) other base := by
  match reading with
  | .ok a => exact rest a rfl
  | .error (.failed cause) =>
    refine ⟨kept, ?_⟩
    rintro rfl
    exact elsewhere (blames other rfl).symm
  | .error (.fault _) => trivial

theorem Keeps.marked (kept : Keeps other base r) (elsewhere : id ≠ other) {first : Bool}
    {marked : Resolution} (checked : r.checkOnce id = .ok (first, marked)) :
    Keeps other base marked := by
  obtain ⟨known, -, rfl⟩ := checkOnce_eq_ok_iff.mp checked
  exact kept.updateFacts (updateFacts_eq_ok known _) (.inl elsewhere)

theorem Keeps.checkOnce (kept : Keeps other base r) (elsewhere : id ≠ other)
    {next : Bool × Resolution → Step}
    (again : ∀ marked, Keeps other base marked → (next (false, marked)).Spares other base)
    (first : ∀ marked, Keeps other base marked → (next (true, marked)).Spares other base) :
    Step.Spares (liftM (r.checkOnce id) >>= next) other base := by
  refine .bind_lift fun ⟨isFirst, marked⟩ checked => ?_
  have kept := kept.marked elsewhere checked
  cases isFirst with
  | false => exact again marked kept
  | true => exact first marked kept

section Elsewhere

variable (kept : Keeps other base r)
include kept

theorem typeDeclarators_spares (elsewhere : id ≠ other) {type : NodeId} {declarators : List NodeId} :
    Step.Spares (r.typeDeclarators mode tree id type declarators) other base := by
  refine kept.interrupting elsewhere (scopeOf_blames r id) fun scope _ => .bind_lift fun types _ => ?_
  split
  · exact kept
  · refine .foldlM kept fun t kept declarator _ => .bind_lift fun node _ => ?_
    split
    · split
      · exact .lift fun _ changed => kept.onTable changed
      · exact kept
    · exact ⟨kept, nofun⟩

theorem declareVariableAt_spares (elsewhere : id ≠ other) {name : String} {location : Location} :
    Step.Spares (r.declareVariableAt mode id name location) other base := by
  unfold declareVariableAt
  split
  · exact kept
  refine kept.interrupting elsewhere (scopeOf_blames r id) fun scope _ => .bind_lift fun declares _ => ?_
  split
  · exact kept
  refine kept.checkOnce elsewhere (fun _ kept => kept) fun marked kept => ?_
  refine .bind_lift fun found _ => ?_
  split
  · exact kept.log elsewhere _ _ _
  · refine .bind_lift fun ⟨symbol, table⟩ _ => .lift fun noted noting => ?_
    exact (kept.withTable table marked.types).updateFacts noting (.inl elsewhere)

theorem completeParameter_spares (elsewhere : id ≠ other) {type declarator : NodeId} :
    Step.Spares (r.completeParameter id type declarator) other base := by
  unfold completeParameter
  split
  · exact kept
  · refine kept.interrupting elsewhere (functionSymbol_blames r id) fun function _ => ?_
    refine .bind_lift fun typed changed => .lift fun completed changedAgain => ?_
    exact (kept.onTable changed).onTable changedAgain

theorem checkSignature_spares (elsewhere : id ≠ other) {name : String} {location : Location}
    {function : SymbolId} {enclosing : ScopeId} :
    Step.Spares (r.checkSignature id name location function enclosing) other base := by
  refine .bind_lift fun parameters _ => ?_
  split
  · exact kept
  · refine .bind_lift fun found _ => ?_
    split
    · exact .bind_lift fun text _ => kept.log elsewhere _ _ _
    · exact kept

theorem completeFunction_spares (elsewhere : id ≠ other) {name : String} {location : Location}
    {returnType : Option NodeId} :
    Step.Spares (r.completeFunction id name location returnType) other base := by
  have compared (function : SymbolId) (marked : Resolution) (kept : Keeps other base marked) :
      Step.Spares (do
        let enclosing ← marked.interrupting (marked.enclosingScopeOf id)
        marked.checkSignature id name location function enclosing) other base :=
    kept.interrupting elsewhere (enclosingScopeOf_blames _ id) fun enclosing _ =>
      checkSignature_spares kept elsewhere
  refine kept.interrupting elsewhere (functionSymbol_blames r id) fun function _ => ?_
  cases returnType with
  | none => exact kept.checkOnce elsewhere (fun _ kept => kept) (compared function)
  | some node =>
    refine .bind_lift fun returning changed => ?_
    exact (kept.onTable changed).checkOnce elsewhere (fun _ kept => kept) (compared function)

theorem completeClass_spares (elsewhere : id ≠ other) {name : String} {location : Location}
    {superclass : Option NodeId} :
    Step.Spares (r.completeClass id name location superclass) other base := by
  unfold completeClass
  split
  · refine kept.checkOnce elsewhere (fun _ kept => kept) fun marked kept => ?_
    refine kept.interrupting elsewhere (classSymbol_blames _ id) fun ⟨symbol, scope⟩ _ => ?_
    dsimp only
    split
    · exact kept.log elsewhere _ _ _
    · exact .lift fun _ changed => kept.onTable changed
  · exact kept

theorem inheritType_spares (elsewhere : id ≠ other) {child : NodeId} :
    Step.Spares (r.inheritType id child) other base := by
  unfold inheritType
  split
  · exact .lift fun _ updated => kept.updateFacts updated (.inl elsewhere)
  · exact kept

theorem resolveFunctionType_spares (elsewhere : id ≠ other) {parameters : List NodeId}
    {returnType : NodeId} : Step.Spares (r.resolveFunctionType id parameters returnType) other base := by
  unfold resolveFunctionType
  split
  · exact kept
  · split
    · exact .lift fun _ updated => (kept.withTable r.table _).updateFacts updated (.inl elsewhere)
    · exact kept

theorem resolveClassReference_spares (elsewhere : id ≠ other) {name : String} {location : Location} :
    Step.Spares (r.resolveClassReference id name location) other base := by
  have marks {first : Bool} {marked : Resolution}
      (checked : r.checkOnce id = .ok (first, marked)) := kept.marked elsewhere checked
  refine resolveClassReference_leaves (fun _ => kept) (fun _ _ checked => marks checked) ?_ ?_ ?_
  · rintro marked - checked
    refine ⟨marks checked, fun same => elsewhere ?_⟩
    cases same
    rfl
  · exact fun _ _ _ _ checked updated => (marks checked).updateFacts updated (.inl elsewhere)
  · exact fun _ _ _ checked => (marks checked).log elsewhere _ _ _

theorem typing_spares (elsewhere : id ≠ other) (phase : Phase) (node : Node) :
    Step.Spares (typing mode tree phase id node r) other base := by
  cases phase with
  | enter =>
    simp only [typing, enterNode]
    split
    · exact declareVariableAt_spares kept elsewhere
    · exact kept
  | exit =>
    simp only [typing, exitNode]
    split
    · exact .lift fun _ updated => kept.updateFacts updated (.inl elsewhere)
    · exact .lift fun _ updated => kept.updateFacts updated (.inl elsewhere)
    · exact inheritType_spares kept elsewhere
    · exact inheritType_spares kept elsewhere
    · exact resolveFunctionType_spares kept elsewhere
    · exact resolveClassReference_spares kept elsewhere
    · exact typeDeclarators_spares kept elsewhere
    · exact completeParameter_spares kept elsewhere
    · exact completeFunction_spares kept elsewhere
    · exact completeClass_spares kept elsewhere
    all_goals exact kept

end Elsewhere

/-- A class reference is accounted for: it has a type or is reported as unknown. -/
def Settled (r : Resolution) (id : NodeId) : Prop :=
  (r.typeOf id).isSome = true ∨ ∃ d ∈ r.diagnostics, d.node = id ∧ d.code = .unknownType

/-- A class reference is settled exactly if it has been checked, unless some pass missed it. -/
structure Accounts (r : Resolution) (id : NodeId) (missed : Prop) : Prop where
  checked : missed → (r.factsOf id).checked = true
  settled : r.Settled id ↔ (r.factsOf id).checked = true ∧ ¬ missed

variable {missed : Prop}

theorem Accounts.new (tree : SyntaxTree) (name : String) (id : NodeId) :
    (Resolution.new tree name).Accounts id False := by
  have unknown : (Resolution.new tree name).factsOf id = .unknown := by
    simp only [factsOf, Resolution.new, Array.getElem?_replicate]
    split <;> rfl
  have silent : ¬ (Resolution.new tree name).Settled id := by
    rw [Settled, typeOf, unknown]
    simp [NodeFacts.unknown, Resolution.new]
  exact ⟨False.elim, by simp [silent, unknown, NodeFacts.unknown]⟩

theorem Accounts.kept (accounts : r.Accounts id missed) (kept : Keeps id r after) :
    after.Accounts id missed := by
  have settled : after.Settled id ↔ r.Settled id := by
    unfold Settled
    rw [kept.type]
    refine or_congr_right ⟨?_, ?_⟩
    · exact fun ⟨d, member, here, code⟩ => ⟨d, (kept.reports d here).mp member, here, code⟩
    · exact fun ⟨d, member, here, code⟩ => ⟨d, (kept.reports d here).mpr member, here, code⟩
  refine ⟨fun isMissed => kept.checked.trans (accounts.checked isMissed), ?_⟩
  rw [settled, kept.checked]
  exact accounts.settled

theorem Accounts.of_settled (notMissed : ¬ missed) (checked : (r.factsOf id).checked = true)
    (settled : r.Settled id) : r.Accounts id missed :=
  ⟨fun _ => checked, by simp [settled, checked, notMissed]⟩

/-- A step keeps the accounts of a reference. If it stops because it misses the scope of the reference,
it leaves the reference as missed. -/
abbrev Accounting (id : NodeId) (missed : Prop) (step : Step) : Prop :=
  ScriptSemantics.Leaves (fun r : Resolution => r.Accounts id missed)
    (fun interruption : Interruption =>
      interruption.state.Accounts id (missed ∨ interruption.cause = .missingScopeBinding id)) step

/-- A check marks the reference. It neither gives it a type nor reports it. -/
theorem marked_of_checkOnce {first : Bool} {marked : Resolution}
    (checked : r.checkOnce id = .ok (first, marked)) :
    (r.factsOf id).checked = !first ∧ (marked.factsOf id).checked = true ∧
      (marked.Settled id ↔ r.Settled id) := by
  obtain ⟨known, rfl, rfl⟩ := checkOnce_eq_ok_iff.mp checked
  have facts := factsOf_withFacts known (fun facts => { facts with checked := true }) id
  rw [if_pos rfl] at facts
  have type : (r.withFacts id fun facts => { facts with checked := true }).typeOf id =
      r.typeOf id := by rw [typeOf, facts, typeOf]
  exact ⟨by simp, by rw [facts], by rw [Settled, type, Settled]; rfl⟩

/-- A node that gets a type is settled, and checked if it was. -/
theorem settled_of_setType {type : Ty} (updated : r.setType id type = .ok after) :
    after.Settled id ∧ (after.factsOf id).checked = (r.factsOf id).checked := by
  obtain ⟨known, rfl⟩ := updateFacts_eq_ok_iff.mp updated
  have facts := factsOf_withFacts known (fun facts => { facts with type := some type }) id
  rw [if_pos rfl] at facts
  exact ⟨.inl (by rw [typeOf, facts]; rfl), by rw [facts]⟩

/-- Leaving the reference settles it or misses it, and leaves it checked. -/
theorem Accounts.resolveClassReference (accounts : r.Accounts id missed) (name : String)
    (location : Location) : ScriptSemantics.Leaves
      (fun after => after.Accounts id missed ∧ (after.factsOf id).checked = true)
      (fun interruption : Interruption => interruption.state.Accounts id
        (missed ∨ interruption.cause = .missingScopeBinding id))
      (r.resolveClassReference id name location) := by
  have fresh {marked : Resolution} (checked : r.checkOnce id = .ok (true, marked)) :
      ¬ missed ∧ ¬ r.Settled id := by
    obtain ⟨unchecked, -⟩ := marked_of_checkOnce checked
    exact ⟨fun isMissed => by simp [accounts.checked isMissed] at unchecked,
      fun settled => by simp [(accounts.settled.mp settled).1] at unchecked⟩
  refine resolveClassReference_leaves
    (fun typed => ⟨accounts, (accounts.settled.mp (.inl typed)).1⟩) ?_ ?_ ?_ ?_
  · intro marked _ checked
    obtain ⟨before, isMarked, settled⟩ := marked_of_checkOnce checked
    refine ⟨⟨fun _ => isMarked, ?_⟩, isMarked⟩
    rw [settled, accounts.settled, before, isMarked]
    rfl
  · intro marked _ checked
    obtain ⟨-, isMarked, settled⟩ := marked_of_checkOnce checked
    refine ⟨fun _ => isMarked, ?_⟩
    simp [settled, (fresh checked).2]
  · intro marked own after _ checked updated
    obtain ⟨-, isMarked, -⟩ := marked_of_checkOnce checked
    obtain ⟨settled, same⟩ := settled_of_setType updated
    have isChecked := same.trans isMarked
    exact ⟨.of_settled (fresh checked).1 isChecked settled, isChecked⟩
  · intro marked message _ checked
    obtain ⟨-, isMarked, -⟩ := marked_of_checkOnce checked
    exact ⟨.of_settled (fresh checked).1 isMarked (.inr ⟨_, Array.mem_push_self, rfl, rfl⟩), isMarked⟩

section Registering

variable {s left : Registration}

theorem Keeps.openScope (kept : Keeps other base r) {scope : ScopeId}
    (opened : s.openScope r id scope = .ok left) : Keeps other base left.resolution := by
  obtain ⟨bound, updated, same⟩ := bind_eq_ok_iff.mp opened
  cases same
  exact kept.updateFacts updated (.inr fun _ => ⟨rfl, rfl⟩)

theorem Keeps.enter (kept : Keeps other base s.resolution) (entered : s.enter id node = .ok left) :
    Keeps other base left.resolution := by
  unfold Registration.enter at entered
  split at entered
  · obtain ⟨⟨⟨symbol, scope⟩, table⟩, -, declared⟩ := bind_eq_ok_iff.mp entered
    obtain ⟨noted, updated, opened⟩ := bind_eq_ok_iff.mp declared
    exact ((kept.withTable table _).updateFacts updated (.inr fun _ => ⟨rfl, rfl⟩)).openScope opened
  · obtain ⟨⟨⟨symbol, scope⟩, table⟩, -, declared⟩ := bind_eq_ok_iff.mp entered
    obtain ⟨noted, updated, opened⟩ := bind_eq_ok_iff.mp declared
    exact ((kept.withTable table _).updateFacts updated (.inr fun _ => ⟨rfl, rfl⟩)).openScope opened
  · obtain ⟨⟨scope, table⟩, -, opened⟩ := bind_eq_ok_iff.mp entered
    exact (kept.withTable table _).openScope opened
  · obtain ⟨bound, updated, same⟩ := bind_eq_ok_iff.mp entered
    cases same
    exact kept.updateFacts updated (.inr fun _ => ⟨rfl, rfl⟩)

theorem Keeps.registerFrom {top : NodeId} (registered : r.registerFrom tree top = .ok after) :
    Keeps other r after := by
  obtain ⟨s, walked, same⟩ := bind_eq_ok_iff.mp registered
  cases same
  have kept : Leaves (fun s : Registration => Keeps other r s.resolution) (fun _ => True)
      (tree.walkFrom Registration.listener top ⟨r, [SymbolTable.root]⟩) := by
    refine .walkFrom (.refl r) fun phase id node s _ kept => ?_
    cases phase with
    | enter => exact .lift fun _ => kept.enter
    | exit =>
      change Keeps other r (s.exit node).resolution
      unfold Registration.exit
      split <;> exact kept
  rw [mapError_eq_ok_iff.mp walked] at kept
  exact kept

end Registering

/-- A pass stops because it misses the scope of a node. -/
def StopsAt (r : Resolution) (tree : SyntaxTree) (id : NodeId) : Pass → Prop
  | .register _ => False
  | .resolve mode top => ∃ state,
    r.resolveFrom tree mode top = .error (.failed ⟨.missingScopeBinding id, state⟩)

/-- One of several passes stops because it misses the scope of a node. -/
def Misses (r : Resolution) (tree : SyntaxTree) (id : NodeId) (passes : List Pass) : Prop :=
  ∃ before pass rest left, passes = before ++ pass :: rest ∧ r.passes? tree before = some left ∧
    left.StopsAt tree id pass

theorem not_misses_nil : ¬ r.Misses tree id [] := by
  rintro ⟨before, pass, rest, left, split, -⟩
  simp at split

theorem misses_cons {pass : Pass} {passes : List Pass} : r.Misses tree id (pass :: passes) ↔
    r.StopsAt tree id pass ∨ ∃ left, r.pass? tree pass = some left ∧ left.Misses tree id passes := by
  constructor
  · rintro ⟨before, stopped, rest, left, split, ran, stops⟩
    cases before with
    | nil =>
      cases split
      cases ran
      exact .inl stops
    | cons first before =>
      cases split
      rw [passes?, List.foldlM_cons] at ran
      obtain ⟨between, here, there⟩ := Option.bind_eq_some_iff.mp ran
      exact .inr ⟨between, here, before, stopped, rest, left, rfl, there, stops⟩
  · rintro (stops | ⟨between, here, before, stopped, rest, left, rfl, there, stops⟩)
    · exact ⟨[], pass, passes, r, rfl, rfl, stops⟩
    · refine ⟨pass :: before, stopped, rest, left, rfl, ?_, stops⟩
      rw [passes?, List.foldlM_cons, here]
      exact there

section Passes

variable (found : tree.node? id = some node) (kind : node.kind = .classReference)
include found kind

/-- What a pass does at a node keeps the accounts of a reference. It leaves the reference checked if it
was, or if it has just come to it. -/
theorem Accounts.typing (accounts : r.Accounts id missed) {phase : Phase} {other : NodeId}
    {below : Node} (foundOther : tree.node? other = some below) :
    ScriptSemantics.Leaves
      (fun after => after.Accounts id missed ∧
        ((r.factsOf id).checked = true ∨ phase = .exit ∧ other = id →
          (after.factsOf id).checked = true))
      (fun interruption : Interruption => interruption.state.Accounts id
        (missed ∨ interruption.cause = .missingScopeBinding id))
      (typing mode tree phase other below r) := by
  by_cases here : other = id
  · subst here
    obtain rfl : node = below := Option.some.inj (found.symm.trans foundOther)
    obtain ⟨production, location⟩ := node
    cases production <;> cases kind
    cases phase with
    | enter => exact ⟨accounts, fun checked => by simpa using checked⟩
    | exit =>
      exact (accounts.resolveClassReference _ _).imp
        (fun _ ⟨accounts, checked⟩ => ⟨accounts, fun _ => checked⟩) fun _ accounts => accounts
  · have spares : Step.Spares (Resolution.typing mode tree phase other below r) id r :=
      typing_spares (.refl r) here phase below
    refine spares.imp (fun after kept => ⟨accounts.kept kept, fun checked => ?_⟩)
      fun interruption ⟨kept, cause⟩ => ?_
    · exact kept.checked.trans (checked.resolve_right fun at_id => here at_id.2)
    · rw [or_iff_left cause]
      exact accounts.kept kept

theorem Accounts.resolveFrom (accounts : r.Accounts id missed) (top : NodeId) :
    Accounting id missed (r.resolveFrom tree mode top) :=
  .walkFrom accounts fun _ _ _ _ foundOther accounts =>
    (accounts.typing found kind foundOther).imp (fun _ => And.left) fun _ kept => kept

/-- A reference is missed once a pass has stopped at it. -/
theorem Accounts.pass? (accounts : r.Accounts id missed) {pass : Pass}
    (left : r.pass? tree pass = some after) :
    after.Accounts id (missed ∨ r.StopsAt tree id pass) := by
  cases pass with
  | register top =>
    rw [StopsAt, or_false]
    exact accounts.kept (.registerFrom (toOption_eq_some_iff.mp left))
  | resolve mode top =>
    have kept : Accounting id missed (r.resolveFrom tree mode top) :=
      accounts.resolveFrom found kind top
    change (r.resolveFrom tree mode top).left? = some after at left
    match outcome : r.resolveFrom tree mode top with
    | .ok result =>
      rw [outcome] at left kept
      cases left
      simp only [StopsAt, outcome, reduceCtorEq, exists_false, or_false]
      exact kept
    | .error (.failed ⟨cause, state⟩) =>
      have stops : r.StopsAt tree id (.resolve mode top) ↔ cause = .missingScopeBinding id := by
        simp [StopsAt, outcome]
      rw [outcome] at left kept
      cases left
      rw [stops]
      exact kept
    | .error (.fault fault) =>
      rw [outcome] at left
      cases left

theorem Accounts.passes? {passes : List Pass} (accounts : r.Accounts id missed)
    (left : r.passes? tree passes = some after) :
    after.Accounts id (missed ∨ r.Misses tree id passes) := by
  induction passes generalizing r missed with
  | nil =>
    cases left
    simpa [not_misses_nil] using accounts
  | cons pass passes ih =>
    rw [Resolution.passes?, List.foldlM_cons] at left
    obtain ⟨between, here, there⟩ := Option.bind_eq_some_iff.mp left
    simpa [misses_cons, here, or_assoc] using ih (accounts.pass? found kind here) there

/-- A pass that comes to a reference and ends well leaves it checked. -/
theorem Accounts.checked_of_walked (accounts : r.Accounts id missed) {top : NodeId}
    (walked : tree.Within top id) (resolved : r.resolveFrom tree mode top = .ok after) :
    (after.factsOf id).checked = true := by
  have kept : ScriptSemantics.Leaves
      (fun after => after.Accounts id missed ∧ (after.factsOf id).checked = true) (fun _ => True)
      (r.resolveFrom tree mode top) := by
    refine .walkFrom_past (fun t => t.Accounts id missed) walked accounts
      (fun phase other below t foundOther accounts => ?_) (fun below t foundHere accounts => ?_)
      (fun phase other below t foundOther kept => ?_)
    · exact (accounts.typing found kind foundOther).imp (fun _ => And.left) fun _ _ => trivial
    · exact (accounts.typing found kind foundHere).imp
        (fun _ left => ⟨left.1, left.2 (.inr ⟨rfl, rfl⟩)⟩) fun _ _ => trivial
    · exact (kept.1.typing found kind foundOther).imp
        (fun _ left => ⟨left.1, left.2 (.inl kept.2)⟩) fun _ _ => trivial
  rw [resolved] at kept
  exact kept.2

end Passes

end Resolution

/-- Whatever passes were run before on a new or a built resolution, and from whatever nodes: a pass
that ends well leaves a class reference that it comes to typed or reported exactly if none of the
earlier ones stopped because the reference had no scope. -/
theorem resolveFrom_settled_iff {tree : SyntaxTree} {name : String} {start r after : Resolution}
    {passes : List Pass} {mode : Mode} {top id : NodeId} {node : Node}
    (begun : start = .new tree name ∨ Resolution.build tree name = .ok start)
    (left : start.passes? tree passes = some r)
    (resolved : r.resolveFrom tree mode top = .ok after)
    (found : tree.node? id = some node) (kind : node.kind = .classReference)
    (walked : tree.Within top id) : after.Settled id ↔ ¬ start.Misses tree id passes := by
  have accounts : start.Accounts id False := by
    have fresh := Resolution.Accounts.new tree name id
    rcases begun with rfl | built
    · exact fresh
    · exact fresh.kept (.registerFrom built)
  have accounts : r.Accounts id (False ∨ start.Misses tree id passes) :=
    accounts.passes? found kind left
  have checked := accounts.checked_of_walked found kind walked resolved
  have resolves : Resolution.Accounting id (False ∨ start.Misses tree id passes)
      (r.resolveFrom tree mode top) := accounts.resolveFrom found kind top
  rw [resolved] at resolves
  have settled := Resolution.Accounts.settled resolves
  rw [settled, false_or, and_iff_right checked]

/-- A class and a variable of it, `class A { } A x;`. -/
def SyntaxTree.declaredLater : SyntaxTree where
  nodes := #[⟨.compilationUnit [⟨1⟩, ⟨6⟩], ⟨0, 16⟩⟩, ⟨.classDeclaration "A" none [], ⟨0, 11⟩⟩,
    ⟨.classReference "A", ⟨12, 13⟩⟩, ⟨.typeNode ⟨2⟩, ⟨12, 13⟩⟩,
    ⟨.variableDeclaratorId "x", ⟨14, 15⟩⟩, ⟨.variableDeclarator ⟨4⟩ none, ⟨14, 15⟩⟩,
    ⟨.variableDeclarators ⟨3⟩ [⟨5⟩], ⟨12, 16⟩⟩]
  root := ⟨0⟩

/-- A pass before the registration stops at the reference to `A`. After the registration the class is
found in the scope of the reference and the pass ends well, yet the reference has no type and is not
reported. -/
theorem resolveFrom_settled_iff_declaredLater :
    ∃ r after, (Resolution.new .declaredLater "global").passes? .declaredLater
        [.resolve .withLocals ⟨0⟩, .register ⟨0⟩] = some r ∧
      r.resolveFrom .declaredLater .withLocals ⟨0⟩ = .ok after ∧
      (after.factsOf ⟨2⟩).scope = some ⟨0⟩ ∧
      after.table.lookupClass ⟨0⟩ "A" = .ok (some ⟨0⟩) ∧ ¬ after.Settled ⟨2⟩ := by
  obtain ⟨r, left⟩ : ∃ r, (Resolution.new .declaredLater "global").passes? .declaredLater
      [.resolve .withLocals ⟨0⟩, .register ⟨0⟩] = some r := Option.isSome_iff_exists.mp rfl
  have outcome : ((Resolution.new .declaredLater "global").passes? .declaredLater
      [.resolve .withLocals ⟨0⟩, .register ⟨0⟩]).bind (fun r =>
        (r.resolveFrom .declaredLater .withLocals ⟨0⟩).toOption.map fun after =>
          ((after.factsOf ⟨2⟩).scope, after.table.lookupClass ⟨0⟩ "A")) =
      some (some ⟨0⟩, .ok (some ⟨0⟩)) := rfl
  rw [left, Option.bind_some, Option.map_eq_some_iff] at outcome
  obtain ⟨after, resolved, facts⟩ := outcome
  rw [toOption_eq_some_iff] at resolved
  have walked : SyntaxTree.declaredLater.Within ⟨0⟩ ⟨2⟩ := by
    have statement : SyntaxTree.declaredLater.HasChild ⟨0⟩ ⟨6⟩ := ⟨_, rfl, by decide⟩
    have type : SyntaxTree.declaredLater.HasChild ⟨6⟩ ⟨3⟩ := ⟨_, rfl, by decide⟩
    have reference : SyntaxTree.declaredLater.HasChild ⟨3⟩ ⟨2⟩ := ⟨_, rfl, by decide⟩
    exact statement.within.trans (type.within.trans reference.within)
  have missed : (Resolution.new .declaredLater "global").Misses .declaredLater ⟨2⟩
      [.resolve .withLocals ⟨0⟩, .register ⟨0⟩] :=
    ⟨[], _, _, _, rfl, rfl, _, rfl⟩
  refine ⟨r, after, left, resolved, congrArg Prod.fst facts, congrArg Prod.snd facts, ?_⟩
  exact fun settled =>
    (resolveFrom_settled_iff (.inl rfl) left resolved rfl rfl walked).mp settled missed

end ScriptSemantics
