import ScriptSemantics.Proofs.Growth
import ScriptSemantics.Proofs.Interruptions
import ScriptSemantics.Proofs.Repetition

/-!
# Resolving only adds

Runs of the resolving pass may start at any reachable node and come in any order and either mode. None
of them takes back what an earlier one found out. This holds of a run that fails as well: the one that
there can be comes to a parameter that has no function, and leaves behind what it had done by then.
-/
namespace ScriptSemantics

/-- A symbol names what it named, and what was found out about it stays. A function gets further
parameters after those that it has. -/
inductive SymbolKind.Grows : SymbolKind → SymbolKind → Prop
  | var {type later : Option Ty} : Stays type later → Grows (.var type) (.var later)
  | function {scope : ScopeId} {type later : Option Ty} {parameters more : List SymbolId} :
      Stays type later → parameters <+: more →
      Grows (.function scope type parameters) (.function scope later more)
  | classType {scope : ScopeId} {superclass later : Option ScopeId} : Stays superclass later →
      Grows (.classType scope superclass) (.classType scope later)

/-- A later resolution has all that an earlier one has. Diagnostics come after those logged before,
what is known of a node, a symbol or a function type stays, and each scope lists the symbols that it
listed, in the same order, among others. -/
structure Resolution.OnlyAdds (r later : Resolution) : Prop where
  diagnostics : r.diagnostics.toList <+: later.diagnostics.toList
  types : later.types.Extends r.types
  scope : ∀ id, (later.factsOf id).scope = (r.factsOf id).scope
  typeOf : ∀ id, Stays (r.typeOf id) (later.typeOf id)
  symbolOf : ∀ id, Stays (r.symbolOf id) (later.symbolOf id)
  frames : later.table.SameFrames r.table
  listing : ∀ scope, (r.table.listing scope).Sublist (later.table.listing scope)
  symbols : ∀ (i : Nat) (symbol : Symbol), r.table.symbols[i]? = some symbol →
    ∃ kind, later.table.symbols[i]? = some { symbol with kind := kind } ∧ symbol.kind.Grows kind

theorem SymbolKind.Grows.ownScope {kind later : SymbolKind} (grows : kind.Grows later) :
    later.ownScope = kind.ownScope := by
  cases grows <;> rfl

theorem SymbolKind.Grows.isClass {kind later : SymbolKind} (grows : kind.Grows later) :
    later.isClass = kind.isClass := by
  cases grows <;> rfl

namespace View

variable {tree : SyntaxTree} {b r later : Resolution} {mode : Mode} {v w : View}

namespace Grows

variable (grows : Grows v w)
include grows

theorem idOf_eq {id : NodeId} (member : id ∈ v.declared) : w.idOf b id = v.idOf b id := by
  obtain ⟨added, declared⟩ := grows.declared
  rw [idOf, idOf, ← declared, List.idxOf_append_of_mem member]

theorem completed (grounded : v.Grounded tree b) (symbol : Symbol) :
    (v.completed b symbol).kind.Grows (w.completed b symbol).kind := by
  have parameters : (v.parameters symbol.id).map (v.idOf b) <+:
      (w.parameters symbol.id).map (w.idOf b) := by
    have same : (v.parameters symbol.id).map (v.idOf b) =
        (v.parameters symbol.id).map (w.idOf b) :=
      List.map_congr_left fun id member =>
        (grows.idOf_eq (grounded.parameters _ id member)).symm
    rw [same]
    exact (grows.parameters symbol.id).map _
  simp only [View.completed]
  cases symbol.kind with
  | var type => exact .var (.refl _)
  | function own type listed => exact .function (grows.returnType _) parameters
  | classType own superclass => exact .classType (grows.superclass _)

variable (trails : v.Trails tree b r) (trails' : w.Trails tree b later)
include trails trails'

theorem symbols {i : Nat} {symbol : Symbol} (found : r.table.symbols[i]? = some symbol) :
    ∃ kind, later.table.symbols[i]? = some { symbol with kind := kind } ∧ symbol.kind.Grows kind := by
  rcases trails.rep.symbol_cases trails.grounded.nodup found with
    ⟨old, foundOld, rfl⟩ | ⟨id, member, rfl, rfl⟩
  · exact ⟨_, @Represents.old_symbol tree b later w trails'.rep ⟨i⟩ old foundOld,
      grows.completed trails.grounded old⟩
  · have known := trails'.rep.variable_symbol (grows.declared.subset member)
    rw [grows.idOf_eq member] at known
    exact ⟨_, known, .var (grows.variableType id)⟩

omit grows in
theorem frames : later.table.SameFrames r.table := fun i =>
  (trails'.rep.frames i).trans (trails.rep.frames.symm i)

/-- Without the symbols that are new a scope lists its symbols as it did. -/
theorem listing (prepared : Prepared tree b) (scope : ScopeId) :
    (r.table.listing scope).Sublist (later.table.listing scope) := by
  have completes : later.table.Completes r.table := {
    frames := frames trails trails'
    kept := fun i symbol found => by
      obtain ⟨kind, kept, grown⟩ := grows.symbols trails trails' found
      exact ⟨kind, kept, grown.ownScope, grown.isClass⟩
    added := fun i symbol found new => by
      have size := trails.rep.symbols_size
      exact trails'.rep.completes.added i symbol found (by omega) }
  by_cases known : scope.index < r.table.scopes.size
  · rw [← completes.listing_filter trails'.rep.ordered trails.rep.ordered
      (trails.rep.distinct prepared trails.grounded) known]
    exact List.filter_sublist
  · simp [SymbolTable.listing, Array.getElem?_eq_none (Nat.le_of_not_lt known)]

omit trails in
/-- A declared variable is the symbol of its declarator id, which registration gave none. -/
theorem symbolOf (prepared : Prepared tree b) (id : NodeId) :
    Stays (v.symbolOf b id) (w.symbolOf b id) := by
  unfold View.symbolOf
  by_cases member : id ∈ v.declared
  · simp only [member, grows.declared.subset member, if_true, grows.idOf_eq member]
    exact .refl _
  · rw [if_neg member]
    split
    next new =>
      obtain ⟨node, name, found, is⟩ := trails'.grounded.named id new
      have plain : node.kind.introducesScope = false := by
        simp [Node.kind, is, Production.kind, NodeKind.introducesScope]
      rw [prepared.registered.symbolOf_plain prepared.formed (trails'.grounded.reached id new) found
        plain]
      exact .of_none _
    next => exact .refl _

/-- A view that grows is represented by a resolution that only adds. -/
theorem onlyAdds (prepared : Prepared tree b) : r.OnlyAdds later := by
  have facts (id : NodeId) : r.factsOf id = .unknown ∧ later.factsOf id = .unknown ∨
      r.factsOf id = ⟨(b.factsOf id).scope, v.symbolOf b id, v.typeOf id, v.checked id⟩ ∧
        later.factsOf id =
          ⟨(b.factsOf id).scope, w.symbolOf b id, w.typeOf id, w.checked id⟩ := by
    by_cases inside : id.index < tree.size
    · exact .inr ⟨trails.rep.facts id inside, trails'.rep.facts id inside⟩
    · have outside := Nat.le_of_not_lt inside
      have unknown : r.facts[id.index]? = none ∧ later.facts[id.index]? = none :=
        ⟨Array.getElem?_eq_none (trails.rep.size ▸ outside),
          Array.getElem?_eq_none (trails'.rep.size ▸ outside)⟩
      exact .inl (by simp [Resolution.factsOf, unknown])
  refine ⟨?_, ?_, fun id => ?_, fun id => ?_, fun id => ?_, frames trails trails',
    grows.listing trails trails' prepared, fun i symbol => grows.symbols trails trails'⟩
  · rw [trails.rep.diagnostics, trails'.rep.diagnostics]
    exact grows.diagnostics
  · rw [trails.rep.types, trails'.rep.types]
    exact grows.types
  · rcases facts id with ⟨before, after⟩ | ⟨before, after⟩ <;> rw [before, after]
  · rcases facts id with ⟨before, after⟩ | ⟨before, after⟩
    · rw [Resolution.typeOf, Resolution.typeOf, before, after]
      exact .refl _
    · rw [Resolution.typeOf, Resolution.typeOf, before, after]
      exact grows.typeOf id
  · rcases facts id with ⟨before, after⟩ | ⟨before, after⟩
    · rw [Resolution.symbolOf, Resolution.symbolOf, before, after]
      exact .refl _
    · rw [Resolution.symbolOf, Resolution.symbolOf, before, after]
      exact grows.symbolOf trails' prepared id

end Grows

section Runs

variable (prepared : Prepared tree b) (trails : v.Trails tree b r)
include prepared trails

/-- A parameter that is the root stands in no function. Completing it stops the pass before it has
changed anything. -/
theorem Trails.orphan {root : Node} {type declarator : NodeId}
    (found : tree.node? tree.root = some root)
    (is : root.production = .formalParameter type declarator) (member : declarator ∈ v.declared) :
    tree.heed (Resolution.typing mode tree) r ⟨.exit, tree.root⟩ =
      .error (.failed ⟨.unexpectedScope tree.root .function, r⟩) := by
  have reached : tree.Reachable tree.root := .root
  have inside : tree.Reachable declarator :=
    reached.child ⟨root, found, by simp [Node.children, is, Production.children]⟩
  have plain : root.kind.introducesScope = false := by
    simp [Node.kind, is, Production.kind, NodeKind.introducesScope]
  obtain ⟨below, name, foundBelow, isBelow⟩ := prepared.formed.parameter_declarator found is
  obtain ⟨scope, read, kind, -⟩ :=
    trails.rep.scope_eq_ok (prepared.registered.scope_known prepared.formed reached)
  obtain ⟨space, spaceKind⟩ := prepared.registered.scopeKind_root
  rw [prepared.registered.scopeAt_root found plain, spaceKind, Option.some.injEq] at kind
  simp only [SyntaxTree.heed, SyntaxTree.node, found, orDangling_some, lift_ok, ok_bind,
    Resolution.typing, Resolution.exitNode, is, Resolution.completeParameter,
    trails.declarator_symbol prepared inside foundBelow isBelow, member, if_true,
    Resolution.functionSymbol, trails.rep.scopeOf_eq_ok prepared reached, read, ← kind]
  rfl

/-- One event either moves the pass on as it moves its view, or stops it where it is. -/
theorem Trails.heed {event : Event} (reached : tree.Reachable event.node) (mode : Mode) :
    (∃ after, tree.heed (Resolution.typing mode tree) r event = .ok after ∧
        (v.advance tree b mode event).Trails tree b after) ∨
      ∃ cause, tree.heed (Resolution.typing mode tree) r event = .error (.failed ⟨cause, r⟩) := by
  by_cases owned : event = ⟨.exit, tree.root⟩ → v.NoOrphan tree
  · exact .inl (trails.advance prepared reached owned)
  · obtain ⟨rfl, orphan⟩ := Classical.not_imp.mp owned
    simp only [NoOrphan, not_forall, not_not] at orphan
    obtain ⟨root, type, declarator, found, is, member⟩ := orphan
    exact .inr ⟨_, trails.orphan prepared found is member⟩

/-- What is left behind after events is what some first ones of them have found out. -/
theorem Trails.run (mode : Mode) (events : List Event)
    (reached : ∀ event ∈ events, tree.Reachable event.node) :
    ∃ heard after, heard <+: events ∧
      Step.left? (events.foldlM (tree.heed (Resolution.typing mode tree)) r) = some after ∧
      (heard.foldl (View.advance tree b mode) v).Trails tree b after := by
  induction events generalizing r v with
  | nil => exact ⟨[], r, List.prefix_rfl, rfl, trails⟩
  | cons event events ih =>
    rcases trails.heed prepared (reached event (by simp)) mode with
      ⟨next, moved, first⟩ | ⟨cause, stopped⟩
    · obtain ⟨heard, after, isPrefix, left, last⟩ :=
        ih first fun other member => reached other (by simp [member])
      refine ⟨event :: heard, after, List.cons_prefix_cons.mpr ⟨rfl, isPrefix⟩, ?_, last⟩
      rw [List.foldlM_cons, moved, ok_bind, left]
    · refine ⟨[], r, List.nil_prefix, ?_, trails⟩
      rw [List.foldlM_cons, stopped]
      rfl

/-- A run from a reachable node leaves behind what only adds to what there was. -/
theorem Trails.resolveFrom (sources : v.Sources tree b) {id : NodeId} (reached : tree.Reachable id)
    (mode : Mode) : ∃ w after, (r.resolveFrom tree mode id).left? = some after ∧
      w.Trails tree b after ∧ w.Sources tree b ∧ Grows v w := by
  have inside : ∀ event ∈ tree.events id, tree.Reachable event.node := fun event member =>
    reached.within ((prepared.formed.mem_events reached).mp member)
  obtain ⟨heard, after, isPrefix, left, last⟩ := trails.run prepared mode _ inside
  obtain ⟨grows, sources⟩ := sources.run prepared mode heard fun event member =>
    inside event (isPrefix.subset member)
  refine ⟨_, after, ?_, last, sources, grows⟩
  rw [Resolution.resolveFrom, prepared.formed.walkFrom_eq_foldlM _ reached, left]

end Runs

end View

/-- A run of the resolving pass as one of the passes over a tree. -/
def Resolving.pass (run : Resolving) : Pass := .resolve run.mode run.start

/-- Runs from reachable nodes, one after another, add to what there was. -/
theorem View.Trails.passes {tree : SyntaxTree} {b r : Resolution} {v : View}
    (prepared : Prepared tree b) (trails : v.Trails tree b r) (sources : v.Sources tree b)
    {runs : List Resolving} (reached : ∀ run ∈ runs, tree.Reachable run.start) :
    ∃ w after, r.passes? tree (runs.map Resolving.pass) = some after ∧ w.Trails tree b after ∧
      w.Sources tree b ∧ Grows v w := by
  induction runs generalizing r v with
  | nil => exact ⟨v, r, rfl, trails, sources, .refl v⟩
  | cons run runs ih =>
    obtain ⟨u, between, left, first, sourcesFirst, grows⟩ :=
      trails.resolveFrom prepared sources (reached run (by simp)) run.mode
    obtain ⟨w, after, rest, last, sourcesLast, more⟩ :=
      ih first sourcesFirst fun other member => reached other (by simp [member])
    refine ⟨w, after, ?_, last, sourcesLast, grows.trans more⟩
    rw [Resolution.passes?, List.map_cons, List.foldlM_cons]
    exact Option.bind_eq_some_iff.mpr ⟨between, left, rest⟩

/-- After registration, runs of the resolving pass from reachable nodes of a valid tree, however many
and in whatever modes, never fault, and each run after them, whether it fails or not, only adds to
what they left behind. -/
theorem resolve_only_adds {tree : SyntaxTree} (valid : tree.validate = .ok ()) (name : String) :
    ∃ b, Resolution.build tree name = .ok b ∧
      ∀ runs : List Resolving, (∀ run ∈ runs, tree.Reachable run.start) →
        ∃ r, b.passes? tree (runs.map Resolving.pass) = some r ∧
          ∀ more : List Resolving, (∀ run ∈ more, tree.Reachable run.start) →
            ∃ later, r.passes? tree (more.map Resolving.pass) = some later ∧ r.OnlyAdds later := by
  obtain ⟨b, built, prepared⟩ := exists_prepared (SyntaxTree.validate_eq_ok_iff.mp valid) name
  have start : (View.start b).Trails tree b b := .start prepared
  refine ⟨b, built, fun runs reached => ?_⟩
  obtain ⟨v, r, left, trails, sources, -⟩ := start.passes prepared .start reached
  refine ⟨r, left, fun more reachedMore => ?_⟩
  obtain ⟨w, later, leftMore, trails', -, grows⟩ := trails.passes prepared sources reachedMore
  exact ⟨later, leftMore, grows.onlyAdds trails trails' prepared⟩

/-- In `class A extends A { int x, x; Nope y; }` the second field is declared by a run of its own, so
that it has no type yet. Resolving the unit gives it its type and reports the first one. -/
theorem resolve_only_adds_faulty :
    ∃ b r later, Resolution.build SyntaxTree.faulty "main" = .ok b ∧
      b.passes? SyntaxTree.faulty [.resolve .membersOnly ⟨5⟩] = some r ∧
      r.passes? SyntaxTree.faulty [.resolve .withLocals ⟨14⟩] = some later ∧ r.OnlyAdds later ∧
      r.table.symbols.toList.map Symbol.kind = [.classType ⟨1⟩ none, .var none] ∧
      later.table.symbols.toList.map Symbol.kind =
        [.classType ⟨1⟩ none, .var (some (.primitive .integer)), .var none] ∧
      later.diagnostics.toList.map Diagnostic.node = [⟨3⟩, ⟨8⟩, ⟨13⟩] := by
  have unit : SyntaxTree.faulty.Reachable ⟨14⟩ := .root
  have ofClass : SyntaxTree.faulty.Reachable ⟨13⟩ := unit.child ⟨_, rfl, by decide⟩
  have fields : SyntaxTree.faulty.Reachable ⟨7⟩ := ofClass.child ⟨_, rfl, by decide⟩
  have field : SyntaxTree.faulty.Reachable ⟨6⟩ := fields.child ⟨_, rfl, by decide⟩
  have second : SyntaxTree.faulty.Reachable ⟨5⟩ := field.child ⟨_, rfl, by decide⟩
  obtain ⟨b, built, runs⟩ := @resolve_only_adds SyntaxTree.faulty rfl "main"
  obtain ⟨r, left, more⟩ := runs [⟨.membersOnly, ⟨5⟩⟩] (by simpa using second)
  obtain ⟨later, leftMore, adds⟩ := more [⟨.withLocals, ⟨14⟩⟩] (by simpa using unit)
  have first : (Resolution.build SyntaxTree.faulty "main").toOption.bind (fun b =>
      (b.passes? SyntaxTree.faulty [.resolve .membersOnly ⟨5⟩]).map fun r =>
        r.table.symbols.toList.map Symbol.kind) = some [.classType ⟨1⟩ none, .var none] := rfl
  have last : (Resolution.build SyntaxTree.faulty "main").toOption.bind (fun b =>
      (b.passes? SyntaxTree.faulty [.resolve .membersOnly ⟨5⟩]).bind fun r =>
        (r.passes? SyntaxTree.faulty [.resolve .withLocals ⟨14⟩]).map fun r =>
          (r.table.symbols.toList.map Symbol.kind, r.diagnostics.toList.map Diagnostic.node)) =
      some ([.classType ⟨1⟩ none, .var (some (.primitive .integer)), .var none],
        [⟨3⟩, ⟨8⟩, ⟨13⟩]) := rfl
  simp only [List.map_cons, List.map_nil, Resolving.pass] at left leftMore
  simp only [built, Except.toOption, Option.bind_some, left, leftMore, Option.map_some,
    Option.some.injEq, Prod.mk.injEq] at first last
  exact ⟨b, r, later, built, left, leftMore, adds, first, last⟩

end ScriptSemantics
