import ScriptSemantics.Proofs.Renumbering

/-!
# Locals only add

The regions are resolved on top of what is known of the members, and every event in them either finds
its node done with or is about a local. So resolving the locals appends variables of the namespace and
of blocks and reports about them, and whatever was there before keeps its place and its contents.
-/
namespace ScriptSemantics

namespace View

variable {tree : SyntaxTree} {b : Resolution} {v w : View}

/-- A view has declared and reported what another has, in that order, and after it nothing but
locals. -/
structure Adds (tree : SyntaxTree) (b : Resolution) (v w : View) : Prop where
  declared : ∃ added, w.declared = v.declared ++ added ∧ ∀ id ∈ added, b.isMember id = false
  diagnostics : ∃ added, w.diagnostics = v.diagnostics ++ added ∧ ∀ d ∈ added,
    d.code = .duplicateDeclaration ∧ tree.isDeclaratorId d.node = true ∧
      tree.Reachable d.node ∧ b.isMember d.node = false

theorem Adds.refl (tree : SyntaxTree) (b : Resolution) (v : View) : Adds tree b v v :=
  ⟨⟨[], by simp⟩, ⟨[], by simp⟩⟩

theorem Adds.trans {u : View} (first : Adds tree b u v) (second : Adds tree b v w) :
    Adds tree b u w := by
  obtain ⟨⟨ids, declared, outside⟩, ⟨reports, diagnostics, about⟩⟩ := first
  obtain ⟨⟨ids', declared', outside'⟩, ⟨reports', diagnostics', about'⟩⟩ := second
  constructor
  · refine ⟨ids ++ ids', by rw [declared', declared, List.append_assoc], fun id member => ?_⟩
    exact (List.mem_append.mp member).elim (outside id) (outside' id)
  · refine ⟨reports ++ reports', by rw [diagnostics', diagnostics, List.append_assoc],
      fun d member => ?_⟩
    exact (List.mem_append.mp member).elim (about d) (about' d)

/-- An event about a local reports nothing but a repeated declaration. -/
theorem local_reports {event : Event} (isLocal : b.isLocal tree event.node = true) (mode : Mode) :
    ∃ added, (v.advance tree b mode event).diagnostics = v.diagnostics ++ added ∧ ∀ d ∈ added,
      d.code = .duplicateDeclaration ∧ tree.isDeclaratorId d.node = true ∧ d.node = event.node := by
  have silent {w : View} (same : w.diagnostics = v.diagnostics) : ∃ added,
      w.diagnostics = v.diagnostics ++ added ∧ ∀ d ∈ added, d.code = .duplicateDeclaration ∧
        tree.isDeclaratorId d.node = true ∧ d.node = event.node := ⟨[], by simp [same]⟩
  obtain ⟨⟨production, location⟩, found, ⟨name, is⟩ | ⟨type, declarators, is⟩⟩ := local_cases isLocal
  · cases is
    simp only [advance, found]
    cases event.phase with
    | exit => exact silent rfl
    | enter =>
      simp only [View.enter, declareVariableAt]
      split
      · exact silent rfl
      split
      · exact silent rfl
      split
      · exact silent rfl
      split
      · refine ⟨_, rfl, fun d member => ?_⟩
        rw [List.mem_singleton.mp member]
        exact ⟨rfl, by simp [SyntaxTree.isDeclaratorId, found, Node.kind, Production.kind], rfl⟩
      · exact silent rfl
  · cases is
    simp only [advance, found]
    cases event.phase with
    | enter => exact silent rfl
    | exit =>
      simp only [View.exit, typeDeclarators]
      split <;> exact silent rfl

/-- An event that keeps everything but locals adds locals only. -/
theorem Adds.advance {event : Event} (reached : tree.Reachable event.node) {mode : Mode}
    (same : SameMembers tree b v (v.advance tree b mode event)) :
    Adds tree b v (v.advance tree b mode event) := by
  have writes : Writes tree b event v (v.advance tree b mode event) := advance_writes
  constructor
  · obtain ⟨added, declared, -⟩ := writes.declared_append
    have kept := same.declared
    rw [declared, List.filter_append, List.self_eq_append_right, List.filter_eq_nil_iff] at kept
    exact ⟨added, declared, fun id member => by simpa using kept id member⟩
  · cases isLocal : b.isLocal tree event.node with
    | true =>
      obtain ⟨added, diagnostics, about⟩ := local_reports (v := v) isLocal mode
      refine ⟨added, diagnostics, fun d member => ?_⟩
      obtain ⟨code, isDeclarator, here⟩ := about d member
      exact ⟨code, isDeclarator, here ▸ reached, here ▸ Resolution.isMember_of_isLocal isLocal⟩
    | false =>
      obtain ⟨added, diagnostics, nodes⟩ := writes.diagnostics_eq
      have kept := same.diagnostics
      rw [diagnostics, List.filter_append, List.self_eq_append_right, List.filter_eq_nil_iff] at kept
      refine ⟨added, diagnostics, fun d member => ?_⟩
      exact absurd isLocal (by simpa [nodes d member] using kept d member)

theorem members_declared_isMember (tree : SyntaxTree) (b : Resolution) :
    ∀ id ∈ (members tree b).declared, b.isMember id = true := by
  refine List.foldlRecOn (tree.events tree.root)
    (motive := fun w : View => ∀ id ∈ w.declared, b.isMember id = true) _ (by simp [start]) ?_
  intro w members event listed id member
  cases isLocal : b.isLocal tree event.node with
  | true =>
    rw [advance_membersOnly_eq_self isLocal] at member
    exact members id member
  | false =>
    obtain ⟨added, declared, nodes⟩ :=
      (advance_writes : Writes tree b event w (w.advance tree b .membersOnly event)).declared_append
    rw [declared, List.mem_append] at member
    rcases member with before | new
    · exact members id before
    · obtain ⟨rfl, isDeclarator⟩ := nodes id new
      obtain ⟨node, found, kind⟩ := SyntaxTree.isDeclaratorId_iff.mp isDeclarator
      rw [Resolution.isLocal_eq found (.inl kind)] at isLocal
      simpa using isLocal

section Prepared

variable (prepared : Prepared tree b)
include prepared

/-- After the members every further event adds locals only. -/
theorem Adds.again
    (inner : ∀ root, tree.node? tree.root = some root → root.kind ≠ .formalParameter)
    (events : List Event) (reached : ∀ event ∈ events, tree.Reachable event.node) :
    Adds tree b (members tree b) (events.foldl (View.advance tree b .withLocals) (members tree b)) := by
  have start : SameMembers tree b (members tree b) (members tree b) :=
    .refl (members_sameMembers_atOnce prepared inner).inside
  refine (List.foldlRecOn events (motive := fun w : View => SameMembers tree b (members tree b) w ∧
    Adds tree b (members tree b) w) _ ⟨start, .refl ..⟩ ?_).2
  rintro w ⟨same, adds⟩ event member
  have next := same.again prepared inner [event] (by simpa using reached event member)
  exact ⟨next, adds.trans (.advance (reached event member) (same.symm.trans next))⟩

/-- The analysis with locals agrees with the pass over the members on everything but locals, and adds
locals only. -/
theorem members_adds (grounded : (members tree b).Grounded tree b) :
    SameMembers tree b (members tree b) (analysed tree b true) ∧
      Adds tree b (members tree b) (analysed tree b true) := by
  obtain ⟨root, found⟩ := prepared.formed.reachable_node .root
  by_cases parameter : root.kind = .formalParameter
  · rw [analysed_of_parameter prepared found parameter]
    refine ⟨.refl fun function id listed => ?_, .refl ..⟩
    exact members_declared_isMember tree b id (grounded.parameters function id listed)
  · have inner : ∀ node, tree.node? tree.root = some node → node.kind ≠ .formalParameter := by
      intro node foundNode
      obtain rfl : root = node := Option.some.inj (found.symm.trans foundNode)
      exact parameter
    exact ⟨members_sameMembers_analysed prepared inner true,
      .again prepared inner _ (reachable_of_mem_regions prepared)⟩

end Prepared

section Kept

variable (same : SameMembers tree b v w) (adds : Adds tree b v w) (grounded : v.Grounded tree b)

include adds in
theorem Adds.idOf_eq {id : NodeId} (member : id ∈ v.declared) : w.idOf b id = v.idOf b id := by
  obtain ⟨added, declared, -⟩ := adds.declared
  rw [idOf, idOf, declared, List.idxOf_append_of_mem member]

include same adds grounded

theorem Adds.completed_eq (symbol : Symbol) : w.completed b symbol = v.completed b symbol := by
  have parameters : (w.parameters symbol.id).map (w.idOf b) =
      (v.parameters symbol.id).map (v.idOf b) := by
    rw [← same.parameters]
    exact List.map_congr_left fun id listed => adds.idOf_eq (grounded.parameters _ id listed)
  simp only [completed, parameters, same.returnType, same.superclass]

theorem Adds.symbolAt_eq (members : ∀ id ∈ v.declared, b.isMember id = true) {i : Nat}
    {symbol : Symbol} (found : v.symbolAt tree b i = some symbol) :
    w.symbolAt tree b i = some symbol := by
  rw [← found, symbolAt, symbolAt]
  split
  · rw [show w.completed b = v.completed b from funext (adds.completed_eq same grounded)]
  next new =>
    rw [symbolAt, if_neg new, Option.map_eq_some_iff] at found
    obtain ⟨id, foundId, -⟩ := found
    have member := List.mem_of_getElem? foundId
    obtain ⟨added, declared, -⟩ := adds.declared
    rw [declared, List.getElem?_append_left (List.getElem?_eq_some_iff.mp foundId).1, foundId]
    simp only [Option.map_some, same.variableType id (members id member)]

end Kept

end View

/-- A scope is the namespace or that of a block. -/
def Resolution.HoldsLocals (r : Resolution) (scope : ScopeId) : Prop :=
  ∃ s, r.table.scope scope = .ok s ∧ ((∃ name, s.kind = .namespaceScope name) ∨ s.kind = .blockScope)

/-- One resolution is another with locals added. The diagnostics come after those that were there, the
symbols too, and nothing else is different. -/
structure Resolution.AddsLocals (tree : SyntaxTree) (r r' : Resolution) : Prop where
  diagnostics : ∃ added, r'.diagnostics.toList = r.diagnostics.toList ++ added ∧ ∀ d ∈ added,
    d.code = .duplicateDeclaration ∧ tree.isDeclaratorId d.node = true ∧
      ∃ scope, r'.scopeOf d.node = .ok scope ∧ r'.HoldsLocals scope
  scopes : r'.table.SameFrames r.table
  types : r'.types = r.types
  scopeOf : ∀ id, r'.scopeOf id = r.scopeOf id
  typeOf : ∀ id, r'.typeOf id = r.typeOf id
  kept : ∀ (i : Nat) (symbol : Symbol), r.table.symbols[i]? = some symbol →
    r'.table.symbols[i]? = some symbol
  added : ∀ (i : Nat) (symbol : Symbol), r'.table.symbols[i]? = some symbol →
    r.table.symbols.size ≤ i → symbol.kind.isVariable = true ∧ r'.HoldsLocals symbol.enclosing
  without : ∀ (i : Nat) (symbol : Symbol), r.table.symbols[i]? = some symbol →
    symbol.kind.isVariable = true → ¬ r.HoldsLocals symbol.enclosing
  symbolOf : ∀ id, r'.symbolOf id = r.symbolOf id ∨ r.symbolOf id = none ∧
    ∃ symbol x, r'.symbolOf id = some symbol ∧ r.table.symbols.size ≤ symbol.index ∧
      r'.table.symbol symbol = .ok x ∧ x.node = id
  listing : ∀ scope : ScopeId, scope.index < r.table.scopes.size →
    ((r'.table.listing scope).filter fun id => id.index < r.table.symbols.size) =
      r.table.listing scope

variable {tree : SyntaxTree} {b r r' : Resolution} {v w : View}

theorem View.Represents.holdsLocals_iff (rep : v.Represents tree b r) (prepared : Prepared tree b)
    {id : NodeId} (reached : tree.Reachable id) :
    r.HoldsLocals (b.scopeAt id) ↔ b.isMember id = false := by
  obtain ⟨s, read, kind, -⟩ :=
    rep.scope_eq_ok (prepared.registered.scope_known prepared.formed reached)
  simp only [Resolution.HoldsLocals, read, Except.ok.injEq, exists_eq_left', Resolution.isMember,
    Resolution.isMemberScope, kind, Option.bind_some]
  cases s.kind <;> simp [ScopeKind.owner?]

/-- A symbol beyond those that were there is a local variable. -/
theorem View.Follows.added_isLocal (prepared : Prepared tree b) (follows : v.Follows tree b r)
    (follows' : w.Follows tree b r') (adds : Adds tree b v w) {i : Nat} {symbol : Symbol}
    (found : r'.table.symbols[i]? = some symbol) (new : r.table.symbols.size ≤ i) :
    symbol.kind.isVariable = true ∧ r'.HoldsLocals symbol.enclosing := by
  rcases follows'.rep.symbol_cases follows'.grounded.nodup found with
    ⟨old, foundOld, -⟩ | ⟨id, member, rfl, rfl⟩
  · have := (Array.getElem?_eq_some_iff.mp foundOld).1
    have := follows.rep.symbols_size
    omega
  · have fresh : id ∉ v.declared := fun before => by
      have := follows.rep.idOf_lt before
      rw [adds.idOf_eq before] at new
      omega
    obtain ⟨added, declared, outside⟩ := adds.declared
    have isNew : id ∈ added := by
      rw [declared, List.mem_append] at member
      exact member.resolve_left fresh
    have reached := follows'.grounded.reached id member
    exact ⟨rfl, (follows'.rep.holdsLocals_iff prepared reached).mpr (outside id isNew)⟩

/-- A node has the symbol that it had, or it had none and has one of the added. -/
theorem View.Follows.symbolOf_added (prepared : Prepared tree b) (follows : v.Follows tree b r)
    (follows' : w.Follows tree b r') (adds : Adds tree b v w) (id : NodeId) :
    r'.symbolOf id = r.symbolOf id ∨ r.symbolOf id = none ∧
      ∃ symbol x, r'.symbolOf id = some symbol ∧ r.table.symbols.size ≤ symbol.index ∧
        r'.table.symbol symbol = .ok x ∧ x.node = id := by
  by_cases here : id.index < tree.size
  · simp only [Resolution.symbolOf, follows.rep.facts id here, follows'.rep.facts id here,
      View.symbolOf]
    by_cases before : id ∈ v.declared
    · obtain ⟨added, declared, -⟩ := adds.declared
      have after : id ∈ w.declared := by simp [declared, before]
      simp [before, after, adds.idOf_eq before]
    · by_cases after : id ∈ w.declared
      · obtain ⟨node, name, found, is⟩ := follows'.grounded.named id after
        have none := prepared.registered.symbolOf_plain prepared.formed
          (follows'.grounded.reached id after) found
          (by rw [Node.kind_of is]; rfl)
        obtain ⟨added, declared, -⟩ := adds.declared
        have position : r.table.symbols.size ≤ (w.idOf b id).index := by
          rw [follows.rep.symbols_size, View.idOf, declared, List.idxOf_append_of_notMem before]
          simp only
          omega
        simp only [before, after, if_false, if_true]
        have isSymbol := orDangling_eq_ok_iff.mpr (follows'.rep.variable_symbol after)
        exact .inr ⟨none, _, _, rfl, position, isSymbol, rfl⟩
      · simp [before, after]
  · left
    simp only [Resolution.symbolOf, follows.rep.factsOf_beyond here,
      follows'.rep.factsOf_beyond here]

theorem View.Represents.facts_kept (rep : v.Represents tree b r) (rep' : w.Represents tree b r')
    (same : SameMembers tree b v w) (id : NodeId) :
    (r'.factsOf id).scope = (r.factsOf id).scope ∧ (r'.factsOf id).type = (r.factsOf id).type := by
  by_cases here : id.index < tree.size
  · simp only [rep.facts id here, rep'.facts id here, same.typeOf, and_self]
  · simp only [rep.factsOf_beyond here, rep'.factsOf_beyond here, and_self]

/-- What follows views of which one adds locals to the other adds them too. -/
theorem View.Follows.addsLocals (prepared : Prepared tree b) (follows : v.Follows tree b r)
    (follows' : w.Follows tree b r') (same : SameMembers tree b v w) (adds : Adds tree b v w)
    (members : ∀ id ∈ v.declared, b.isMember id = true) : r.AddsLocals tree r' where
  diagnostics := by
    obtain ⟨added, diagnostics, about⟩ := adds.diagnostics
    refine ⟨added, by rw [follows.rep.diagnostics, follows'.rep.diagnostics, diagnostics], ?_⟩
    intro d member
    obtain ⟨code, isDeclarator, reached, outside⟩ := about d member
    exact ⟨code, isDeclarator, _, follows'.rep.scopeOf_eq_ok prepared reached,
      (follows'.rep.holdsLocals_iff prepared reached).mpr outside⟩
  scopes i := (follows'.rep.frames i).trans (follows.rep.frames i).symm
  types := by rw [follows.rep.types, follows'.rep.types, same.types]
  scopeOf id := by simp only [Resolution.scopeOf, follows.rep.facts_kept follows'.rep same id]
  typeOf id := (follows.rep.facts_kept follows'.rep same id).2
  kept i symbol found := by
    rw [follows.rep.symbols] at found
    rw [follows'.rep.symbols]
    exact adds.symbolAt_eq same follows.grounded members found
  added i symbol := follows.added_isLocal prepared follows' adds
  without i symbol found isVariable := by
    rcases follows.rep.symbol_cases follows.grounded.nodup found with
      ⟨old, foundOld, rfl⟩ | ⟨id, member, -, rfl⟩
    · simp [View.completed_isVariable prepared.registered foundOld] at isVariable
    · rw [follows.rep.holdsLocals_iff prepared (follows.grounded.reached id member)]
      simp [members id member]
  symbolOf := follows.symbolOf_added prepared follows' adds
  listing scope known := by
    have completes : r'.table.Completes r.table :=
      { frames := fun i => (follows'.rep.frames i).trans (follows.rep.frames i).symm
        kept := fun i symbol found => by
          rw [follows.rep.symbols] at found
          refine ⟨symbol.kind, ?_, rfl, rfl⟩
          rw [follows'.rep.symbols]
          exact adds.symbolAt_eq same follows.grounded members found
        added := fun i symbol found new =>
          (follows.added_isLocal prepared follows' adds found new).1 }
    exact completes.listing_filter follows'.rep.ordered follows.rep.ordered
      (follows.rep.distinct prepared follows.grounded) known

/-- Analysing a valid tree with its locals gives what analysing it without them does, with the locals
added. -/
theorem analyze_locals_add (valid : tree.validate = .ok ()) (settings : Settings) :
    ∃ r r', analyze tree { settings with enterLocalVariables := false } = .ok r ∧
      analyze tree { settings with enterLocalVariables := true } = .ok r' ∧
      r.AddsLocals tree r' := by
  have formed := SyntaxTree.validate_eq_ok_iff.mp valid
  obtain ⟨b, r, built, prepared, analysed, follows⟩ :=
    exists_analysed formed { settings with enterLocalVariables := false }
  obtain ⟨b', r', built', -, analysed', follows'⟩ :=
    exists_analysed formed { settings with enterLocalVariables := true }
  obtain rfl : b = b' := Except.ok.inj (built.symm.trans built')
  obtain ⟨same, adds⟩ := View.members_adds prepared follows.grounded
  exact ⟨r, r', analysed, analysed', follows.addsLocals prepared follows' same adds
    (View.members_declared_isMember tree b)⟩

/-- The field `x` of `SyntaxTree.repeated` is there without the locals, and the first `x` of the unit
is added with them, and so is the report about the second. -/
theorem analyze_locals_add_repeated :
    ∃ r r', analyze SyntaxTree.repeated { Settings.standard with enterLocalVariables := false } =
        .ok r ∧ analyze SyntaxTree.repeated Settings.standard = .ok r' ∧
      r.AddsLocals SyntaxTree.repeated r' ∧ r.symbolOf ⟨7⟩ = r'.symbolOf ⟨7⟩ ∧
      r.symbolOf ⟨2⟩ = none ∧ r'.symbolOf ⟨2⟩ = some ⟨2⟩ ∧
      r.diagnostics.toList.map Diagnostic.node = [] ∧
      r'.diagnostics.toList.map Diagnostic.node = [⟨13⟩] := by
  obtain ⟨r, r', analysed, analysed', adds⟩ :=
    @analyze_locals_add SyntaxTree.repeated rfl Settings.standard
  have without : (analyze SyntaxTree.repeated
      { Settings.standard with enterLocalVariables := false }).map (fun r =>
        (r.symbolOf ⟨7⟩, r.symbolOf ⟨2⟩, r.diagnostics.toList.map Diagnostic.node)) =
      .ok (some ⟨1⟩, none, []) := rfl
  have within : (analyze SyntaxTree.repeated
      { Settings.standard with enterLocalVariables := true }).map (fun r =>
        (r.symbolOf ⟨7⟩, r.symbolOf ⟨2⟩, r.diagnostics.toList.map Diagnostic.node)) =
      .ok (some ⟨1⟩, some ⟨2⟩, [⟨13⟩]) := rfl
  rw [analysed] at without
  rw [analysed'] at within
  simp only [Except.map, Except.ok.injEq, Prod.mk.injEq] at without within
  exact ⟨r, r', analysed, analysed', adds, without.1.trans within.1.symm, without.2.1, within.2.1,
    without.2.2, within.2.2⟩

end ScriptSemantics
