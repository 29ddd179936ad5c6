import ScriptSemantics.Proofs.Footprints
import ScriptSemantics.Proofs.Interruptions
import ScriptSemantics.Proofs.Nesting
import ScriptSemantics.Proofs.TidyTables

/-!
# What holds after any passes

Whatever passes were run over a tree, valid or not, no scope has two variables of one name, and a
node has at most one diagnostic, which stands where the node does and fits its kind. A declarator id
that was reported declares nothing. A step that is about to report a node has just checked it for
the first time; what is reported is checked, so a node is reported once. This carries the invariant
through interruptions as well, because a check is never taken back.
-/
namespace ScriptSemantics

/-- The kinds of nodes that a diagnostic may be about. -/
def DiagnosticCode.subjects : DiagnosticCode → List NodeKind
  | .duplicateDeclaration => [.variableDeclaratorId, .functionDeclaration]
  | .unknownType => [.classReference]
  | .invalidSuperclass => [.classDeclaration]

namespace Resolution

variable {tree : SyntaxTree} {mode : Mode} {id : NodeId} {node : Node} {r after : Resolution}

/-- A node is reported at most once and has been checked, a diagnostic stands where its node does
and fits its kind, and a reported declarator id declares nothing. -/
structure ReportsOnce (tree : SyntaxTree) (r : Resolution) : Prop where
  once : (r.diagnostics.toList.map Diagnostic.node).Nodup
  checked : ∀ d ∈ r.diagnostics, (r.factsOf d.node).checked = true
  placed : ∀ d ∈ r.diagnostics, ∃ node, tree.node? d.node = some node ∧
    d.location = node.location ∧ node.kind ∈ d.code.subjects
  undeclared : ∀ d ∈ r.diagnostics, tree.isDeclaratorId d.node = true → r.symbolOf d.node = none

/-- What every pass keeps. -/
structure Sound (tree : SyntaxTree) (r : Resolution) : Prop where
  tidy : r.table.Tidy
  reports : r.ReportsOnce tree

/-- A node has been checked and is not reported yet. -/
structure Reportable (r : Resolution) (id : NodeId) : Prop where
  checked : (r.factsOf id).checked = true
  silent : ∀ d ∈ r.diagnostics, d.node ≠ id

theorem Sound.new (tree : SyntaxTree) (name : String) : (Resolution.new tree name).Sound tree where
  tidy := .new name
  reports := by constructor <;> simp [Resolution.new]

theorem Sound.withTable (sound : r.Sound tree) {table : SymbolTable} (tidy : table.Tidy)
    (types : TypeTable) : ({ r with table := table, types := types } : Resolution).Sound tree :=
  ⟨tidy, sound.reports.once, sound.reports.checked, sound.reports.placed, sound.reports.undeclared⟩

theorem Sound.onTable (sound : r.Sound tree) {change : SymbolTable → Except Fault SymbolTable}
    (keeps : ∀ table, change r.table = .ok table → table.Tidy)
    (changed : r.onTable change = .ok after) : after.Sound tree := by
  obtain ⟨table, done, same⟩ := bind_eq_ok_iff.mp changed
  cases same
  exact sound.withTable (keeps table done) r.types

/-- A check is kept, and only a node that is not reported gets a symbol. -/
theorem Sound.updateFacts (sound : r.Sound tree) {change : NodeFacts → NodeFacts}
    (updated : r.updateFacts id change = .ok after)
    (checked : ∀ facts, facts.checked = true → (change facts).checked = true)
    (symbol : (∀ facts, (change facts).symbol = facts.symbol) ∨ tree.isDeclaratorId id = false ∨
      ∀ d ∈ r.diagnostics, d.node ≠ id) : after.Sound tree := by
  obtain ⟨known, rfl⟩ := updateFacts_eq_ok_iff.mp updated
  refine ⟨sound.tidy, sound.reports.once, fun d member => ?_, sound.reports.placed,
    fun d member declarator => ?_⟩
  · have before := sound.reports.checked d member
    rw [factsOf_withFacts known]
    split
    next same => exact checked _ (same ▸ before)
    next => exact before
  · have before := sound.reports.undeclared d member declarator
    unfold symbolOf at before ⊢
    rw [factsOf_withFacts known]
    split
    next same =>
      rcases symbol with kept | other | silent
      · rw [kept, ← same, before]
      · rw [same, other] at declarator
        cases declarator
      · exact absurd same (silent d member)
    next => exact before

theorem Sound.setScope (sound : r.Sound tree) {scope : ScopeId}
    (updated : r.setScope id scope = .ok after) : after.Sound tree :=
  sound.updateFacts updated (fun _ checked => checked) (.inl fun _ => rfl)

theorem Sound.setType (sound : r.Sound tree) {type : Ty}
    (updated : r.setType id type = .ok after) : after.Sound tree :=
  sound.updateFacts updated (fun _ checked => checked) (.inl fun _ => rfl)

theorem Sound.setSymbol (sound : r.Sound tree) {symbol : SymbolId}
    (unreported : tree.isDeclaratorId id = false ∨ ∀ d ∈ r.diagnostics, d.node ≠ id)
    (updated : r.setSymbol id symbol = .ok after) : after.Sound tree :=
  sound.updateFacts updated (fun _ checked => checked) (.inr unreported)

/-- A node that is checked for the first time may be reported, and has its symbol as it was. -/
theorem Sound.marked (sound : r.Sound tree) {first : Bool} {marked : Resolution}
    (checked : r.checkOnce id = .ok (first, marked)) :
    marked.Sound tree ∧ marked.symbolOf id = r.symbolOf id ∧
      (first = true → marked.Reportable id) := by
  obtain ⟨known, isFirst, rfl⟩ := checkOnce_eq_ok_iff.mp checked
  refine ⟨sound.updateFacts (updateFacts_eq_ok known _) (fun _ _ => rfl) (.inl fun _ => rfl), ?_,
    fun unchecked => ⟨?_, fun d member same => ?_⟩⟩
  · unfold symbolOf
    rw [factsOf_withFacts known, if_pos rfl]
  · rw [factsOf_withFacts known, if_pos rfl]
  · have already := sound.reports.checked d member
    rw [same] at already
    simp [unchecked, already] at isFirst

/-- What follows a node's first check may report the node. -/
theorem Sound.checkOnce (sound : r.Sound tree) {next : Bool × Resolution → Step}
    (again : ∀ marked, marked.Sound tree → (next (false, marked)).Leaves (Sound tree))
    (first : ∀ marked, marked.Sound tree → marked.Reportable id →
      marked.symbolOf id = r.symbolOf id → (next (true, marked)).Leaves (Sound tree)) :
    Step.Leaves (Sound tree) (liftM (r.checkOnce id) >>= next) := by
  refine .bind_lift fun ⟨isFirst, marked⟩ checked => ?_
  obtain ⟨kept, symbol, reportable⟩ := sound.marked checked
  cases isFirst with
  | false => exact again marked kept
  | true => exact first marked kept (reportable rfl) symbol

/-- Only what may be reported is reported, and at the place of the node. -/
theorem Sound.log (sound : r.Sound tree) (reportable : r.Reportable id)
    (found : tree.node? id = some node) {code : DiagnosticCode} (fits : node.kind ∈ code.subjects)
    (undeclared : tree.isDeclaratorId id = true → r.symbolOf id = none) (message : String) :
    (r.log code message id node.location).Sound tree := by
  have extended {holds : Diagnostic → Prop} (old : ∀ d ∈ r.diagnostics, holds d)
      (new : holds ⟨id, node.location, code, message⟩) :
      ∀ d ∈ (r.log code message id node.location).diagnostics, holds d := by
    intro d member
    rcases Array.mem_push.mp member with member | rfl
    · exact old d member
    · exact new
  refine ⟨sound.tidy, ?_, extended sound.reports.checked reportable.checked,
    extended sound.reports.placed ⟨node, found, rfl, fits⟩,
    extended sound.reports.undeclared undeclared⟩
  simp only [Resolution.log, Array.toList_push, List.map_append, List.map_cons, List.map_nil]
  rw [← List.concat_eq_append, List.nodup_concat]
  refine ⟨?_, sound.reports.once⟩
  simpa using reportable.silent

theorem not_declaratorId (found : tree.node? id = some node)
    (other : node.kind ≠ .variableDeclaratorId) : tree.isDeclaratorId id = false := by
  simpa [SyntaxTree.isDeclaratorId, found] using other

theorem Sound.logOther (sound : r.Sound tree) (reportable : r.Reportable id)
    (found : tree.node? id = some node) {code : DiagnosticCode} (fits : node.kind ∈ code.subjects)
    (other : node.kind ≠ .variableDeclaratorId) (message : String) :
    (r.log code message id node.location).Sound tree := by
  refine sound.log reportable found fits (fun declarator => ?_) message
  rw [not_declaratorId found other] at declarator
  cases declarator

theorem declareVariableAt_sound {name : String} (sound : r.Sound tree)
    (found : tree.node? id = some node) (kind : node.kind = .variableDeclaratorId) :
    Step.Leaves (Sound tree) (r.declareVariableAt mode id name node.location) := by
  unfold declareVariableAt
  split
  · exact sound
  next undeclared =>
  refine .interrupting sound fun scope _ => .bind_lift fun declares _ => ?_
  split
  · exact sound
  refine sound.checkOnce (fun _ kept => kept) fun marked kept reportable symbol => ?_
  refine .bind_lift fun known searched => ?_
  split
  · refine kept.log reportable found (by simp [kind, DiagnosticCode.subjects]) (fun _ => ?_) _
    rw [symbol]
    simpa using undeclared
  next free =>
  refine .bind_lift fun ⟨symbol, table⟩ declared => .lift fun noted noting => ?_
  obtain rfl : known = none := by simpa using free
  have tidy : table.Tidy := kept.tidy.declareVariable searched declared
  exact (kept.withTable tidy marked.types).setSymbol (.inr reportable.silent) noting

theorem typeDeclarator_sound {type : Option Ty} {declarator : NodeId} (sound : r.Sound tree) :
    Step.Leaves (Sound tree) (typeDeclarator tree type r declarator) := by
  refine .bind_lift fun node _ => ?_
  split
  · split
    · exact .lift fun typed changed =>
        sound.onTable (fun table updated => sound.tidy.updateKind (by simp) updated) changed
    · exact sound
  · exact sound

theorem typeDeclarators_sound {type : NodeId} {declarators : List NodeId} (sound : r.Sound tree) :
    Step.Leaves (Sound tree) (r.typeDeclarators mode tree id type declarators) := by
  refine .interrupting sound fun scope _ => .bind_lift fun types _ => ?_
  split
  · exact sound
  · exact .foldlM sound fun r sound declarator _ => typeDeclarator_sound sound

theorem completeParameter_sound {type declarator : NodeId} (sound : r.Sound tree) :
    Step.Leaves (Sound tree) (r.completeParameter id type declarator) := by
  unfold completeParameter
  split
  · exact sound
  · refine .interrupting sound fun function _ => .bind_lift fun typed changed => ?_
    have sound := sound.onTable (fun _ => sound.tidy.updateKind (by simp)) changed
    exact .lift fun completed changed =>
      sound.onTable (fun _ => sound.tidy.updateKind (by simp)) changed

theorem checkSignature_sound {name : String} {function : SymbolId} {enclosing : ScopeId}
    (sound : r.Sound tree) (reportable : r.Reportable id) (found : tree.node? id = some node)
    (kind : node.kind = .functionDeclaration) :
    Step.Leaves (Sound tree) (r.checkSignature id name node.location function enclosing) := by
  refine .bind_lift fun parameters _ => ?_
  split
  · exact sound
  · refine .bind_lift fun other _ => ?_
    split
    · exact .bind_lift fun text _ => sound.logOther reportable found
        (by simp [kind, DiagnosticCode.subjects]) (by simp [kind]) _
    · exact sound

theorem completeFunction_sound {name : String} {returnType : Option NodeId} (sound : r.Sound tree)
    (found : tree.node? id = some node) (kind : node.kind = .functionDeclaration) :
    Step.Leaves (Sound tree) (r.completeFunction id name node.location returnType) := by
  have compared (function : SymbolId) (marked : Resolution) (kept : marked.Sound tree)
      (reportable : marked.Reportable id) :
      Step.Leaves (Sound tree) (do
        let enclosing ← marked.interrupting (marked.enclosingScopeOf id)
        marked.checkSignature id name node.location function enclosing) :=
    .interrupting kept fun enclosing _ => checkSignature_sound kept reportable found kind
  refine .interrupting sound fun function _ => ?_
  cases returnType with
  | none =>
    exact sound.checkOnce (fun _ kept => kept) fun marked kept reportable _ =>
      compared function marked kept reportable
  | some node =>
    refine .bind_lift fun returning changed => ?_
    have sound := sound.onTable (fun _ => sound.tidy.updateKind (by simp)) changed
    exact sound.checkOnce (fun _ kept => kept) fun marked kept reportable _ =>
      compared function marked kept reportable

theorem completeClass_sound {name : String} {superclass : Option NodeId} (sound : r.Sound tree)
    (found : tree.node? id = some node) (kind : node.kind = .classDeclaration) :
    Step.Leaves (Sound tree) (r.completeClass id name node.location superclass) := by
  unfold completeClass
  split
  · refine sound.checkOnce (fun _ kept => kept) fun marked kept reportable _ => ?_
    refine .interrupting kept fun ⟨symbol, scope⟩ _ => ?_
    dsimp only
    split
    · exact kept.logOther reportable found (by simp [kind, DiagnosticCode.subjects])
        (by simp [kind]) _
    · exact .lift fun extended changed =>
        kept.onTable (fun _ => kept.tidy.updateKind (by simp)) changed
  · exact sound

theorem inheritType_sound {child : NodeId} (sound : r.Sound tree) :
    Step.Leaves (Sound tree) (r.inheritType id child) := by
  unfold inheritType
  split
  · exact .lift fun _ => sound.setType
  · exact sound

theorem resolveFunctionType_sound {parameters : List NodeId} {returnType : NodeId}
    (sound : r.Sound tree) :
    Step.Leaves (Sound tree) (r.resolveFunctionType id parameters returnType) := by
  unfold resolveFunctionType
  split
  · exact sound
  · split
    · exact .lift fun _ => (sound.withTable sound.tidy _).setType
    · exact sound

/-- All that leaving a class reference comes to: it has a type, or it has been checked before, or it is
checked for the first time and then misses its scope, gets a type or is reported. -/
theorem resolveClassReference_leaves {name : String} {location : Location}
    {holds : Resolution → Prop} {failing : Interruption → Prop}
    (typed : (r.typeOf id).isSome = true → holds r)
    (again : ∀ marked, r.typeOf id = none → r.checkOnce id = .ok (false, marked) → holds marked)
    (missed : ∀ marked, r.typeOf id = none → r.checkOnce id = .ok (true, marked) →
      failing ⟨.missingScopeBinding id, marked⟩)
    (resolved : ∀ marked own after, r.typeOf id = none → r.checkOnce id = .ok (true, marked) →
      marked.setType id (.classType own) = .ok after → holds after)
    (reported : ∀ marked message, r.typeOf id = none → r.checkOnce id = .ok (true, marked) →
      holds (marked.log .unknownType message id location)) :
    ScriptSemantics.Leaves holds failing (r.resolveClassReference id name location) := by
  unfold resolveClassReference
  split
  next isTyped => exact typed isTyped
  next untyped =>
  have untyped : r.typeOf id = none := by simpa using untyped
  refine .bind_lift fun ⟨first, marked⟩ checked => ?_
  cases first with
  | false => exact again marked untyped checked
  | true =>
    simp only [Bool.not_true, Bool.false_eq_true, if_false]
    cases scope : marked.scopeOf id with
    | error halt =>
      unfold scopeOf at scope
      split at scope <;> cases scope
      exact missed marked untyped checked
    | ok scope =>
      refine .bind_lift fun referred _ => ?_
      cases referred with
      | none => exact reported marked _ untyped checked
      | some symbol =>
        dsimp only
        cases marked.table.symbol symbol with
        | error fault => trivial
        | ok symbol =>
          simp only [lift_ok, map_ok, ok_bind]
          cases symbol.kind.ownScope with
          | none => exact reported marked _ untyped checked
          | some own => exact .lift fun after updated => resolved marked own after untyped checked updated

theorem resolveClassReference_sound {name : String} (sound : r.Sound tree)
    (found : tree.node? id = some node) (kind : node.kind = .classReference) :
    Step.Leaves (Sound tree) (r.resolveClassReference id name node.location) := by
  have logged {marked : Resolution} (checked : r.checkOnce id = .ok (true, marked))
      (message : String) : (marked.log .unknownType message id node.location).Sound tree := by
    obtain ⟨kept, -, reportable⟩ := sound.marked checked
    exact kept.logOther (reportable rfl) found (by simp [kind, DiagnosticCode.subjects])
      (by simp [kind]) message
  refine resolveClassReference_leaves (fun _ => sound) ?_ ?_ ?_ ?_
  · exact fun _ _ checked => (sound.marked checked).1
  · exact fun _ _ checked => (sound.marked checked).1
  · exact fun _ _ _ _ checked typed => (sound.marked checked).1.setType typed
  · exact fun _ message _ checked => logged checked message

theorem enterNode_sound (sound : r.Sound tree) (found : tree.node? id = some node) :
    Step.Leaves (Sound tree) (enterNode mode id node r) := by
  unfold enterNode
  split
  next production => exact declareVariableAt_sound sound found (Node.kind_of production)
  next => exact sound

theorem exitNode_sound (sound : r.Sound tree) (found : tree.node? id = some node) :
    Step.Leaves (Sound tree) (exitNode mode tree id node r) := by
  unfold exitNode
  split
  next => exact .lift fun _ => sound.setType
  next => exact .lift fun _ => sound.setType
  next => exact inheritType_sound sound
  next => exact inheritType_sound sound
  next => exact resolveFunctionType_sound sound
  next production => exact resolveClassReference_sound sound found (Node.kind_of production)
  next => exact typeDeclarators_sound sound
  next => exact completeParameter_sound sound
  next production => exact completeFunction_sound sound found (Node.kind_of production)
  next production => exact completeClass_sound sound found (Node.kind_of production)
  all_goals exact sound

/-- A pass leaves a sound resolution behind, whether it is interrupted or not. -/
theorem resolveFrom_sound (sound : r.Sound tree) :
    Step.Leaves (Sound tree) (r.resolveFrom tree mode id) := by
  refine .walkFrom sound fun phase other node r found sound => ?_
  cases phase with
  | enter => exact enterNode_sound sound found
  | exit => exact exitNode_sound sound found

end Resolution

namespace Registration

variable {tree : SyntaxTree} {id : NodeId} {node : Node} {s after : Registration}

/-- A registration of a sound resolution whose open scopes exist. -/
structure Sound (tree : SyntaxTree) (s : Registration) : Prop where
  resolution : s.resolution.Sound tree
  opened : ∀ scope ∈ s.opened, scope.index < s.resolution.table.scopes.size

theorem Sound.current_known (sound : s.Sound tree) :
    s.current.index < s.resolution.table.scopes.size := by
  unfold current
  cases opened : s.opened with
  | nil => exact sound.resolution.tidy.rooted
  | cons scope rest => exact sound.opened scope (by simp [opened])

/-- The scope that is opened is the last of a resolution that has one more. -/
theorem Sound.openScope {r : Resolution} (sound : s.Sound tree) (kept : r.Sound tree)
    (more : r.table.scopes.size = s.resolution.table.scopes.size + 1)
    (done : s.openScope r id s.resolution.table.nextScope = .ok after) : after.Sound tree := by
  obtain ⟨bound, updated, same⟩ := bind_eq_ok_iff.mp done
  cases same
  have boundSound := kept.setScope updated
  obtain ⟨-, rfl⟩ := Resolution.updateFacts_eq_ok_iff.mp updated
  refine ⟨boundSound, fun scope member => ?_⟩
  change scope.index < r.table.scopes.size
  rw [more]
  rcases List.mem_cons.mp member with rfl | member
  · exact Nat.lt_succ_self _
  · exact Nat.lt_succ_of_lt (sound.opened scope member)

/-- A class or a function is declared in the innermost open scope, and its own is opened. -/
theorem Sound.declareOwner (sound : s.Sound tree) {scopeKind : SymbolId → ScopeKind}
    {symbolKind : ScopeId → SymbolKind} {types : TypeTable} {name : String} {location : Location}
    {noted : Resolution} (sort : ∀ scope, (symbolKind scope).isVariable = false)
    (other : tree.isDeclaratorId id = false)
    (updated : ({ s.resolution with
      table := s.resolution.table.withOwner scopeKind symbolKind s.current name id location,
      types := types } : Resolution).setSymbol id s.resolution.table.nextSymbol = .ok noted)
    (done : s.openScope noted id s.resolution.table.nextScope = .ok after) : after.Sound tree := by
  have tidy : (s.resolution.table.withOwner scopeKind symbolKind s.current name id location).Tidy :=
    sound.resolution.tidy.withOwner sound.current_known name id location sort
  have kept := (sound.resolution.withTable tidy types).setSymbol (.inl other) updated
  obtain ⟨-, rfl⟩ := Resolution.updateFacts_eq_ok_iff.mp updated
  exact sound.openScope kept (SymbolTable.withOwner_scopes_size ..) done

theorem Sound.enter (sound : s.Sound tree) (found : tree.node? id = some node)
    (entered : s.enter id node = .ok after) : after.Sound tree := by
  have known := sound.current_known
  cases production : node.production with
  | classDeclaration name superclass body =>
    simp only [Registration.enter, production, SymbolTable.declareClass_eq_ok known.le, ok_bind]
      at entered
    obtain ⟨noted, updated, done⟩ := bind_eq_ok_iff.mp entered
    refine sound.declareOwner (fun _ => rfl) ?_ updated done
    exact Resolution.not_declaratorId found (by simp [Node.kind_of production, Production.kind])
  | functionDeclaration name returnType parameters body =>
    simp only [Registration.enter, production, SymbolTable.declareFunction_eq_ok known.le, ok_bind]
      at entered
    obtain ⟨noted, updated, done⟩ := bind_eq_ok_iff.mp entered
    refine sound.declareOwner (fun _ => rfl) ?_ updated done
    exact Resolution.not_declaratorId found (by simp [Node.kind_of production, Production.kind])
  | block statements =>
    simp only [Registration.enter, production, SymbolTable.pushBlock_eq_ok known.le, ok_bind]
      at entered
    have kept := sound.resolution.withTable (sound.resolution.tidy.withBlock s.current)
      s.resolution.types
    exact sound.openScope kept (SymbolTable.withBlock_scopes_size _) entered
  | _ =>
    simp only [Registration.enter, production] at entered
    obtain ⟨bound, updated, same⟩ := bind_eq_ok_iff.mp entered
    cases same
    have kept := sound.resolution.setScope updated
    obtain ⟨-, rfl⟩ := Resolution.updateFacts_eq_ok_iff.mp updated
    exact ⟨kept, sound.opened⟩

theorem Sound.exit (sound : s.Sound tree) (node : Node) : (s.exit node).Sound tree := by
  unfold Registration.exit
  split
  · exact ⟨sound.resolution, fun scope member => sound.opened scope (List.mem_of_mem_tail member)⟩
  · exact sound

end Registration

namespace Resolution

variable {tree : SyntaxTree} {r after : Resolution}

theorem Sound.registerFrom {id : NodeId} (sound : r.Sound tree)
    (registered : r.registerFrom tree id = .ok after) : after.Sound tree := by
  obtain ⟨s, walked, same⟩ := bind_eq_ok_iff.mp registered
  cases same
  have start : (⟨r, [SymbolTable.root]⟩ : Registration).Sound tree :=
    ⟨sound, by simpa using sound.tidy.rooted⟩
  have kept : Leaves (Registration.Sound tree) (fun _ => True)
      (tree.walkFrom Registration.listener id ⟨r, [SymbolTable.root]⟩) := by
    refine .walkFrom start fun phase other node s found sound => ?_
    cases phase with
    | enter => exact .lift fun _ => sound.enter found
    | exit => exact sound.exit node
  rw [mapError_eq_ok_iff.mp walked] at kept
  exact kept.resolution

theorem Sound.pass? {pass : Pass} (sound : r.Sound tree) (left : r.pass? tree pass = some after) :
    after.Sound tree := by
  cases pass with
  | register start => exact sound.registerFrom (toOption_eq_some_iff.mp left)
  | resolve mode start => exact (resolveFrom_sound sound).of_left? left

/-- What may be relied on after any passes. -/
structure Consistent (tree : SyntaxTree) (r : Resolution) : Prop where
  variables_once : ∀ scope : ScopeId, scope.index < r.table.scopes.size →
    ∃ symbols, r.table.symbolsIn scope = .ok symbols ∧
      ((symbols.filter fun symbol => symbol.kind.isVariable).map Symbol.name).Nodup
  reported_once : (r.diagnostics.toList.map Diagnostic.node).Nodup
  placed : ∀ d ∈ r.diagnostics, ∃ node, tree.node? d.node = some node ∧
    d.location = node.location ∧ node.kind ∈ d.code.subjects
  declared_unreported : ∀ id, tree.isDeclaratorId id = true → (r.symbolOf id).isSome = true →
    ∀ d ∈ r.diagnostics, d.node ≠ id

theorem Sound.consistent (sound : r.Sound tree) : r.Consistent tree where
  variables_once _ known := sound.tidy.variables_nodup known
  reported_once := sound.reports.once
  placed := sound.reports.placed
  declared_unreported id declarator declared d member same := by
    have none := sound.reports.undeclared d member (same ▸ declarator)
    rw [same] at none
    simp [none] at declared

end Resolution

/-- A new or a built resolution stays consistent whatever passes follow, on any tree and from any
nodes, and whether passes are interrupted or not. -/
theorem passes_consistent {tree : SyntaxTree} {name : String} {start r : Resolution}
    {passes : List Pass}
    (begun : start = .new tree name ∨ Resolution.build tree name = .ok start)
    (left : start.passes? tree passes = some r) : r.Consistent tree := by
  have sound : start.Sound tree := by
    rcases begun with rfl | built
    · exact .new tree name
    · exact (Resolution.Sound.new tree name).registerFrom built
  exact (Resolution.passes?_induction (fun _ _ _ => Resolution.Sound.pass?) sound left).consistent

/-- A block that lists a declaration statement twice, of which both declarators have one name. -/
def SyntaxTree.rebound : SyntaxTree where
  nodes := #[⟨.classReference "Nope", ⟨0, 4⟩⟩, ⟨.typeNode ⟨0⟩, ⟨0, 4⟩⟩,
    ⟨.variableDeclaratorId "x", ⟨5, 6⟩⟩, ⟨.variableDeclarator ⟨2⟩ none, ⟨5, 6⟩⟩,
    ⟨.variableDeclaratorId "x", ⟨8, 9⟩⟩, ⟨.variableDeclarator ⟨4⟩ none, ⟨8, 9⟩⟩,
    ⟨.variableDeclarators ⟨1⟩ [⟨3⟩, ⟨5⟩], ⟨0, 9⟩⟩, ⟨.block [⟨6⟩, ⟨6⟩], ⟨0, 9⟩⟩,
    ⟨.compilationUnit [⟨7⟩], ⟨0, 9⟩⟩]
  root := ⟨8⟩

/-- A pass that comes too early, then the registration of the tree and a pass, and then that of the
block once more and a pass. -/
def Pass.repeated : List Pass :=
  [.resolve .withLocals ⟨0⟩, .register ⟨8⟩, .resolve .withLocals ⟨8⟩, .register ⟨7⟩,
    .resolve .withLocals ⟨8⟩]

/-- The first pass is interrupted, but has checked the class reference by then. The second `x` is
reported; later it stands in a scope without an `x`, and is neither declared there nor reported
again. -/
theorem passes_consistent_rebound :
    ∃ r, (Resolution.new .rebound "unit").passes? .rebound Pass.repeated = some r ∧
      r.Consistent .rebound ∧ r.diagnostics.toList.map Diagnostic.node = [⟨4⟩] ∧
      r.symbolOf ⟨4⟩ = none := by
  obtain ⟨r, left⟩ : ∃ r, (Resolution.new .rebound "unit").passes? .rebound Pass.repeated =
      some r := Option.isSome_iff_exists.mp rfl
  have facts : ((Resolution.new .rebound "unit").passes? .rebound Pass.repeated).map (fun r =>
      (r.diagnostics.toList.map Diagnostic.node, r.symbolOf ⟨4⟩)) = some ([⟨4⟩], none) := rfl
  rw [left, Option.map_some, Option.some.injEq, Prod.mk.injEq] at facts
  exact ⟨r, left, passes_consistent (.inl rfl) left, facts⟩

end ScriptSemantics
