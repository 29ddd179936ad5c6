import ScriptSemantics.Proofs.Renumbering

/-!
# Resolving again

After an analysis with locals everything that a pass finds out at a node is found out, at every node
and for either mode. A view of which this holds stands still at every event, and a view is
represented by one resolution only, so a further run of the pass gives back the resolution that it
was given.
-/
namespace ScriptSemantics

/-- A run of the resolving pass from a node. A run over the whole tree starts at the root. -/
structure Resolving where
  mode : Mode
  start : NodeId
  deriving DecidableEq, Repr

/-- Runs of the resolving pass one after another. The first that fails is the last. -/
def Resolution.resolveAll (r : Resolution) (tree : SyntaxTree) (runs : List Resolving) : Step :=
  runs.foldlM (fun r run => r.resolveFrom tree run.mode run.start) r

theorem Symbol.rename_self : Symbol.rename (fun id => id) = fun symbol => symbol := by
  funext symbol
  obtain ⟨id, name, kind, enclosing, node, location⟩ := symbol
  cases kind <;> simp [Symbol.rename, SymbolKind.rename]

namespace View

variable {tree : SyntaxTree} {b r r' : Resolution} {v w : View} {mode : Mode} {id : NodeId}
  {node : Node}

theorem Done.of_withLocals (done : v.Done tree b .withLocals id node) (mode : Mode) :
    v.Done tree b mode id node := by
  obtain ⟨production, location⟩ := node
  cases production with
  | variableDeclarators type declarators => exact fun _ => done (by simp [Resolution.typesAt])
  | variableDeclaratorId name => exact fun _ => done (by simp [Resolution.declaresAt])
  | typeOrVoid type => cases type <;> exact done
  | _ => exact done

theorem Agrees.refl (v : View) : Agrees v v := ⟨rfl, rfl, rfl, .refl _, rfl, rfl, rfl, rfl, .refl _⟩

/-- What is done at a node does not depend on the order of declarations and diagnostics. -/
theorem Agrees.done (agree : Agrees v w) (done : w.Done tree b mode id node) :
    v.Done tree b mode id node := by
  have declared (id : NodeId) : id ∈ v.declared ↔ id ∈ w.declared := agree.declared.mem_iff
  unfold Done at done ⊢
  simpa only [declared, agree.typeOf, agree.checked, agree.variableType, agree.parameters,
    agree.returnType] using done

/-- After an analysis with locals no event finds out anything new. -/
theorem advance_analysed (prepared : Prepared tree b) {root : Node}
    (found : tree.node? tree.root = some root) (unit : root.kind = .compilationUnit) {event : Event}
    (reached : tree.Reachable event.node) (mode : Mode) :
    (analysed tree b true).advance tree b mode event = analysed tree b true := by
  obtain ⟨node, foundNode⟩ := prepared.formed.reachable_node reached
  have once : (atOnce tree b).Done tree b .withLocals event.node node :=
    foldl_done prepared reached foundNode (start b)
  have done := (analysed_agrees_atOnce prepared found unit).done once
  exact (done.of_withLocals mode).advance_eq_self foundNode event.phase

theorem renumber_self (nodup : v.declared.Nodup) (id : SymbolId) : renumber v v b id = id := by
  rcases idOf_cases (b := b) nodup id with old | ⟨node, member, rfl⟩ | beyond
  · exact renumber_old old
  · exact renumber_idOf member
  · exact renumber_beyond beyond

/-- The scopes, symbols, types, facts and diagnostics of a resolution are determined by its view. -/
theorem Follows.unique (prepared : Prepared tree b) (follows : v.Follows tree b r)
    (follows' : v.Follows tree b r') : r' = r := by
  have renames := (Agrees.refl v).renames prepared follows follows'
  have facts := (Agrees.refl v).factsOf_eq prepared follows follows'
  have same : renumber v v b = fun id => id := funext (renumber_self follows.grounded.nodup)
  rw [same] at renames facts
  have symbols : r'.table.symbols = r.table.symbols := by
    apply Array.ext_getElem?
    intro i
    simpa [Symbol.rename_self] using renames.symbols ⟨i⟩
  have scopes : r'.table.scopes = r.table.scopes := by
    apply Array.ext_getElem?
    intro i
    simpa using renames.scopes i
  have known : r'.facts = r.facts := by
    apply Array.ext
    · rw [follows.rep.size, follows'.rep.size]
    · intro i here here'
      simpa [Resolution.factsOf, here, here'] using facts ⟨i⟩
  have diagnostics : r'.diagnostics = r.diagnostics := by
    apply Array.toList_inj.mp
    rw [follows.rep.diagnostics, follows'.rep.diagnostics]
  obtain ⟨⟨_, _⟩, _, _, _⟩ := r
  obtain ⟨⟨_, _⟩, _, _, _⟩ := r'
  have types := renames.types
  simp only at symbols scopes known diagnostics types
  subst symbols scopes known diagnostics types
  rfl

/-- A run that finds its view standing still gives back its resolution. -/
theorem Follows.resolveFrom_eq_self (prepared : Prepared tree b) (follows : v.Follows tree b r)
    (suits : tree.Suits mode) (reached : tree.Reachable id)
    (still : ∀ event, tree.Reachable event.node → v.advance tree b mode event = v) :
    r.resolveFrom tree mode id = .ok r := by
  obtain ⟨after, resolved, last⟩ := follows.resolveFrom prepared suits reached
  have unmoved : (tree.events id).foldl (View.advance tree b mode) v = v := by
    refine List.foldlRecOn _ (motive := fun w : View => w = v) _ rfl ?_
    rintro w rfl event member
    exact still event (reached.within ((prepared.formed.mem_events reached).mp member))
  rw [unmoved] at last
  rw [resolved, follows.unique prepared last]

end View

variable {tree : SyntaxTree} {root : Node}

/-- Once a unit is analysed with its locals, runs of the resolving pass from reachable nodes, in
whatever modes and however many, succeed and leave the whole result as it is. -/
theorem analyze_settled (valid : tree.validate = .ok ())
    (found : tree.node? tree.root = some root) (unit : root.kind = .compilationUnit)
    (settings : Settings) (locals : settings.enterLocalVariables = true) (runs : List Resolving)
    (reached : ∀ run ∈ runs, tree.Reachable run.start) :
    ∃ r, analyze tree settings = .ok r ∧ r.resolveAll tree runs = .ok r := by
  obtain ⟨b, r, -, prepared, analysed, follows⟩ :=
    exists_analysed (SyntaxTree.validate_eq_ok_iff.mp valid) settings
  rw [locals] at follows
  have suits (mode : Mode) : tree.Suits mode := by
    refine .inr fun node foundNode => ?_
    obtain rfl : root = node := Option.some.inj (found.symm.trans foundNode)
    simp [unit]
  refine ⟨r, analysed, ?_⟩
  unfold Resolution.resolveAll
  induction runs with
  | nil => rfl
  | cons run runs ih =>
    have first : r.resolveFrom tree run.mode run.start = .ok r :=
      follows.resolveFrom_eq_self prepared (suits _) (reached run (by simp)) fun event inside =>
        View.advance_analysed prepared found unit inside _
    rw [List.foldlM_cons, first, ok_bind]
    exact ih fun other member => reached other (by simp [member])

/-- The unit `class A extends A { int x, x; Nope y; }`. -/
def SyntaxTree.faulty : SyntaxTree where
  nodes := #[
    ⟨.classReference "A", ⟨16, 17⟩⟩, ⟨.primitiveType .int, ⟨20, 23⟩⟩, ⟨.typeNode ⟨1⟩, ⟨20, 23⟩⟩,
    ⟨.variableDeclaratorId "x", ⟨24, 25⟩⟩, ⟨.variableDeclarator ⟨3⟩ none, ⟨24, 25⟩⟩,
    ⟨.variableDeclaratorId "x", ⟨27, 28⟩⟩, ⟨.variableDeclarator ⟨5⟩ none, ⟨27, 28⟩⟩,
    ⟨.variableDeclarators ⟨2⟩ [⟨4⟩, ⟨6⟩], ⟨20, 28⟩⟩,
    ⟨.classReference "Nope", ⟨30, 34⟩⟩, ⟨.typeNode ⟨8⟩, ⟨30, 34⟩⟩,
    ⟨.variableDeclaratorId "y", ⟨35, 36⟩⟩, ⟨.variableDeclarator ⟨10⟩ none, ⟨35, 36⟩⟩,
    ⟨.variableDeclarators ⟨9⟩ [⟨11⟩], ⟨30, 36⟩⟩,
    ⟨.classDeclaration "A" (some ⟨0⟩) [⟨7⟩, ⟨12⟩], ⟨0, 38⟩⟩, ⟨.compilationUnit [⟨13⟩], ⟨0, 38⟩⟩]
  root := ⟨14⟩

/-- A repeated field, an unknown type and a class that extends itself are reported once, however
often the unit, the class or a part of it is resolved again. -/
theorem analyze_settled_faulty :
    ∃ r, analyze SyntaxTree.faulty Settings.standard = .ok r ∧
      r.resolveAll SyntaxTree.faulty [⟨.withLocals, ⟨14⟩⟩, ⟨.membersOnly, ⟨13⟩⟩, ⟨.withLocals, ⟨7⟩⟩,
        ⟨.membersOnly, ⟨14⟩⟩] = .ok r ∧
      r.diagnostics.toList.map Diagnostic.node = [⟨5⟩, ⟨8⟩, ⟨13⟩] := by
  have unit : SyntaxTree.faulty.Reachable ⟨14⟩ := .root
  have ofClass : SyntaxTree.faulty.Reachable ⟨13⟩ := unit.child ⟨_, rfl, by decide⟩
  have fields : SyntaxTree.faulty.Reachable ⟨7⟩ := ofClass.child ⟨_, rfl, by decide⟩
  obtain ⟨r, analysed, again⟩ := @analyze_settled SyntaxTree.faulty _ rfl rfl rfl Settings.standard
    rfl [⟨.withLocals, ⟨14⟩⟩, ⟨.membersOnly, ⟨13⟩⟩, ⟨.withLocals, ⟨7⟩⟩, ⟨.membersOnly, ⟨14⟩⟩]
    (by simpa using ⟨unit, ofClass, fields, unit⟩)
  have reports : (analyze SyntaxTree.faulty Settings.standard).map
      (fun r => r.diagnostics.toList.map Diagnostic.node) = .ok [⟨5⟩, ⟨8⟩, ⟨13⟩] := rfl
  rw [analysed] at reports
  exact ⟨r, analysed, again, Except.ok.inj reports⟩

end ScriptSemantics
