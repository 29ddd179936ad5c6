import ScriptSemantics.Proofs.Inheritance

/-!
# What becomes of a class

A class reference that is looked at gets a type or is reported, once and for all, and a class is judged
by the type of its reference. So a class has no superclass written, an unknown one, itself or another
class, and exactly the class or the reference is reported that is wrong.
-/
namespace ScriptSemantics

namespace Resolution

variable {tree : SyntaxTree} {r : Resolution} {id : NodeId} {node : Node}

def codesAt (r : Resolution) (id : NodeId) : List DiagnosticCode :=
  (r.diagnostics.toList.filter fun d => d.node = id).map Diagnostic.code

theorem codesAt_eq_nil_iff : r.codesAt id = [] ↔ ∀ d ∈ r.diagnostics.toList, d.node ≠ id := by
  simp [codesAt, List.filter_eq_nil_iff]

theorem Sound.codesAt_eq (sound : r.Sound tree) (found : tree.node? id = some node)
    (reported : ∃ d ∈ r.diagnostics.toList, d.node = id) :
    ∃ code : DiagnosticCode, node.kind ∈ code.subjects ∧ r.codesAt id = [code] := by
  obtain ⟨d, member, rfl⟩ := reported
  obtain ⟨other, foundOther, -, fits⟩ := sound.reports.placed d (Array.mem_toList_iff.mp member)
  obtain rfl : node = other := Option.some.inj (found.symm.trans foundOther)
  refine ⟨d.code, fits, ?_⟩
  obtain ⟨before, after, split⟩ := List.append_of_mem member
  have once := sound.reports.once
  rw [split, List.map_append, List.map_cons, List.nodup_append, List.nodup_cons] at once
  obtain ⟨-, ⟨notAfter, -⟩, apart⟩ := once
  have others {rest : List Diagnostic} (absent : d.node ∉ rest.map Diagnostic.node) :
      rest.filter (fun other => other.node = d.node) = [] :=
    List.filter_eq_nil_iff.mpr fun other inRest same =>
      absent (by simpa [← of_decide_eq_true same] using List.mem_map_of_mem inRest)
  have notBefore : d.node ∉ before.map Diagnostic.node := fun inBefore =>
    apart _ inBefore _ List.mem_cons_self rfl
  simp [codesAt, split, List.filter_append, others notBefore, others notAfter]

/-- If one code only fits a node, the node has that code or none. -/
theorem Sound.codesAt_eq_ite (sound : r.Sound tree) (found : tree.node? id = some node)
    {expected : DiagnosticCode} (only : ∀ code : DiagnosticCode, node.kind ∈ code.subjects →
      code = expected) {reason : Prop} [Decidable reason]
    (reported : (∃ d ∈ r.diagnostics.toList, d.node = id) ↔ reason) :
    r.codesAt id = if reason then [expected] else [] := by
  split
  next holds =>
    obtain ⟨code, fits, codes⟩ := sound.codesAt_eq found (reported.mpr holds)
    rw [codes, only code fits]
  next fails =>
    exact codesAt_eq_nil_iff.mpr fun d member same => fails (reported.mp ⟨d, member, same⟩)

/-- What is recorded and reported of a class with its own scope, by the reference to its superclass and
the type of the reference. -/
def JudgesClass (r : Resolution) (id : NodeId) (own : ScopeId) (superclass : Option NodeId)
    (recorded : Option ScopeId) : Prop :=
  match superclass with
  | none => recorded = none ∧ r.codesAt id = []
  | some reference =>
    match r.typeOf reference with
    | none => recorded = none ∧ r.codesAt reference = [.unknownType] ∧ r.codesAt id = []
    | some (.classType target) =>
      r.codesAt reference = [] ∧
        if target = own then recorded = none ∧ r.codesAt id = [.invalidSuperclass]
        else recorded = some target ∧ r.IsClassScope target ∧ r.codesAt id = []
    | some _ => False

end Resolution

namespace View

variable {tree : SyntaxTree} {b : Resolution} {mode : Mode} {v : View} {id : NodeId} {node : Node}
  {name : String}

/-- What is found out about a class reference. Until it is looked at it has no type and is not reported.
Afterwards it is one or the other. -/
structure Answers (v : View) (id : NodeId) : Prop where
  before : v.checked id = false → v.typeOf id = none ∧ ∀ d ∈ v.diagnostics, d.node ≠ id
  after : v.checked id = true → ((∃ d ∈ v.diagnostics, d.node = id) ↔ v.typeOf id = none)

theorem Answers.start : (start b).Answers id :=
  ⟨fun _ => ⟨rfl, fun _ member => nomatch member⟩, fun checked => nomatch checked⟩

/-- A reference without a type is reported once it is looked at, and one with a type never. -/
theorem Answers.reported_iff (answers : v.Answers id)
    (looked : v.typeOf id = none → v.checked id = true) :
    (∃ d ∈ v.diagnostics, d.node = id) ↔ v.typeOf id = none := by
  cases checked : v.checked id with
  | true => exact answers.after checked
  | false =>
    obtain ⟨untyped, -⟩ := answers.before checked
    exact absurd (checked.symm.trans (looked untyped)) Bool.false_ne_true

theorem Answers.resolveClassReference (answers : v.Answers id) (name : String)
    (location : Location) : (v.resolveClassReference b id name location).Answers id := by
  unfold View.resolveClassReference
  split
  · exact answers
  next untyped =>
    split
    · exact answers
    next unchecked =>
      obtain ⟨none, silent⟩ := answers.before (by simpa using unchecked)
      split
      · refine ⟨fun other => by simp [View.check, View.setType] at other, fun _ => ?_⟩
        simpa [View.check, View.setType] using silent
      · refine ⟨fun other => by simp [View.check, View.log] at other, fun _ => ?_⟩
        simp [View.check, View.log, none]

section Reference

variable (found : tree.node? id = some node) (is : node.production = .classReference name)
include found is

theorem Answers.advance (answers : v.Answers id) (event : Event) :
    (v.advance tree b mode event).Answers id := by
  by_cases here : event.node = id
  · obtain ⟨phase, _⟩ := event
    subst here
    simp only [View.advance, found]
    cases phase with
    | enter => simpa only [View.enter, is] using answers
    | exit =>
      simp only [View.exit, is]
      exact answers.resolveClassReference name node.location
  · have writes : Writes tree b event v (v.advance tree b mode event) := advance_writes
    have typeOf : (v.advance tree b mode event).typeOf id = v.typeOf id :=
      writes.typeOf_eq fun same => here (congrArg Event.node same)
    have reported := writes.reported_iff here
    refine ⟨fun unchecked => ?_, fun checked => ?_⟩
    · rw [writes.checked_eq here] at unchecked
      obtain ⟨none, silent⟩ := answers.before unchecked
      refine ⟨typeOf.trans none, fun d member isId => ?_⟩
      obtain ⟨old, wasThere, isId⟩ := reported.mp ⟨d, member, isId⟩
      exact silent old wasThere isId
    · rw [writes.checked_eq here] at checked
      rw [reported, typeOf]
      exact answers.after checked

theorem Answers.run (answers : v.Answers id) (events : List Event) :
    (events.foldl (View.advance tree b mode) v).Answers id :=
  List.foldlRecOn events (motive := fun w : View => w.Answers id) _ answers
    fun _ answers event _ => answers.advance found is event

/-- The analysis reports exactly the class references that it gives no type. -/
theorem analysed_reference (prepared : Prepared tree b) (reached : tree.Reachable id) (locals : Bool) :
    (∃ d ∈ (analysed tree b locals).diagnostics, d.node = id) ↔
      (analysed tree b locals).typeOf id = none := by
  have members : (View.members tree b).Answers id := Answers.start.run found is _
  have done : (View.members tree b).Done tree b .membersOnly id node :=
    foldl_done prepared reached found (start b)
  simp only [Done, is] at done
  refine Answers.reported_iff ?_ fun untyped => ?_
  · cases locals with
    | false => exact members
    | true => exact members.run found is _
  · rw [(analysed_types prepared locals).2] at untyped
    exact members_checked_mono locals (done.resolve_left (not_not.mpr untyped))

end Reference

end View

section Following

variable {tree : SyntaxTree} {b r : Resolution} {locals : Bool} (prepared : Prepared tree b)
  (follows : (View.analysed tree b locals).Follows tree b r) (sound : r.Sound tree) {id : NodeId}
  {node : Node} {name : String} (reached : tree.Reachable id) (found : tree.node? id = some node)
include prepared follows sound reached found

/-- A class reference is reported as unknown if it has no type, and not reported if it has one. -/
theorem codesAt_reference (is : node.production = .classReference name) :
    r.codesAt id = if r.typeOf id = none then [.unknownType] else [] := by
  have reported := View.analysed_reference found is prepared reached locals
  rw [← follows.rep.typeOf_eq prepared reached, ← follows.rep.diagnostics] at reported
  refine sound.codesAt_eq_ite found (fun code fits => ?_) reported
  rw [Node.kind_of is] at fits
  cases code <;> simp [DiagnosticCode.subjects, Production.kind] at fits ⊢

/-- A class is reported if its reference has the type of the class itself, and not otherwise. -/
theorem codesAt_class {superclass : Option NodeId} {body : List NodeId}
    (is : node.production = .classDeclaration name superclass body) :
    r.codesAt id = if superclass.bind r.typeOf = some (.classType (b.scopeAt id))
      then [.invalidSuperclass] else [] := by
  have reported := (View.analysed_superclass prepared reached found is locals).2
  have types := follows.rep.bind_typeOf_eq prepared superclass fun reference refers =>
    reached.child ⟨node, found, by simp [Node.children, is, Production.children, refers]⟩
  rw [← follows.rep.diagnostics, ← types] at reported
  refine sound.codesAt_eq_ite found (fun code fits => ?_) reported
  rw [Node.kind_of is] at fits
  cases code <;> simp [DiagnosticCode.subjects, Production.kind] at fits ⊢

/-- What is recorded of a class and reported of it and its reference goes by the type of the
reference. -/
theorem judgesClass {superclass : Option NodeId} {body : List NodeId}
    (is : node.production = .classDeclaration name superclass body) :
    r.JudgesClass id (b.scopeAt id) superclass
      ((View.analysed tree b locals).superclass (b.ownerAt id)) := by
  have recorded := (View.analysed_superclass prepared reached found is locals).1
  have codes := codesAt_class prepared follows sound reached found is
  cases superclass with
  | none =>
    have none : (View.analysed tree b locals).superclass (b.ownerAt id) = none :=
      Option.eq_none_iff_forall_ne_some.mpr fun target isTarget => by
        simpa using (recorded target).mp isTarget
    exact ⟨none, by simpa using codes⟩
  | some reference =>
    have link : tree.HasChild id reference :=
      ⟨node, found, by simp [Node.children, is, Production.children]⟩
    have reachedReference := reached.child link
    obtain ⟨below, called, foundBelow, isReference⟩ :=
      View.superclass_reference prepared found is rfl
    have typeOf := follows.rep.typeOf_eq prepared reachedReference
    have reported :=
      codesAt_reference prepared follows sound reachedReference foundBelow isReference
    have denotes := View.analysed_denotes prepared reachedReference foundBelow locals
    simp only [isReference, Production.Denotes] at denotes
    obtain ⟨refers, isRefers, typed⟩ := denotes
    rw [← typeOf] at typed
    simp only [Option.bind_some, ← typeOf] at recorded codes
    cases refers with
    | none =>
      have untyped : r.typeOf reference = none := typed
      simp only [untyped, reduceCtorEq, if_false, if_true, false_and, iff_false]
        at recorded codes reported
      simp only [Resolution.JudgesClass, untyped]
      exact ⟨Option.eq_none_iff_forall_ne_some.mpr recorded, reported, codes⟩
    | some target =>
      have isClass : r.typeOf reference = some (.classType target) := typed
      simp only [isClass, reduceCtorEq, if_false, Option.some.injEq, Ty.classType.injEq]
        at recorded codes reported
      simp only [Resolution.JudgesClass, isClass]
      refine ⟨reported, ?_⟩
      by_cases itself : target = b.scopeAt id
      · rw [if_pos itself] at codes ⊢
        refine ⟨Option.eq_none_iff_forall_ne_some.mpr fun other isOther => ?_, codes⟩
        obtain ⟨rfl, different⟩ := (recorded other).mp isOther
        exact different itself
      · rw [if_neg itself] at codes ⊢
        have isTarget := (recorded target).mpr ⟨rfl, itself⟩
        obtain ⟨symbol, kind⟩ := follows.grounded.superclasses _ _ isTarget
        exact ⟨isTarget, ⟨symbol, (follows.rep.scopeKind_eq target).trans kind⟩, codes⟩

end Following

/-- In an analysed tree every class falls in one of four cases. If no superclass is written, none is
recorded. If the reference to it has no type, none is recorded, and the reference is reported once, as
an unknown type, but not the class. If it has the type of the class itself, none is recorded and the
class is reported once. If it has the type of another class, that one is recorded and the class is not
reported. -/
theorem analyze_judges_classes {tree : SyntaxTree} (valid : tree.validate = .ok ())
    (settings : Settings) :
    ∃ r, analyze tree settings = .ok r ∧
      ∀ (id : NodeId) (node : Node) (name : String) (superclass : Option NodeId)
        (body : List NodeId), tree.Reachable id → tree.node? id = some node →
        node.production = .classDeclaration name superclass body →
        ∃ symbol x own recorded, r.symbolOf id = some symbol ∧ r.table.symbol symbol = .ok x ∧
          r.scopeOf id = .ok own ∧ x.kind = .classType own recorded ∧
          r.JudgesClass id own superclass recorded := by
  obtain ⟨b, r, -, prepared, analysed, follows⟩ :=
    exists_analysed (SyntaxTree.validate_eq_ok_iff.mp valid) settings
  have sound := Resolution.analyze_sound analysed
  refine ⟨r, analysed, fun id node name superclass body reached found is => ?_⟩
  obtain ⟨symbolOf, record⟩ := class_symbol prepared follows reached found is
  exact ⟨b.ownerAt id, _, b.scopeAt id, _, symbolOf, orDangling_eq_ok_iff.mpr record,
    follows.rep.scopeOf_eq_ok prepared reached, rfl,
    judgesClass prepared follows sound reached found is⟩

/-- The unit
`class A { } class B extends Nope { } void f() { class C extends A { class C extends C { } } }`. -/
def SyntaxTree.nestedClasses : SyntaxTree where
  nodes := #[⟨.classDeclaration "A" none [], ⟨0, 11⟩⟩, ⟨.classReference "Nope", ⟨28, 32⟩⟩,
    ⟨.classDeclaration "B" (some ⟨1⟩) [], ⟨12, 36⟩⟩, ⟨.classReference "A", ⟨64, 65⟩⟩,
    ⟨.classReference "C", ⟨84, 85⟩⟩, ⟨.classDeclaration "C" (some ⟨4⟩) [], ⟨68, 89⟩⟩,
    ⟨.classDeclaration "C" (some ⟨3⟩) [⟨5⟩], ⟨48, 91⟩⟩, ⟨.block [⟨6⟩], ⟨46, 93⟩⟩,
    ⟨.typeOrVoid none, ⟨37, 41⟩⟩, ⟨.functionDeclaration "f" (some ⟨8⟩) [] ⟨7⟩, ⟨37, 93⟩⟩,
    ⟨.compilationUnit [⟨0⟩, ⟨2⟩, ⟨9⟩], ⟨0, 93⟩⟩]
  root := ⟨10⟩

/-- The four cases. The inner `C` finds itself, not the class of the same name around it, and the two of
them are walked again with the body. -/
theorem analyze_judges_classes_nested :
    ∃ r, analyze SyntaxTree.nestedClasses Settings.standard = .ok r ∧
      r.diagnostics.toList.map (fun d => (d.node, d.code)) =
        [(⟨1⟩, .unknownType), (⟨5⟩, .invalidSuperclass)] ∧
      r.JudgesClass ⟨0⟩ ⟨1⟩ none none ∧ r.JudgesClass ⟨2⟩ ⟨2⟩ (some ⟨1⟩) none ∧
      r.JudgesClass ⟨6⟩ ⟨5⟩ (some ⟨3⟩) (some ⟨1⟩) ∧ r.JudgesClass ⟨5⟩ ⟨6⟩ (some ⟨4⟩) none := by
  obtain ⟨r, analysed, each⟩ :=
    @analyze_judges_classes SyntaxTree.nestedClasses rfl Settings.standard
  have facts : (analyze SyntaxTree.nestedClasses Settings.standard).map (fun r =>
        (r.diagnostics.toList.map (fun d => (d.node, d.code)),
          [⟨0⟩, ⟨2⟩, ⟨6⟩, ⟨5⟩].map fun id : NodeId => ((r.symbolOf id).bind fun symbol =>
            (r.table.symbols[symbol.index]?).map Symbol.kind))) =
      .ok ([(⟨1⟩, .unknownType), (⟨5⟩, .invalidSuperclass)],
        [some (.classType ⟨1⟩ none), some (.classType ⟨2⟩ none),
          some (.classType ⟨5⟩ (some ⟨1⟩)), some (.classType ⟨6⟩ none)]) := rfl
  rw [analysed] at facts
  simp only [Except.map, Except.ok.injEq, Prod.mk.injEq, List.map_cons, List.map_nil, List.cons.injEq,
    and_true] at facts
  obtain ⟨reports, kindA, kindB, kindOuter, kindInner⟩ := facts
  have judged {id : NodeId} {node : Node} {name : String} {superclass : Option NodeId}
      {body : List NodeId} {own : ScopeId} {recorded : Option ScopeId}
      (reached : SyntaxTree.nestedClasses.Reachable id)
      (found : SyntaxTree.nestedClasses.node? id = some node)
      (is : node.production = .classDeclaration name superclass body)
      (kind : ((r.symbolOf id).bind fun symbol =>
        (r.table.symbols[symbol.index]?).map Symbol.kind) = some (.classType own recorded)) :
      r.JudgesClass id own superclass recorded := by
    obtain ⟨symbol, x, scope, superclass', isSymbol, foundSymbol, -, isKind, judged⟩ :=
      each id node name superclass body reached found is
    rw [isSymbol, Option.bind_some, orDangling_eq_ok_iff.mp foundSymbol, Option.map_some, isKind]
      at kind
    cases kind
    exact judged
  have function : SyntaxTree.nestedClasses.Reachable ⟨9⟩ := .child .root ⟨_, rfl, by decide⟩
  have region : SyntaxTree.nestedClasses.Reachable ⟨7⟩ := .child function ⟨_, rfl, by decide⟩
  have outer : SyntaxTree.nestedClasses.Reachable ⟨6⟩ := .child region ⟨_, rfl, by decide⟩
  have inner : SyntaxTree.nestedClasses.Reachable ⟨5⟩ := .child outer ⟨_, rfl, by decide⟩
  exact ⟨r, analysed, reports, judged (.child .root ⟨_, rfl, by decide⟩) rfl rfl kindA,
    judged (.child .root ⟨_, rfl, by decide⟩) rfl rfl kindB, judged outer rfl rfl kindOuter,
    judged inner rfl rfl kindInner⟩

end ScriptSemantics
