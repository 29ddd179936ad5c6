import Mathlib.Logic.Relation
import ScriptSemantics.Proofs.Consistency
import ScriptSemantics.Proofs.Denotations
import ScriptSemantics.Proofs.SymbolNodes

/-!
# Superclasses

A class is looked at once, when the walk leaves it and the reference to its superclass has a type. It
gets the class that the reference names as its superclass, unless that is the class itself, which is
reported. Nothing else is refused: longer circles of superclasses are there exactly if they are written.
-/
namespace ScriptSemantics

open Relation (TransGen)

namespace Resolution

/-- A class has a superclass: the scope that it extends belongs to another symbol. -/
def Extends (r : Resolution) (symbol other : SymbolId) : Prop :=
  ∃ x scope y, r.table.symbol symbol = .ok x ∧ x.kind.superclass = some scope ∧
    r.table.scope scope = .ok y ∧ y.kind.owner? = some other

/-- A class is written with a superclass: a lookup of the name in its reference finds another symbol. -/
def Names (r : Resolution) (tree : SyntaxTree) (symbol other : SymbolId) : Prop :=
  ∃ x node name reference body below called scope, r.table.symbol symbol = .ok x ∧
    tree.node? x.node = some node ∧ node.production = .classDeclaration name (some reference) body ∧
    tree.node? reference = some below ∧ below.production = .classReference called ∧
    r.scopeOf reference = .ok scope ∧ r.table.lookupClass scope called = .ok (some other)

theorem Extends.of_eq_ok {r : Resolution} {symbol other : SymbolId} {x : Symbol} {scope : ScopeId}
    {y : Scope} (isSymbol : r.table.symbol symbol = .ok x) (isScope : r.table.scope scope = .ok y)
    (superclass : x.kind.superclass = some scope) (owner : y.kind.owner? = some other) :
    r.Extends symbol other :=
  ⟨x, scope, y, isSymbol, superclass, isScope, owner⟩

theorem Extends.isClass {r : Resolution} {symbol other : SymbolId} (links : r.Extends symbol other) :
    ∃ x, r.table.symbol symbol = .ok x ∧ x.kind.isClass = true := by
  obtain ⟨x, scope, y, isSymbol, isSuperclass, -⟩ := links
  refine ⟨x, isSymbol, ?_⟩
  cases kind : x.kind <;> simp [kind, SymbolKind.superclass, SymbolKind.isClass] at isSuperclass ⊢

theorem Names.declared {r : Resolution} {tree : SyntaxTree} {symbol other : SymbolId}
    (names : r.Names tree symbol other) : ∃ x node name superclass body,
      r.table.symbol symbol = .ok x ∧ tree.node? x.node = some node ∧
        node.production = .classDeclaration name superclass body := by
  obtain ⟨x, node, name, reference, body, below, called, scope, isSymbol, found, is, -⟩ := names
  exact ⟨x, node, name, some reference, body, isSymbol, found, is⟩

theorem analyze_sound {tree : SyntaxTree} {settings : Settings} {r : Resolution}
    (analysed : analyze tree settings = .ok r) : r.Sound tree := by
  -- A step that gives a result has kept what it left behind.
  have ofResult {step : Step} {after : Resolution} (kept : step.Leaves (Sound tree))
      (done : step.result = .ok after) : after.Sound tree := by
    rw [mapError_eq_ok_iff.mp done] at kept
    exact kept
  unfold analyze at analysed
  split at analysed
  · cases analysed
  cases built : build tree settings.namespaceName with
  | error fault => simp [built] at analysed
  | ok b =>
    simp only [built, lift_ok, ok_bind] at analysed
    obtain ⟨members, areMembers, analysed⟩ := bind_eq_ok_iff.mp analysed
    have begun : b.Sound tree := (Sound.new tree settings.namespaceName).registerFrom built
    have sound : members.Sound tree := ofResult (resolveFrom_sound begun) areMembers
    split at analysed
    · refine ofResult (.bind_lift fun regions _ => ?_) analysed
      exact .foldlM sound fun _ kept _ _ => resolveFrom_sound kept
    · cases analysed
      exact sound

end Resolution

namespace View

variable {tree : SyntaxTree} {b : Resolution} {mode : Mode} {v : View} {id : NodeId} {node : Node}
  {name : String} {superclass : Option NodeId} {body : List NodeId}

/-- What is found out about a class. Until it is looked at it has no superclass and is not reported.
Afterwards its reference has the type of a class, which is the superclass unless it is the class
itself. -/
structure Judges (v : View) (b : Resolution) (id : NodeId) (superclass : Option NodeId) : Prop where
  before : v.checked id = false →
    v.superclass (b.ownerAt id) = none ∧ ∀ d ∈ v.diagnostics, d.node ≠ id
  after : v.checked id = true → ∃ target, superclass.bind v.typeOf = some (.classType target) ∧
    v.superclass (b.ownerAt id) = (if target = b.scopeAt id then none else some target) ∧
    ((∃ d ∈ v.diagnostics, d.node = id) ↔ target = b.scopeAt id)

theorem Judges.start : (start b).Judges b id superclass :=
  ⟨fun _ => ⟨rfl, fun _ member => nomatch member⟩, fun checked => nomatch checked⟩

/-- Leaving a class looks at it if its reference has the type of a class. -/
theorem Judges.completeClass (judges : v.Judges b id superclass) (name : String)
    (location : Location) :
    (v.completeClass b id name location superclass).Judges b id superclass := by
  unfold View.completeClass
  split
  next target isTarget =>
    split
    · exact judges
    next unchecked =>
      obtain ⟨none, silent⟩ := judges.before (by simpa using unchecked)
      split
      next self =>
        refine ⟨fun other => by simp [View.check, View.log] at other, fun _ => ?_⟩
        exact ⟨target, isTarget, by simp [self, View.check, View.log, none],
          by simp [self, View.check, View.log]⟩
      next other =>
        refine ⟨fun other => by simp [View.check, View.setSuperclass] at other, fun _ => ?_⟩
        exact ⟨target, isTarget, by simp [other, View.setSuperclass],
          by simpa [other, View.check, View.setSuperclass] using silent⟩
  next => exact judges

theorem typeOf_classReference_kept {reference : NodeId} {below : Node} {called : String} {type : Ty}
    (found : tree.node? reference = some below) (is : below.production = .classReference called)
    (typed : v.typeOf reference = some type) (event : Event) :
    (v.advance tree b mode event).typeOf reference = some type := by
  by_cases exits : event = ⟨.exit, reference⟩
  · subst exits
    simp only [View.advance, found, View.exit, is, resolveClassReference, typed, Option.isSome_some,
      if_true]
  · exact (advance_writes.typeOf_eq exits).trans typed

/-- What the pass over the members has looked at stays looked at. -/
theorem members_checked_mono (locals : Bool) (checked : (members tree b).checked id = true) :
    (analysed tree b locals).checked id = true := by
  cases locals with
  | false => exact checked
  | true =>
    exact List.foldlRecOn _ (motive := fun w : View => w.checked id = true) _ checked
      fun _ before _ _ => advance_writes.checked_mono before

/-- A node is reported at an event elsewhere only if it was before. -/
theorem Writes.reported_iff {event : Event} {w : View} (writes : Writes tree b event v w)
    (elsewhere : event.node ≠ id) :
    (∃ d ∈ w.diagnostics, d.node = id) ↔ ∃ d ∈ v.diagnostics, d.node = id := by
  obtain ⟨added, diagnostics, nodes⟩ := writes.diagnostics_eq
  rw [diagnostics]
  constructor
  · rintro ⟨d, member, isId⟩
    rcases List.mem_append.mp member with old | new
    · exact ⟨d, old, isId⟩
    · exact absurd ((nodes d new).symm.trans isId) elsewhere
  · rintro ⟨d, member, isId⟩
    exact ⟨d, List.mem_append_left _ member, isId⟩

section Class

variable (prepared : Prepared tree b) (reached : tree.Reachable id)
  (found : tree.node? id = some node)
  (is : node.production = .classDeclaration name superclass body)
include prepared reached found is

omit reached in
theorem superclass_reference {reference : NodeId} (refers : superclass = some reference) :
    ∃ below called, tree.node? reference = some below ∧
      below.production = .classReference called := by
  subst refers
  obtain ⟨below, foundBelow, admitted⟩ := prepared.formed.child_of_slot found reference
    (by simp [is, Production.children]) (by simp [is, Production.slotOf?]; rfl)
  obtain ⟨production, location⟩ := below
  cases production <;> cases admitted
  exact ⟨_, _, foundBelow, rfl⟩

theorem Judges.advance (judges : v.Judges b id superclass) {event : Event}
    (reachedEvent : tree.Reachable event.node) :
    (v.advance tree b mode event).Judges b id superclass := by
  by_cases here : event.node = id
  · obtain ⟨phase, _⟩ := event
    subst here
    simp only [View.advance, found]
    cases phase with
    | enter => simpa only [View.enter, is] using judges
    | exit =>
      simp only [View.exit, is]
      exact judges.completeClass name node.location
  · have writes : Writes tree b event v (v.advance tree b mode event) := advance_writes
    have same : (v.advance tree b mode event).superclass (b.ownerAt id) =
        v.superclass (b.ownerAt id) := by
      refine writes.superclass_eq fun _ isClass owned => here ?_
      exact prepared.ownerAt_inj reachedEvent reached (.inr isClass)
        (.inr ⟨node, found, Node.kind_of is⟩) owned
    have reported := writes.reported_iff here
    refine ⟨fun unchecked => ?_, fun checked => ?_⟩
    · rw [writes.checked_eq here] at unchecked
      obtain ⟨none, silent⟩ := judges.before unchecked
      refine ⟨same.trans none, fun d member isId => ?_⟩
      obtain ⟨old, wasThere, isId⟩ := reported.mp ⟨d, member, isId⟩
      exact silent old wasThere isId
    · rw [writes.checked_eq here] at checked
      obtain ⟨target, isTarget, isSuperclass, isReported⟩ := judges.after checked
      refine ⟨target, ?_, same.trans isSuperclass, reported.trans isReported⟩
      obtain ⟨reference, refers, typed⟩ := Option.bind_eq_some_iff.mp isTarget
      obtain ⟨below, called, foundBelow, isReference⟩ :=
        superclass_reference prepared found is refers
      rw [refers]
      exact typeOf_classReference_kept foundBelow isReference typed event

theorem Judges.run (judges : v.Judges b id superclass) (events : List Event)
    (reachedEvents : ∀ event ∈ events, tree.Reachable event.node) :
    (events.foldl (View.advance tree b mode) v).Judges b id superclass :=
  List.foldlRecOn events (motive := fun w : View => w.Judges b id superclass) _ judges
    fun _ judges event member => judges.advance prepared reached found is (reachedEvents event member)

/-- The analysis judges a class by the type of the reference to its superclass. -/
theorem analysed_judges (locals : Bool) : (analysed tree b locals).Judges b id superclass := by
  have members : (members tree b).Judges b id superclass :=
    Judges.start.run prepared reached found is _ (reachable_of_mem_events prepared)
  cases locals with
  | false => exact members
  | true => exact members.run prepared reached found is _ (reachable_of_mem_regions prepared)

/-- The analysis looks at every class whose reference has the type of a class. -/
theorem analysed_checked (locals : Bool) {target : ScopeId}
    (typed : superclass.bind (analysed tree b locals).typeOf = some (.classType target)) :
    (analysed tree b locals).checked id = true := by
  have done : (members tree b).Done tree b .membersOnly id node :=
    foldl_done prepared reached found (start b)
  rw [(analysed_types prepared locals).2] at typed
  simp only [Done, is] at done
  exact members_checked_mono locals (done target typed)

/-- A class has the class that its reference has the type of as its superclass, unless it is that class
itself, which is reported. -/
theorem analysed_superclass (locals : Bool) :
    (∀ target, (analysed tree b locals).superclass (b.ownerAt id) = some target ↔
      superclass.bind (analysed tree b locals).typeOf = some (.classType target) ∧
        target ≠ b.scopeAt id) ∧
    ((∃ d ∈ (analysed tree b locals).diagnostics, d.node = id) ↔
      superclass.bind (analysed tree b locals).typeOf = some (.classType (b.scopeAt id))) := by
  have judges := analysed_judges prepared reached found is locals
  have looked := fun target => @analysed_checked _ _ _ _ _ _ _ prepared reached found is locals target
  cases checked : (analysed tree b locals).checked id with
  | false =>
    obtain ⟨none, silent⟩ := judges.before checked
    have untyped (target : ScopeId) :
        superclass.bind (analysed tree b locals).typeOf ≠ some (.classType target) := fun typed =>
      Bool.false_ne_true (checked.symm.trans (looked target typed))
    constructor
    · intro target
      simp [none, untyped]
    · simpa [untyped] using silent
  | true =>
    obtain ⟨target, isTarget, isSuperclass, isReported⟩ := judges.after checked
    rw [isTarget, isSuperclass, isReported]
    constructor
    · intro other
      split
      next self =>
        simp only [reduceCtorEq, Option.some.injEq, Ty.classType.injEq, false_iff, not_and, not_not]
        exact fun same => same ▸ self
      next notSelf =>
        simp only [Option.some.injEq, Ty.classType.injEq, iff_self_and]
        exact fun same => same ▸ notSelf
    · simp

end Class

end View

section Prepared

variable {tree : SyntaxTree} {b : Resolution} (prepared : Prepared tree b)
include prepared

theorem Prepared.classScope_inj {symbol : SymbolId} {first second : ScopeId}
    (isFirst : b.scopeKind first = some (.classScope symbol))
    (isSecond : b.scopeKind second = some (.classScope symbol)) : first = second := by
  have own {scope : ScopeId} (isScope : b.scopeKind scope = some (.classScope symbol)) :
      ∃ x, b.table.symbols[symbol.index]? = some x ∧ x.kind.ownScope = some scope := by
    obtain ⟨s, found, kind⟩ := Option.map_eq_some_iff.mp isScope
    obtain ⟨x, foundSymbol, own, -⟩ := prepared.registered.owned.owner _ s symbol found
      (by rw [kind]; rfl)
    exact ⟨x, foundSymbol, own⟩
  obtain ⟨x, foundX, ownX⟩ := own isFirst
  obtain ⟨y, foundY, ownY⟩ := own isSecond
  obtain rfl : x = y := Option.some.inj (foundX.symm.trans foundY)
  exact Option.some.inj (ownX.symm.trans ownY)

/-- A lookup finds the class that owns the scope that the name refers to. -/
theorem Prepared.lookupClass_eq_some_iff {id : NodeId} (reached : tree.Reachable id) (called : String)
    (symbol : SymbolId) : b.table.lookupClass (b.scopeAt id) called = .ok (some symbol) ↔
      ∃ own, b.classAt (b.scopeAt id) called = some own ∧
        b.scopeKind own = some (.classScope symbol) := by
  have known := prepared.registered.scope_known prepared.formed reached
  have owned {symbol : SymbolId}
      (read : b.table.lookupClass (b.scopeAt id) called = .ok (some symbol)) :
      ∃ own, b.classAt (b.scopeAt id) called = some own ∧
        b.scopeKind own = some (.classScope symbol) := by
    obtain ⟨x, foundX, isClass⟩ :=
      prepared.registered.ordered.lookupClass_isClass prepared.registered.nested known read
    obtain ⟨reachedX, symbolOf, node, found, ⟨superclass, body, is, kind⟩ | ⟨_, _, _, -, kind⟩⟩ :=
      prepared.registered.symbol prepared.formed foundX
    · obtain ⟨isOwner, isScope, -⟩ :=
        prepared.registered.class_found prepared.formed reachedX found is
      obtain rfl : symbol = b.ownerAt x.node := Option.some.inj (symbolOf.symm.trans isOwner)
      exact ⟨b.scopeAt x.node, by simp [Resolution.classAt, read, foundX, kind, SymbolKind.ownScope],
        isScope⟩
    · simp [kind, SymbolKind.isClass] at isClass
  refine ⟨owned, ?_⟩
  rintro ⟨own, refers, isScope⟩
  obtain ⟨found, read⟩ :=
    prepared.registered.ordered.lookupClass_isOk prepared.registered.nested known called
  cases found with
  | none => simp [Resolution.classAt, read] at refers
  | some other =>
    obtain ⟨otherOwn, refersOther, isOther⟩ := owned read
    obtain rfl : own = otherOwn := Option.some.inj (refers.symm.trans refersOther)
    obtain rfl : symbol = other := by simpa [isScope] using isOther
    exact read

end Prepared

section Following

variable {tree : SyntaxTree} {b r : Resolution} {locals : Bool} (prepared : Prepared tree b)
  (follows : (View.analysed tree b locals).Follows tree b r)
include prepared follows

/-- The symbol that is declared at a class is the owner of the scope of the class. -/
theorem class_of_symbol {symbol : SymbolId} {x : Symbol} (found : r.table.symbol symbol = .ok x)
    {node : Node} {name : String} {superclass : Option NodeId} {body : List NodeId}
    (foundNode : tree.node? x.node = some node)
    (is : node.production = .classDeclaration name superclass body) :
    tree.Reachable x.node ∧ symbol = b.ownerAt x.node := by
  have declares := (symbolOf_iff_node prepared follows).mpr ⟨x, orDangling_eq_ok_iff.mp found, rfl⟩
  rcases (symbolOf_eq_some_iff prepared follows).mp declares with ⟨member, -⟩ | old
  · obtain ⟨other, _, foundOther, isVariable⟩ := follows.grounded.named _ member
    obtain rfl : node = other := Option.some.inj (foundNode.symm.trans foundOther)
    rw [is] at isVariable
    cases isVariable
  · obtain ⟨reached, -⟩ := prepared.registered.symbolOf_cases prepared.formed old
    have isOwner := (prepared.registered.class_found prepared.formed reached foundNode is).1
    exact ⟨reached, Option.some.inj (old.symm.trans isOwner)⟩

section Class

variable {id : NodeId} {node : Node} {name : String} {superclass : Option NodeId}
  {body : List NodeId} (reached : tree.Reachable id) (found : tree.node? id = some node)
  (is : node.production = .classDeclaration name superclass body)
include reached found is

/-- A class is written with the class that owns the scope which its reference has the type of. -/
theorem names_iff_owner (other : SymbolId) : r.Names tree (b.ownerAt id) other ↔
    ∃ target, superclass.bind (View.analysed tree b locals).typeOf = some (.classType target) ∧
      b.scopeKind target = some (.classScope other) := by
  have record := orDangling_eq_ok_iff.mpr (class_symbol prepared follows reached found is).2
  -- A reference has the type of what its name refers to after registration.
  have reading {reference : NodeId} {below : Node} {called : String}
      (refers : superclass = some reference) (foundBelow : tree.node? reference = some below)
      (isReference : below.production = .classReference called) :
      r.scopeOf reference = .ok (b.scopeAt reference) ∧
        (View.analysed tree b locals).typeOf reference =
          (b.classAt (b.scopeAt reference) called).map .classType ∧
        (r.table.lookupClass (b.scopeAt reference) called = .ok (some other) ↔
          ∃ own, b.classAt (b.scopeAt reference) called = some own ∧
            b.scopeKind own = some (.classScope other)) := by
    have reachedBelow : tree.Reachable reference := reached.child
      ⟨node, found, by simp [Node.children, is, Production.children, refers]⟩
    have denotes := View.analysed_denotes prepared reachedBelow foundBelow locals
    simp only [isReference, Production.Denotes] at denotes
    obtain ⟨_, rfl, typed⟩ := denotes
    have same := follows.rep.completes.lookupClass_eq follows.rep.ordered prepared.registered.ordered
      prepared.registered.nested prepared.registered.distinct
      (prepared.registered.scope_known prepared.formed reachedBelow) called
    exact ⟨follows.rep.scopeOf_eq_ok prepared reachedBelow, typed,
      same ▸ prepared.lookupClass_eq_some_iff reachedBelow called other⟩
  constructor
  · rintro ⟨x, above, _, reference, _, below, called, scope, isSymbol, foundAbove, isAbove, foundBelow,
      isReference, isScope, lookup⟩
    obtain rfl := Except.ok.inj (record.symm.trans isSymbol)
    obtain rfl : node = above := Option.some.inj (found.symm.trans foundAbove)
    obtain ⟨-, refers, -⟩ := Production.classDeclaration.inj (is.symm.trans isAbove)
    obtain ⟨scopeHere, typed, looksUp⟩ := reading refers foundBelow isReference
    obtain rfl := Except.ok.inj (scopeHere.symm.trans isScope)
    obtain ⟨own, isOwn, owner⟩ := looksUp.mp lookup
    exact ⟨own, by simp [refers, typed, isOwn], owner⟩
  · rintro ⟨target, isTarget, owner⟩
    obtain ⟨reference, refers, typedHere⟩ := Option.bind_eq_some_iff.mp isTarget
    obtain ⟨below, called, foundBelow, isReference⟩ :=
      View.superclass_reference prepared found is refers
    obtain ⟨scope, typed, looksUp⟩ := reading refers foundBelow isReference
    have isOwn : b.classAt (b.scopeAt reference) called = some target := by
      simpa [typed] using typedHere
    exact ⟨_, node, name, reference, body, below, called, _, record, found, refers ▸ is, foundBelow,
      isReference, scope, looksUp.mpr ⟨target, isOwn, owner⟩⟩

/-- A class extends the owner of the scope that is its superclass. -/
theorem extends_iff_owner (other : SymbolId) : r.Extends (b.ownerAt id) other ↔
    ∃ target, (View.analysed tree b locals).superclass (b.ownerAt id) = some target ∧
      b.scopeKind target = some (.classScope other) := by
  have record := orDangling_eq_ok_iff.mpr (class_symbol prepared follows reached found is).2
  constructor
  · rintro ⟨x, target, y, isSymbol, isSuperclass, foundScope, owner⟩
    obtain rfl := Except.ok.inj (record.symm.trans isSymbol)
    refine ⟨target, isSuperclass, ?_⟩
    obtain ⟨own, isScope⟩ := follows.grounded.superclasses _ _ isSuperclass
    have kind : r.scopeKind target = some y.kind := by
      simp [Resolution.scopeKind, orDangling_eq_ok_iff.mp foundScope]
    rw [follows.rep.scopeKind_eq, isScope, Option.some.injEq] at kind
    rw [← kind] at owner
    rwa [Option.some.inj owner] at isScope
  · rintro ⟨target, isSuperclass, owner⟩
    rw [← follows.rep.scopeKind_eq] at owner
    obtain ⟨y, foundScope, kind⟩ := Option.map_eq_some_iff.mp owner
    exact ⟨_, target, y, record, isSuperclass, orDangling_eq_ok_iff.mpr foundScope, by rw [kind]; rfl⟩

omit follows in
/-- A class scope belongs to a class exactly if it is the scope of the class. -/
theorem owner_eq_iff {target : ScopeId} {other : SymbolId}
    (owner : b.scopeKind target = some (.classScope other)) :
    b.ownerAt id = other ↔ target = b.scopeAt id := by
  have own := (prepared.registered.class_found prepared.formed reached found is).2.1
  constructor
  · rintro rfl
    exact prepared.classScope_inj owner own
  · rintro rfl
    simpa [own] using owner

end Class

theorem class_node {symbol : SymbolId} {x : Symbol} (found : r.table.symbol symbol = .ok x)
    (isClass : x.kind.isClass = true) : ∃ node name superclass body,
      tree.node? x.node = some node ∧ node.production = .classDeclaration name superclass body := by
  obtain ⟨node, foundNode, -, -, sort⟩ :=
    symbol_declares prepared follows (orDangling_eq_ok_iff.mp found)
  cases is : node.production with
  | classDeclaration name superclass body => exact ⟨node, name, superclass, body, foundNode, is⟩
  | functionDeclaration name returnType parameters body =>
    simp [is, isClass] at sort
  | variableDeclaratorId name =>
    have isVariable : x.kind.isVariable = true := by
      simp only [is] at sort
      exact sort.2.1
    cases kind : x.kind <;> simp [kind, SymbolKind.isVariable, SymbolKind.isClass] at isVariable isClass
  | _ => simp [is] at sort

/-- A class extends the class that it is written with, unless that is the class itself. -/
theorem extends_iff_names (symbol other : SymbolId) :
    r.Extends symbol other ↔ r.Names tree symbol other ∧ symbol ≠ other := by
  constructor
  · intro links
    obtain ⟨x, isSymbol, isClass⟩ := links.isClass
    obtain ⟨node, name, superclass, body, found, is⟩ := class_node prepared follows isSymbol isClass
    obtain ⟨reached, rfl⟩ := class_of_symbol prepared follows isSymbol found is
    obtain ⟨target, isTarget, owner⟩ :=
      (extends_iff_owner prepared follows reached found is other).mp links
    obtain ⟨typed, different⟩ :=
      ((View.analysed_superclass prepared reached found is locals).1 target).mp isTarget
    exact ⟨(names_iff_owner prepared follows reached found is other).mpr ⟨target, typed, owner⟩,
      fun same => different ((owner_eq_iff prepared reached found is owner).mp same)⟩
  · rintro ⟨names, different⟩
    obtain ⟨x, node, name, superclass, body, isSymbol, found, is⟩ := names.declared
    obtain ⟨reached, rfl⟩ := class_of_symbol prepared follows isSymbol found is
    obtain ⟨target, typed, owner⟩ :=
      (names_iff_owner prepared follows reached found is other).mp names
    have isTarget := ((View.analysed_superclass prepared reached found is locals).1 target).mpr
      ⟨typed, fun same => different ((owner_eq_iff prepared reached found is owner).mpr same)⟩
    exact (extends_iff_owner prepared follows reached found is other).mpr ⟨target, isTarget, owner⟩

/-- A class is reported exactly if it is written with itself as its superclass. -/
theorem invalidSuperclass_iff (sound : r.Sound tree) (id : NodeId) :
    (∃ d ∈ r.diagnostics.toList, d.node = id ∧ d.code = .invalidSuperclass) ↔
      ∃ symbol x, r.table.symbol symbol = .ok x ∧ x.node = id ∧ r.Names tree symbol symbol := by
  have placed {d : Diagnostic} (reported : d ∈ r.diagnostics.toList) :=
    sound.reports.placed d (Array.mem_toList_iff.mp reported)
  constructor
  · rintro ⟨d, reported, rfl, isInvalid⟩
    obtain ⟨⟨production, location⟩, found, -, subject⟩ := placed reported
    have reached : tree.Reachable d.node := by
      by_contra away
      rw [follows.rep.diagnostics] at reported
      exact (View.analysed_untouched prepared away locals).unreported d reported rfl
    simp only [isInvalid, DiagnosticCode.subjects, List.mem_singleton] at subject
    cases production <;> cases subject
    rw [follows.rep.diagnostics] at reported
    have typed := (View.analysed_superclass prepared reached found rfl locals).2.mp ⟨d, reported, rfl⟩
    have own := (prepared.registered.class_found prepared.formed reached found rfl).2.1
    have record := (class_symbol prepared follows reached found rfl).2
    exact ⟨b.ownerAt d.node, _, orDangling_eq_ok_iff.mpr record, rfl,
      (names_iff_owner prepared follows reached found rfl _).mpr ⟨_, typed, own⟩⟩
  · rintro ⟨symbol, x, isSymbol, rfl, names⟩
    obtain ⟨y, node, name, superclass, body, isSymbolToo, found, is⟩ := names.declared
    obtain rfl := Except.ok.inj (isSymbol.symm.trans isSymbolToo)
    obtain ⟨reached, rfl⟩ := class_of_symbol prepared follows isSymbol found is
    obtain ⟨target, typed, owner⟩ := (names_iff_owner prepared follows reached found is _).mp names
    obtain rfl := (owner_eq_iff prepared reached found is owner).mp rfl
    obtain ⟨d, reported, here⟩ :=
      (View.analysed_superclass prepared reached found is locals).2.mpr typed
    rw [← follows.rep.diagnostics] at reported
    refine ⟨d, reported, here, ?_⟩
    obtain ⟨other, foundOther, -, subject⟩ := placed reported
    rw [here] at foundOther
    obtain rfl : node = other := Option.some.inj (found.symm.trans foundOther)
    rw [Node.kind_of is] at subject
    cases code : d.code with
    | invalidSuperclass => rfl
    | _ => simp [code, DiagnosticCode.subjects, Production.kind] at subject

end Following

/-- In an analysed tree a class extends the class that its reference names, unless that is the class
itself, and the classes that name themselves are reported. So if none is reported, no class extends
itself, and one comes back to a class along superclasses exactly if the references as written lead back
to it. -/
theorem analyze_extends_as_written {tree : SyntaxTree} (valid : tree.validate = .ok ())
    (settings : Settings) :
    ∃ r, analyze tree settings = .ok r ∧
      (∀ symbol other, r.Extends symbol other ↔ r.Names tree symbol other ∧ symbol ≠ other) ∧
      (∀ id, (∃ d ∈ r.diagnostics.toList, d.node = id ∧ d.code = .invalidSuperclass) ↔
        ∃ symbol x, r.table.symbol symbol = .ok x ∧ x.node = id ∧ r.Names tree symbol symbol) ∧
      ((∀ d ∈ r.diagnostics.toList, d.code ≠ .invalidSuperclass) → ∀ symbol,
        ¬ r.Extends symbol symbol ∧
          (TransGen r.Extends symbol symbol ↔ TransGen (r.Names tree) symbol symbol)) := by
  obtain ⟨b, r, -, prepared, analysed, follows⟩ :=
    exists_analysed (SyntaxTree.validate_eq_ok_iff.mp valid) settings
  have links := extends_iff_names prepared follows
  have reported := invalidSuperclass_iff prepared follows (Resolution.analyze_sound analysed)
  refine ⟨r, analysed, links, reported, fun silent symbol => ⟨?_, ?_⟩⟩
  · exact fun itself => ((links symbol symbol).mp itself).2 rfl
  · have notItself (symbol : SymbolId) : ¬ r.Names tree symbol symbol := by
      intro names
      obtain ⟨x, -, -, -, -, isSymbol, -⟩ := names.declared
      obtain ⟨d, member, -, invalid⟩ := (reported x.node).mpr ⟨symbol, x, isSymbol, rfl, names⟩
      exact silent d member invalid
    have same : r.Extends = r.Names tree := by
      funext symbol other
      refine propext ((links symbol other).trans ⟨And.left, fun names => ⟨names, ?_⟩⟩)
      rintro rfl
      exact notItself symbol names
    rw [same]

/-- The unit `class A extends B { } class B { }`. -/
def SyntaxTree.derived : SyntaxTree where
  nodes := #[⟨.classReference "B", ⟨16, 17⟩⟩, ⟨.classDeclaration "A" (some ⟨0⟩) [], ⟨0, 21⟩⟩,
    ⟨.classDeclaration "B" none [], ⟨22, 33⟩⟩, ⟨.compilationUnit [⟨1⟩, ⟨2⟩], ⟨0, 33⟩⟩]
  root := ⟨3⟩

/-- The class extends the one that is declared after it, and there is no way back. -/
theorem analyze_extends_as_written_derived :
    ∃ r, analyze SyntaxTree.derived Settings.standard = .ok r ∧ r.Extends ⟨0⟩ ⟨1⟩ ∧
      r.Names SyntaxTree.derived ⟨0⟩ ⟨1⟩ ∧ ¬ r.Extends ⟨0⟩ ⟨0⟩ := by
  obtain ⟨r, analysed, links, -, none⟩ :=
    @analyze_extends_as_written SyntaxTree.derived rfl Settings.standard
  have facts : (analyze SyntaxTree.derived Settings.standard).map (fun r =>
      (r.diagnostics, r.table.symbol ⟨0⟩, r.table.scope ⟨2⟩)) =
      .ok (#[], .ok ⟨⟨0⟩, "A", .classType ⟨1⟩ (some ⟨2⟩), ⟨0⟩, ⟨1⟩, ⟨0, 21⟩⟩,
        .ok ⟨⟨2⟩, .classScope ⟨1⟩, some ⟨0⟩, [], []⟩) := rfl
  rw [analysed] at facts
  simp only [Except.map, Except.ok.injEq, Prod.mk.injEq] at facts
  obtain ⟨silent, isSymbol, isScope⟩ := facts
  have derives : r.Extends ⟨0⟩ ⟨1⟩ := .of_eq_ok isSymbol isScope rfl rfl
  exact ⟨r, analysed, derives, ((links _ _).mp derives).1,
    (none (by simp [silent]) ⟨0⟩).1⟩

/-- The unit `class A extends B { } class B extends A { }`. -/
def SyntaxTree.entwined : SyntaxTree where
  nodes := #[⟨.classReference "B", ⟨16, 17⟩⟩, ⟨.classDeclaration "A" (some ⟨0⟩) [], ⟨0, 21⟩⟩,
    ⟨.classReference "A", ⟨38, 39⟩⟩, ⟨.classDeclaration "B" (some ⟨2⟩) [], ⟨22, 43⟩⟩,
    ⟨.compilationUnit [⟨1⟩, ⟨3⟩], ⟨0, 43⟩⟩]
  root := ⟨4⟩

/-- That no class is reported does not exclude circles: two classes may extend each other. -/
theorem not_extends_acyclic :
    ¬ ∀ (tree : SyntaxTree) (settings : Settings) (r : Resolution), tree.validate = .ok () →
      analyze tree settings = .ok r → (∀ d ∈ r.diagnostics.toList, d.code ≠ .invalidSuperclass) →
        ∀ symbol, ¬ TransGen r.Extends symbol symbol := by
  intro acyclic
  have facts : (analyze SyntaxTree.entwined Settings.standard).map (fun r =>
      (r.diagnostics, (r.table.symbol ⟨0⟩, r.table.scope ⟨2⟩), r.table.symbol ⟨1⟩,
        r.table.scope ⟨1⟩)) =
      .ok (#[], (.ok ⟨⟨0⟩, "A", .classType ⟨1⟩ (some ⟨2⟩), ⟨0⟩, ⟨1⟩, ⟨0, 21⟩⟩,
        .ok ⟨⟨2⟩, .classScope ⟨1⟩, some ⟨0⟩, [], []⟩),
        .ok ⟨⟨1⟩, "B", .classType ⟨2⟩ (some ⟨1⟩), ⟨0⟩, ⟨3⟩, ⟨22, 43⟩⟩,
        .ok ⟨⟨1⟩, .classScope ⟨0⟩, some ⟨0⟩, [], []⟩) := rfl
  cases analysed : analyze SyntaxTree.entwined Settings.standard with
  | error halt =>
    rw [analysed] at facts
    cases facts
  | ok r =>
    rw [analysed] at facts
    simp only [Except.map, Except.ok.injEq, Prod.mk.injEq] at facts
    obtain ⟨silent, ⟨first, ownSecond⟩, second, ownFirst⟩ := facts
    have there : r.Extends ⟨0⟩ ⟨1⟩ := .of_eq_ok first ownSecond rfl rfl
    have back : r.Extends ⟨1⟩ ⟨0⟩ := .of_eq_ok second ownFirst rfl rfl
    exact acyclic _ _ r rfl analysed (by simp [silent]) ⟨0⟩ (.tail (.single there) back)

end ScriptSemantics
