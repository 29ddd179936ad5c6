import ScriptSemantics.Proofs.Nesting
import ScriptSemantics.Proofs.Overloads
import ScriptSemantics.Proofs.ShownTexts

/-!
# Functions in the order of the walk

Where the functions of each scope stand in the source in the order in which the walk comes to them, a
scope lists them in that order too. When one of them is left, those listed before it have been left,
since no two contain each other, so none is overlooked and none mistaken. What is reported are then the
functions that repeat one met earlier.
-/
namespace ScriptSemantics

namespace SyntaxTree

variable {tree : SyntaxTree}

/-- Whether a walk comes to a node before it comes to another. -/
def meetsFirst (tree : SyntaxTree) (first second : NodeId) : Bool :=
  (tree.events tree.root).idxOf ⟨.enter, first⟩ < (tree.events tree.root).idxOf ⟨.enter, second⟩

/-- Where a node stands in the source: at the start of its location, and by its number among those
that start there. -/
def placeAt (tree : SyntaxTree) (id : NodeId) : ℕ ×ₗ ℕ :=
  toLex ((tree.locationAt id).startByte, id.index)

/-- Of two functions of one scope the one that the walk meets first also stands first in the source. -/
def FunctionsInOrder (tree : SyntaxTree) : Prop :=
  ∀ first second, tree.Reachable first → tree.Reachable second → tree.IsFunction first →
    tree.IsFunction second → tree.Beside first second → tree.meetsFirst first second = true →
      tree.placeAt first < tree.placeAt second

def IsFunctionNamed (tree : SyntaxTree) (id : NodeId) (name : String) : Prop :=
  ∃ node returnType parameters body, tree.node? id = some node ∧
    node.production = .functionDeclaration name returnType parameters body

theorem IsFunctionNamed.unique {id : NodeId} {name other : String}
    (first : tree.IsFunctionNamed id name) (second : tree.IsFunctionNamed id other) :
    name = other := by
  obtain ⟨node, _, _, _, found, is⟩ := first
  obtain ⟨node', _, _, _, found', is'⟩ := second
  obtain rfl : node = node' := Option.some.inj (found.symm.trans found')
  rw [is, Production.functionDeclaration.injEq] at is'
  exact is'.1

theorem IsFunctionNamed.isFunction {id : NodeId} {name : String}
    (named : tree.IsFunctionNamed id name) : tree.IsFunction id := by
  obtain ⟨node, _, _, _, found, is⟩ := named
  exact ⟨node, found, Node.kind_of is⟩

theorem IsFunction.named {id : NodeId} (isFunction : tree.IsFunction id) :
    ∃ name, tree.IsFunctionNamed id name := by
  obtain ⟨⟨production, location⟩, found, kind⟩ := isFunction
  cases production with
  | functionDeclaration name returnType parameters body =>
    exact ⟨name, _, returnType, parameters, body, found, rfl⟩
  | _ => cases kind

namespace WellFormed

variable (formed : tree.WellFormed)
include formed

theorem enter_lt_exit {id : NodeId} (reached : tree.Reachable id) :
    (tree.events tree.root).idxOf ⟨.enter, id⟩ < (tree.events tree.root).idxOf ⟨.exit, id⟩ := by
  obtain ⟨node, found⟩ := formed.reachable_node reached
  obtain ⟨front, back, whole⟩ := formed.events_infix .root reached
  have nodup := formed.events_nodup .root
  rw [← whole, formed.events_eq reached found, List.append_assoc, List.append_assoc,
    List.cons_append] at nodup ⊢
  obtain ⟨-, inner, apart⟩ := List.nodup_append.mp nodup
  have enterNew : ⟨.enter, id⟩ ∉ front := fun member => apart _ member _ (by simp) rfl
  have exitNew : ⟨.exit, id⟩ ∉ front := fun member => apart _ member _ (by simp) rfl
  rw [List.idxOf_append_of_notMem enterNew, List.idxOf_append_of_notMem exitNew,
    List.idxOf_cons_self, List.idxOf_cons_ne _ (by simp)]
  omega

theorem meetsFirst_total {first second : NodeId} (reached : tree.Reachable first)
    (different : first ≠ second) :
    tree.meetsFirst first second = true ∨ tree.meetsFirst second first = true := by
  have listed : ⟨.enter, first⟩ ∈ tree.events tree.root := (formed.mem_events .root).mpr reached
  simp only [meetsFirst, decide_eq_true_eq]
  apply Nat.lt_or_gt_of_ne
  intro same
  have events := (List.idxOf_inj listed).mp same
  exact different (congrArg Event.node events)

/-- Of two nodes that do not contain each other, the one that is met first is left first. -/
theorem leavesFirst_of_meetsFirst {first second : NodeId} (reached : tree.Reachable first)
    (reachedSecond : tree.Reachable second) (apart : ¬ tree.Within first second)
    (met : tree.meetsFirst first second = true) : tree.leavesFirst first second = true := by
  have leaves : ⟨.exit, second⟩ ∈ tree.events tree.root :=
    (formed.mem_events .root).mpr reachedSecond
  obtain ⟨before, after, split, new⟩ := List.eq_append_cons_of_mem leaves
  have entered := formed.enter_lt_exit reachedSecond
  simp only [meetsFirst, decide_eq_true_eq] at met
  rw [split] at met entered
  have early : ⟨.enter, first⟩ ∈ before := by
    by_contra late
    rw [List.idxOf_append_of_notMem late] at met
    rw [List.idxOf_append_of_notMem new, List.idxOf_cons_self] at entered
    omega
  have exits : ⟨.exit, first⟩ ∈ before ++ ⟨.exit, second⟩ :: after :=
    split ▸ (formed.mem_events .root).mpr reached
  apply (formed.mem_before_iff_leavesFirst first split).mp
  rcases formed.events_apart reached apart split with none | gone
  · exact (none _ early (.refl first)).elim
  · rcases List.mem_append.mp exits with here | later
    · exact here
    · rcases List.mem_cons.mp later with same | later
      · have same : first = second := congrArg Event.node same
        exact (apart (same ▸ .refl first)).elim
      · exact (gone _ later (.refl first)).elim

end WellFormed

end SyntaxTree

namespace Prepared

variable {tree : SyntaxTree} {b : Resolution} (prepared : Prepared tree b)
include prepared

theorem surrounds_enclosingAt {id : NodeId} (reached : tree.Reachable id)
    (isFunction : tree.IsFunction id) : b.Surrounds tree (b.enclosingAt id) id := by
  obtain ⟨node, found, kind⟩ := isFunction
  obtain ⟨outer, bound, surrounds⟩ :=
    prepared.registered.exists_surrounds prepared.formed reached found
  obtain ⟨scope, foundScope, enclosing⟩ :=
    bound.introduced (by simp [kind, NodeKind.introducesScope])
  have around : b.enclosingAt id = outer := by
    simp [Resolution.enclosingAt, foundScope, enclosing]
  rwa [around]

/-- A function is listed in the scope around it, and it is the node that declares its symbol. -/
theorem mem_functionsAt {id body : NodeId} {node : Node} {name : String} {returnType : Option NodeId}
    {parameters : List NodeId} (reached : tree.Reachable id) (found : tree.node? id = some node)
    (is : node.production = .functionDeclaration name returnType parameters body) :
    b.ownerAt id ∈ b.functionsAt (b.enclosingAt id) name ∧ b.nodeOf (b.ownerAt id) = id := by
  obtain ⟨-, -, declared, known⟩ :=
    prepared.registered.function_found prepared.formed reached found is
  refine ⟨List.mem_filter.mpr ⟨?_, ?_⟩, by simp [Resolution.nodeOf, declared]⟩
  · exact (prepared.registered.ordered.mem_listing known).mpr ⟨_, declared, rfl⟩
  · exact SymbolTable.holds_iff.mpr
      ⟨_, declared, by simp [SymbolKind.isVariable, SymbolKind.isClass]⟩

/-- The symbol of a listed function stands where its node does. -/
theorem place_function {scope : ScopeId} {name : String} {function : SymbolId}
    (listed : function ∈ b.functionsAt scope name) :
    b.table.place function = tree.placeAt (b.nodeOf function) := by
  obtain ⟨node, returnType, parameters, body, reached, found, is, owner, -⟩ :=
    prepared.exists_function listed
  obtain ⟨-, -, declared, -⟩ :=
    prepared.registered.function_found prepared.formed reached found is
  rw [owner] at declared
  simp [SymbolTable.place, declared, Symbol.place, SyntaxTree.placeAt, SyntaxTree.locationAt, found]

/-- A scope lists its functions in the order of the walk if they stand in the source in that order. -/
theorem functionsAt_meetsFirst {name : String} (built : Resolution.build tree name = .ok b)
    (inOrder : tree.FunctionsInOrder) (scope : ScopeId) (called : String) :
    (b.functionsAt scope called).Pairwise fun first second =>
      tree.meetsFirst (b.nodeOf first) (b.nodeOf second) = true := by
  have ordered := prepared.registered.ordered
  have sorted := (ordered.listing_sorted scope).filter (b.table.holds fun s =>
    s.name == called && !s.kind.isVariable && !s.kind.isClass)
  have nodup : (b.functionsAt scope called).Nodup := (ordered.listing_nodup scope).filter _
  refine (sorted.and nodup).imp_of_mem ?_
  rintro first second inFirst inSecond ⟨le, different⟩
  obtain ⟨reached, isFunction, around⟩ := prepared.listed_function inFirst
  obtain ⟨reachedSecond, isSecond, aroundSecond⟩ := prepared.listed_function inSecond
  have apart : b.nodeOf first ≠ b.nodeOf second :=
    fun same => different (prepared.nodeOf_inj inFirst inSecond same)
  refine (prepared.formed.meetsFirst_total reached apart).resolve_right fun met => ?_
  have surrounds := prepared.surrounds_enclosingAt reached isFunction
  have surroundsSecond := prepared.surrounds_enclosingAt reachedSecond isSecond
  rw [around] at surrounds
  rw [aroundSecond] at surroundsSecond
  have beside := surroundsSecond.beside prepared.formed built reachedSecond reached surrounds
  have earlier := inOrder _ _ reachedSecond reached isSecond isFunction beside met
  rw [← prepared.place_function inFirst, ← prepared.place_function inSecond] at earlier
  exact absurd le (not_le_of_gt earlier)

theorem functionsAt_leavesFirst {name : String} (built : Resolution.build tree name = .ok b)
    (inOrder : tree.FunctionsInOrder) (scope : ScopeId) (called : String) :
    (b.functionsAt scope called).Pairwise fun first second =>
      tree.leavesFirst (b.nodeOf first) (b.nodeOf second) = true := by
  have order := prepared.functionsAt_meetsFirst built inOrder scope called
  have nodup : (b.functionsAt scope called).Nodup :=
    (prepared.registered.ordered.listing_nodup scope).filter _
  refine (order.and nodup).imp_of_mem ?_
  rintro first second inFirst inSecond ⟨met, different⟩
  exact prepared.formed.leavesFirst_of_meetsFirst (prepared.listed_function inFirst).1
    (prepared.listed_function inSecond).1 (prepared.listed_apart inFirst inSecond different) met

end Prepared

/-- A function repeats one that the walk meets before it: they have the same name, stand in the same
scope, and their parameters are all typed and of the same types. -/
structure Resolution.Repeats (r : Resolution) (tree : SyntaxTree) (earlier id : NodeId) : Prop where
  reached : tree.Reachable earlier
  here : tree.Reachable id
  met : tree.meetsFirst earlier id = true
  name : ∃ name, tree.IsFunctionNamed earlier name ∧ tree.IsFunctionNamed id name
  scope : ∃ scope, r.enclosingScopeOf earlier = .ok scope ∧ r.enclosingScopeOf id = .ok scope
  signature : ∃ other function others types, r.symbolOf earlier = some other ∧
    r.symbolOf id = some function ∧ r.table.parameterTypes other = .ok (some others) ∧
    r.table.parameterTypes function = .ok (some types) ∧
    r.types.matchParameterTypes types others = .ok true

/-- What is reported of functions are the repetitions of those that the walk meets before them. -/
structure Resolution.ReportsRepetitions (r : Resolution) (tree : SyntaxTree) : Prop where
  each : ∀ id, tree.IsFunction id →
    ((∃ d ∈ r.diagnostics.toList, d.node = id ∧ d.code = .duplicateDeclaration) ↔
      ∃ earlier, r.Repeats tree earlier id)
  once : ∀ id, tree.IsFunction id →
    (r.diagnostics.toList.filter fun d => d.node = id).length ≤ 1
  message : ∀ d ∈ r.diagnostics.toList, tree.IsFunction d.node → ∃ function text,
    r.symbolOf d.node = some function ∧ r.signatureText function = .ok text ∧
      r.SignatureReads function text ∧ d = tree.repetition d.node text
  order : ∀ scope name, (r.functionsAt scope name).Pairwise fun first second =>
    tree.meetsFirst (r.nodeOf first) (r.nodeOf second) = true
  /-- Of the functions of one signature all but the first are reported. -/
  later : ∀ scope name, ∀ function ∈ r.functionsAt scope name, ∀ types,
    r.signatureOf function = some types →
      ((r.functionsAt scope name).filter (r.hasSignature types)).filter r.isReported =
        ((r.functionsAt scope name).filter (r.hasSignature types)).tail

namespace View

variable {tree : SyntaxTree} {b r : Resolution} {v : View} {name : String}
  (prepared : Prepared tree b) (follows : v.Follows tree b r) {scope : ScopeId} {called : String}
  {function : SymbolId}
include prepared follows

theorem Follows.functionsAt_meetsFirst (built : Resolution.build tree name = .ok b)
    (inOrder : tree.FunctionsInOrder) (scope : ScopeId) (called : String) :
    (r.functionsAt scope called).Pairwise fun first second =>
      tree.meetsFirst (r.nodeOf first) (r.nodeOf second) = true := by
  rw [follows.functionsAt_eq prepared]
  refine (prepared.functionsAt_meetsFirst built inOrder scope called).imp_of_mem ?_
  intro first second inFirst inSecond met
  rwa [follows.nodeOf_eq inFirst, follows.nodeOf_eq inSecond]

section InOrder

variable (built : Resolution.build tree name = .ok b) (inOrder : tree.FunctionsInOrder)
  (same : SameMembers tree b (members tree b) v) (listed : function ∈ r.functionsAt scope called)
include built inOrder same listed

/-- In the order of the walk a function is reported exactly if it has the signature of one that is
listed before it. -/
theorem Follows.reports_inOrder :
    r.diagnostics.toList.filter (fun d => d.node = r.nodeOf function) =
      if r.isRepeated (r.functionsAt scope called) function then
        [tree.repetition (r.nodeOf function) (v.signatureText b function)] else [] := by
  obtain ⟨earlier, later, split, new⟩ := List.eq_append_cons_of_mem listed
  rw [follows.function_reports prepared same split, Resolution.isRepeated, split, takeWhile_ne new]
  have left : ∀ other ∈ earlier, tree.leavesFirst (r.nodeOf other) (r.nodeOf function) = true := by
    intro other member
    have order := prepared.functionsAt_leavesFirst built inOrder scope called
    rw [← follows.functionsAt_eq prepared, split, List.pairwise_append] at order
    rw [follows.functionsAt_eq prepared] at listed split
    have inScope : other ∈ b.functionsAt scope called := by simp [split, member]
    rw [follows.nodeOf_eq inScope, follows.nodeOf_eq listed]
    exact order.2.2 other member function (by simp)
  cases r.signatureOf function with
  | none => rfl
  | some types =>
    have compared : (earlier.any fun other =>
        if tree.leavesFirst (r.nodeOf other) (r.nodeOf function) then r.hasSignature types other
        else types.isEmpty) = earlier.any (r.hasSignature types) :=
      any_congr_of_mem fun other member => by rw [left other member, if_pos rfl]
    simp only [compared, Option.any_some]

theorem Follows.isReported_inOrder :
    r.isReported function = r.isRepeated (r.functionsAt scope called) function := by
  have reports := follows.reports_inOrder prepared built inOrder same listed
  have reported : r.isReported function =
      (r.diagnostics.toList.filter fun d => d.node = r.nodeOf function).any
        fun d => d.code == .duplicateDeclaration := by
    rw [List.any_filter]
    rfl
  rw [reported, reports]
  split
  next repeated => simp [repeated, SyntaxTree.repetition]
  next first => simp [first]

end InOrder

/-- Of the functions of one signature those after the first are reported. -/
theorem Follows.filter_isReported (built : Resolution.build tree name = .ok b)
    (inOrder : tree.FunctionsInOrder) (same : SameMembers tree b (members tree b) v)
    (listed : function ∈ r.functionsAt scope called) {types : List Ty}
    (signature : r.signatureOf function = some types) :
    ((r.functionsAt scope called).filter (r.hasSignature types)).filter r.isReported =
      ((r.functionsAt scope called).filter (r.hasSignature types)).tail := by
  refine filter_eq_tail ?_
  rw [← follows.filter_isFirst prepared listed signature]
  refine List.filter_congr fun other member => ?_
  obtain ⟨inScope, matching⟩ := List.mem_filter.mp member
  rw [follows.isReported_inOrder prepared built inOrder same inScope, Resolution.isFirst,
    Resolution.isTyped_of_hasSignature matching, Bool.true_and]

/-- What the resolution knows of the node of a listed function. -/
theorem Follows.function_known (listed : function ∈ r.functionsAt scope called) :
    tree.Reachable (r.nodeOf function) ∧ tree.IsFunctionNamed (r.nodeOf function) called ∧
      r.symbolOf (r.nodeOf function) = some function ∧
      r.enclosingScopeOf (r.nodeOf function) = .ok scope ∧
      r.table.parameterTypes function = .ok (r.signatureOf function) := by
  rw [follows.functionsAt_eq prepared] at listed
  obtain ⟨node, returnType, parameters, body, reached, found, is, owner, around⟩ :=
    prepared.exists_function listed
  obtain ⟨own, -, declared, -⟩ := prepared.registered.function_found prepared.formed reached found is
  have kind : node.kind = .functionDeclaration := Node.kind_of is
  have notDeclared : b.nodeOf function ∉ v.declared := by
    intro member
    obtain ⟨other, name, foundOther, isOther⟩ := follows.grounded.named _ member
    rw [found, Option.some.injEq] at foundOther
    rw [← foundOther, is] at isOther
    cases isOther
  rw [follows.nodeOf_eq listed]
  refine ⟨reached, ⟨node, returnType, parameters, body, found, is⟩, ?_, ?_, ?_⟩
  · rw [follows.rep.symbolOf_eq prepared reached, symbolOf, if_neg notDeclared, own, owner]
  · rw [follows.rep.enclosingScopeOf_eq_ok prepared reached found
      (by simp [kind, NodeKind.introducesScope]), around]
  · rw [owner] at declared
    rw [follows.signatureOf_eq prepared listed,
      follows.rep.parameterTypes_eq_ok follows.grounded declared rfl rfl]

theorem Follows.exists_listed {id : NodeId} (reached : tree.Reachable id)
    (named : tree.IsFunctionNamed id called) (stands : r.enclosingScopeOf id = .ok scope) :
    ∃ function ∈ r.functionsAt scope called, r.nodeOf function = id := by
  obtain ⟨node, returnType, parameters, body, found, is⟩ := named
  have kind : node.kind = .functionDeclaration := Node.kind_of is
  obtain ⟨listed, declares⟩ := prepared.mem_functionsAt reached found is
  rw [follows.rep.enclosingScopeOf_eq_ok prepared reached found
    (by simp [kind, NodeKind.introducesScope]), Except.ok.injEq] at stands
  rw [stands] at listed
  exact ⟨_, by rwa [follows.functionsAt_eq prepared], by rwa [follows.nodeOf_eq listed]⟩

/-- Of two listed functions one repeats the other if it is met later and has its signature. -/
theorem Follows.repeats_iff {other : SymbolId} (listed : function ∈ r.functionsAt scope called)
    (listedOther : other ∈ r.functionsAt scope called) :
    r.Repeats tree (r.nodeOf other) (r.nodeOf function) ↔
      tree.meetsFirst (r.nodeOf other) (r.nodeOf function) = true ∧
        ∃ types, r.signatureOf function = some types ∧ r.hasSignature types other = true := by
  obtain ⟨reached, named, own, stands, read⟩ := follows.function_known prepared listed
  obtain ⟨reachedOther, namedOther, ownOther, standsOther, readOther⟩ :=
    follows.function_known prepared listedOther
  simp only [Resolution.hasSignature, Option.any_eq_true, decide_eq_true_eq]
  constructor
  · rintro ⟨-, -, met, -, -, _, _, others, types, known, known', reads, reads', matching⟩
    obtain rfl := Option.some.inj (own.symm.trans known')
    obtain rfl := Option.some.inj (ownOther.symm.trans known)
    exact ⟨met, types, Except.ok.inj (read.symm.trans reads'), others,
      Except.ok.inj (readOther.symm.trans reads), matching⟩
  · rintro ⟨met, types, signature, others, signatureOther, matching⟩
    rw [signature] at read
    rw [signatureOther] at readOther
    exact ⟨reachedOther, reached, met, ⟨called, namedOther, named⟩, ⟨scope, standsOther, stands⟩,
      other, function, others, types, ownOther, own, readOther, read, matching⟩

theorem Follows.listed_of_repeats {earlier : NodeId} (listed : function ∈ r.functionsAt scope called)
    (repeats : r.Repeats tree earlier (r.nodeOf function)) :
    ∃ other ∈ r.functionsAt scope called, r.nodeOf other = earlier := by
  obtain ⟨-, named, -, stands, -⟩ := follows.function_known prepared listed
  obtain ⟨name', namedEarlier, named'⟩ := repeats.name
  obtain rfl := named.unique named'
  obtain ⟨scope', standsEarlier, stands'⟩ := repeats.scope
  obtain rfl : scope = scope' := Except.ok.inj (stands.symm.trans stands')
  exact follows.exists_listed prepared repeats.reached namedEarlier standsEarlier

/-- A function has the signature of one that is listed before it exactly if it repeats one that the
walk meets before it. -/
theorem Follows.isRepeated_iff (built : Resolution.build tree name = .ok b)
    (inOrder : tree.FunctionsInOrder) (listed : function ∈ r.functionsAt scope called) :
    r.isRepeated (r.functionsAt scope called) function = true ↔
      ∃ earlier, r.Repeats tree earlier (r.nodeOf function) := by
  have order := follows.functionsAt_meetsFirst prepared built inOrder scope called
  obtain ⟨before, after, split, new⟩ := List.eq_append_cons_of_mem listed
  rw [split, List.pairwise_append, List.pairwise_cons] at order
  obtain ⟨-, ⟨later, -⟩, apart⟩ := order
  rw [Resolution.isRepeated, split, takeWhile_ne new]
  simp only [Option.any_eq_true, List.any_eq_true]
  constructor
  · rintro ⟨types, signature, other, member, matching⟩
    have inScope : other ∈ r.functionsAt scope called := by simp [split, member]
    exact ⟨_, (follows.repeats_iff prepared listed inScope).mpr
      ⟨apart other member function (by simp), types, signature, matching⟩⟩
  · rintro ⟨earlier, repeats⟩
    obtain ⟨other, inScope, rfl⟩ := follows.listed_of_repeats prepared listed repeats
    obtain ⟨met, types, signature, matching⟩ :=
      (follows.repeats_iff prepared listed inScope).mp repeats
    refine ⟨types, signature, other, ?_, matching⟩
    rw [split, List.mem_append, List.mem_cons] at inScope
    rcases inScope with inBefore | rfl | inAfter
    · exact inBefore
    · simp [SyntaxTree.meetsFirst] at met
    · have back := later other inAfter
      simp only [SyntaxTree.meetsFirst, decide_eq_true_eq] at met back
      omega

/-- A function is reported once if it repeats one that the walk meets before it, and else not at all. -/
theorem Follows.function_reported (built : Resolution.build tree name = .ok b)
    (inOrder : tree.FunctionsInOrder) {id : NodeId} (isFunction : tree.IsFunction id)
    (same : tree.Reachable id → SameMembers tree b (members tree b) v)
    (silent : ¬ tree.Reachable id → v.diagnostics.filter (fun d => d.node = id) = []) :
    (r.diagnostics.toList.filter (fun d => d.node = id) = [] ∧ ∀ earlier, ¬ r.Repeats tree earlier id) ∨
      ∃ earlier function text, r.Repeats tree earlier id ∧ r.symbolOf id = some function ∧
        r.signatureText function = .ok text ∧
        r.diagnostics.toList.filter (fun d => d.node = id) = [tree.repetition id text] := by
  by_cases reached : tree.Reachable id
  swap
  · exact .inl ⟨by rw [follows.rep.diagnostics, silent reached],
      fun earlier repeats => reached repeats.here⟩
  obtain ⟨called, named⟩ := isFunction.named
  obtain ⟨node, found, kind⟩ := isFunction
  have stands := follows.rep.enclosingScopeOf_eq_ok prepared reached found
    (by simp [kind, NodeKind.introducesScope])
  obtain ⟨function, listed, rfl⟩ := follows.exists_listed prepared reached named stands
  have reports := follows.reports_inOrder prepared built inOrder (same reached) listed
  have repeated := follows.isRepeated_iff prepared built inOrder listed
  by_cases again : ∃ earlier, r.Repeats tree earlier (r.nodeOf function)
  · rw [if_pos (repeated.mpr again)] at reports
    obtain ⟨earlier, repeats⟩ := again
    have own := (follows.function_known prepared listed).2.2.1
    rw [follows.functionsAt_eq prepared] at listed
    exact .inr ⟨earlier, function, _, repeats, own, follows.signatureText_eq prepared listed, reports⟩
  · rw [if_neg (again ∘ repeated.mp)] at reports
    exact .inl ⟨reports, not_exists.mp again⟩

end View

/-- Where the functions of each scope stand in the source in the order of the walk, the analysis of a
valid tree reports those that repeat a function met earlier, once each and with their own signature. -/
theorem analyze_reports_inOrder {tree : SyntaxTree} (valid : tree.validate = .ok ())
    (settings : Settings) (inOrder : tree.FunctionsInOrder) :
    ∃ r, analyze tree settings = .ok r ∧ r.ReportsRepetitions tree := by
  obtain ⟨b, r, built, prepared, analysed, follows⟩ :=
    exists_analysed (SyntaxTree.validate_eq_ok_iff.mp valid) settings
  have same {id : NodeId} (reached : tree.Reachable id) (isFunction : tree.IsFunction id) :
      View.SameMembers tree b (View.members tree b)
        (View.analysed tree b settings.enterLocalVariables) :=
    View.members_sameMembers_analysed prepared
      (fun root => prepared.formed.root_of_function reached isFunction) _
  have reported {id : NodeId} (isFunction : tree.IsFunction id) :=
    follows.function_reported prepared built inOrder isFunction
      (fun reached => same reached isFunction)
      fun away => List.filter_eq_nil_iff.mpr fun d member => by
        simpa using (View.analysed_untouched prepared away _).unreported d member
  refine ⟨r, analysed, fun id isFunction => ?_, fun id isFunction => ?_,
    fun d member isFunction => ?_, follows.functionsAt_meetsFirst prepared built inOrder,
    fun scope called function listed types signature => ?_⟩
  · have found : (∃ d ∈ r.diagnostics.toList, d.node = id ∧ d.code = .duplicateDeclaration) ↔
        ∃ d ∈ r.diagnostics.toList.filter (fun d => d.node = id),
          d.code = .duplicateDeclaration := by
      simp [List.mem_filter, and_assoc]
    rw [found]
    rcases reported isFunction with ⟨none, first⟩ | ⟨earlier, function, text, repeats, -, -, one⟩
    · simp [none, first]
    · simp only [one, List.mem_singleton, exists_eq_left]
      exact ⟨fun _ => ⟨earlier, repeats⟩, fun _ => rfl⟩
  · rcases reported isFunction with ⟨none, -⟩ | ⟨_, _, _, -, -, -, one⟩
    · simp [none]
    · simp [one]
  · have listed : d ∈ r.diagnostics.toList.filter fun other => other.node = d.node := by
      simp [List.mem_filter, member]
    rcases reported isFunction with ⟨none, -⟩ | ⟨_, function, text, -, own, rendered, one⟩
    · simp [none] at listed
    · rw [one, List.mem_singleton] at listed
      exact ⟨function, text, own, rendered, Resolution.signatureText_reads rendered, listed⟩
  · obtain ⟨reached, named, -⟩ := follows.function_known prepared listed
    exact follows.filter_isReported prepared built inOrder (same reached named.isFunction) listed
      signature

/-- The unit `f(int a, C b) { } f() { } f(int c, C d) { } class C { f(int a, C b) { } }`. -/
def SyntaxTree.overloads : SyntaxTree where
  nodes := #[
    ⟨.primitiveType .int, ⟨2, 5⟩⟩, ⟨.typeNode ⟨0⟩, ⟨2, 5⟩⟩,
    ⟨.variableDeclaratorId "a", ⟨6, 7⟩⟩, ⟨.formalParameter ⟨1⟩ ⟨2⟩, ⟨2, 7⟩⟩,
    ⟨.classReference "C", ⟨9, 10⟩⟩, ⟨.typeNode ⟨4⟩, ⟨9, 10⟩⟩,
    ⟨.variableDeclaratorId "b", ⟨11, 12⟩⟩, ⟨.formalParameter ⟨5⟩ ⟨6⟩, ⟨9, 12⟩⟩,
    ⟨.block [], ⟨14, 17⟩⟩, ⟨.functionDeclaration "f" none [⟨3⟩, ⟨7⟩] ⟨8⟩, ⟨0, 17⟩⟩,
    ⟨.block [], ⟨22, 25⟩⟩, ⟨.functionDeclaration "f" none [] ⟨10⟩, ⟨18, 25⟩⟩,
    ⟨.primitiveType .int, ⟨28, 31⟩⟩, ⟨.typeNode ⟨12⟩, ⟨28, 31⟩⟩,
    ⟨.variableDeclaratorId "c", ⟨32, 33⟩⟩, ⟨.formalParameter ⟨13⟩ ⟨14⟩, ⟨28, 33⟩⟩,
    ⟨.classReference "C", ⟨35, 36⟩⟩, ⟨.typeNode ⟨16⟩, ⟨35, 36⟩⟩,
    ⟨.variableDeclaratorId "d", ⟨37, 38⟩⟩, ⟨.formalParameter ⟨17⟩ ⟨18⟩, ⟨35, 38⟩⟩,
    ⟨.block [], ⟨40, 43⟩⟩, ⟨.functionDeclaration "f" none [⟨15⟩, ⟨19⟩] ⟨20⟩, ⟨26, 43⟩⟩,
    ⟨.primitiveType .int, ⟨56, 59⟩⟩, ⟨.typeNode ⟨22⟩, ⟨56, 59⟩⟩,
    ⟨.variableDeclaratorId "a", ⟨60, 61⟩⟩, ⟨.formalParameter ⟨23⟩ ⟨24⟩, ⟨56, 61⟩⟩,
    ⟨.classReference "C", ⟨63, 64⟩⟩, ⟨.typeNode ⟨26⟩, ⟨63, 64⟩⟩,
    ⟨.variableDeclaratorId "b", ⟨65, 66⟩⟩, ⟨.formalParameter ⟨27⟩ ⟨28⟩, ⟨63, 66⟩⟩,
    ⟨.block [], ⟨68, 71⟩⟩, ⟨.functionDeclaration "f" none [⟨25⟩, ⟨29⟩] ⟨30⟩, ⟨54, 71⟩⟩,
    ⟨.classDeclaration "C" none [⟨31⟩], ⟨44, 73⟩⟩,
    ⟨.compilationUnit [⟨9⟩, ⟨11⟩, ⟨21⟩, ⟨32⟩], ⟨0, 73⟩⟩]
  root := ⟨33⟩

theorem SyntaxTree.overloads_inOrder : SyntaxTree.overloads.FunctionsInOrder := by
  have functions {id : NodeId} (isFunction : overloads.IsFunction id) :
      id ∈ ([⟨9⟩, ⟨11⟩, ⟨21⟩, ⟨31⟩] : List NodeId) := by
    have all : ∀ i < 34, (overloads.nodes[i]?).any (fun node => node.kind == .functionDeclaration) →
        (⟨i⟩ : NodeId) ∈ ([⟨9⟩, ⟨11⟩, ⟨21⟩, ⟨31⟩] : List NodeId) := by decide
    obtain ⟨node, found, kind⟩ := isFunction
    have known : id.index < 34 := (Array.getElem?_eq_some_iff.mp found).1
    have found : overloads.nodes[id.index]? = some node := found
    exact all id.index known (by simp [found, kind])
  have ordered : ∀ first ∈ ([⟨9⟩, ⟨11⟩, ⟨21⟩, ⟨31⟩] : List NodeId),
      ∀ second ∈ ([⟨9⟩, ⟨11⟩, ⟨21⟩, ⟨31⟩] : List NodeId), overloads.meetsFirst first second = true →
        overloads.placeAt first < overloads.placeAt second := by decide
  exact fun first second _ _ isFunction isFunction' _ =>
    ordered first (functions isFunction) second (functions isFunction')

/-- The function that has the parameters of the first is reported with the types of both; the method
stands in another scope. -/
theorem analyze_reports_inOrder_overloads :
    ∃ r function, analyze SyntaxTree.overloads Settings.standard = .ok r ∧
      r.diagnostics.toList = [SyntaxTree.overloads.repetition ⟨21⟩ "f(int, C)"] ∧
      r.symbolOf ⟨21⟩ = some function ∧ r.SignatureReads function "f(int, C)" ∧
      (∃ earlier, r.Repeats SyntaxTree.overloads earlier ⟨21⟩) ∧
      ∀ id, SyntaxTree.overloads.IsFunction id → id ≠ ⟨21⟩ →
        ∀ earlier, ¬ r.Repeats SyntaxTree.overloads earlier id := by
  obtain ⟨r, analysed, reports⟩ := @analyze_reports_inOrder SyntaxTree.overloads rfl
    Settings.standard SyntaxTree.overloads_inOrder
  have facts : (analyze SyntaxTree.overloads Settings.standard).map (fun r =>
        (r.diagnostics.toList, r.symbolOf ⟨21⟩, r.signatureText ⟨2⟩)) =
      .ok ([SyntaxTree.overloads.repetition ⟨21⟩ "f(int, C)"], some ⟨2⟩, .ok "f(int, C)") := rfl
  rw [analysed] at facts
  simp only [Except.map, Except.ok.injEq, Prod.mk.injEq] at facts
  obtain ⟨logged, declared, shown⟩ := facts
  obtain ⟨function, text, own, rendered, reads, -⟩ :=
    reports.message (SyntaxTree.overloads.repetition ⟨21⟩ "f(int, C)") (by simp [logged])
      ⟨_, rfl, rfl⟩
  obtain rfl : ⟨2⟩ = function := Option.some.inj (declared.symm.trans own)
  obtain rfl := Except.ok.inj (shown.symm.trans rendered)
  have each := reports.each
  simp only [logged, List.mem_singleton, exists_eq_left] at each
  refine ⟨r, _, analysed, logged, own, reads, (each ⟨21⟩ ⟨_, rfl, rfl⟩).mp ⟨rfl, rfl⟩,
    fun id isFunction other earlier repeats => other ?_⟩
  exact ((each id isFunction).mpr ⟨earlier, repeats⟩).1.symm

end ScriptSemantics
