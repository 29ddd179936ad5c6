import ScriptSemantics.Proofs.Signatures

/-!
# Functions declared twice

Of the functions of one signature in a scope all but one should be reported. The check looks at the
functions that the scope lists before one, and the order of the list is that of the locations, not that
of the walk. Where the two orders differ a function may be overlooked, and a function without
parameters may be mistaken for one that has some but has not been looked at yet. There are no other
differences.
-/
namespace ScriptSemantics

namespace Resolution

/-- The types of the parameters of a function, unless one of them is missing. -/
def signatureOf (r : Resolution) (function : SymbolId) : Option (List Ty) :=
  match r.table.parameterTypes function with
  | .ok types => types
  | .error _ => none

/-- Whether the parameters of a function are exactly of the given types. -/
def hasSignature (r : Resolution) (types : List Ty) (function : SymbolId) : Bool :=
  (r.signatureOf function).any fun others => r.types.matchParameterTypes types others = .ok true

/-- Whether the parameters of a function are all typed. -/
def isTyped (r : Resolution) (function : SymbolId) : Bool := (r.signatureOf function).isSome

theorem isTyped_of_hasSignature {r : Resolution} {types : List Ty} {function : SymbolId}
    (matching : r.hasSignature types function = true) : r.isTyped function = true := by
  unfold hasSignature at matching
  unfold isTyped
  cases signature : r.signatureOf function with
  | none => simp [signature] at matching
  | some others => rfl

def isReported (r : Resolution) (function : SymbolId) : Bool :=
  r.diagnostics.toList.any fun d => d.node == r.nodeOf function && d.code == .duplicateDeclaration

section Listed

variable (r : Resolution) (tree : SyntaxTree) (functions : List SymbolId) (function : SymbolId)

/-- Whether a function has the signature of one that is listed before it. -/
def isRepeated : Bool :=
  (r.signatureOf function).any fun types =>
    (functions.takeWhile (· != function)).any (r.hasSignature types)

/-- Whether a function is the first that is listed of its signature. -/
def isFirst : Bool := r.isTyped function && !r.isRepeated functions function

/-- Whether a function with parameters has the signature of functions that are listed before it, and
the walk leaves them all after it. -/
def isOverlooked : Bool :=
  r.isRepeated functions function && (r.signatureOf function).any fun types =>
    !types.isEmpty && (functions.takeWhile (· != function)).all fun other =>
      !(r.hasSignature types other && tree.leavesFirst (r.nodeOf other) (r.nodeOf function))

/-- Whether a function without parameters is the first that is listed of them, and the walk leaves some
function after it that is listed before it. -/
def isMistaken : Bool :=
  r.isFirst functions function && (r.signatureOf function).any List.isEmpty &&
    (functions.takeWhile (· != function)).any fun other =>
      !tree.leavesFirst (r.nodeOf other) (r.nodeOf function)

end Listed

/-- What is reported of the functions of one name in a scope. -/
structure Reports (r : Resolution) (tree : SyntaxTree) (functions : List SymbolId) : Prop where
  distinct : (functions.map r.nodeOf).Nodup
  each : ∀ function ∈ functions,
    (r.diagnostics.toList.filter fun d => d.node = r.nodeOf function).map Diagnostic.code =
      if r.isRepeated functions function && !r.isOverlooked tree functions function ||
          r.isMistaken tree functions function
      then [.duplicateDeclaration] else []
  /-- All but one of each signature are reported, up to those overlooked and those mistaken. -/
  total : (functions.filter r.isReported).length + (functions.filter (r.isFirst functions)).length +
      (functions.filter (r.isOverlooked tree functions)).length =
    (functions.filter r.isTyped).length + (functions.filter (r.isMistaken tree functions)).length
  /-- All but one of a signature are reported exactly when none is overlooked and none mistaken. -/
  signature : ∀ function ∈ functions, ∀ types, r.signatureOf function = some types →
    (((functions.filter (r.hasSignature types)).filter r.isReported).length + 1 =
        (functions.filter (r.hasSignature types)).length ↔
      ∀ other ∈ functions.filter (r.hasSignature types),
        r.isOverlooked tree functions other = false ∧ r.isMistaken tree functions other = false)

end Resolution

section Counting

variable {α : Type}

/-- Whether something before an item is taken for the same. What has been left is compared; what has
not been left seems to be bare. -/
theorem any_ite (items : List α) (left same : α → Bool) (bare : Bool) :
    items.any (fun item => if left item then same item else bare) =
      (items.any same && !(items.any same &&
          (!bare && items.all fun item => !(same item && left item))) ||
        (!items.any same && bare && items.any fun item => !left item)) := by
  cases bare with
  | false =>
    have counted : items.any (fun item => if left item then same item else false) =
        items.any fun item => same item && left item :=
      any_congr_of_mem fun item _ => by cases left item <;> simp
    have some : items.any (fun item => same item && left item) = true → items.any same = true := by
      simp only [List.any_eq_true, Bool.and_eq_true]
      rintro ⟨item, member, holds, -⟩
      exact ⟨item, member, holds⟩
    rw [counted, ← List.not_any_eq_all_not]
    revert some
    cases items.any same <;> cases items.any (fun item => same item && left item) <;> simp
  | true =>
    have counted : items.any (fun item => if left item then same item else true) =
        (items.any same || items.any fun item => !left item) := by
      rw [Bool.eq_iff_iff]
      simp only [Bool.or_eq_true, List.any_eq_true, ← exists_or, ← and_or_left]
      refine exists_congr fun item => and_congr_right fun _ => ?_
      cases left item <;> simp
    rw [counted]
    cases items.any same <;> simp

theorem length_filter_balance {p q s t u : α → Bool} (items : List α)
    (balance : ∀ item ∈ items, (p item).toNat + (q item).toNat + (s item).toNat =
      (t item).toNat + (u item).toNat) :
    (items.filter p).length + (items.filter q).length + (items.filter s).length =
      (items.filter t).length + (items.filter u).length := by
  induction items with
  | nil => rfl
  | cons item items ih =>
    have step (p : α → Bool) :
        ((item :: items).filter p).length = (p item).toNat + (items.filter p).length := by
      cases holds : p item <;> simp [holds, Nat.add_comm]
    have rest := ih fun other member => balance other (by simp [member])
    have here := balance item (by simp)
    simp only [step]
    omega

variable [DecidableEq α]

theorem takeWhile_ne {item : α} {before after : List α} (new : item ∉ before) :
    (before ++ item :: after).takeWhile (· != item) = before := by
  have different : ∀ other ∈ before, (other != item) = true := by
    intro other member
    simp only [bne_iff_ne, ne_eq]
    rintro rfl
    exact new member
  rw [List.takeWhile_append_of_pos different, List.takeWhile_cons_of_neg (by simp), List.append_nil]

/-- Of the items with a property only the first has none before it. -/
theorem filter_none_before {items : List α} (nodup : items.Nodup) (p : α → Bool) :
    (items.filter p).filter (fun item => !(items.takeWhile (· != item)).any p) =
      (items.filter p).take 1 := by
  induction items with
  | nil => rfl
  | cons first items ih =>
    obtain ⟨new, rest⟩ := List.nodup_cons.mp nodup
    have later {item : α} (member : item ∈ items) : (first :: items).takeWhile (· != item) =
        first :: items.takeWhile (· != item) := by
      apply List.takeWhile_cons_of_pos
      simp only [bne_iff_ne, ne_eq]
      rintro rfl
      exact new member
    cases holds : p first with
    | false =>
      rw [List.filter_cons_of_neg (by simp [holds]), ← ih rest]
      refine List.filter_congr fun item member => ?_
      rw [later (List.mem_filter.mp member).1, List.any_cons, holds, Bool.false_or]
    | true =>
      rw [List.filter_cons_of_pos holds, List.filter_cons_of_pos (by simp), List.take_succ_cons,
        List.take_zero, List.cons.injEq, List.filter_eq_nil_iff]
      refine ⟨rfl, fun item member => ?_⟩
      rw [later (List.mem_filter.mp member).1, List.any_cons, holds]
      simp

omit [DecidableEq α] in
/-- If only the first of some items lacks a property, the others have it. -/
theorem filter_eq_tail {items : List α} {p : α → Bool}
    (first : items.filter (fun item => !p item) = items.take 1) : items.filter p = items.tail := by
  cases items with
  | nil => rfl
  | cons item items =>
    rw [List.take_succ_cons, List.take_zero] at first
    have lacks : item ∈ (item :: items).filter fun item => !p item := by simp [first]
    have lacks : p item = false := by simpa using lacks
    rw [List.filter_cons_of_pos (by simp [lacks]), List.cons.injEq, List.filter_eq_nil_iff] at first
    rw [List.filter_cons_of_neg (by simp [lacks]), List.tail_cons, List.filter_eq_self]
    simpa using first.2

end Counting

namespace View

variable {tree : SyntaxTree} {b r : Resolution} {v : View} (prepared : Prepared tree b)
  (follows : v.Follows tree b r) {scope : ScopeId} {name : String} {function : SymbolId}
include prepared follows

theorem Follows.functionsAt_eq (scope : ScopeId) (name : String) :
    r.functionsAt scope name = b.functionsAt scope name := by
  have completes := follows.rep.completes
  unfold Resolution.functionsAt
  by_cases known : scope.index < b.table.scopes.size
  · rw [← completes.listing_filter follows.rep.ordered prepared.registered.ordered
      prepared.registered.distinct known, List.filter_filter]
    refine List.filter_congr fun id member => ?_
    obtain ⟨symbol, found, -⟩ :=
      (follows.rep.ordered.mem_listing (completes.frames.size_eq ▸ known)).mp member
    rcases follows.rep.symbol_cases follows.grounded.nodup found with
      ⟨old, foundOld, rfl⟩ | ⟨declarator, -, new, rfl⟩
    · have small := (Array.getElem?_eq_some_iff.mp foundOld).1
      simp only [SymbolTable.holds, found, foundOld, Option.any_some, small, decide_true,
        Bool.and_true, completed]
      cases old.kind <;> rfl
    · have beyond : b.table.symbols.size ≤ id.index := by
        rw [new]
        exact Nat.le_add_right ..
      simp [SymbolTable.holds, found, SymbolKind.isVariable, Nat.not_lt.mpr beyond]
  · have unknown : r.table.scopes[scope.index]? = none :=
      Array.getElem?_eq_none (by rw [completes.frames.size_eq]; omega)
    have unknownToo : b.table.scopes[scope.index]? = none := Array.getElem?_eq_none (by omega)
    simp [SymbolTable.listing, unknown, unknownToo]

section Reading

variable (listed : function ∈ b.functionsAt scope name)
include listed

omit prepared in
theorem Follows.nodeOf_eq : r.nodeOf function = b.nodeOf function := by
  obtain ⟨symbol, found, -⟩ := SymbolTable.holds_iff.mp (List.mem_filter.mp listed).2
  simp [Resolution.nodeOf, found, follows.rep.old_symbol found, completed]

theorem Follows.signatureOf_eq : r.signatureOf function = v.signature function := by
  obtain ⟨symbol, found, isFunction⟩ := SymbolTable.holds_iff.mp (List.mem_filter.mp listed).2
  have isId := prepared.registered.ordered.symbol_id _ symbol found
  rcases prepared.registered.fresh _ symbol found with ⟨own, kind⟩ | ⟨own, kind⟩
  · simp [kind, SymbolKind.isClass] at isFunction
  · rw [Resolution.signatureOf, follows.rep.parameterTypes_eq_ok follows.grounded found isId kind]

theorem Follows.signatureText_eq : r.signatureText function = .ok (v.signatureText b function) := by
  obtain ⟨symbol, found, isFunction⟩ := SymbolTable.holds_iff.mp (List.mem_filter.mp listed).2
  have isId := prepared.registered.ordered.symbol_id _ symbol found
  rcases prepared.registered.fresh _ symbol found with ⟨own, kind⟩ | ⟨own, kind⟩
  · simp [kind, SymbolKind.isClass] at isFunction
  · exact follows.rep.signatureText_eq_ok prepared follows.grounded found isId kind

theorem Follows.hasSignature_eq (types : List Ty) :
    r.hasSignature types function = v.accepts types function := by
  rw [Resolution.hasSignature, follows.signatureOf_eq prepared listed, follows.rep.types]
  rfl

end Reading

theorem Follows.functionsAt_nodup (scope : ScopeId) (name : String) :
    (r.functionsAt scope name).Nodup := by
  rw [follows.functionsAt_eq prepared]
  exact (prepared.registered.ordered.listing_nodup scope).filter _

/-- What is reported of a function depends on the functions listed before it. -/
theorem Follows.function_reports (same : SameMembers tree b (members tree b) v)
    {earlier later : List SymbolId}
    (split : r.functionsAt scope name = earlier ++ function :: later) :
    r.diagnostics.toList.filter (fun d => d.node = r.nodeOf function) =
      match r.signatureOf function with
      | none => []
      | some types =>
        if earlier.any fun other =>
            if tree.leavesFirst (r.nodeOf other) (r.nodeOf function) then r.hasSignature types other
            else types.isEmpty
        then [tree.repetition (r.nodeOf function) (v.signatureText b function)] else [] := by
  rw [follows.functionsAt_eq prepared] at split
  have listed {other : SymbolId} (member : other ∈ earlier ++ function :: later) :
      other ∈ b.functionsAt scope name := split ▸ member
  have here := listed (show function ∈ _ by simp)
  obtain ⟨node, returnType, parameters, body, -, found, is, -⟩ := prepared.exists_function here
  have notLocal : b.isLocal tree (b.nodeOf function) = false := by
    have kind : node.kind = .functionDeclaration := Node.kind_of is
    exact Resolution.isLocal_eq_false found (by simp [kind]) (by simp [kind])
  have diagnostics : r.diagnostics.toList.filter (fun d => d.node = b.nodeOf function) =
      (members tree b).diagnostics.filter fun d => d.node = b.nodeOf function := by
    have others (u : View) : u.diagnostics.filter (fun d => d.node = b.nodeOf function) =
        (u.diagnostics.filter fun d => !b.isLocal tree d.node).filter
          fun d => d.node = b.nodeOf function := by
      rw [List.filter_filter]
      refine List.filter_congr fun d _ => ?_
      by_cases isHere : d.node = b.nodeOf function
      · simp [isHere, notLocal]
      · simp [isHere]
    rw [follows.rep.diagnostics, others v, ← same.diagnostics, ← others]
  rw [follows.nodeOf_eq here, follows.signatureOf_eq prepared here, diagnostics,
    members_reports prepared split, same.signature_eq, same.signatureText_eq]
  cases v.signature function with
  | none => rfl
  | some types =>
    let report := tree.repetition (b.nodeOf function) (v.signatureText b function)
    refine congrArg (fun any : Bool => if any then [report] else [])
      (any_congr_of_mem fun other member => ?_)
    have inScope := listed (List.mem_append_left _ member)
    rw [follows.nodeOf_eq inScope, follows.hasSignature_eq prepared inScope, same.accepts_eq]

section Reporting

variable (same : SameMembers tree b (members tree b) v)
  (listed : function ∈ r.functionsAt scope name)

include same listed

theorem Follows.codes_eq :
    (r.diagnostics.toList.filter fun d => d.node = r.nodeOf function).map Diagnostic.code =
      if r.isRepeated (r.functionsAt scope name) function &&
            !r.isOverlooked tree (r.functionsAt scope name) function ||
          r.isMistaken tree (r.functionsAt scope name) function
      then [.duplicateDeclaration] else [] := by
  obtain ⟨earlier, later, split, new⟩ := List.eq_append_cons_of_mem listed
  rw [follows.function_reports prepared same split]
  simp only [Resolution.isRepeated, Resolution.isOverlooked, Resolution.isMistaken, Resolution.isFirst,
    Resolution.isTyped, split, takeWhile_ne new]
  cases r.signatureOf function with
  | none => simp
  | some types =>
    simp only [any_ite, Option.any_some, Option.isSome_some, Bool.true_and]
    split <;> rfl

theorem Follows.isReported_eq : r.isReported function =
    (r.isRepeated (r.functionsAt scope name) function &&
        !r.isOverlooked tree (r.functionsAt scope name) function ||
      r.isMistaken tree (r.functionsAt scope name) function) := by
  have codes := follows.codes_eq prepared same listed
  have isReported : r.isReported function = true ↔ DiagnosticCode.duplicateDeclaration ∈
      (r.diagnostics.toList.filter fun d => d.node = r.nodeOf function).map Diagnostic.code := by
    simp only [Resolution.isReported, List.any_eq_true, Bool.and_eq_true, beq_iff_eq, List.mem_map,
      List.mem_filter, decide_eq_true_eq, and_assoc]
  rw [codes] at isReported
  rw [Bool.eq_iff_iff, isReported]
  split
  next reported => simpa using reported
  next silent => simpa using silent

/-- A function that is typed is reported or the first of its signature, unless it is overlooked; a
mistaken one is both. -/
theorem Follows.balanced :
    (r.isReported function).toNat + (r.isFirst (r.functionsAt scope name) function).toNat +
        (r.isOverlooked tree (r.functionsAt scope name) function).toNat =
      (r.isTyped function).toNat +
        (r.isMistaken tree (r.functionsAt scope name) function).toNat := by
  rw [follows.isReported_eq prepared same listed]
  have typed : r.isRepeated (r.functionsAt scope name) function = true →
      r.isTyped function = true := by
    unfold Resolution.isRepeated Resolution.isTyped
    cases r.signatureOf function <;> simp
  have repeated : r.isOverlooked tree (r.functionsAt scope name) function = true →
      r.isRepeated (r.functionsAt scope name) function = true := fun overlooked =>
    (Bool.and_eq_true_iff.mp overlooked).1
  have first : r.isMistaken tree (r.functionsAt scope name) function = true →
      r.isFirst (r.functionsAt scope name) function = true := fun mistaken =>
    (Bool.and_eq_true_iff.mp (Bool.and_eq_true_iff.mp mistaken).1).1
  unfold Resolution.isFirst at first ⊢
  revert typed repeated first
  cases r.isTyped function <;> cases r.isRepeated (r.functionsAt scope name) function <;>
    cases r.isOverlooked tree (r.functionsAt scope name) function <;>
    cases r.isMistaken tree (r.functionsAt scope name) function <;> simp

end Reporting

/-- A function has the signature of another exactly when the types stand for the same terms. -/
theorem Follows.hasSignature_iff {types : List Ty} (listed : function ∈ r.functionsAt scope name)
    (signature : r.signatureOf function = some types) {other : SymbolId}
    (listedOther : other ∈ r.functionsAt scope name) : r.hasSignature types other = true ↔
      ∃ others, r.signatureOf other = some others ∧
        types.map v.types.term = others.map v.types.term := by
  rw [follows.functionsAt_eq prepared] at listed listedOther
  rw [follows.signatureOf_eq prepared listed] at signature
  rw [follows.hasSignature_eq prepared listedOther, follows.signatureOf_eq prepared listedOther, accepts]
  have formed := follows.grounded.signature_formed signature
  cases found : v.signature other with
  | none => simp
  | some others =>
    simp only [Option.any_some, sameTypes, decide_eq_true_eq, Option.some.injEq, exists_eq_left']
    exact TypeTable.matchParameterTypes_eq_ok_true_iff follows.grounded.types formed
      (follows.grounded.signature_formed found)

section Signature

variable {types : List Ty} (listed : function ∈ r.functionsAt scope name)
  (signature : r.signatureOf function = some types)
include listed signature

/-- Functions of one signature are the first of it for the same reason. -/
theorem Follows.isFirst_eq {other : SymbolId}
    (member : other ∈ (r.functionsAt scope name).filter (r.hasSignature types)) :
    r.isFirst (r.functionsAt scope name) other =
      !((r.functionsAt scope name).takeWhile (· != other)).any (r.hasSignature types) := by
  obtain ⟨listedOther, matching⟩ := List.mem_filter.mp member
  obtain ⟨others, signatureOther, equal⟩ :=
    (follows.hasSignature_iff prepared listed signature listedOther).mp matching
  simp only [Resolution.isFirst, Resolution.isTyped, Resolution.isRepeated, signatureOther,
    Option.isSome_some, Option.any_some, Bool.true_and]
  refine congrArg not (any_congr_of_mem fun third before => ?_)
  have listedThird := (List.takeWhile_sublist _).subset before
  rw [Bool.eq_iff_iff, follows.hasSignature_iff prepared listed signature listedThird,
    follows.hasSignature_iff prepared listedOther signatureOther listedThird, equal]

/-- Of the functions of one signature the first is the one that is listed first. -/
theorem Follows.filter_isFirst :
    ((r.functionsAt scope name).filter (r.hasSignature types)).filter
        (r.isFirst (r.functionsAt scope name)) =
      ((r.functionsAt scope name).filter (r.hasSignature types)).take 1 := by
  rw [List.filter_congr fun other => follows.isFirst_eq prepared listed signature,
    filter_none_before (follows.functionsAt_nodup prepared scope name)]

theorem Follows.exists_first :
    (((r.functionsAt scope name).filter (r.hasSignature types)).filter
      (r.isFirst (r.functionsAt scope name))).length = 1 := by
  have itself : function ∈ (r.functionsAt scope name).filter (r.hasSignature types) :=
    List.mem_filter.mpr ⟨listed, (follows.hasSignature_iff prepared listed signature listed).mpr
      ⟨types, signature, rfl⟩⟩
  have some := List.length_pos_of_mem itself
  rw [follows.filter_isFirst prepared listed signature, List.length_take]
  omega

/-- Only functions with parameters are overlooked, and only functions without any are mistaken. -/
theorem Follows.isEmpty_of_defect {other : SymbolId}
    (member : other ∈ (r.functionsAt scope name).filter (r.hasSignature types)) :
    (r.isOverlooked tree (r.functionsAt scope name) other = true → types.isEmpty = false) ∧
      (r.isMistaken tree (r.functionsAt scope name) other = true → types.isEmpty = true) := by
  obtain ⟨listedOther, matching⟩ := List.mem_filter.mp member
  obtain ⟨others, signatureOther, equal⟩ :=
    (follows.hasSignature_iff prepared listed signature listedOther).mp matching
  have empty : types.isEmpty = others.isEmpty := by
    simpa using congrArg List.isEmpty equal
  rw [empty]
  unfold Resolution.isOverlooked Resolution.isMistaken
  simp only [signatureOther, Option.any_some, Bool.and_eq_true, Bool.not_eq_true']
  exact ⟨fun overlooked => overlooked.2.1, fun mistaken => mistaken.1.2⟩

theorem Follows.reports_signature (same : SameMembers tree b (members tree b) v) :
    (((r.functionsAt scope name).filter (r.hasSignature types)).filter r.isReported).length + 1 =
        ((r.functionsAt scope name).filter (r.hasSignature types)).length ↔
      ∀ other ∈ (r.functionsAt scope name).filter (r.hasSignature types),
        r.isOverlooked tree (r.functionsAt scope name) other = false ∧
          r.isMistaken tree (r.functionsAt scope name) other = false := by
  have one := follows.exists_first prepared listed signature
  have defects (other : SymbolId)
      (member : other ∈ (r.functionsAt scope name).filter (r.hasSignature types)) :=
    follows.isEmpty_of_defect prepared listed signature member
  have typed : ((r.functionsAt scope name).filter (r.hasSignature types)).filter r.isTyped =
      (r.functionsAt scope name).filter (r.hasSignature types) :=
    List.filter_eq_self.mpr fun other member =>
      Resolution.isTyped_of_hasSignature (List.mem_filter.mp member).2
  have sum := @length_filter_balance _ r.isReported (r.isFirst (r.functionsAt scope name))
    (r.isOverlooked tree (r.functionsAt scope name)) r.isTyped
    (r.isMistaken tree (r.functionsAt scope name))
    ((r.functionsAt scope name).filter (r.hasSignature types))
    fun other member => follows.balanced prepared same (List.mem_filter.mp member).1
  rw [one, typed] at sum
  generalize (r.functionsAt scope name).filter (r.hasSignature types) = matching at sum defects ⊢
  have none (p : SymbolId → Bool) :
      (matching.filter p).length = 0 ↔ ∀ other ∈ matching, p other = false := by
    simp [List.filter_eq_nil_iff]
  have either : (matching.filter (r.isOverlooked tree (r.functionsAt scope name))).length = 0 ∨
      (matching.filter (r.isMistaken tree (r.functionsAt scope name))).length = 0 := by
    rw [none, none]
    cases bare : types.isEmpty with
    | true =>
      refine .inl fun other member => Bool.eq_false_iff.mpr fun overlooked => ?_
      simp [(defects other member).1 overlooked] at bare
    | false =>
      refine .inr fun other member => Bool.eq_false_iff.mpr fun mistaken => ?_
      simp [(defects other member).2 mistaken] at bare
  rw [forall₂_and, ← none (r.isOverlooked tree (r.functionsAt scope name)),
    ← none (r.isMistaken tree (r.functionsAt scope name))]
  omega

end Signature

end View

/-- In an analysed tree, of the functions of one name in a scope all but one of each signature are
reported, except for those that the order of the locations hides from the walk. -/
theorem analyze_reports_functions {tree : SyntaxTree} (valid : tree.validate = .ok ())
    (settings : Settings) : ∃ r, analyze tree settings = .ok r ∧
      ∀ scope name, r.Reports tree (r.functionsAt scope name) := by
  obtain ⟨b, r, -, prepared, analysed, follows⟩ :=
    exists_analysed (SyntaxTree.validate_eq_ok_iff.mp valid) settings
  refine ⟨r, analysed, fun scope name => ?_⟩
  have same {function : SymbolId} (listed : function ∈ r.functionsAt scope name) :
      View.SameMembers tree b (View.members tree b)
        (View.analysed tree b settings.enterLocalVariables) := by
    rw [follows.functionsAt_eq prepared] at listed
    obtain ⟨reached, isFunction, -⟩ := prepared.listed_function listed
    exact View.members_sameMembers_analysed prepared
      (fun root => prepared.formed.root_of_function reached isFunction) _
  constructor
  · refine List.Nodup.map_on (fun first inFirst second inSecond equal => ?_)
      (follows.functionsAt_nodup prepared scope name)
    rw [follows.functionsAt_eq prepared] at inFirst inSecond
    rw [follows.nodeOf_eq inFirst, follows.nodeOf_eq inSecond] at equal
    exact prepared.nodeOf_inj inFirst inSecond equal
  · exact fun function listed => follows.codes_eq prepared (same listed) listed
  · exact length_filter_balance _ fun function listed =>
      follows.balanced prepared (same listed) listed
  · exact fun function listed types signature =>
      follows.reports_signature prepared listed signature (same listed)

/-- The unit `f() { } f(int a) { } f(int a) { }` without locations, its functions numbered backwards. -/
def SyntaxTree.backwards : SyntaxTree where
  nodes := #[
    ⟨.primitiveType .int, .origin⟩, ⟨.typeNode ⟨0⟩, .origin⟩,
    ⟨.variableDeclaratorId "a", .origin⟩, ⟨.formalParameter ⟨1⟩ ⟨2⟩, .origin⟩,
    ⟨.block [], .origin⟩, ⟨.functionDeclaration "f" none [⟨3⟩] ⟨4⟩, .origin⟩,
    ⟨.primitiveType .int, .origin⟩, ⟨.typeNode ⟨6⟩, .origin⟩,
    ⟨.variableDeclaratorId "a", .origin⟩, ⟨.formalParameter ⟨7⟩ ⟨8⟩, .origin⟩,
    ⟨.block [], .origin⟩, ⟨.functionDeclaration "f" none [⟨9⟩] ⟨10⟩, .origin⟩,
    ⟨.block [], .origin⟩, ⟨.functionDeclaration "f" none [] ⟨12⟩, .origin⟩,
    ⟨.compilationUnit [⟨13⟩, ⟨11⟩, ⟨5⟩], .origin⟩]
  root := ⟨14⟩

/-- The function without parameters is mistaken and reported; the repetition is overlooked. -/
theorem analyze_reports_functions_backwards :
    ∃ r, analyze SyntaxTree.backwards Settings.standard = .ok r ∧
      r.functionsAt ⟨0⟩ "f" = [⟨2⟩, ⟨1⟩, ⟨0⟩] ∧ r.Reports SyntaxTree.backwards [⟨2⟩, ⟨1⟩, ⟨0⟩] ∧
      [⟨2⟩, ⟨1⟩, ⟨0⟩].filter (r.isOverlooked SyntaxTree.backwards [⟨2⟩, ⟨1⟩, ⟨0⟩]) = [⟨1⟩] ∧
      [⟨2⟩, ⟨1⟩, ⟨0⟩].filter (r.isMistaken SyntaxTree.backwards [⟨2⟩, ⟨1⟩, ⟨0⟩]) = [⟨0⟩] ∧
      [⟨2⟩, ⟨1⟩, ⟨0⟩].filter r.isReported = [⟨0⟩] := by
  obtain ⟨r, analysed, reports⟩ :=
    @analyze_reports_functions SyntaxTree.backwards rfl Settings.standard
  have facts : (analyze SyntaxTree.backwards Settings.standard).map (fun r =>
      (r.functionsAt ⟨0⟩ "f",
        [⟨2⟩, ⟨1⟩, ⟨0⟩].filter (r.isOverlooked SyntaxTree.backwards [⟨2⟩, ⟨1⟩, ⟨0⟩]),
        [⟨2⟩, ⟨1⟩, ⟨0⟩].filter (r.isMistaken SyntaxTree.backwards [⟨2⟩, ⟨1⟩, ⟨0⟩]),
        [⟨2⟩, ⟨1⟩, ⟨0⟩].filter r.isReported)) =
      .ok ([⟨2⟩, ⟨1⟩, ⟨0⟩], [⟨1⟩], [⟨0⟩], [⟨0⟩]) := rfl
  rw [analysed] at facts
  simp only [Except.map, Except.ok.injEq, Prod.mk.injEq] at facts
  exact ⟨r, analysed, facts.1, facts.1 ▸ reports ⟨0⟩ "f", facts.2⟩

end ScriptSemantics
