import ScriptSemantics.Proofs.Handles

/-!
# Types read back from their texts

The text of a handle is the text of its term. A text that mentions no class can be read in one way
only, whatever follows it: no keyword begins another, what opens a function type is no keyword, and
parentheses keep the commas of inner function types apart from those of outer ones.
-/
namespace ScriptSemantics

namespace TypeTerm

/-- The text of a term, given the names of classes. The terms of known handles have no function types
as atoms. -/
def text (name : ScopeId → String) : TypeTerm → String
  | .atom (.primitive p) => p.keyword
  | .atom .void => "void"
  | .atom (.classType scope) => name scope
  | .atom (.functionType _) => ""
  | .function result parameters =>
    "function(" ++ Resolution.commaSeparated (parameters.map (text name)) ++ "): " ++ text name result

/-- Terms of primitive types, `void` and functions only. -/
inductive ClassFree : TypeTerm → Prop
  | primitive (p : PrimitiveType) : ClassFree (.atom (.primitive p))
  | void : ClassFree (.atom .void)
  | function {result : TypeTerm} {parameters : List TypeTerm} (isResult : ClassFree result)
      (areParameters : ∀ parameter ∈ parameters, ClassFree parameter) :
      ClassFree (.function result parameters)

section Reading

variable {name : ScopeId → String} {s t : TypeTerm} {u v : List Char}

def chars (name : ScopeId → String) (t : TypeTerm) : List Char := (t.text name).toList

/-- All parameters but the first, each with what stands before it. -/
def furtherChars (name : ScopeId → String) (parameters : List TypeTerm) : List Char :=
  parameters.flatMap fun parameter => ", ".toList ++ chars name parameter

theorem toList_commaSeparated (first : TypeTerm) (others : List TypeTerm) :
    (Resolution.commaSeparated ((first :: others).map (text name))).toList =
      chars name first ++ furtherChars name others := by
  unfold Resolution.commaSeparated
  rw [String.toList_intercalate]
  induction others generalizing first with
  | nil => simp [chars, furtherChars]
  | cons second others ih =>
    have rest := ih second
    simp only [List.map_cons] at rest ⊢
    rw [List.intercalate_cons_cons, rest]
    simp [chars, furtherChars, List.append_assoc]

/-- What stands between the parentheses of a function type. -/
def parameterChars (name : ScopeId → String) : List TypeTerm → List Char
  | [] => []
  | first :: others => chars name first ++ furtherChars name others

/-- What a text may begin with. -/
inductive Opening where
  | keyword (p : PrimitiveType)
  | void
  | function

/-- The word that a text begins with. -/
def Opening.word : Opening → String
  | .keyword p => p.keyword
  | .void => "void"
  | .function => "function("

theorem Opening.prefixFree {a b : Opening}
    (same : a.word.toList ++ u = b.word.toList ++ v) : a = b ∧ u = v := by
  cases a with
  | keyword p =>
    cases b with
    | keyword q => cases p <;> cases q <;> simp_all [word, PrimitiveType.keyword]
    | void => cases p <;> simp [word, PrimitiveType.keyword] at same
    | function => cases p <;> simp [word, PrimitiveType.keyword] at same
  | void =>
    cases b with
    | keyword q => cases q <;> simp [word, PrimitiveType.keyword] at same
    | void => exact ⟨rfl, List.append_cancel_left same⟩
    | function => simp [word] at same
  | function =>
    cases b with
    | keyword q => cases q <;> simp [word, PrimitiveType.keyword] at same
    | void => simp [word] at same
    | function => exact ⟨rfl, List.append_cancel_left same⟩

theorem chars_primitive (p : PrimitiveType) :
    chars name (.atom (.primitive p)) = (Opening.keyword p).word.toList := by
  simp [chars, text, Opening.word]

theorem chars_void : chars name (.atom .void) = Opening.void.word.toList := by
  simp [chars, text, Opening.word]

theorem chars_function_append (result : TypeTerm) (parameters : List TypeTerm) :
    chars name (.function result parameters) ++ u = Opening.function.word.toList ++
      (parameterChars name parameters ++ ')' :: (": ".toList ++ (chars name result ++ u))) := by
  cases parameters with
  | nil => simp [chars, text, Resolution.commaSeparated, parameterChars, Opening.word]
  | cons first others =>
    simp only [chars, text, String.toList_append, toList_commaSeparated, parameterChars,
      Opening.word]
    simp [List.append_assoc]

/-- A text begins with a letter, so it does not begin with what ends a list of parameters. -/
theorem chars_append_ne (free : t.ClassFree) : chars name t ++ u ≠ ')' :: v := by
  cases free with
  | primitive p => cases p <;> simp [chars_primitive, Opening.word, PrimitiveType.keyword]
  | void => simp [chars_void, Opening.word]
  | function => simp [chars_function_append, Opening.word]

/-- Parameters end at the first parenthesis that none of them has opened. -/
theorem furtherChars_prefixFree {ss ts : List TypeTerm}
    (each : ∀ s ∈ ss, ∀ t ∈ ts, ∀ u v, chars name s ++ u = chars name t ++ v → s = t ∧ u = v)
    (same : furtherChars name ss ++ ')' :: u = furtherChars name ts ++ ')' :: v) :
    ss = ts ∧ u = v := by
  induction ss generalizing ts with
  | nil =>
    cases ts with
    | nil => simpa [furtherChars] using same
    | cons t ts => simp [furtherChars] at same
  | cons s ss ih =>
    cases ts with
    | nil => simp [furtherChars] at same
    | cons t ts =>
      have here : chars name s ++ (furtherChars name ss ++ ')' :: u) =
          chars name t ++ (furtherChars name ts ++ ')' :: v) := by
        simpa [furtherChars] using same
      obtain ⟨rfl, rest⟩ := each s (by simp) t (by simp) _ _ here
      obtain ⟨rfl, rfl⟩ := ih (fun a inSs b inTs => each a (by simp [inSs]) b (by simp [inTs])) rest
      exact ⟨rfl, rfl⟩

theorem parameterChars_prefixFree {ss ts : List TypeTerm} (freeLeft : ∀ s ∈ ss, s.ClassFree)
    (freeRight : ∀ t ∈ ts, t.ClassFree)
    (each : ∀ s ∈ ss, ∀ t ∈ ts, ∀ u v, chars name s ++ u = chars name t ++ v → s = t ∧ u = v)
    (same : parameterChars name ss ++ ')' :: u = parameterChars name ts ++ ')' :: v) :
    ss = ts ∧ u = v := by
  cases ss with
  | nil =>
    cases ts with
    | nil => simpa [parameterChars] using same
    | cons t ts =>
      rw [parameterChars, parameterChars, List.nil_append, List.append_assoc] at same
      exact absurd same.symm (chars_append_ne (freeRight t (by simp)))
  | cons s ss =>
    cases ts with
    | nil =>
      rw [parameterChars, parameterChars, List.nil_append, List.append_assoc] at same
      exact absurd same (chars_append_ne (freeLeft s (by simp)))
    | cons t ts =>
      rw [parameterChars, parameterChars, List.append_assoc, List.append_assoc] at same
      obtain ⟨rfl, rest⟩ := each s (by simp) t (by simp) _ _ same
      obtain ⟨rfl, rfl⟩ := furtherChars_prefixFree
        (fun a inSs b inTs => each a (by simp [inSs]) b (by simp [inTs])) rest
      exact ⟨rfl, rfl⟩

/-- Texts of terms without classes that begin the same characters are texts of one term. -/
theorem ClassFree.prefixFree (freeLeft : s.ClassFree) (freeRight : t.ClassFree)
    (same : chars name s ++ u = chars name t ++ v) : s = t ∧ u = v := by
  induction freeLeft generalizing t u v with
  | primitive p =>
    rw [chars_primitive] at same
    cases freeRight with
    | primitive q =>
      rw [chars_primitive] at same
      obtain ⟨opening, rfl⟩ := Opening.prefixFree same
      cases opening
      exact ⟨rfl, rfl⟩
    | void =>
      rw [chars_void] at same
      cases (Opening.prefixFree same).1
    | function =>
      rw [chars_function_append] at same
      cases (Opening.prefixFree same).1
  | void =>
    rw [chars_void] at same
    cases freeRight with
    | primitive q =>
      rw [chars_primitive] at same
      cases (Opening.prefixFree same).1
    | void =>
      rw [chars_void] at same
      exact ⟨rfl, (Opening.prefixFree same).2⟩
    | function =>
      rw [chars_function_append] at same
      cases (Opening.prefixFree same).1
  | function isResult areParameters ihResult ihParameters =>
    rw [chars_function_append] at same
    cases freeRight with
    | primitive q =>
      rw [chars_primitive] at same
      cases (Opening.prefixFree same).1
    | void =>
      rw [chars_void] at same
      cases (Opening.prefixFree same).1
    | function isResult' areParameters' =>
      rw [chars_function_append] at same
      obtain ⟨rfl, rest⟩ := parameterChars_prefixFree areParameters areParameters'
        (fun a inLeft b inRight u v => ihParameters a inLeft (areParameters' b inRight))
        (List.append_cancel_left same)
      obtain ⟨rfl, rfl⟩ := ihResult isResult' (List.append_cancel_left rest)
      exact ⟨rfl, rfl⟩

theorem ClassFree.text_inj (freeLeft : s.ClassFree) (freeRight : t.ClassFree) :
    s.text name = t.text name ↔ s = t := by
  refine ⟨fun same => ?_, fun same => same ▸ rfl⟩
  have together : chars name s ++ [] = chars name t ++ [] := by rw [chars, chars, same]
  exact (freeLeft.prefixFree freeRight together).1

end Reading

end TypeTerm

/-- A handle mentions a class: it is its type, or a part of its signature mentions it. -/
inductive TypeTable.Mentions (types : TypeTable) (scope : ScopeId) : Ty → Prop
  | itself : Mentions types scope (.classType scope)
  | result {id : FunctionTypeId} {signature : Signature} (found : types.signature id = .ok signature)
      (within : Mentions types scope signature.returnType) : Mentions types scope (.functionType id)
  | parameter {id : FunctionTypeId} {signature : Signature} {type : Ty}
      (found : types.signature id = .ok signature) (member : type ∈ signature.parameterTypes)
      (within : Mentions types scope type) : Mentions types scope (.functionType id)

/-- What mentions a class is the class or has a signature with the class below it. -/
theorem TypeTable.Mentions.listed {types : TypeTable} {scope : ScopeId} {type : Ty}
    (mentions : types.Mentions scope type) : type = .classType scope ∨
      ∃ signature ∈ types.functions,
        .classType scope ∈ signature.returnType :: signature.parameterTypes := by
  have stored {id : FunctionTypeId} {signature : Signature}
      (found : types.signature id = .ok signature) : signature ∈ types.functions :=
    Array.mem_of_getElem? (orDangling_eq_ok_iff.mp found)
  induction mentions with
  | itself => exact .inl rfl
  | result found within ih =>
    exact .inr (ih.elim (fun is => ⟨_, stored found, is ▸ List.mem_cons_self⟩) id)
  | parameter found member within ih =>
    exact .inr (ih.elim (fun is => ⟨_, stored found, is ▸ List.mem_cons_of_mem _ member⟩) id)

theorem TypeTable.term_classFree {types : TypeTable} {isClass : ScopeId → Prop}
    (formed : types.Formed isClass) {bound : Nat} (known : bound ≤ types.functions.size) {type : Ty}
    (ok : type.Formed isClass bound) (none : ∀ scope, ¬ types.Mentions scope type) :
    (types.term type).ClassFree := by
  induction bound using Nat.strongRecOn generalizing type with
  | ind bound ih =>
    cases type with
    | functionType id =>
      change id.index < bound at ok
      obtain ⟨signature, found⟩ := exists_signature types id (by omega)
      have read : types.signature id = .ok signature := orDangling_eq_ok_iff.mpr found
      have parts := formed _ _ found
      rw [term_function formed found]
      refine .function (ih id.index ok (by omega) parts.1 fun scope within =>
        none scope (.result read within)) ?_
      intro term member
      obtain ⟨type, inParameters, rfl⟩ := List.mem_map.mp member
      exact ih id.index ok (by omega) (parts.2 type inParameters) fun scope within =>
        none scope (.parameter read inParameters within)
    | primitive p =>
      rw [term_plain (by simp)]
      exact .primitive p
    | void =>
      rw [term_plain (by simp)]
      exact .void
    | classType scope => exact absurd .itself (none scope)

namespace Resolution

/-- The text of a known handle is that of its term. -/
theorem typeTextWithin_eq_text {r : Resolution} {isClass : ScopeId → Prop}
    (formed : r.types.Formed isClass) {name : ScopeId → String}
    (named : ∀ scope, isClass scope → r.classText scope = .ok (name scope)) {bound depth : Nat}
    (known : bound ≤ r.types.functions.size) (room : bound ≤ depth) {type : Ty}
    (ok : type.Formed isClass bound) :
    r.typeTextWithin depth type = .ok ((r.types.term type).text name) := by
  induction bound using Nat.strongRecOn generalizing depth type with
  | ind bound ih =>
    cases type with
    | functionType id =>
      change id.index < bound at ok
      obtain ⟨depth, rfl⟩ : ∃ m, depth = m + 1 := ⟨depth - 1, by omega⟩
      obtain ⟨signature, found⟩ := TypeTable.exists_signature r.types id (by omega)
      have parts := formed _ _ found
      have parameters : signature.parameterTypes.mapM (r.typeTextWithin depth) =
          .ok (signature.parameterTypes.map fun type => (r.types.term type).text name) :=
        mapM_eq_ok _ fun type member =>
          ih _ ok (by omega) (by omega) (parts.2 type member)
      have result : r.typeTextWithin depth signature.returnType =
          .ok ((r.types.term signature.returnType).text name) :=
        ih _ ok (by omega) (by omega) parts.1
      simp only [typeTextWithin, TypeTable.signature, found, orDangling_some, ok_bind, parameters,
        result, TypeTable.term_function formed found, TypeTerm.text, List.map_map]
      rfl
    | classType scope =>
      rw [TypeTable.term_plain (by simp)]
      cases depth <;> simpa [typeTextWithin, TypeTerm.text] using named scope ok
    | primitive p =>
      rw [TypeTable.term_plain (by simp)]
      cases depth <;> simp [typeTextWithin, TypeTerm.text, pure, Except.pure]
    | void =>
      rw [TypeTable.term_plain (by simp)]
      cases depth <;> simp [typeTextWithin, TypeTerm.text, pure, Except.pure]

/-- A scope is that of a class, and the class is there. -/
def HasClass (r : Resolution) (scope : ScopeId) : Prop :=
  ∃ symbol x, r.scopeKind scope = some (.classScope symbol) ∧ r.table.symbol symbol = .ok x

/-- The name that a class type is shown by. -/
def className (r : Resolution) (scope : ScopeId) : String :=
  match r.classText scope with
  | .ok text => text
  | .error _ => ""

theorem HasClass.classText {r : Resolution} {scope : ScopeId} (is : r.HasClass scope) :
    r.classText scope = .ok (r.className scope) := by
  obtain ⟨symbol, x, kind, found⟩ := is
  obtain ⟨s, foundScope, isKind⟩ := Option.map_eq_some_iff.mp kind
  have read : r.classText scope = .ok x.name := by
    simp [Resolution.classText, SymbolTable.owner, SymbolTable.scope, foundScope, isKind,
      ScopeKind.owner?, found, pure, Except.pure]
  rw [className, read]

/-- In a resolution whose function types take and return only earlier function types and classes that
are there, two types that are the same have one text, and if neither mentions a class, two types that
have one text are the same. -/
theorem typeText_unambiguous {r : Resolution} (formed : r.types.Formed r.HasClass) {left right : Ty}
    (okLeft : left.Formed r.HasClass r.types.functions.size)
    (okRight : right.Formed r.HasClass r.types.functions.size) :
    ∃ same leftText rightText, r.types.sameType left right = .ok same ∧
      r.typeText left = .ok leftText ∧ r.typeText right = .ok rightText ∧
      (same = true → leftText = rightText) ∧
      ((∀ scope, ¬ r.types.Mentions scope left) → (∀ scope, ¬ r.types.Mentions scope right) →
        leftText = rightText → same = true) := by
  have shown {type : Ty} (ok : type.Formed r.HasClass r.types.functions.size) :
      r.typeText type = .ok ((r.types.term type).text r.className) :=
    typeTextWithin_eq_text formed (fun _ is => is.classText) (Nat.le_refl _) (Nat.le_succ _) ok
  obtain ⟨same, compared, isSame⟩ := TypeTable.sameType_spec formed okLeft okRight
  refine ⟨same, _, _, compared, shown okLeft, shown okRight, fun is => ?_,
    fun noneLeft noneRight texts => ?_⟩
  · rw [isSame.mp is]
  · have freeLeft := TypeTable.term_classFree formed (Nat.le_refl _) okLeft noneLeft
    have freeRight := TypeTable.term_classFree formed (Nat.le_refl _) okRight noneRight
    exact isSame.mpr ((freeLeft.text_inj freeRight).mp texts)

end Resolution

/-- The function types of an analysed tree take and return only earlier function types and classes
that are there, and every handle that it holds is one of them. -/
theorem analyze_types_formed {tree : SyntaxTree} (valid : tree.validate = .ok ())
    (settings : Settings) : ∃ r, analyze tree settings = .ok r ∧ r.types.Formed r.HasClass ∧
      ∀ type place, r.Holds type place → type.Formed r.HasClass r.types.functions.size := by
  obtain ⟨b, r, built, prepared, analysed, follows⟩ :=
    exists_analysed (SyntaxTree.validate_eq_ok_iff.mp valid) settings
  have proper := View.Proper.analysed built prepared settings.enterLocalVariables
  have classes : b.IsClassScope = r.HasClass := by
    rw [← follows.rep.isClassScope_eq]
    funext scope
    refine propext ⟨fun ⟨symbol, kind⟩ => ?_, fun ⟨symbol, _, kind, _⟩ => ⟨symbol, kind⟩⟩
    obtain ⟨s, found, isKind⟩ := Option.map_eq_some_iff.mp kind
    obtain ⟨base, foundBase, sameKind, -⟩ := follows.rep.frames.exists_scope found
    obtain ⟨x, foundX, -⟩ := prepared.registered.owned.owner _ base symbol foundBase
      (by rw [sameKind, isKind]; rfl)
    exact ⟨symbol, _, kind, orDangling_eq_ok_iff.mpr (follows.rep.old_symbol foundX)⟩
  refine ⟨r, analysed, ?_, fun type place holds => ?_⟩
  · rw [follows.rep.types, ← classes]
    exact follows.grounded.types
  · rw [follows.rep.types, ← classes]
    exact fits_known follows holds (holds_fits prepared follows proper holds)

/-- The unit `void m(((int) -> void) -> int f, ((int) -> void) -> int g) { }`. -/
def SyntaxTree.twiceHigherOrder : SyntaxTree where
  nodes := #[
    ⟨.primitiveType .int, ⟨9, 12⟩⟩, ⟨.typeNode ⟨0⟩, ⟨9, 12⟩⟩, ⟨.typeOrVoid none, ⟨17, 21⟩⟩,
    ⟨.functionType [⟨1⟩] ⟨2⟩, ⟨8, 21⟩⟩, ⟨.typeNode ⟨3⟩, ⟨8, 21⟩⟩,
    ⟨.primitiveType .int, ⟨26, 29⟩⟩, ⟨.typeNode ⟨5⟩, ⟨26, 29⟩⟩,
    ⟨.typeOrVoid (some ⟨6⟩), ⟨26, 29⟩⟩, ⟨.functionType [⟨4⟩] ⟨7⟩, ⟨7, 29⟩⟩,
    ⟨.typeNode ⟨8⟩, ⟨7, 29⟩⟩, ⟨.variableDeclaratorId "f", ⟨30, 31⟩⟩,
    ⟨.formalParameter ⟨9⟩ ⟨10⟩, ⟨7, 31⟩⟩,
    ⟨.primitiveType .int, ⟨35, 38⟩⟩, ⟨.typeNode ⟨12⟩, ⟨35, 38⟩⟩, ⟨.typeOrVoid none, ⟨43, 47⟩⟩,
    ⟨.functionType [⟨13⟩] ⟨14⟩, ⟨34, 47⟩⟩, ⟨.typeNode ⟨15⟩, ⟨34, 47⟩⟩,
    ⟨.primitiveType .int, ⟨52, 55⟩⟩, ⟨.typeNode ⟨17⟩, ⟨52, 55⟩⟩,
    ⟨.typeOrVoid (some ⟨18⟩), ⟨52, 55⟩⟩, ⟨.functionType [⟨16⟩] ⟨19⟩, ⟨33, 55⟩⟩,
    ⟨.typeNode ⟨20⟩, ⟨33, 55⟩⟩, ⟨.variableDeclaratorId "g", ⟨56, 57⟩⟩,
    ⟨.formalParameter ⟨21⟩ ⟨22⟩, ⟨33, 57⟩⟩,
    ⟨.typeOrVoid none, ⟨0, 4⟩⟩, ⟨.block [], ⟨59, 62⟩⟩,
    ⟨.functionDeclaration "m" (some ⟨24⟩) [⟨11⟩, ⟨23⟩] ⟨25⟩, ⟨0, 62⟩⟩,
    ⟨.compilationUnit [⟨26⟩], ⟨0, 62⟩⟩]
  root := ⟨27⟩

/-- The types of both parameters have one text. So they are the same type, although neither they nor
the types that they take are one handle. -/
theorem typeText_unambiguous_twiceHigherOrder :
    ∃ r, analyze SyntaxTree.twiceHigherOrder Settings.standard = .ok r ∧
      r.types.Formed r.HasClass ∧
      r.typeText (.functionType ⟨1⟩) = .ok "function(function(int): void): int" ∧
      r.typeText (.functionType ⟨3⟩) = .ok "function(function(int): void): int" ∧
      (∀ scope, ¬ r.types.Mentions scope (.functionType ⟨1⟩)) ∧
      (∀ scope, ¬ r.types.Mentions scope (.functionType ⟨3⟩)) ∧
      r.types.sameType (.functionType ⟨1⟩) (.functionType ⟨3⟩) = .ok true := by
  obtain ⟨r, analysed, formed, -⟩ :=
    @analyze_types_formed SyntaxTree.twiceHigherOrder rfl Settings.standard
  have facts : (analyze SyntaxTree.twiceHigherOrder Settings.standard).map (fun r =>
        (r.types.functions, r.typeText (.functionType ⟨1⟩), r.typeText (.functionType ⟨3⟩))) =
      .ok (#[⟨.void, [.primitive .integer]⟩, ⟨.primitive .integer, [.functionType ⟨0⟩]⟩,
        ⟨.void, [.primitive .integer]⟩, ⟨.primitive .integer, [.functionType ⟨2⟩]⟩],
        .ok "function(function(int): void): int", .ok "function(function(int): void): int") := rfl
  rw [analysed] at facts
  simp only [Except.map, Except.ok.injEq, Prod.mk.injEq] at facts
  obtain ⟨functions, textLeft, textRight⟩ := facts
  have noClass (scope : ScopeId) (id : FunctionTypeId) :
      ¬ r.types.Mentions scope (.functionType id) := by
    intro mentions
    have listed := mentions.listed
    rw [functions] at listed
    simp at listed
  have known (id : FunctionTypeId) (bound : id.index < 4) :
      (Ty.functionType id).Formed r.HasClass r.types.functions.size := by
    rw [functions]
    exact bound
  obtain ⟨same, left, right, compared, isLeft, isRight, -, only⟩ :=
    Resolution.typeText_unambiguous formed (known ⟨1⟩ (by decide)) (known ⟨3⟩ (by decide))
  obtain rfl := Except.ok.inj (textLeft.symm.trans isLeft)
  obtain rfl := Except.ok.inj (textRight.symm.trans isRight)
  obtain rfl := only (fun scope => noClass scope _) (fun scope => noClass scope _) rfl
  exact ⟨r, analysed, formed, textLeft, textRight, fun scope => noClass scope _,
    fun scope => noClass scope _, compared⟩

end ScriptSemantics
