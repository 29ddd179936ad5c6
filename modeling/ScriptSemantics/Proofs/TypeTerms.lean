import ScriptSemantics.Proofs.Outcomes
import ScriptSemantics.Types.Table

/-!
# Types as terms

A handle stands for the finite term that unfolding its signatures gives, as long as every signature
refers only to function types that were allocated before it. Two handles are the same type exactly
when their terms are equal, so sameness is an equivalence and later allocations do not change it.
-/
namespace ScriptSemantics

/-- A handle whose class is one of the given scopes and whose signature was allocated before the
given number of others. -/
def Ty.Formed (isClass : ScopeId → Prop) (bound : Nat) : Ty → Prop
  | .primitive _ | .void => True
  | .classType scope => isClass scope
  | .functionType id => id.index < bound

theorem Ty.Formed.mono {isClass : ScopeId → Prop} {low high : Nat} (le : low ≤ high) {type : Ty}
    (formed : type.Formed isClass low) : type.Formed isClass high := by
  cases type with
  | functionType id => exact Nat.lt_of_lt_of_le formed le
  | _ => exact formed

/-- What a handle stands for. -/
inductive TypeTerm where
  | atom (type : Ty)
  | function (result : TypeTerm) (parameters : List TypeTerm)

namespace TypeTable

variable {types later : TypeTable} {isClass : ScopeId → Prop}

/-- Every signature refers only to the given classes and to function types allocated before it. -/
def Formed (types : TypeTable) (isClass : ScopeId → Prop) : Prop :=
  ∀ (index : Nat) (signature : Signature), types.functions[index]? = some signature →
    signature.returnType.Formed isClass index ∧
      ∀ type ∈ signature.parameterTypes, type.Formed isClass index

/-- The later table has the signatures of the earlier one under the same numbers. -/
def Extends (later types : TypeTable) : Prop :=
  ∀ (index : Nat) (signature : Signature), types.functions[index]? = some signature →
    later.functions[index]? = some signature

theorem Extends.refl (types : TypeTable) : types.Extends types := fun _ _ found => found

theorem Extends.trans {a b c : TypeTable} (second : c.Extends b) (first : b.Extends a) :
    c.Extends a := fun index signature found => second index signature (first index signature found)

theorem Extends.size_le (ext : later.Extends types) :
    types.functions.size ≤ later.functions.size := by
  refine Nat.le_of_not_lt fun larger => ?_
  have last := ext later.functions.size _ (Array.getElem?_eq_getElem larger)
  simp at last

theorem allocate_extends (types : TypeTable) (signature : Signature) :
    (types.allocate signature).2.Extends types := by
  intro index known found
  have bound := (Array.getElem?_eq_some_iff.mp found).1
  simpa [allocate, Array.getElem?_push, Nat.ne_of_lt bound] using found

/-- The term of a handle, unfolding function types no deeper than the bound. -/
def termWithin (types : TypeTable) : Nat → Ty → TypeTerm
  | depth + 1, .functionType id =>
    match types.functions[id.index]? with
    | some signature =>
      .function (termWithin types depth signature.returnType)
        (signature.parameterTypes.map (termWithin types depth))
    | none => .atom (.functionType id)
  | _, type => .atom type

def term (types : TypeTable) (type : Ty) : TypeTerm := types.termWithin types.functions.size type

theorem exists_signature (types : TypeTable) (id : FunctionTypeId) (known : id.index < types.functions.size) :
    ∃ signature, types.functions[id.index]? = some signature :=
  ⟨types.functions[id.index], by simp [known]⟩

/-- A term does not depend on the bound, nor on what is allocated later. -/
theorem termWithin_stable (formed : types.Formed isClass) (ext : later.Extends types) {bound j k : Nat}
    (known : bound ≤ types.functions.size) (roomJ : bound ≤ j) (roomK : bound ≤ k) {type : Ty}
    (ok : type.Formed isClass bound) : types.termWithin j type = later.termWithin k type := by
  induction bound using Nat.strongRecOn generalizing j k type with
  | ind bound ih =>
    cases type with
    | functionType id =>
      obtain ⟨j, rfl⟩ : ∃ m, j = m + 1 := ⟨j - 1, by change id.index < bound at ok; omega⟩
      obtain ⟨k, rfl⟩ : ∃ m, k = m + 1 := ⟨k - 1, by change id.index < bound at ok; omega⟩
      change id.index < bound at ok
      obtain ⟨signature, found⟩ := exists_signature types id (by omega)
      have parts := formed _ _ found
      simp only [termWithin, found, ext _ _ found, TypeTerm.function.injEq, List.map_inj_left]
      exact ⟨ih _ ok (by omega) (by omega) (by omega) parts.1,
        fun type member => ih _ ok (by omega) (by omega) (by omega) (parts.2 type member)⟩
    | _ => cases j <;> cases k <;> rfl

/-- The term of a known handle stays the same when more function types are allocated. -/
theorem term_extends (formed : types.Formed isClass) (ext : later.Extends types)
    {type : Ty} (ok : type.Formed isClass types.functions.size) : later.term type = types.term type :=
  (termWithin_stable formed ext (Nat.le_refl _) (Nat.le_refl _) ext.size_le ok).symm

/-- Comparing two lists by a comparison of terms compares the lists of terms. -/
theorem matchWith_spec {same : Ty → Ty → Except Fault Bool} {f : Ty → TypeTerm} (lefts rights : List Ty)
    (spec : ∀ left ∈ lefts, ∀ right ∈ rights,
      ∃ answer, same left right = .ok answer ∧ (answer = true ↔ f left = f right)) :
    ∃ answer, matchWith same lefts rights = .ok answer ∧
      (answer = true ↔ lefts.map f = rights.map f) := by
  by_cases lengths : lefts.length = rights.length
  · simp only [matchWith, lengths, if_true]
    induction lefts generalizing rights with
    | nil =>
      obtain rfl : rights = [] := List.length_eq_zero_iff.mp lengths.symm
      exact ⟨true, rfl, by simp⟩
    | cons left lefts ih =>
      cases rights with
      | nil => simp at lengths
      | cons right rights =>
        obtain ⟨head, compared, isHead⟩ := spec left (by simp) right (by simp)
        obtain ⟨tail, rest, isTail⟩ := ih rights
          (fun l inL r inR => spec l (by simp [inL]) r (by simp [inR])) (by simpa using lengths)
        cases head with
        | true => exact ⟨tail, by simp [pairwise, compared, rest], by simp_all⟩
        | false => exact ⟨false, by simp [pairwise, compared, pure, Except.pure], by simp_all⟩
  · refine ⟨false, by simp [matchWith, lengths, pure, Except.pure], ?_⟩
    simp only [Bool.false_eq_true, false_iff]
    exact fun equal => lengths (by simpa using congrArg List.length equal)

/-- The term of a function type is made of the terms of its parts. -/
theorem term_function (formed : types.Formed isClass) {id : FunctionTypeId} {signature : Signature}
    (found : types.functions[id.index]? = some signature) :
    types.term (.functionType id) =
      .function (types.term signature.returnType) (signature.parameterTypes.map types.term) := by
  obtain ⟨known, -⟩ := Array.getElem?_eq_some_iff.mp found
  have parts := formed _ _ found
  obtain ⟨depth, size⟩ : ∃ depth, types.functions.size = depth + 1 :=
    ⟨types.functions.size - 1, by omega⟩
  unfold term
  rw [size, termWithin, found]
  simp only [TypeTerm.function.injEq, List.map_inj_left]
  exact ⟨termWithin_stable formed (.refl types) (by omega) (by omega) (by omega) parts.1,
    fun type member => termWithin_stable formed (.refl types) (by omega) (by omega) (by omega)
      (parts.2 type member)⟩

theorem term_plain {type : Ty} (plain : ∀ id, type ≠ .functionType id) :
    types.term type = .atom type := by
  unfold term
  cases types.functions.size <;> cases type <;> simp_all [termWithin]

/-- Handles that are not both function types are compared as they are, and so are their terms. -/
theorem term_eq_iff (formed : types.Formed isClass) {left right : Ty}
    (okLeft : left.Formed isClass types.functions.size)
    (okRight : right.Formed isClass types.functions.size)
    (plain : ∀ l r, left = .functionType l → right = .functionType r → False) :
    types.term left = types.term right ↔ left = right := by
  have function (id : FunctionTypeId) (known : id.index < types.functions.size) (type : Ty) :
      types.term (.functionType id) ≠ .atom type := by
    obtain ⟨signature, found⟩ := exists_signature types id known
    simp [term_function formed found]
  cases left with
  | functionType l =>
    cases right with
    | functionType r => exact (plain l r rfl rfl).elim
    | _ => simpa [term_plain] using function l okLeft _
  | _ =>
    cases right with
    | functionType r => simpa [term_plain] using (function r okRight _).symm
    | _ => simp [term_plain]

/-- A comparison that may go as deep as the left handle needs gives an answer: whether the terms are
equal. -/
theorem sameWithin_spec (formed : types.Formed isClass) (depth : Nat) {left right : Ty}
    (small : left.Formed isClass depth) (okLeft : left.Formed isClass types.functions.size)
    (okRight : right.Formed isClass types.functions.size) :
    ∃ answer, types.sameWithin depth left right = .ok answer ∧
      (answer = true ↔ types.term left = types.term right) := by
  induction depth generalizing left right with
  | zero =>
    have plain : ∀ l r, left = .functionType l → right = .functionType r → False := by
      rintro l r rfl rfl
      exact absurd small (Nat.not_lt_zero _)
    refine ⟨left == right, ?_, by rw [term_eq_iff formed okLeft okRight plain]; simp⟩
    cases left <;> cases right <;> first | rfl | exact (plain _ _ rfl rfl).elim
  | succ depth ih =>
    by_cases functions : ∃ l r, left = .functionType l ∧ right = .functionType r
    · obtain ⟨l, r, rfl, rfl⟩ := functions
      obtain ⟨leftSignature, leftFound⟩ := exists_signature types l okLeft
      obtain ⟨rightSignature, rightFound⟩ := exists_signature types r okRight
      have leftParts := formed _ _ leftFound
      have rightParts := formed _ _ rightFound
      have lower : l.index ≤ depth := Nat.le_of_lt_succ small
      have known : l.index ≤ types.functions.size := Nat.le_of_lt okLeft
      have other : r.index ≤ types.functions.size := Nat.le_of_lt okRight
      obtain ⟨result, resultSame, isResult⟩ := ih (leftParts.1.mono lower) (leftParts.1.mono known)
        (rightParts.1.mono other)
      obtain ⟨parameters, parametersSame, isParameters⟩ := matchWith_spec (f := types.term)
        leftSignature.parameterTypes rightSignature.parameterTypes fun a inA b inB =>
          ih ((leftParts.2 a inA).mono lower) ((leftParts.2 a inA).mono known)
            ((rightParts.2 b inB).mono other)
      simp only [sameWithin, signature, leftFound, rightFound, orDangling_some, ok_bind, resultSame,
        term_function formed leftFound, term_function formed rightFound, TypeTerm.function.injEq]
      cases result with
      | true => exact ⟨parameters, by simpa using parametersSame, by simp_all⟩
      | false => exact ⟨false, rfl, by simp_all⟩
    · have plain : ∀ l r, left = .functionType l → right = .functionType r → False :=
        fun l r isLeft isRight => functions ⟨l, r, isLeft, isRight⟩
      refine ⟨left == right, ?_, by rw [term_eq_iff formed okLeft okRight plain]; simp⟩
      cases left <;> cases right <;> first | rfl | exact (plain _ _ rfl rfl).elim

/-- Known handles are always compared, and are the same type exactly when their terms are equal. -/
theorem sameType_spec (formed : types.Formed isClass) {left right : Ty}
    (okLeft : left.Formed isClass types.functions.size)
    (okRight : right.Formed isClass types.functions.size) :
    ∃ answer, types.sameType left right = .ok answer ∧
      (answer = true ↔ types.term left = types.term right) := by
  have deep : types.functions.size ≤ types.comparisonDepth := by
    unfold comparisonDepth
    have := Nat.le_mul_self types.functions.size
    omega
  exact sameWithin_spec formed _ (okLeft.mono deep) okLeft okRight

theorem sameType_eq_ok_true_iff (formed : types.Formed isClass) {left right : Ty}
    (okLeft : left.Formed isClass types.functions.size)
    (okRight : right.Formed isClass types.functions.size) :
    types.sameType left right = .ok true ↔ types.term left = types.term right := by
  obtain ⟨answer, compared, isAnswer⟩ := sameType_spec formed okLeft okRight
  rw [compared, ← isAnswer]
  simp

theorem sameWithin_eq_sameType (formed : types.Formed isClass) {left right : Ty}
    (okLeft : left.Formed isClass types.functions.size)
    (okRight : right.Formed isClass types.functions.size) {depth : Nat}
    (deep : types.functions.size ≤ depth) :
    types.sameWithin depth left right = types.sameType left right := by
  obtain ⟨answer, compared, isAnswer⟩ :=
    sameWithin_spec formed depth (okLeft.mono deep) okLeft okRight
  obtain ⟨other, comparedToo, isOther⟩ := sameType_spec formed okLeft okRight
  rw [compared, comparedToo, Bool.eq_iff_iff.mpr (isAnswer.trans isOther.symm)]

/-- Later allocations do not change the answer for known handles. -/
theorem sameType_extends (formed : types.Formed isClass) (formedLater : later.Formed isClass)
    (ext : later.Extends types) {left right : Ty}
    (okLeft : left.Formed isClass types.functions.size)
    (okRight : right.Formed isClass types.functions.size) :
    later.sameType left right = types.sameType left right := by
  obtain ⟨answer, compared, isAnswer⟩ := sameType_spec formed okLeft okRight
  obtain ⟨other, comparedLater, isOther⟩ :=
    sameType_spec formedLater (okLeft.mono ext.size_le) (okRight.mono ext.size_le)
  rw [term_extends formed ext okLeft, term_extends formed ext okRight] at isOther
  rw [compared, comparedLater, Bool.eq_iff_iff.mpr (isOther.trans isAnswer.symm)]

theorem sameType_of_signature (formed : types.Formed isClass) {left right : FunctionTypeId}
    {signature : Signature} (isLeft : types.signature left = .ok signature)
    (isRight : types.signature right = .ok signature) :
    types.sameType (.functionType left) (.functionType right) = .ok true := by
  have foundLeft := orDangling_eq_ok_iff.mp isLeft
  have foundRight := orDangling_eq_ok_iff.mp isRight
  have known {id : FunctionTypeId} (found : types.functions[id.index]? = some signature) :
      (Ty.functionType id).Formed isClass types.functions.size :=
    (Array.getElem?_eq_some_iff.mp found).1
  refine (sameType_eq_ok_true_iff formed (known foundLeft) (known foundRight)).mpr ?_
  rw [term_function formed foundLeft, term_function formed foundRight]

/-- Known lists of handles match exactly when their lists of terms are equal. -/
theorem matchParameterTypes_spec (formed : types.Formed isClass) {lefts rights : List Ty}
    (okLefts : ∀ type ∈ lefts, type.Formed isClass types.functions.size)
    (okRights : ∀ type ∈ rights, type.Formed isClass types.functions.size) :
    ∃ answer, types.matchParameterTypes lefts rights = .ok answer ∧
      (answer = true ↔ lefts.map types.term = rights.map types.term) :=
  matchWith_spec lefts rights fun left inLeft right inRight =>
    sameType_spec formed (okLefts left inLeft) (okRights right inRight)

theorem matchParameterTypes_eq_ok_true_iff (formed : types.Formed isClass) {lefts rights : List Ty}
    (okLefts : ∀ type ∈ lefts, type.Formed isClass types.functions.size)
    (okRights : ∀ type ∈ rights, type.Formed isClass types.functions.size) :
    types.matchParameterTypes lefts rights = .ok true ↔
      lefts.map types.term = rights.map types.term := by
  obtain ⟨answer, matched, isAnswer⟩ := matchParameterTypes_spec formed okLefts okRights
  rw [matched, ← isAnswer]
  simp

end TypeTable

end ScriptSemantics
