import Mathlib.Data.List.Forall2
import Mathlib.Data.List.Induction
import Mathlib.Data.List.Nodup
import ScriptSemantics.Proofs.TypeTerms

/-!
# Type tables filled by any calls

Whoever holds a table may allocate function types and register types in any order. As long as a
function type is passed in only after an allocation has answered it, signatures lead backwards. So
every handle unfolds to one finite term, two handles are the same type exactly when they unfold to
the same term, and what is allocated later makes no difference.
-/
namespace ScriptSemantics

/-- Two lists agree position by position if what two functions make of them is the same list. -/
theorem forall₂_iff_map_eq {α β γ : Type} {R : α → β → Prop} {f : α → γ} {g : β → γ} {xs : List α}
    {ys : List β} (each : ∀ x ∈ xs, ∀ y ∈ ys, R x y ↔ f x = g y) :
    List.Forall₂ R xs ys ↔ xs.map f = ys.map g := by
  induction xs generalizing ys with
  | nil => cases ys <;> simp
  | cons x xs ih =>
    cases ys with
    | nil => simp
    | cons y ys =>
      have rest : List.Forall₂ R xs ys ↔ xs.map f = ys.map g :=
        ih fun a inXs b inYs => each a (by simp [inXs]) b (by simp [inYs])
      rw [List.forall₂_cons, each x (by simp) y (by simp), rest, List.map_cons, List.map_cons,
        List.cons.injEq]

namespace TypeTable

variable {types : TypeTable} {isClass : ScopeId → Prop}

/-- A handle unfolds to a term: primitive types, `void` and classes to themselves, a function type to
the terms that the parts of its signature unfold to. -/
inductive Unfolds (types : TypeTable) : Ty → TypeTerm → Prop
  | primitive (p : PrimitiveType) : Unfolds types (.primitive p) (.atom (.primitive p))
  | void : Unfolds types .void (.atom .void)
  | classType (scope : ScopeId) : Unfolds types (.classType scope) (.atom (.classType scope))
  | functionType {id : FunctionTypeId} {signature : Signature} {result : TypeTerm}
      {parameters : List TypeTerm} (found : types.signature id = .ok signature)
      (isResult : Unfolds types signature.returnType result)
      (areParameters : List.Forall₂ (Unfolds types) signature.parameterTypes parameters) :
      Unfolds types (.functionType id) (.function result parameters)

theorem unfolds_iff (formed : types.Formed isClass) {bound : Nat}
    (known : bound ≤ types.functions.size) {type : Ty} (ok : type.Formed isClass bound)
    (term : TypeTerm) : types.Unfolds type term ↔ types.term type = term := by
  induction bound using Nat.strongRecOn generalizing type term with
  | ind bound ih =>
    cases type with
    | functionType id =>
      change id.index < bound at ok
      obtain ⟨signature, found⟩ := exists_signature types id (by omega)
      have read : types.signature id = .ok signature := orDangling_eq_ok_iff.mpr found
      have parts := formed _ _ found
      have result := ih id.index ok (by omega) parts.1
      have listed (terms : List TypeTerm) :
          List.Forall₂ types.Unfolds signature.parameterTypes terms ↔
            signature.parameterTypes.map types.term = terms := by
        rw [forall₂_iff_map_eq (g := fun term : TypeTerm => term) fun part member term _ =>
          ih id.index ok (by omega) (parts.2 part member) term, List.map_id']
      rw [term_function formed found]
      constructor
      · intro unfolds
        cases unfolds with
        | functionType foundHere isResult areParameters =>
          obtain rfl := Except.ok.inj (read.symm.trans foundHere)
          rw [(result _).mp isResult, (listed _).mp areParameters]
      · rintro rfl
        exact .functionType read ((result _).mpr rfl) ((listed _).mpr rfl)
    | primitive p =>
      rw [term_plain (by simp)]
      exact ⟨fun unfolds => by cases unfolds; rfl, fun is => is ▸ .primitive p⟩
    | void =>
      rw [term_plain (by simp)]
      exact ⟨fun unfolds => by cases unfolds; rfl, fun is => is ▸ .void⟩
    | classType scope =>
      rw [term_plain (by simp)]
      exact ⟨fun unfolds => by cases unfolds; rfl, fun is => is ▸ .classType scope⟩

/-- Known handles unfold to one term exactly when their terms are equal. -/
theorem exists_unfolds_iff (formed : types.Formed isClass) {left right : Ty}
    (okLeft : left.Formed isClass types.functions.size)
    (okRight : right.Formed isClass types.functions.size) :
    (∃ term, types.Unfolds left term ∧ types.Unfolds right term) ↔
      types.term left = types.term right := by
  simp only [unfolds_iff formed (Nat.le_refl _) okLeft, unfolds_iff formed (Nat.le_refl _) okRight]
  exact ⟨fun ⟨term, isLeft, isRight⟩ => isLeft.trans isRight.symm, fun same => ⟨_, same, rfl⟩⟩

/-- A call that fills a table. -/
inductive Call where
  | allocate (signature : Signature)
  | register (type : Ty)
  deriving DecidableEq, Repr

/-- The handles that are passed in. -/
def Call.handles : Call → List Ty
  | .allocate signature => signature.returnType :: signature.parameterTypes
  | .register type => [type]

/-- A table with the handles that its allocations have answered, in order. -/
structure Filling where
  answered : List Ty
  types : TypeTable
  deriving DecidableEq, Repr

/-- One more call. -/
def Filling.perform (filling : Filling) : Call → Filling
  | .allocate signature =>
    let (handle, types) := filling.types.allocate signature
    ⟨filling.answered ++ [handle], types⟩
  | .register type => { filling with types := filling.types.register type }

/-- What calls make of the table without types. -/
def fill (calls : List Call) : Filling := calls.foldl Filling.perform ⟨[], .empty⟩

/-- A handle may be used with a table: if it is a function type, an allocation has answered it. -/
def Filling.Knows (filling : Filling) (handle : Ty) : Prop :=
  ∀ id, handle = .functionType id → handle ∈ filling.answered

instance (filling : Filling) (handle : Ty) : Decidable (filling.Knows handle) :=
  match handle with
  | .functionType id =>
    decidable_of_iff (.functionType id ∈ filling.answered) (by simp [Filling.Knows])
  | .primitive _ | .void | .classType _ => isTrue (by simp [Filling.Knows])

/-- Every handle that a call passes in may be used with what the calls before it have made. -/
def Sourced (calls : List Call) : Prop :=
  ∀ (i : Nat) (bound : i < calls.length), ∀ handle ∈ calls[i].handles,
    (fill (calls.take i)).Knows handle

instance (calls : List Call) : Decidable (Sourced calls) :=
  inferInstanceAs (Decidable (∀ (i : Nat) (bound : i < calls.length), ∀ handle ∈ calls[i].handles,
    (fill (calls.take i)).Knows handle))

theorem fill_append (first second : List Call) :
    fill (first ++ second) = second.foldl Filling.perform (fill first) := List.foldl_append

/-- A last call may be made if what it passes in may be used with what the others have made. -/
theorem sourced_concat_iff {calls : List Call} {call : Call} : Sourced (calls ++ [call]) ↔
    Sourced calls ∧ ∀ handle ∈ call.handles, (fill calls).Knows handle := by
  simp only [Sourced, List.length_append, List.length_cons, List.length_nil, Nat.zero_add]
  constructor
  · intro sourced
    refine ⟨fun i bound => ?_, by simpa using sourced calls.length (Nat.lt_succ_self _)⟩
    have here := sourced i (Nat.lt_succ_of_lt bound)
    rwa [List.getElem_append_left bound, List.take_append_of_le_length (Nat.le_of_lt bound)] at here
  · rintro ⟨sourced, known⟩ i bound
    rcases Nat.lt_succ_iff_lt_or_eq.mp bound with earlier | rfl
    · rw [List.getElem_append_left earlier, List.take_append_of_le_length (Nat.le_of_lt earlier)]
      exact sourced i earlier
    · simpa using known

theorem functions_register (types : TypeTable) (type : Ty) :
    (types.register type).functions = types.functions := by
  unfold register
  split <;> rfl

/-- Allocations answer the numbers of the signatures one after another. -/
theorem fill_answered (calls : List Call) : (fill calls).answered =
    (List.range (fill calls).types.functions.size).map fun i => .functionType ⟨i⟩ := by
  induction calls using List.reverseRecOn with
  | nil => rfl
  | append_singleton calls call ih =>
    rw [fill_append]
    cases call with
    | allocate signature =>
      simp [Filling.perform, allocate, List.range_succ, ih]
    | register type => simpa [Filling.perform, functions_register] using ih

/-- What may be used with a table are the handles whose signatures it has. -/
theorem knows_iff (calls : List Call) (handle : Ty) : (fill calls).Knows handle ↔
    handle.Formed (fun _ => True) (fill calls).types.functions.size := by
  unfold Filling.Knows
  rw [fill_answered]
  cases handle with
  | functionType id => cases id; simp [Ty.Formed]
  | _ => simp [Ty.Formed]

theorem Sourced.formed {calls : List Call} (sourced : Sourced calls) :
    (fill calls).types.Formed fun _ => True := by
  induction calls using List.reverseRecOn with
  | nil => exact fun index signature found => by simp [fill, empty] at found
  | append_singleton calls call ih =>
    obtain ⟨earlier, known⟩ := sourced_concat_iff.mp sourced
    have before := ih earlier
    have passed : ∀ handle ∈ call.handles,
        handle.Formed (fun _ => True) (fill calls).types.functions.size :=
      fun handle member => (knows_iff calls handle).mp (known handle member)
    rw [fill_append]
    intro index signature found
    cases call with
    | register type =>
      simp only [List.foldl_cons, List.foldl_nil, Filling.perform, functions_register] at found
      exact before index signature found
    | allocate new =>
      simp only [List.foldl_cons, List.foldl_nil, Filling.perform, allocate,
        Array.getElem?_push] at found
      split at found
      next last =>
        cases found
        rw [last]
        exact ⟨passed _ (by simp [Call.handles]),
          fun type member => passed type (by simp [Call.handles, member])⟩
      next => exact before index signature found

theorem fill_extends (first second : List Call) :
    (fill (first ++ second)).types.Extends (fill first).types := by
  rw [fill_append]
  refine List.foldlRecOn second
    (motive := fun filling : Filling => filling.types.Extends (fill first).types) _ (.refl _) ?_
  intro filling extension call _
  cases call with
  | allocate signature => exact (allocate_extends _ signature).trans extension
  | register type =>
    intro index signature found
    simpa only [Filling.perform, functions_register] using extension index signature found

/-- In a table filled by calls each handle unfolds to one term. Handles are the same type exactly if
they unfold to the same term, however deep a comparison may go beyond the number of function types,
and lists match exactly if they do so position by position. So sameness is an equivalence although no
two allocations answer one handle, not even for one signature, and further calls do not change it. -/
theorem calls_compare_terms {calls : List Call} (sourced : Sourced calls) :
    (∀ handle, (fill calls).Knows handle → ∃! term, (fill calls).types.Unfolds handle term) ∧
    (∀ left right, (fill calls).Knows left → (fill calls).Knows right →
      ∃ answer, (fill calls).types.sameType left right = .ok answer ∧
        (∀ depth, (fill calls).types.functions.size ≤ depth →
          (fill calls).types.sameWithin depth left right = .ok answer) ∧
        (answer = true ↔
          ∃ term, (fill calls).types.Unfolds left term ∧ (fill calls).types.Unfolds right term)) ∧
    (∀ lefts rights, (∀ left ∈ lefts, (fill calls).Knows left) →
      (∀ right ∈ rights, (fill calls).Knows right) →
      ∃ answer, (fill calls).types.matchParameterTypes lefts rights = .ok answer ∧
        (answer = true ↔ List.Forall₂ (fun left right => ∃ term,
          (fill calls).types.Unfolds left term ∧ (fill calls).types.Unfolds right term)
            lefts rights)) ∧
    Equivalence (fun left right : { handle // (fill calls).Knows handle } =>
      (fill calls).types.sameType left right = .ok true) ∧
    ((fill calls).answered.Nodup ∧ ∀ (left right : FunctionTypeId) (signature : Signature),
      (fill calls).types.signature left = .ok signature →
      (fill calls).types.signature right = .ok signature →
      (fill calls).types.sameType (.functionType left) (.functionType right) = .ok true) ∧
    ∀ more, Sourced (calls ++ more) → ∀ left right, (fill calls).Knows left →
      (fill calls).Knows right → (fill (calls ++ more)).types.sameType left right =
        (fill calls).types.sameType left right := by
  have formed := sourced.formed
  have ok {handle : Ty} (knows : (fill calls).Knows handle) := (knows_iff calls handle).mp knows
  have same {left right : Ty} (l : (fill calls).Knows left) (r : (fill calls).Knows right) :=
    sameType_eq_ok_true_iff formed (ok l) (ok r)
  have unfolds {left right : Ty} (l : (fill calls).Knows left) (r : (fill calls).Knows right) :=
    exists_unfolds_iff formed (ok l) (ok r)
  refine ⟨fun handle knows => ?_, fun left right l r => ?_, fun lefts rights ls rs => ?_,
    ⟨fun handle => ?_, fun {left right} is => ?_, fun {first second third} is there => ?_⟩,
    ⟨?_, fun left right signature l r => sameType_of_signature formed l r⟩,
    fun more later left right l r => ?_⟩
  · have only := unfolds_iff formed (Nat.le_refl _) (ok knows)
    exact ⟨_, (only _).mpr rfl, fun term unfolded => ((only term).mp unfolded).symm⟩
  · obtain ⟨answer, compared, isAnswer⟩ := sameType_spec formed (ok l) (ok r)
    refine ⟨answer, compared, fun depth deep => ?_, isAnswer.trans (unfolds l r).symm⟩
    rw [sameWithin_eq_sameType formed (ok l) (ok r) deep, compared]
  · obtain ⟨answer, matched, isAnswer⟩ := matchParameterTypes_spec formed
      (fun left member => ok (ls left member)) fun right member => ok (rs right member)
    refine ⟨answer, matched, isAnswer.trans (forall₂_iff_map_eq ?_).symm⟩
    exact fun left inLefts right inRights => unfolds (ls left inLefts) (rs right inRights)
  · exact (same handle.2 handle.2).mpr rfl
  · exact (same right.2 left.2).mpr ((same left.2 right.2).mp is).symm
  · exact (same first.2 third.2).mpr
      (((same first.2 second.2).mp is).trans ((same second.2 third.2).mp there))
  · rw [fill_answered]
    refine List.nodup_range.map fun i j equal => ?_
    simpa using equal
  · exact sameType_extends formed later.formed (fill_extends calls more) (ok l) (ok r)

/-- Two function types of one signature, with a class registered in between, and two that take one of
them each. -/
def repeatedCalls : List Call :=
  [.allocate ⟨.void, [.primitive .integer]⟩, .register (.classType ⟨3⟩),
    .allocate ⟨.void, [.primitive .integer]⟩,
    .allocate ⟨.classType ⟨3⟩, [.functionType ⟨0⟩, .primitive .long]⟩,
    .allocate ⟨.classType ⟨3⟩, [.functionType ⟨1⟩, .primitive .long]⟩]

/-- The last two unfold to one term, so they are the same type. Neither is the first. -/
theorem calls_compare_terms_repeated :
    Sourced repeatedCalls ∧
      (fill repeatedCalls).answered = (List.range 4).map (fun i => .functionType ⟨i⟩) ∧
      (∃ term, (fill repeatedCalls).types.Unfolds (.functionType ⟨2⟩) term ∧
        (fill repeatedCalls).types.Unfolds (.functionType ⟨3⟩) term) ∧
      ¬ ∃ term, (fill repeatedCalls).types.Unfolds (.functionType ⟨0⟩) term ∧
        (fill repeatedCalls).types.Unfolds (.functionType ⟨2⟩) term := by
  have sourced : Sourced repeatedCalls := by decide +kernel
  have same : (fill repeatedCalls).types.sameType (.functionType ⟨2⟩) (.functionType ⟨3⟩) =
      .ok true := by decide +kernel
  have differs : (fill repeatedCalls).types.sameType (.functionType ⟨0⟩) (.functionType ⟨2⟩) =
      .ok false := by decide +kernel
  obtain ⟨-, compares, -⟩ := calls_compare_terms sourced
  obtain ⟨answer, compared, -, isAnswer⟩ := compares (.functionType ⟨2⟩) (.functionType ⟨3⟩)
    (by decide +kernel) (by decide +kernel)
  obtain ⟨other, comparedToo, -, isOther⟩ := compares (.functionType ⟨0⟩) (.functionType ⟨2⟩)
    (by decide +kernel) (by decide +kernel)
  obtain rfl : true = answer := Except.ok.inj (same.symm.trans compared)
  obtain rfl : false = other := Except.ok.inj (differs.symm.trans comparedToo)
  exact ⟨sourced, by decide +kernel, isAnswer.mp rfl,
    fun one => Bool.false_ne_true (isOther.mpr one)⟩

end TypeTable

end ScriptSemantics
