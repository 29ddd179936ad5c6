import ScriptSemantics.Proofs.TypeTerms
import ScriptSemantics.Rendering

/-!
# Texts of types

A known handle has a text, and neither a larger bound nor later allocations change it.
-/
namespace ScriptSemantics.Resolution

variable {r later : Resolution} {isClass : ScopeId → Prop}

/-- A handle whose parts are known has a text. -/
theorem typeTextWithin_isOk (formed : r.types.Formed isClass)
    (named : ∀ scope, isClass scope → ∃ text, r.classText scope = .ok text) (depth : Nat) {type : Ty}
    (small : type.Formed isClass depth) (ok : type.Formed isClass r.types.functions.size) :
    ∃ text, r.typeTextWithin depth type = .ok text := by
  induction depth generalizing type with
  | zero =>
    cases type with
    | classType scope => simpa [typeTextWithin] using named scope ok
    | functionType id => exact absurd small (Nat.not_lt_zero _)
    | primitive p => exact ⟨p.keyword, rfl⟩
    | void => exact ⟨"void", rfl⟩
  | succ depth ih =>
    cases type with
    | classType scope => simpa [typeTextWithin] using named scope ok
    | primitive p => exact ⟨p.keyword, rfl⟩
    | void => exact ⟨"void", rfl⟩
    | functionType id =>
      obtain ⟨signature, found⟩ := TypeTable.exists_signature r.types id ok
      have parts := formed _ _ found
      have lower : id.index ≤ depth := Nat.le_of_lt_succ small
      have known : id.index ≤ r.types.functions.size := Nat.le_of_lt ok
      obtain ⟨parameters, parameterTexts⟩ := mapM_isOk (f := r.typeTextWithin depth)
        signature.parameterTypes fun type member =>
          ih ((parts.2 type member).mono lower) ((parts.2 type member).mono known)
      obtain ⟨result, resultText⟩ := ih (parts.1.mono lower) (parts.1.mono known)
      exact ⟨"function(" ++ commaSeparated parameters ++ "): " ++ result, by
        simp only [typeTextWithin, TypeTable.signature, found, orDangling_some, ok_bind,
          parameterTexts, resultText]
        rfl⟩

theorem typeTextWithin_stable (formed : r.types.Formed isClass) (ext : later.types.Extends r.types)
    (named : ∀ scope, isClass scope → later.classText scope = r.classText scope) {bound j k : Nat}
    (known : bound ≤ r.types.functions.size) (roomJ : bound ≤ j) (roomK : bound ≤ k) {type : Ty}
    (ok : type.Formed isClass bound) : later.typeTextWithin k type = r.typeTextWithin j type := by
  induction bound using Nat.strongRecOn generalizing j k type with
  | ind bound ih =>
    cases type with
    | functionType id =>
      change id.index < bound at ok
      obtain ⟨j, rfl⟩ : ∃ m, j = m + 1 := ⟨j - 1, by omega⟩
      obtain ⟨k, rfl⟩ : ∃ m, k = m + 1 := ⟨k - 1, by omega⟩
      obtain ⟨signature, found⟩ := TypeTable.exists_signature r.types id (by omega)
      have parts := formed _ _ found
      have parameters : signature.parameterTypes.mapM (later.typeTextWithin k) =
          signature.parameterTypes.mapM (r.typeTextWithin j) :=
        mapM_congr fun type member =>
          ih _ ok (by omega) (by omega) (by omega) (parts.2 type member)
      have result := ih _ ok (by omega) (j := j) (k := k) (by omega) (by omega) parts.1
      simp only [typeTextWithin, TypeTable.signature, found, ext _ _ found, orDangling_some, ok_bind,
        parameters, result]
    | classType scope => cases j <;> cases k <;> simpa [typeTextWithin] using named scope ok
    | _ => cases j <;> cases k <;> rfl

theorem typeText_isOk (formed : r.types.Formed isClass)
    (named : ∀ scope, isClass scope → ∃ text, r.classText scope = .ok text) {type : Ty}
    (ok : type.Formed isClass r.types.functions.size) : ∃ text, r.typeText type = .ok text :=
  typeTextWithin_isOk formed named _ (ok.mono (Nat.le_succ _)) ok

/-- The text of a known handle stays the same when more function types are allocated. -/
theorem typeText_extends (formed : r.types.Formed isClass) (ext : later.types.Extends r.types)
    (named : ∀ scope, isClass scope → later.classText scope = r.classText scope) {type : Ty}
    (ok : type.Formed isClass r.types.functions.size) : later.typeText type = r.typeText type :=
  typeTextWithin_stable formed ext named (Nat.le_refl _) (Nat.le_succ _)
    (Nat.le_trans ext.size_le (Nat.le_succ _)) ok

end ScriptSemantics.Resolution
