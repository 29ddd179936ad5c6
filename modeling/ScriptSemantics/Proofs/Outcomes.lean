import ScriptSemantics.Fault

/-!
# Computations that do not stop

Small laws of results that are there: a result passes through binding and through the lifting of
faults unchanged. The proofs about passes open their steps only by these.
-/
namespace ScriptSemantics

variable {ε α β σ : Type}

@[simp] theorem ok_bind (a : α) (f : α → Except ε β) : (Except.ok a >>= f) = f a := rfl

@[simp] theorem error_bind (cause : ε) (f : α → Except ε β) :
    (Except.error cause >>= f) = .error cause := rfl

@[simp] theorem map_ok (f : α → β) (a : α) : f <$> (Except.ok a : Except ε α) = .ok (f a) := rfl

@[simp] theorem map_error (f : α → β) (cause : ε) :
    f <$> (Except.error cause : Except ε α) = .error cause := rfl

@[simp] theorem lift_ok (a : α) :
    (liftM (.ok a : Except Fault α) : Except (Halt ε) α) = .ok a := rfl

@[simp] theorem lift_error (fault : Fault) :
    (liftM (.error fault : Except Fault α) : Except (Halt ε) α) = .error (.fault fault) := rfl

theorem orDangling_eq_ok_iff {entry : Option α} {a : α} :
    orDangling entry = .ok a ↔ entry = some a := by
  cases entry <;> simp

theorem lift_eq_ok_iff {x : Except Fault α} {a : α} :
    (liftM x : Except (Halt ε) α) = .ok a ↔ x = .ok a := by
  cases x <;> simp

/-- A computation in two steps has a result if the first has one that the second goes on from. -/
theorem bind_eq_ok_iff {x : Except ε α} {f : α → Except ε β} {b : β} :
    x >>= f = .ok b ↔ ∃ a, x = .ok a ∧ f a = .ok b := by
  cases x <;> simp

theorem map_eq_ok_iff {f : α → β} {x : Except ε α} {b : β} :
    f <$> x = .ok b ↔ ∃ a, x = .ok a ∧ f a = b := by
  cases x <;> simp

@[simp] theorem ok_mapError {ε' : Type} (f : ε → ε') (a : α) :
    (Except.ok a : Except ε α).mapError f = .ok a := rfl

theorem mapError_eq_ok_iff {ε' : Type} {f : ε → ε'} {x : Except ε α} {a : α} :
    x.mapError f = .ok a ↔ x = .ok a := by
  cases x with
  | ok b => rw [ok_mapError, Except.ok.injEq, Except.ok.injEq]
  | error cause => constructor <;> intro impossible <;> cases impossible

theorem toOption_eq_some_iff {x : Except ε α} {a : α} : x.toOption = some a ↔ x = .ok a := by
  cases x <;> simp [Except.toOption]

/-- A list all of whose elements have a result has the list of the results. -/
theorem mapM_eq_ok {f : α → Except ε β} {g : α → β} (items : List α)
    (ok : ∀ a ∈ items, f a = .ok (g a)) : items.mapM f = .ok (items.map g) := by
  induction items with
  | nil => rfl
  | cons a items ih =>
    simp only [List.mapM_cons, ok a (by simp), ok_bind, ih fun b member => ok b (by simp [member])]
    rfl

/-- A list all of whose elements have results of a kind has a list of results of that kind. -/
theorem mapM_isOk_and {f : α → Except ε β} {holds : β → Prop} (items : List α)
    (ok : ∀ a ∈ items, ∃ b, f a = .ok b ∧ holds b) :
    ∃ results, items.mapM f = .ok results ∧ ∀ b ∈ results, holds b := by
  induction items with
  | nil => exact ⟨[], rfl, by simp⟩
  | cons a items ih =>
    obtain ⟨b, first, here⟩ := ok a (by simp)
    obtain ⟨rest, others, there⟩ := ih fun a member => ok a (by simp [member])
    refine ⟨b :: rest, by simp only [List.mapM_cons, first, others, ok_bind]; rfl, ?_⟩
    simpa [here] using there

/-- A list all of whose elements have results has a list of results. -/
theorem mapM_isOk {f : α → Except ε β} (items : List α) (ok : ∀ a ∈ items, ∃ b, f a = .ok b) :
    ∃ results, items.mapM f = .ok results := by
  obtain ⟨results, isOk, -⟩ := @mapM_isOk_and _ _ _ f (fun _ => True) items fun a member =>
    let ⟨b, isB⟩ := ok a member
    ⟨b, isB, trivial⟩
  exact ⟨results, isOk⟩

/-- Folding steps that all have results is folding the results. -/
theorem foldlM_eq_ok {f : σ → α → Except ε σ} {g : σ → α → σ} (items : List α) (s : σ)
    (ok : ∀ t, ∀ a ∈ items, f t a = .ok (g t a)) : items.foldlM f s = .ok (items.foldl g s) := by
  induction items generalizing s with
  | nil => rfl
  | cons a items ih =>
    rw [List.foldlM_cons, ok s a (by simp), ok_bind, List.foldl_cons]
    exact ih _ fun t b member => ok t b (by simp [member])

theorem mapM_congr {m : Type → Type} [Monad m] [LawfulMonad m] {f g : α → m β} {items : List α}
    (same : ∀ a ∈ items, f a = g a) : items.mapM f = items.mapM g := by
  induction items with
  | nil => rfl
  | cons a items ih =>
    simp only [List.mapM_cons, same a (by simp), ih fun a member => same a (by simp [member])]

theorem foldlM_congr {m : Type → Type} [Monad m] {f g : σ → α → m σ} {items : List α}
    (same : ∀ a ∈ items, ∀ s, f s a = g s a) {s : σ} : items.foldlM f s = items.foldlM g s := by
  induction items generalizing s with
  | nil => rfl
  | cons a items ih =>
    simp only [List.foldlM_cons, same a (by simp), ih fun a member => same a (by simp [member])]

/-- Folding over joined lists is folding over each of them in turn. -/
theorem foldlM_flatMap {m : Type → Type} [Monad m] [LawfulMonad m] {f : σ → β → m σ}
    {g : α → List β} (items : List α) (s : σ) :
    (items.flatMap g).foldlM f s = items.foldlM (fun t a => (g a).foldlM f t) s := by
  induction items generalizing s with
  | nil => rfl
  | cons a items ih => simp only [List.flatMap_cons, List.foldlM_append, List.foldlM_cons, ih]

/-- The results of a list, each changed, are the changed results. -/
theorem mapM_map_result {f : α → Except ε β} {g : β → σ} (items : List α) :
    items.mapM (fun a => g <$> f a) = List.map g <$> items.mapM f := by
  induction items with
  | nil => rfl
  | cons a items ih =>
    simp only [List.mapM_cons, ih]
    cases f a with
    | error cause => rfl
    | ok b => cases items.mapM f <;> rfl

end ScriptSemantics
