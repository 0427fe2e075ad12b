import JavaClass.Error

/-!
# Kinds of failures

A result that is put together from others fails only in ways in which one of
them does. The same holds of steps that keep a state.
-/

namespace JavaClass

variable {α β : Type} {kind kind' : Error → Prop}

/-- If the result is an error, then it is of a kind. -/
def FailsOnly (kind : Error → Prop) (result : Except Error α) : Prop :=
  ∀ error, result = .error error → kind error

theorem failsOnly_ok (value : α) : FailsOnly kind (.ok value : Except Error α) := by
  intro error h
  cases h

theorem failsOnly_error {error : Error} (h : kind error) :
    FailsOnly kind (.error error : Except Error α) := by
  intro other heq
  cases heq
  exact h

theorem FailsOnly.bind {result : Except Error α} {next : α → Except Error β}
    (first : FailsOnly kind result) (rest : ∀ value, FailsOnly kind (next value)) :
    FailsOnly kind (result >>= next) := by
  cases result with
  | error error => exact failsOnly_error (first error rfl)
  | ok value => exact rest value

theorem FailsOnly.map {result : Except Error α} (fails : FailsOnly kind result) (f : α → β) :
    FailsOnly kind (result.map f) := by
  cases result with
  | error error => exact failsOnly_error (fails error rfl)
  | ok value => exact failsOnly_ok _

theorem FailsOnly.mapM {read : α → Except Error β} {items : List α}
    (fails : ∀ item ∈ items, FailsOnly kind (read item)) : FailsOnly kind (items.mapM read) := by
  induction items with
  | nil => exact failsOnly_ok []
  | cons item items ih =>
      obtain ⟨first, rest⟩ := List.forall_mem_cons.mp fails
      rw [List.mapM_cons]
      exact first.bind fun _ => (ih rest).bind fun _ => failsOnly_ok _

theorem FailsOnly.foldlM {step : β → α → Except Error β} {items : List α}
    (fails : ∀ item ∈ items, ∀ state, FailsOnly kind (step state item)) (start : β) :
    FailsOnly kind (items.foldlM step start) := by
  induction items generalizing start with
  | nil => exact failsOnly_ok start
  | cons item items ih =>
      obtain ⟨first, rest⟩ := List.forall_mem_cons.mp fails
      rw [List.foldlM_cons]
      exact (first start).bind (ih rest)

variable {σ : Type}

/-- Whenever the step is refused, the error is of a kind. -/
def RefusesOnly (kind : Error → Prop) (step : EStateM Error σ α) : Prop :=
  ∀ (s : σ) (error : Error) (s' : σ), step s = .error error s' → kind error

theorem refusesOnly_pure (value : α) :
    RefusesOnly kind (pure value : EStateM Error σ α) := by
  intro s error s' h
  cases h

theorem refusesOnly_throw {error : Error} (h : kind error) :
    RefusesOnly kind (throw error : EStateM Error σ α) := by
  intro s other s' heq
  cases heq
  exact h

theorem RefusesOnly.imp {step : EStateM Error σ α} (refuses : RefusesOnly kind step)
    (h : ∀ error, kind error → kind' error) : RefusesOnly kind' step :=
  fun s error s' heq => h error (refuses s error s' heq)

theorem RefusesOnly.bind {step : EStateM Error σ α} {next : α → EStateM Error σ β}
    (first : RefusesOnly kind step) (rest : ∀ value, RefusesOnly kind (next value)) :
    RefusesOnly kind (step >>= next) := by
  intro s error s' h
  simp only [Bind.bind, EStateM.bind] at h
  cases hstep : step s with
  | error error' s₁ =>
      rw [hstep] at h
      cases h
      exact first s error s' hstep
  | ok value s₁ =>
      rw [hstep] at h
      exact rest value s₁ error s' h

end JavaClass
