import Suspension.Machine.Value

/-!
# Operations on a state

Equations that carry out an operation on a given state.

## Main results
* `bind_apply`, `bind_apply_eq_ok`: one operation after the other.
-/

namespace Suspension

variable {ε τ α β : Type}

@[simp] theorem bind_apply (x : EStateM ε τ α) (f : α → EStateM ε τ β) (s : τ) :
    (x >>= f) s =
      match x s with
      | .ok a s => f a s
      | .error e s => .error e s := rfl

@[simp] theorem map_apply (g : α → β) (x : EStateM ε τ α) (s : τ) :
    (g <$> x) s =
      match x s with
      | .ok a s => .ok (g a) s
      | .error e s => .error e s := rfl

@[simp] theorem pure_apply (a : α) (s : τ) : (pure a : EStateM ε τ α) s = .ok a s := rfl

@[simp] theorem throw_apply (e : ε) (s : τ) : (throw e : EStateM ε τ α) s = .error e s := rfl

@[simp] theorem get_apply (s : τ) : (get : EStateM ε τ τ) s = .ok s s := rfl

@[simp] theorem modify_apply (f : τ → τ) (s : τ) :
    (modify f : EStateM ε τ PUnit) s = .ok ⟨⟩ (f s) := rfl

@[simp] theorem liftM_ok_apply (a : α) (s : τ) :
    (liftM (.ok a : Except ε α) : EStateM ε τ α) s = .ok a s := rfl

@[simp] theorem liftM_error_apply (e : ε) (s : τ) :
    (liftM (.error e : Except ε α) : EStateM ε τ α) s = .error e s := rfl

theorem liftM_except_eq_ok {x : Except ε α} {s s' : τ} {a : α}
    (h : (liftM x : EStateM ε τ α) s = .ok a s') : x = .ok a ∧ s' = s := by
  cases x with
  | error e => cases h
  | ok b =>
    cases h
    exact ⟨rfl, rfl⟩

/-- Two operations have succeeded one after the other. -/
theorem bind_apply_eq_ok {x : EStateM ε τ α} {f : α → EStateM ε τ β} {s s' : τ} {b : β}
    (h : (x >>= f) s = .ok b s') : ∃ a t, x s = .ok a t ∧ f a t = .ok b s' := by
  rw [bind_apply] at h
  cases hx : x s with
  | ok a t => exact ⟨a, t, rfl, by simpa [hx] using h⟩
  | error e t => simp [hx] at h

/-- Two operations succeed one after the other. -/
theorem bind_apply_eq_ok_iff {x : EStateM ε τ α} {f : α → EStateM ε τ β} {s s' : τ} {b : β} :
    (x >>= f) s = .ok b s' ↔ ∃ a t, x s = .ok a t ∧ f a t = .ok b s' := by
  refine ⟨bind_apply_eq_ok, ?_⟩
  rintro ⟨a, t, first, second⟩
  rw [bind_apply, first]
  exact second

end Suspension
