import Suspension.Proofs.Success

/-!
# Computations that fail

What is known of the error in which an `Except` computation may end.

## Main definitions
* `Fails`: every error in which a computation may end has a property.
* `Hinges`: a computation succeeds exactly on a condition, and its errors have a property.

## Main results
* `Fails.bind`, `Fails.mapM`, `Fails.mapError`: the error is that of a part.
* `Hinges.bind`, `Hinges.mapM`: what a computation hinges on is what its parts hinge on.
-/

namespace Suspension

variable {ε ε' α β : Type} {P : ε → Prop} {x : Except ε α}

/-- Every error in which a computation may end has a property. -/
def Fails (P : ε → Prop) (x : Except ε α) : Prop := ∀ e, x = .error e → P e

namespace Fails

theorem ok (a : α) : Fails P (.ok a) := fun _ h => nomatch h

theorem error {e : ε} (h : P e) : Fails P (.error e : Except ε α) := by
  rintro _ ⟨⟩
  exact h

/-- A sequence ends in an error of a part, and the later part runs on what the earlier one has yielded. -/
theorem bind {f : α → Except ε β} (first : Fails P x) (second : ∀ a, x = .ok a → Fails P (f a)) :
    Fails P (x >>= f) := by
  cases x with
  | error e => exact error (first e rfl)
  | ok a => exact second a rfl

theorem mapError {P : ε' → Prop} {f : ε → ε'} (h : Fails (fun e => P (f e)) x) : Fails P (x.mapError f) := by
  cases x with
  | error e => exact error (h e rfl)
  | ok a => exact ok a

theorem of_forall (h : ∀ e, P e) : Fails P x := fun e _ => h e

theorem mapM {f : α → Except ε β} {l : List α} (h : ∀ a ∈ l, Fails P (f a)) : Fails P (l.mapM f) := by
  induction l with
  | nil => exact ok []
  | cons a rest ih =>
    rw [List.mapM_cons]
    refine (h a List.mem_cons_self).bind fun b _ => ?_
    exact (ih fun x hx => h x (List.mem_cons_of_mem _ hx)).bind fun bs _ => ok (b :: bs)

theorem foldlM {f : β → α → Except ε β} {l : List α} (h : ∀ b a, Fails P (f b a)) (b : β) :
    Fails P (l.foldlM f b) := by
  induction l generalizing b with
  | nil => exact ok b
  | cons a rest ih =>
    rw [List.foldlM_cons]
    exact (h b a).bind fun b' _ => ih b'

end Fails

/-! ## Computations that hinge on a condition -/

/-- A computation succeeds exactly on a condition, and every error in which it may end has a property. -/
structure Hinges (Q : Prop) (P : ε → Prop) (x : Except ε α) : Prop where
  succeeds : (∃ a, x = .ok a) ↔ Q
  fails : Fails P x

namespace Hinges

variable {Q R : Prop}

theorem ok (holds : Q) (a : α) : Hinges Q P (.ok a) := ⟨iff_of_true ⟨a, rfl⟩ holds, .ok a⟩

theorem error (fails : ¬Q) {e : ε} (h : P e) : Hinges Q P (.error e : Except ε α) :=
  ⟨iff_of_false nofun fails, .error h⟩

theorem congr (h : Hinges Q P x) (same : Q ↔ R) : Hinges R P x := ⟨h.succeeds.trans same, h.fails⟩

/-- A sequence hinges on what its parts hinge on. -/
theorem bind {f : α → Except ε β} (first : Hinges Q P x) (second : ∀ a, x = .ok a → Hinges R P (f a)) :
    Hinges (Q ∧ R) P (x >>= f) := by
  refine ⟨⟨?_, ?_⟩, first.fails.bind fun a ran => (second a ran).fails⟩
  · rintro ⟨b, ran⟩
    obtain ⟨a, ran, rest⟩ := bind_eq_ok.1 ran
    exact ⟨first.succeeds.1 ⟨a, ran⟩, (second a ran).succeeds.1 ⟨b, rest⟩⟩
  · rintro ⟨hq, hr⟩
    obtain ⟨a, ran⟩ := first.succeeds.2 hq
    obtain ⟨b, rest⟩ := (second a ran).succeeds.2 hr
    exact ⟨b, bind_eq_ok.2 ⟨a, ran, rest⟩⟩

/-- What follows a part and always succeeds adds no condition. -/
theorem andThen {f : α → Except ε β} (first : Hinges Q P x) (second : ∀ a, x = .ok a → ∃ b, f a = .ok b) :
    Hinges Q P (x >>= f) := by
  refine (first.bind fun a ran => ?_).congr (and_iff_left trivial)
  obtain ⟨b, rest⟩ := second a ran
  exact rest ▸ ok trivial b

/-- The members of a list are treated one by one. -/
theorem mapM {f : α → Except ε β} {l : List α} {Q : α → Prop} (h : ∀ a, Hinges (Q a) P (f a)) :
    Hinges (∀ a ∈ l, Q a) P (l.mapM f) := by
  induction l with
  | nil => exact ok (fun a none => nomatch none) []
  | cons a rest ih =>
    rw [List.mapM_cons]
    refine ((h a).bind fun b _ => ih.andThen fun bs _ => ⟨b :: bs, rfl⟩).congr ?_
    exact List.forall_mem_cons.symm

end Hinges

end Suspension
