/-!
# Totals

The sum of a measure over the items of a list.
-/

namespace Suspension

/-- The sum of a measure over the items of a list. -/
def total {α : Type} (f : α → Nat) : List α → Nat
  | [] => 0
  | a :: as => f a + total f as

variable {α β : Type} {f : α → Nat}

@[simp] theorem total_nil : total f [] = 0 := rfl

@[simp] theorem total_cons (a : α) (as : List α) : total f (a :: as) = f a + total f as := rfl

theorem le_total_of_mem (f : α → Nat) {a : α} {as : List α} (h : a ∈ as) : f a ≤ total f as := by
  induction as with
  | nil => cases h
  | cons b as ih =>
    rcases List.mem_cons.1 h with rfl | h
    · exact Nat.le_add_right _ _
    · exact Nat.le_trans (ih h) (Nat.le_add_left _ _)

theorem length_flatMap_eq_total (g : α → List β) (as : List α) :
    (as.flatMap g).length = total (fun a => (g a).length) as := by
  induction as with
  | nil => rfl
  | cons a as ih => rw [List.flatMap_cons, List.length_append, ih, total_cons]

theorem total_map (words : β → Nat) (g : α → β) (as : List α) : total words (as.map g) = total (words ∘ g) as := by
  induction as with
  | nil => rfl
  | cons a as ih => rw [List.map_cons, total_cons, total_cons, ih, Function.comp]

theorem total_congr {g : α → Nat} {as : List α} (same : ∀ a ∈ as, f a = g a) : total f as = total g as := by
  induction as with
  | nil => rfl
  | cons a as ih =>
    rw [total_cons, total_cons, same a List.mem_cons_self, ih fun b hb => same b (List.mem_cons_of_mem _ hb)]

end Suspension
