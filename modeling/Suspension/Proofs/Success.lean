import Suspension.Reported

/-!
# Computations that succeed

What is known of the parts of an `Except` computation that yields an answer.

## Main results
* `bind_eq_ok`, `map_eq_ok`, `mapError_eq_ok`: the parts of a sequence have succeeded.
* `mapM_eq_ok`: the members of a list have succeeded one by one.
-/

namespace Suspension

variable {ε ε' α β : Type}

theorem ok_bind (a : α) (f : α → Except ε β) : (Except.ok a >>= f) = f a := rfl

theorem error_bind (e : ε) (f : α → Except ε β) : ((Except.error e : Except ε α) >>= f) = .error e := rfl

theorem bind_eq_ok {x : Except ε α} {f : α → Except ε β} {b : β} :
    (x >>= f) = .ok b ↔ ∃ a, x = .ok a ∧ f a = .ok b := by
  cases x with
  | error e => exact ⟨fun h => (nomatch h), fun ⟨_, h, _⟩ => (nomatch h)⟩
  | ok a => exact ⟨fun h => ⟨a, rfl, h⟩, fun ⟨_, h, hf⟩ => by cases h; exact hf⟩

theorem map_eq_ok {x : Except ε α} {f : α → β} {b : β} :
    (f <$> x) = .ok b ↔ ∃ a, x = .ok a ∧ f a = b := by
  cases x with
  | error e => exact ⟨fun h => (nomatch h), fun ⟨_, h, _⟩ => (nomatch h)⟩
  | ok a => exact ⟨fun h => ⟨a, rfl, by cases h; rfl⟩, fun ⟨_, h, hf⟩ => by cases h; exact hf ▸ rfl⟩

theorem mapError_eq_ok {x : Except ε α} {f : ε → ε'} {a : α} :
    x.mapError f = .ok a ↔ x = .ok a := by
  cases x with
  | error e => exact ⟨(fun h => by cases h), fun h => by cases h⟩
  | ok b => exact ⟨(fun h => by cases h; rfl), fun h => by cases h; rfl⟩

theorem eq_ok_of_toOption {x : Except ε α} {a : α} (h : x.toOption = some a) : x = .ok a := by
  cases x with
  | error e => cases h
  | ok b =>
    cases h
    rfl

theorem exists_ok {x : Except ε α} (h : x.toOption.isSome = true) : ∃ a, x = .ok a := by
  obtain ⟨a, ha⟩ := Option.isSome_iff_exists.1 h
  exact ⟨a, eq_ok_of_toOption ha⟩

theorem exists_ok_some {x : Except ε (Option α)} (h : (x.toOption.bind id).isSome = true) :
    ∃ a, x = .ok (some a) := by
  cases x with
  | error e => cases h
  | ok o =>
    cases o with
    | none => cases h
    | some a => exact ⟨a, rfl⟩

/-- The members of a list have succeeded one by one. -/
theorem mapM_eq_ok {f : α → Except ε β} {l : List α} {l' : List β} :
    l.mapM f = .ok l' ↔ l'.length = l.length ∧
      ∀ i (h : i < l.length) (h' : i < l'.length), f l[i] = .ok l'[i] := by
  induction l generalizing l' with
  | nil =>
    simp only [List.mapM_nil, pure, Except.pure, Except.ok.injEq]
    cases l' <;> simp
  | cons a l ih =>
    simp only [List.mapM_cons, bind_eq_ok, pure, Except.pure, Except.ok.injEq]
    constructor
    · rintro ⟨b, hb, bs, hbs, rfl⟩
      obtain ⟨hlen, hmem⟩ := ih.1 hbs
      refine ⟨by simp [hlen], fun i h h' => ?_⟩
      cases i with
      | zero => exact hb
      | succ i => exact hmem i (by simpa using h) (by simpa using h')
    · rintro ⟨hlen, hmem⟩
      cases l' with
      | nil => simp at hlen
      | cons b bs =>
        refine ⟨b, hmem 0 (by simp) (by simp), bs, ih.2 ⟨by simpa using hlen, ?_⟩, rfl⟩
        intro i h h'
        exact hmem (i + 1) (by simpa using h) (by simpa using h')

theorem exists_of_mapM {f : α → Except ε β} {l : List α} {bs : List β} {a : α} (h : l.mapM f = .ok bs) (ha : a ∈ l) :
    ∃ b, f a = .ok b := by
  obtain ⟨length, each⟩ := mapM_eq_ok.1 h
  obtain ⟨n, hn, rfl⟩ := List.mem_iff_getElem.1 ha
  exact ⟨_, each n hn (length ▸ hn)⟩

end Suspension
