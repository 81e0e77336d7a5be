import Suspension.Proofs.Symbolic.Reaching

/-!
# Sections

A method may be put together of sections, each of which is entered at its start only.  If it is known which
frames fit each section, and if whatever a section does with such a frame fits the section that it leads to,
then the method has a typing: at an instruction inside a section those frames are admitted that come from one
that fits it.

## Main definitions
* `Unbroken`: code that is entered at its start and left at its end.
* `Method.Relays`: code that hands a frame on to the sections that it leads to.
* `Method.Sections`: the sections of a method and the frames that fit them.

## Main results
* `Method.Sections.typing`: a method that is made of sections has a typing.
-/

namespace Suspension

/-- Code with a label only at its start, and with an instruction that ends a block only at its end. -/
structure Unbroken (code : List Instr) : Prop where
  nonempty : code ≠ []
  labels : ∀ j l, code[j]? = some (.label l) → j = 0
  ends : ∀ j i, code[j]? = some i → i.endsBlock = true → j + 1 = code.length

namespace Unbroken

variable {code : List Instr}

/-- Any one instruction. -/
theorem one (i : Instr) : Unbroken [i] where
  nonempty := by simp
  labels j l h := by
    have := (List.getElem?_eq_some_iff.1 h).1
    rw [List.length_singleton] at this
    omega
  ends j _ h _ := by
    have := (List.getElem?_eq_some_iff.1 h).1
    rw [List.length_singleton] at this ⊢
    omega

/-- An instruction behind others that are no labels and end no block. -/
theorem snoc {i : Instr} (h : ∀ x ∈ code, x.defined? = none ∧ x.endsBlock = false) (unlabelled : i.defined? = none) :
    Unbroken (code ++ [i]) where
  nonempty := by simp
  labels j l hj := by
    have mem := List.mem_of_getElem? hj
    rcases List.mem_append.1 mem with inside | last
    · have := (h _ inside).1
      cases this
    · obtain rfl := List.mem_singleton.1 last
      cases unlabelled
  ends j x hj ends := by
    by_cases inside : j < code.length
    · rw [List.getElem?_append_left inside] at hj
      rw [(h x (List.mem_of_getElem? hj)).2] at ends
      cases ends
    · have := (List.getElem?_eq_some_iff.1 hj).1
      rw [List.length_append, List.length_singleton] at this ⊢
      omega

/-- Instructions that are no labels and end no block. -/
theorem inner (nonempty : code ≠ []) (h : ∀ x ∈ code, x.defined? = none ∧ x.endsBlock = false) : Unbroken code where
  nonempty := nonempty
  labels j l hj := by
    have := (h _ (List.mem_of_getElem? hj)).1
    cases this
  ends j x hj ends := by
    rw [(h x (List.mem_of_getElem? hj)).2] at ends
    cases ends

/-- A label before others that are no labels and end no block. -/
theorem label (l : Label) (h : ∀ x ∈ code, x.defined? = none ∧ x.endsBlock = false) : Unbroken (.label l :: code) where
  nonempty := by simp
  labels j l' hj := by
    cases j with
    | zero => rfl
    | succ j =>
      have := (h _ (List.mem_of_getElem? hj)).1
      cases this
  ends j x hj ends := by
    cases j with
    | zero =>
      cases hj
      cases ends
    | succ j =>
      rw [(h x (List.mem_of_getElem? hj)).2] at ends
      cases ends

end Unbroken

/-- An instruction that ends no block leads on only, unless to a handler. -/
theorem Instr.Leads.inner {i : Instr} {m : Method} {place j : Nat} {kind : EdgeKind} (h : i.Leads m place kind j)
    (inner : i.endsBlock = false) (regular : kind ≠ .exception) : kind = .fallthrough ∧ j = place + 1 := by
  cases h with
  | on => exact ⟨rfl, rfl⟩
  | jump mem => rw [Instr.endsBlock_of_mem_targets mem] at inner; cases inner
  | caught => exact absurd rfl regular

namespace Method

/-- Code at a place takes a frame through, and what it delivers where it leads fits the section there. -/
structure Relays {ι : Type} (m : Method) (className : String) (config : Config) (Part : ι → Nat → List Instr → Prop)
    (Fits : ι → SymFrame → Prop) (place : Nat) (code : List Instr) (f : SymFrame) : Prop where
  unbroken : Unbroken code
  run : ∃ f', Step.run (stepsOf className config code) f = .ok f' ∧ ∀ front i kind j, code = front ++ [i] →
    i.Leads m (place + front.length) kind j → kind ≠ .exception → j < m.code.instrs.length →
      ∃ a code', Part a j code' ∧ Fits a (kind.deliver f')

namespace Relays

variable {ι : Type} {m : Method} {className : String} {config : Config} {Part : ι → Nat → List Instr → Prop}
  {Fits : ι → SymFrame → Prop} {place : Nat} {code : List Instr} {i : Instr} {f f' : SymFrame}

/-- Code leads where its last instruction does. -/
theorem last (unbroken : Unbroken (code ++ [i])) (ran : Step.run (stepsOf className config (code ++ [i])) f = .ok f')
    (leads : ∀ kind j, i.Leads m (place + code.length) kind j → kind ≠ .exception → j < m.code.instrs.length →
      ∃ a code', Part a j code' ∧ Fits a (kind.deliver f')) :
    m.Relays className config Part Fits place (code ++ [i]) f := by
  refine ⟨unbroken, f', ran, fun front x kind j split => ?_⟩
  obtain ⟨rfl, last⟩ := List.append_inj' split rfl
  cases last
  exact leads kind j

/-- Code that does not end a block leads to what stands behind it. -/
theorem on (unbroken : Unbroken code) (inner : ∀ x ∈ code, x.endsBlock = false)
    (ran : Step.run (stepsOf className config code) f = .ok f')
    (next : place + code.length < m.code.instrs.length → ∃ a code', Part a (place + code.length) code' ∧ Fits a f') :
    m.Relays className config Part Fits place code f := by
  refine ⟨unbroken, f', ran, ?_⟩
  rintro front x kind j rfl leads regular lt
  obtain ⟨rfl, rfl⟩ := leads.inner (inner x (by simp)) regular
  rw [List.length_append, List.length_singleton] at next
  exact next lt

end Relays

/-- The sections of a method, with the places that they start at, and the frames that fit them. -/
structure Sections {ι : Type} (m : Method) (className : String) (config : Config) (root : SymFrame)
    (Part : ι → Nat → List Instr → Prop) (Fits : ι → SymFrame → Prop) : Prop where
  entry : ∃ a code, Part a 0 code ∧ Fits a root
  unique : ∀ a b place code code', Part a place code → Part b place code' → a = b
  stands : ∀ a place code, Part a place code → code <+: m.code.instrs.drop place
  run : ∀ a place code f, Part a place code → Fits a f → m.Relays className config Part Fits place code f
  widen : ∀ a (w : Widening) f, Fits a f → Fits a (w.apply f)
  operands : ∀ a f f', Fits a f → Fits a f' → f.stack.map Tag.kind = f'.stack.map Tag.kind
  slots : ∀ a f f', Fits a f → Fits a f' → ∀ s : Slot,
    f.locals[s]?.map Tag.kind = f'.locals[s]?.map Tag.kind ∨ ∃ f, Fits a f ∧ s ∉ f.locals

namespace Sections

variable {ι : Type} {m : Method} {className : String} {config : Config} {root : SymFrame}
  {Part : ι → Nat → List Instr → Prop} {Fits : ι → SymFrame → Prop}

/-- A frame at an instruction of a section comes from one that fits the section. -/
def Admits (className : String) (config : Config) (Part : ι → Nat → List Instr → Prop) (Fits : ι → SymFrame → Prop)
    (place : Nat) (f : SymFrame) : Prop :=
  ∃ a start code j f₀, Part a start code ∧ place = start + j ∧ j < code.length ∧ Fits a f₀ ∧
    Step.run (stepsOf className config (code.take j)) f₀ = .ok f

theorem admits_start (h : m.Sections className config root Part Fits) {a : ι} {place : Nat} {code : List Instr}
    {f : SymFrame} (here : Part a place code) (fits : Fits a f) : Admits className config Part Fits place f :=
  ⟨a, place, code, 0, f, here, rfl, List.length_pos_iff.2 (h.run a place code f here fits).unbroken.nonempty, fits, rfl⟩

theorem getElem?_section (h : m.Sections className config root Part Fits) {a : ι} {start j : Nat} {code : List Instr}
    (here : Part a start code) (inside : j < code.length) : m.code.instrs[start + j]? = code[j]? := by
  obtain ⟨rest, behind⟩ := h.stands a start code here
  rw [← List.getElem?_drop, ← behind, List.getElem?_append_left inside]

/-- Blocks start where sections do. -/
theorem part_of_opens (h : m.Sections className config root Part Fits) {place : Nat} (opens : m.Opens place)
    {f : SymFrame} (hf : Admits className config Part Fits place f) : ∃ a code, Part a place code ∧ Fits a f := by
  obtain ⟨a, start, code, j, f₀, here, rfl, inside, fits, ran⟩ := hf
  have unbroken := (h.run a start code f₀ here fits).unbroken
  have first : j = 0 := by
    rcases opens with entry | ⟨l, label⟩ | ⟨before, i, next, hi, ends⟩
    · omega
    · rw [h.getElem?_section here inside] at label
      exact unbroken.labels j l label
    · cases j with
      | zero => rfl
      | succ j =>
        obtain rfl : start + j = before := by omega
        rw [h.getElem?_section here (by omega)] at hi
        have := unbroken.ends j i hi ends
        omega
  subst first
  cases ran
  exact ⟨a, code, here, fits⟩

/-- Frames that are admitted where a block may start fit the same section. -/
theorem fit_of_opens (h : m.Sections className config root Part Fits) {place : Nat} (opens : m.Opens place)
    {f f' : SymFrame} (hf : Admits className config Part Fits place f) (hf' : Admits className config Part Fits place f') :
    ∃ a code, Part a place code ∧ Fits a f ∧ Fits a f' := by
  obtain ⟨a, code, here, fits⟩ := h.part_of_opens opens hf
  obtain ⟨b, code', here', fits'⟩ := h.part_of_opens opens hf'
  obtain rfl := h.unique a b place code code' here here'
  exact ⟨a, code, here, fits, fits'⟩

/-- An instruction of a section takes what is admitted there to where it leads.  It is the last of its section,
and leads to another one, or it leads on inside. -/
theorem step (h : m.Sections className config root Part Fits) {place : Nat} {i : Instr} {f : SymFrame}
    (hi : m.code.instrs[place]? = some i) (hf : Admits className config Part Fits place f) :
    ∃ f', Step.run (i.steps className config) f = .ok f' ∧ ∀ kind j, i.Leads m place kind j → kind ≠ .exception →
      j < m.code.instrs.length → Admits className config Part Fits j (kind.deliver f') := by
  obtain ⟨a, start, code, j, f₀, here, rfl, inside, fits, ran⟩ := hf
  rw [h.getElem?_section here inside] at hi
  obtain ⟨unbroken, exit, all, delivered⟩ := h.run a start code f₀ here fits
  have split := all
  rw [← List.take_append_drop (j + 1) code, stepsOf_append, Step.run_append, stepsOf_take_succ hi, Step.run_append,
    ran] at split
  obtain ⟨f', ran', -⟩ := bind_eq_ok.1 split
  have behind : Step.run (stepsOf className config (code.take (j + 1))) f₀ = .ok f' := by
    rw [stepsOf_take_succ hi, Step.run_append, ran]
    exact ran'
  refine ⟨f', ran', fun kind q leads regular lt => ?_⟩
  by_cases last : j + 1 = code.length
  · have cut : code = code.take j ++ [i] := by
      calc code = code.take (j + 1) := by rw [last, List.take_length]
        _ = code.take j ++ [i] := by rw [List.take_add_one, hi, Option.toList_some]
    rw [last, List.take_length, all] at behind
    cases behind
    have length : (code.take j).length = j := by
      rw [List.length_take]
      omega
    obtain ⟨b, code', there, fits'⟩ := delivered (code.take j) i kind q cut (by rwa [length]) regular lt
    exact h.admits_start there fits'
  · have inner : i.endsBlock = false := by
      cases ends : i.endsBlock with
      | false => rfl
      | true => exact absurd (unbroken.ends j i hi ends) last
    obtain ⟨rfl, rfl⟩ := leads.inner inner regular
    exact ⟨a, start, code, j + 1, f₀, here, rfl, by omega, fits, behind⟩

/-- A method that is made of sections has a typing. -/
theorem typing (h : m.Sections className config root Part Fits) :
    m.Typing className config root (Admits className config Part Fits) where
  entry := by
    obtain ⟨a, code, here, fits⟩ := h.entry
    exact h.admits_start here fits
  step _ _ _ hi hf := h.step hi hf
  widen place w f opens hf := by
    obtain ⟨a, code, here, fits⟩ := h.part_of_opens opens hf
    exact h.admits_start here (h.widen a w f fits)
  operands place f f' opens hf hf' := by
    obtain ⟨a, code, -, fits, fits'⟩ := h.fit_of_opens opens hf hf'
    exact h.operands a f f' fits fits'
  slots place f f' opens hf hf' s := by
    obtain ⟨a, code, here, fits, fits'⟩ := h.fit_of_opens opens hf hf'
    rcases h.slots a f f' fits fits' s with same | ⟨f'', fits'', missing⟩
    · exact .inl same
    · exact .inr ⟨f'', h.admits_start here fits'', missing⟩

end Sections

end Method

end Suspension
