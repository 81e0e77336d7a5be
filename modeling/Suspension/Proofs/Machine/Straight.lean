import Suspension.Proofs.Machine.Locals
import Suspension.Proofs.Machine.Pace

/-!
# Straight stretches of code

A list of instructions is performed from one situation to another one if each of them goes on to the
next, whatever the budget.  What a list performs does not depend on where it stands; a run takes it
wherever a frame has it in front of it.

## Main definitions
* `Frame.moved`: a frame some instructions further on.
* `Instr.Carries`, `Performs`: one instruction, and one after the other.
* `Frame.Reads`: the instructions that a frame has in front of it.

## Main results
* `Performs.append`: stretches are performed one after the other.
* `Performs.takes`: a run takes what is performed.
-/

namespace Suspension

variable {σ : Type}

/-! ## Frames and situations further on -/

namespace Frame

/-- The frame `n` instructions further on, with another stack. -/
def moved (f : Frame) (n : Nat) (stack : List Value) : Frame := { f with pc := f.pc + n, stack }

variable (f : Frame) (m n : Nat) (a b : List Value)

@[simp] theorem method_moved : (f.moved n a).method = f.method := rfl

@[simp] theorem locals_moved : (f.moved n a).locals = f.locals := rfl

@[simp] theorem stack_moved : (f.moved n a).stack = a := rfl

@[simp] theorem pc_moved : (f.moved n a).pc = f.pc + n := rfl

@[simp] theorem moved_moved : (f.moved m a).moved n b = f.moved (m + n) b := by
  simp [moved, Nat.add_assoc]

@[simp] theorem moved_zero : f.moved 0 f.stack = f := rfl

@[simp] theorem setLocal_moved (s : Slot) (v : Value) :
    (f.moved n a).setLocal s v = (f.setLocal s v).moved n a := rfl

@[simp] theorem method_setLocal (s : Slot) (v : Value) : (f.setLocal s v).method = f.method := rfl

@[simp] theorem stack_setLocal (s : Slot) (v : Value) : (f.setLocal s v).stack = f.stack := rfl

@[simp] theorem pc_setLocal (s : Slot) (v : Value) : (f.setLocal s v).pc = f.pc := rfl

theorem getElem?_locals_setLocal (s t : Slot) (v : Value) :
    (f.setLocal s v).locals[t]? =
      if t = s then some v
      else f.locals[t]?.filter fun w => !LocalValues.overlap s v t w :=
  LocalValues.getElem?_store ..

@[simp] theorem getElem?_locals_setLocal_self (s : Slot) (v : Value) :
    (f.setLocal s v).locals[s]? = some v := by
  simp [getElem?_locals_setLocal]

/-- A store leaves the slots alone that even a value of two words would not reach up to it from. -/
theorem getElem?_setLocal_below {f : Frame} {s t : Slot} {v : Value} (h : s.toNat + 2 ≤ t.toNat) :
    (f.setLocal t v).locals[s]? = f.locals[s]? := by
  have ne : s ≠ t := by
    rintro rfl
    omega
  rw [getElem?_locals_setLocal, if_neg ne]
  cases hw : f.locals[s]? with
  | none => rfl
  | some u =>
    have : ¬ t.toNat < s.toNat + u.words := by
      have := u.words_le
      omega
    simp [LocalValues.overlap, this]

/-- A store leaves the slots above its value alone. -/
theorem getElem?_setLocal_above {f : Frame} {s t : Slot} {v : Value} (h : t.toNat + v.words ≤ s.toNat) :
    (f.setLocal t v).locals[s]? = f.locals[s]? :=
  LocalValues.getElem?_store_above h

/-- The same frame with other slots. -/
def withLocals (f : Frame) (locals : LocalValues) : Frame := { f with locals }

@[simp] theorem method_withLocals (l : LocalValues) : (f.withLocals l).method = f.method := rfl

@[simp] theorem locals_withLocals (l : LocalValues) : (f.withLocals l).locals = l := rfl

@[simp] theorem stack_withLocals (l : LocalValues) : (f.withLocals l).stack = f.stack := rfl

@[simp] theorem withLocals_moved (l : LocalValues) :
    (f.moved n a).withLocals l = (f.withLocals l).moved n a := rfl

@[simp] theorem withLocals_withLocals (l l' : LocalValues) :
    (f.withLocals l).withLocals l' = f.withLocals l' := rfl

@[simp] theorem pc_withLocals (l : LocalValues) : (f.withLocals l).pc = f.pc := rfl

/-- The same frame, gone to another place. -/
def goneTo (f : Frame) (pc : Nat) : Frame := { f with pc }

@[simp] theorem method_goneTo (pc : Nat) : (f.goneTo pc).method = f.method := rfl

@[simp] theorem locals_goneTo (pc : Nat) : (f.goneTo pc).locals = f.locals := rfl

@[simp] theorem stack_goneTo (pc : Nat) : (f.goneTo pc).stack = f.stack := rfl

@[simp] theorem pc_goneTo (pc : Nat) : (f.goneTo pc).pc = pc := rfl

end Frame

namespace Situation

/-- The same situation with another budget. -/
def paying (s : Situation σ) (fuel : Option Nat) : Situation σ :=
  { s with world := s.world.paying fuel }

/-- The situation in which an instruction is carried out: the frame points behind it. -/
def past (s : Situation σ) : Situation σ := ⟨{ s.frame with pc := s.frame.pc + 1 }, s.world⟩

end Situation

/-! ## Instructions one after the other -/

variable {cls : Class} {host : Host σ}

/-- Whatever the budget, an instruction goes on to the next one and changes the situation. -/
structure Instr.Carries (cls : Class) (host : Host σ) (i : Instr) (s s' : Situation σ) : Prop where
  step : ∀ fuel, i.step cls host (s.past.paying fuel) = .ok .next (s'.paying fuel)
  method : s'.frame.method = s.frame.method
  pc : s'.frame.pc = s.frame.pc + 1

/-- Whatever the budget, the instructions of a list are carried out one after the other. -/
inductive Performs (cls : Class) (host : Host σ) : List Instr → Situation σ → Situation σ → Prop
  | nil (s : Situation σ) : Performs cls host [] s s
  | cons {i : Instr} {code : List Instr} {s s' s'' : Situation σ} (here : i.Carries cls host s s')
      (rest : Performs cls host code s' s'') : Performs cls host (i :: code) s s''

namespace Performs

variable {i : Instr} {code more : List Instr} {s s' s'' : Situation σ}

theorem one (h : i.Carries cls host s s') : Performs cls host [i] s s' := .cons h (.nil s')

theorem append (h : Performs cls host code s s') (h' : Performs cls host more s' s'') :
    Performs cls host (code ++ more) s s'' := by
  induction h with
  | nil => exact h'
  | cons here _ ih => exact .cons here (ih h')

theorem method (h : Performs cls host code s s') : s'.frame.method = s.frame.method := by
  induction h with
  | nil => rfl
  | cons here _ ih => exact ih.trans here.method

theorem pc (h : Performs cls host code s s') : s'.frame.pc = s.frame.pc + code.length := by
  induction h with
  | nil => rfl
  | cons here _ ih =>
    rw [ih, here.pc, List.length_cons]
    omega

theorem length_eq {f g : Frame} {w w' : World σ} {n : Nat} {stack : List Value}
    (h : Performs cls host code ⟨f, w⟩ ⟨g.moved n stack, w'⟩) (same : g.pc = f.pc) :
    n = code.length := by
  have := h.pc
  simp only [Frame.pc_moved, same] at this
  omega

end Performs

/-! ## The code in front of a frame -/

namespace Frame

/-- The instructions that a frame has in front of it begin with the given ones. -/
def Reads (f : Frame) (code : List Instr) : Prop := code <+: f.method.code.instrs.drop f.pc

variable {f g : Frame} {i : Instr} {code rest : List Instr}

theorem Reads.fetch (h : f.Reads (i :: rest)) : Run.fetch f = .ok i := by
  obtain ⟨t, ht⟩ := h
  have : f.method.code.instrs[f.pc]? = some i := by
    rw [← Nat.add_zero f.pc, ← List.getElem?_drop, ← ht]
    rfl
  simp [Run.fetch, this]

theorem Reads.left (h : f.Reads (code ++ rest)) : f.Reads code :=
  (List.prefix_append code rest).trans h

theorem Reads.right (h : f.Reads (code ++ rest)) (hm : g.method = f.method)
    (hpc : g.pc = f.pc + code.length) : g.Reads rest := by
  obtain ⟨t, ht⟩ := h
  refine ⟨t, ?_⟩
  rw [hm, hpc, ← List.drop_drop, ← ht, List.append_assoc, List.drop_left]

theorem Reads.tail (h : f.Reads (i :: rest)) (hm : g.method = f.method) (hpc : g.pc = f.pc + 1) :
    g.Reads rest := by
  have h : f.Reads ([i] ++ rest) := h
  exact h.right hm hpc

end Frame

/-! ## Runs over straight stretches -/

/-- Where an instruction that is carried out stands in front of a frame, a run goes on behind it. -/
theorem Instr.Carries.leads {i : Instr} {f f' : Frame} {w w' : World σ}
    (h : i.Carries cls host ⟨f, w⟩ ⟨f', w'⟩) (fetched : Run.fetch f = .ok i) (cs : List Caller) :
    Run.Leads cls host ⟨f, cs, w⟩ ⟨f', cs, w'⟩ := by
  intro fuel
  rw [Run.act_eq (r := Run.paying ⟨f, cs, w⟩ fuel) fetched]
  have step := h.step fuel
  simp only [Situation.past, Situation.paying] at step
  simp only [Run.frame_paying, Run.world_paying, step]
  rfl

/-- An instruction after which control goes to a label. -/
theorem Run.Leads.jump {i : Instr} {f : Frame} (f' : Frame) {w w' : World σ} {l : Label} {pc : Nat}
    (fetched : Run.fetch f = .ok i)
    (step : ∀ fuel, i.step cls host ⟨{ f with pc := f.pc + 1 }, w.paying fuel⟩ =
      .ok (.jump l) ⟨f', w'.paying fuel⟩)
    (target : f'.target l = .ok pc) (cs : List Caller) :
    Run.Leads cls host ⟨f, cs, w⟩ ⟨{ f' with pc }, cs, w'⟩ := by
  intro fuel
  rw [Run.act_eq (r := Run.paying ⟨f, cs, w⟩ fuel) fetched]
  simp only [Run.frame_paying, Run.world_paying, step, Run.go, target]
  rfl

/-- A run takes what is performed, if every frame on the way is of the given sort. -/
theorem Performs.takes {code : List Instr} {P : Frame → Prop} {s s' : Situation σ}
    (h : Performs cls host code s s') (reads : s.frame.Reads code) (cs : List Caller)
    (sort : ∀ g : Frame, g.method = s.frame.method → s.frame.pc ≤ g.pc →
      g.pc < s.frame.pc + code.length → (∃ i ∈ code, Run.fetch g = .ok i) → P g) :
    Run.Takes cls host P code.length ⟨s.frame, cs, s.world⟩ ⟨s'.frame, cs, s'.world⟩ := by
  induction h with
  | nil s => exact .refl _
  | @cons i code s s' s'' here rest ih =>
    refine .step (sort _ rfl (Nat.le_refl _) (by simp) ⟨i, by simp, reads.fetch⟩)
      (here.leads reads.fetch cs) ?_
    refine ih (reads.tail here.method here.pc) fun g hg low high fetched => ?_
    obtain ⟨j, hj, fetched⟩ := fetched
    have := here.pc
    have : (i :: code).length = code.length + 1 := rfl
    exact sort g (hg.trans here.method) (by omega) (by omega) ⟨j, by simp [hj], fetched⟩

end Suspension
