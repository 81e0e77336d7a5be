import Suspension.Proofs.Machine.Evaluation

/-!
# Runs step by step

Straight stretches of a run, apart from what they cost.  A run leads to another one if it does so under
every budget that pays for the instruction, and takes a number of steps if each of them leads on.

## Main definitions
* `Run.act`: one instruction that costs nothing.
* `Run.Leads`, `Run.Takes`: one step, and several steps through frames of a given sort.
* `Run.thrown`, `Run.Throws`: what becomes of an exception that leaves a method.

## Main results
* `Run.advance_eq`: a step pays and acts.
* `Run.Takes.follow`: the steps that a run takes are those that it is seen to make.
-/

namespace Suspension

variable {σ : Type}

/-- The same world with another budget. -/
def World.paying (w : World σ) (fuel : Option Nat) : World σ := { w with fuel }

@[simp] theorem World.paying_paying (w : World σ) (a b : Option Nat) :
    (w.paying a).paying b = w.paying b := rfl

@[simp] theorem World.paying_fuel (w : World σ) : w.paying w.fuel = w := rfl

@[simp] theorem World.heap_paying (w : World σ) (fuel : Option Nat) :
    (w.paying fuel).heap = w.heap := rfl

@[simp] theorem World.contexts_paying (w : World σ) (fuel : Option Nat) :
    (w.paying fuel).contexts = w.contexts := rfl

@[simp] theorem World.outside_paying (w : World σ) (fuel : Option Nat) :
    (w.paying fuel).outside = w.outside := rfl

@[simp] theorem World.statics_paying (w : World σ) (fuel : Option Nat) :
    (w.paying fuel).statics = w.statics := rfl

namespace Run

/-- The same run with another budget. -/
def paying (r : Run σ) (fuel : Option Nat) : Run σ := { r with world := r.world.paying fuel }

@[simp] theorem paying_paying (r : Run σ) (a b : Option Nat) :
    (r.paying a).paying b = r.paying b := rfl

@[simp] theorem paying_fuel (r : Run σ) : r.paying r.world.fuel = r := rfl

@[simp] theorem frame_paying (r : Run σ) (fuel : Option Nat) : (r.paying fuel).frame = r.frame := rfl

@[simp] theorem callers_paying (r : Run σ) (fuel : Option Nat) :
    (r.paying fuel).callers = r.callers := rfl

@[simp] theorem world_paying (r : Run σ) (fuel : Option Nat) :
    (r.paying fuel).world = r.world.paying fuel := rfl

/-- One instruction that costs nothing, with all that follows from it. -/
def act (cls : Class) (host : Host σ) (r : Run σ) : Progress σ :=
  match fetch r.frame with
  | .error e => .failed e r.world
  | .ok i =>
    match i.step cls host ⟨{ r.frame with pc := r.frame.pc + 1 }, r.world⟩ with
    | .ok flow s => go host ⟨s.frame, r.callers, s.world⟩ flow
    | .error e s => .failed e s.world

variable {cls : Class} {host : Host σ}

/-- A step pays for an instruction and carries it out. -/
theorem advance_eq (r : Run σ) :
    r.advance cls host =
      match r.world.fuel with
      | none => r.act cls host
      | some 0 => .failed .outOfFuel r.world
      | some (n + 1) => (r.paying (some n)).act cls host := by
  obtain ⟨frame, callers, world⟩ := r
  rcases h : world.fuel with _ | _ | n
  · cases hf : fetch frame with
    | error e => simp [advance, step, act, World.burn, h, hf]
    | ok i =>
      cases hs : i.step cls host ⟨{ frame with pc := frame.pc + 1 }, world⟩ <;>
        simp [advance, step, act, World.burn, h, hf, hs]
  · simp [advance, step, World.burn, h]
  · cases hf : fetch frame with
    | error e => simp [advance, step, act, World.burn, h, hf, paying, World.paying]
    | ok i =>
      cases hs : i.step cls host ⟨{ frame with pc := frame.pc + 1 }, { world with fuel := some n }⟩ <;>
        simp [advance, step, act, World.burn, h, hf, hs, paying, World.paying]

theorem act_eq {r : Run σ} {i : Instr} (h : fetch r.frame = .ok i) :
    r.act cls host =
      match i.step cls host ⟨{ r.frame with pc := r.frame.pc + 1 }, r.world⟩ with
      | .ok flow s => go host ⟨s.frame, r.callers, s.world⟩ flow
      | .error e s => .failed e s.world := by
  rw [act, h]

/-- Whatever the budget, the next instruction takes one run to the other. -/
def Leads (cls : Class) (host : Host σ) (r r' : Run σ) : Prop :=
  ∀ fuel, (r.paying fuel).act cls host = .running (r'.paying fuel)

/-- A run takes a number of steps to another one, the frame in front of each being of a given sort. -/
inductive Takes (cls : Class) (host : Host σ) (P : Frame → Prop) : Nat → Run σ → Run σ → Prop
  | refl (r : Run σ) : Takes cls host P 0 r r
  | step {n : Nat} {r r' r'' : Run σ} (sort : P r.frame) (leads : Leads cls host r r')
      (rest : Takes cls host P n r' r'') : Takes cls host P (n + 1) r r''

namespace Takes

variable {P Q : Frame → Prop} {m n : Nat} {r r' r'' : Run σ}

theorem one (sort : P r.frame) (leads : Leads cls host r r') : Takes cls host P 1 r r' :=
  .step sort leads (.refl r')

theorem trans (h : Takes cls host P m r r') (h' : Takes cls host P n r' r'') :
    Takes cls host P (m + n) r r'' := by
  induction h with
  | refl r => simpa using h'
  | @step m _ _ _ sort leads _ ih =>
    rw [Nat.add_right_comm]
    exact .step sort leads (ih h')

theorem mono (h : Takes cls host P n r r') (hPQ : ∀ f, P f → Q f) : Takes cls host Q n r r' := by
  induction h with
  | refl r => exact .refl r
  | step sort leads _ ih => exact .step (hPQ _ sort) leads ih

end Takes

/-- What is left of a budget after a number of instructions. -/
def spend (fuel : Option Nat) (n : Nat) : Option Nat := fuel.map (· - n)

/-- Whether a budget is enough for a number of instructions. -/
def Affords (fuel : Option Nat) (n : Nat) : Prop := ∀ f, fuel = some f → n ≤ f

/-- What the next instruction comes to does not depend on the budget, as long as it lasts. -/
theorem advance_of_act {r : Run σ} {p : Option Nat → Progress σ}
    (h : ∀ fuel, (r.paying fuel).act cls host = p fuel) {fuel : Option Nat} (enough : Affords fuel 1) :
    (r.paying fuel).advance cls host = p (spend fuel 1) := by
  rw [advance_eq]
  rcases fuel with _ | _ | n
  · exact h none
  · exact absurd (enough 0 rfl) (by decide)
  · exact h (some n)

theorem Leads.advance {r r' : Run σ} (h : Leads cls host r r') {fuel : Option Nat}
    (enough : Affords fuel 1) :
    (r.paying fuel).advance cls host = .running (r'.paying (spend fuel 1)) :=
  advance_of_act h enough

/-- The steps that a run takes are those that it is seen to make, as long as the budget lasts. -/
theorem Takes.follow {P : Frame → Prop} {n : Nat} {r r' : Run σ} (h : Takes cls host P n r r')
    {fuel : Option Nat} (enough : Affords fuel n) :
    (r.paying fuel).follow cls host n = .running (r'.paying (spend fuel n)) := by
  induction h generalizing fuel with
  | refl r => cases fuel <;> rfl
  | @step n r r' r'' _ leads _ ih =>
    have first : Affords fuel 1 := fun f hf => by have := enough f hf; omega
    have more : Affords (spend fuel 1) n := by
      intro f hf
      cases fuel with
      | none => simp [spend] at hf
      | some g =>
        have := enough g rfl
        simp only [spend, Option.map_some, Option.some.injEq] at hf
        omega
    rw [Run.follow, leads.advance first]
    simp only
    rw [ih more]
    cases fuel <;> simp [spend, Nat.sub_sub, Nat.add_comm]

theorem follow_add (m n : Nat) (r : Run σ) :
    r.follow cls host (m + n) =
      match r.follow cls host m with
      | .running r => r.follow cls host n
      | finished => finished := by
  induction m generalizing r with
  | zero => simp [follow]
  | succ m ih =>
    rw [Nat.add_right_comm, follow, follow]
    cases r.advance cls host with
    | running r => exact ih r
    | completed c w => rfl
    | failed e w => rfl

/-- A run ends in one way only. -/
theorem ends_unique {r : Run σ} {m n : Nat}
    (ended : ∀ x, r.follow cls host m ≠ .running x) (ended' : ∀ x, r.follow cls host n ≠ .running x) :
    r.follow cls host m = r.follow cls host n := by
  have later {m n : Nat} (before : m ≤ n) (ended : ∀ x, r.follow cls host m ≠ .running x) :
      r.follow cls host n = r.follow cls host m := by
    rw [← Nat.add_sub_cancel' before, follow_add]
    split
    · next x running => exact absurd running (ended x)
    · rfl
  rcases Nat.le_total m n with before | before
  · exact (later before ended).symm
  · exact later before ended'

theorem Affords.first {fuel : Option Nat} {m n : Nat} (h : Affords fuel (m + n)) : Affords fuel m :=
  fun f hf => Nat.le_trans (Nat.le_add_right m n) (h f hf)

theorem Affords.rest {fuel : Option Nat} {m n : Nat} (h : Affords fuel (m + n)) :
    Affords (spend fuel m) n := by
  intro f hf
  cases fuel with
  | none => cases hf
  | some g =>
    have := h g rfl
    simp only [spend, Option.map_some, Option.some.injEq] at hf
    omega

theorem spend_spend (fuel : Option Nat) (m n : Nat) : spend (spend fuel m) n = spend fuel (m + n) := by
  cases fuel <;> simp [spend, Nat.sub_sub]

/-! ## Exceptions that leave a method -/

/-- What becomes of an exception that left a method. -/
def thrown (host : Host σ) (w : World σ) (exc : ObjectId) : List Caller → Progress σ
  | [] => .completed (.threw exc) w
  | c :: cs => unwind host w exc c.frame cs

theorem unwind_eq (host : Host σ) (w : World σ) (exc : ObjectId) (f : Frame) (cs : List Caller) :
    unwind host w exc f cs =
      match f.handlerFor host w (f.pc - 1) exc f.method.code.regions with
      | .error e => .failed e w
      | .ok (some pc) => .running ⟨f.catching exc pc, cs, w⟩
      | .ok none => thrown host w exc cs := by
  unfold unwind
  cases f.handlerFor host w (f.pc - 1) exc f.method.code.regions with
  | error e => rfl
  | ok pc => cases pc <;> cases cs <;> rfl

/-- After a number of steps an exception leaves the method, as far as the budget lasts. -/
def Throws (cls : Class) (host : Host σ) (n : Nat) (r : Run σ) (w : World σ) (exc : ObjectId) : Prop :=
  ∀ fuel, Affords fuel n →
    (r.paying fuel).follow cls host n = thrown host (w.paying (spend fuel n)) exc r.callers

variable {r r' : Run σ} {w : World σ} {exc : ObjectId}

theorem throws_of_act
    (h : ∀ fuel, (r.paying fuel).act cls host = thrown host (w.paying fuel) exc r.callers) :
    Throws cls host 1 r w exc := by
  intro fuel enough
  have first : (r.paying fuel).advance cls host =
      thrown host (w.paying (spend fuel 1)) exc r.callers := advance_of_act h enough
  rw [follow, first]
  cases thrown host (w.paying (spend fuel 1)) exc r.callers <;> rfl

theorem Takes.throws {P : Frame → Prop} {m n : Nat} (h : Takes cls host P m r r')
    (same : r'.callers = r.callers) (h' : Throws cls host n r' w exc) :
    Throws cls host (m + n) r w exc := by
  intro fuel enough
  rw [follow_add, h.follow enough.first]
  simp only
  rw [h' _ enough.rest, spend_spend, same]

end Run

end Suspension
