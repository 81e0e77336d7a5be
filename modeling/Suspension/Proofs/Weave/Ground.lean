import Suspension.Proofs.Flow.Covering
import Suspension.Proofs.Weave.Tending

/-!
# The frame in which a run was begun

Below all frames that were called stands the one in which the run was begun.  Whatever a step of the run does
to the frames above it, this frame waits where it is, or goes where the text of its method leads.

## Main definitions
* `Method.Steers`: where the text of a method leads from a place, whatever is thrown there.
* `Run.ground`: the frame in which a run was begun.

## Main results
* `Run.steers_of_act`: a step of a run keeps this frame to the text of its method.
-/

namespace Suspension

/-- Where the text of a method may lead from a place: on to the next place, to a label that its instruction goes
to, behind a call of a subroutine, or to a handler. -/
inductive Method.Steers (m : Method) (place : Nat) : Nat → Prop
  | falls {i : Instr} (here : m.code.instrs[place]? = some i) (on : i.fallsThrough = true) :
    m.Steers place (place + 1)
  | goes {i : Instr} {l : Label} {j : Nat} (here : m.code.instrs[place]? = some i) (mem : l ∈ i.targets)
      (target : m.code.target? l = some j) : m.Steers place j
  | back {q : Nat} {l : Label} (calls : m.code.instrs[q]? = some (.jump .jsr l)) : m.Steers place (q + 1)
  | caught {r : Region} {j : Nat} (mem : r ∈ m.code.regions) (target : m.code.target? r.handler = some j) :
    m.Steers place j

variable {σ : Type} {cls : Class} {host : Host σ}

/-- A frame that receives a result stays where it is. -/
theorem Frame.receive_keeps (f : Frame) (result : Option Tag) (v : Option Value) :
    (f.receive result v).method = f.method ∧ (f.receive result v).pc = f.pc := by
  cases result <;> exact ⟨rfl, rfl⟩

namespace Run

/-- The last of the frames that wait, or the frame that is run if none does. -/
def bottom (f : Frame) : List Caller → Frame
  | [] => f
  | c :: cs => bottom c.frame cs

/-- The frame in which a run was begun. -/
def ground (r : Run σ) : Frame := bottom r.frame r.callers

variable {r r' : Run σ} {w : World σ} {f : Frame} {cs : List Caller}

/-- The frame that is run matters only if no other one waits for it. -/
theorem bottom_congr {g : Frame} (method : g.method = f.method) (pc : g.pc = f.pc) :
    (bottom g cs).method = (bottom f cs).method ∧ (bottom g cs).pc = (bottom f cs).pc := by
  cases cs with
  | nil => exact ⟨method, pc⟩
  | cons c cs => exact ⟨rfl, rfl⟩

/-- An exception leaves the first frame as it is, if others were above it, or comes to one of its handlers.  A
frame above the first one may catch it, or is dropped. -/
theorem ground_unwind {exc : ObjectId} (h : unwind host w exc f cs = .running r') :
    cs ≠ [] ∧ r'.ground = bottom f cs ∨ r'.ground.method = (bottom f cs).method ∧
      ∃ region ∈ (bottom f cs).method.code.regions,
        (bottom f cs).method.code.target? region.handler = some r'.ground.pc := by
  induction cs generalizing f with
  | nil =>
    rw [unwind_eq] at h
    split at h
    · cases h
    · next found =>
      cases h
      obtain ⟨region, mem, -, -, -, -, -, -, target⟩ := Frame.handlerFor_eq_some found
      exact .inr ⟨rfl, region, mem, Frame.target_eq_ok target⟩
    · cases h
  | cons c cs ih =>
    rw [unwind_eq] at h
    split at h
    · cases h
    · cases h
      exact .inl ⟨List.cons_ne_nil _ _, rfl⟩
    · rcases ih h with ⟨-, same⟩ | caught
      · exact .inl ⟨List.cons_ne_nil _ _, same⟩
      · exact .inr caught

/-- A step of a run keeps the first frame to the text of its method: while others are run it waits, or goes to a
handler. -/
theorem steers_of_act (leaves : host.LeavesHandles) (homing : r.callers = [] → r.frame.Homing)
    (act : r.act cls host = .running r') :
    r'.ground.method = r.ground.method ∧ (r.callers ≠ [] ∧ r'.ground.pc = r.ground.pc ∨
      r.ground.method.Steers r.ground.pc r'.ground.pc) := by
  obtain ⟨i, flow, t, fetched, step, go⟩ := act_eq_running act
  have keeps : Does _ (i.MayLead cls) (i.step cls host) := i.keepsHandles_step leaves
  obtain ⟨⟨⟨method, pc, -⟩, -⟩, leads⟩ := keeps.ok step
  have method : t.frame.method = r.frame.method := method
  have pc : t.frame.pc = r.frame.pc + 1 := pc
  have here := getElem?_of_fetch fetched
  have on (falls : i.fallsThrough = true) : r.frame.method.Steers r.frame.pc t.frame.pc := by
    rw [pc]
    exact .falls here falls
  obtain ⟨frame, callers, world⟩ := r
  cases callers with
  | nil =>
    cases flow with
    | next =>
      cases go
      exact ⟨method, .inr (on (Instr.fallsThrough_of_next step))⟩
    | jump l =>
      unfold Run.go at go
      simp only at go
      split at go
      · next target =>
        cases go
        exact ⟨method, .inr (.goes here leads (method ▸ Frame.target_eq_ok target))⟩
      · cases go
    | goTo q =>
      cases go
      obtain ⟨s, rfl⟩ := leads
      obtain ⟨q', found, same⟩ := Instr.step_ret_eq_ok step
      cases same
      obtain ⟨p, l, rfl, calls⟩ := homing rfl s q fetched found
      exact ⟨method, .inr (.back calls)⟩
    | leave v => cases go
    | raise exc =>
      rcases ground_unwind go with ⟨none, -⟩ | ⟨same, region, mem, target⟩
      · exact absurd rfl none
      · have own : (bottom t.frame []).method = frame.method := method
        rw [own] at same mem target
        exact ⟨same, .inr (.caught mem target)⟩
    | enter callee args result =>
      unfold Run.go at go
      simp only at go
      split at go
      · cases go
        obtain ⟨_, _, _, _, _, rfl, -⟩ := leads
        exact ⟨method, .inr (on rfl)⟩
      · cases go
  | cons c cs =>
    suffices same : r'.ground.method = (bottom c.frame cs).method ∧ r'.ground.pc = (bottom c.frame cs).pc ∨
        r'.ground.method = (bottom c.frame cs).method ∧ ∃ region ∈ (bottom c.frame cs).method.code.regions,
          (bottom c.frame cs).method.code.target? region.handler = some r'.ground.pc by
      rcases same with ⟨own, place⟩ | ⟨own, region, mem, target⟩
      · exact ⟨own, .inl ⟨List.cons_ne_nil _ _, place⟩⟩
      · exact ⟨own, .inr (.caught mem target)⟩
    cases flow with
    | next | goTo =>
      cases go
      exact .inl ⟨rfl, rfl⟩
    | jump l =>
      unfold Run.go at go
      simp only at go
      split at go
      · cases go
        exact .inl ⟨rfl, rfl⟩
      · cases go
    | leave v =>
      cases go
      obtain ⟨own, place⟩ := c.frame.receive_keeps c.result v
      exact .inl (bottom_congr own place)
    | raise exc =>
      rcases ground_unwind go with ⟨-, same⟩ | caught
      · exact .inl ⟨congrArg Frame.method same, congrArg Frame.pc same⟩
      · exact .inr caught
    | enter callee args result =>
      unfold Run.go at go
      simp only at go
      split at go
      · cases go
        exact .inl ⟨rfl, rfl⟩
      · cases go

end Run

end Suspension
