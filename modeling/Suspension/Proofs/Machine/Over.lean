import Suspension.Proofs.Machine.Calm

/-!
# Stepping over calls

From the point of view of one frame, an instruction that calls a method of the class does what the whole run
of that method does.  Stepping over it means to carry it out together with that run, so that the frame is left
at once: for the next instruction, for another one, by returning, or by an exception.

## Main definitions
* `Instr.stepOver`, `Run.stepOver`: one instruction of a frame, with the whole of a call that it makes.
* `Progress.under`: what becomes of a run if frames wait for it.

## Main results
* `Run.follow_stepOver`: a run does what stepping over its instruction does, whoever waits for it.
* `Instr.stays_step`: an instruction leaves the frame where it is.
* `Instr.fallsThrough_of_next`: which instructions go on to the next one.
-/

namespace Suspension

variable {σ α : Type} {cls : Class} {host : Host σ}

/-- An instruction, with the whole run of the method that it calls. -/
def Instr.stepOver (cls : Class) (host : Host σ) (patience : Nat) (i : Instr) : StepM σ Flow := do
  match ← i.step cls host with
  | .enter callee args result =>
    match ← inWorld (World.execute cls host patience callee args) with
    | .returned v =>
      modify fun s => { s with frame := s.frame.receive result v }
      return .next
    | .threw exc => return .raise exc
  | flow => return flow

/-- The next instruction of a frame, with the whole run of the method that it calls. -/
def Run.stepOver (cls : Class) (host : Host σ) (patience : Nat) : StepM σ Flow := do
  inWorld World.burn
  let i ← Run.fetch (← get).frame
  modify fun s => { s with frame := { s.frame with pc := s.frame.pc + 1 } }
  i.stepOver cls host patience

/-! ## Runs that others wait for -/

/-- What becomes of a run if some frames wait for it: its completion is passed on to them. -/
def Progress.under (host : Host σ) (callers : List Caller) : Progress σ → Progress σ
  | .running r => .running { r with callers := r.callers ++ callers }
  | .completed (.returned v) world => Run.leave world v callers
  | .completed (.threw exc) world =>
    match callers with
    | [] => .completed (.threw exc) world
    | c :: rest => Run.unwind host world exc c.frame rest
  | .failed e world => .failed e world

namespace Run

theorem unwind_under (world : World σ) (exc : ObjectId) (frame : Frame) (inner callers : List Caller) :
    unwind host world exc frame (inner ++ callers) = (unwind host world exc frame inner).under host callers := by
  induction inner generalizing frame with
  | nil =>
    rw [List.nil_append, unwind_eq, unwind_eq]
    cases frame.handlerFor host world (frame.pc - 1) exc frame.method.code.regions with
    | error e => rfl
    | ok handler =>
      cases handler with
      | none => cases callers <;> rfl
      | some pc => rfl
  | cons c inner ih =>
    rw [List.cons_append, unwind_eq, unwind_eq]
    cases frame.handlerFor host world (frame.pc - 1) exc frame.method.code.regions with
    | error e => rfl
    | ok handler =>
      cases handler with
      | none => exact ih c.frame
      | some pc => rfl

theorem go_under (frame : Frame) (inner callers : List Caller) (world : World σ) (flow : Flow) :
    go host ⟨frame, inner ++ callers, world⟩ flow = (go host ⟨frame, inner, world⟩ flow).under host callers := by
  cases flow with
  | next | goTo => rfl
  | jump l =>
    simp only [go]
    cases frame.target l <;> rfl
  | leave v => cases inner <;> rfl
  | raise exc => exact unwind_under world exc frame inner callers
  | enter callee args result =>
    simp only [go]
    cases Frame.enter callee args <;> rfl

/-- Frames that wait change nothing about one instruction. -/
theorem advance_under (r : Run σ) (callers : List Caller) :
    advance cls host { r with callers := r.callers ++ callers } = (r.advance cls host).under host callers := by
  unfold advance
  dsimp only
  split
  · exact go_under ..
  · rfl

/-- A run that completes by itself completes while others wait, and they go on. -/
theorem follow_under {n : Nat} {r : Run σ} {c : Completion} {world : World σ}
    (h : r.follow cls host n = .completed c world) (callers : List Caller) :
    ∃ m, follow cls host m { r with callers := r.callers ++ callers } =
      (Progress.completed c world).under host callers := by
  induction n generalizing r with
  | zero => cases h
  | succ n ih =>
    rw [follow] at h
    split at h
    · next r' advanced =>
      obtain ⟨m, followed⟩ := ih h
      refine ⟨m + 1, ?_⟩
      rw [follow, advance_under, advanced]
      exact followed
    · refine ⟨1, ?_⟩
      rw [follow, advance_under, h]
      split
      · next r' e => rw [e, follow]
      · rfl

theorem execute_eq_ok {patience : Nat} {method : Method} {args : List Value} {w w' : World σ} {c : Completion}
    (h : World.execute cls host patience method args w = .ok c w') :
    ∃ frame, Frame.enter method args = .ok frame ∧
      follow cls host (w.fuel.getD patience + 1) { frame, world := w } = .completed c w' := by
  unfold World.execute at h
  split at h
  · cases h
  · next frame entered =>
    split at h
    · next completed =>
      cases h
      exact ⟨frame, entered, completed⟩
    · cases h
    · cases h

/-- A run does what stepping over its instruction does, whoever waits for it.  It splits into the fetch, the
instruction and the callee, which runs as it would by itself before its completion is passed on to the frame. -/
theorem follow_stepOver {patience : Nat} {s s' : Situation σ} {flow : Flow}
    (h : stepOver cls host patience s = .ok flow s') (callers : List Caller) :
    ∃ n, follow cls host (n + 1) ⟨s.frame, callers, s.world⟩ = go host ⟨s'.frame, callers, s'.world⟩ flow := by
  have first {inner : Flow} {t : Situation σ} (stepped : step cls host s = .ok inner t) :
      advance cls host ⟨s.frame, callers, s.world⟩ = go host ⟨t.frame, callers, t.world⟩ inner := by
    simp only [advance, stepped]
  have alone {inner : Flow} {t : Situation σ} (stepped : step cls host s = .ok inner t) :
      follow cls host 1 ⟨s.frame, callers, s.world⟩ = go host ⟨t.frame, callers, t.world⟩ inner := by
    rw [follow, first stepped]
    split
    · next r e => rw [e, follow]
    · rfl
  obtain ⟨_, s₁, burnt, h⟩ := bind_apply_eq_ok h
  obtain ⟨_, _, got, h⟩ := bind_apply_eq_ok h
  cases got
  obtain ⟨i, s₂, fetched, h⟩ := bind_apply_eq_ok h
  obtain ⟨_, s₃, moved, h⟩ := bind_apply_eq_ok h
  obtain ⟨inner, s₄, stepped, h⟩ := bind_apply_eq_ok h
  have stepped : step cls host s = .ok inner s₄ := by
    simp only [step, bind_apply, burnt, get_apply, fetched, moved, stepped]
  cases inner with
  | enter callee args result =>
    obtain ⟨c, s₅, executed, h⟩ := bind_apply_eq_ok h
    rw [inWorld_apply] at executed
    split at executed
    · next c world executed' =>
      cases executed
      obtain ⟨frame, entered, completed⟩ := execute_eq_ok executed'
      obtain ⟨m, followed⟩ := follow_under completed (⟨s₄.frame, result⟩ :: callers)
      refine ⟨m, ?_⟩
      rw [follow, first stepped, go, entered]
      cases c with
      | returned v =>
        cases h
        exact followed
      | threw exc =>
        cases h
        exact followed
    · cases executed
  | next | jump | goTo | leave | raise =>
    cases h
    exact ⟨0, alone stepped⟩

end Run

/-! ## What an instruction does to its frame -/

/-- A frame stays in its method and where it is, whatever becomes of the rest. -/
def Situation.staying : Keeping (Situation σ) where
  rel s t := t.frame.method = s.frame.method ∧ t.frame.pc = s.frame.pc
  refl _ := ⟨rfl, rfl⟩
  trans a b := ⟨b.1.trans a.1, b.2.trans a.2⟩

theorem Does.staying {L : Keeping LocalValues} {C : Keeping Contexts} {P : α → Prop} {x : StepM σ α}
    (h : Does (Situation.keeping L C) P x) : Does Situation.staying P x where
  ok e := ⟨⟨(h.ok e).1.1.1, (h.ok e).1.1.2.1⟩, (h.ok e).2⟩
  error e := ⟨(h.error e).1.1, (h.error e).1.2.1⟩

theorem stays_inWorld (x : WorldM σ α) : Keeps Situation.staying (inWorld x) where
  ok := by
    intro s a t e
    rw [inWorld_apply] at e
    split at e <;> cases e
    exact ⟨⟨rfl, rfl⟩, trivial⟩
  error := by
    intro s e t h
    rw [inWorld_apply] at h
    split at h <;> cases h
    exact ⟨rfl, rfl⟩

theorem stays_receive (result : Option Tag) (v : Option Value) :
    Keeps Situation.staying (modify fun s => { s with frame := s.frame.receive result v } : StepM σ PUnit) :=
  (keeps_receive (L := LocalValues.anyhow) (C := Contexts.anyhow) result v).staying

theorem MemberRef.stays_call (m : MemberRef) (kind : InvokeKind) :
    Does Situation.staying ((Instr.invoke kind m).MayLead cls) (m.call cls host kind) := by
  have finish (result : Option Tag) (v : Option Value) :
      Does Situation.staying ((Instr.invoke kind m).MayLead cls)
        (MemberRef.call.finish result v : StepM σ Flow) :=
    (stays_receive result v).seq fun _ => does_pure trivial
  refine Does.bind (does_except fun s hs => hs) fun s hs => ?_
  refine Does.bind (Frame.does_popMany (L := LocalValues.anyhow) s.params.length
    |>.onFrame (C := Contexts.anyhow)).staying fun args hargs => ?_
  extract_lets called
  have rest (receiver : Option Value) (hr : receiver.isSome = kind.hasReceiver) :
      Does Situation.staying ((Instr.invoke kind m).MayLead cls) (called receiver) := by
    unfold called
    split
    · exact (Flow.mayLead_raise (L := LocalValues.anyhow) (C := Contexts.anyhow) _).staying
    · split
      · exact (stays_inWorld _).seq fun _ => finish ..
      · split
        · next callee found =>
          exact does_pure ⟨kind, m, s, receiver, args, rfl, found, hs, rfl, hargs, hr⟩
        · split <;> exact (stays_inWorld _).seq fun _ => finish ..
  split
  · next has =>
    refine Does.bind (P := fun r : Option Value => r.isSome = kind.hasReceiver) ?_ rest
    exact ((Frame.keeps_pop (L := LocalValues.anyhow)).onFrame (C := Contexts.anyhow)).staying.seq
      fun _ => does_pure has.symm
  · next none => exact (does_pure (by simpa using none)).bind rest

/-- An instruction leaves the frame where it is, and leads where it may lead. -/
theorem Instr.stays_step (i : Instr) : Does Situation.staying (i.MayLead cls) (i.step cls host) := by
  cases hi : i.isCall with
  | false =>
    exact (does_step_of_noCall (L := LocalValues.anyhow) (C := Contexts.anyhow) cls host hi
      fun _ _ _ _ => trivial).staying
  | true =>
    cases i with
    | invoke kind m => exact m.stays_call kind
    | invokeDynamic name descriptor =>
      refine (keeps_except _).seq fun s => ?_
      refine ((Frame.does_popMany (L := LocalValues.anyhow) s.params.length).onFrame
        (C := Contexts.anyhow)).staying.seq fun args => ?_
      exact (stays_inWorld _).seq fun v => (stays_receive ..).seq fun _ => does_pure trivial
    | _ => cases hi

/-- An instruction that goes on to the next one is one that control runs on from.  Every other instruction ends
with a flow of its own. -/
theorem Instr.fallsThrough_of_next {i : Instr} {s s' : Situation σ}
    (h : i.step cls host s = .ok .next s') : i.fallsThrough = true := by
  cases i with
  | plain op =>
    cases op with
    | leave k =>
      cases k with
      | none => cases h
      | some k =>
        obtain ⟨v, t, -, h⟩ := bind_apply_eq_ok h
        cases h
    | athrow =>
      obtain ⟨exc, t, -, h⟩ := bind_apply_eq_ok h
      cases exc with
      | some exc => cases h
      | none =>
        obtain ⟨exc, t', -, h⟩ := bind_apply_eq_ok h
        cases h
    | _ => rfl
  | slot op slot =>
    cases op with
    | ret =>
      obtain ⟨v, t, -, h⟩ := bind_apply_eq_ok h
      cases v <;> cases h
    | _ => rfl
  | jump op l =>
    cases op with
    | goto => cases h
    | _ => rfl
  | tableSwitch low high default targets =>
    obtain ⟨key, t, -, h⟩ := bind_apply_eq_ok h
    cases h
  | lookupSwitch default pairs =>
    obtain ⟨key, t, -, h⟩ := bind_apply_eq_ok h
    cases h
  | _ => rfl

/-! ## What stepping over does to a frame -/

/-- Where control may go after an instruction, calls being over: it goes on from those alone from which it
runs on, jumps to the targets, and leaves the method where it returns. -/
def Instr.Proceeds (i : Instr) : Flow → Prop
  | .next => i.fallsThrough = true
  | .jump l => l ∈ i.targets
  | .goTo _ => ∃ s, i = .slot .ret s
  | .leave _ => i.isReturn = true
  | .raise _ => True
  | .enter .. => False

/-- Stepping over an instruction leaves the frame where it is, and proceeds as the instruction does. -/
theorem Instr.proceeds_stepOver {i : Instr} {patience : Nat} {s s' : Situation σ} {flow : Flow}
    (h : i.stepOver cls host patience s = .ok flow s') :
    s'.frame.method = s.frame.method ∧ s'.frame.pc = s.frame.pc ∧ i.Proceeds flow := by
  obtain ⟨inner, t, stepped, h⟩ := bind_apply_eq_ok h
  obtain ⟨⟨method, pc⟩, leads⟩ := i.stays_step.ok stepped
  cases inner with
  | enter callee args result =>
    obtain ⟨c, u, executed, h⟩ := bind_apply_eq_ok h
    obtain ⟨⟨method', pc'⟩, -⟩ := (stays_inWorld _).ok executed
    obtain ⟨kind, m, -, -, -, rfl, -⟩ := leads
    cases c with
    | returned v =>
      obtain ⟨_, u', received, h⟩ := bind_apply_eq_ok h
      obtain ⟨⟨method'', pc''⟩, -⟩ := (stays_receive result v).ok received
      cases h
      exact ⟨method''.trans (method'.trans method), pc''.trans (pc'.trans pc), rfl⟩
    | threw exc =>
      cases h
      exact ⟨method'.trans method, pc'.trans pc, trivial⟩
  | next =>
    cases h
    exact ⟨method, pc, fallsThrough_of_next stepped⟩
  | jump | goTo | leave | raise =>
    cases h
    exact ⟨method, pc, leads⟩

end Suspension
