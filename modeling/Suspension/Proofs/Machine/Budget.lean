import Suspension.Proofs.Machine.Ordinary

/-!
# Budgets

A budget cuts runs short and does nothing else.  No operation of the machine looks at it but the one that pays
for an instruction, so that a run under any budget goes the way of the run without one for as long as the
budget lasts.

## Main definitions
* `Commutes`, `World.Free`, `Free`: an operation that a change of the state, or of the budget, does not concern.
* `Progress.paying`: what became of a run, with another budget.
* `Run.Ends`: a run that carries out a number of instructions and ends with the last of them.

## Main results
* `Run.act_paying`: what an instruction comes to does not depend on the budget.
* `Run.Ends.follow`, `Run.Ends.follow_short`: a run under a budget that lasts, and under one that does not.
* `World.execute_paying`: whole runs of a method.
-/

namespace Suspension

/-! ## Operations that a change does not concern -/

section

variable {ε τ α β : Type} {φ : τ → τ}

/-- What an operation came to, with a changed state behind it. -/
def onState (φ : τ → τ) : EStateM.Result ε τ α → EStateM.Result ε τ α
  | .ok a s => .ok a (φ s)
  | .error e s => .error e (φ s)

/-- An operation comes to the same whether the state is changed before it or behind it. -/
def Commutes (φ : τ → τ) (x : EStateM ε τ α) : Prop := ∀ s, x (φ s) = onState φ (x s)

theorem commutes_pure (a : α) : Commutes φ (pure a : EStateM ε τ α) := fun _ => rfl

theorem commutes_throw (e : ε) : Commutes φ (throw e : EStateM ε τ α) := fun _ => rfl

theorem Commutes.bind {x : EStateM ε τ α} {f : α → EStateM ε τ β} (hx : Commutes φ x)
    (hf : ∀ a, Commutes φ (f a)) : Commutes φ (x >>= f) := by
  intro s
  rw [bind_apply, bind_apply, hx s]
  cases x s with
  | ok a t => exact hf a t
  | error e t => rfl

theorem commutes_except (x : Except ε α) : Commutes φ (liftM x : EStateM ε τ α) := by
  cases x with
  | ok a => exact commutes_pure a
  | error e => exact commutes_throw e

/-- What is read of a state may depend on all that the change leaves as it is. -/
theorem commutes_get {f : τ → EStateM ε τ α} (same : ∀ s, f (φ s) = f s) (hf : ∀ s, Commutes φ (f s)) :
    Commutes φ (get >>= f) := by
  intro s
  rw [bind_apply, bind_apply, get_apply, get_apply]
  simp only [same]
  exact hf s s

theorem commutes_modify {f : τ → τ} (h : ∀ s, f (φ s) = φ (f s)) :
    Commutes φ (modify f : EStateM ε τ PUnit) := by
  intro s
  rw [modify_apply, h]
  rfl

theorem commutes_mapM {f : α → EStateM ε τ β} (h : ∀ a, Commutes φ (f a)) (l : List α) :
    Commutes φ (l.mapM f) := by
  induction l with
  | nil => exact commutes_pure _
  | cons a l ih =>
    rw [List.mapM_cons]
    exact (h a).bind fun _ => ih.bind fun _ => commutes_pure _

end

variable {σ α : Type} {fuel : Option Nat}

/-! ## Operations on the world -/

namespace World

/-- An operation on the world comes to the same under another budget. -/
abbrev Free (fuel : Option Nat) (x : WorldM σ α) : Prop := Commutes (fun w : World σ => w.paying fuel) x

theorem free_report (e : Event) : Free fuel (report e : WorldM σ Unit) := fun _ => rfl

theorem free_changeHeap (f : Heap → Except ExecError (α × Heap)) : Free fuel (changeHeap f : WorldM σ α) := by
  intro w
  unfold changeHeap
  rw [heap_paying]
  cases f w.heap <;> rfl

theorem free_changeContexts (f : Contexts → Except ExecError (α × Contexts)) :
    Free fuel (changeContexts f : WorldM σ α) := by
  intro w
  unfold changeContexts
  rw [contexts_paying]
  cases f w.contexts <;> rfl

theorem free_setStatic (owner name : String) (v : Value) :
    Free fuel (setStatic owner name v : WorldM σ Unit) := fun _ => rfl

theorem free_object (r : ObjectId) : Free fuel (object r : WorldM σ HeapObject) :=
  commutes_get (fun _ => rfl) fun _ => commutes_except _

theorem free_isOf (host : Host σ) (r : ObjectId) (target : String) : Free fuel (isOf host r target) :=
  commutes_get (fun w => by simp only [instanceOf_paying]) fun _ => commutes_except _

theorem free_context (id : ContextId) : Free fuel (context id : WorldM σ Context) :=
  commutes_get (fun _ => rfl) fun _ => commutes_except _

theorem free_construct (m : MemberRef) (receiver : Option Value) (args : List Value) :
    Free fuel (construct m receiver args : WorldM σ Unit) := by
  unfold construct
  split
  · refine (commutes_except _).bind fun _ => (free_changeHeap _).bind fun _ => ?_
    split
    · exact free_changeHeap _
    · exact commutes_pure _
  · exact commutes_pure _

theorem free_askHost (host : Host σ) (kind : InvokeKind) (m : MemberRef) (receiver : Option Value)
    (args : List Value) : Free fuel (askHost host kind m receiver args) := by
  intro w
  unfold askHost
  rw [heap_paying, outside_paying]
  cases host.invoke kind m receiver args (w.heap, w.outside) <;> rfl

/-! ## Services -/

theorem free_apply (s : ContextService) (args : List Value) (id : ContextId) :
    Free fuel (s.apply args id : WorldM σ (Option Value)) := by
  have context : Free fuel (World.context id : WorldM σ Context) := free_context id
  cases s with
  | getLabel => exact context.bind fun _ => commutes_pure _
  | setLabel =>
    exact (commutes_except _).bind fun _ => (commutes_except _).bind fun _ =>
      (free_changeContexts _).bind fun _ => commutes_pure _
  | clearLabel => exact (free_changeContexts _).bind fun _ => commutes_pure _
  | getLocalVars | getLocalStack =>
    exact context.bind fun _ => (free_changeHeap _).bind fun _ => commutes_pure _
  | register => exact (free_changeContexts _).bind fun _ => commutes_pure _
  | deactivate =>
    exact ((free_report _).bind fun _ => free_changeContexts _).bind fun _ => commutes_pure _
  | getCallAnswer => exact context.bind fun _ => (free_changeContexts _).bind fun _ => commutes_pure _

theorem free_callHandle (m : MemberRef) (args : List Value) (id : ContextId) (face : ContextFace) :
    Free fuel (callHandle m args id face : WorldM σ (Option Value)) := by
  cases face with
  | context =>
    unfold callHandle
    simp only
    split
    · exact free_apply _ _ _
    · exact commutes_throw _
  | localVars | localStack =>
    exact (free_context id).bind fun _ => (commutes_except _).bind fun _ =>
      (free_changeContexts _).bind fun _ => commutes_pure _

theorem free_callService (m : MemberRef) (receiver : Option Value) (args : List Value) :
    Free fuel (callService m receiver args : WorldM σ (Option Value)) := by
  unfold callService
  split
  · exact (free_changeContexts _).bind fun _ => (free_changeHeap _).bind fun _ => commutes_pure _
  · split
    · exact commutes_throw _
    · refine (commutes_except _).bind fun r => ?_
      split
      · exact commutes_throw _
      · refine (free_object _).bind fun o => ?_
        split
        · exact free_callHandle _ _ _ _
        · exact commutes_throw _

end World

/-! ## Instructions -/

open Suspension.Frame (push)

/-- An operation on a frame and its world comes to the same under another budget. -/
abbrev Free (fuel : Option Nat) (x : StepM σ α) : Prop := Commutes (fun s : Situation σ => s.paying fuel) x

section

variable {x : StepM σ α}

theorem free_onFrame (x : FrameM α) : Free fuel (liftM x : StepM σ α) := by
  intro s
  have same : (s.paying fuel).frame = s.frame := rfl
  rw [liftM_frame_apply, liftM_frame_apply, same]
  cases x s.frame <;> rfl

theorem Commutes.inWorld {x : WorldM σ α} (h : World.Free fuel x) : Free fuel (Suspension.inWorld x) := by
  intro s
  have moved : x (s.paying fuel).world = onState (·.paying fuel) (x s.world) := h s.world
  rw [inWorld_apply, inWorld_apply, moved]
  cases x s.world <;> rfl

theorem Commutes.andNext (h : Free fuel x) : Free fuel (do let _ ← x; return Flow.next) :=
  h.bind fun _ => commutes_pure _

theorem free_raiseNew (e : BuiltinException) : Free fuel (raiseNew e : StepM σ Flow) :=
  ((World.free_changeHeap _).inWorld).bind fun _ => commutes_pure _

theorem free_receive (result : Option Tag) (v : Option Value) :
    Free fuel (modify fun s => { s with frame := s.frame.receive result v } : StepM σ PUnit) :=
  commutes_modify fun _ => rfl

end

theorem ArithOp.free_step (op : ArithOp) (k : NumKind) : Free fuel (op.step k : StepM σ Flow) := by
  cases k with
  | int | long =>
    refine (free_onFrame _).bind fun _ => (free_onFrame _).bind fun _ => ?_
    split
    · exact (free_onFrame _).andNext
    · exact free_raiseNew _
  | float | double =>
    exact (free_onFrame _).bind fun _ => (free_onFrame _).bind fun _ =>
      (free_onFrame _).andNext

theorem free_loadElement : Free fuel (loadElement : StepM σ Flow) := by
  refine (free_onFrame _).bind fun _ => (free_onFrame _).bind fun r => ?_
  split
  · exact free_raiseNew _
  · refine ((World.free_object _).inWorld).bind fun o => ?_
    split
    · split
      · exact (free_onFrame _).andNext
      · exact free_raiseNew _
    · exact commutes_throw _

theorem free_storeElement (k : ElemKind) : Free fuel (storeElement k : StepM σ Flow) := by
  refine (free_onFrame _).bind fun _ => (free_onFrame _).bind fun _ =>
    (free_onFrame _).bind fun r => ?_
  split
  · exact free_raiseNew _
  · refine ((World.free_object _).inWorld).bind fun o => ?_
    split
    · refine (commutes_except _).bind fun _ => ?_
      split
      · refine ((World.free_changeHeap _).inWorld).bind fun b => ?_
        split
        · exact commutes_pure _
        · exact free_raiseNew _
      · exact free_raiseNew _
    · exact commutes_throw _

theorem free_newArray (descriptor : String) (dims : Nat) :
    Free fuel (newArray descriptor dims : StepM σ Flow) := by
  refine (free_onFrame _).bind fun vs =>
    (commutes_mapM (fun v => commutes_except _) vs).bind fun counts => ?_
  split
  · exact free_raiseNew _
  · split
    · exact free_raiseNew _
    · exact ((World.free_changeHeap _).inWorld).bind fun _ => (free_onFrame _).andNext

/-- What a step asks of the frame or the heap does not read the budget. -/
theorem PlainOp.free_step (op : PlainOp) : Free fuel (op.step : StepM σ Flow) := by
  cases op with
  | nop => exact commutes_pure _
  | aconstNull | shuffle | bits | compare => exact (free_onFrame _).andNext
  | arrayLoad _ => exact free_loadElement
  | arrayStore k => exact free_storeElement k
  | arith op k => exact op.free_step k
  | neg k => exact (free_onFrame _).bind fun _ => (free_onFrame _).andNext
  | convert c =>
    exact (free_onFrame _).bind fun _ => (commutes_except _).bind fun _ => (free_onFrame _).andNext
  | leave k =>
    cases k with
    | none => exact commutes_pure _
    | some k => exact (free_onFrame _).bind fun _ => commutes_pure _
  | arrayLength =>
    refine (free_onFrame _).bind fun r => ?_
    split
    · exact free_raiseNew _
    · refine ((World.free_object _).inWorld).bind fun o => ?_
      split
      · exact (free_onFrame _).andNext
      · exact commutes_throw _
  | athrow =>
    refine (free_onFrame _).bind fun r => ?_
    split
    · exact commutes_pure _
    · exact free_raiseNew _
  | monitorEnter | monitorExit =>
    refine (free_onFrame _).bind fun r => ?_
    split
    · exact free_raiseNew _
    · exact commutes_pure _

theorem SlotOp.free_step (op : SlotOp) (s : Slot) : Free fuel (op.step s : StepM σ Flow) := by
  cases op with
  | load | store => exact (free_onFrame _).andNext
  | ret =>
    refine (free_onFrame _).bind fun v => ?_
    split
    · exact commutes_pure _
    · exact commutes_throw _

theorem JumpOp.free_step (op : JumpOp) (l : Label) : Free fuel (op.step l : StepM σ Flow) := by
  cases op with
  | ifZero | ifNull => exact (free_onFrame _).bind fun _ => commutes_pure _
  | ifInts | ifRefs =>
    exact (free_onFrame _).bind fun _ => (free_onFrame _).bind fun _ => commutes_pure _
  | goto => exact commutes_pure _
  | jsr => exact commutes_get (fun _ => rfl) fun _ => (free_onFrame _).bind fun _ => commutes_pure _

theorem FieldOp.free_step (op : FieldOp) (f : MemberRef) : Free fuel (op.step f : StepM σ Flow) := by
  have zero : Free fuel (do push (← fieldZero f); return Flow.next : StepM σ Flow) :=
    (commutes_except _).bind fun _ => (free_onFrame _).andNext
  cases op with
  | getStatic =>
    refine commutes_get (fun _ => rfl) fun _ => ?_
    split
    · exact (free_onFrame _).andNext
    · exact zero
  | putStatic => exact (free_onFrame _).bind fun _ => ((World.free_setStatic _ _ _).inWorld).andNext
  | getField =>
    refine (free_onFrame _).bind fun r => ?_
    split
    · exact free_raiseNew _
    · refine commutes_get (fun _ => rfl) fun _ => ?_
      split
      · exact (free_onFrame _).andNext
      · exact zero
  | putField =>
    refine (free_onFrame _).bind fun _ => (free_onFrame _).bind fun r => ?_
    split
    · exact free_raiseNew _
    · exact ((World.free_changeHeap _).inWorld).andNext

theorem ClassOp.free_step (host : Host σ) (op : ClassOp) (className : String) :
    Free fuel (op.step host className) := by
  have tested (r : ObjectId) : Free fuel (inWorld (World.isOf host r className)) :=
    (World.free_isOf host r className).inWorld
  cases op with
  | new => exact ((World.free_changeHeap _).inWorld).bind fun _ => (free_onFrame _).andNext
  | newArray => exact free_newArray _ _
  | checkCast =>
    refine (free_onFrame _).bind fun r => ?_
    split
    · exact (free_onFrame _).andNext
    · refine (tested _).bind fun b => ?_
      split
      · exact (free_onFrame _).andNext
      · exact free_raiseNew _
  | instanceOf =>
    refine (free_onFrame _).bind fun r => ?_
    split
    · exact (free_onFrame _).andNext
    · exact (tested _).bind fun b => (free_onFrame _).andNext

theorem Constant.free_step (c : Constant) : Free fuel (c.step : StepM σ Unit) := by
  cases c with
  | int | float | long | double => exact free_onFrame _
  | string | classRef => exact ((World.free_changeHeap _).inWorld).bind fun _ => free_onFrame _

theorem MemberRef.free_call (cls : Class) (host : Host σ) (kind : InvokeKind) (m : MemberRef) :
    Free fuel (m.call cls host kind) := by
  have finish (result : Option Tag) (v : Option Value) : Free fuel
      (MemberRef.call.finish result v : StepM σ Flow) :=
    (free_receive result v).andNext
  refine (commutes_except _).bind fun s => (free_onFrame _).bind fun args => ?_
  extract_lets called
  have rest (receiver : Option Value) : Free fuel (called receiver) := by
    unfold called
    split
    · exact free_raiseNew _
    · split
      · exact ((World.free_callService _ _ _).inWorld).bind fun _ => finish _ _
      · split
        · exact commutes_pure _
        · split
          · exact ((World.free_construct _ _ _).inWorld).bind fun _ => finish _ _
          · exact ((World.free_askHost _ _ _ _ _).inWorld).bind fun _ => finish _ _
  split
  · exact ((free_onFrame _).bind fun _ => commutes_pure _).bind rest
  · exact (commutes_pure _).bind rest

/-- No instruction looks at the budget. -/
theorem Instr.free_step (cls : Class) (host : Host σ) (i : Instr) : Free fuel (i.step cls host) := by
  cases i with
  | plain op => exact op.free_step
  | iconst | lconst | fconst | dconst | bipush | sipush | iinc => exact (free_onFrame _).andNext
  | ldc c => exact (c.free_step).andNext
  | slot op s => exact op.free_step s
  | jump op l => exact op.free_step l
  | tableSwitch | lookupSwitch => exact (free_onFrame _).bind fun _ => commutes_pure _
  | field op f => exact op.free_step f
  | invoke kind m => exact m.free_call cls host kind
  | invokeDynamic name descriptor =>
    exact (commutes_except _).bind fun s => (free_onFrame _).bind fun _ =>
      ((World.free_askHost _ _ _ _ _).inWorld).bind fun _ => (free_receive _ _).andNext
  | typed op className => exact op.free_step host className
  | newArray | multiNewArray => exact free_newArray _ _
  | label l => exact commutes_pure _

/-! ## Runs -/

/-- What became of a run, with another budget. -/
def Progress.paying (p : Progress σ) (fuel : Option Nat) : Progress σ :=
  match p with
  | .running r => .running (r.paying fuel)
  | .completed c w => .completed c (w.paying fuel)
  | .failed e w => .failed e (w.paying fuel)

/-- What became of a run that does not go on. -/
def Progress.Over (p : Progress σ) : Prop := ∀ r, p ≠ .running r

namespace Run

variable {cls : Class} {host : Host σ} {r r' : Run σ} {p : Progress σ} {m n : Nat}

theorem unwind_paying (w : World σ) (exc : ObjectId) (f : Frame) (cs : List Caller) (fuel : Option Nat) :
    unwind host (w.paying fuel) exc f cs = (unwind host w exc f cs).paying fuel := by
  have search (f : Frame) :
      f.handlerFor host (w.paying fuel) (f.pc - 1) exc f.method.code.regions =
        f.handlerFor host w (f.pc - 1) exc f.method.code.regions :=
    handlerFor_congr rfl (w.outside_paying fuel) rfl _ _
  induction cs generalizing f with
  | nil =>
    rw [unwind_eq, unwind_eq, search]
    cases f.handlerFor host w (f.pc - 1) exc f.method.code.regions with
    | error e => rfl
    | ok pc => cases pc <;> rfl
  | cons c cs ih =>
    rw [unwind_eq, unwind_eq, search]
    cases f.handlerFor host w (f.pc - 1) exc f.method.code.regions with
    | error e => rfl
    | ok pc =>
      cases pc with
      | none => exact ih c.frame
      | some pc => rfl

theorem go_paying (r : Run σ) (flow : Flow) (fuel : Option Nat) :
    go host (r.paying fuel) flow = (go host r flow).paying fuel := by
  cases flow with
  | next | goTo => rfl
  | jump l =>
    unfold go
    simp only [frame_paying]
    cases r.frame.target l <;> rfl
  | leave v =>
    unfold go leave
    simp only [callers_paying]
    cases r.callers <;> rfl
  | raise exc => exact unwind_paying r.world exc r.frame r.callers fuel
  | enter callee args result =>
    unfold go
    simp only
    cases Frame.enter callee args <;> rfl

/-- What an instruction comes to does not depend on the budget. -/
theorem act_paying (cls : Class) (host : Host σ) (r : Run σ) (fuel : Option Nat) :
    (r.paying fuel).act cls host = (r.act cls host).paying fuel := by
  unfold act
  rw [frame_paying]
  cases fetch r.frame with
  | error e => rfl
  | ok i =>
    simp only [world_paying, callers_paying]
    have same : i.step cls host ⟨{ r.frame with pc := r.frame.pc + 1 }, r.world.paying fuel⟩ =
        onState (·.paying fuel) (i.step cls host ⟨{ r.frame with pc := r.frame.pc + 1 }, r.world⟩) :=
      i.free_step cls host ⟨{ r.frame with pc := r.frame.pc + 1 }, r.world⟩
    rw [same]
    cases i.step cls host ⟨{ r.frame with pc := r.frame.pc + 1 }, r.world⟩ with
    | ok flow s => exact go_paying ⟨s.frame, r.callers, s.world⟩ flow fuel
    | error e s => rfl

/-- A run carries out a number of instructions, and ends with the last of them.  What they cost is left out. -/
inductive Ends (cls : Class) (host : Host σ) : Nat → Run σ → Progress σ → Prop
  | last {r : Run σ} {p : Progress σ} (acts : r.act cls host = p) (ended : p.Over) : Ends cls host 1 r p
  | step {n : Nat} {r r' : Run σ} {p : Progress σ} (acts : r.act cls host = .running r')
      (rest : Ends cls host n r' p) : Ends cls host (n + 1) r p

namespace Ends

/-- A budget that lasts is charged for each instruction, and changes nothing else. -/
theorem follow (h : Ends cls host n r p) {fuel : Option Nat} (enough : Affords fuel n) (long : n ≤ m) :
    (r.paying fuel).follow cls host m = p.paying (spend fuel n) := by
  induction h generalizing fuel m with
  | @last r p acts ended =>
    obtain ⟨m, rfl⟩ := Nat.exists_eq_add_of_le' long
    have first : (r.paying fuel).advance cls host = p.paying (spend fuel 1) :=
      advance_of_act (p := p.paying) (fun fuel => by rw [act_paying, acts]) enough
    rw [Run.follow, first]
    cases p with
    | running r => exact absurd rfl (ended r)
    | completed | failed => rfl
  | @step n r r' p acts _ ih =>
    obtain ⟨m, rfl⟩ := Nat.exists_eq_add_of_le' (Nat.le_trans (Nat.le_add_left 1 n) long)
    rw [Nat.add_comm n 1] at enough ⊢
    have first : (r.paying fuel).advance cls host = .running (r'.paying (spend fuel 1)) :=
      Leads.advance (fun fuel => by rw [act_paying, acts]; rfl) enough.first
    rw [Run.follow, first, ← spend_spend]
    exact ih enough.rest (by omega)

/-- A budget that does not last is used up.  A budget that is left pays for the next step; with nothing left the
first one cannot be paid for. -/
theorem follow_short (h : Ends cls host n r p) {g : Nat} (short : g < n) (long : g < m) :
    ∃ w, (r.paying (some g)).follow cls host m = .failed .outOfFuel w ∧ w.fuel = some 0 := by
  obtain ⟨m, rfl⟩ := Nat.exists_eq_add_of_le' (Nat.zero_lt_of_lt long)
  induction h generalizing g m with
  | @last r p acts ended =>
    obtain rfl : g = 0 := by omega
    refine ⟨r.world.paying (some 0), ?_, rfl⟩
    rw [Run.follow, advance_eq]
    rfl
  | @step n r r' p acts _ ih =>
    cases g with
    | zero =>
      refine ⟨r.world.paying (some 0), ?_, rfl⟩
      rw [Run.follow, advance_eq]
      rfl
    | succ g =>
      have first : (r.paying (some (g + 1))).advance cls host = .running (r'.paying (some g)) := by
        have enough : Affords (some (g + 1)) 1 := fun f hf => by cases hf; omega
        exact Leads.advance (fun fuel => by rw [act_paying, acts]; rfl) enough
      obtain ⟨m, rfl⟩ := Nat.exists_eq_add_of_le' (show 1 ≤ m by omega)
      obtain ⟨w, ends, empty⟩ := ih (g := g) (by omega) m (by omega)
      refine ⟨w, ?_, empty⟩
      rw [Run.follow, first]
      exact ends

end Ends

/-- A run whose budget lasts ends. -/
theorem exists_ends {f : Nat} (lasts : ∀ w, (r.paying (some f)).follow cls host (f + 1) ≠ .failed .outOfFuel w) :
    ∃ n p, n ≤ f ∧ Ends cls host n r p := by
  induction f generalizing r with
  | zero =>
    refine absurd ?_ (lasts (r.world.paying (some 0)))
    rw [follow, advance_eq]
    rfl
  | succ f ih =>
    have first : (r.paying (some (f + 1))).advance cls host = (r.act cls host).paying (some f) := by
      rw [advance_eq]
      exact act_paying cls host r (some f)
    cases acts : r.act cls host with
    | running r' =>
      rw [acts] at first
      obtain ⟨n, p, fits, ends⟩ := ih (r := r') fun w h => lasts w (by rw [follow, first]; exact h)
      exact ⟨n + 1, p, by omega, .step acts ends⟩
    | completed c w => exact ⟨1, _, by omega, .last acts fun _ h => by cases h⟩
    | failed e w => exact ⟨1, _, by omega, .last acts fun _ h => by cases h⟩

end Run

/-! ## Whole runs of a method -/

/-- What a run has come to.  A run that goes on is given up. -/
def Progress.result : Progress σ → EStateM.Result ExecError (World σ) Completion
  | .running r => .error .impatience r.world
  | .completed c w => .ok c w
  | .failed e w => .error e w

theorem Progress.result_paying (p : Progress σ) (fuel : Option Nat) :
    (p.paying fuel).result = onState (·.paying fuel) p.result := by
  cases p <;> rfl

namespace World

variable {cls : Class} {host : Host σ} {patience : Nat} {method : Method} {args : List Value} {w : World σ}

theorem execute_eq {frame : Frame} (entered : Frame.enter method args = .ok frame) :
    execute cls host patience method args w =
      (({ frame, world := w } : Run σ).follow cls host (w.fuel.getD patience + 1)).result := by
  unfold execute
  rw [entered]
  simp only
  cases ({ frame, world := w } : Run σ).follow cls host (w.fuel.getD patience + 1) <;> rfl

/-- A budget only cuts runs short.  A run that ends in another way than by using up its budget has a cost.  Under
any budget that covers the cost, and under none, it comes to the same, in the same world but for what is left of
the budget; under any other it uses the budget up.  The world is all that there is, with what happened outside,
so that a host that notes its calls has noted the same. -/
theorem execute_paying {f : Nat}
    (lasts : ∀ w', execute cls host patience method args (w.paying (some f)) ≠ .error .outOfFuel w') :
    ∃ cost outcome, cost ≤ f ∧
      execute cls host patience method args (w.paying (some f)) = onState (·.paying (some (f - cost))) outcome ∧
      (∀ patience, cost ≤ patience + 1 →
        execute cls host patience method args (w.paying none) = onState (·.paying none) outcome) ∧
      (∀ patience g, cost ≤ g →
        execute cls host patience method args (w.paying (some g)) = onState (·.paying (some (g - cost))) outcome) ∧
      ∀ patience g, g < cost → ∃ w',
        execute cls host patience method args (w.paying (some g)) = .error .outOfFuel w' ∧ w'.fuel = some 0 := by
  cases entered : Frame.enter method args with
  | error e =>
    have fails (patience : Nat) (fuel : Option Nat) :
        execute cls host patience method args (w.paying fuel) = onState (·.paying fuel) (.error e w) := by
      unfold execute
      rw [entered]
      rfl
    exact ⟨0, .error e w, Nat.zero_le f, fails .., fun patience _ => fails .., fun patience g _ => fails ..,
      fun patience g short => absurd short (Nat.not_lt_zero g)⟩
  | ok frame =>
    have runs (patience : Nat) (fuel : Option Nat) :
        execute cls host patience method args (w.paying fuel) =
          ((Run.paying { frame, world := w } fuel).follow cls host (fuel.getD patience + 1)).result :=
      execute_eq entered
    simp only [runs] at lasts ⊢
    obtain ⟨cost, p, fits, ends⟩ : ∃ n p, n ≤ f ∧ Run.Ends cls host n { frame, world := w } p :=
      Run.exists_ends fun w' h => lasts w' (by rw [Option.getD_some, h]; rfl)
    have covered (g : Nat) (h : cost ≤ g) :
        ((Run.paying { frame, world := w } (some g)).follow cls host (g + 1)).result =
          onState (·.paying (some (g - cost))) p.result := by
      have enough : Run.Affords (some g) cost := fun f hf => by cases hf; exact h
      rw [ends.follow enough (Nat.le_succ_of_le h), Progress.result_paying]
      rfl
    refine ⟨cost, p.result, fits, covered f fits, fun patience long => ?_, fun patience => covered, ?_⟩
    · have unlimited : Run.Affords none cost := nofun
      rw [Option.getD_none, ends.follow unlimited long, Progress.result_paying]
      rfl
    · intro patience g short
      obtain ⟨w', ended, empty⟩ := ends.follow_short short (Nat.lt_succ_self g)
      exact ⟨w', by rw [Option.getD_some, ended]; rfl, empty⟩

end World

namespace Budget

/-- A host that notes the names of the methods that it is asked for. -/
def noting : Host (List String) where
  invoke _ m _ _ := fun (heap, noted) => .ok none (heap, noted ++ [m.name])
  superclass _ _ := none
  reach := 1

/-- A method that asks the host and then divides by zero. -/
def dividing : Method where
  access := staticFlag
  name := "divide"
  descriptor := "()V"
  maxLocals := 0
  code.instrs := [.invoke .static ⟨"app/Log", "note", "()V"⟩, .iconst 1, .iconst 0, .plain (.arith .div .int),
    .plain (.leave none)]

/-- A method that calls it and catches what it throws. -/
def catching : Method where
  access := staticFlag
  name := "execute"
  descriptor := "()V"
  maxLocals := 0
  code := {
    instrs := [.label 0, .invoke .static ⟨"app/C", "divide", "()V"⟩, .label 1, .plain (.leave none), .label 2,
      .plain (.shuffle .pop), .plain (.leave none)]
    regions := [⟨0, 1, 2, some BuiltinException.arithmetic.className⟩] }

/-- A run of nine instructions with a budget of twelve, through a call and an exception that is caught. -/
def course (fuel : Option Nat) : EStateM.Result ExecError (World (List String)) Completion :=
  World.execute ⟨1, "app/C", some objectClass, [], [catching, dividing]⟩ noting 100 catching []
    { outside := [], fuel }

end Budget

/-- Twelve instructions are enough for a run through a call and an exception, so the run has a cost. -/
theorem World.execute_paying_caught : (∀ w, Budget.course (some 12) ≠ .error .outOfFuel w) ∧
    ∃ cost outcome, cost ≤ 12 ∧ Budget.course (some 12) = onState (·.paying (some (12 - cost))) outcome ∧
      Budget.course none = onState (·.paying none) outcome ∧
      ∀ g, g < cost → ∃ w, Budget.course (some g) = .error .outOfFuel w ∧ w.fuel = some 0 := by
  have lasts : ∀ w, Budget.course (some 12) ≠ .error .outOfFuel w := by
    have ends : (match Budget.course (some 12) with | .ok .. => true | .error .. => false) = true := by decide +kernel
    intro w h
    rw [h] at ends
    cases ends
  obtain ⟨cost, outcome, fits, same, unlimited, -, short⟩ :=
    World.execute_paying (w := { outside := [] }) (f := 12) lasts
  exact ⟨lasts, cost, outcome, fits, same, unlimited 100 (by omega), short 100⟩

end Suspension
