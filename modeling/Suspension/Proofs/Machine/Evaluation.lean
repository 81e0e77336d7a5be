import Suspension.Machine.Run
import Suspension.Proofs.Operations

/-!
# Evaluation of one instruction

Equations that carry out an operation on a given frame or world, so that the effect of an instruction is
found by rewriting.

## Main definitions
* `Frame.Pops`: an operation that takes one value off the stack.

## Main results
* `Frame.pop_apply`, `Frame.popMany_apply`: operations on a frame.
* `World.alloc_apply`, `World.handle_apply`: operations on a world.
-/

namespace Suspension

variable {σ α β : Type}

@[simp] theorem liftM_frame_apply (x : FrameM α) (s : Situation σ) :
    (liftM x : StepM σ α) s =
      match x s.frame with
      | .ok a frame => .ok a { s with frame }
      | .error e frame => .error e { s with frame } := rfl

theorem liftM_frame_eq_ok {x : FrameM α} {a : α} {s t : Situation σ}
    (h : (liftM x : StepM σ α) s = .ok a t) : ∃ f, x s.frame = .ok a f ∧ t = { s with frame := f } := by
  rw [liftM_frame_apply] at h
  split at h
  · next a' f done =>
    cases h
    exact ⟨f, done, rfl⟩
  · cases h

@[simp] theorem inWorld_apply (x : WorldM σ α) (s : Situation σ) :
    inWorld x s =
      match x s.world with
      | .ok a world => .ok a { s with world }
      | .error e world => .error e { s with world } := rfl

theorem inWorld_eq_ok {x : WorldM σ α} {a : α} {s t : Situation σ} (h : inWorld x s = .ok a t) :
    ∃ w, x s.world = .ok a w ∧ t = { s with world := w } := by
  rw [inWorld_apply] at h
  split at h
  · next a' w done =>
    cases h
    exact ⟨w, done, rfl⟩
  · cases h

namespace Frame

@[simp] theorem push_apply (v : Value) (f : Frame) :
    push v f = .ok () { f with stack := v :: f.stack } := rfl

theorem pop_apply {f : Frame} {v : Value} {rest : List Value} (h : f.stack = v :: rest) :
    pop f = .ok v { f with stack := rest } := by
  simp [pop, h]

theorem popRef_apply {f : Frame} {r : Option ObjectId} {rest : List Value}
    (h : f.stack = .ref r :: rest) : popRef f = .ok r { f with stack := rest } := by
  simp [popRef, pop_apply h, Value.asRef]

theorem popInt_apply {f : Frame} {n : Int32} {rest : List Value} (h : f.stack = .int n :: rest) :
    popInt f = .ok n { f with stack := rest } := by
  simp [popInt, pop_apply h, Value.asInt]

theorem popMany_apply {f : Frame} {args rest : List Value} (h : f.stack = args.reverse ++ rest) :
    popMany args.length f = .ok args { f with stack := rest } := by
  simp [popMany, h]

@[simp] theorem getLocal_apply (s : Slot) (f : Frame) :
    getLocal s f =
      match f.locals[s]? with
      | some v => .ok v f
      | none => .error (.unsetLocal s) f := rfl

@[simp] theorem putLocal_apply (s : Slot) (v : Value) (f : Frame) :
    putLocal s v f = .ok () (f.setLocal s v) := rfl

/-! ### Operations that take a value -/

/-- An operation takes one value off the stack, and what it yields is made of that value. -/
def Pops (P : Value → α → Prop) (x : FrameM α) : Prop :=
  ∀ f a f', x f = .ok a f' → ∃ v rest, f.stack = v :: rest ∧ P v a ∧ f' = { f with stack := rest }

theorem pops_pop : Pops (fun v u => u = v) pop := by
  intro f v f' h
  unfold pop at h
  split at h
  · cases h
  · next v rest hf =>
    cases h
    exact ⟨v, rest, hf, rfl, rfl⟩

theorem pops_as {P : Value → β → Prop} {as : Value → Except ExecError β} (h : ∀ v b, as v = .ok b → P v b) :
    Pops P (do as (← pop)) := by
  intro f b f' e
  obtain ⟨v, f₁, popped, e⟩ := bind_apply_eq_ok e
  obtain ⟨v', rest, hf, rfl, rfl⟩ := pops_pop f v f₁ popped
  cases made : as v with
  | error _ =>
    rw [made] at e
    cases e
  | ok b' =>
    rw [made] at e
    cases e
    exact ⟨v, rest, hf, h v b made, rfl⟩

/-- What a typed pop takes off the stack is a value of its type. -/
theorem pops_popInt : Pops (fun v n => v = .int n) popInt := pops_as fun v n h => by
  cases v <;> cases h
  rfl

theorem pops_popLong : Pops (fun _ _ => True) popLong := pops_as fun _ _ _ => trivial

theorem pops_popFloat : Pops (fun _ _ => True) popFloat := pops_as fun _ _ _ => trivial

theorem pops_popDouble : Pops (fun _ _ => True) popDouble := pops_as fun _ _ _ => trivial

theorem pops_popRef : Pops (fun v r => v = .ref r) popRef := pops_as fun v r h => by
  cases v <;> cases h
  rfl

theorem pops_popOf (k : Storage) : Pops (fun _ v => v.kind = k.kind) (popOf k) := pops_as fun v u h => by
  unfold Value.ofStorage at h
  split at h
  · next kind =>
    cases h
    exact kind
  · cases h

theorem popMany_eq_ok {n : Nat} {f f' : Frame} {args : List Value} (h : popMany n f = .ok args f') :
    ∃ rest, f.stack = args.reverse ++ rest ∧ args.length = n ∧ f' = { f with stack := rest } := by
  unfold popMany at h
  split at h
  · next enough =>
    cases h
    exact ⟨f.stack.drop n, by simp, by simp [enough], rfl⟩
  · cases h

end Frame

namespace World

@[simp] theorem alloc_apply (o : HeapObject) (w : World σ) :
    alloc o w = .ok (w.heap.alloc o).1 { w with heap := (w.heap.alloc o).2 } := rfl

@[simp] theorem intern_apply (s : String) (w : World σ) :
    intern s w = .ok (w.heap.intern s).1 { w with heap := (w.heap.intern s).2 } := rfl

@[simp] theorem handle_apply (id : ContextId) (face : ContextFace) (w : World σ) :
    handle id face w =
      .ok (w.heap.handle id face).1 { w with heap := (w.heap.handle id face).2 } := rfl

theorem object_apply {w : World σ} {r : ObjectId} {o : HeapObject} (h : w.heap.get? r = some o) :
    object r w = .ok o w := by
  simp [object, Heap.get, h]

theorem setField_apply {w : World σ} {r : ObjectId} {name : String} {v : Value} {h : Heap}
    (hs : w.heap.setField r name v = .ok h) : setField r name v w = .ok () { w with heap := h } := by
  simp [setField, changeHeap, hs, Except.map]

end World

end Suspension
