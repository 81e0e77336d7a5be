import Suspension.Proofs.Weave.Mirror
import Suspension.Proofs.Weave.RoundTrip

/-!
# Handlers of ordinary exceptions

An exception that is no signal gets past the check at the label of its handler.  Behind its first store the
handler fetches back every slot that is recorded at its label.  If each of them holds a value that fits what
is recorded, nothing comes of it: the frame is as if there were nothing but the store.

## Main definitions
* `Weaving.retyped`: the slots that are fetched back behind a store.
* `Weaving.InPiece`: a frame in the code that an instruction became.

## Main results
* `LocalValues.refill_eq`: what is there already can be fetched back.
* `handlers_kept`: the code that was put into a handler leaves the frame as the method has it.
* `handler_cast_fails`: what is recorded is known only at the end of a block.
-/

namespace Suspension

variable {σ : Type}

/-! ## Fetching back what is there -/

/-- A value in a slot is recorded: each slot that is fetched back is that slot, and holds a value of the same
storage, or has no word in common with the value. -/
def LocalValues.Recorded (entries : List (Slot × Tag)) (s : Slot) (v : Value) : Prop :=
  ∀ e ∈ entries, e.1 = s ∧ e.2.kind.mover = v.kind.mover ∨
    e.1.toNat + e.2.words ≤ s.toNat ∨ s.toNat + v.words ≤ e.1.toNat

/-- A recorded value that the store recalls is still there when the slots were fetched back. -/
theorem LocalValues.getElem?_refill_of_recorded {m : LocalValues} {vars : Store}
    {entries : List (Slot × Tag)} {s : Slot} {v : Value} (hs : m[s]? = some v)
    (recalled : vars.recall v.kind.mover (slotIndex s) = v) (recorded : Recorded entries s v) :
    (m.refill vars entries)[s]? = some v := by
  induction entries generalizing m with
  | nil => exact hs
  | cons e rest ih =>
    refine ih (m := m.store e.1 (vars.recall e.2.kind.mover (slotIndex e.1))) ?_
      fun x hx => recorded x (by simp [hx])
    rcases recorded e (by simp) with ⟨rfl, mover⟩ | below | above
    · rw [mover, recalled, getElem?_store, if_pos rfl]
    · rw [getElem?_store_above, hs]
      rw [Value.words_eq_of_mover (Store.mover_recall ..)]
      exact below
    · exact getElem?_store_of_le hs above

namespace Weaving

variable {W : Weaving} {f : Frame} {w : World σ} {id : ContextId} {c : Context}

/-- What is fetched back is what the mirror has put aside. -/
theorem Mirrors.refill {vars : Store} {entries : List (Slot × Tag)} (h : W.Mirrors f vars) :
    W.Mirrors (f.withLocals (f.locals.refill vars entries)) vars := by
  induction entries generalizing f with
  | nil => exact h
  | cons e rest ih =>
    refine ih (f := f.setLocal e.1 (vars.recall e.2.kind.mover (slotIndex e.1))) ?_
    intro s v below mine hs
    rcases LocalValues.getElem?_of_store hs with ⟨rfl, rfl⟩ | ⟨-, old⟩
    · rw [Store.mover_recall]
    · exact h s v below mine old

/-- The slots that are fetched back behind an instruction: if it is the first store of a handler, those that
are recorded at the label of the handler. -/
def retyped (W : Weaving) (i : Nat) : List (Slot × Tag) :=
  match W.shape.retypeAt[i]?.bind (W.shape.labels[·]?) with
  | some x => W.plan.restoredSlots x.types.locals
  | none => []

/-- What a store recalls for the slots that are fetched back behind an instruction is of the recorded
classes. -/
structure RetypesFit (W : Weaving) (host : Host σ) (i : Nat) (w : World σ) (vars : Store) : Prop where
  fits : ∀ e ∈ W.retyped i, (vars.recall e.2.kind.mover (slotIndex e.1)).Fits host w e.2
  room : ∀ e ∈ W.retyped i, e.1.toNat + e.2.words ≤ W.base

/-- A frame behind a store and all that was put behind it.  The values that are recorded are those that the
store leaves. -/
structure Stored (W : Weaving) (i : Nat) (s : Slot) (v : Value) (rest : List Value) (id : ContextId)
    (f g : Frame) (w w' : World σ) : Prop where
  place : g.pc = W.placeOf (i + 1)
  stack : g.stack = rest
  slots : ∀ (t : Slot) (u : Value), t.toNat < W.base → (W.method.isStatic = true ∨ t ≠ 0) →
    (f.setLocal s v).locals[t]? = some u → LocalValues.Recorded (W.retyped i) t u →
    g.locals[t]? = some u
  mirrored : W.Mirrored g w' id
  heap : w.heap.Grows w'.heap
  outside : w'.outside = w.outside
  statics : w'.statics = w.statics

/-- A frame in the code that an instruction of the method became. -/
def InPiece (W : Weaving) (i : Nat) (g : Frame) : Prop :=
  g.method = W.result ∧ W.placeOf i ≤ g.pc ∧ g.pc < W.placeOf (i + 1)

/-- The code behind a store that fetches slots back.  There is none but behind a first store of a handler. -/
theorem retype_eq_ok {i site : Nat} {fetched : List Instr} (h : W.plan.retype i site = .ok fetched) :
    ∃ codes, ((W.retyped i).mapM fun e => W.plan.restoreLocal site e.1 e.2) = .ok codes ∧
      fetched = codes.flatten := by
  unfold Plan.retype at h
  rw [W.made.shape_eq] at h
  unfold retyped
  cases at? : W.shape.retypeAt[i]? with
  | none =>
    rw [at?] at h
    cases h
    exact ⟨[], rfl, rfl⟩
  | some l =>
    rw [at?] at h
    simp only [Option.bind_some]
    cases hx : W.shape.labels[l]? with
    | none =>
      simp only [hx] at h
      cases h
      exact ⟨[], rfl, rfl⟩
    | some x =>
      simp only [hx] at h
      exact Plan.restoreLocals_eq_ok h

variable (cls : Class) (host : Host σ)

/-- An exception that is no signal gets past the check of a handler. -/
theorem takes_check {j : Nat} {l : Label} {exc : ObjectId} (hm : f.method = W.result)
    (hpc : f.pc = W.placeOf j) (hj : W.instrs[j]? = some (.label l))
    (handler : W.plan.isHandler l = true) (hstack : f.stack = [.object exc])
    (ordinary : w.instanceOf host exc Service.signalClass = .ok false) (cs : List Caller) :
    ∃ n, Run.Takes cls host (W.InPiece j) n ⟨f, cs, w⟩ ⟨f.moved n f.stack, cs, w⟩ ∧
      f.pc + n = W.placeOf (j + 1) := by
  obtain ⟨r, -, hp⟩ := piece_handler hj handler
  have inside : j < W.instrs.length := (List.getElem?_eq_some_iff.1 hj).1
  have stop : f.pc + (W.piece j).length = W.placeOf (j + 1) := by rw [hpc, placeOf_succ inside]
  have checked : Performs cls host (W.piece j) ⟨f, w⟩ ⟨f.moved 4 f.stack, w⟩ := by
    rw [hp, hstack]
    exact .cons (Carries.label l) (.cons (Carries.dup (f := f.moved 1 f.stack) hstack rfl)
      (.cons (Carries.instanceOf (f := f.moved 2 [.object exc, .object exc]) rfl ordinary)
        (.one (Carries.ifZero (f := f.moved 3 [.int 0, .object exc]) rfl rfl))))
  have length : (W.piece j).length = 4 := by rw [hp]; rfl
  refine ⟨4, ?_, length ▸ stop⟩
  rw [← length]
  rw [← length] at checked
  refine checked.takes (reads_piece hm hpc inside) cs fun g same low high _ => ?_
  exact ⟨same.trans hm, hpc ▸ low, Nat.lt_of_lt_of_eq high stop⟩

/-- A store of the method, with all that was put behind it, does what the store does, if what the mirror recalls
for the slots that are fetched back is of the recorded classes.  First the slot is recorded, then the others are
fetched back, from the new mirror; what was not in the mirror is as the store left it. -/
theorem takes_store {i : Nat} {k : Storage} {s : Slot} {v : Value} {rest : List Value}
    (hm : f.method = W.result) (hpc : f.pc = W.placeOf i) (hi : W.instrs[i]? = some (.store k s))
    (hstack : f.stack = v :: rest) (hk : v.kind.mover = k)
    (holds : f.Holds W.plan.slots.context w id c) (mirrors : W.Mirrors f c.vars)
    (fit : W.RetypesFit host i w (c.vars.put (slotIndex s) v)) (cs : List Caller) :
    ∃ n g w', Run.Takes cls host (W.InPiece i) n ⟨f, cs, w⟩ ⟨g, cs, w'⟩ ∧
      W.Stored i s v rest id f g w w' := by
  have inside : i < W.instrs.length := (List.getElem?_eq_some_iff.1 hi).1
  obtain ⟨fetched, hfetched, hp⟩ := piece_other hi rfl rfl rfl
  obtain ⟨codes, hcodes, rfl⟩ := retype_eq_ok hfetched
  have room : s.toNat + v.words ≤ W.base := by
    rw [Value.words_eq_width hk]
    exact slot_le_base (List.mem_of_getElem? hi) rfl
  have below : ∀ e ∈ W.retyped i, e.1.toNat +
      ((c.vars.put (slotIndex s) v).recall e.2.kind.mover (slotIndex e.1)).words ≤ W.base := by
    intro e he
    rw [Value.words_eq_of_mover (Store.mover_recall ..)]
    exact fit.room e he
  have stored : (Instr.store k s).Carries cls host ⟨f, w⟩ ⟨(f.setLocal s v).moved 1 rest, w⟩ :=
    Carries.store hstack hk
  have holds₁ : ((f.setLocal s v).moved 1 rest).Holds W.plan.slots.context w id c :=
    holds.after (World.Reaches.refl holds.live) (context_setLocal room)
  obtain ⟨w₁, recorded, reaches₁⟩ := W.plan.performs_recordSlot cls host holds₁
    (Frame.getElem?_locals_setLocal_self f s v) hk
  have mirrors₁ : W.Mirrors (f.setLocal s v) (c.vars.put (slotIndex s) v) := mirrors.put
  have holds₂ : ((f.setLocal s v).moved (1 + (W.plan.recordSlot k s).length) rest).Holds
      W.plan.slots.context w₁ id { c with vars := c.vars.put (slotIndex s) v } :=
    holds₁.after reaches₁ rfl
  obtain ⟨w', refilled, reaches₂⟩ := W.plan.performs_restoreSlots cls host hcodes holds₂
    (fun e he => (fit.fits e he).after reaches₁) below
  have stop : f.pc + (W.piece i).length = W.placeOf (i + 1) := by rw [hpc, placeOf_succ inside]
  have performed : Performs cls host (W.piece i) ⟨f, w⟩ ⟨((f.setLocal s v).withLocals
      ((f.setLocal s v).locals.refill (c.vars.put (slotIndex s) v) (W.retyped i))).moved
        (W.piece i).length rest, w'⟩ := by
    have all := Performs.cons stored (recorded.append refilled)
    rw [Frame.locals_moved, Frame.withLocals_moved, Frame.moved_moved, Frame.stack_moved] at all
    have length : (W.piece i).length = 1 + (W.plan.recordSlot k s).length + codes.flatten.length := by
      rw [hp, List.length_append, List.length_cons, Nat.add_comm _ 1]
      rfl
    rw [length, hp]
    exact all
  have reaches := reaches₁.trans reaches₂
  have taken := performed.takes (P := W.InPiece i) (reads_piece hm hpc inside) cs
    fun g same low high _ => ⟨same.trans hm, hpc ▸ low, Nat.lt_of_lt_of_eq high stop⟩
  refine ⟨_, _, w', taken, stop, rfl, fun t u low mine ht known => ?_,
    ⟨hm, _, holds₂.after reaches₂ (LocalValues.getElem?_refill_above below), ?_⟩,
    reaches.heap, reaches.outside, reaches.statics⟩
  · exact LocalValues.getElem?_refill_of_recorded ht (mirrors₁ t u low mine ht) known
  · exact mirrors₁.refill.congr (fun _ _ _ hs => hs) rfl

end Weaving

/-- The code that was put into a handler of an ordinary exception goes through: the exception gets past the
check, and behind the first store every slot that is recorded has the value that the store left there.  That
what the mirror recalls is of the recorded classes cannot be dropped. -/
theorem handlers_kept {className : String} {method result : Method} {config : Config}
    (transformed : (method.transform className config).result = .ok (some result)) :
    ∃ W : Weaving, W.className = className ∧ W.method = method ∧ W.config = config ∧
      W.result = result ∧
      ∀ {σ : Type} (cls : Class) (host : Host σ) {f : Frame} {w : World σ} {i : Nat} (cs : List Caller),
        f.method = result → f.pc = W.placeOf i →
        (∀ {l : Label} {exc : ObjectId}, W.instrs[i]? = some (.label l) → W.plan.isHandler l = true →
          f.stack = [.object exc] → w.instanceOf host exc Service.signalClass = .ok false →
          ∃ n, Run.Takes cls host (W.InPiece i) n ⟨f, cs, w⟩ ⟨f.moved n f.stack, cs, w⟩ ∧
            f.pc + n = W.placeOf (i + 1)) ∧
        (∀ {s : Slot} {v : Value} {rest : List Value} {id : ContextId} {c : Context},
          W.instrs[i]? = some (.store v.kind.mover s) → f.stack = v :: rest →
          f.Holds W.plan.slots.context w id c → W.Mirrors f c.vars →
          W.RetypesFit host i w (c.vars.put (slotIndex s) v) →
          ∃ n g w', Run.Takes cls host (W.InPiece i) n ⟨f, cs, w⟩ ⟨g, cs, w'⟩ ∧
            W.Stored i s v rest id f g w w') := by
  obtain ⟨W, rfl, hmethod, rfl, rfl⟩ := Weaving.exists_of_transform transformed
  refine ⟨W, rfl, hmethod, rfl, rfl, ?_⟩
  intro σ cls host f w i cs hm hpc
  constructor
  · intro l exc hi handler hstack ordinary
    exact Weaving.takes_check cls host hm hpc hi handler hstack ordinary cs
  · intro s v rest id c hi hstack holds mirrors fit
    exact Weaving.takes_store cls host hm hpc hi hstack rfl holds mirrors fit cs

namespace Handlers

/-- A static method that divides by its parameters one after the other, and in between replaces an object by
one of another class. -/
def dividing : Method where
  access := staticFlag
  name := "execute"
  descriptor := "(II)V"
  maxLocals := 4
  code := {
    instrs := [.typed .new "app/A", .slot (.store .reference) 2,
      .label 0, .iconst 1, .slot (.load .int) 0, .plain (.arith .div .int), .plain (.shuffle .pop),
      .typed .new "app/B", .slot (.store .reference) 2,
      .iconst 1, .slot (.load .int) 1, .plain (.arith .div .int), .plain (.shuffle .pop),
      .label 1, .pause, .plain (.leave none),
      .label 2, .slot (.store .reference) 3, .slot (.load .reference) 2, .plain (.shuffle .pop),
      .plain (.leave none)]
    regions := [⟨0, 1, 2, none⟩] }

/-- What is known of the method. -/
def dividingShape : Option Shape := do
  let m ← (Metrics.measure "app/C" dividing {}).toOption
  (Shape.ofMethod "app/C" dividing {} m).result.toOption

/-- What is known at the handler, behind its first store. -/
def handlerLocals : Locals :=
  (((Locals.store ∅ 0 .int).store 1 .int).store 2 (.ref "app/B")).store 3 (.ref throwableClass)

/-- A context, an object of the second class, and an exception. -/
def heap : Heap :=
  (((Heap.handle {} ⟨0⟩ .context).2.alloc (.new "app/B")).2.alloc
    (.new BuiltinException.arithmetic.className)).2

/-- The context of the flow, which has the parameters and the object. -/
def context : Context :=
  { vars := ((Store.put {} (slotIndex 0) (.int 1)).put (slotIndex 1) (.int 0)).put (slotIndex 2)
      (.object ⟨1⟩) }

/-- The second division has failed. -/
def world : World Unit := { heap, contexts := (Contexts.add {} context).2, outside := () }

/-- The frame in front of the store of the handler. -/
def frame (W : Weaving) : Frame :=
  (((({ method := W.result, stack := [.object ⟨2⟩], pc := W.placeOf 17 } : Frame).setLocal 0
    (.int 1)).setLocal 1 (.int 0)).setLocal 2 (.object ⟨1⟩)).setLocal W.plan.slots.context (.object ⟨0⟩)

theorem retyped_eq {W : Weaving} (hclass : W.className = "app/C") (hmethod : W.method = dividing)
    (hconfig : W.config = {}) : W.retyped 17 = W.plan.restoredSlots handlerLocals := by
  have shaped : dividingShape = some W.shape := by
    rw [dividingShape, ← hclass, ← hmethod, ← hconfig, W.measured]
    exact congrArg Except.toOption W.shaped
  have known : dividingShape.bind (fun s => s.retypeAt[17]?.bind (s.labels[·]?)) =
      some ⟨true, handlerLocals, [.ref throwableClass]⟩ := by decide +kernel
  rw [shaped] at known
  have known : W.shape.retypeAt[17]?.bind (W.shape.labels[·]?) = _ := known
  simp only [Weaving.retyped, known]

/-- What the mirror recalls is of the recorded classes. -/
theorem retypesFit {W : Weaving} (hclass : W.className = "app/C") (hmethod : W.method = dividing)
    (hconfig : W.config = {}) : W.RetypesFit (Host.nothing Unit) 17 world
      (context.vars.put (slotIndex 3) (.object ⟨2⟩)) := by
  have entries (e : Slot × Tag) (he : e ∈ W.retyped 17) : e = (0, .int) ∨ e = (1, .int) ∨
      e = (2, .ref "app/B") ∨ e = (3, .ref throwableClass) := by
    rw [retyped_eq hclass hmethod hconfig] at he
    rcases Locals.getElem?_of_store (Plan.mem_restoredSlots.1 he).1 with ⟨hs, ht⟩ | he
    · exact .inr (.inr (.inr (Prod.ext hs ht)))
    rcases Locals.getElem?_of_store he with ⟨hs, ht⟩ | he
    · exact .inr (.inr (.inl (Prod.ext hs ht)))
    rcases Locals.getElem?_of_store he with ⟨hs, ht⟩ | he
    · exact .inr (.inl (Prod.ext hs ht))
    rcases Locals.getElem?_of_store he with ⟨hs, ht⟩ | he
    · exact .inl (Prod.ext hs ht)
    · simp at he
  have room : (3 : Slot).toNat + (Value.object ⟨2⟩).words ≤ W.base :=
    Weaving.slot_le_base (i := .store .reference 3) (by rw [Weaving.instrs, hmethod]; decide) rfl
  constructor
  · intro e he
    rcases entries e he with rfl | rfl | rfl | rfl
    · intro c hc; cases hc
    · intro c hc; cases hc
    · exact fun c hc => .inr ⟨⟨1⟩, by decide, by cases hc; exact eq_ok_of_toOption (by decide +kernel)⟩
    · exact fun c hc => .inr ⟨⟨2⟩, by decide, by cases hc; exact eq_ok_of_toOption (by decide +kernel)⟩
  · intro e he
    refine Nat.le_trans ?_ room
    rcases entries e he with rfl | rfl | rfl | rfl <;> decide

theorem holds (W : Weaving) : (frame W).Holds W.plan.slots.context world ⟨0⟩ context := by
  refine ⟨⟨⟨0⟩, ?_, rfl⟩, rfl, ?_⟩
  · exact Frame.getElem?_locals_setLocal_self ..
  · exact (((Heap.grows_handle ..).trans (Heap.grows_alloc ..)).trans (Heap.grows_alloc ..)).intact
      fun id face r h => by cases h

theorem mirrors (W : Weaving) : W.Mirrors (frame W) context.vars := by
  have empty : W.Mirrors { method := W.result, stack := [.object ⟨2⟩], pc := W.placeOf 17 } {} :=
    fun s v _ _ hs => by simp at hs
  refine (empty.put.put.put).congr (fun s v below hs => ?_) rfl
  rcases LocalValues.getElem?_of_store hs with ⟨rfl, -⟩ | ⟨-, old⟩
  · exact absurd below (Nat.lt_irrefl _)
  · exact old

end Handlers

/-- The second division fails: the object is of the class that is recorded. -/
theorem dividing_kept :
    ∃ (W : Weaving) (n : Nat) (g : Frame) (w' : World Unit), W.method = Handlers.dividing ∧
      Run.Takes ⟨1, "app/C", some objectClass, [], []⟩ (Host.nothing Unit) (W.InPiece 17) n
        ⟨Handlers.frame W, [], Handlers.world⟩ ⟨g, [], w'⟩ ∧
      W.Stored 17 3 (.object ⟨2⟩) [] ⟨0⟩ (Handlers.frame W) g Handlers.world w' := by
  obtain ⟨result, transformed⟩ : ∃ result,
      (Handlers.dividing.transform "app/C" {}).result = .ok (some result) :=
    exists_ok_some (by decide +kernel)
  obtain ⟨W, hclass, hmethod, hconfig, rfl, kept⟩ := handlers_kept transformed
  have first : W.instrs[17]? = some (.store (Value.object ⟨2⟩).kind.mover 3) := by
    rw [Weaving.instrs, hmethod]
    rfl
  obtain ⟨n, g, w', taken, stored⟩ := (kept ⟨1, "app/C", some objectClass, [], []⟩ (Host.nothing Unit)
    (f := Handlers.frame W) [] rfl rfl).2 first rfl (Handlers.holds W) (Handlers.mirrors W)
      (Handlers.retypesFit hclass hmethod hconfig)
  exact ⟨W, n, g, w', hmethod, taken, stored⟩

namespace Handlers

/-- How a run of a method of two parameters ends for two zeros. -/
def ending (m : Method) : Option (Option String) :=
  let (r, w) := Runner.create ⟨1, "app/C", some objectClass, [], [m]⟩ { entryDescriptor := "(II)V" } 1000 ()
  RoundTrip.ending (r.start (Host.nothing Unit) [.int 0, .int 0] w)

end Handlers

/-- What is recorded at a handler is what is known at the end of a block.  An exception that comes earlier
finds another object in the slot, and the inserted cast fails in a method that was never suspended. -/
theorem handler_cast_fails :
    Handlers.ending Handlers.dividing = some none ∧
      (Handlers.dividing.transform "app/C" {}).result.toOption.join.bind Handlers.ending =
        some (some BuiltinException.classCast.className) := by
  decide +kernel

end Suspension
