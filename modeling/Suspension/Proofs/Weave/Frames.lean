import Suspension.Proofs.Symbolic.Apart
import Suspension.Proofs.Symbolic.Recall
import Suspension.Proofs.Weave.Resumption

/-!
# What the inserted parts do to symbolic frames

Each part of suspendable code, interpreted in a frame that holds a reference in the slot of the context.  It
goes straight through, without a label or a jump inside, and the slots of the method are changed only where
they are fetched back.

## Main definitions
* `Takes`: code that goes straight through takes a frame to another one.
* `Plan.HoldsContext`: a frame in which inserted code can run.
* `Tag.fetched`: what is known of a value that was fetched back.
* `Locals.refill`: the slots after some of them were fetched back.

## Main results
* `Plan.takes_recordSlot`, `Plan.takes_record`: copies leave a frame as it is.
* `Plan.exists_saveStack`, `Plan.exists_throwSignal`: a frame is saved, and a signal is thrown.
* `Plan.takes_restoreStack`, `Plan.takes_restoreLocals`: a frame is fetched back.
-/

namespace Suspension

/-! ## Straight code -/

/-- An instruction that is no label, has operations, and leads on to the next instruction only. -/
structure Instr.Straight (className : String) (config : Config) (i : Instr) : Prop where
  unlabelled : i.defined? = none
  inner : i.endsBlock = false
  lowered : ∃ effect, i.effect className config 0 = .ok effect

/-- Code that goes straight through takes a frame to another one. -/
structure Takes (className : String) (config : Config) (code : List Instr) (f f' : SymFrame) : Prop where
  straight : ∀ i ∈ code, i.Straight className config
  run : Step.run (stepsOf className config code) f = .ok f'

/-- The same slots with another stack. -/
def SymFrame.withStack (f : SymFrame) (stack : List Tag) : SymFrame := { f with stack }

namespace SymFrame

variable {f : SymFrame} {xs ys : List Tag}

@[simp] theorem stack_withStack : (f.withStack xs).stack = xs := rfl

@[simp] theorem locals_withStack : (f.withStack xs).locals = f.locals := rfl

@[simp] theorem withStack_withStack : (f.withStack xs).withStack ys = f.withStack ys := rfl

@[simp] theorem withStack_self : f.withStack f.stack = f := rfl

@[simp] theorem stack_setLocal {slot : Slot} {t : Tag} : (f.setLocal slot t).stack = f.stack := rfl

end SymFrame

namespace Takes

variable {className : String} {config : Config} {a b : List Instr} {i : Instr} {f f' f'' : SymFrame}

theorem nil (f : SymFrame) : Takes className config [] f f := ⟨by simp, rfl⟩

theorem append (first : Takes className config a f f') (second : Takes className config b f' f'') :
    Takes className config (a ++ b) f f'' where
  straight i hi := (List.mem_append.1 hi).elim (first.straight i) (second.straight i)
  run := by
    rw [stepsOf_append, Step.run_append, first.run]
    exact second.run

theorem one (straight : i.Straight className config) (run : Step.run (i.steps className config) f = .ok f') :
    Takes className config [i] f f' := ⟨by simpa using straight, by simpa [stepsOf] using run⟩

theorem cons (first : Takes className config [i] f f') (rest : Takes className config b f' f'') :
    Takes className config (i :: b) f f'' := first.append rest

theorem trans_eq (h : Takes className config a f f') (same : f' = f'') : Takes className config a f f'' :=
  same ▸ h

end Takes

section

variable (className : String) (config : Config) {f : SymFrame} {t : Tag} {rest : List Tag}

/-- A slot is loaded. -/
theorem takes_load (k : Storage) {slot : Slot} (h : f.locals[slot]? = some t) :
    Takes className config [.load k slot] f (f.withStack (k.tag?.getD t :: f.stack)) := by
  refine .one ⟨rfl, rfl, _, rfl⟩ ?_
  have got : SymFrame.getLocal slot f = .ok t f := by simp [SymFrame.getLocal, h]
  show Step.run [⟨0, .get slot k.tag?⟩] f = _
  simp [Step.run, SymOp.apply, got, SymFrame.push, SymFrame.withStack]

/-- A slot is stored to. -/
theorem takes_store (k : Storage) (slot : Slot) (h : f.stack = t :: rest) :
    Takes className config [.store k slot] f ((f.withStack rest).setLocal slot (k.tag?.getD t)) := by
  refine .one ⟨rfl, rfl, _, rfl⟩ ?_
  show Step.run [⟨0, .set slot k.tag?⟩] f = _
  simp [Step.run, SymOp.apply, SymFrame.pop, h, SymFrame.withStack]

/-- A value is pushed. -/
theorem takes_push {i : Instr} (unlabelled : i.defined? = none) (inner : i.endsBlock = false)
    (effect : i.effect className config 0 = .ok ⟨[.push t], none⟩) :
    Takes className config [i] f (f.withStack (t :: f.stack)) := by
  refine .one ⟨unlabelled, inner, _, effect⟩ ?_
  rw [Instr.steps, Instr.ops, effect]
  rfl

/-- A number is pushed. -/
theorem exists_pushInt (n : Int32) :
    ∃ t, Takes className config [pushInt n] f (f.withStack (t :: f.stack)) := by
  unfold pushInt
  split
  · exact ⟨.int, takes_push _ _ rfl rfl rfl⟩
  · split
    · exact ⟨.byte, takes_push _ _ rfl rfl rfl⟩
    · split
      · exact ⟨.short, takes_push _ _ rfl rfl rfl⟩
      · exact ⟨.int, takes_push _ _ rfl rfl rfl⟩

/-- A call takes its operands off the stack and puts its result there, whether it is a site or not.  What is put
on the stack does not depend on the mark of a site. -/
theorem run_invoke {kind : InvokeKind} {m : MemberRef} {sig : Signature}
    (parsed : Signature.parse m.descriptor = .ok sig) {f' : SymFrame} :
    Step.run ((Instr.invoke kind m).steps className config) f = .ok f' ↔
      sig.params.length + kind.hasReceiver.toNat ≤ f.stack.length ∧ f' = f.withStack
        (sig.result.toList ++ f.stack.drop (sig.params.length + kind.hasReceiver.toNat)) := by
  obtain ⟨effect, heffect⟩ : ∃ effect, (Instr.invoke kind m).effect className config 0 = .ok effect :=
    Instr.exists_effect_of_parse kind parsed
  obtain ⟨sig', parsed', ops⟩ := callEffect_eq_ok heffect
  cases parsed.symm.trans parsed'
  have all : (Instr.invoke kind m).ops className config = effect.ops := by
    rw [Instr.ops, heffect]
    rfl
  have results (f : SymFrame) : Step.run (((effect.site?.map fun _ => SymOp.suspend 0).toList ++ resultOps sig).map
      (⟨0, ·⟩)) f = .ok (f.withStack (sig.result.toList ++ f.stack)) := by
    cases effect.site? <;> cases h : sig.result <;>
      simp [resultOps, h, Step.run, SymOp.apply, SymFrame.push, SymFrame.withStack, pure, EStateM.pure]
  rw [Instr.steps, all, ops, operandOps, List.append_assoc, List.map_append, Step.run_append, bind_eq_ok]
  simp only [Step.run_pops, results, Except.ok.injEq]
  constructor
  · rintro ⟨f₁, ⟨enough, rfl⟩, rfl⟩
    exact ⟨enough, rfl⟩
  · rintro ⟨enough, rfl⟩
    exact ⟨_, ⟨enough, rfl⟩, rfl⟩

theorem takes_invoke (kind : InvokeKind) {m : MemberRef} {sig : Signature}
    (parsed : Signature.parse m.descriptor = .ok sig)
    (enough : sig.params.length + kind.hasReceiver.toNat ≤ f.stack.length) :
    Takes className config [.invoke kind m] f (f.withStack
      (sig.result.toList ++ f.stack.drop (sig.params.length + kind.hasReceiver.toNat))) :=
  .one ⟨rfl, rfl, Instr.exists_effect_of_parse kind parsed⟩
    ((run_invoke className config parsed).2 ⟨enough, rfl⟩)

/-- A call of a service takes its arguments and the object below them off the stack. -/
theorem takes_callService {m : MemberRef} {sig : Signature} (parsed : Signature.parse m.descriptor = .ok sig)
    (f : SymFrame) (operands : List Tag) (length : operands.length = sig.params.length + 1) :
    Takes className config [callService m] (f.withStack (operands ++ f.stack))
      (f.withStack (sig.result.toList ++ f.stack)) := by
  have taken := takes_invoke className config (f := f.withStack (operands ++ f.stack)) .virtual parsed (by
    rw [SymFrame.stack_withStack, List.length_append, length]
    exact Nat.le_add_right _ _)
  refine taken.trans_eq ?_
  rw [show sig.params.length + InvokeKind.virtual.hasReceiver.toNat = operands.length from length.symm,
    SymFrame.stack_withStack, List.drop_left, SymFrame.withStack_withStack]

end

/-! ## Values that are fetched back -/

/-- What is known of a value that was fetched back: it was handed out by a service, and cast to what had been
known of it. -/
def Tag.fetched (t : Tag) : Tag := (t.castTarget.map .ref).getD t.kind.mover.serviceTag

theorem Tag.fetched_of_storage? {t : Tag} {k : Storage} (h : t.kind.storage? = some k) :
    k.serviceTag = t.kind.mover.serviceTag ∧ t.fetched.kind = t.kind ∧ k.tag?.getD t.fetched = t.fetched := by
  cases t with
  | ref name =>
    cases h
    refine ⟨rfl, ?_, rfl⟩
    unfold fetched castTarget
    dsimp only
    split <;> rfl
  | address => cases h
  | _ =>
    cases h
    exact ⟨rfl, rfl, rfl⟩

/-- What is known of a value that was fetched back is what had been known of it, or that it is an object. -/
theorem Tag.fetched_eq {t : Tag} (h : t.kind = .reference) : t.fetched = t ∨ t.fetched = .object := by
  cases t with
  | null => exact .inr rfl
  | ref name =>
    unfold fetched castTarget
    dsimp only
    split
    · exact .inr rfl
    · exact .inl rfl
  | _ => cases h

theorem Tag.kind_fetched {t : Tag} (h : t.kind = .reference) : t.fetched.kind = t.kind := by
  rcases t.fetched_eq h with same | object
  · rw [same]
  · rw [object, h]
    rfl

/-- What recalls a value still does when it was fetched back. -/
theorem Recalled.fetched {t : Tag} {o : Option Tag} (h : Recalled (some t) o) : Recalled (some t.fetched) o := by
  rintro t' u ht hu reference reference'
  cases ht
  by_cases own : t.kind = .reference
  · rcases t.fetched_eq own with same | forgotten
    · rw [same]
      exact h t u rfl hu own reference'
    · exact .inr forgotten
  · cases t with
    | null | ref => exact absurd rfl own
    | address => exact .inr rfl
    | _ => cases reference

/-- What was fetched back recalls what was recorded. -/
theorem recalled_fetched {xs ys : List Tag} (h : List.Forall₂ (Tag.Related Recalled) xs ys)
    (kinds : ∀ t ∈ xs, t.fetched.kind = t.kind) : List.Forall₂ (Tag.Related Recalled) (xs.map Tag.fetched) ys := by
  induction h with
  | nil => exact .nil
  | @cons x y xs ys first _ ih =>
    have own := (kinds x List.mem_cons_self).trans first.1
    exact .cons ⟨own, first.2.fetched⟩ (ih fun t ht => kinds t (List.mem_cons_of_mem _ ht))

theorem Tag.width_fetched (t : Tag) : t.fetched.width = t.width := by
  cases t with
  | ref name =>
    unfold fetched castTarget
    dsimp only
    split <;> rfl
  | _ => rfl

theorem Tag.isWide_fetched (t : Tag) : t.fetched.isWide = t.isWide := by rw [isWide, width_fetched, isWide]

theorem Tag.words_fetched (t : Tag) : t.fetched.words = t.words := by rw [words, width_fetched, words]

namespace Locals

variable {m : Locals} {entries : List (Slot × Tag)} {s : Slot}

/-- The slots after some of them were fetched back, one after the other. -/
def refill (m : Locals) (entries : List (Slot × Tag)) : Locals :=
  entries.foldl (fun m e => m.store e.1 e.2.fetched) m

/-- What shares no word with anything that is fetched back is left alone. -/
theorem getElem?_refill_free (free : ∀ e ∈ entries, e.1 ≠ s ∧ (e.2.isWide = true → e.1.toNat + 1 ≠ s.toNat) ∧
    ∀ u, m[s]? = some u → u.isWide = true → s.toNat + 1 ≠ e.1.toNat) : (m.refill entries)[s]? = m[s]? := by
  induction entries generalizing m with
  | nil => rfl
  | cons e es ih =>
    obtain ⟨other, above, below⟩ := free e List.mem_cons_self
    have kept : (m.store e.1 e.2.fetched)[s]? = m[s]? :=
      getElem?_store_free other (fun wide => above (by rwa [← e.2.isWide_fetched])) below
    refine (ih fun x hx => ?_).trans kept
    rw [kept]
    exact free x (List.mem_cons_of_mem _ hx)

/-- Values that have slots of their own are all fetched back. -/
theorem getElem?_refill {known : Locals} (apart : known.Apart) (nodup : entries.Pairwise fun a b => a.1 ≠ b.1)
    (recorded : ∀ e ∈ entries, known[e.1]? = some e.2) : ∀ e ∈ entries, (m.refill entries)[e.1]? = some e.2.fetched := by
  induction entries generalizing m with
  | nil => simp
  | cons e es ih =>
    obtain ⟨first, others⟩ := List.pairwise_cons.1 nodup
    intro x hx
    rcases List.mem_cons.1 hx with rfl | hx
    · have here : (m.store x.1 x.2.fetched)[x.1]? = some x.2.fetched := getElem?_store_self
      refine Eq.trans (getElem?_refill_free (m := m.store x.1 x.2.fetched) fun y hy => ?_) here
      have hy' := recorded y (List.mem_cons_of_mem _ hy)
      have hx' := recorded x List.mem_cons_self
      refine ⟨Ne.symm (first y hy), fun wide next => ?_, fun u hu wide next => ?_⟩
      · rw [apart _ _ _ hy' wide next] at hx'
        cases hx'
      · obtain rfl : x.2.fetched = u := Option.some.inj (here.symm.trans hu)
        rw [Tag.isWide_fetched] at wide
        rw [apart _ _ _ hx' wide next] at hy'
        cases hy'
    · exact ih others (fun y hy => recorded y (List.mem_cons_of_mem _ hy)) x hx

end Locals

/-! ## Parts of suspendable code -/

namespace Plan

variable (className : String) (config : Config) {p : Plan} {f : SymFrame} {t : Tag} {rest : List Tag}
  {slot : Slot} {k : Storage} {site : Nat}

/-- A frame holds a reference in the slot of the context. -/
def HoldsContext (p : Plan) (f : SymFrame) : Prop :=
  ∃ t, f.locals[p.slots.context]? = some t ∧ t.kind = .reference

/-- A store that shares no word with the slot of the context leaves the context alone. -/
theorem HoldsContext.setLocal (holds : p.HoldsContext f) (other : slot ≠ p.slots.context)
    (below : t.isWide = true → slot.toNat + 1 ≠ p.slots.context.toNat) : p.HoldsContext (f.setLocal slot t) := by
  obtain ⟨c, hc, reference⟩ := holds
  refine ⟨c, Eq.trans (Locals.getElem?_store_free other below fun u hu wide => ?_) hc, reference⟩
  obtain rfl : c = u := Option.some.inj (hc.symm.trans hu)
  cases c <;> cases reference <;> cases wide

/-- A store of a value that ends below the slot of the context leaves the context alone. -/
theorem HoldsContext.setLocal_below (holds : p.HoldsContext f) (room : slot.toNat + t.words ≤ p.slots.context.toNat) :
    p.HoldsContext (f.setLocal slot t) := by
  refine holds.setLocal ?_ fun wide => ?_
  · rintro rfl
    have := t.words_pos
    omega
  · rw [Tag.words, of_decide_eq_true wide, Width.words] at room
    omega

theorem exists_loadContext (holds : p.HoldsContext f) :
    ∃ t, Takes className config [p.loadContext] f (f.withStack (t :: f.stack)) := by
  obtain ⟨t, ht, -⟩ := holds
  exact ⟨_, takes_load _ _ _ ht⟩

/-- A service of the context that takes no argument. -/
theorem takes_service (holds : p.HoldsContext f) (s : ContextService) (hs : s.signature.params = []) :
    Takes className config [p.loadContext, callService s.ref] f
      (f.withStack (s.signature.result.toList ++ f.stack)) := by
  obtain ⟨t, loaded⟩ := exists_loadContext className config holds
  have called := takes_callService className config (mapError_eq_ok.1 s.callSignature_ref) f [t] (by simp [hs])
  exact loaded.cons called

theorem exists_localVars (holds : p.HoldsContext f) :
    ∃ t, Takes className config p.localVars f (f.withStack (t :: f.stack)) :=
  ⟨_, takes_service _ _ holds .getLocalVars rfl⟩

theorem exists_localStack (holds : p.HoldsContext f) :
    ∃ t, Takes className config p.localStack f (f.withStack (t :: f.stack)) :=
  ⟨_, takes_service _ _ holds .getLocalStack rfl⟩

/-! ### Copies -/

/-- A slot is copied. -/
theorem takes_recordSlot (holds : p.HoldsContext f) (there : slot ∈ f.locals) (k : Storage) :
    Takes className config (p.recordSlot k slot) f f := by
  obtain ⟨store, asked⟩ := exists_localVars className config holds
  obtain ⟨index, pushed⟩ := exists_pushInt className config
    (f := f.withStack (store :: f.stack)) (Int32.ofNat slot.toNat)
  have got : (f.withStack (index :: store :: f.stack)).locals[slot]? = some _ :=
    Std.ExtTreeMap.getElem?_eq_some_getElem there
  have called := takes_callService className config (mapError_eq_ok.1 (StoreService.store k).callSignature_ref)
    f [k.tag?.getD f.locals[slot], index, store] rfl
  exact asked.append (pushed.cons ((takes_load _ _ _ got).cons called))

/-- What is added to a slot is added to its copy. -/
theorem takes_recordIncrement (holds : p.HoldsContext f) (slot : Slot) (amount : Int16) :
    Takes className config (p.record (.iinc slot amount)) f f := by
  obtain ⟨store, asked⟩ := exists_localVars className config holds
  obtain ⟨index, pushed⟩ := exists_pushInt className config
    (f := f.withStack (store :: f.stack)) (Int32.ofNat slot.toNat)
  obtain ⟨added, pushed'⟩ := exists_pushInt className config
    (f := f.withStack (index :: store :: f.stack)) amount.toInt32
  have called := takes_callService className config (mapError_eq_ok.1 StoreService.increment.callSignature_ref)
    f [added, index, store] rfl
  exact asked.append (pushed.cons (pushed'.cons called))

/-- What an instruction has done to a slot is copied. -/
theorem takes_record (holds : p.HoldsContext f) {i : Instr} (there : ∀ k s, i = .store k s → s ∈ f.locals) :
    Takes className config (p.record i) f f := by
  unfold record
  split
  · exact takes_recordIncrement _ _ holds ..
  · exact takes_recordSlot _ _ holds (there _ _ rfl) _
  · exact .nil f

/-- The parameters are copied. -/
theorem takes_recordParams (holds : p.HoldsContext f) {tags : List Tag} {first : Nat}
    (there : ∀ before t after, tags = before ++ t :: after →
      UInt16.ofNat (first + total Tag.words before) ∈ f.locals) :
    Takes className config (p.recordParams first tags) f f := by
  induction tags generalizing first with
  | nil => exact .nil f
  | cons t ts ih =>
    refine .append ?_ (ih fun before u after split => ?_)
    · split
      · exact takes_recordSlot _ _ holds (there [] t ts rfl) _
      · exact .nil f
    · have := there (t :: before) u after (by rw [split]; rfl)
      rwa [total_cons, ← Nat.add_assoc] at this

/-- The context is dropped. -/
theorem takes_deregister (holds : p.HoldsContext f) : Takes className config p.deregister f f :=
  (takes_service _ _ holds .register rfl).append (takes_service _ _ holds .deactivate rfl)

/-! ### Saving a frame -/

theorem getElem?_setLocal_below {slot s : Slot} (h : s.toNat + 2 ≤ slot.toNat) :
    (f.setLocal slot t).locals[s]? = f.locals[s]? := by
  refine Locals.getElem?_store_free ?_ (fun _ => by omega) (fun _ _ _ => by omega)
  rintro rfl
  omega

/-- The topmost entry goes into the store of the operand stack.  The value is parked in its slot, the handle
comes below it, and the call takes both. -/
theorem exists_saveEntry (spaced : p.slots.Spaced) {code : List Instr} (hcode : p.saveEntry site t = .ok code)
    (holds : p.HoldsContext f) {u : Tag} (stack : f.stack = u :: rest) :
    ∃ f', Takes className config code f f' ∧ f'.stack = rest ∧
      ∀ s : Slot, s.toNat + 2 ≤ p.slots.temp.toNat → f'.locals[s]? = f.locals[s]? := by
  obtain ⟨k, -, hcode⟩ := bind_eq_ok.1 hcode
  cases hcode
  have stored := takes_store className config k p.slots.temp stack
  have kept (s : Slot) (hs : s.toNat + 2 ≤ p.slots.temp.toNat) :
      ((f.withStack rest).setLocal p.slots.temp (k.tag?.getD u)).locals[s]? = f.locals[s]? :=
    getElem?_setLocal_below hs
  have holds' : p.HoldsContext ((f.withStack rest).setLocal p.slots.temp (k.tag?.getD u)) := by
    obtain ⟨c, hc, reference⟩ := holds
    exact ⟨c, (kept _ (by have := spaced.temp; omega)).trans hc, reference⟩
  obtain ⟨store, asked⟩ := exists_localStack className config holds'
  generalize hg : (f.withStack rest).setLocal p.slots.temp (k.tag?.getD u) = g at stored kept holds' asked
  have gstack : g.stack = rest := by rw [← hg]; rfl
  have there : (g.withStack (store :: g.stack)).locals[p.slots.temp]? = some (k.tag?.getD u) := by
    rw [← hg]
    simp [SymFrame.setLocal, Locals.getElem?_store]
  have called := takes_callService className config (mapError_eq_ok.1 (StoreService.push k).callSignature_ref)
    g [k.tag?.getD (k.tag?.getD u), store] rfl
  exact ⟨_, (stored.append asked).append ((takes_load _ _ _ there).cons called), gstack, kept⟩

/-- The operand stack goes into its store, top first.  The slot of the context is never touched. -/
theorem exists_saveStack (spaced : p.slots.Spaced) {tags : List Tag} {code : List Instr}
    (hcode : p.saveStack site tags = .ok code) (holds : p.HoldsContext f) (enough : tags.length ≤ f.stack.length) :
    ∃ f', Takes className config code f f' ∧
      ∀ s : Slot, s.toNat + 2 ≤ p.slots.temp.toNat → f'.locals[s]? = f.locals[s]? := by
  induction tags generalizing f code with
  | nil =>
    cases hcode
    exact ⟨f, .nil f, fun _ _ => rfl⟩
  | cons t ts ih =>
    obtain ⟨first, more, hfirst, hmore, rfl⟩ := saveStack_cons.1 hcode
    obtain ⟨u, rest, stack⟩ : ∃ u rest, f.stack = u :: rest := by
      cases h : f.stack with
      | nil => simp [h] at enough
      | cons u rest => exact ⟨u, rest, rfl⟩
    obtain ⟨f₁, saved, stack₁, kept⟩ :=
      exists_saveEntry className config spaced hfirst holds stack
    have holds₁ : p.HoldsContext f₁ := by
      obtain ⟨c, hc, reference⟩ := holds
      exact ⟨c, (kept _ (by have := spaced.temp; omega)).trans hc, reference⟩
    obtain ⟨f₂, later, kept'⟩ := ih hmore holds₁ (by
      rw [stack, List.length_cons, List.length_cons] at enough
      rw [stack₁]
      omega)
    exact ⟨f₂, saved.append later, fun s hs => (kept' s hs).trans (kept s hs)⟩

/-- A signal is built. -/
theorem exists_building (holds : p.HoldsContext f) (kind : SiteKind) {payload : Option Slot}
    (carries : payload.isSome = kind.hasPayload) (there : ∀ s ∈ payload, s ∈ f.locals) :
    ∃ t, Takes className config (p.building kind payload) f (f.withStack (t :: f.stack)) := by
  have created : Takes className config [.typed .new kind.signalClass] f
      (f.withStack (.ref kind.signalClass :: f.stack)) := takes_push _ _ rfl rfl rfl
  have copied : Takes className config [.plain (.shuffle .dup)] (f.withStack (.ref kind.signalClass :: f.stack))
      (f.withStack (.ref kind.signalClass :: .ref kind.signalClass :: f.stack)) := by
    refine .one ⟨rfl, rfl, _, rfl⟩ ?_
    show Step.run [⟨0, .dup 1 0⟩] _ = _
    simp [Step.run, SymOp.apply, SymFrame.dup, SymFrame.popWords, takeTags, SymFrame.pushAll, SymFrame.withStack,
      Tag.words, Tag.width, Width.words]
  obtain ⟨c, loaded⟩ := exists_loadContext className config
    (f := f.withStack (.ref kind.signalClass :: .ref kind.signalClass :: f.stack)) holds
  have parsed := mapError_eq_ok.1 kind.callSignature_constructor
  refine ⟨.ref kind.signalClass, ?_⟩
  cases payload with
  | none =>
    have alone : kind.hasPayload = false := carries.symm
    have called := takes_invoke className config .special
      (f := f.withStack (c :: .ref kind.signalClass :: .ref kind.signalClass :: f.stack)) parsed (by
        simp [SiteKind.constructorParams, alone, InvokeKind.hasReceiver])
    refine (created.cons (copied.cons loaded)).append (called.trans_eq ?_)
    simp [SiteKind.constructorParams, alone, InvokeKind.hasReceiver]
  | some s =>
    have both : kind.hasPayload = true := carries.symm
    obtain ⟨u, hu⟩ : ∃ u, f.locals[s]? = some u := ⟨_, Std.ExtTreeMap.getElem?_eq_some_getElem (there s rfl)⟩
    have got : (f.withStack (c :: .ref kind.signalClass :: .ref kind.signalClass :: f.stack)).locals[s]? = some u := hu
    have called := takes_invoke className config .special
      (f := f.withStack (u :: c :: .ref kind.signalClass :: .ref kind.signalClass :: f.stack))
      parsed (by simp [SiteKind.constructorParams, both, InvokeKind.hasReceiver])
    refine (created.cons (copied.cons (loaded.cons (takes_load _ _ _ got)))).append (called.trans_eq ?_)
    simp [SiteKind.constructorParams, both, InvokeKind.hasReceiver]

/-! ### Fetching a frame back -/

theorem takes_castTo {u : Tag} (stack : f.stack = u :: rest) :
    Takes className config (castTo t) f (f.withStack ((t.castTarget.map .ref).getD u :: rest)) := by
  unfold castTo
  cases t.castTarget with
  | none => exact (Takes.nil f).trans_eq (by simp [← stack])
  | some c =>
    refine .one ⟨rfl, rfl, _, rfl⟩ ?_
    show Step.run [⟨0, .pop⟩, ⟨0, .push (.ref c)⟩] f = _
    simp [Step.run, SymOp.apply, SymFrame.pop, stack, SymFrame.push, SymFrame.withStack]

/-- One entry is fetched back. -/
theorem takes_restoreEntry {code : List Instr} (hcode : p.restoreEntry site t = .ok code)
    (holds : p.HoldsContext f) : Takes className config code f (f.withStack (t.fetched :: f.stack)) := by
  obtain ⟨k, hk, hcode⟩ := bind_eq_ok.1 hcode
  cases hcode
  obtain ⟨same, -, -⟩ := Tag.fetched_of_storage? (storageFor_eq_ok.1 hk)
  obtain ⟨store, asked⟩ := exists_localStack className config holds
  have called := takes_callService className config (mapError_eq_ok.1 (StoreService.pop k).callSignature_ref) f [store] rfl
  have cast := takes_castTo className config (t := t)
    (f := f.withStack (k.serviceTag :: f.stack)) rfl
  refine ((asked.append called).append cast).trans_eq ?_
  rw [Tag.fetched, same]
  rfl

/-- The operand stack is fetched back, bottom first.  The tags are gone through in reverse, as the entries that
are fetched first come to lie below the others. -/
theorem takes_restoreStack {tags : List Tag} {code : List Instr} (hcode : p.restoreStack site tags = .ok code)
    (holds : p.HoldsContext f) : Takes className config code f (f.withStack (tags.map Tag.fetched ++ f.stack)) := by
  obtain ⟨codes, hcodes, hcode⟩ := bind_eq_ok.1 hcode
  cases hcode
  have all (tags : List Tag) : ∀ (f : SymFrame) (codes : List (List Instr)), p.HoldsContext f →
      tags.mapM (p.restoreEntry site) = .ok codes →
        Takes className config codes.flatten f (f.withStack ((tags.map Tag.fetched).reverse ++ f.stack)) := by
    induction tags with
    | nil =>
      intro f codes _ hcodes
      cases hcodes
      exact .nil f
    | cons t ts ih =>
      intro f codes holds hcodes
      simp only [List.mapM_cons, bind_eq_ok, pure, Except.pure, Except.ok.injEq] at hcodes
      obtain ⟨first, hfirst, more, hmore, rfl⟩ := hcodes
      have fetched := takes_restoreEntry className config hfirst holds
      have later := ih (f.withStack (t.fetched :: f.stack)) more holds hmore
      refine (fetched.append later).trans_eq ?_
      simp
  refine (all tags.reverse f codes holds hcodes).trans_eq ?_
  rw [List.map_reverse, List.reverse_reverse]

/-- One slot is fetched back. -/
theorem takes_restoreLocal {code : List Instr} (hcode : p.restoreLocal site slot t = .ok code)
    (holds : p.HoldsContext f) : Takes className config code f (f.setLocal slot t.fetched) := by
  obtain ⟨k, hk, hcode⟩ := bind_eq_ok.1 hcode
  cases hcode
  obtain ⟨same, -, stored⟩ := Tag.fetched_of_storage? (storageFor_eq_ok.1 hk)
  obtain ⟨store, asked⟩ := exists_localVars className config holds
  obtain ⟨index, pushed⟩ := exists_pushInt className config
    (f := f.withStack (store :: f.stack)) (Int32.ofNat slot.toNat)
  have called := takes_callService className config (mapError_eq_ok.1 (StoreService.get k).callSignature_ref)
    f [index, store] rfl
  have cast := takes_castTo className config (t := t)
    (f := f.withStack (k.serviceTag :: f.stack)) rfl
  have put := takes_store className config k slot
    (f := f.withStack (t.fetched :: f.stack)) rfl
  rw [stored] at put
  refine ((asked.append (pushed.cons called)).append (cast.trans_eq ?_)).append put
  rw [Tag.fetched, same]
  rfl

/-- All recorded slots are fetched back. -/
theorem takes_restoreLocals {locals : Locals} {code : List Instr} (hcode : p.restoreLocals site locals = .ok code)
    (holds : p.HoldsContext f)
    (below : ∀ (s : Slot) (t : Tag), locals[s]? = some t → s.toNat + t.words ≤ p.slots.context.toNat) :
    Takes className config code f { f with locals := f.locals.refill (p.restoredSlots locals) } := by
  obtain ⟨codes, hcodes, rfl⟩ := restoreLocals_eq_ok hcode
  have below : ∀ e ∈ p.restoredSlots locals, e.1.toNat + e.2.words ≤ p.slots.context.toNat := fun e he =>
    below _ _ (mem_restoredSlots.1 he).1
  clear hcode
  generalize p.restoredSlots locals = entries at hcodes below
  induction entries generalizing f codes with
  | nil =>
    cases hcodes
    exact .nil f
  | cons e es ih =>
    simp only [List.mapM_cons, bind_eq_ok, pure, Except.pure, Except.ok.injEq] at hcodes
    obtain ⟨first, hfirst, more, hmore, rfl⟩ := hcodes
    have fetched := takes_restoreLocal className config hfirst holds
    have room := below e List.mem_cons_self
    rw [← Tag.words_fetched] at room
    exact fetched.append (ih (holds.setLocal_below room) more hmore fun x hx => below x (List.mem_cons_of_mem _ hx))

end Plan

end Suspension
