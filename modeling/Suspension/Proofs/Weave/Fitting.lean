import Suspension.Proofs.Weave.Spots

/-!
# Frames that fit suspendable code

Which frames come to the sections of suspendable code.  At the code of an instruction, they recall a frame of
the method on what the instruction needs, and hold the context; in front of that, and behind the label of a
site, they recall the frame of the entry, in which nothing is changed yet but the slot of the context.

## Main definitions
* `Method.Tame`: a method on whose paths the analysis sees all that matters to inserted code.
* `Weaving.Traced`: an accepted method that was made suspendable, and what its analysis found.
* `Weaving.Fits`: the frames that fit the sections.

## Main results
* `Weaving.Traced.inside`: the values of the method end below the reserved slots.
* `Weaving.Traced.operands`, `Weaving.Traced.slots`: frames that fit one section agree on what is needed.
-/

namespace Suspension

/-- The first slot that is not the method's own, given what was measured. -/
def Method.reserved (m : Method) (metrics : Metrics) : Nat := max m.maxLocals.toNat metrics.maxLocals.toNat

/-- What is not checked when a method without handlers is analysed, on its paths: no array of primitives is
taken for one of references; a value of two words that is stored as a reference does not reach into the slot
`reserved`; what a site is called on has one word; and an instance method keeps its receiver. -/
structure Method.Tame (m : Method) (className : String) (config : Config) (root : SymFrame) (reserved : Nat) :
    Prop where
  loads : ∀ place i f, m.code.instrs[place]? = some i → m.Reaches className config root place f →
    Step.LoadReferences (i.steps className config) f
  stores : ∀ place slot f t rest, m.code.instrs[place]? = some (.store .reference slot) →
    m.Reaches className config root place f → f.stack = t :: rest → t.isWide = true → slot.toNat + 1 ≠ reserved
  receivers : ∀ place kind callee sig f, m.code.instrs[place]? = some (.invoke kind callee) →
    (config.classify className callee).isSome = true → Signature.parse callee.descriptor = .ok sig →
      m.Reaches className config root place f → kind.hasReceiver = true →
        ∀ t, f.stack[sig.params.length]? = some t → t.isWide = false
  receiver : m.isStatic = false → ∀ k slot, .store k slot ∈ m.code.instrs → slot ≠ 0

namespace Plan

variable {p : Plan} {f g : SymFrame}

theorem holdsContext_iff : p.HoldsContext f ↔ f.locals[p.slots.context]?.map Tag.kind = some .reference :=
  Option.map_eq_some_iff.symm

theorem HoldsContext.deliver (h : p.HoldsContext f) (kind : EdgeKind) : p.HoldsContext (kind.deliver f) := by
  cases kind <;> exact h

theorem HoldsContext.widen (h : p.HoldsContext f) (w : Widening) : p.HoldsContext (w.apply f) := by
  rw [holdsContext_iff] at h ⊢
  rw [← h]
  exact ((SymFrame.Alike.widen (S := fun _ => True) f w).slots _ trivial).symm

end Plan

namespace Weaving

/-- An accepted method that was made suspendable, with a snapshot of each site. -/
structure Traced (W : Weaving) (root : SymFrame) (g : Graph) (widened : Widenings) (p : Pass) : Prop where
  accepted : W.method.Accepted W.className W.config W.metrics g root widened p
  rooted : SymFrame.root W.className W.method = .ok root
  shape : W.shape = p.shape g
  snapshots : none ∉ W.shape.sites
  tame : W.method.Tame W.className W.config root W.base

variable {W : Weaving} {root : SymFrame} {g : Graph} {widened : Widenings} {p : Pass} {f f' h : SymFrame}
  {i place : Nat} {a : Spot}

/-- The frame of the entry once the context was obtained. -/
def entered (W : Weaving) (root : SymFrame) : SymFrame :=
  root.setLocal W.plan.slots.context (.ref Service.contextClass)

/-- The frames that fit the sections. -/
def Fits (W : Weaving) (root : SymFrame) : Spot → SymFrame → Prop
  | .entry, f => f.Recalls (fun _ => True) root
  | .start, f => f.Recalls (fun _ => True) (W.entered root)
  | .behind _, f => f.Recalls (fun _ => True) (W.entered root)
  | .piece i, f => i < W.instrs.length ∧ W.plan.HoldsContext f ∧
      ∃ h, W.method.Reaches W.className W.config root i h ∧ f.Recalls (W.method.Needs W.className W.config i) h

namespace Traced

/-! ## Values of the method -/

/-- What is stored ends below the reserved slots.  A wide value is only stored where there is room for both of
its words. -/
theorem store_room (T : W.Traced root g widened p) {k : Storage} {slot : Slot} {t : Tag} {rest : List Tag}
    (here : W.instrs[place]? = some (.store k slot)) (reaches : W.method.Reaches W.className W.config root place h)
    (stack : h.stack = t :: rest) : slot.toNat + (k.tag?.getD t).words ≤ W.base := by
  have room : slot.toNat + k.width.words ≤ W.base := slot_le_base (List.mem_of_getElem? here) rfl
  cases k with
  | reference =>
    cases wide : t.isWide with
    | false =>
      have one : t.words = 1 := by
        rw [Tag.words]
        cases width : t.width with
        | one => rfl
        | two => simp [Tag.isWide, width] at wide
      exact one.symm ▸ room
    | true =>
      have apart := T.tame.stores place slot h t rest here reaches stack wide
      have two : t.words = 2 := by rw [Tag.words, of_decide_eq_true wide]; rfl
      show slot.toNat + t.words ≤ W.base
      change slot.toNat + 1 ≤ W.base at room
      omega
  | _ => exact room

/-- What the method is entered with. -/
theorem root_eq (T : W.Traced root g widened p) {sig : Signature} (parsed : W.method.signature = .ok sig) :
    root = { locals := SymFrame.layOut ∅ 0 (W.method.entryTags W.className sig) } := by
  obtain ⟨sig', parsed', rest⟩ := bind_eq_ok.1 T.rooted
  obtain ⟨entry, -, rest⟩ := bind_eq_ok.1 rest
  cases parsed.symm.trans (mapError_eq_ok.1 parsed')
  cases rest
  rfl

theorem root_stack (T : W.Traced root g widened p) : root.stack = [] := by
  obtain ⟨sig, parsed, -⟩ := W.front_eq
  rw [T.root_eq parsed]

theorem inside_root (T : W.Traced root g widened p) : root.Inside W.base := by
  obtain ⟨sig, parsed, -⟩ := W.front_eq
  have le := entry_le_base parsed
  have := W.base_lt
  rw [T.root_eq parsed]
  refine SymFrame.inside_layOut (by omega) (fun s t ht => by simp at ht) ?_
  rw [W.method.total_entryTags, Nat.zero_add]
  exact le

/-- The values of the method end below the reserved slots.  Edges deliver other stacks only, so it is enough to
look at stores. -/
theorem inside (T : W.Traced root g widened p) (reaches : W.method.Reaches W.className W.config root place h) :
    h.Inside W.base := by
  induction reaches with
  | entry => exact T.inside_root
  | @step place j i f f' kind before here ran leads regular ih =>
    have behind : f'.Inside W.base := by
      rcases Instr.locals_run ran with same | ⟨k, slot, t, rest, rfl, stack, stored⟩
      · intro s t ht
        exact ih s t (same ▸ ht)
      · exact ih.store (T.store_room here before stack) stored
    cases kind <;> exact behind

/-- The receiver is in the first slot. -/
theorem root_receiver (T : W.Traced root g widened p) (own : W.method.isStatic = false) :
    root.locals[(0 : Slot)]? = some (.ref W.className) := by
  obtain ⟨sig, parsed, -⟩ := W.front_eq
  have le := entry_le_base parsed
  have := W.base_lt
  have first : W.method.entryTags W.className sig = [] ++ .ref W.className :: sig.params := by
    rw [Method.entryTags, own]
    rfl
  have small : 0 + total Tag.words (W.method.entryTags W.className sig) < 65536 := by
    rw [W.method.total_entryTags]
    omega
  rw [T.root_eq parsed]
  exact SymFrame.getElem?_layOut first small

/-- The parameters are in the slots behind it. -/
theorem root_param (T : W.Traced root g widened p) {sig : Signature} (parsed : W.method.signature = .ok sig)
    {before after : List Tag} {t : Tag} (cut : sig.params = before ++ t :: after) :
    root.locals[UInt16.ofNat (W.method.receiverSlots + total Tag.words before)]? = some t := by
  have le := entry_le_base parsed
  have := W.base_lt
  have small : 0 + total Tag.words (W.method.entryTags W.className sig) < 65536 := by
    rw [W.method.total_entryTags]
    omega
  rw [T.root_eq parsed]
  cases own : W.method.isStatic with
  | true =>
    have split : W.method.entryTags W.className sig = before ++ t :: after := by
      rw [Method.entryTags, own, cut]
      rfl
    have there := SymFrame.getElem?_layOut (m := ∅) split small
    rwa [Method.receiverSlots, own]
  | false =>
    have split : W.method.entryTags W.className sig = (.ref W.className :: before) ++ t :: after := by
      rw [Method.entryTags, own, cut]
      rfl
    have there := SymFrame.getElem?_layOut (m := ∅) split small
    rw [total_cons, Nat.zero_add] at there
    rwa [Method.receiverSlots, own]

/-- An instance method keeps its receiver. -/
theorem receiver_kept (T : W.Traced root g widened p) (own : W.method.isStatic = false)
    (reaches : W.method.Reaches W.className W.config root place h) :
    h.locals[(0 : Slot)]? = some (.ref W.className) := by
  refine reaches.keeps (P := fun l => l[(0 : Slot)]? = some (.ref W.className)) (T.root_receiver own) ?_
  rintro ins hi k slot rfl l t hl
  refine (Locals.getElem?_store_free (T.tame.receiver own k slot hi) (fun _ => ?_) fun u hu wide => ?_).trans hl
  · exact Nat.succ_ne_zero _
  · cases hl.symm.trans hu
    cases wide

/-! ## Frames that fit -/

/-- Nothing is changed but the slot of the context when the context is obtained. -/
theorem getElem?_entered (T : W.Traced root g widened p) {s : Slot} (other : s ≠ W.plan.slots.context) :
    (W.entered root).locals[s]? = root.locals[s]? := by
  refine Locals.getElem?_store_free (Ne.symm other) (fun wide => nomatch wide) fun u hu wide => ?_
  have room : s.toNat + u.words ≤ W.plan.slots.context.toNat := T.inside_root s u hu
  rw [Tag.words, of_decide_eq_true wide, Width.words] at room
  omega

/-- The slot of the context is not used by the method. -/
theorem root_context (T : W.Traced root g widened p) : root.locals[W.plan.slots.context]? = none := by
  cases found : root.locals[W.plan.slots.context]? with
  | none => rfl
  | some u =>
    have room := T.inside_root _ u found
    have := u.words_pos
    have base : W.base = W.plan.slots.context.toNat := rfl
    omega

theorem recalls_root (T : W.Traced root g widened p) (fits : f.Recalls (fun _ => True) (W.entered root)) :
    f.Recalls (· ≠ W.plan.slots.context) root where
  related := by
    refine ⟨fits.related.stack, fun s => ?_⟩
    by_cases own : s = W.plan.slots.context
    · rw [own, T.root_context]
      rintro t u - ⟨⟩
    · rw [← T.getElem?_entered own]
      exact fits.related.slots s
  alike := ⟨fits.alike.stack, fun s other => (fits.alike.slots s trivial).trans (by rw [T.getElem?_entered other])⟩

end Traced

/-- The context is there where the method was entered. -/
theorem holds_entered (fits : f.Recalls (fun _ => True) (W.entered root)) : W.plan.HoldsContext f := by
  rw [Plan.holdsContext_iff, fits.alike.slots _ trivial]
  exact congrArg (Option.map Tag.kind) Locals.getElem?_store_self

/-- A frame fits still when a class is forgotten. -/
theorem Fits.widen (fits : W.Fits root a f) (w : Widening) : W.Fits root a (w.apply f) := by
  cases a with
  | entry | start | behind => exact SymFrame.Recalls.widen fits w
  | piece i =>
    obtain ⟨lt, holds, h, reaches, recalls⟩ := fits
    exact ⟨lt, holds.widen w, h, reaches, recalls.widen w⟩

namespace Traced

/-- Frames that fit the same section have values of the same kinds on their stacks. -/
theorem operands (T : W.Traced root g widened p) (fits : W.Fits root a f) (fits' : W.Fits root a f') :
    f.stack.map Tag.kind = f'.stack.map Tag.kind := by
  cases a with
  | entry | start | behind =>
    have first := SymFrame.Recalls.alike fits
    have second := SymFrame.Recalls.alike fits'
    exact first.stack.trans second.stack.symm
  | piece i =>
    obtain ⟨lt, -, h, reaches, recalls⟩ := fits
    obtain ⟨-, -, h', reaches', recalls'⟩ := fits'
    exact (recalls.alike.stack.trans (T.accepted.alike lt reaches reaches').stack).trans recalls'.alike.stack.symm

/-- They have values of the same kinds in a slot, or a frame fits that has none there.  In front of the pieces
all slots are as on entry; in a piece they are what paths bring. -/
theorem slots (T : W.Traced root g widened p) (fits : W.Fits root a f) (fits' : W.Fits root a f') (s : Slot) :
    f.locals[s]?.map Tag.kind = f'.locals[s]?.map Tag.kind ∨ ∃ f, W.Fits root a f ∧ s ∉ f.locals := by
  cases a with
  | entry | start | behind =>
    have first := SymFrame.Recalls.alike fits
    have second := SymFrame.Recalls.alike fits'
    exact .inl ((first.slots s trivial).trans (second.slots s trivial).symm)
  | piece i =>
    obtain ⟨lt, holds, h, reaches, recalls⟩ := fits
    obtain ⟨-, holds', h', reaches', recalls'⟩ := fits'
    by_cases context : s = W.plan.slots.context
    · rw [context]
      exact .inl ((Plan.holdsContext_iff.1 holds).trans (Plan.holdsContext_iff.1 holds').symm)
    by_cases needs : W.method.Needs W.className W.config i s
    · have first := recalls.alike.trans (T.accepted.alike lt reaches reaches')
      exact .inl ((first.slots s needs).trans (recalls'.alike.slots s needs).symm)
    have erased (s' : Slot) (other : s ≠ s') : (f.locals.erase s)[s']? = f.locals[s']? := by
      simp [Std.ExtTreeMap.getElem?_erase, other]
    refine .inr ⟨{ f with locals := f.locals.erase s }, ⟨lt, ?_, h, reaches, recalls.replace ?_ ?_⟩, by simp⟩
    · rw [Plan.holdsContext_iff] at holds ⊢
      rwa [erased _ context]
    · intro s' needs'
      refine erased s' ?_
      rintro rfl
      exact needs needs'
    · intro s' t ht
      rw [Std.ExtTreeMap.getElem?_erase] at ht
      split at ht
      · cases ht
      · exact .inl ht

end Traced

end Weaving

end Suspension
