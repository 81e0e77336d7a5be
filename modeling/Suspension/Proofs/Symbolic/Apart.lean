import Suspension.Proofs.Symbolic.Reaching

/-!
# Slots of their own

A value of two words is recorded at its lower slot only.  Since every store drops what it overlaps, nothing is
ever recorded at the upper one, on no path of a method.

## Main definitions
* `Locals.Apart`: nothing is recorded at the upper slot of a value of two words.
* `Method.entryTags`: what a method is entered with.
* `SymFrame.Inside`: all values end below a bound.

## Main results
* `Locals.getElem?_store_free`: a store leaves alone what it shares no word with.
* `Method.Reaches.keeps`: what all stores keep holds of the slots of every frame on a path.
* `Method.Reaches.apart`: such frames have slots of their own for all values.
-/

namespace Suspension

theorem Tag.words_pos (t : Tag) : 0 < t.words := by
  cases t <;> exact Nat.succ_pos _

namespace Locals

variable {m : Locals} {slot s : Slot} {t : Tag}

/-- A store leaves alone what it shares no word with. -/
theorem getElem?_store_free (other : slot ≠ s) (above : t.isWide = true → slot.toNat + 1 ≠ s.toNat)
    (below : ∀ u, m[s]? = some u → u.isWide = true → s.toNat + 1 ≠ slot.toNat) :
    (m.store slot t)[s]? = m[s]? := by
  rw [getElem?_store, if_neg other, if_neg, getElem?_clearBelow, if_neg]
  · rw [Slot.below_iff]
    rintro ⟨next, reaches⟩
    obtain ⟨u, hu, wide⟩ := Option.map_eq_some_iff.1 reaches
    exact below u hu wide next
  · rw [Slot.above_iff]
    exact fun ⟨wide, next⟩ => above wide next

theorem getElem?_store_self : (m.store slot t)[slot]? = some t := by
  rw [getElem?_store, if_pos rfl]

/-- Nothing is recorded at the upper slot of a value of two words. -/
def Apart (m : Locals) : Prop :=
  ∀ (s s' : Slot) (t : Tag), m[s]? = some t → t.isWide = true → s.toNat + 1 = s'.toNat → m[s']? = none

theorem apart_empty : Apart ∅ := by
  intro s s' t ht
  simp at ht

/-- A store leaves apart what was: of a wide value and the slot above it, one was stored, or both are old. -/
theorem Apart.store (h : m.Apart) (slot : Slot) (t : Tag) : (m.store slot t).Apart := by
  intro s s' u hu wide next
  rcases getElem?_of_store hu with ⟨rfl, rfl⟩ | old
  · have other : s ≠ s' := by
      rintro rfl
      omega
    rw [getElem?_store, if_neg other, if_pos ⟨wide, Slot.above_iff.2 next⟩]
  · cases found : (m.store slot t)[s']? with
    | none => rfl
    | some u' =>
      exfalso
      rcases getElem?_of_store found with ⟨rfl, rfl⟩ | old'
      · have other : s' ≠ s := by
          rintro rfl
          omega
        rw [getElem?_store, if_neg other] at hu
        split at hu
        · cases hu
        · rw [getElem?_clearBelow, if_pos (Slot.below_iff.2 ⟨next, by rw [old, Option.map_some, wide]⟩)] at hu
          cases hu
      · rw [h s s' u old wide next] at old'
        cases old'

theorem Apart.layOut (h : m.Apart) (slot : Nat) (tags : List Tag) : (SymFrame.layOut m slot tags).Apart := by
  induction tags generalizing m slot with
  | nil => exact h
  | cons t ts ih => exact ih (h.store _ t) _

/-- It depends on the kinds of the values only. -/
theorem Apart.kinds {n : Locals} (h : n.Apart) (same : ∀ s : Slot, m[s]?.map Tag.kind = n[s]?.map Tag.kind) : m.Apart := by
  intro s s' t ht wide next
  have kinds := same s
  rw [ht, Option.map_some] at kinds
  obtain ⟨u, hu, kind⟩ := Option.map_eq_some_iff.1 kinds.symm
  have free := same s'
  rw [h s s' u hu (Tag.isWide_of_kind kind ▸ wide) next] at free
  exact Option.map_eq_none_iff.1 free

end Locals

namespace Method

/-- What a method of class `className` is entered with: the receiver, if it has one, and the parameters. -/
def entryTags (m : Method) (className : String) (sig : Signature) : List Tag :=
  (if m.isStatic then [] else [.ref className]) ++ sig.params

theorem total_entryTags (m : Method) {className : String} {sig : Signature} :
    total Tag.words (m.entryTags className sig) = m.receiverSlots + sig.slots := by
  unfold entryTags receiverSlots Signature.slots
  split
  · exact (Nat.zero_add _).symm
  · rfl

end Method

namespace SymFrame

variable {m : Locals} {slot : Nat} {tags : List Tag}

/-- Laying values out leaves those alone that end below. -/
theorem getElem?_layOut_below {s : Slot} {u : Tag} (hs : m[s]? = some u) (room : s.toNat + u.words ≤ slot)
    (small : slot + total Tag.words tags < 65536) : (layOut m slot tags)[s]? = some u := by
  induction tags generalizing m slot with
  | nil => exact hs
  | cons t ts ih =>
    rw [total_cons] at small
    have pos := u.words_pos
    have exact : (UInt16.ofNat slot).toNat = slot := UInt16.toNat_ofNat_of_lt' (by simp [UInt16.size]; omega)
    refine ih (Eq.trans (Locals.getElem?_store_free ?_ (fun _ => by omega) fun u' hu' wide => ?_) hs) (by omega) (by omega)
    · intro same
      rw [same] at exact
      omega
    · obtain rfl : u = u' := Option.some.inj (hs.symm.trans hu')
      rw [Tag.words, of_decide_eq_true wide, Width.words] at room
      omega

/-- Every value that is laid out is recorded. -/
theorem getElem?_layOut {before after : List Tag} {t : Tag} (cut : tags = before ++ t :: after)
    (small : slot + total Tag.words tags < 65536) :
    (layOut m slot tags)[UInt16.ofNat (slot + total Tag.words before)]? = some t := by
  subst cut
  induction before generalizing m slot with
  | nil =>
    rw [List.nil_append, total_cons] at small
    have exact : (UInt16.ofNat slot).toNat = slot := UInt16.toNat_ofNat_of_lt' (by simp [UInt16.size]; omega)
    show (layOut (m.store (UInt16.ofNat slot) t) (slot + t.words) after)[UInt16.ofNat slot]? = some t
    exact getElem?_layOut_below Locals.getElem?_store_self (Nat.le_of_eq (by rw [exact])) (by omega)
  | cons u us ih =>
    rw [List.cons_append, total_cons] at small
    rw [total_cons, ← Nat.add_assoc]
    exact ih (by omega)

/-! ### Values below a bound -/

/-- All values of a frame end below a bound. -/
def Inside (bound : Nat) (f : SymFrame) : Prop :=
  ∀ (s : Slot) (t : Tag), f.locals[s]? = some t → s.toNat + t.words ≤ bound

variable {bound : Nat} {f g : SymFrame}

theorem Inside.store (h : f.Inside bound) {s : Slot} {t : Tag} (room : s.toNat + t.words ≤ bound)
    (stored : g.locals = f.locals.store s t) : g.Inside bound := by
  intro s' u hu
  rw [stored] at hu
  rcases Locals.getElem?_of_store hu with ⟨rfl, rfl⟩ | old
  · exact room
  · exact h s' u old

/-- It depends on the kinds of the values only. -/
theorem Inside.alike (h : g.Inside bound) (alike : f.Alike (fun _ => True) g) : f.Inside bound := by
  intro s t ht
  have same := alike.slots s trivial
  rw [ht, Option.map_some] at same
  obtain ⟨u, hu, kind⟩ := Option.map_eq_some_iff.1 same.symm
  rw [← Tag.words_of_kind kind]
  exact h s u hu

theorem inside_layOut (small : bound < 65536) (hm : SymFrame.Inside bound ⟨m, []⟩)
    (fits : slot + total Tag.words tags ≤ bound) : SymFrame.Inside bound ⟨layOut m slot tags, []⟩ := by
  induction tags generalizing m slot with
  | nil => exact hm
  | cons u us ih =>
    rw [total_cons] at fits
    have pos := u.words_pos
    have exact : (UInt16.ofNat slot).toNat = slot := UInt16.toNat_ofNat_of_lt' (by simp [UInt16.size]; omega)
    exact ih (hm.store (by rw [exact]; omega) rfl) (by omega)

end SymFrame

/-! ## Along the paths of a method -/

section

variable {className : String} {config : Config} {P : Locals → Prop}

/-- A store takes a value off the stack. -/
theorem Instr.run_store {k : Storage} {slot : Slot} {f f' : SymFrame}
    (ran : Step.run ((Instr.store k slot).steps className config) f = .ok f') :
    ∃ t rest, f.stack = t :: rest ∧ f'.locals = f.locals.store slot (k.tag?.getD t) := by
  change Step.run [⟨0, .set slot k.tag?⟩] f = _ at ran
  cases stack : f.stack with
  | nil => simp [Step.run, SymOp.apply, SymFrame.pop, stack] at ran
  | cons t rest =>
    simp only [Step.run, SymOp.apply, bind_apply, SymFrame.pop, stack, modify_apply] at ran
    cases ran
    exact ⟨t, rest, rfl, rfl⟩

/-- Only a store changes the slots. -/
theorem Instr.locals_run {i : Instr} {f f' : SymFrame} (ran : Step.run (i.steps className config) f = .ok f') :
    f'.locals = f.locals ∨ ∃ k slot t rest, i = .store k slot ∧ f.stack = t :: rest ∧
      f'.locals = f.locals.store slot (k.tag?.getD t) := by
  by_cases store : ∃ k slot, i = .store k slot
  · obtain ⟨k, slot, rfl⟩ := store
    obtain ⟨t, rest, stack, stored⟩ := run_store ran
    exact .inr ⟨k, slot, t, rest, rfl, stack, stored⟩
  · refine .inl ?_
    have quiet : ∀ step ∈ i.steps className config, ∀ slot tag, step.op ≠ .set slot tag := by
      intro step mem slot tag op
      obtain ⟨op', hop, rfl⟩ := List.mem_map.1 mem
      obtain rfl : op' = .set slot tag := op
      cases lowered : i.effect className config 0 with
      | error e => simp [Instr.ops, lowered, Except.toOption] at hop
      | ok effect =>
        have mem : SymOp.set slot tag ∈ effect.ops := by simpa [Instr.ops, lowered, Except.toOption] using hop
        obtain ⟨k, rfl⟩ := Instr.store_of_mem_effect lowered mem
        exact store ⟨k, slot, rfl⟩
    generalize i.steps className config = steps at ran quiet
    induction steps generalizing f with
    | nil =>
      cases ran
      rfl
    | cons step rest ih =>
      rw [Step.run] at ran
      split at ran
      · next f₁ applied =>
        refine (ih ran fun step' mem => quiet step' (List.mem_cons_of_mem _ mem)).trans ?_
        refine (SymOp.locals_apply applied).resolve_right ?_
        rintro ⟨slot, tag, -, op, -⟩
        exact quiet step List.mem_cons_self slot tag op
      · cases ran

/-- What all stores of a method keep holds of the slots of every frame on a path. -/
theorem Method.Reaches.keeps {m : Method} {root : SymFrame} {place : Nat} {f : SymFrame}
    (h : m.Reaches className config root place f) (start : P root.locals)
    (stores : ∀ i ∈ m.code.instrs, ∀ k slot, i = .store k slot → ∀ l t, P l → P (l.store slot t)) :
    P f.locals := by
  induction h with
  | entry => exact start
  | @step place j i f f' kind before here ran leads regular ih =>
    have behind : P f'.locals := by
      rcases Instr.locals_run ran with same | ⟨k, slot, t, rest, store, -, stored⟩
      · exact same ▸ ih
      · exact stored ▸ stores i (List.mem_of_getElem? here) k slot store _ _ ih
    cases kind <;> exact behind

/-- The frames on the paths of a method have slots of their own for all values. -/
theorem Method.Reaches.apart {m : Method} {root : SymFrame} {place : Nat} {f : SymFrame}
    (h : m.Reaches className config root place f) (hroot : SymFrame.root className m = .ok root) :
    f.locals.Apart := by
  refine h.keeps (P := Locals.Apart) ?_ fun _ _ _ slot _ l t hl => hl.store slot t
  obtain ⟨signature, -, hroot⟩ := bind_eq_ok.1 hroot
  obtain ⟨entry, -, hroot⟩ := bind_eq_ok.1 hroot
  cases hroot
  exact Locals.apart_empty.layOut 0 _

end

end Suspension
