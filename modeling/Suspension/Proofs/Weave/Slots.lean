import Suspension.Proofs.Symbolic.Retyping
import Suspension.Proofs.Symbolic.Slots
import Suspension.Proofs.Weave.Blocks
import Suspension.Proofs.Weave.Layout

/-!
# The reserved slots

The slots that suspendable code keeps for itself are above all slots of the method.

## Main definitions
* `Weaving.base`: the first reserved slot.

## Main results
* `Weaving.slot_le_base`: the slots that instructions address.
* `Weaving.below_site`, `Weaving.below_label`: the slots of the shape.
-/

namespace Suspension

theorem le_foldl_max_nat (l : List Nat) (n : Nat) :
    n ≤ l.foldl max n ∧ ∀ x ∈ l, x ≤ l.foldl max n := by
  induction l generalizing n with
  | nil => simp
  | cons y rest ih =>
    obtain ⟨first, others⟩ := ih (max n y)
    refine ⟨by rw [List.foldl_cons]; omega, fun x hx => ?_⟩
    rcases List.mem_cons.1 hx with rfl | hx
    · rw [List.foldl_cons]
      omega
    · exact others x hx

theorem foldl_max_lt {l : List Nat} {n bound : Nat} (hn : n < bound) (hl : ∀ x ∈ l, x < bound) :
    l.foldl max n < bound := by
  induction l generalizing n with
  | nil => exact hn
  | cons y rest ih =>
    have := hl y (by simp)
    exact ih (by omega) fun x hx => hl x (by simp [hx])

theorem Metrics.slotEnd_lt (i : Instr) : slotEnd i < 65536 := by
  unfold slotEnd
  split <;> omega

/-- What one pass over a method counted covers its parameters and all slots that it addresses.  What was counted
fits 16 bits, so nothing is lost when it is noted. -/
theorem Metrics.slots_le {className : String} {method : Method} {config : Config} {m : Metrics}
    (h : measure className method config = .ok m) :
    (∃ s, method.signature = .ok s ∧ method.receiverSlots + s.slots < 65536 ∧
        method.receiverSlots + s.slots ≤ m.maxLocals.toNat) ∧
      ∀ i ∈ method.code.instrs, slotEnd i ≤ m.maxLocals.toNat := by
  obtain ⟨s, hs, h⟩ := bind_eq_ok.1 h
  obtain ⟨entry, hentry, h⟩ := bind_eq_ok.1 h
  cases h
  have hs := mapError_eq_ok.1 hs
  unfold Method.entrySlots at hentry
  split at hentry
  · next small =>
    cases hentry
    have bounds := le_foldl_max_nat (method.code.instrs.map slotEnd) (method.receiverSlots + s.slots)
    have top : (method.code.instrs.map slotEnd).foldl max (method.receiverSlots + s.slots) <
        65536 := foldl_max_lt small fun x hx => by
      obtain ⟨i, -, rfl⟩ := List.mem_map.1 hx
      exact slotEnd_lt i
    have exact : (UInt16.ofNat ((method.code.instrs.map slotEnd).foldl max
        (method.receiverSlots + s.slots))).toNat =
        (method.code.instrs.map slotEnd).foldl max (method.receiverSlots + s.slots) :=
      UInt16.toNat_ofNat_of_lt' top
    refine ⟨⟨s, hs, small, ?_⟩, fun i hi => ?_⟩
    · simp only [exact]
      exact bounds.1
    · simp only [exact]
      exact bounds.2 _ (List.mem_map.2 ⟨i, hi, rfl⟩)
  · cases hentry

namespace Weaving

variable {W : Weaving}

/-- The first reserved slot, as a number. -/
def base (W : Weaving) : Nat := W.plan.slots.context.toNat

theorem spaced : W.plan.slots.Spaced := (ReservedSlots.spaced_above W.made.slots).1

theorem base_eq : W.base = max W.method.maxLocals.toNat W.metrics.maxLocals.toNat := by
  rw [base, (ReservedSlots.spaced_above W.made.slots).2]
  change (if W.method.maxLocals ≤ W.metrics.maxLocals then W.metrics.maxLocals else
    W.method.maxLocals).toNat = _
  simp only [UInt16.le_iff_toNat_le]
  split <;> omega

theorem base_lt : W.base + 5 < 65536 := by
  have h := W.made.slots
  have context := (ReservedSlots.spaced_above h).2
  unfold ReservedSlots.above at h
  split at h
  · rw [base, context]
    assumption
  · cases h

/-- The slots that instructions address are below the reserved ones. -/
theorem slot_le_base {i : Instr} (hi : i ∈ W.instrs) {s : Slot} {width : Width}
    (h : i.slotAccess? = some (s, width)) : s.toNat + width.words ≤ W.base := by
  have counted := (Metrics.slots_le W.measured).2 i hi
  have := W.base_eq
  have := W.base_lt
  rw [Metrics.slotEnd, h] at counted
  simp only at counted
  omega

theorem entry_le_base {s : Signature} (hs : W.method.signature = .ok s) :
    W.method.receiverSlots + s.slots ≤ W.base := by
  obtain ⟨⟨s', hs', -, le⟩, -⟩ := Metrics.slots_le W.measured
  obtain rfl : s' = s := by
    rw [hs] at hs'
    cases hs'
    rfl
  have := W.base_eq
  omega

/-- A traversal records only slots below the reserved ones. -/
theorem keeps_below {g : Graph} (hg : Graph.build W.className W.method W.config = .ok g) :
    g.Keeps W.metrics (SymFrame.Below W.base) where
  step b hb s hs f f' hf h := by
    rcases SymOp.locals_apply h with same | ⟨slot, tag, popped, hop, hl⟩
    · exact hf.congr same
    · obtain ⟨i, site, effect, hi, heffect, hm⟩ := Graph.step_of_build hg hb hs
      rw [hop] at hm
      obtain ⟨k, rfl⟩ := Instr.store_of_mem_effect heffect hm
      have : slot.toNat + k.width.words ≤ W.base := slot_le_base (List.mem_of_getElem? hi) rfl
      have pos : 0 < k.width.words := by
        cases k <;> exact Nat.succ_pos _
      exact hf.store (by omega) _ hl
  opening b _ f hf := by
    unfold Block.opening
    split
    · exact hf
    · exact hf
  deliver k f hf := by
    cases k <;> exact hf
  widen w f hf := hf.widen w

theorem below_root {root : SymFrame} (h : SymFrame.root W.className W.method = .ok root) :
    root.Below W.base := by
  obtain ⟨s, hs, h⟩ := bind_eq_ok.1 h
  obtain ⟨entry, -, h⟩ := bind_eq_ok.1 h
  cases h
  have le := entry_le_base (mapError_eq_ok.1 hs)
  have := W.base_lt
  refine SymFrame.below_layOut (by omega) (fun s t h => by simp at h) ?_
  unfold Method.receiverSlots Signature.slots at le
  split at le <;> simp_all [Tag.words, Tag.width, Width.words]

/-- The slots that are recorded at a site are below the reserved ones. -/
theorem below_site {k : Nat} {S : SymFrame} (h : W.shape.site? k = some S) : S.Below W.base := by
  obtain ⟨g, root, widened, p, -, hg, hroot, hp, -, hshape⟩ := Shape.exists_pass W.shaped
  rw [hshape] at h
  obtain ⟨place, v, hv, hS⟩ := Shape.exists_visit_of_site h
  have every := Pass.every_ofGraph (keeps_below hg).everywhere (below_root hroot) hp
  obtain ⟨b, hb, -, opening, hinterpret⟩ := every.visits place v hv
  rcases Trail.mem_snapshots (Block.interpret_eq_ok hinterpret).2 hS with none | found
  · cases none
  · obtain ⟨before, q, rest, hsteps, hrun⟩ := found
    exact (keeps_below hg).run hb (fun s hs => by rw [hsteps]; simp [hs]) opening hrun

/-- The slots that are recorded at a label are below the reserved ones. -/
theorem below_label {l : Label} {x : LabelSnapshot} (h : W.shape.labels[l]? = some x) :
    x.types.Below W.base := by
  obtain ⟨g, root, widened, p, -, hg, hroot, hp, -, hshape⟩ := Shape.exists_pass W.shaped
  rw [hshape] at h
  obtain ⟨n, b, v, hb, label, hv, rfl⟩ := (Pass.getElem?_labels hg).1 h
  have every := Pass.every_ofGraph (keeps_below hg).everywhere (below_root hroot) hp
  obtain ⟨-, -, -, opening, -⟩ := every.visits n v hv
  obtain ⟨-, s, -, -, -, -, -, finds⟩ := Pass.exists_finds hg hp hb label hv
  unfold Block.snapshot
  split
  · next slot tag _ first =>
    obtain ⟨k, store⟩ := (first ▸ finds).firstStore
    have : slot.toNat + k.width.words ≤ W.base := slot_le_base (List.mem_of_getElem? store.here) rfl
    have pos : 0 < k.width.words := by
      cases k <;> exact Nat.succ_pos _
    exact opening.store (by omega) tag rfl
  · exact opening

end Weaving

end Suspension
