import Suspension.Flow.Liveness

/-!
# Live slots are a solution

The sweeps that compute the live slots of a graph only ever add slots, and only slots that some block
reads, so they come to an end before their number does.  What they end in solves the equations: a block
has no more to read than its set says.

## Main definitions
* `Liveness.Within`: fewer slots are live.
* `Liveness.missing`: how much can still be added.

## Main results
* `Liveness.mem_transfer`: the equations.
* `Liveness.sweep_compute`: the computed sets solve them.
* `Liveness.mem_compute_of_uses`, `Liveness.mem_compute_of_edge`: what has to be live.
* `Liveness.of_mem_compute`: they are the least solution.
-/

namespace Suspension

/-- A test that fewer entries of a list pass, and one of them no longer. -/
theorem countP_lt {α : Type} {p q : α → Bool} {l : List α} (fewer : ∀ x ∈ l, p x = true → q x = true)
    {a : α} (mem : a ∈ l) (fails : p a = false) (passes : q a = true) : l.countP p < l.countP q := by
  obtain ⟨front, back, rfl⟩ := List.append_of_mem mem
  have before := List.countP_mono_left (l := front) fun x hx => fewer x (by simp [hx])
  have behind := List.countP_mono_left (l := back) fun x hx => fewer x (by simp [hx])
  rw [List.countP_append, List.countP_append, List.countP_cons_of_neg (by simp [fails]),
    List.countP_cons_of_pos passes]
  omega

namespace Liveness

variable {g : Graph} {live more : Liveness} {b : Block} {slot : Slot} {place : Nat}

/-! ## The equations -/

theorem mem_liveAtTargets {edges : List Edge} :
    slot ∈ live.liveAtTargets edges ↔ ∃ e ∈ edges, slot ∈ live.liveIn e.target := by
  have fold (s : SlotSet) :
      slot ∈ edges.foldl (fun s e => s ∪ live.liveIn e.target) s ↔
        slot ∈ s ∨ ∃ e ∈ edges, slot ∈ live.liveIn e.target := by
    induction edges generalizing s with
    | nil => simp
    | cons e rest ih =>
      rw [List.foldl_cons, ih, Std.ExtTreeSet.mem_union_iff, or_assoc]
      simp
  rw [liveAtTargets, fold]
  simp [Std.ExtTreeSet.not_mem_empty]

/-- A slot is live on entry to a block that reads it, that leads to a block where it is live without
defining it, or that may throw to one. -/
theorem mem_transfer :
    slot ∈ live.transfer b ↔
      (∃ e ∈ b.edges, e.kind ≠ .exception ∧ slot ∈ live.liveIn e.target ∧ slot ∉ b.accesses.defs) ∨
        slot ∈ b.accesses.uses ∨ ∃ e ∈ b.edges, e.kind = .exception ∧ slot ∈ live.liveIn e.target := by
  simp only [transfer, List.partition_eq_filter_filter, Std.ExtTreeSet.mem_union_iff,
    Std.ExtTreeSet.mem_diff_iff, mem_liveAtTargets, List.mem_filter, Function.comp_apply,
    Bool.not_eq_true', decide_eq_false_iff_not, decide_eq_true_eq]
  constructor
  · rintro ((⟨⟨e, ⟨he, hk⟩, hl⟩, hd⟩ | used) | ⟨e, ⟨he, hk⟩, hl⟩)
    · exact .inl ⟨e, he, hk, hl, hd⟩
    · exact .inr (.inl used)
    · exact .inr (.inr ⟨e, he, hk, hl⟩)
  · rintro (⟨e, he, hk, hl, hd⟩ | used | ⟨e, he, hk, hl⟩)
    · exact .inl (.inl ⟨⟨e, ⟨he, hk⟩, hl⟩, hd⟩)
    · exact .inl (.inr used)
    · exact .inr ⟨e, ⟨he, hk⟩, hl⟩

theorem liveIn_sweep (hb : g.block? place = some b) : (sweep g live).liveIn place = live.transfer b := by
  rw [Graph.block?] at hb
  simp [liveIn, sweep, hb]

theorem liveIn_sweep_of_none (hb : g.block? place = none) : (sweep g live).liveIn place = ∅ := by
  rw [Graph.block?] at hb
  simp [liveIn, sweep, hb]

@[simp] theorem length_sweep : (sweep g live).length = g.blocks.length := List.length_map ..

/-! ## Sweeps add slots -/

/-- Fewer slots are live at every block. -/
def Within (live more : Liveness) : Prop := ∀ place slot, slot ∈ live.liveIn place → slot ∈ more.liveIn place

/-- The more is live at the targets of a block, the more is live on entry to it. -/
theorem Within.sweep (h : Within live more) (g : Graph) : Within (sweep g live) (sweep g more) := by
  intro place slot hs
  cases hb : g.block? place with
  | none => simp [liveIn_sweep_of_none hb] at hs
  | some b =>
    rw [liveIn_sweep hb, mem_transfer] at hs ⊢
    rcases hs with ⟨e, he, hk, hl, hd⟩ | used | ⟨e, he, hk, hl⟩
    · exact .inl ⟨e, he, hk, h _ _ hl, hd⟩
    · exact .inr (.inl used)
    · exact .inr (.inr ⟨e, he, hk, h _ _ hl⟩)

/-- The slots that the blocks of a graph read before they define them. -/
def read (g : Graph) : List Slot := g.blocks.flatMap fun b => b.accesses.uses.toList

/-- Only slots that some block reads are live. -/
def Read (g : Graph) (live : Liveness) : Prop := ∀ place slot, slot ∈ live.liveIn place → slot ∈ read g

theorem Read.sweep (h : Read g live) : Read g (sweep g live) := by
  intro place slot hs
  cases hb : g.block? place with
  | none => simp [liveIn_sweep_of_none hb] at hs
  | some b =>
    rw [liveIn_sweep hb, mem_transfer] at hs
    rcases hs with ⟨e, -, -, hl, -⟩ | used | ⟨e, -, -, hl⟩
    · exact h _ _ hl
    · exact List.mem_flatMap.2 ⟨b, List.mem_of_getElem? hb, Std.ExtTreeSet.mem_toList.2 used⟩
    · exact h _ _ hl

/-! ## Sweeps come to an end -/

/-- How many slots of a list are not live, counted at every block. -/
def missing (slots : List Slot) (live : Liveness) : Nat :=
  total (fun s => slots.countP (· ∉ s)) live

/-- Where nothing is live, everything is missing at every block. -/
theorem missing_empty (slots : List Slot) (blocks : List Block) :
    missing slots (blocks.map fun _ => ∅) = blocks.length * slots.length := by
  have each : slots.countP (· ∉ (∅ : SlotSet)) = slots.length := by
    simp [Std.ExtTreeSet.not_mem_empty]
  induction blocks with
  | nil => simp [missing]
  | cons b blocks ih =>
    rw [missing] at ih ⊢
    rw [List.map_cons, total_cons, ih, each, List.length_cons, Nat.succ_mul, Nat.add_comm]

theorem Within.head {s t : SlotSet} (h : Within (s :: live) (t :: more)) : ∀ slot ∈ s, slot ∈ t :=
  fun slot hs => h 0 slot hs

theorem Within.tail {s t : SlotSet} (h : Within (s :: live) (t :: more)) : Within live more :=
  fun place slot hs => h (place + 1) slot hs

theorem missing_le (slots : List Slot) (length : live.length = more.length) (h : Within live more) :
    missing slots more ≤ missing slots live := by
  induction live generalizing more with
  | nil => simp [List.length_eq_zero_iff.1 length.symm]
  | cons s live ih =>
    obtain ⟨t, more, rfl⟩ := List.exists_cons_of_length_eq_add_one length.symm
    have first : slots.countP (· ∉ t) ≤ slots.countP (· ∉ s) :=
      List.countP_mono_left fun x _ hx => by
        simp only [decide_eq_true_eq] at hx ⊢
        exact fun hs => hx (h.head x hs)
    have others := ih (by simpa using length) h.tail
    simp only [missing, total_cons] at others ⊢
    omega

/-- A sweep that changes something leaves less to be added.  Sets that differ, one within the other, differ in a
slot that was added. -/
theorem missing_lt {slots : List Slot} (length : live.length = more.length) (h : Within live more)
    (listed : ∀ place slot, slot ∈ more.liveIn place → slot ∈ slots) (ne : more ≠ live) :
    missing slots more < missing slots live := by
  induction live generalizing more with
  | nil => exact absurd (List.length_eq_zero_iff.1 length.symm) ne
  | cons s live ih =>
    obtain ⟨t, more, rfl⟩ := List.exists_cons_of_length_eq_add_one length.symm
    have short : live.length = more.length := by simpa using length
    by_cases same : t = s
    · subst same
      have others := ih short h.tail (fun place slot hs => listed (place + 1) slot hs)
        fun e => ne (e ▸ rfl)
      simp only [missing, total_cons] at others ⊢
      omega
    · obtain ⟨slot, new, old⟩ : ∃ slot, slot ∈ t ∧ slot ∉ s := by
        refine Classical.byContradiction fun none => same (Std.ExtTreeSet.ext_mem fun slot => ?_)
        refine ⟨fun ht => ?_, h.head slot⟩
        exact Classical.byContradiction fun hs => none ⟨slot, ht, hs⟩
      have first : slots.countP (· ∉ t) < slots.countP (· ∉ s) := by
        refine countP_lt (fun x _ hx => ?_) (listed 0 slot new) (by simpa using new) (by simpa using old)
        simp only [decide_eq_true_eq] at hx ⊢
        exact fun hs => hx (h.head x hs)
      have others := missing_le slots short h.tail
      simp only [missing, total_cons] at others ⊢
      omega

theorem sweep_iterate {n : Nat} (length : live.length = g.blocks.length) (grows : Within live (sweep g live))
    (listed : Read g live) (enough : missing (read g) live < n) :
    sweep g (iterate g n live) = iterate g n live := by
  induction n generalizing live with
  | zero => exact absurd enough (Nat.not_lt_zero _)
  | succ n ih =>
    rw [iterate]
    split
    · next same => exact same
    · next ne =>
      have less : missing (read g) (sweep g live) < missing (read g) live :=
        missing_lt (length.trans length_sweep.symm) grows listed.sweep ne
      exact ih length_sweep (grows.sweep g) listed.sweep (by omega)

/-- No slot is live where the sweeps start. -/
theorem not_mem_empty (g : Graph) (place : Nat) (slot : Slot) : slot ∉ liveIn (g.blocks.map fun _ => ∅) place := by
  rw [liveIn, List.getElem?_map]
  cases g.blocks[place]? <;> exact Std.ExtTreeSet.not_mem_empty

/-- There are more sweeps than slots that can be added. -/
theorem missing_lt_sweepBound (g : Graph) : missing (read g) (g.blocks.map fun _ => ∅) < sweepBound g := by
  have length : (read g).length = total (fun b => b.accesses.uses.size) g.blocks := by
    simp only [read, length_flatMap_eq_total, Std.ExtTreeSet.length_toList]
  rw [missing_empty, length, sweepBound]
  exact Nat.lt_succ_self _

/-- The computed sets solve the equations. -/
theorem sweep_compute (g : Graph) : sweep g (compute g) = compute g := by
  apply sweep_iterate (List.length_map _)
  · exact fun place slot hs => absurd hs (not_mem_empty g place slot)
  · exact fun place slot hs => absurd hs (not_mem_empty g place slot)
  · exact missing_lt_sweepBound g

/-- A property of slots at blocks that holds of what a block reads, and that passes backward along edges past
what a block defines, holds of all live slots.  It holds of the sets at the start, and every sweep keeps it. -/
theorem of_mem_compute {P : Nat → Slot → Prop}
    (uses : ∀ place b slot, g.block? place = some b → slot ∈ b.accesses.uses → P place slot)
    (edge : ∀ place b e slot, g.block? place = some b → e ∈ b.edges → P e.target slot →
      e.kind = .exception ∨ slot ∉ b.accesses.defs → P place slot)
    (h : slot ∈ (compute g).liveIn place) : P place slot := by
  have swept {live : Liveness} (holds : ∀ place slot, slot ∈ live.liveIn place → P place slot) :
      ∀ place slot, slot ∈ (sweep g live).liveIn place → P place slot := by
    intro place slot hs
    cases hb : g.block? place with
    | none => simp [liveIn_sweep_of_none hb] at hs
    | some b =>
      rw [liveIn_sweep hb, mem_transfer] at hs
      rcases hs with ⟨e, he, -, hl, hd⟩ | used | ⟨e, he, hk, hl⟩
      · exact edge place b e slot hb he (holds _ _ hl) (.inr hd)
      · exact uses place b slot hb used
      · exact edge place b e slot hb he (holds _ _ hl) (.inl hk)
  have iterated (n : Nat) : ∀ live : Liveness, (∀ place slot, slot ∈ live.liveIn place → P place slot) →
      ∀ place slot, slot ∈ (iterate g n live).liveIn place → P place slot := by
    induction n with
    | zero => exact fun live holds => holds
    | succ n ih =>
      intro live holds
      rw [iterate]
      split
      · exact holds
      · exact ih _ (swept holds)
  exact iterated _ _ (fun place slot hs => absurd hs (not_mem_empty g place slot)) place slot h

/-- What a block reads before it defines it is live on entry to it. -/
theorem mem_compute_of_uses (hb : g.block? place = some b) (used : slot ∈ b.accesses.uses) :
    slot ∈ (compute g).liveIn place := by
  rw [← sweep_compute, liveIn_sweep hb, mem_transfer]
  exact .inr (.inl used)

/-- What is live behind a block is live on entry to it, unless the block defines it. -/
theorem mem_compute_of_edge (hb : g.block? place = some b) {e : Edge} (he : e ∈ b.edges)
    (regular : e.kind ≠ .exception) (target : slot ∈ (compute g).liveIn e.target)
    (undefined : slot ∉ b.accesses.defs) : slot ∈ (compute g).liveIn place := by
  rw [← sweep_compute, liveIn_sweep hb, mem_transfer]
  exact .inl ⟨e, he, regular, target, undefined⟩

end Liveness

end Suspension
