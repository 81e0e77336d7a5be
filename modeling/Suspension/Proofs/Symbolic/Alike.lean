import Suspension.Flow.Liveness
import Suspension.Proofs.Symbolic.Slots

/-!
# Frames that look alike

Two frames look alike on some slots if their stacks and these slots hold values of the same kinds.  What
an operation does to the one it does to the other: it succeeds on both, and the frames that it leaves
look alike, now also on the slots that it has defined.

## Main definitions
* `SymFrame.Alike`: frames that look alike.
* `SymOp.LoadsReference`, `Step.LoadReferences`: no array of primitives is taken for one of references.

## Main results
* `Locals.getElem?_store`: what a slot holds after a store.
* `SymOp.apply_alike`: one operation on frames that look alike.
* `Step.run_alike`: the operations of a block.
-/

namespace Suspension

/-! ## Kinds and widths -/

/-- Values of one kind have one width. -/
theorem Tag.width_of_kind {a b : Tag} (h : a.kind = b.kind) : a.width = b.width := by
  have known (t : Tag) : t.width = if t.kind = .long ∨ t.kind = .double then .two else .one := by
    cases t <;> rfl
  rw [known a, known b, h]

theorem Tag.isWide_of_kind {a b : Tag} (h : a.kind = b.kind) : a.isWide = b.isWide := by
  rw [isWide, isWide, width_of_kind h]

theorem Tag.words_of_kind {a b : Tag} (h : a.kind = b.kind) : a.words = b.words := by
  rw [words, words, width_of_kind h]

/-! ## What a store leaves in the slots -/

theorem Slot.above_iff {s t : Slot} : s ≠ 65535 ∧ s + 1 = t ↔ s.toNat + 1 = t.toNat := by
  have lt := UInt16.toNat_lt s
  have lt' := UInt16.toNat_lt t
  rw [← UInt16.toNat_inj, UInt16.toNat_add, ne_eq, ← UInt16.toNat_inj]
  simp
  omega

theorem Slot.below_iff {s t : Slot} {P : Prop} : s ≠ 0 ∧ s - 1 = t ∧ P ↔ t.toNat + 1 = s.toNat ∧ P := by
  have lt := UInt16.toNat_lt s
  rw [← and_assoc]
  refine and_congr_left fun _ => ?_
  rw [← UInt16.toNat_inj, UInt16.toNat_sub, ne_eq, ← UInt16.toNat_inj]
  simp
  omega

namespace Locals

variable {m : Locals} {slot s : Slot} {t : Tag}

/-- The slot below a store is emptied if its value reached into the slot stored to. -/
theorem getElem?_clearBelow :
    (m.clearBelow slot)[s]? =
      if slot ≠ 0 ∧ slot - 1 = s ∧ (m[s]?.map Tag.isWide) = some true then none else m[s]? := by
  unfold clearBelow
  by_cases bottom : slot = 0
  · simp [bottom]
  · rw [if_neg bottom]
    by_cases below : slot - 1 = s
    · subst below
      cases h : m[slot - 1]? with
      | none => simp [h]
      | some t => cases wide : t.isWide <;> simp [h, wide, bottom]
    · rw [if_neg fun h => below h.2.1]
      cases h : m[slot - 1]? with
      | none => rfl
      | some t =>
        dsimp only
        split
        · rw [Std.ExtTreeMap.getElem?_erase, if_neg (by simpa using below)]
        · rfl

theorem getElem?_clearAbove :
    (m.clearAbove slot)[s]? = if slot ≠ 65535 ∧ slot + 1 = s then none else m[s]? := by
  unfold clearAbove
  by_cases top : slot = 65535
  · simp [top]
  · rw [if_neg top, Std.ExtTreeMap.getElem?_erase]
    by_cases above : slot + 1 = s <;> simp [above, top]

/-- What a slot holds after a store. -/
theorem getElem?_store :
    (m.store slot t)[s]? =
      if slot = s then some t
      else if t.isWide ∧ slot ≠ 65535 ∧ slot + 1 = s then none
      else (m.clearBelow slot)[s]? := by
  unfold store
  simp only [Std.ExtTreeMap.getElem?_insert, Std.compare_eq_iff_eq]
  split
  · rfl
  · cases wide : t.isWide with
    | true => simp [getElem?_clearAbove]
    | false => simp

/-- Stores of one kind into slots of one kind leave slots of one kind.  A store clears the slot above if it is
wide, and the one below if that holds a wide value, which its kind determines. -/
theorem kind_store {n : Locals} {u : Tag} (kind : t.kind = u.kind)
    (same : m[s]?.map Tag.kind = n[s]?.map Tag.kind ∨ s = slot ∨ (t.isWide ∧ slot ≠ 65535 ∧ slot + 1 = s)) :
    (m.store slot t)[s]?.map Tag.kind = (n.store slot u)[s]?.map Tag.kind := by
  rw [getElem?_store, getElem?_store, ← Tag.isWide_of_kind kind]
  by_cases own : slot = s
  · simp [own, kind]
  · rw [if_neg own, if_neg own]
    by_cases above : t.isWide ∧ slot ≠ 65535 ∧ slot + 1 = s
    · rw [if_pos above, if_pos above]
    · rw [if_neg above, if_neg above]
      have same := (same.resolve_right fun h => h.elim (fun e => own e.symm) above)
      have wide : m[s]?.map Tag.isWide = n[s]?.map Tag.isWide := by
        cases hm : m[s]? with
        | none =>
          rw [hm, Option.map_none, eq_comm, Option.map_eq_none_iff] at same
          rw [same]
        | some a =>
          rw [hm] at same
          obtain ⟨b, hn, kinds⟩ := Option.map_eq_some_iff.1 same.symm
          rw [hn, Option.map_some, Option.map_some, Tag.isWide_of_kind kinds]
      rw [getElem?_clearBelow, getElem?_clearBelow, wide]
      split
      · rfl
      · exact same

end Locals

/-! ## Frames that look alike -/

/-- Two frames with the same kinds on their stacks and in some of their slots. -/
structure SymFrame.Alike (S : Slot → Prop) (f g : SymFrame) : Prop where
  stack : f.stack.map Tag.kind = g.stack.map Tag.kind
  slots : ∀ s, S s → f.locals[s]?.map Tag.kind = g.locals[s]?.map Tag.kind

namespace SymFrame.Alike

variable {S T : Slot → Prop} {f g h : SymFrame}

theorem refl (S : Slot → Prop) (f : SymFrame) : f.Alike S f := ⟨rfl, fun _ _ => rfl⟩

theorem symm (a : f.Alike S g) : g.Alike S f := ⟨a.stack.symm, fun s hs => (a.slots s hs).symm⟩

theorem trans (a : f.Alike S g) (b : g.Alike S h) : f.Alike S h :=
  ⟨a.stack.trans b.stack, fun s hs => (a.slots s hs).trans (b.slots s hs)⟩

theorem mono (a : f.Alike S g) (sub : ∀ s, T s → S s) : f.Alike T g :=
  ⟨a.stack, fun s hs => a.slots s (sub s hs)⟩

theorem withStack (a : f.Alike S g) {xs ys : List Tag} (kinds : xs.map Tag.kind = ys.map Tag.kind) :
    SymFrame.Alike S { f with stack := xs } { g with stack := ys } := ⟨kinds, a.slots⟩

theorem stack_cons (a : f.Alike S g) {t : Tag} {rest : List Tag} (hf : f.stack = t :: rest) :
    ∃ u more, g.stack = u :: more ∧ t.kind = u.kind ∧ rest.map Tag.kind = more.map Tag.kind := by
  have kinds := a.stack
  rw [hf] at kinds
  cases hg : g.stack with
  | nil => simp [hg] at kinds
  | cons u more =>
    rw [hg, List.map_cons, List.map_cons, List.cons.injEq] at kinds
    exact ⟨u, more, rfl, kinds.1, kinds.2⟩

/-- What one of them has set, so has the other one. -/
theorem mem (a : f.Alike S g) {s : Slot} (known : S s) {t : Tag} (there : g.locals[s]? = some t) : s ∈ f.locals := by
  have same := a.slots s known
  rw [there, Option.map_some] at same
  obtain ⟨u, hu, -⟩ := Option.map_eq_some_iff.1 same
  exact Std.ExtTreeMap.mem_iff_isSome_getElem?.2 (by rw [hu]; rfl)

/-- An edge delivers frames that look alike. -/
theorem deliver (a : f.Alike S g) (k : EdgeKind) : (k.deliver f).Alike S (k.deliver g) := by
  cases k with
  | branch | fallthrough => exact a
  | subroutine => exact a.withStack (by simp [a.stack])
  | exception => exact a.withStack rfl

/-- Forgetting a class does not change a kind.  A class is replaced by the general one, of the same kind. -/
theorem widen (f : SymFrame) (w : Widening) : f.Alike S (w.apply f) := by
  have kind (t : Tag) : t.widen.kind = t.kind := by
    cases t with
    | ref name =>
      rw [Tag.widen]
      split <;> rfl
    | _ => rfl
  cases w with
  | slot s =>
    simp only [Widening.apply, widenLocal]
    split
    · next t ht =>
      split
      · next narrow =>
        refine ⟨rfl, fun s' _ => ?_⟩
        rw [Std.ExtTreeMap.getElem?_insert]
        split
        · next e =>
          obtain rfl : s = s' := by simpa using e
          have := kind t
          rw [Tag.widen, if_pos narrow] at this
          simp [ht, this]
        · rfl
      · exact refl S f
    · exact refl S f
  | stack index =>
    simp only [Widening.apply, widenStack]
    split
    · refine ⟨?_, fun _ _ => rfl⟩
      apply List.ext_getElem?
      intro i
      simp only [List.getElem?_map, List.getElem?_modify]
      cases f.stack[i]? with
      | none => rfl
      | some t => split <;> simp [kind]
    · exact refl S f

end SymFrame.Alike

/-! ## Operations on frames that look alike -/

/-- What one operation does to a frame, the other does to every frame that looks alike, up to kinds. -/
def SymFrame.Follows {α : Type} (S : Slot → Prop) (R : α → α → Prop) (x y : SymM α) : Prop :=
  ∀ f g a f', f.Alike S g → x f = .ok a f' → ∃ b g', y g = .ok b g' ∧ R a b ∧ f'.Alike S g'

namespace SymFrame.Follows

variable {α β : Type} {S : Slot → Prop} {R : α → α → Prop} {Q : β → β → Prop}

theorem bind {x y : SymM α} {k l : α → SymM β} (first : Follows S R x y)
    (next : ∀ a b, R a b → Follows S Q (k a) (l b)) : Follows S Q (x >>= k) (y >>= l) := by
  intro f g c f'' alike h
  obtain ⟨a, f', hx, hk⟩ := bind_apply_eq_ok h
  obtain ⟨b, g', hy, related, alike'⟩ := first f g a f' alike hx
  obtain ⟨d, g'', hl, related', alike''⟩ := next a b related f' g' c f'' alike' hk
  exact ⟨d, g'', by simp [hy, hl], related', alike''⟩

theorem pure {a b : α} (h : R a b) : Follows S R (pure a) (pure b) := by
  intro f g a' f' alike h'
  cases h'
  exact ⟨b, g, rfl, h, alike⟩

theorem push {t u : Tag} (kind : t.kind = u.kind) :
    Follows S (fun _ _ => True) (SymFrame.push t) (SymFrame.push u) := by
  intro f g a f' alike h
  cases h
  exact ⟨(), _, rfl, trivial, alike.withStack (by simp [kind, alike.stack])⟩

theorem pushAll {ts us : List Tag} (kinds : ts.map Tag.kind = us.map Tag.kind) :
    Follows S (fun _ _ => True) (SymFrame.pushAll ts) (SymFrame.pushAll us) := by
  intro f g a f' alike h
  cases h
  exact ⟨(), _, rfl, trivial, alike.withStack (by simp [kinds, alike.stack])⟩

theorem pop : Follows S (fun t u => t.kind = u.kind) SymFrame.pop SymFrame.pop := by
  intro f g t f' alike h
  unfold SymFrame.pop at h
  split at h
  · cases h
  · next t rest hf =>
    cases h
    obtain ⟨u, more, hg, kind, kinds⟩ := alike.stack_cons hf
    exact ⟨u, { g with stack := more }, by simp [SymFrame.pop, hg], kind, alike.withStack kinds⟩

/-- Kinds have widths, so as many entries are taken from both stacks. -/
theorem takeTags_alike {n : Nat} {xs ys ts rest : List Tag} (kinds : xs.map Tag.kind = ys.map Tag.kind)
    (h : takeTags n xs = .ok ts rest) :
    ∃ us more, takeTags n ys = .ok us more ∧ ts.map Tag.kind = us.map Tag.kind ∧
      rest.map Tag.kind = more.map Tag.kind := by
  induction xs generalizing n ys ts rest with
  | nil =>
    obtain rfl : ys = [] := by simpa using kinds.symm
    cases n with
    | zero =>
      cases h
      exact ⟨[], [], rfl, rfl, rfl⟩
    | succ n => cases h
  | cons x xs ih =>
    cases ys with
    | nil => simp at kinds
    | cons y ys =>
      cases n with
      | zero =>
        cases h
        exact ⟨[], y :: ys, rfl, rfl, kinds⟩
      | succ n =>
        rw [List.map_cons, List.map_cons, List.cons.injEq] at kinds
        have words := Tag.words_of_kind kinds.1
        rw [takeTags] at h ⊢
        rw [← words]
        split at h
        · next fits =>
          rw [if_pos fits]
          split at h
          · next ts' rest' taken =>
            cases h
            obtain ⟨us, more, taken', same, left⟩ := ih kinds.2 taken
            exact ⟨y :: us, more, by rw [taken'], by simp [kinds.1, same], left⟩
          · cases h
        · cases h

theorem popWords (n : Nat) :
    Follows S (fun ts us => ts.map Tag.kind = us.map Tag.kind) (SymFrame.popWords n)
      (SymFrame.popWords n) := by
  intro f g ts f' alike h
  unfold SymFrame.popWords at h
  split at h
  · next ts rest taken =>
    cases h
    obtain ⟨us, more, taken', same, left⟩ := takeTags_alike alike.stack taken
    exact ⟨us, { g with stack := more }, by simp [SymFrame.popWords, taken'], same,
      alike.withStack left⟩
  · cases h

theorem getLocal {slot : Slot} (known : S slot) :
    Follows S (fun t u => t.kind = u.kind) (SymFrame.getLocal slot) (SymFrame.getLocal slot) := by
  intro f g t f' alike h
  unfold SymFrame.getLocal at h
  split at h
  · next t hf =>
    cases h
    have same := alike.slots slot known
    rw [hf] at same
    obtain ⟨u, hu, kind⟩ := Option.map_eq_some_iff.1 same.symm
    exact ⟨u, g, by simp [SymFrame.getLocal, hu], kind.symm, alike⟩
  · cases h

theorem dup (words under : Nat) :
    Follows S (fun _ _ => True) (SymFrame.dup words under) (SymFrame.dup words under) :=
  (popWords words).bind fun _ _ top => (popWords under).bind fun _ _ below =>
    pushAll (by simp [top, below])

theorem swap : Follows S (fun _ _ => True) SymFrame.swap SymFrame.swap :=
  (popWords 1).bind fun _ _ top => (popWords 1).bind fun _ _ below => pushAll (by simp [top, below])

end SymFrame.Follows

namespace SymOp

/-- The slots that an operation defines. -/
def defined : SymOp → List Slot
  | .set slot tag => definedSlots slot tag
  | _ => []

/-- An operation reads a slot. -/
def Reads (op : SymOp) (slot : Slot) : Prop := op = .inc slot ∨ op = .read slot ∨ ∃ tag, op = .get slot tag

/-- If an operation loads from an array of references, what it loads from is no array of primitives. -/
def LoadsReference (op : SymOp) (f : SymFrame) : Prop :=
  op = .aaload → ∀ index array rest, f.stack = index :: array :: rest → array.element.kind = .reference

variable {op : SymOp} {S : Slot → Prop} {f g f' : SymFrame}

/-- The slot itself and the one above are defined by the store; every other slot was alike. -/
theorem set_alike {slot : Slot} {tag : Option Tag} (alike : f.Alike S g)
    (h : (SymOp.set slot tag).apply f = .ok () f') :
    ∃ g', (SymOp.set slot tag).apply g = .ok () g' ∧
      f'.Alike (fun s => S s ∨ s ∈ definedSlots slot tag) g' := by
  obtain ⟨t, f₁, hpop, hstore⟩ := bind_apply_eq_ok h
  cases hstore
  obtain ⟨u, g₁, hpop', kind, alike₁⟩ := SymFrame.Follows.pop f g t f₁ alike hpop
  have stored : (tag.getD t).kind = (tag.getD u).kind := by
    cases tag with
    | none => exact kind
    | some _ => rfl
  refine ⟨g₁.setLocal slot (tag.getD u), by simp [apply, hpop'], alike₁.stack, fun s hs => ?_⟩
  refine Locals.kind_store stored ?_
  rcases hs with known | defined
  · exact .inl (alike₁.slots s known)
  · cases tag with
    | none => exact .inr (.inl (by simpa [definedSlots] using defined))
    | some given =>
      by_cases own : s = slot
      · exact .inr (.inl own)
      · cases wide : given.isWide with
        | false => simp [definedSlots, wide, own] at defined
        | true =>
          by_cases top : slot = 65535
          · simp [definedSlots, wide, top] at defined
            exact absurd (defined.trans top.symm) own
          · exact .inr (.inr ⟨wide, top, by simpa [definedSlots, wide, own, top, eq_comm] using defined⟩)

theorem aaload_alike (alike : f.Alike S g) (loads : SymOp.aaload.LoadsReference f)
    (loads' : SymOp.aaload.LoadsReference g) (h : SymOp.aaload.apply f = .ok () f') :
    ∃ g', SymOp.aaload.apply g = .ok () g' ∧ f'.Alike S g' := by
  obtain ⟨index, f₁, hindex, h⟩ := bind_apply_eq_ok h
  obtain ⟨array, f₂, harray, h⟩ := bind_apply_eq_ok h
  obtain ⟨index', g₁, hindex', -, alike₁⟩ := SymFrame.Follows.pop f g index f₁ alike hindex
  obtain ⟨array', g₂, harray', -, alike₂⟩ := SymFrame.Follows.pop f₁ g₁ array f₂ alike₁ harray
  have stack {a : Tag} {e e' : SymFrame} (popped : SymFrame.pop e = .ok a e') : e.stack = a :: e'.stack := by
    unfold SymFrame.pop at popped
    split at popped
    · cases popped
    · next hs =>
      cases popped
      exact hs
  have first : array.element.kind = .reference :=
    loads rfl index array f₂.stack (by rw [stack hindex, stack harray])
  have second : array'.element.kind = .reference :=
    loads' rfl index' array' g₂.stack (by rw [stack hindex', stack harray'])
  obtain ⟨b, g', pushed, -, alike'⟩ :=
    SymFrame.Follows.push (first.trans second.symm) f₂ g₂ () f' alike₂ h
  exact ⟨g', by simp [apply, hindex', harray', pushed], alike'⟩

/-- What an operation does to a frame, it does to every frame that looks alike on the slots that it reads.  Most
operations only touch the stack. -/
theorem apply_alike (alike : f.Alike S g) (reads : ∀ slot, op.Reads slot → S slot)
    (loads : op.LoadsReference f) (loads' : op.LoadsReference g) (h : op.apply f = .ok () f') :
    ∃ g', op.apply g = .ok () g' ∧ f'.Alike (fun s => S s ∨ s ∈ op.defined) g' := by
  have plain (follows : SymFrame.Follows S (fun _ _ => True) op.apply op.apply) (none : op.defined = []) :
      ∃ g', op.apply g = .ok () g' ∧ f'.Alike (fun s => S s ∨ s ∈ op.defined) g' := by
    obtain ⟨_, g', hg, -, alike'⟩ := follows f g () f' alike h
    exact ⟨g', hg, alike'.mono fun s hs => hs.resolve_right (by simp [none])⟩
  cases op with
  | set slot tag => exact set_alike alike h
  | aaload =>
    obtain ⟨g', hg, alike'⟩ := aaload_alike alike loads loads' h
    exact ⟨g', hg, alike'.mono fun s hs => hs.resolve_right (by simp [defined])⟩
  | push t => exact plain (.push rfl) rfl
  | pop => exact plain (SymFrame.Follows.pop.bind fun _ _ _ => .pure trivial) rfl
  | popWords n => exact plain ((SymFrame.Follows.popWords n).bind fun _ _ _ => .pure trivial) rfl
  | get slot tag =>
    refine plain ((SymFrame.Follows.getLocal (reads slot (.inr (.inr ⟨tag, rfl⟩)))).bind
      fun t u kind => .push ?_) rfl
    cases tag with
    | none => exact kind
    | some _ => rfl
  | inc slot =>
    exact plain ((SymFrame.Follows.getLocal (reads slot (.inl rfl))).bind fun _ _ _ => .pure trivial) rfl
  | read slot =>
    exact plain ((SymFrame.Follows.getLocal (reads slot (.inr (.inl rfl)))).bind
      fun _ _ _ => .pure trivial) rfl
  | dup words under => exact plain (.dup words under) rfl
  | swap => exact plain .swap rfl
  | suspend site => exact plain (.pure trivial) rfl

end SymOp

/-! ## Blocks -/

namespace Accesses

variable {a : Accesses} {op : SymOp} {s : Slot}

/-- A step defines what its operation defines. -/
theorem mem_defs_step : s ∈ (a.step op).defs ↔ s ∈ a.defs ∨ s ∈ op.defined := by
  have read (slot : Slot) : (a.read slot).defs = a.defs := by
    unfold Accesses.read
    split <;> rfl
  cases op <;> simp [step, SymOp.defined, read, Std.ExtTreeSet.mem_insertMany_list]

/-- A step uses what its operation reads, unless it was defined before. -/
theorem mem_uses_step_iff : s ∈ (a.step op).uses ↔ s ∈ a.uses ∨ op.Reads s ∧ s ∉ a.defs := by
  have read (slot : Slot) : s ∈ (a.read slot).uses ↔ s ∈ a.uses ∨ slot = s ∧ s ∉ a.defs := by
    unfold Accesses.read
    split
    · next old =>
      constructor
      · exact .inl
      · rintro (h | ⟨rfl, new⟩)
        · exact h
        · exact absurd old new
    · next new =>
      rw [Std.ExtTreeSet.mem_insert, Std.compare_eq_iff_eq, or_comm]
      exact or_congr_right ⟨fun h => ⟨h, h ▸ new⟩, And.left⟩
  have reads (slot : Slot) (h : op.Reads s ↔ slot = s) :
      s ∈ (a.read slot).uses ↔ s ∈ a.uses ∨ op.Reads s ∧ s ∉ a.defs := by rw [read, h]
  cases op with
  | get slot _ | inc slot | read slot => exact reads slot (by simp [SymOp.Reads])
  | _ => simp [step, SymOp.Reads]

theorem mem_uses_step (h : s ∈ a.uses) : s ∈ (a.step op).uses := mem_uses_step_iff.2 (.inl h)

/-- What an operation reads was defined before, or counts as used. -/
theorem mem_of_reads (h : op.Reads s) : s ∈ a.defs ∨ s ∈ (a.step op).uses := by
  by_cases defined : s ∈ a.defs
  · exact .inl defined
  · exact .inr (mem_uses_step_iff.2 (.inr ⟨h, defined⟩))

/-- The accesses after some steps. -/
def after (a : Accesses) (steps : List Step) : Accesses := steps.foldl (fun a s => a.step s.op) a

theorem after_append (xs ys : List Step) : a.after (xs ++ ys) = (a.after xs).after ys := List.foldl_append ..

theorem mem_uses_after (steps : List Step) (h : s ∈ a.uses) : s ∈ (a.after steps).uses := by
  induction steps generalizing a with
  | nil => exact h
  | cons step rest ih => exact ih (mem_uses_step h)

/-- Some steps define what one of their operations defines. -/
theorem mem_defs_after {steps : List Step} :
    s ∈ (a.after steps).defs ↔ s ∈ a.defs ∨ s ∈ (({} : Accesses).after steps).defs := by
  induction steps generalizing a with
  | nil => simp [after]
  | cons x rest ih =>
    show s ∈ ((a.step x.op).after rest).defs ↔ s ∈ a.defs ∨ s ∈ ((({} : Accesses).step x.op).after rest).defs
    rw [ih, ih (a := ({} : Accesses).step x.op), mem_defs_step, mem_defs_step, or_assoc, or_assoc]
    simp

/-- The less was defined before some steps, the more they use. -/
theorem mem_uses_after_mono {a' : Accesses} {steps : List Step} (uses : s ∈ a'.uses → s ∈ a.uses)
    (defs : s ∈ a.defs → s ∈ a'.defs) (h : s ∈ (a'.after steps).uses) : s ∈ (a.after steps).uses := by
  induction steps generalizing a a' with
  | nil => exact uses h
  | cons x rest ih =>
    refine ih (fun used => ?_) (fun defined => ?_) h
    · rw [mem_uses_step_iff] at used ⊢
      exact used.imp uses fun ⟨reads, fresh⟩ => ⟨reads, fun old => fresh (defs old)⟩
    · rw [mem_defs_step] at defined ⊢
      exact defined.imp_left defs

/-- What was defined before is not used later. -/
theorem not_mem_uses_after {steps : List Step} (defined : s ∈ a.defs) (unused : s ∉ a.uses) :
    s ∉ (a.after steps).uses := by
  induction steps generalizing a with
  | nil => exact unused
  | cons x rest ih =>
    refine ih (mem_defs_step.2 (.inl defined)) fun used => ?_
    exact (mem_uses_step_iff.1 used).elim unused fun h => h.2 defined

end Accesses

namespace Step

/-- No operation of some steps takes an array of primitives for one of references. -/
def LoadReferences : List Step → SymFrame → Prop
  | [], _ => True
  | s :: rest, f => s.op.LoadsReference f ∧ ∀ f', s.op.apply f = .ok () f' → LoadReferences rest f'

/-- What some steps do to a frame, they do to every frame that looks alike on the slots that they read
before they define them. -/
theorem run_alike {steps : List Step} {a : Accesses} {live : Slot → Prop} {f g f' : SymFrame}
    (alike : f.Alike (fun s => live s ∨ s ∈ a.defs) g) (uses : ∀ s ∈ (a.after steps).uses, live s)
    (loads : LoadReferences steps f) (loads' : LoadReferences steps g) (h : run steps f = .ok f') :
    ∃ g', run steps g = .ok g' ∧ f'.Alike (fun s => live s ∨ s ∈ (a.after steps).defs) g' := by
  induction steps generalizing a f g with
  | nil =>
    cases h
    exact ⟨g, rfl, alike⟩
  | cons step rest ih =>
    rw [run] at h
    split at h
    · next f₁ h₁ =>
      have reads (slot : Slot) (hr : step.op.Reads slot) : live slot ∨ slot ∈ a.defs :=
        (Accesses.mem_of_reads hr).elim .inr fun used =>
          .inl (uses slot (Accesses.mem_uses_after rest used))
      obtain ⟨g₁, hg₁, alike₁⟩ := SymOp.apply_alike alike reads loads.1 loads'.1 h₁
      have alike₂ : f₁.Alike (fun s => live s ∨ s ∈ (a.step step.op).defs) g₁ :=
        alike₁.mono fun s hs => by rwa [Accesses.mem_defs_step, ← or_assoc] at hs
      obtain ⟨g', hg', alike'⟩ := ih alike₂ uses (loads.2 f₁ h₁) (loads'.2 g₁ hg₁) h
      exact ⟨g', by rw [run, hg₁]; exact hg', alike'⟩
    · cases h

end Step

/-! ## Slots that hold something -/

namespace SymOp

variable {op : SymOp} {f f' : SymFrame} {s : Slot}

/-- What an operation reads is there. -/
theorem mem_of_reads (reads : op.Reads s) (h : op.apply f = .ok () f') : s ∈ f.locals := by
  have read {t : Tag} {e : SymFrame} (got : SymFrame.getLocal s f = .ok t e) : s ∈ f.locals := by
    unfold SymFrame.getLocal at got
    split at got
    · next found => exact Std.ExtTreeMap.isSome_getElem?_iff_mem.1 (Option.isSome_iff_exists.2 ⟨_, found⟩)
    · cases got
  rcases reads with rfl | rfl | ⟨tag, rfl⟩
  all_goals
    obtain ⟨_, _, got, -⟩ := bind_apply_eq_ok h
    exact read got

/-- What is there behind an operation was defined by it, or was there before. -/
theorem mem_before (h : op.apply f = .ok () f') (mem : s ∈ f'.locals) : s ∈ op.defined ∨ s ∈ f.locals := by
  rcases locals_apply h with same | ⟨slot, tag, popped, rfl, stored⟩
  · exact .inr (same ▸ mem)
  · rw [stored] at mem
    obtain ⟨t, ht⟩ := Option.isSome_iff_exists.1 (Std.ExtTreeMap.isSome_getElem?_iff_mem.2 mem)
    rcases Locals.getElem?_of_store ht with ⟨rfl, -⟩ | old
    · refine .inl ?_
      show s ∈ definedSlots s tag
      unfold definedSlots
      split <;> simp
    · exact .inr (Std.ExtTreeMap.isSome_getElem?_iff_mem.1 (Option.isSome_iff_exists.2 ⟨_, old⟩))

end SymOp

namespace Step

variable {steps : List Step} {a : Accesses} {f f' : SymFrame} {s : Slot}

/-- What some steps have defined or what was there before is all that is there behind them. -/
theorem mem_before (h : run steps f = .ok f') (mem : s ∈ f'.locals)
    (undefined : s ∉ (a.after steps).defs) : s ∈ f.locals := by
  induction steps generalizing a f with
  | nil =>
    cases h
    exact mem
  | cons x rest ih =>
    rw [run] at h
    split at h
    · next f₁ h₁ =>
      refine (SymOp.mem_before h₁ (ih h undefined)).resolve_left fun defined => undefined ?_
      have first : s ∈ (a.step x.op).defs := Accesses.mem_defs_step.2 (.inr defined)
      show s ∈ ((a.step x.op).after rest).defs
      exact Accesses.mem_defs_after.2 (.inl first)
    · cases h

/-- What some steps use is there before them. -/
theorem mem_of_uses (h : run steps f = .ok f') (used : s ∈ (a.after steps).uses) (unused : s ∉ a.uses) :
    s ∈ f.locals := by
  induction steps generalizing a f with
  | nil => exact absurd used unused
  | cons x rest ih =>
    rw [run] at h
    split at h
    · next f₁ h₁ =>
      by_cases first : s ∈ (a.step x.op).uses
      · obtain ⟨reads, -⟩ := (Accesses.mem_uses_step_iff.1 first).resolve_left unused
        exact SymOp.mem_of_reads reads h₁
      · refine (SymOp.mem_before h₁ (ih h used first)).resolve_left fun defined => ?_
        exact Accesses.not_mem_uses_after (Accesses.mem_defs_step.2 (.inr defined)) first used
    · cases h

end Step

end Suspension
