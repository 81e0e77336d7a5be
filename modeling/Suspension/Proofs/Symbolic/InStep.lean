import Suspension.Proofs.Symbolic.Apart
import Suspension.Proofs.Symbolic.Matching

/-!
# Slots in step

The analysis and the machine keep the local slots in maps of their own, and each has a store of its own that ends
what it overlaps.  Started from the arguments of a call and given the same stores, the two never disagree on which
slots are set, nor on the kinds of what they hold.  Since no two values overlap, the slots that are recorded can be
stored again one by one, in whatever order, without one of them ending another.

## Main definitions
* `SlotStore`, `Frame.storeAll`, `SymFrame.storeAll`: stores of known values, carried out on both sides.
* `Frame.restore`: slots that are stored again.
* `Frame.InStep`: a frame and a symbolic frame agree on the slots.

## Main results
* `Frame.Matches.layOut`, `Frame.Matches.storeAll`: arguments and stores keep frames that match in that state.
* `Frame.getElem?_restore`, `Frame.locals_restore`: values that are apart are all stored again.
* `slots_in_step`: a frame and a symbolic frame agree on the slots after any stores.
-/

namespace Suspension

/-- A store of a value of which the kind is known. -/
structure SlotStore where
  slot : Slot
  value : Value
  tag : Tag
  known : value.kind = tag.kind

/-- Carries out stores one after the other. -/
def Frame.storeAll (f : Frame) (stores : List SlotStore) : Frame :=
  stores.foldl (fun f s => f.setLocal s.slot s.value) f

/-- Records stores one after the other. -/
def SymFrame.storeAll (g : SymFrame) (stores : List SlotStore) : SymFrame :=
  stores.foldl (fun g s => g.setLocal s.slot s.tag) g

/-- Stores what was held in slots, one after the other; a slot in which nothing was held is left alone. -/
def Frame.restore (f : Frame) (held : LocalValues) (order : List Slot) : Frame :=
  order.foldl (fun f s => match held[s]? with
    | some v => f.setLocal s v
    | none => f) f

/-- A frame and a symbolic frame agree on the slots. -/
structure Frame.InStep (f : Frame) (g : SymFrame) : Prop where
  /-- The slots that are recorded are those that are set. -/
  recorded : ∀ s : Slot, s ∈ g.locals ↔ s ∈ f.locals
  /-- What is recorded is of the kind of what is held. -/
  kinds : ∀ (s : Slot) v t, f.locals[s]? = some v → g.locals[s]? = some t → v.kind = t.kind
  /-- The upper slot of a value of two words is neither recorded nor set. -/
  upper : ∀ (s s' : Slot) v, f.locals[s]? = some v → v.isWide = true → s.toNat + 1 = s'.toNat →
    s' ∉ g.locals ∧ s' ∉ f.locals
  /-- The recorded slots, stored again in any order (those of one word first, or not) into a frame of which no slot is
  set, are the slots of the frame. -/
  restored : ∀ order : List Slot, (∀ s, s ∈ order ↔ s ∈ g.locals) → ∀ empty : Frame, empty.locals = ∅ →
    (empty.restore f.locals order).locals = f.locals

/-! ## Stores on both sides -/

/-- Values cover as many words as what is known of them says. -/
theorem total_words_of_kinds {args : List Value} {tags : List Tag} (kinds : args.map Value.kind = tags.map Tag.kind) :
    total Value.words args = total Tag.words tags := by
  induction args generalizing tags with
  | nil =>
    obtain rfl : tags = [] := by simpa using kinds.symm
    rfl
  | cons v vs ih =>
    cases tags with
    | nil => simp at kinds
    | cons t ts =>
      rw [List.map_cons, List.map_cons, List.cons.injEq] at kinds
      rw [total_cons, total_cons, Value.words_of_kind kinds.1, ih kinds.2]

namespace Frame.Matches

variable {f : Frame} {g : SymFrame}

/-- Arguments of the kinds that are known of them are laid out on both sides alike.  Values of one kind cover as
many words, so the next ones are laid out from the same slot on. -/
theorem layOut (h : f.Matches g) {args : List Value} {tags : List Tag}
    (kinds : args.map Value.kind = tags.map Tag.kind) (slot : Nat) :
    (f.layOut slot args).Matches { g with locals := SymFrame.layOut g.locals slot tags } := by
  induction args generalizing f g tags slot with
  | nil =>
    obtain rfl : tags = [] := by simpa using kinds.symm
    exact h
  | cons v vs ih =>
    cases tags with
    | nil => simp at kinds
    | cons t ts =>
      rw [List.map_cons, List.map_cons, List.cons.injEq] at kinds
      have laid := ih (h.setLocal kinds.1 (UInt16.ofNat slot)) kinds.2 (slot + v.words)
      rw [Value.words_of_kind kinds.1] at laid
      rwa [Frame.layOut, Value.words_of_kind kinds.1]

/-- Stores of values of which the kinds are known keep frames that match in that state. -/
theorem storeAll (h : f.Matches g) (stores : List SlotStore) : (f.storeAll stores).Matches (g.storeAll stores) := by
  induction stores generalizing f g with
  | nil => exact h
  | cons s stores ih => exact ih (h.setLocal s.known s.slot)

theorem mem_locals (h : f.Matches g) (s : Slot) : s ∈ g.locals ↔ s ∈ f.locals := by
  have slots := h.slots s
  rw [Std.ExtTreeMap.mem_iff_isSome_getElem?, Std.ExtTreeMap.mem_iff_isSome_getElem?,
    ← Option.isSome_map (f := Tag.kind), ← slots, Option.isSome_map]

end Frame.Matches

theorem Frame.apart_storeAll {f : Frame} (h : f.locals.Apart) (stores : List SlotStore) :
    (f.storeAll stores).locals.Apart := by
  induction stores generalizing f with
  | nil => exact h
  | cons s stores ih => exact ih (h.store s.slot s.value)

/-- Nothing is set at the upper slot of a value of two words. -/
theorem LocalValues.Apart.upper {m : LocalValues} (h : m.Apart) {s s' : Slot} {v : Value} (hs : m[s]? = some v)
    (wide : v.isWide = true) (next : s.toNat + 1 = s'.toNat) : m[s']? = none := by
  refine Option.eq_none_iff_forall_ne_some.2 fun w hs' => ?_
  have ends := h.words_le hs hs' (by omega)
  rw [Value.words, of_decide_eq_true wide, Width.words] at ends
  omega

/-! ## Slots that are stored again -/

/-- A value that is held, and that nothing held overlaps, is stored into a part of what is held without ending any of
it. -/
theorem LocalValues.Apart.getElem?_store_held {held m : LocalValues} (apart : held.Apart)
    (part : ∀ (s : Slot) v, m[s]? = some v → held[s]? = some v) {slot : Slot} {v : Value} (hv : held[slot]? = some v)
    (s : Slot) : (m.store slot v)[s]? = if s = slot then held[s]? else m[s]? := by
  rw [getElem?_store]
  by_cases own : s = slot
  · rw [if_pos own, if_pos own, own, hv]
  · rw [if_neg own, if_neg own]
    cases hw : m[s]? with
    | none => rfl
    | some w =>
      have free := apart slot v s w hv (part s w hw) (Ne.symm own)
      simp [free]

namespace Frame

variable {f : Frame} {g : SymFrame} {held : LocalValues}

/-- One slot is stored again. -/
theorem getElem?_restore_one (apart : held.Apart) (part : ∀ (s : Slot) v, f.locals[s]? = some v → held[s]? = some v)
    (slot s : Slot) : (f.restore held [slot]).locals[s]? = if s = slot then held[s]? else f.locals[s]? := by
  cases hv : held[slot]? with
  | some v =>
    have one : f.restore held [slot] = f.setLocal slot v := by
      rw [restore, List.foldl_cons, hv, List.foldl_nil]
    rw [one]
    exact apart.getElem?_store_held part hv s
  | none =>
    have one : f.restore held [slot] = f := by
      rw [restore, List.foldl_cons, hv, List.foldl_nil]
    rw [one]
    split
    · next own =>
      subst own
      cases hw : f.locals[s]? with
      | none => exact hv.symm
      | some w => exact (part s w hw).symm
    · rfl

/-- Slots are stored again without one of them ending another.  What is there after the first slot was held as
well, so the others do not end it. -/
theorem getElem?_restore (apart : held.Apart) (part : ∀ (s : Slot) v, f.locals[s]? = some v → held[s]? = some v)
    (order : List Slot) (s : Slot) :
    (f.restore held order).locals[s]? = if s ∈ order then held[s]? else f.locals[s]? := by
  induction order generalizing f with
  | nil => simp [restore]
  | cons slot order ih =>
    have first := getElem?_restore_one apart part slot
    have part' (s : Slot) (v : Value) (hs : (f.restore held [slot]).locals[s]? = some v) : held[s]? = some v := by
      rw [first s] at hs
      split at hs
      · exact hs
      · exact part s v hs
    refine (ih part').trans ?_
    rw [first s]
    by_cases own : s = slot <;> by_cases later : s ∈ order <;> simp [own, later]

/-- Slots that hold nothing else are stored again as they were. -/
theorem locals_restore (apart : held.Apart) (empty : f.locals = ∅) {order : List Slot}
    (complete : ∀ s v, held[s]? = some v → s ∈ order) : (f.restore held order).locals = held := by
  refine Std.ExtTreeMap.ext_getElem? fun s => ?_
  rw [getElem?_restore apart (fun s v hs => by simp [empty] at hs)]
  split
  · rfl
  · next absent =>
    rw [empty]
    exact (Option.eq_none_iff_forall_ne_some.2 fun v hs => absent (complete s v hs)).symm

/-- Frames that match agree on the slots, as long as no two values overlap. -/
theorem Matches.inStep (h : f.Matches g) (apart : f.locals.Apart) : f.InStep g where
  recorded := h.mem_locals
  kinds := by
    intro s v t hv ht
    obtain ⟨u, hu, kind⟩ := h.getLocal hv
    obtain rfl := Option.some.inj (ht.symm.trans hu)
    exact kind
  upper := by
    intro s s' v hv wide next
    have unset : s' ∉ f.locals := by
      rw [Std.ExtTreeMap.mem_iff_isSome_getElem?, apart.upper hv wide next]
      exact Bool.false_ne_true
    exact ⟨fun recorded => unset ((h.mem_locals s').1 recorded), unset⟩
  restored := by
    intro order complete empty unset
    refine locals_restore apart unset fun s v hs => ?_
    rw [complete, h.mem_locals, Std.ExtTreeMap.mem_iff_isSome_getElem?, hs]
    rfl

end Frame

/-! ## The frames that a call starts from -/

/-- A method whose arguments are of the declared kinds, and few enough, is entered on both sides alike. -/
theorem exists_matches_of_declared {className : String} {m : Method} {signature : Signature} {args : List Value}
    (parsed : m.signature = .ok signature)
    (declared : args.map Value.kind = (m.entryTags className signature).map Tag.kind)
    (room : total Value.words args ≤ 65535) :
    ∃ f g, Frame.enter m args = .ok f ∧ SymFrame.root className m = .ok g ∧ f.Matches g ∧ f.locals.Apart := by
  have words : m.receiverSlots + signature.slots < 65536 :=
    calc m.receiverSlots + signature.slots = total Tag.words (m.entryTags className signature) :=
          m.total_entryTags.symm
      _ = total Value.words args := (total_words_of_kinds declared).symm
      _ < 65536 := Nat.lt_succ_of_le room
  have rooted : SymFrame.root className m = .ok { locals := SymFrame.layOut ∅ 0 (m.entryTags className signature) } := by
    have known : AnalysisError.ofDescriptor m.signature = .ok signature := by
      rw [parsed]
      rfl
    exact bind_eq_ok.2 ⟨signature, known, bind_eq_ok.2 ⟨_, if_pos words, rfl⟩⟩
  have unset : Frame.Matches { method := m } {} := ⟨rfl, fun s => by simp⟩
  exact ⟨_, _, if_pos (by omega), rooted, unset.layOut declared 0, Frame.apart_layOut LocalValues.apart_empty⟩

/-- Started from the arguments of a call and changed by the same stores, a frame and a symbolic frame agree on the
slots: the same slots are set, to values of the same kinds, and none of them is the upper slot of another; so the
recorded slots can be stored again, in whatever order. -/
theorem slots_in_step {className : String} {m : Method} {signature : Signature} {args : List Value}
    (parsed : m.signature = .ok signature)
    (declared : args.map Value.kind = (m.entryTags className signature).map Tag.kind)
    (room : total Value.words args ≤ 65535) (stores : List SlotStore) :
    ∃ f g, Frame.enter m args = .ok f ∧ SymFrame.root className m = .ok g ∧
      (f.storeAll stores).InStep (g.storeAll stores) := by
  obtain ⟨f, g, entered, rooted, matched, apart⟩ := exists_matches_of_declared parsed declared room
  exact ⟨f, g, entered, rooted, (matched.storeAll stores).inStep (f.apart_storeAll apart stores)⟩

namespace InStep

/-- A method with an int and a long as parameters. -/
def paired : Method := ⟨staticFlag, "run", "(IJ)V", 3, {}⟩

/-- Stores that end the upper half of the long, the int below it, and a long at the very last slot. -/
def overlapping : List SlotStore :=
  [⟨2, .int 7, .int, rfl⟩, ⟨0, .double 0, .double, rfl⟩, ⟨65535, .long 1, .long, rfl⟩,
    ⟨65534, .double 0, .double, rfl⟩]

end InStep

/-- Stores that overlap the arguments, and one another at the end of the slots. -/
theorem overlapping_in_step :
    InStep.paired.signature = .ok ⟨[.int, .long], none⟩ ∧
      [Value.int 1, .long 2].map Value.kind =
        (InStep.paired.entryTags "app/C" ⟨[.int, .long], none⟩).map Tag.kind ∧
      total Value.words [.int 1, .long 2] ≤ 65535 ∧
      ∃ f g, Frame.enter InStep.paired [.int 1, .long 2] = .ok f ∧ SymFrame.root "app/C" InStep.paired = .ok g ∧
        (f.storeAll InStep.overlapping).InStep (g.storeAll InStep.overlapping) := by
  have parsed : InStep.paired.signature = .ok ⟨[.int, .long], none⟩ := eq_ok_of_toOption (by decide +kernel)
  have declared : [Value.int 1, .long 2].map Value.kind =
      (InStep.paired.entryTags "app/C" ⟨[.int, .long], none⟩).map Tag.kind := by decide
  have room : total Value.words [.int 1, .long 2] ≤ 65535 := by decide
  exact ⟨parsed, declared, room, slots_in_step parsed declared room InStep.overlapping⟩

end Suspension
