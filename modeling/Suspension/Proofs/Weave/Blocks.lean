import Suspension.Proofs.Machine.Services
import Suspension.Proofs.Success

/-!
# What the inserted parts do

Each part of suspendable code, performed in a frame that holds the handle of a live context.

## Main definitions
* `slotIndex`: where a store keeps a slot.
* `ReservedSlots.Spaced`: the reserved slots lie one after the other.

## Main results
* `Plan.performs_recordSlot`, `Plan.performs_recordIncrement`: the copies of local slots.
* `Plan.performs_saveStack`, `Plan.performs_restoreStack`: the operand stack goes into its store and back.
* `Plan.performs_restoreLocals`: the local slots are fetched back.
-/

namespace Suspension

variable {σ : Type}

/-- The index under which a store keeps a slot. -/
def slotIndex (s : Slot) : Int32 := Int32.ofNat s.toNat

theorem slotIndex_inj {s t : Slot} : slotIndex s = slotIndex t ↔ s = t := by
  refine ⟨fun h => ?_, fun h => h ▸ rfl⟩
  have hs := s.toNat_lt
  have ht := t.toNat_lt
  have := congrArg Int32.toInt h
  rw [slotIndex, slotIndex, Int32.toInt_ofNat_of_lt (by omega), Int32.toInt_ofNat_of_lt (by omega)]
    at this
  exact UInt16.toNat_inj.1 (by omega)

/-- The reserved slots lie one after the other, and the last one has room for two words. -/
structure ReservedSlots.Spaced (s : ReservedSlots) : Prop where
  callTarget : s.callTarget.toNat = s.context.toNat + 1
  answer : s.answer.toNat = s.context.toNat + 2
  temp : s.temp.toNat = s.context.toNat + 3

theorem ReservedSlots.spaced_above {base : UInt16} {s : ReservedSlots} (h : above base = .ok s) :
    s.Spaced ∧ s.context = base := by
  unfold above at h
  split at h
  · next hb =>
    cases h
    refine ⟨⟨?_, ?_, ?_⟩, rfl⟩ <;>
    · rw [UInt16.toNat_add]
      exact Nat.mod_eq_of_lt (by simp; omega)
  · cases h

namespace Plan

variable {p : Plan} (cls : Class) (host : Host σ) {f : Frame} {w : World σ} {id : ContextId}
  {c : Context} {v : Value} {rest : List Value} {slot : Slot} {k : Storage}

/-! ## Services of the context -/

theorem carries_loadContext {r : ObjectId} (h : f.locals[p.slots.context]? = some (.object r)) :
    p.loadContext.Carries cls host ⟨f, w⟩ ⟨f.moved 1 (.object r :: f.stack), w⟩ :=
  Carries.load h rfl

/-- A service of the context that takes no argument. -/
theorem performs_service (holds : f.Holds p.slots.context w id c) (s : ContextService)
    (hs : s.signature.params = []) {answer : Option Value} {w' : World σ}
    (hcall : ∀ fuel, (w.paying fuel).contexts.get? id = some c →
      s.apply [] id (w.paying fuel) = .ok answer (w'.paying fuel)) :
    Performs cls host [p.loadContext, callService s.ref] ⟨f, w⟩
      ⟨f.moved 2 (Carries.received s.signature.result answer f.stack), w'⟩ := by
  obtain ⟨r, hr, ho⟩ := holds.handle
  have call : (callService s.ref).Carries cls host ⟨f.moved 1 (.object r :: f.stack), w⟩
      ⟨f.moved 2 (Carries.received s.signature.result answer f.stack), w'⟩ :=
    Carries.contextService [] s (congrArg List.length hs) rfl ho fun fuel => hcall fuel holds.live
  exact .cons (carries_loadContext cls host hr) (.one call)

/-- Pushes the handle of the store of the local slots. -/
theorem performs_localVars (holds : f.Holds p.slots.context w id c) :
    ∃ r w', Performs cls host p.localVars ⟨f, w⟩ ⟨f.moved 2 (.object r :: f.stack), w'⟩ ∧
      w.Reaches id c w' ∧ w'.heap.get? r = some (.handle .localVars id) := by
  have asked (fuel : Option Nat) (live : (w.paying fuel).contexts.get? id = some c) :
      ContextService.getLocalVars.apply [] id (w.paying fuel) =
        .ok (some (.object (w.heap.handle id .localVars).1))
          ((w.withHeap (w.heap.handle id .localVars).2).paying fuel) := by
    simp [ContextService.apply, World.context_apply live]
    rfl
  exact ⟨_, _, performs_service cls host holds .getLocalVars rfl asked,
    World.reaches_withHeap holds.live (Heap.grows_handle ..), Heap.get?_handle holds.intact ..⟩

/-- Pushes the handle of the store of the operand stack. -/
theorem performs_localStack (holds : f.Holds p.slots.context w id c) :
    ∃ r w', Performs cls host p.localStack ⟨f, w⟩ ⟨f.moved 2 (.object r :: f.stack), w'⟩ ∧
      w.Reaches id c w' ∧ w'.heap.get? r = some (.handle .localStack id) := by
  have asked (fuel : Option Nat) (live : (w.paying fuel).contexts.get? id = some c) :
      ContextService.getLocalStack.apply [] id (w.paying fuel) =
        .ok (some (.object (w.heap.handle id .localStack).1))
          ((w.withHeap (w.heap.handle id .localStack).2).paying fuel) := by
    simp [ContextService.apply, World.context_apply live]
    rfl
  exact ⟨_, _, performs_service cls host holds .getLocalStack rfl asked,
    World.reaches_withHeap holds.live (Heap.grows_handle ..), Heap.get?_handle holds.intact ..⟩

/-- The context continues nowhere from now on. -/
theorem performs_clearLabel (holds : f.Holds p.slots.context w id c) :
    Performs cls host [p.loadContext, callService Service.clearLabel] ⟨f, w⟩
      ⟨f.moved 2 f.stack, w.replace id { c with label := noLabel }⟩ := by
  have cleared (fuel : Option Nat) (live : (w.paying fuel).contexts.get? id = some c) :
      ContextService.clearLabel.apply [] id (w.paying fuel) =
        .ok none ((w.replace id { c with label := noLabel }).paying fuel) := by
    simp [ContextService.apply, World.changeContext_apply live]
    rfl
  exact performs_service cls host holds .clearLabel rfl cleared

/-- The site at which the context continues is fetched. -/
theorem performs_getLabel (holds : f.Holds p.slots.context w id c) :
    Performs cls host [p.loadContext, callService Service.getLabel] ⟨f, w⟩
      ⟨f.moved 2 (.int c.label :: f.stack), w⟩ := by
  have asked (fuel : Option Nat) (live : (w.paying fuel).contexts.get? id = some c) :
      ContextService.getLabel.apply [] id (w.paying fuel) =
        .ok (some (.int c.label)) (w.paying fuel) := by
    simp [ContextService.apply, World.context_apply live]
  exact performs_service cls host holds .getLabel rfl asked

/-- The answer that was handed to the context is taken. -/
theorem performs_getCallAnswer (holds : f.Holds p.slots.context w id c) :
    Performs cls host [p.loadContext, callService Service.getCallAnswer] ⟨f, w⟩
      ⟨f.moved 2 (c.callAnswer.getD .null :: f.stack),
        w.replace id { c with callAnswer := none }⟩ := by
  have taken (fuel : Option Nat) (live : (w.paying fuel).contexts.get? id = some c) :
      ContextService.getCallAnswer.apply [] id (w.paying fuel) =
        .ok (some (c.callAnswer.getD .null))
          ((w.replace id { c with callAnswer := none }).paying fuel) := by
    simp [ContextService.apply, World.context_apply live, World.changeContext_apply live]
    rfl
  have performed := performs_service cls host holds .getCallAnswer rfl taken
  exact performed

/-- The site at which the context is to continue is noted. -/
theorem performs_setLabel (holds : f.Holds p.slots.context w id c) (n : Int32) :
    Performs cls host [p.loadContext, pushInt n, callService Service.setLabel] ⟨f, w⟩
      ⟨f.moved 3 f.stack, w.replace id { c with label := n }⟩ := by
  obtain ⟨r, hr, ho⟩ := holds.handle
  have noted (fuel : Option Nat) :
      ContextService.setLabel.apply [.int n] id (w.paying fuel) =
        .ok none ((w.replace id { c with label := n }).paying fuel) := by
    have live : (w.paying fuel).contexts.get? id = some c := holds.live
    simp [ContextService.apply, argument, Value.asInt, World.changeContext_apply live]
    rfl
  have call : (callService Service.setLabel).Carries cls host
      ⟨f.moved 2 (.int n :: .object r :: f.stack), w⟩
      ⟨f.moved 3 f.stack, w.replace id { c with label := n }⟩ :=
    Carries.contextService [.int n] .setLabel rfl rfl ho noted
  exact .cons (carries_loadContext cls host hr) (.cons (Carries.pushInt n) (.one call))

/-! ## Copies of local slots -/

/-- A slot is copied into the store of the local slots. -/
theorem performs_recordSlot (holds : f.Holds p.slots.context w id c)
    (hv : f.locals[slot]? = some v) (hk : v.kind.mover = k) :
    ∃ w', Performs cls host (p.recordSlot k slot) ⟨f, w⟩
        ⟨f.moved (p.recordSlot k slot).length f.stack, w'⟩ ∧
      w.Reaches id { c with vars := c.vars.put (slotIndex slot) v } w' := by
  obtain ⟨r, w₁, asked, reaches, hr⟩ := performs_localVars cls host holds
  have live : w₁.contexts.get? id = some c := holds.live_after reaches
  have call : (callService (Service.store k)).Carries cls host
      ⟨f.moved 4 (v :: .int (slotIndex slot) :: .object r :: f.stack), w₁⟩
      ⟨f.moved 5 f.stack, w₁.replace id { c with vars := c.vars.put (slotIndex slot) v }⟩ :=
    Carries.varsService [.int (slotIndex slot), v] (.store k) rfl rfl hr live
      (StoreService.apply_store hk)
  exact ⟨_, asked.append (.cons (Carries.pushInt _) (.cons (Carries.load hv hk) (.one call))),
    reaches.trans (World.reaches_replace _)⟩

/-- What is added to a slot is added to its copy. -/
theorem performs_recordIncrement (holds : f.Holds p.slots.context w id c) (amount : Int16) :
    ∃ w', Performs cls host (p.record (.iinc slot amount)) ⟨f, w⟩
        ⟨f.moved (p.record (.iinc slot amount)).length f.stack, w'⟩ ∧
      w.Reaches id
        { c with vars := c.vars.increment (slotIndex slot) amount.toInt32 } w' := by
  obtain ⟨r, w₁, asked, reaches, hr⟩ := performs_localVars cls host holds
  have live : w₁.contexts.get? id = some c := holds.live_after reaches
  have call : (callService Service.incrementInt).Carries cls host
      ⟨f.moved 4 (.int amount.toInt32 :: .int (slotIndex slot) :: .object r :: f.stack), w₁⟩
      ⟨f.moved 5 f.stack, w₁.replace id
        { c with vars := c.vars.increment (slotIndex slot) amount.toInt32 }⟩ :=
    Carries.varsService [.int (slotIndex slot), .int amount.toInt32] .increment rfl rfl hr live
      StoreService.apply_increment
  exact ⟨_, asked.append (.cons (Carries.pushInt _) (.cons (Carries.pushInt _) (.one call))),
    reaches.trans (World.reaches_replace _)⟩

/-! ## The operand stack -/

theorem storageFor_eq_ok {site : Nat} {t : Tag} :
    storageFor site t = .ok k ↔ t.kind.storage? = some k := by
  unfold storageFor
  split <;> simp_all

theorem mover_of_storage? {κ : Kind} (h : κ.storage? = some k) : κ.mover = k := by
  cases κ <;> simp_all [Kind.storage?, Kind.mover]

theorem saveStack_cons {site : Nat} {t : Tag} {ts : List Tag} {code : List Instr} :
    p.saveStack site (t :: ts) = .ok code ↔
      ∃ first more, p.saveEntry site t = .ok first ∧ p.saveStack site ts = .ok more ∧
        code = first ++ more := by
  simp only [saveStack, List.mapM_cons, bind_eq_ok, pure, Except.pure, Except.ok.injEq]
  constructor
  · rintro ⟨_, ⟨first, h, more, hs, rfl⟩, rfl⟩
    exact ⟨first, _, h, ⟨more, hs, rfl⟩, by simp⟩
  · rintro ⟨first, _, h, ⟨more, hs, rfl⟩, rfl⟩
    exact ⟨_, ⟨first, h, more, hs, rfl⟩, by simp⟩

/-- The topmost entry goes into the store of the operand stack.  The value is parked in its slot, while the
handle goes below it on the stack. -/
theorem performs_saveEntry {site : Nat} {t : Tag} {code : List Instr} (spaced : p.slots.Spaced)
    (hcode : p.saveEntry site t = .ok code) (holds : f.Holds p.slots.context w id c)
    (hstack : f.stack = v :: rest) (hv : v.kind = t.kind) :
    ∃ w', Performs cls host code ⟨f, w⟩
        ⟨(f.setLocal p.slots.temp v).moved code.length rest, w'⟩ ∧
      w.Reaches id { c with stack := c.stack.push v } w' := by
  simp only [saveEntry, bind_eq_ok, storageFor_eq_ok, pure, Except.pure, Except.ok.injEq] at hcode
  obtain ⟨k, hk, rfl⟩ := hcode
  have hk : v.kind.mover = k := mover_of_storage? (hv ▸ hk)
  have kept : (f.setLocal p.slots.temp v).locals[p.slots.context]? = f.locals[p.slots.context]? :=
    Frame.getElem?_setLocal_below (by have := spaced.temp; omega)
  have holds' : ((f.setLocal p.slots.temp v).moved 1 rest).Holds p.slots.context w id c :=
    holds.after (World.Reaches.refl holds.live) kept
  obtain ⟨r, w₁, asked, reaches, hr⟩ := performs_localStack cls host holds'
  have live : w₁.contexts.get? id = some c := holds.live_after reaches
  have call : (callService (Service.push k)).Carries cls host
      ⟨(f.setLocal p.slots.temp v).moved 4 (v :: .object r :: rest), w₁⟩
      ⟨(f.setLocal p.slots.temp v).moved 5 rest,
        w₁.replace id { c with stack := c.stack.push v }⟩ :=
    Carries.stackService [v] (.push k) rfl rfl hr live (StoreService.apply_push hk)
  have again : (f.setLocal p.slots.temp v).locals[p.slots.temp]? = some v := by simp
  have parked : Performs cls host [.store k p.slots.temp] ⟨f, w⟩
      ⟨(f.setLocal p.slots.temp v).moved 1 rest, w⟩ := .one (Carries.store hstack hk)
  exact ⟨_, (parked.append asked).append (.cons (Carries.load again hk) (.one call)),
    reaches.trans (World.reaches_replace _)⟩

/-- The operand stack goes into its store, top first.  What is on top is saved first, so that it lies deepest in
the store. -/
theorem performs_saveStack {site : Nat} {tags : List Tag} {values : List Value}
    {code : List Instr} (spaced : p.slots.Spaced) (hcode : p.saveStack site tags = .ok code)
    (holds : f.Holds p.slots.context w id c) (hstack : f.stack = values ++ rest)
    (hv : values.map Value.kind = tags.map Tag.kind) :
    ∃ l w', Performs cls host code ⟨f, w⟩ ⟨(f.withLocals l).moved code.length rest, w'⟩ ∧
      (∀ s : Slot, s.toNat + 2 ≤ p.slots.temp.toNat → l[s]? = f.locals[s]?) ∧
      w.Reaches id { c with stack := ⟨c.stack.slots, values.reverse ++ c.stack.entries⟩ } w' := by
  induction tags generalizing f w c values code with
  | nil =>
    obtain rfl : values = [] := by simpa using hv
    cases hcode
    refine ⟨f.locals, w, ?_, fun _ _ => rfl, .refl holds.live⟩
    have : f.stack = rest := hstack
    subst this
    exact .nil _
  | cons t ts ih =>
    cases values with
    | nil => simp at hv
    | cons v vs =>
      simp only [List.map_cons, List.cons.injEq] at hv
      obtain ⟨first, more, hfirst, hmore, rfl⟩ := saveStack_cons.1 hcode
      obtain ⟨w₁, saved, reaches⟩ :=
        performs_saveEntry cls host spaced hfirst holds hstack hv.1
      have kept : ∀ s : Slot, s.toNat + 2 ≤ p.slots.temp.toNat →
          (f.setLocal p.slots.temp v).locals[s]? = f.locals[s]? :=
        fun s hs => Frame.getElem?_setLocal_below hs
      have holds' : ((f.setLocal p.slots.temp v).moved first.length (vs ++ rest)).Holds
          p.slots.context w₁ id { c with stack := c.stack.push v } :=
        holds.after reaches (kept _ (by have := spaced.temp; omega))
      obtain ⟨l, w₂, more', same, reaches'⟩ := ih hmore holds' rfl hv.2
      refine ⟨l, w₂, ?_, fun s hs => (same s hs).trans (kept s hs), ?_⟩
      · simpa [Frame.withLocals, Frame.moved, Nat.add_assoc] using saved.append more'
      · simpa [Store.push] using reaches.trans reaches'

/-- What is known of a value is checked when it is fetched back. -/
theorem performs_castTo {t : Tag} (hstack : f.stack = v :: rest) (fits : v.Fits host w t) :
    Performs cls host (castTo t) ⟨f, w⟩ ⟨f.moved (castTo t).length f.stack, w⟩ := by
  unfold castTo
  cases ht : t.castTarget with
  | none => exact .nil _
  | some target => exact .one (Carries.checkCast hstack (fits target ht))

/-- One entry is fetched back, if it is of its kind.  The store is asked for its top entry, which is dropped and
cast. -/
theorem performs_restoreEntry {site : Nat} {t : Tag} {code : List Instr} {entries : List Value}
    (hcode : p.restoreEntry site t = .ok code) (holds : f.Holds p.slots.context w id c)
    (hc : c.stack.entries = v :: entries) (hv : v.kind = t.kind) (fits : v.Fits host w t) :
    ∃ w', Performs cls host code ⟨f, w⟩ ⟨f.moved code.length (v :: f.stack), w'⟩ ∧
      w.Reaches id { c with stack := ⟨c.stack.slots, entries⟩ } w' := by
  simp only [restoreEntry, bind_eq_ok, storageFor_eq_ok, pure, Except.pure, Except.ok.injEq] at hcode
  obtain ⟨k, hk, rfl⟩ := hcode
  obtain ⟨r, w₁, asked, reaches, hr⟩ := performs_localStack cls host holds
  have live : w₁.contexts.get? id = some c := holds.live_after reaches
  have top : c.stack.top k = v := by
    have : v.kind = k.kind := by
      rw [hv]
      revert hk
      cases t.kind <;> simp [Kind.storage?] <;> rintro rfl <;> rfl
    simp [Store.top, hc, Store.read, this]
  have popped : c.stack.pop = ⟨c.stack.slots, entries⟩ := by simp [Store.pop, hc]
  have call : (callService (Service.pop k)).Carries cls host
      ⟨f.moved 2 (.object r :: f.stack), w₁⟩
      ⟨f.moved 3 (c.stack.top k :: f.stack), w₁.replace id { c with stack := c.stack.pop }⟩ :=
    Carries.stackService [] (.pop k) rfl rfl hr live StoreService.apply_pop
  rw [top, popped] at call
  have reaches' := reaches.trans (World.reaches_replace { c with stack := ⟨c.stack.slots, entries⟩ })
  have cast := performs_castTo cls host (f := f.moved 3 (v :: f.stack)) rfl (fits.after reaches')
  refine ⟨_, ?_, reaches'⟩
  rw [List.length_append, ← Frame.moved_moved (a := v :: f.stack)]
  exact (asked.append (.one call)).append cast

theorem restoreStack_eq {site : Nat} {tags : List Tag} :
    p.restoreStack site tags = List.flatten <$> tags.reverse.mapM (p.restoreEntry site) := by
  rw [restoreStack, map_eq_pure_bind]

/-- Entries are fetched back one after the other, so the last of them is on top. -/
theorem performs_restoreEntries {site : Nat} {tags : List Tag} {values entries : List Value}
    {codes : List (List Instr)} (hcode : tags.mapM (p.restoreEntry site) = .ok codes)
    (holds : f.Holds p.slots.context w id c) (hc : c.stack.entries = values ++ entries)
    (hv : values.map Value.kind = tags.map Tag.kind)
    (fits : ∀ i (hi : i < values.length) (ht : i < tags.length), values[i].Fits host w tags[i]) :
    ∃ w', Performs cls host codes.flatten ⟨f, w⟩
        ⟨f.moved codes.flatten.length (values.reverse ++ f.stack), w'⟩ ∧
      w.Reaches id { c with stack := ⟨c.stack.slots, entries⟩ } w' := by
  induction tags generalizing f w c values codes with
  | nil =>
    obtain rfl : values = [] := by simpa using hv
    cases hcode
    have : c.stack = ⟨c.stack.slots, entries⟩ := by rw [← show c.stack.entries = entries from hc]
    rw [← this]
    exact ⟨w, .nil _, .refl holds.live⟩
  | cons t ts ih =>
    cases values with
    | nil => simp at hv
    | cons v vs =>
      simp only [List.map_cons, List.cons.injEq] at hv
      simp only [List.mapM_cons, bind_eq_ok, pure, Except.pure, Except.ok.injEq] at hcode
      obtain ⟨first, hfirst, more, hmore, rfl⟩ := hcode
      obtain ⟨w₁, fetched, reaches⟩ := performs_restoreEntry cls host hfirst holds hc hv.1
        (fits 0 (by simp) (by simp))
      have holds' : (f.moved first.length (v :: f.stack)).Holds p.slots.context w₁ id
          { c with stack := ⟨c.stack.slots, vs ++ entries⟩ } := holds.after reaches rfl
      have fits' : ∀ i (hi : i < vs.length) (ht : i < ts.length), vs[i].Fits host w₁ ts[i] :=
        fun i hi ht => (fits (i + 1) (by simpa using hi) (by simpa using ht)).after reaches
      obtain ⟨w₂, more', reaches'⟩ := ih hmore holds' rfl hv.2 fits'
      refine ⟨w₂, ?_, reaches.trans reaches'⟩
      have all := fetched.append more'
      simp only [Frame.moved_moved, Frame.stack_moved] at all
      simpa using all

/-! ## Local slots -/

/-- One slot is fetched back. -/
theorem performs_restoreLocal {site : Nat} {t : Tag} {code : List Instr}
    (hcode : p.restoreLocal site slot t = .ok code) (holds : f.Holds p.slots.context w id c)
    (hv : c.vars.recall t.kind.mover (slotIndex slot) = v) (fits : v.Fits host w t) :
    ∃ w', Performs cls host code ⟨f, w⟩ ⟨(f.setLocal slot v).moved code.length f.stack, w'⟩ ∧
      w.Reaches id c w' := by
  simp only [restoreLocal, bind_eq_ok, storageFor_eq_ok, pure, Except.pure, Except.ok.injEq] at hcode
  obtain ⟨k, hk, rfl⟩ := hcode
  obtain rfl : t.kind.mover = k := mover_of_storage? hk
  obtain ⟨r, w₁, asked, reaches, hr⟩ := performs_localVars cls host holds
  have live : w₁.contexts.get? id = some c := holds.live_after reaches
  have call : (callService (Service.get t.kind.mover)).Carries cls host
      ⟨f.moved 3 (.int (slotIndex slot) :: .object r :: f.stack), w₁⟩
      ⟨f.moved 4 (c.vars.recall t.kind.mover (slotIndex slot) :: f.stack), w₁.replace id c⟩ :=
    Carries.varsService [.int (slotIndex slot)] (.get t.kind.mover) rfl rfl hr live
      StoreService.apply_get
  rw [hv] at call
  have reaches' := reaches.trans (World.reaches_replace c)
  have cast := performs_castTo cls host (f := f.moved 4 (v :: f.stack)) rfl (fits.after reaches')
  have stored : (Instr.store t.kind.mover slot).Carries cls host
      ⟨f.moved (4 + (castTo t).length) (v :: f.stack), w₁.replace id c⟩
      ⟨(f.setLocal slot v).moved (4 + (castTo t).length + 1) f.stack, w₁.replace id c⟩ :=
    Carries.store rfl (hv ▸ Store.mover_recall ..)
  refine ⟨_, ?_, reaches'⟩
  rw [List.length_append, List.length_append, ← Frame.moved_moved (a := f.stack)]
  simp only [Frame.moved_moved] at cast
  have all := ((asked.append (.cons (Carries.pushInt _) (.one call))).append cast).append (.one stored)
  exact all

end Plan

namespace LocalValues

/-- The slots after some of them were fetched back from a store. -/
def refill (m : LocalValues) (vars : Store) (entries : List (Slot × Tag)) : LocalValues :=
  entries.foldl (fun m e => m.store e.1 (vars.recall e.2.kind.mover (slotIndex e.1))) m

/-- A slot above all that are fetched back is left alone. -/
theorem getElem?_refill_above {m : LocalValues} {vars : Store} {entries : List (Slot × Tag)} {s : Slot}
    (h : ∀ e ∈ entries,
      e.1.toNat + (vars.recall e.2.kind.mover (slotIndex e.1)).words ≤ s.toNat) :
    (m.refill vars entries)[s]? = m[s]? := by
  induction entries generalizing m with
  | nil => rfl
  | cons e es ih =>
    have rest := ih (m := m.store e.1 (vars.recall e.2.kind.mover (slotIndex e.1)))
      fun x hx => h x (by simp [hx])
    exact rest.trans (getElem?_store_above (h e (by simp)))

/-- A value that shares no word with what is fetched back is left alone. -/
theorem getElem?_refill_of_free {m : LocalValues} {vars : Store} {entries : List (Slot × Tag)}
    {s : Slot} {u : Value} (hs : m[s]? = some u)
    (free : ∀ e ∈ entries, e.1 ≠ s ∧
      overlap e.1 (vars.recall e.2.kind.mover (slotIndex e.1)) s u = false) :
    (m.refill vars entries)[s]? = some u := by
  induction entries generalizing m with
  | nil => exact hs
  | cons e es ih =>
    obtain ⟨ne, apart⟩ := free e (by simp)
    refine ih ?_ fun x hx => free x (by simp [hx])
    rw [getElem?_store, if_neg (Ne.symm ne), hs]
    simp [apart]

/-- Values that are apart are all fetched back.  Later ones end none that was fetched before. -/
theorem getElem?_refill {m values : LocalValues} {vars : Store} {entries : List (Slot × Tag)}
    (apart : values.Apart) (nodup : entries.Pairwise fun a b => a.1 ≠ b.1)
    (held : ∀ e ∈ entries, values[e.1]? = some (vars.recall e.2.kind.mover (slotIndex e.1))) :
    ∀ e ∈ entries, (m.refill vars entries)[e.1]? = values[e.1]? := by
  induction entries generalizing m with
  | nil => simp
  | cons e es ih =>
    obtain ⟨first, others⟩ := List.pairwise_cons.1 nodup
    intro x hx
    rcases List.mem_cons.1 hx with rfl | hx
    · rw [held x (by simp)]
      have stored : (m.store x.1 (vars.recall x.2.kind.mover (slotIndex x.1)))[x.1]? =
          some (vars.recall x.2.kind.mover (slotIndex x.1)) := by
        rw [getElem?_store, if_pos rfl]
      have free : ∀ e ∈ es, e.1 ≠ x.1 ∧ overlap e.1 (vars.recall e.2.kind.mover (slotIndex e.1)) x.1
          (vars.recall x.2.kind.mover (slotIndex x.1)) = false := fun y hy =>
        ⟨Ne.symm (first y hy), apart _ _ _ _ (held y (by simp [hy])) (held x (by simp))
          (Ne.symm (first y hy))⟩
      have kept := getElem?_refill_of_free stored free
      exact kept
    · exact ih others (fun y hy => held y (by simp [hy])) x hx

end LocalValues

namespace Plan

variable {p : Plan} (cls : Class) (host : Host σ) {f : Frame} {w : World σ} {id : ContextId}
  {c : Context}

/-- The slots that are fetched back are those that are recorded, but for that of the receiver. -/
theorem mem_restoredSlots {locals : Locals} {slot : Slot} {t : Tag} :
    (slot, t) ∈ p.restoredSlots locals ↔
      locals[slot]? = some t ∧ (p.method.isStatic = true ∨ slot ≠ 0) := by
  simp only [restoredSlots, List.mem_append, List.mem_filter, decide_eq_true_eq, Bool.or_eq_true,
    Std.ExtTreeMap.mem_toList_iff_getElem?_eq_some]
  cases t.width <;> simp

/-- No slot is fetched back twice. -/
theorem nodup_restoredSlots (locals : Locals) :
    (p.restoredSlots locals).Pairwise fun a b => a.1 ≠ b.1 := by
  have keys : locals.toList.Pairwise fun a b => a.1 ≠ b.1 :=
    Std.ExtTreeMap.distinct_keys_toList.imp fun h e => h (by simp [e])
  refine List.pairwise_append.2 ⟨(keys.filter _).filter _, (keys.filter _).filter _, ?_⟩
  rintro ⟨slot, t⟩ ha ⟨other, u⟩ hb same
  obtain rfl : slot = other := same
  simp only [List.mem_filter, decide_eq_true_eq, Std.ExtTreeMap.mem_toList_iff_getElem?_eq_some]
    at ha hb
  obtain rfl : t = u := Option.some.inj (ha.1.1.symm.trans hb.1.1)
  rw [ha.2] at hb
  cases hb.2

/-- Slots are fetched back one after the other.  None of them reaches the slot of the context. -/
theorem performs_restoreSlots {site : Nat} {entries : List (Slot × Tag)} {codes : List (List Instr)}
    (hcode : (entries.mapM fun e => p.restoreLocal site e.1 e.2) = .ok codes)
    (holds : f.Holds p.slots.context w id c)
    (fits : ∀ e ∈ entries, (c.vars.recall e.2.kind.mover (slotIndex e.1)).Fits host w e.2)
    (below : ∀ e ∈ entries, e.1.toNat + (c.vars.recall e.2.kind.mover (slotIndex e.1)).words ≤
      p.slots.context.toNat) :
    ∃ w', Performs cls host codes.flatten ⟨f, w⟩
        ⟨(f.withLocals (f.locals.refill c.vars entries)).moved codes.flatten.length f.stack, w'⟩ ∧
      w.Reaches id c w' := by
  induction entries generalizing f w codes with
  | nil =>
    cases hcode
    exact ⟨w, .nil _, .refl holds.live⟩
  | cons e es ih =>
    simp only [List.mapM_cons, bind_eq_ok, pure, Except.pure, Except.ok.injEq] at hcode
    obtain ⟨first, hfirst, more, hmore, rfl⟩ := hcode
    obtain ⟨w₁, fetched, reaches⟩ := performs_restoreLocal cls host hfirst holds rfl
      (fits e (by simp))
    have holds' := holds.after (g := (f.setLocal e.1 (c.vars.recall e.2.kind.mover
      (slotIndex e.1))).moved first.length f.stack) reaches
      (Frame.getElem?_setLocal_above (below e (by simp)))
    obtain ⟨w₂, more', reaches'⟩ := ih hmore holds'
      (fun e he => (fits e (by simp [he])).after reaches) (fun e he => below e (by simp [he]))
    refine ⟨w₂, ?_, reaches.trans reaches'⟩
    have all := fetched.append more'
    rw [List.flatten_cons, List.length_append, ← Frame.moved_moved (a := f.stack)]
    exact all

end Plan

end Suspension
