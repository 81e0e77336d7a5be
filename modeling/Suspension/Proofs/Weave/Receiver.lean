import Suspension.Proofs.Weave.RoundTrip

/-!
# Slot 0 of an instance method

An instance method finds its receiver in slot 0, and that slot is left out of what is fetched back: a method
that is entered again has been handed its receiver.  The slot is told by its number alone, so it is left out as
well where the method has stored something else there.  Then everything that a site records comes back but
this slot, which holds the receiver instead.

## Main definitions
* `Weaving.Returned`: what the slots hold behind a site of an instance method.

## Main results
* `slots_returned`: what is captured at a site of an instance method comes back up to slot 0.
* `slot_zero_lost`: a method that clears slot 0 in front of a pause finds the receiver there afterwards.
-/

namespace Suspension

variable {σ : Type}

namespace Weaving

/-- What the slots of an instance method hold that comes back to a site: all that the site records behind slot
0 is what it was, and slot 0 is what the method was entered with. -/
structure Returned (S : SymFrame) (f entry g : Frame) : Prop where
  others : ∀ (s : Slot) (t : Tag), S.locals[s]? = some t → s ≠ 0 → g.locals[s]? = f.locals[s]?
  zero : g.locals[(0 : Slot)]? = entry.locals[(0 : Slot)]?
  kept : f.locals[(0 : Slot)]? = entry.locals[(0 : Slot)]? →
    ∀ (s : Slot) (t : Tag), S.locals[s]? = some t → g.locals[s]? = f.locals[s]?
  lost : ∀ v, f.locals[(0 : Slot)]? = some v → v.kind.mover ≠ .reference →
    g.locals[(0 : Slot)]? ≠ f.locals[(0 : Slot)]?

variable {W : Weaving} {S : SymFrame} {f g entry : Frame} {w w' : World σ} {stack : List Value}
  {copy : ContextId} {i : Nat}

theorem Back.returned (h : W.Back i S f stack copy entry g w w') (bound : W.method.isStatic = false)
    (entered : W.Entered entry) : Returned S f entry g := by
  have others (s : Slot) (t : Tag) (recorded : S.locals[s]? = some t) (other : s ≠ 0) :
      g.locals[s]? = f.locals[s]? :=
    h.slots (s, t) (Plan.mem_restoredSlots.2 ⟨recorded, .inr other⟩)
  refine ⟨others, h.receiver bound, fun same s t recorded => ?_, fun v held number => ?_⟩
  · by_cases zero : s = 0
    · subst zero
      exact (h.receiver bound).trans same.symm
    · exact others s t recorded zero
  · obtain ⟨r, handed, reference⟩ := entered.receiver.resolve_left (by simp [bound])
    rw [h.receiver bound, handed, held]
    rintro ⟨⟩
    exact number reference

end Weaving

/-- What is captured at a suspension site of an instance method comes back when the context is continued, up to
slot 0.  That slot holds what the method was entered with again: what it held before if that was the same
receiver, and never what it held before if that was a number. -/
theorem slots_returned {className : String} {method result : Method} {config : Config}
    (transformed : (method.transform className config).result = .ok (some result))
    (bound : method.isStatic = false) :
    ∃ W : Weaving, W.className = className ∧ W.method = method ∧ W.config = config ∧ W.result = result ∧
      ∀ {σ : Type} (cls : Class) (host : Host σ) {i : Nat} {ins : Instr} {kind : InvokeKind}
        {sort : SiteKind} {m : MemberRef} {S : SymFrame} (o : Operands kind sort S.stack) {f : Frame}
        {w : World σ} {id : ContextId} {c : Context} (cs : List Caller),
        W.shape.sites.length < 2 ^ 31 → W.instrs[i]? = some ins →
        config.site? className ins = some (kind, sort, m) → sort.suspends = true →
        W.shape.site? (W.siteAt i) = some S → cls.callee? sort.constructor = none →
        W.AtSite host i S o f w id c →
        ∃ n exc w', Run.Throws cls host n ⟨f, cs, w⟩ w' exc ∧
          ∀ answer, W.plan.AnswerFits host w' sort (answer.or c.callAnswer) →
            ∃ copy w₂, World.continue id answer w' = .ok copy w₂ ∧
              ∀ entry cs', W.Entered entry →
                ∃ n g w₃, Run.Takes cls host (W.Plumbing i) n ⟨entry, cs', w₂⟩ ⟨g, cs', w₃⟩ ∧
                  g.pc = W.placeOf (i + 1) ∧ Weaving.Returned S f entry g := by
  obtain ⟨W, rfl, rfl, rfl, hresult⟩ := Weaving.exists_of_transform transformed
  refine ⟨W, rfl, rfl, rfl, hresult, ?_⟩
  intro σ cls host i ins kind sort m S o f w id c cs few hi site suspends known foreign atSite
  obtain ⟨n, exc, fields, w', thrown, -, -, -, -, again⟩ :=
    atSite.roundTrip few hi site suspends known foreign cs
  refine ⟨n, exc, w', thrown, fun answer fits => ?_⟩
  obtain ⟨copy, w₂, continued, back⟩ := again answer fits
  refine ⟨copy, w₂, continued, fun entry cs' entered => ?_⟩
  obtain ⟨n, g, w₃, taken, back⟩ := back entry cs' entered
  exact ⟨n, g, w₃, taken, back.place, back.returned bound entered⟩

namespace Receiver

/-- Clears slot 0, pauses, and hands out what is in slot 0 then. -/
def clearing (access : UInt16) : Method where
  access := access
  name := "execute"
  descriptor := "()Ljava/lang/Object;"
  maxLocals := 1
  code.instrs := [.plain .aconstNull, .store .reference 0, .pause, .load .reference 0, .plain (.leave (some .reference))]

/-- What is known at the pause. -/
def clearedSnapshot : SymFrame := ⟨Locals.store ∅ 0 .null, []⟩

/-- There is nothing on the stack at the pause. -/
def noOperands : Operands .static .pause clearedSnapshot.stack :=
  { RoundTrip.pausingOperands with
    values := []
    kinds := rfl }

/-- What is known of the method. -/
def clearingShape (access : UInt16) : Option Shape := do
  let m ← (Metrics.measure "app/C" (clearing access) {}).toOption
  (Shape.ofMethod "app/C" (clearing access) {} m).result.toOption

/-- A state at the one site of the method, at which nothing but slot 0 is recorded, so that nothing is fetched
back. -/
theorem exists_atSite {W : Weaving} (hclass : W.className = "app/C") (hmethod : W.method = clearing 1)
    (hconfig : W.config = {}) :
    ∃ (f : Frame) (w : World Unit) (id : ContextId), f.locals[(0 : Slot)]? = some .null ∧
      W.shape.sites.length < 2 ^ 31 ∧ W.shape.site? (W.siteAt 2) = some clearedSnapshot ∧
      W.AtSite (Host.nothing Unit) 2 clearedSnapshot noOperands f w id {} := by
  have shaped : clearingShape 1 = some W.shape := by
    have := W.shaped
    rw [clearingShape, ← hclass, ← hmethod, ← hconfig, W.measured]
    exact congrArg Except.toOption W.shaped
  have known : (clearingShape 1).bind (·.site? 0) = some clearedSnapshot := by decide +kernel
  have few : (clearingShape 1).map (decide <| ·.sites.length < 2 ^ 31) = some true := by decide +kernel
  rw [shaped] at known few
  have first : W.siteAt 2 = 0 := by
    rw [Weaving.siteAt, Weaving.instrs, hclass, hmethod, hconfig]
    decide
  have room : (0 : Slot).toNat + Value.null.words ≤ W.base :=
    Weaving.slot_le_base (i := .load .reference 0) (by rw [Weaving.instrs, hmethod]; decide) rfl
  have stored : (LocalValues.store ∅ 0 .null)[(0 : Slot)]? = some .null := by
    rw [LocalValues.getElem?_store, if_pos rfl]
  have none (e : Slot × Tag) (he : e ∈ W.plan.restoredSlots clearedSnapshot.locals) : False := by
    obtain ⟨recorded, other⟩ := Plan.mem_restoredSlots.1 he
    rw [W.made.method_eq, hmethod] at other
    have other : e.1 ≠ 0 := other.resolve_left (by decide)
    rcases Locals.getElem?_of_store recorded with ⟨zero, -⟩ | absent
    · exact other zero
    · simp at absent
  refine ⟨⟨W.result, (LocalValues.store ∅ 0 .null).store W.plan.slots.context (.object ⟨0⟩), [], W.placeOf 2⟩,
    { heap := (Heap.handle {} ⟨0⟩ .context).2
      contexts := (Contexts.add {} {}).2
      outside := () }, ⟨0⟩, LocalValues.getElem?_store_of_le stored room, by simpa using few, first ▸ known, ?_⟩
  refine ⟨rfl, rfl, rfl, (LocalValues.apart_empty.store _ _).store _ _, ⟨⟨⟨0⟩, ?_, rfl⟩, rfl, ?_⟩,
    fun e he => (none e he).elim, fun e he => (none e he).elim, fun i hi _ => absurd hi (Nat.not_lt_zero i)⟩
  · rw [LocalValues.getElem?_store, if_pos rfl]
  · exact (Heap.grows_handle ..).intact fun id face r h => by cases h

/-- What the method hands out when it is continued. -/
def handedOut (access : UInt16) : Option (ObjectId × Value) := do
  let config : Config := { entryDescriptor := "()Ljava/lang/Object;" }
  let m ← ((clearing access).transform "app/C" config).result.toOption.join
  let (r, w) := Runner.create ⟨1, "app/C", some objectClass, [], [m]⟩ config 1000 ()
  match r.start (Host.nothing Unit) [] w with
  | .ok (.paused id) w =>
    match r.resume (Host.nothing Unit) id w with
    | .ok (.completed v) _ => v.map (r.receiver, ·)
    | _ => none
  | _ => none

end Receiver

/-- The instance method that has cleared slot 0 comes back with its receiver there. -/
theorem clearing_slots_returned :
    ∃ (W : Weaving) (f : Frame) (w : World Unit) (id : ContextId), W.method = Receiver.clearing 1 ∧
      f.pc = W.placeOf 2 ∧ f.locals[(0 : Slot)]? = some .null ∧
      ∃ n exc w', Run.Throws ⟨1, "app/C", some objectClass, [], []⟩ (Host.nothing Unit) n ⟨f, [], w⟩ w' exc ∧
        ∃ copy w₂, World.continue id none w' = .ok copy w₂ ∧
          (∃ entry, Frame.enter W.result [.object ⟨0⟩] = .ok entry ∧ W.Entered entry) ∧
          ∀ entry cs', W.Entered entry →
            ∃ n g w₃, Run.Takes ⟨1, "app/C", some objectClass, [], []⟩ (Host.nothing Unit) (W.Plumbing 2) n
                ⟨entry, cs', w₂⟩ ⟨g, cs', w₃⟩ ∧ g.pc = W.placeOf 3 ∧
              g.locals[(0 : Slot)]? = entry.locals[(0 : Slot)]? := by
  obtain ⟨result, transformed⟩ : ∃ result,
      ((Receiver.clearing 1).transform "app/C" {}).result = .ok (some result) :=
    exists_ok_some (by decide +kernel)
  obtain ⟨W, hclass, hmethod, hconfig, -, returned⟩ := slots_returned transformed (by decide)
  obtain ⟨f, w, id, cleared, few, known, atSite⟩ := Receiver.exists_atSite hclass hmethod hconfig
  have paused : W.instrs[2]? = some .pause := by
    rw [Weaving.instrs, hmethod]
    rfl
  obtain ⟨n, exc, w', thrown, again⟩ := returned ⟨1, "app/C", some objectClass, [], []⟩ (Host.nothing Unit)
    Receiver.noOperands [] few paused (Config.site?_pause rfl rfl _) rfl known (by decide) atSite
  obtain ⟨copy, w₂, continued, back⟩ := again none fun t isCall => by cases isCall
  obtain ⟨entry, enters⟩ : ∃ entry, Frame.enter W.result [.object ⟨0⟩] = .ok entry := ⟨_, rfl⟩
  have entered : W.Entered entry := Weaving.entered_of_enter enters (.inr ⟨_, _, rfl, rfl⟩)
  refine ⟨W, f, w, id, hmethod, atSite.place, cleared, n, exc, w', thrown, copy, w₂, continued,
    ⟨entry, enters, entered⟩, ?_⟩
  intro entry cs' entered
  obtain ⟨n, g, w₃, taken, place, slots⟩ := back entry cs' entered
  exact ⟨n, g, w₃, taken, place, slots.zero⟩

/-- A static method that clears slot 0 in front of a pause finds it cleared afterwards.  An instance method for
which the same is recorded finds its receiver. -/
theorem slot_zero_lost :
    ((Receiver.clearingShape staticFlag).bind (·.site? 0)).bind (·.locals[(0 : Slot)]?) = some .null ∧
      (Receiver.handedOut staticFlag).map (·.2) = some .null ∧
      ((Receiver.clearingShape 1).bind (·.site? 0)).bind (·.locals[(0 : Slot)]?) = some .null ∧
      (Receiver.handedOut 1).map (fun e => decide (e.2 = .object e.1)) = some true := by
  decide +kernel

end Suspension
