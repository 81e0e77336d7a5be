import Suspension.Proofs.Machine.Effects
import Suspension.Proofs.Weave.Signals
import Suspension.Proofs.Weave.Slots
import Suspension.Proofs.Weave.Stock

/-!
# What suspendable code does with its context

Suspendable code obtains a handle of its context once and keeps it in a slot of its own.  From there the
handle is lifted only to call a service on it, or to be given to a new signal that is thrown at once.  How
far the code has come with it at some place can be read off the text in front of that place.

## Main definitions
* `Care`: how far code has come with its context.
* `Care.after`, `Care.through`: what an instruction makes of that, and a list of instructions.
* `Instr.meddles`: instructions that the code of a method must not contain.
* `Weaving.care`: how far suspendable code has come at a place.

## Main results
* `Weaving.exists_care`: suspendable code does nothing else with its context.
-/

namespace Suspension

/-- Whether an instruction calls a method of a class that suspendable code needs at run time, or makes an
instance of one. -/
def Instr.meddles : Instr → Bool
  | .invoke _ m => m.owner ∈ Service.classes
  | .typed .new c => c ∈ Service.classes
  | _ => false

/-- The services are methods of such classes. -/
theorem Instr.not_callsService_of_inert {i : Instr} (inert : i.meddles = false) : i.callsService = false := by
  cases i with
  | invoke kind m =>
    refine Bool.eq_false_iff.2 fun calls => ?_
    have owner : m.owner = Service.contextClass ∨ m.owner = Service.storeClass := by
      simpa [callsService, MemberRef.isService] using calls
    have meddles : (Instr.invoke kind m).meddles = true := by
      rcases owner with e | e <;> simp only [Instr.meddles, e] <;> decide
    rw [inert] at meddles
    cases meddles
  | _ => rfl

/-! ## Stages -/

/-- How far code has come with its context: there is none yet, its handle is on the stack, or it is kept in
its slot; from there a handle was lifted and has `depth` values above it, or the context was dropped.  A
signal was born and copied, it was given a handle with `depth` values above it, or it is built. -/
inductive Care where
  | unmet
  | given
  | kept
  | lifted (depth : Nat)
  | dropped
  | born
  | copied
  | giving (depth : Nat)
  | built
  deriving DecidableEq, Repr

namespace Care

/-- What the call of a service on a handle leads to, if that handle is below all arguments. -/
def served (depth : Nat) (m : MemberRef) : Option Care :=
  match ContextService.all.find? (·.ref = m) with
  | some s =>
    if s.signature.params.length = depth then
      match s with
      | .getLocalVars | .getLocalStack => some (.lifted 0)
      | .deactivate => some .dropped
      | _ => some .kept
    else none
  | none =>
    match StoreService.all.find? (·.ref = m) with
    | some s => if s.signature.params.length = depth then some .kept else none
    | none => none

/-- What an instruction leads to, where the handle is kept in slot `home`; none if the instruction must not
stand there. -/
def after (home : Slot) : Care → Instr → Option Care
  | .unmet, i =>
    if i = .invoke .static Service.createOrResetContext then some .given
    else if i.pushes then some .unmet else none
  | .given, i => if i = .store .reference home then some .kept else none
  | .kept, i =>
    if i = .load .reference home then some (.lifted 0)
    else if ∃ k ∈ SiteKind.all, i = .typed .new k.signalClass then some .born
    else if i.meddles ∨ i.written? = some home then none else some .kept
  | .lifted depth, i =>
    match i with
    | .invoke .virtual m => served depth m
    | i => if i.pushes then some (.lifted (depth + 1)) else none
  | .dropped, i => if i.isReturn then some .kept else none
  | .born, i => if i = .plain (.shuffle .dup) then some .copied else none
  | .copied, i => if i = .load .reference home then some (.giving 0) else none
  | .giving depth, i =>
    if ∃ k ∈ SiteKind.all, i = .invoke .special k.constructor ∧ k.constructorParams.length = depth + 1 then
      some .built
    else if i.pushes then some (.giving (depth + 1)) else none
  | .built, i => if i = .plain .athrow then some .kept else none

/-- What a list of instructions leads to. -/
def through (home : Slot) : Care → List Instr → Option Care
  | S, [] => some S
  | S, i :: rest => (S.after home i).bind (through home · rest)

variable {home : Slot} {S S' S'' : Care} {code more : List Instr} {i : Instr}

theorem through_append :
    S.through home (code ++ more) = (S.through home code).bind (·.through home more) := by
  induction code generalizing S with
  | nil => rfl
  | cons i rest ih =>
    simp only [List.cons_append, through]
    cases S.after home i with
    | none => rfl
    | some S' => exact ih

theorem through_trans (first : S.through home code = some S') (then' : S'.through home more = some S'') :
    S.through home (code ++ more) = some S'' := by
  rw [through_append, first]
  exact then'

theorem through_cons (first : S.after home i = some S') (then' : S'.through home code = some S'') :
    S.through home (i :: code) = some S'' := by
  rw [through, first]
  exact then'

/-! ## Single instructions -/

theorem after_home : after home .kept (.load .reference home) = some (.lifted 0) := by
  simp [after]

theorem after_push (pushes : i.pushes = true) (depth : Nat) :
    after home (.lifted depth) i = some (.lifted (depth + 1)) := by
  cases i with
  | invoke => cases pushes
  | _ => simp [after, pushes]

theorem find_store (s : StoreService) : StoreService.all.find? (·.ref = s.ref) = some s := by
  cases s with
  | increment => decide
  | store k | get k | push k | pop k => cases k <;> decide

theorem after_store (s : StoreService) :
    after home (.lifted s.signature.params.length) (callService s.ref) = some .kept := by
  have other : ContextService.all.find? (·.ref = s.ref) = none := by
    refine List.find?_eq_none.2 fun c _ => ?_
    have differ : c.ref ≠ s.ref := by
      intro same
      have owner := congrArg MemberRef.owner same
      rw [c.owner_ref, s.owner_ref] at owner
      exact absurd owner (by decide)
    simpa using differ
  simp [after, callService, served, other, find_store]

/-- A service that may be called on the handle. -/
theorem served_eq_some {depth : Nat} {m : MemberRef} (h : served depth m = some S) :
    (∃ s : ContextService, m = s.ref ∧ s.signature.params.length = depth ∧
      S = match s with
        | .getLocalVars | .getLocalStack => .lifted 0
        | .deactivate => .dropped
        | _ => .kept) ∨
      ∃ s : StoreService, m = s.ref ∧ s.signature.params.length = depth ∧ S = .kept := by
  unfold served at h
  split at h
  · next s found =>
    have same : s.ref = m := by simpa using List.find?_some found
    split at h
    · next length =>
      refine .inl ⟨s, same.symm, length, ?_⟩
      cases s <;> exact (Option.some.inj h).symm
    · cases h
  · split at h
    · next s found =>
      have same : s.ref = m := by simpa using List.find?_some found
      split at h
      · next length => exact .inr ⟨s, same.symm, length, (Option.some.inj h).symm⟩
      · cases h
    · cases h

/-- Where a handle was lifted, a service is called on it, or a value is pushed. -/
theorem after_lifted {depth : Nat} (h : after home (.lifted depth) i = some S) :
    (∃ m, i = callService m ∧ served depth m = some S) ∨ i.pushes = true ∧ S = .lifted (depth + 1) := by
  simp only [after] at h
  split at h
  · exact .inl ⟨_, rfl, h⟩
  · split at h
    · next pushes => exact .inr ⟨pushes, (Option.some.inj h).symm⟩
    · cases h

/-- Where a signal is given its handle, a value is pushed, or the signal is built. -/
theorem after_giving {depth : Nat} (h : after home (.giving depth) i = some S) :
    (∃ k : SiteKind, i = .invoke .special k.constructor ∧ k.constructorParams.length = depth + 1 ∧
      S = .built) ∨ i.pushes = true ∧ S = .giving (depth + 1) := by
  simp only [after] at h
  split at h
  · next found =>
    obtain ⟨k, -, rfl, length⟩ := found
    exact .inl ⟨k, rfl, length, (Option.some.inj h).symm⟩
  · split at h
    · next pushes => exact .inr ⟨pushes, (Option.some.inj h).symm⟩
    · cases h

/-- An instruction of which a context that is kept need not know. -/
theorem after_kept (other : i.meddles = false) (unread : i ≠ .load .reference home)
    (unwritten : i.written? ≠ some home) : after home .kept i = some .kept := by
  have noSignal : ¬ ∃ k ∈ SiteKind.all, i = .typed .new k.signalClass := by
    rintro ⟨k, -, rfl⟩
    have : (Instr.typed .new k.signalClass).meddles = true := by cases k <;> decide
    rw [other] at this
    cases this
  rw [after, if_neg unread, if_neg noSignal, if_neg (by simp [other, unwritten])]

/-- An instruction that neither addresses a slot nor meddles. -/
theorem after_inert (other : i.meddles = false) (slotless : i.slotAccess? = none) :
    after home .kept i = some .kept := by
  refine after_kept other (fun e => ?_) fun written => ?_
  · subst e
    cases slotless
  · unfold Instr.written? at written
    split at written <;> first | cases slotless | cases written

/-- Code during which a context that is kept stays so. -/
def Spares (home : Slot) (code : List Instr) : Prop := through home .kept code = some .kept

theorem Spares.nil : Spares home [] := rfl

theorem Spares.append (h : Spares home code) (h' : Spares home more) : Spares home (code ++ more) :=
  through_trans h h'

theorem Spares.cons (h : after home .kept i = some .kept) (h' : Spares home code) : Spares home (i :: code) :=
  through_cons h h'

theorem Spares.one (h : after home .kept i = some .kept) : Spares home [i] := .cons h .nil

theorem Spares.flatten {codes : List (List Instr)} (h : ∀ code ∈ codes, Spares home code) :
    Spares home codes.flatten := by
  induction codes with
  | nil => exact .nil
  | cons code rest ih =>
    rw [List.flatten_cons]
    exact (h code (by simp)).append (ih fun other hother => h other (by simp [hother]))

theorem Spares.mapM {α : Type} {part : α → Except WeaveError (List Instr)} {l : List α}
    {codes : List (List Instr)} (hcodes : l.mapM part = .ok codes)
    (h : ∀ a ∈ l, ∀ code, part a = .ok code → Spares home code) : Spares home codes.flatten := by
  refine .flatten fun code hcode => ?_
  obtain ⟨j, hj, rfl⟩ := List.mem_iff_getElem.1 hcode
  obtain ⟨hlen, hget⟩ := mapM_eq_ok.1 hcodes
  exact h _ (List.getElem_mem (hlen ▸ hj)) _ (hget j (hlen ▸ hj) hj)

end Care

/-! ## The inserted parts -/

namespace Plan

open Care

variable {p : Plan} {site : Nat} {slot : Slot} {k : Storage}

/-- The slot of the context. -/
abbrev home (p : Plan) : Slot := p.slots.context

theorem ne_home (h : p.home.toNat < slot.toNat) : slot ≠ p.home := by
  rintro rfl
  exact Nat.lt_irrefl _ h

theorem lifts_localVars : through p.home .kept p.localVars = some (.lifted 0) :=
  through_cons after_home rfl

theorem lifts_localStack : through p.home .kept p.localStack = some (.lifted 0) :=
  through_cons after_home rfl

theorem spares_store (h : slot ≠ p.home) : after p.home .kept (.store k slot) = some .kept :=
  after_kept rfl (by simp) (by simpa [Instr.written?] using h)

theorem spares_castTo (t : Tag) : Spares p.home (castTo t) := by
  unfold castTo
  cases t.castTarget with
  | none => exact .nil
  | some c => exact .one (after_inert rfl rfl)

/-- A service that takes no argument. -/
theorem spares_service {s : ContextService} (hs : s.signature.params = [])
    (other : s ∉ [.getLocalVars, .getLocalStack, .deactivate]) :
    Spares p.home [p.loadContext, callService s.ref] := by
  refine through_cons after_home (through_cons ?_ rfl)
  cases s with
  | getLocalVars | getLocalStack | deactivate => simp at other
  | setLabel => cases hs
  | _ => rfl

theorem spares_recordSlot (k : Storage) (slot : Slot) : Spares p.home (p.recordSlot k slot) :=
  through_trans lifts_localVars <| through_cons (after_push (Instr.pushes_pushInt _) 0) <|
    through_cons (after_push rfl 1) <| through_cons (after_store (.store k)) rfl

theorem spares_record (i : Instr) : Spares p.home (p.record i) := by
  unfold record
  split
  · exact through_trans lifts_localVars <| through_cons (after_push (Instr.pushes_pushInt _) 0) <|
      through_cons (after_push (Instr.pushes_pushInt _) 1) <| through_cons (after_store .increment) rfl
  · exact spares_recordSlot ..
  · exact .nil

theorem spares_recordParams (slot : Nat) (tags : List Tag) : Spares p.home (p.recordParams slot tags) := by
  induction tags generalizing slot with
  | nil => exact .nil
  | cons t ts ih =>
    rw [recordParams]
    refine .append ?_ (ih _)
    split
    · exact spares_recordSlot ..
    · exact .nil

theorem spares_saveStack (spaced : p.slots.Spaced) {stack : List Tag} {code : List Instr}
    (h : p.saveStack site stack = .ok code) : Spares p.home code := by
  obtain ⟨codes, hcodes, h⟩ := bind_eq_ok.1 h
  cases h
  refine .mapM hcodes fun t _ code h => ?_
  obtain ⟨k, -, h⟩ := bind_eq_ok.1 h
  cases h
  have apart : p.slots.temp ≠ p.home := ne_home (by simp [spaced.temp])
  exact through_trans (through_trans (through_cons (spares_store apart) rfl) lifts_localStack) <|
    through_cons (after_push rfl 0) <| through_cons (after_store (.push k)) rfl

theorem spares_restoreStack {stack : List Tag} {code : List Instr}
    (h : p.restoreStack site stack = .ok code) : Spares p.home code := by
  obtain ⟨codes, hcodes, h⟩ := bind_eq_ok.1 h
  cases h
  refine .mapM hcodes fun t _ code h => ?_
  obtain ⟨k, -, h⟩ := bind_eq_ok.1 h
  cases h
  exact .append (through_trans lifts_localStack (through_cons (after_store (.pop k)) rfl)) (spares_castTo t)

theorem spares_restoreLocals {locals : Locals} (below : ∀ s t, locals[s]? = some t → s ≠ p.home)
    {code : List Instr} (h : p.restoreLocals site locals = .ok code) : Spares p.home code := by
  obtain ⟨codes, hcodes, h⟩ := bind_eq_ok.1 h
  cases h
  refine .mapM hcodes fun e he code h => ?_
  obtain ⟨k, -, h⟩ := bind_eq_ok.1 h
  cases h
  have fetched : Spares p.home (p.localVars ++ [pushSlot e.1, callService (Service.get k)]) :=
    through_trans lifts_localVars <| through_cons (after_push (Instr.pushes_pushInt _) 0) <|
      through_cons (after_store (.get k)) rfl
  exact (fetched.append (spares_castTo _)).append (.one (spares_store (below _ _ (mem_restoredSlots.1 he).1)))

theorem spares_dropReceiver (kind : InvokeKind) : Spares p.home (dropReceiver kind) := by
  unfold dropReceiver
  split
  · exact .one (after_inert rfl rfl)
  · exact .nil

theorem spares_throwSignal (sort : SiteKind) {payload : Option Slot}
    (carries : payload.isSome = sort.hasPayload) : Spares p.home (p.throwSignal sort payload) := by
  have born : after p.home .kept (.typed .new sort.signalClass) = some .born := by
    rw [after, if_neg (by simp), if_pos ⟨sort, by cases sort <;> decide, rfl⟩]
  have given : after p.home .copied p.loadContext = some (.giving 0) := by simp [after, loadContext]
  have built (depth : Nat) (hd : sort.constructorParams.length = depth + 1) :
      after p.home (.giving depth) (.invoke .special sort.constructor) = some .built := by
    rw [after, if_pos ⟨sort, by cases sort <;> decide, rfl, hd⟩]
  rw [throwSignal_eq]
  suffices building : through p.home .kept (p.building sort payload) = some .built from
    through_trans building rfl
  cases payload with
  | none =>
    refine through_cons born (through_cons rfl (through_cons given (through_cons (built 0 ?_) rfl)))
    simp [SiteKind.constructorParams, ← carries]
  | some s =>
    have carried : after p.home (.giving 0) (.load .reference s) = some (.giving 1) := by
      simp [after, Instr.pushes]
    refine through_cons born (through_cons rfl (through_cons given
      (through_cons carried (through_cons (built 1 ?_) rfl))))
    simp [SiteKind.constructorParams, ← carries]

theorem SiteCode.spares_code (spaced : p.slots.Spaced) {kind : InvokeKind} {sort : SiteKind}
    (below : ∀ s t, (p.snapshot site).locals[s]? = some t → s ≠ p.home) (suspends : sort.suspends = true)
    (s : p.SiteCode site kind sort) : Spares p.home s.code := by
  have parked : Spares p.home (if sort = .call then [Instr.store .reference p.slots.callTarget] else []) := by
    split
    · exact .one (spares_store (ne_home (by simp [spaced.callTarget])))
    · exact .nil
  have labelled : Spares p.home [p.loadContext, pushInt (Int32.ofNat site), callService Service.setLabel] :=
    through_cons after_home (through_cons (after_push (Instr.pushes_pushInt _) 0) rfl)
  have carries : (p.payload? sort).isSome = sort.hasPayload := by
    cases sort <;> first | rfl | cases suspends
  have fetched : Spares p.home (p.fetching s.answer) := by
    unfold fetching
    split
    · exact (spares_service (s := .getCallAnswer) rfl (by simp)).append (spares_castTo _)
    · exact .nil
  have saved := ((parked.append (spares_dropReceiver kind)).append
    (spares_saveStack spaced s.saved_eq)).append labelled
  have returned := (((spares_service (p := p) (s := .clearLabel) rfl (by simp)).append
    (spares_restoreLocals below s.locals_eq)).append (spares_restoreStack s.stack_eq)).append fetched
  exact (saved.append (spares_throwSignal sort carries)).append (.cons (after_inert rfl rfl) returned)

theorem spares_answer (spaced : p.slots.Spaced) {kind : InvokeKind} {m : MemberRef} {code : List Instr}
    (h : p.answer kind m = .ok code) : Spares p.home code := by
  obtain ⟨s, -, h⟩ := bind_eq_ok.1 h
  cases h
  have apart : p.slots.answer ≠ p.home := ne_home (by simp [spaced.answer])
  have value : Spares p.home (if s.params.isEmpty = true then [Instr.plain .aconstNull] else []) := by
    split
    · exact .one (after_inert rfl rfl)
    · exact .nil
  exact ((value.append (.one (spares_store apart))).append (spares_dropReceiver kind)).append
    (spares_throwSignal .answer rfl)

/-- The context is dropped in front of a return. -/
theorem spares_return (k : Option Storage) : Spares p.home (p.deregister ++ [.plain (.leave k)]) := by
  have dropped : through p.home .kept p.deregister = some .dropped :=
    through_trans (spares_service (s := .register) rfl (by simp)) (through_cons after_home rfl)
  exact through_trans dropped rfl

theorem spares_dispatch : Spares p.home p.dispatch := by
  unfold dispatch
  split
  · exact .nil
  · exact (spares_service (s := .getLabel) rfl (by simp)).append (.one (after_inert rfl rfl))

/-- The front obtains the context. -/
theorem through_prologue {front : List Instr} (h : p.prologue = .ok front) :
    through p.home .unmet front = some .kept := by
  obtain ⟨s, -, -, rfl⟩ := prologue_eq_ok h
  have obtained : through p.home .unmet p.obtaining = some .kept := by
    have pushed : after p.home .unmet p.loadReceiver = some .unmet := by
      unfold loadReceiver
      split <;> rfl
    have given : after p.home .unmet (.invoke .static Service.createOrResetContext) = some .given := by
      simp [after]
    exact through_cons pushed (through_cons given (by simp [through, after]))
  exact through_trans (through_trans obtained spares_dispatch)
    (through_cons (after_inert rfl rfl) (spares_recordParams _ _))

theorem spares_epilogue : Spares p.home p.epilogue := by
  unfold epilogue
  split
  · split
    · exact .cons (after_inert rfl rfl) (.one (after_inert rfl rfl))
    · exact .nil
  · exact .nil

end Plan

/-! ## Suspendable code -/

namespace Weaving

open Care

variable {W : Weaving}

/-- The slots of the method are others than that of the context. -/
theorem ne_home {s : Slot} (below : s.toNat < W.base) : s ≠ W.plan.home := by
  rintro rfl
  exact absurd below (Nat.lt_irrefl _)

theorem spares_own {i : Instr} (hi : i ∈ W.instrs) (unaware : i.meddles = false) :
    after W.plan.home .kept i = some .kept := by
  have apart {s : Slot} {width : Width} (h : i.slotAccess? = some (s, width)) : s ≠ W.plan.home := by
    have room := slot_le_base hi h
    have : 0 < width.words := by cases width <;> exact Nat.succ_pos _
    exact ne_home (by omega)
  refine after_kept unaware ?_ fun written => ?_
  · rintro rfl
    exact apart rfl rfl
  · unfold Instr.written? at written
    split at written
    · cases written
      exact apart rfl rfl
    · cases written
      exact apart rfl rfl
    · cases written

/-- A site keeps to the handle, as what it fetches back lies below the slot of the context. -/
theorem spares_piece (unaware : ∀ i ∈ W.instrs, i.meddles = false) {i : Nat} {ins : Instr}
    (hi : W.instrs[i]? = some ins) : Spares W.plan.home (W.piece i) := by
  have own := W.spares_own (List.mem_of_getElem? hi) (unaware _ (List.mem_of_getElem? hi))
  cases hd : ins.defined? with
  | some l =>
    obtain rfl := defined?_eq_some.1 hd
    cases handler : W.plan.isHandler l with
    | true =>
      obtain ⟨r, -, hp⟩ := piece_handler hi handler
      rw [hp]
      exact .cons own (.cons (after_inert rfl rfl) (.cons (after_inert rfl rfl) (.one (after_inert rfl rfl))))
    | false =>
      rw [piece_label hi handler]
      exact .one own
  | none =>
    cases hr : ins.isReturn with
    | true =>
      obtain ⟨k, rfl⟩ := Instr.isReturn_iff.1 hr
      rw [piece_return hi]
      exact Plan.spares_return k
    | false =>
      cases site : W.config.site? W.className ins with
      | none =>
        obtain ⟨fetched, hf, hp⟩ := piece_other hi hd hr site
        rw [hp]
        refine .append (.cons own (Plan.spares_record _)) ?_
        unfold Plan.retype at hf
        split at hf
        · split at hf
          · next snapshot known =>
            rw [W.made.shape_eq] at known
            exact Plan.spares_restoreLocals (fun s t hs => ne_home (below_label known s t hs)) hf
          · cases hf
            exact .nil
        · cases hf
          exact .nil
      | some s =>
        obtain ⟨kind, sort, m⟩ := s
        cases suspends : sort.suspends with
        | true =>
          obtain ⟨s, hp⟩ := piece_site hi site suspends
          rw [hp]
          refine s.spares_code W.spaced (fun slot t hs => ?_) suspends
          unfold Plan.snapshot at hs
          rw [W.made.shape_eq] at hs
          cases known : W.shape.site? (W.siteAt i) with
          | none => simp [known] at hs
          | some S =>
            rw [known] at hs
            exact ne_home (below_site known slot t hs)
        | false =>
          obtain rfl : sort = .answer := by simpa [SiteKind.suspends] using suspends
          exact Plan.spares_answer W.spaced (piece_answer hi site)

/-- How far suspendable code has come at a place. -/
def care (W : Weaving) (pc : Nat) : Option Care := through W.plan.home .unmet (W.stream.take pc)

/-- Suspendable code does nothing else with its context. -/
theorem exists_care (unaware : ∀ i ∈ W.instrs, i.meddles = false) (pc : Nat) : ∃ S, W.care pc = some S := by
  have whole : through W.plan.home .unmet W.stream = some .kept := by
    rw [stream]
    refine through_trans (through_trans (Plan.through_prologue W.opened) ?_) Plan.spares_epilogue
    refine Spares.flatten fun code hcode => ?_
    obtain ⟨i, hi, rfl⟩ := List.mem_iff_getElem.1 hcode
    have own : W.piece i = W.pieces[i] := by simp [piece, List.getElem?_eq_getElem hi]
    exact own ▸ spares_piece unaware (List.getElem?_eq_getElem (W.length_pieces ▸ hi))
  rw [← List.take_append_drop pc W.stream, through_append] at whole
  obtain ⟨S, hS, -⟩ := Option.bind_eq_some_iff.1 whole
  exact ⟨S, hS⟩

theorem care_zero : W.care 0 = some .unmet := rfl

/-- One instruction further on. -/
theorem care_succ {pc : Nat} {i : Instr} (hi : W.stream[pc]? = some i) :
    W.care (pc + 1) = (W.care pc).bind (·.after W.plan.home i) := by
  obtain ⟨hlt, rfl⟩ := List.getElem?_eq_some_iff.1 hi
  rw [care, List.take_succ_eq_append_getElem hlt, through_append]
  refine congrArg _ (funext fun S => ?_)
  simp only [through]
  cases S.after W.plan.home W.stream[pc] <;> rfl

end Weaving

end Suspension
