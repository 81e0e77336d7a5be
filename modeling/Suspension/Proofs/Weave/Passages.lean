import Suspension.Proofs.Weave.Frames

/-!
# Entering, leaving and returning on symbolic frames

What the inserted code does as a whole, interpreted in a symbolic frame: how a method is entered, how it is
left at a site, and how it returns to a site.

## Main results
* `Plan.takes_obtaining`, `Plan.run_dispatch`: the context is obtained, and the dispatch leaves the frame alone.
* `Plan.SiteCode.exists_leaving`, `Plan.exists_answering`: a signal is thrown at a site.
* `Plan.SiteCode.takes_returning`: the slots and the stack that were recorded are fetched back.
-/

namespace Suspension

/-- An instruction behind straight code. -/
theorem Takes.run_snoc {className : String} {config : Config} {code : List Instr} {i : Instr} {f f' f'' : SymFrame}
    (h : Takes className config code f f') (last : Step.run (i.steps className config) f' = .ok f'') :
    Step.run (stepsOf className config (code ++ [i])) f = .ok f'' := by
  rw [stepsOf_append, Step.run_append, h.run]
  simpa [stepsOf, bind, Except.bind] using last

namespace Plan

variable (className : String) (config : Config) {p : Plan} {f : SymFrame} {t : Tag} {rest : List Tag}
  {site : Nat} {kind : InvokeKind} {sort : SiteKind}

/-! ## Entering -/

/-- The context is obtained. -/
theorem takes_obtaining (receiver : p.method.isStatic = true ∨ (0 : Slot) ∈ f.locals) :
    Takes className config p.obtaining f (f.setLocal p.slots.context (.ref Service.contextClass)) := by
  have pushed : ∃ t, Takes className config [p.loadReceiver] f (f.withStack (t :: f.stack)) := by
    unfold loadReceiver
    split
    · exact ⟨_, takes_push _ _ rfl rfl rfl⟩
    · next notStatic =>
      have there := receiver.resolve_left notStatic
      exact ⟨_, takes_load _ _ .reference (Std.ExtTreeMap.getElem?_eq_some_getElem there)⟩
  obtain ⟨t, pushed⟩ := pushed
  have parsed : Signature.parse Service.createOrResetContext.descriptor =
      .ok ⟨[.object], some (.ref Service.contextClass)⟩ := eq_ok_of_toOption (by decide +kernel)
  have handed := takes_invoke className config (f := f.withStack (t :: f.stack)) .static parsed
    (by simp [InvokeKind.hasReceiver])
  have stored := takes_store className config .reference p.slots.context
    (f := f.withStack (.ref Service.contextClass :: f.stack)) rfl
  exact pushed.cons (handed.cons stored)

theorem holdsContext_obtained (f : SymFrame) :
    p.HoldsContext (f.setLocal p.slots.context (.ref Service.contextClass)) :=
  ⟨_, Locals.getElem?_store_self, rfl⟩

/-- The dispatch leaves the frame as it was. -/
theorem run_dispatch (holds : p.HoldsContext f) :
    Step.run (stepsOf className config p.dispatch) f = .ok f := by
  unfold dispatch
  split
  · rfl
  · have asked := takes_service className config holds .getLabel rfl
    exact asked.run_snoc rfl

/-! ## Leaving -/

/-- The receiver of a call is dropped, if it has one. -/
theorem takes_dropReceiver {receivers : List Tag} (stack : f.stack = receivers ++ rest)
    (length : receivers.length = kind.hasReceiver.toNat) (one : ∀ t ∈ receivers, t.words = 1) :
    Takes className config (dropReceiver kind) f (f.withStack rest) := by
  unfold dropReceiver
  split
  · next has =>
    rw [has] at length
    obtain ⟨t, rfl⟩ := List.length_eq_one_iff.1 length
    refine .one ⟨rfl, rfl, _, rfl⟩ ?_
    show Step.run [⟨0, .popWords 1⟩] f = _
    simp [Step.run, SymOp.apply, SymFrame.popWords, stack, takeTags, one t, SymFrame.withStack]
  · next has =>
    rw [Bool.not_eq_true] at has
    rw [has] at length
    obtain rfl := List.length_eq_zero_iff.1 length
    exact (Takes.nil f).trans_eq (by rw [← show f.stack = rest from stack, SymFrame.withStack_self])

/-- A value is parked in a slot above that of the context. -/
theorem exists_parked (holds : p.HoldsContext f) {slot : Slot} (above : p.slots.context.toNat < slot.toNat)
    (stack : f.stack = t :: rest) :
    ∃ f', Takes className config [.store .reference slot] f f' ∧ p.HoldsContext f' ∧ slot ∈ f'.locals ∧
      f'.stack = rest := by
  refine ⟨_, takes_store className config .reference slot stack, ?_, ?_, rfl⟩
  · have holds' : p.HoldsContext (f.withStack rest) := holds
    refine holds'.setLocal ?_ fun _ => by omega
    rintro rfl
    omega
  · rw [Std.ExtTreeMap.mem_iff_isSome_getElem?]
    exact Option.isSome_iff_exists.2 ⟨_, Locals.getElem?_store_self⟩

/-- The site at which the context is to continue is noted. -/
theorem takes_setLabel (holds : p.HoldsContext f) (n : Int32) :
    Takes className config [p.loadContext, pushInt n, callService Service.setLabel] f f := by
  obtain ⟨c, loaded⟩ := exists_loadContext className config holds
  obtain ⟨label, pushed⟩ := exists_pushInt className config (f := f.withStack (c :: f.stack)) n
  have called := takes_callService className config (mapError_eq_ok.1 ContextService.setLabel.callSignature_ref)
    f [label, c] rfl
  exact loaded.cons (pushed.cons called)

/-- A suspension site is left with a signal on top of the stack.  What is called is parked, so that the receiver
is on top; then the stack is saved, the number of the site is noted, and the signal is built. -/
theorem SiteCode.exists_leaving (s : p.SiteCode site kind sort) (suspends : sort.suspends = true)
    (spaced : p.slots.Spaced) (holds : p.HoldsContext f) {args receivers below : List Tag}
    (stack : f.stack = args ++ (receivers ++ below)) (target : args.length = if sort = .call then 1 else 0)
    (length : receivers.length = kind.hasReceiver.toNat) (one : ∀ t ∈ receivers, t.words = 1)
    (enough : (p.snapshot site).stack.length ≤ below.length) :
    ∃ (front : List Instr) (f' : SymFrame) (t : Tag), s.leaving = front ++ [.plain .athrow] ∧
      Takes className config front f (f'.withStack (t :: f'.stack)) := by
  obtain ⟨f₁, parked, holds₁, there₁, stack₁⟩ : ∃ f₁,
      Takes className config (if sort = .call then [.store .reference p.slots.callTarget] else []) f f₁ ∧
        p.HoldsContext f₁ ∧ (∀ slot ∈ p.payload? sort, slot ∈ f₁.locals) ∧ f₁.stack = receivers ++ below := by
    unfold payload?
    split
    · next call =>
      rw [if_pos call] at target
      obtain ⟨t, rfl⟩ := List.length_eq_one_iff.1 target
      obtain ⟨f₁, parked, holds₁, there, stack₁⟩ := exists_parked className config holds
        (show p.slots.context.toNat < p.slots.callTarget.toNat by have := spaced.callTarget; omega) stack
      exact ⟨f₁, parked, holds₁, by simpa using there, stack₁⟩
    · next call =>
      rw [if_neg call] at target
      obtain rfl := List.length_eq_zero_iff.1 target
      exact ⟨f, .nil f, holds, by simp, stack⟩
  have dropped := takes_dropReceiver className config stack₁ length one
  obtain ⟨f₂, saved, kept⟩ := exists_saveStack className config (f := f₁.withStack below) spaced s.saved_eq holds₁ enough
  have holds₂ : p.HoldsContext f₂ := by
    obtain ⟨c, hc, reference⟩ := holds₁
    exact ⟨c, (kept _ (by have := spaced.temp; omega)).trans hc, reference⟩
  have there₂ (slot : Slot) (hs : slot ∈ p.payload? sort) : slot ∈ f₂.locals := by
    have inside := there₁ slot hs
    unfold payload? at hs
    split at hs
    · obtain rfl : p.slots.callTarget = slot := Option.some.inj hs
      rw [Std.ExtTreeMap.mem_iff_isSome_getElem?] at inside ⊢
      rwa [kept _ (by have := spaced.callTarget; have := spaced.temp; omega)]
    · cases hs
  have noted := takes_setLabel className config holds₂ (Int32.ofNat site)
  have carries : (p.payload? sort).isSome = sort.hasPayload := by
    cases sort with
    | answer => cases suspends
    | _ => rfl
  obtain ⟨t, built⟩ := exists_building className config holds₂ sort carries there₂
  refine ⟨_, f₂, t, ?_, (((parked.append dropped).append saved).append noted).append built⟩
  rw [leaving, throwSignal_eq, ← List.append_assoc]
  rfl

/-- An answer site is left with a signal on top of the stack.  Without a value null is handed over. -/
theorem exists_answering {m : MemberRef} {code : List Instr} (hcode : p.answer kind m = .ok code)
    {sig : Signature} (parsed : Signature.parse m.descriptor = .ok sig) (few : sig.params.length ≤ 1)
    (spaced : p.slots.Spaced) (holds : p.HoldsContext f) {args receivers below : List Tag}
    (stack : f.stack = args ++ (receivers ++ below)) (value : args.length = sig.params.length)
    (length : receivers.length = kind.hasReceiver.toNat) (one : ∀ t ∈ receivers, t.words = 1) :
    ∃ (front : List Instr) (f' : SymFrame) (t : Tag), code = front ++ [.plain .athrow] ∧
      Takes className config front f (f'.withStack (t :: f'.stack)) := by
  obtain ⟨sig', parsed', hcode⟩ := bind_eq_ok.1 hcode
  cases parsed.symm.trans (mapError_eq_ok.1 parsed')
  cases hcode
  obtain ⟨t, given⟩ : ∃ t, Takes className config (if sig.params.isEmpty then [.plain .aconstNull] else []) f
      (f.withStack (t :: (receivers ++ below))) := by
    cases hp : sig.params with
    | nil =>
      rw [hp] at value
      obtain rfl := List.length_eq_zero_iff.1 value
      refine ⟨.null, (takes_push className config rfl rfl rfl).trans_eq ?_⟩
      rw [stack]
      rfl
    | cons t ts =>
      rw [hp, List.length_cons] at few value
      obtain ⟨t, rfl⟩ := List.length_eq_one_iff.1 (show args.length = 1 by omega)
      refine ⟨t, (Takes.nil f).trans_eq ?_⟩
      rw [← show f.stack = t :: (receivers ++ below) from stack, SymFrame.withStack_self]
  have holds₀ : p.HoldsContext (f.withStack (t :: (receivers ++ below))) := holds
  obtain ⟨f₁, parked, holds₁, there, stack₁⟩ := exists_parked className config holds₀
    (show p.slots.context.toNat < p.slots.answer.toNat by have := spaced.answer; omega) rfl
  have dropped := takes_dropReceiver className config stack₁ length one
  have holds₂ : p.HoldsContext (f₁.withStack below) := holds₁
  obtain ⟨u, built⟩ := exists_building className config holds₂ .answer
    (show (some p.slots.answer).isSome = SiteKind.answer.hasPayload from rfl)
    (by simpa using there)
  refine ⟨_, f₁.withStack below, u, ?_, ((given.append parked).append dropped).append built⟩
  rw [throwSignal_eq, ← List.append_assoc]

/-! ## Returning -/

theorem HoldsContext.refill {entries : List (Slot × Tag)} (holds : p.HoldsContext f)
    (below : ∀ e ∈ entries, e.1.toNat + e.2.words ≤ p.slots.context.toNat) :
    p.HoldsContext { f with locals := f.locals.refill entries } := by
  induction entries generalizing f with
  | nil => exact holds
  | cons e es ih =>
    have room := below e List.mem_cons_self
    rw [← Tag.words_fetched] at room
    exact ih (holds.setLocal_below room) fun x hx => below x (List.mem_cons_of_mem _ hx)

/-- The answer to a call is fetched. -/
theorem takes_fetching (holds : p.HoldsContext f) {answer : Option Tag}
    (references : ∀ t, answer = some t → t.kind = .reference) :
    Takes className config (p.fetching answer) f (f.withStack ((answer.map Tag.fetched).toList ++ f.stack)) := by
  cases answer with
  | none => exact .nil f
  | some t =>
    have taken := takes_service className config holds .getCallAnswer rfl
    have cast := takes_castTo className config (t := t) (f := f.withStack (.object :: f.stack)) rfl
    refine (taken.append cast).trans_eq ?_
    rw [Option.map_some, Tag.fetched, references t rfl]
    rfl

/-- The frame behind a site, with what was recorded there. -/
def SiteCode.returned (s : p.SiteCode site kind sort) (f : SymFrame) : SymFrame where
  locals := f.locals.refill (p.restoredSlots (p.snapshot site).locals)
  stack := (s.answer.map Tag.fetched).toList ++ ((p.snapshot site).stack.map Tag.fetched ++ f.stack)

/-- The slots and the stack that were recorded are fetched back. -/
theorem SiteCode.takes_returning (s : p.SiteCode site kind sort) (holds : p.HoldsContext f)
    (below : ∀ (slot : Slot) (t : Tag), (p.snapshot site).locals[slot]? = some t →
      slot.toNat + t.words ≤ p.slots.context.toNat)
    (references : ∀ t, s.answer = some t → t.kind = .reference) :
    Takes className config s.returning f (s.returned f) := by
  have cleared := takes_service className config holds .clearLabel rfl
  have slots := takes_restoreLocals className config s.locals_eq holds below
  generalize hg : ({ f with locals := f.locals.refill (p.restoredSlots (p.snapshot site).locals) } : SymFrame) = g at slots
  have holds' : p.HoldsContext g := hg ▸ holds.refill fun e he => below _ _ (mem_restoredSlots.1 he).1
  have stack := takes_restoreStack className config s.stack_eq holds'
  have holds'' : p.HoldsContext (g.withStack ((p.snapshot site).stack.map Tag.fetched ++ g.stack)) := holds'
  have answer := takes_fetching className config holds'' references
  refine (((cleared.append slots).append stack).append answer).trans_eq ?_
  rw [← hg]
  rfl

/-- What is fetched back into a slot is of the kind that was recorded. -/
theorem SiteCode.kind_slot (s : p.SiteCode site kind sort) {slot : Slot}
    (h : (slot, t) ∈ p.restoredSlots (p.snapshot site).locals) : t.fetched.kind = t.kind := by
  obtain ⟨codes, hcodes, -⟩ := restoreLocals_eq_ok s.locals_eq
  obtain ⟨code, hcode⟩ := exists_of_mapM hcodes h
  obtain ⟨k, hk, -⟩ := bind_eq_ok.1 hcode
  exact (Tag.fetched_of_storage? (storageFor_eq_ok.1 hk)).2.1

/-- What is fetched back on the stack is of the kind that was recorded. -/
theorem SiteCode.kind_entry (s : p.SiteCode site kind sort) (h : t ∈ (p.snapshot site).stack) :
    t.fetched.kind = t.kind := by
  obtain ⟨codes, hcodes, -⟩ := restoreStack_eq_ok s.stack_eq
  obtain ⟨code, hcode⟩ := exists_of_mapM hcodes (List.mem_reverse.2 h)
  obtain ⟨k, hk, -⟩ := bind_eq_ok.1 hcode
  exact (Tag.fetched_of_storage? (storageFor_eq_ok.1 hk)).2.1

end Plan

end Suspension
