import Suspension.Proofs.Machine.Effects
import Suspension.Proofs.Machine.Owned
import Suspension.Proofs.Weave.Care
import Suspension.Proofs.Weave.Resumption

/-!
# Frames that tend a context

What the stages of suspendable code say about a frame: at each of them it has handles of one context only,
which is its own.  Each instruction leads to what the next stage says, and changes no other context.

## Main definitions
* `Care.Holds`: what a stage says about a frame.
* `Frame.Tends`, `Frame.Waits`: frames of suspendable code, and of code that meddles with no context, that
  are run or wait.
* `Frame.Lands`: what is known where control goes.

## Main results
* `Frame.Tends.step`: one instruction.
-/

namespace Suspension

variable {σ : Type} {cls : Class} {host : Host σ} {ready : Contexts → Prop}

/-! ## Handles -/

/-- A value is a handle of a context, or of one of its stores. -/
def Value.Shows (v : Value) (h : Heap) (id : ContextId) : Prop :=
  ∃ r face, v = .object r ∧ h.get? r = some (.handle face id)

theorem Value.Shows.kept {v : Value} {h h' : Heap} {id : ContextId} (shows : v.Shows h id)
    (kept : h.KeepsHandles h') : v.Shows h' id := by
  obtain ⟨r, face, rfl, ho⟩ := shows
  exact ⟨r, face, rfl, kept.kept r face id ho⟩

/-- A context hands out handles of its own stores.  Its stores do not know the names of the services that do. -/
theorem World.shows_of_callHandle {s : ContextService} (hs : s = .getLocalVars ∨ s = .getLocalStack)
    {w w' : World σ} {args : List Value} {id : ContextId} {face : ContextFace} {a : Option Value}
    (intact : w.heap.HandlesIntact) (called : callHandle s.ref args id face w = .ok a w') :
    ∃ v, a = some v ∧ v.Shows w'.heap id := by
  have noStore : StoreService.ofName? s.ref.name = none := by
    rcases hs with rfl | rfl <;> decide
  cases face with
  | context =>
    simp only [callHandle, s.ofName?_ref] at called
    cases live : w.contexts.get? id with
    | none => rcases hs with rfl | rfl <;> simp [ContextService.apply, context, Contexts.get, live] at called
    | some c =>
      have handled (face : ContextFace) : Value.Shows (.object (w.heap.handle id face).1)
          (w.heap.handle id face).2 id := ⟨_, face, rfl, Heap.get?_handle intact ..⟩
      rcases hs with rfl | rfl <;> simp [ContextService.apply, context_apply live] at called <;>
        obtain ⟨rfl, rfl⟩ := called <;> exact ⟨_, rfl, handled _⟩
  | localVars =>
    rw [World.callHandle_localVars] at called
    simp only [callStore, noStore] at called
    split at called <;> cases called
  | localStack =>
    rw [World.callHandle_localStack] at called
    simp only [callStore, noStore] at called
    split at called <;> cases called

/-- The call that drops a context does so, or is refused and changes nothing. -/
theorem World.callHandle_deactivate (args : List Value) (id : ContextId) (face : ContextFace) (w : World σ) :
    (∃ w', callHandle (ContextService.ref .deactivate) args id face w = .ok none w' ∧
        w'.contexts = w.contexts.deactivate id) ∨
      ∃ e, callHandle (ContextService.ref .deactivate) args id face w = .error e w := by
  have noStore : StoreService.ofName? (ContextService.ref .deactivate).name = none := by decide
  cases face with
  | context =>
    have dropped : ∃ w', ContextService.deactivate.apply args id w = .ok none w' ∧
      w'.contexts = w.contexts.deactivate id := ⟨_, rfl, rfl⟩
    simpa only [callHandle, ContextService.ofName?_ref] using .inl dropped
  | localVars =>
    rw [callHandle_localVars]
    simp only [callStore, noStore]
    split
    · exact .inr ⟨_, rfl⟩
    · exact .inr ⟨_, rfl⟩
  | localStack =>
    rw [callHandle_localStack]
    simp only [callStore, noStore]
    split
    · exact .inr ⟨_, rfl⟩
    · exact .inr ⟨_, rfl⟩

/-- A slot holds nothing but a handle of a context. -/
def Frame.Houses (f : Frame) (home : Slot) (h : Heap) (id : ContextId) : Prop :=
  ∀ v, f.locals[home]? = some v → v.Shows h id

/-- Local slots of which one is given no other value. -/
def LocalValues.sparing (home : Slot) : Keeping LocalValues where
  rel l l' := ∀ v, l'[home]? = some v → l[home]? = some v
  refl _ _ h := h
  trans a b v h := a v (b v h)

theorem LocalValues.sparing_store {home s : Slot} (other : s ≠ home) (l : LocalValues) (v : Value) :
    (sparing home).rel l (l.store s v) := by
  intro u h
  rcases getElem?_of_store h with ⟨same, -⟩ | ⟨-, old⟩
  · exact absurd same.symm other
  · exact old

/-! ## Constructors of signals -/

/-- The constructor of a signal is entered if the class that is run has it, and is noted otherwise. -/
theorem Instr.step_constructor {k : SiteKind} {f : Frame} {w : World σ} {args rest : List Value} {r : ObjectId}
    (stack : f.stack = args.reverse ++ .object r :: rest) (length : args.length = k.constructorParams.length) :
    (Instr.invoke .special k.constructor).step cls host ⟨f, w⟩ =
      match cls.callee? k.constructor with
      | some callee => .ok (.enter callee (.object r :: args) none) ⟨{ f with stack := rest }, w⟩
      | none =>
        match construct k.constructor (some (.object r)) args w with
        | .ok _ w' => .ok .next ⟨{ f with stack := rest }, w'⟩
        | .error e w' => .error e ⟨{ f with stack := rest }, w'⟩ := by
  have pops : Frame.popMany k.constructorParams.length f = .ok args { f with stack := .object r :: rest } := by
    rw [← length]
    exact Frame.popMany_apply stack
  have notNull : Value.object r ≠ .null := by simp [Value.object, Value.null]
  have notService : ¬ (k.constructor.owner = Service.contextClass ∨ k.constructor.owner = Service.storeClass) := by
    cases k <;> decide
  have name : k.constructor.name = Service.constructorName := rfl
  cases found : cls.callee? k.constructor with
  | some callee =>
    simp [step, MemberRef.call, k.callSignature_constructor, pops, Frame.pop, InvokeKind.hasReceiver, notNull,
      notService, found]
  | none =>
    cases built : construct k.constructor (some (.object r)) args w <;>
      simp [step, MemberRef.call, k.callSignature_constructor, pops, Frame.pop, InvokeKind.hasReceiver, notNull,
        notService, found, name, built, MemberRef.call.finish, Frame.receive]

/-- The constructor of a signal notes the first argument as its context.  A payload, if there is one, is noted
under another name. -/
theorem construct_known {k : SiteKind} {w : World σ} {r : ObjectId} {c : String}
    {fields : Std.ExtTreeMap String Value} (known : w.heap.get? r = some (.plain c fields)) (v : Value)
    (more : List Value) :
    ∃ w', construct k.constructor (some (.object r)) (v :: more) w = .ok () w' ∧ w'.contexts = w.contexts ∧
      w.heap.KeepsHandles w'.heap ∧ w'.heap.field? r Service.contextField = some v := by
  have keeps : Keeps (World.keeping Contexts.still)
      (construct k.constructor (some (.object r)) (v :: more) : WorldM σ Unit) := keeps_construct ..
  obtain ⟨w', built, given⟩ : ∃ w', construct k.constructor (some (.object r)) (v :: more) w = .ok () w' ∧
      w'.heap.field? r Service.contextField = some v := by
    have owner : Service.siteOfSignal? k.constructor.owner = some k := Service.siteOfSignal?_signalClass k
    have apart : compare Service.payloadField Service.contextField ≠ .eq := by decide
    have isThere : (w.heap.get? r).isSome := by simp [known]
    have first : World.setField r Service.contextField v w = .ok () (w.withHeap
        (w.heap.set r (.plain c (fields.insert Service.contextField v)))) :=
      World.setField_apply (Heap.setField_eq known ..)
    have noted : (w.heap.set r (.plain c (fields.insert Service.contextField v))).get? r =
        some (.plain c (fields.insert Service.contextField v)) := by
      rw [Heap.get?_set _ _ _ _ isThere, if_pos rfl]
    cases more with
    | nil =>
      refine ⟨_, by simp [construct, Value.object, owner, argument, first]; rfl, ?_⟩
      simp [World.withHeap, Heap.field?, noted]
    | cons payload more =>
      have second := World.setField_apply (w := w.withHeap _) (Heap.setField_eq noted Service.payloadField payload)
      refine ⟨_, by simp [construct, Value.object, owner, argument, first]; exact second, ?_⟩
      rw [Heap.field?, Heap.get?_set _ _ _ _ (by simp [noted]), if_pos rfl]
      show ((fields.insert _ v).insert _ payload)[Service.contextField]? = some v
      rw [Std.ExtTreeMap.getElem?_insert, if_neg apart, Std.ExtTreeMap.getElem?_insert_self]
  obtain ⟨⟨contexts, kept⟩, -⟩ := keeps.ok built
  exact ⟨w', built, contexts, kept, given⟩

/-! ## Stages of a frame -/

/-- What a stage says about a frame that keeps its handle in slot `home`, and about the context that it owns.
Nothing is known of the value that a constructor of the class itself leaves. -/
inductive Care.Holds (cls : Class) (ready : Contexts → Prop) (home : Slot) (w : World σ) (f : Frame) :
    Care → Option ContextId → Prop
  | unmet (first : ready w.contexts) : Holds cls ready home w f .unmet none
  | given {id : ContextId} {v : Value} {rest : List Value} (stack : f.stack = v :: rest)
      (shows : v.Shows w.heap id) : Holds cls ready home w f .given (some id)
  | kept {id : ContextId} (houses : f.Houses home w.heap id) : Holds cls ready home w f .kept (some id)
  | lifted {id : ContextId} {depth : Nat} {v : Value} (houses : f.Houses home w.heap id)
      (stack : f.stack[depth]? = some v) (shows : v.Shows w.heap id) :
      Holds cls ready home w f (.lifted depth) (some id)
  | dropped : Holds cls ready home w f .dropped none
  | born {id : ContextId} {r : ObjectId} {c : String} {fields : Std.ExtTreeMap String Value} {rest : List Value}
      (houses : f.Houses home w.heap id) (stack : f.stack = .object r :: rest)
      (known : w.heap.get? r = some (.plain c fields)) : Holds cls ready home w f .born (some id)
  | copied {id : ContextId} {r : ObjectId} {c : String} {fields : Std.ExtTreeMap String Value} {rest : List Value}
      (houses : f.Houses home w.heap id) (stack : f.stack = .object r :: .object r :: rest)
      (known : w.heap.get? r = some (.plain c fields)) : Holds cls ready home w f .copied (some id)
  | giving {id : ContextId} {r : ObjectId} {c : String} {fields : Std.ExtTreeMap String Value}
      {v : Value} {above rest : List Value} (houses : f.Houses home w.heap id)
      (stack : f.stack = above ++ v :: .object r :: .object r :: rest)
      (known : w.heap.get? r = some (.plain c fields)) (shows : v.Shows w.heap id) :
      Holds cls ready home w f (.giving above.length) (some id)
  | built {id : ContextId} (houses : f.Houses home w.heap id)
      (signal : Service.siteOfSignal? cls.name = none → ∃ r v rest, f.stack = .object r :: rest ∧
        w.heap.field? r Service.contextField = some v ∧ v.Shows w.heap id) :
      Holds cls ready home w f .built (some id)

/-- Nothing but the heap and the contexts matters. -/
theorem Care.Holds.paying {home : Slot} {w : World σ} {f : Frame} {S : Care} {own : Option ContextId}
    (h : S.Holds cls ready home w f own) (fuel : Option Nat) :
    S.Holds cls ready home (w.paying fuel) f own := by
  cases h with
  | unmet first => exact .unmet first
  | given stack shows => exact .given stack shows
  | kept houses => exact .kept houses
  | lifted houses stack shows => exact .lifted houses stack shows
  | dropped => exact .dropped
  | born houses stack known => exact .born houses stack known
  | copied houses stack known => exact .copied houses stack known
  | giving houses stack known shows => exact .giving houses stack known shows
  | built houses signal => exact .built houses signal

/-- The code of a method meddles with no context. -/
def Method.Plain (m : Method) : Prop := ∀ i ∈ m.code.instrs, i.meddles = false

instance (m : Method) : Decidable m.Plain :=
  inferInstanceAs (Decidable (∀ i ∈ m.code.instrs, i.meddles = false))

namespace Frame

/-- A frame that is run, with the context that it owns. -/
inductive Tends (cls : Class) (ready : Contexts → Prop) (w : World σ) (f : Frame) : Option ContextId → Prop
  | plain (plain : f.method.Plain) : Tends cls ready w f none
  | woven {W : Weaving} {S : Care} {own : Option ContextId} (method : f.method = W.result)
      (unaware : W.method.Plain) (care : W.care f.pc = some S)
      (holds : S.Holds cls ready W.plan.home w f own) : Tends cls ready w f own

/-- A frame that waits, with the context that it owns: it may even wait for a constructor of the class. -/
inductive Waits (cls : Class) (h : Heap) (f : Frame) : Option ContextId → Prop
  | plain (plain : f.method.Plain) : Waits cls h f none
  | woven {W : Weaving} {id : ContextId} (method : f.method = W.result) (unaware : W.method.Plain)
      (houses : f.Houses W.plan.home h id)
      (care : W.care f.pc = some .kept ∨ W.care f.pc = some .built ∧ Service.siteOfSignal? cls.name ≠ none) :
      Waits cls h f (some id)

/-- A frame whose handlers it may go to, with the context that it owns. -/
inductive Catches (h : Heap) (f : Frame) : Option ContextId → Prop
  | plain (plain : f.method.Plain) : Catches h f none
  | woven {W : Weaving} {id : ContextId} (method : f.method = W.result) (unaware : W.method.Plain)
      (houses : f.Houses W.plan.home h id) : Catches h f (some id)

/-- What is known where control goes. -/
def Lands (cls : Class) (ready : Contexts → Prop) (w : World σ) (f : Frame) (own : Option ContextId) :
    Flow → Prop
  | .next => f.Tends cls ready w own
  | .jump l => ∀ pc, f.target l = .ok pc → (f.goneTo pc).Tends cls ready w own
  | .goTo pc => (f.goneTo pc).Tends cls ready w own
  | .leave _ => True
  | .raise _ => f.Catches w.heap own
  | .enter callee .. => callee ∈ cls.methods ∧ f.Waits cls w.heap own

end Frame

/-! ## Places of suspendable code -/

/-- Where a label is found, it stands. -/
theorem Frame.getElem?_of_target (f : Frame) {l : Label} {pc : Nat} (h : f.target l = .ok pc) :
    f.method.code.instrs[pc]? = some (.label l) := by
  unfold Frame.target Code.target? at h
  split at h
  · next found =>
    cases h
    obtain ⟨q, rfl, hq⟩ := getElem?_of_lastDefinition found
    rwa [Nat.zero_add]
  · cases h

namespace Weaving

variable {W : Weaving} {pc : Nat} {i : Instr}

/-- The stages in front of an instruction and behind it. -/
theorem exists_after (unaware : W.method.Plain) (hi : W.stream[pc]? = some i) :
    ∃ S S', W.care pc = some S ∧ S.after W.plan.home i = some S' ∧ W.care (pc + 1) = some S' := by
  obtain ⟨S, hS⟩ := W.exists_care unaware pc
  obtain ⟨S', hS'⟩ := W.exists_care unaware (pc + 1)
  refine ⟨S, S', hS, ?_, hS'⟩
  rw [← hS', care_succ hi, hS]
  rfl

/-- A label stands where a context is kept. -/
theorem care_label (unaware : W.method.Plain) {l : Label} (hi : W.stream[pc]? = some (.label l)) :
    W.care pc = some .kept := by
  obtain ⟨S, S', hS, after, -⟩ := exists_after unaware hi
  cases S <;> first | exact hS | simp [Care.after, Instr.pushes, Instr.isReturn] at after

/-- So does what comes behind a call of a subroutine. -/
theorem care_jsr (unaware : W.method.Plain) {l : Label} (hi : W.stream[pc]? = some (.jump .jsr l)) :
    W.care (pc + 1) = some .kept := by
  obtain ⟨S, S', -, after, hS'⟩ := exists_after unaware hi
  cases S <;>
    simp [Care.after, Instr.pushes, Instr.isReturn, Instr.meddles, Instr.written?, SiteKind.all] at after
  rw [hS', ← after]

/-- Behind the constructor of a signal the signal is built. -/
theorem care_constructor (unaware : W.method.Plain) {k : SiteKind}
    (hi : W.stream[pc]? = some (.invoke .special k.constructor)) : W.care (pc + 1) = some .built := by
  obtain ⟨S, S', -, after, hS'⟩ := exists_after unaware hi
  have meddles : (Instr.invoke .special k.constructor).meddles = true := by cases k <;> decide
  have other : Instr.invoke .special k.constructor ≠ .invoke .static Service.createOrResetContext := nofun
  have pushes : (Instr.invoke .special k.constructor).pushes = false := rfl
  rw [hS']
  cases S with
  | giving depth =>
    rcases Care.after_giving after with ⟨-, -, -, rfl⟩ | ⟨push, -⟩
    · rfl
    · cases push
  | _ => simp [Care.after, meddles, Instr.pushes, Instr.isReturn] at after

/-- Where a label is found. -/
theorem getElem?_of_target {f : Frame} (own : f.method = W.result) {l : Label} (h : f.target l = .ok pc) :
    W.stream[pc]? = some (.label l) := by
  have found := f.getElem?_of_target h
  rwa [own] at found

end Weaving

/-- Suspendable code is no code that meddles with no context. -/
theorem Weaving.not_plain (W : Weaving) : ¬ W.result.Plain := by
  intro plain
  obtain ⟨s, -, -, front⟩ := Plan.prologue_eq_ok W.opened
  have obtains : Instr.invoke .static Service.createOrResetContext ∈ W.stream := by
    rw [Weaving.stream, front]
    simp [Plan.obtaining]
  exact absurd (plain _ obtains) (by decide)

/-- The place of a handler is that of its label. -/
theorem Frame.exists_target {f : Frame} {w : World σ} {place pc : Nat} {exc : ObjectId} {regions : List Region}
    (h : f.handlerFor host w place exc regions = .ok (some pc)) : ∃ l, f.target l = .ok pc := by
  induction regions with
  | nil => cases h
  | cons r rest ih =>
    obtain ⟨covered, -, h⟩ := bind_eq_ok.1 h
    split at h
    · obtain ⟨caught, -, h⟩ := bind_eq_ok.1 h
      split at h
      · obtain ⟨pc', target, h⟩ := bind_eq_ok.1 h
        cases h
        exact ⟨r.handler, target⟩
      · exact ih h
    · exact ih h

/-- A subroutine is left for the place behind a call of one in the same method. -/
def Frame.Homing (f : Frame) : Prop :=
  ∀ s pc, Run.fetch f = .ok (.slot .ret s) → f.locals[s]? = some (.address pc) →
    ∃ q l, pc = q + 1 ∧ f.method.code.instrs[q]? = some (.jump .jsr l)

namespace Frame

variable {f g : Frame} {w w' : World σ} {own : Option ContextId} {i : Instr} {flow : Flow}

/-! ## Where frames land -/

/-- A handler is a label, so the frame is where its context is kept. -/
theorem Catches.tends (h : f.Catches w.heap own) {l : Label} {pc : Nat} (target : f.target l = .ok pc)
    (exc : ObjectId) : (f.catching exc pc).Tends cls ready w own := by
  cases h with
  | plain plain => exact .plain plain
  | @woven W id method unaware houses =>
    exact .woven method unaware (W.care_label unaware (Weaving.getElem?_of_target method target)) (.kept houses)

theorem Waits.catches {h : Heap} (waits : f.Waits cls h own) : f.Catches h own := by
  cases waits with
  | plain plain => exact .plain plain
  | woven method unaware houses => exact .woven method unaware houses

theorem Tends.paying (tends : f.Tends cls ready w own) (fuel : Option Nat) :
    f.Tends cls ready (w.paying fuel) own := by
  cases tends with
  | plain plain => exact .plain plain
  | woven method unaware care holds => exact .woven method unaware care (holds.paying fuel)

/-- A frame that waited goes on with any stack. -/
theorem Waits.tends (h : f.Waits cls w.heap own) (method : g.method = f.method) (locals : g.locals = f.locals)
    (pc : g.pc = f.pc) : g.Tends cls ready w own := by
  cases h with
  | plain plain => exact .plain (method ▸ plain)
  | @woven W id own unaware houses care =>
    have houses : g.Houses W.plan.home w.heap id := fun v hv => houses v (locals ▸ hv)
    rcases care with kept | ⟨built, signal⟩
    · exact .woven (method.trans own) unaware (pc ▸ kept) (.kept houses)
    · exact .woven (method.trans own) unaware (pc ▸ built) (.built houses fun none => absurd none signal)

theorem Waits.kept {h h' : Heap} (waits : f.Waits cls h own) (kept : h.KeepsHandles h') :
    f.Waits cls h' own := by
  cases waits with
  | plain plain => exact .plain plain
  | woven method unaware houses care =>
    exact .woven method unaware (fun v hv => (houses v hv).kept kept) care

/-- Wherever control goes from a place where a context is kept. -/
theorem lands_kept {W : Weaving} {id : ContextId} (own : f.method = W.result) (unaware : W.method.Plain)
    (houses : f.Houses W.plan.home w.heap id) (care : W.care f.pc = some .kept) (leads : i.MayLead cls flow)
    (homing : ∀ pc, flow = .goTo pc → ∃ q l, pc = q + 1 ∧ W.stream[q]? = some (.jump .jsr l)) :
    f.Lands cls ready w (some id) flow := by
  cases flow with
  | next => exact .woven own unaware care (.kept houses)
  | jump l =>
    intro pc target
    exact .woven own unaware (W.care_label unaware (Weaving.getElem?_of_target own target)) (.kept houses)
  | goTo pc =>
    obtain ⟨q, l, rfl, jsr⟩ := homing pc rfl
    exact .woven own unaware (W.care_jsr unaware jsr) (.kept houses)
  | leave v => trivial
  | raise exc => exact .woven own unaware houses
  | enter callee args result =>
    obtain ⟨_, _, _, _, _, _, found, -⟩ := leads
    exact ⟨(Class.callee?_eq_some found).1, .woven own unaware houses (.inl care)⟩

/-- Code that meddles with no context may go anywhere. -/
theorem lands_plain (plain : f.method.Plain) (leads : i.MayLead cls flow) :
    f.Lands cls ready w none flow := by
  cases flow with
  | next => exact .plain plain
  | jump l => exact fun _ _ => .plain plain
  | goTo pc => exact .plain plain
  | leave v => trivial
  | raise exc => exact .plain plain
  | enter callee args result =>
    obtain ⟨_, _, _, _, _, _, found, -⟩ := leads
    exact ⟨(Class.callee?_eq_some found).1, .plain plain⟩


/-! ## Steps -/

/-- An instruction changes the contexts as its frame may, and leads where the frame lands. -/
def Proceeds (cls : Class) (host : Host σ) (ready : Contexts → Prop) (w : World σ) (f : Frame)
    (own : Option ContextId) (i : Instr) : Prop :=
  match i.step cls host ⟨f.moved 1 f.stack, w⟩ with
  | .ok flow t => ∃ own', Contexts.Effect ready w.contexts own own' t.world.contexts ∧
      t.frame.Lands cls ready t.world own' flow
  | .error _ t => ∃ own', Contexts.Effect ready w.contexts own own' t.world.contexts

/-- A frame proceeds by an instruction that changes no context if it lands. -/
theorem Proceeds.still {L : Keeping LocalValues} {P : Flow → Prop}
    (does : Does (Situation.keeping L Contexts.still) P (i.step cls host))
    (lands : ∀ flow t, i.step cls host ⟨f.moved 1 f.stack, w⟩ = .ok flow t → P flow →
      t.frame.method = f.method → t.frame.pc = f.pc + 1 → L.rel f.locals t.frame.locals →
      w.heap.KeepsHandles t.world.heap → t.world.contexts = w.contexts →
      t.frame.Lands cls ready t.world own flow) : f.Proceeds cls host ready w own i := by
  unfold Proceeds
  cases step : i.step cls host ⟨f.moved 1 f.stack, w⟩ with
  | ok flow t =>
    obtain ⟨⟨⟨method, pc, locals⟩, contexts, heap⟩, leads⟩ := does.ok step
    have contexts : t.world.contexts = w.contexts := contexts
    exact ⟨own, contexts ▸ .nothing own, lands flow t step leads method pc locals heap contexts⟩
  | error e t =>
    obtain ⟨-, contexts, -⟩ := does.error step
    have contexts : t.world.contexts = w.contexts := contexts
    exact ⟨own, contexts ▸ .nothing own⟩

end Frame

namespace Weaving

/-- A frame of suspendable code in front of an instruction, with the stages in front of it and behind. -/
structure Minds (W : Weaving) (f : Frame) (i : Instr) (S S' : Care) : Prop where
  method : f.method = W.result
  unaware : W.method.Plain
  before : W.care f.pc = some S
  after : S.after W.plan.home i = some S'
  behind : W.care (f.pc + 1) = some S'

namespace Minds

variable {W : Weaving} {S S' : Care} {own own' : Option ContextId} {id : ContextId} {f f' : Frame}
  {w w' : World σ} {i : Instr} {v : Value}

/-- The next instruction is met at the next stage. -/
theorem tends (m : W.Minds f i S S') (method : f'.method = f.method) (pc : f'.pc = f.pc + 1)
    (holds : S'.Holds cls ready W.plan.home w' f' own') : f'.Tends cls ready w' own' :=
  .woven (method.trans m.method) m.unaware (pc ▸ m.behind) holds

/-- Handlers are met with the handle still in its slot. -/
theorem catches (m : W.Minds f i S S') {h : Heap} (method : f'.method = f.method)
    (houses : f'.Houses W.plan.home h id) : f'.Catches h (some id) :=
  .woven (method.trans m.method) m.unaware houses

/-- An instruction of which all that it does is known. -/
theorem carries (m : W.Minds f i S S') (carries : i.Carries cls host ⟨f, w⟩ ⟨f', w'⟩)
    (effect : Contexts.Effect ready w.contexts own own' w'.contexts)
    (holds : S'.Holds cls ready W.plan.home w' f' own') : f.Proceeds cls host ready w own i := by
  unfold Frame.Proceeds
  rw [carries.eq]
  exact ⟨own', effect, m.tends carries.method carries.pc (holds.paying w.fuel)⟩

variable (leaves : host.LeavesHandles)
include leaves

/-- A value is pushed. -/
theorem pushed (m : W.Minds f i S S') (pushes : i.pushes = true)
    (holds : ∀ v, S'.Holds cls ready W.plan.home w (f.moved 1 (v :: f.stack)) own) :
    f.Proceeds cls host ready w own i := by
  have unwritten : ∀ t, i.written? = some t → ∀ (l : LocalValues) v, LocalValues.anyhow.rel l (l.store t v) :=
    fun _ _ _ _ => trivial
  refine .still (Instr.does_still leaves (Instr.not_callsService_of_pushes pushes) unwritten)
    fun flow t step _ _ _ _ _ _ => ?_
  obtain ⟨rfl, v, rfl⟩ := Instr.step_pushes pushes step
  exact m.tends rfl rfl (holds v)

/-- The handle is pushed. -/
theorem lifts (m : W.Minds f (.load .reference W.plan.home) S S') (houses : f.Houses W.plan.home w.heap id)
    (holds : ∀ v, v.Shows w.heap id →
      S'.Holds cls ready W.plan.home w (f.moved 1 (v :: f.stack)) (some id)) :
    f.Proceeds cls host ready w (some id) (.load .reference W.plan.home) := by
  have unwritten : ∀ t, (Instr.load .reference W.plan.home).written? = some t → ∀ (l : LocalValues) v,
      LocalValues.anyhow.rel l (l.store t v) := fun _ _ _ _ => trivial
  refine .still (Instr.does_still leaves rfl unwritten) fun flow t step _ _ _ _ _ _ => ?_
  obtain ⟨v, found, rfl, rfl⟩ := Instr.step_load step
  exact m.tends rfl rfl (holds v (houses v found))

/-! ### Stages -/

theorem unmet (m : W.Minds f i .unmet S') (first : ready w.contexts) (intact : w.heap.HandlesIntact) :
    f.Proceeds cls host ready w none i := by
  have after := m.after
  simp only [Care.after] at after
  split at after
  · next obtains =>
    subst obtains
    cases after
    cases stack : f.stack with
    | nil =>
      unfold Frame.Proceeds
      rw [Instr.step_createOrReset_nil (f := f.moved 1 f.stack) stack]
      exact ⟨none, .nothing none⟩
    | cons v rest =>
      exact m.carries (Carries.createOrReset cls host stack) (.obtained first)
        (.given rfl ⟨_, _, rfl, Heap.get?_handle intact ..⟩)
  · split at after
    · next pushes =>
      cases after
      exact m.pushed leaves pushes fun _ => .unmet first
    · cases after

omit leaves in
theorem given {rest : List Value} (m : W.Minds f i .given S') (stack : f.stack = v :: rest)
    (shows : v.Shows w.heap id) : f.Proceeds cls host ready w (some id) i := by
  have after := m.after
  simp only [Care.after] at after
  split at after
  · next stores =>
    subst stores
    cases after
    have reference : v.kind.mover = .reference := by
      obtain ⟨r, face, rfl, -⟩ := shows
      rfl
    refine m.carries (Carries.store stack reference) (.nothing _) (.kept fun u hu => ?_)
    have same : u = v := by
      rw [Frame.locals_moved, Frame.getElem?_locals_setLocal, if_pos rfl] at hu
      exact (Option.some.inj hu).symm
    exact same ▸ shows
  · cases after

theorem kept (m : W.Minds f i .kept S') (houses : f.Houses W.plan.home w.heap id)
    (homing : ∀ s pc, i = .slot .ret s → f.locals[s]? = some (.address pc) →
      ∃ q l, pc = q + 1 ∧ W.stream[q]? = some (.jump .jsr l)) :
    f.Proceeds cls host ready w (some id) i := by
  have after := m.after
  simp only [Care.after] at after
  split at after
  · next lifts =>
    subst lifts
    cases after
    exact m.lifts leaves houses fun v shows => .lifted houses rfl shows
  · split at after
    · next born =>
      obtain ⟨k, -, rfl⟩ := born
      cases after
      have kept := w.heap.keepsHandles_alloc (.new k.signalClass)
      exact m.carries (Carries.new k.signalClass) (.nothing _)
        (.born (fun u hu => (houses u hu).kept kept) rfl (Heap.get?_alloc_self ..))
    · split at after
      · cases after
      · next other =>
        cases after
        obtain ⟨inert, unwritten⟩ : i.meddles = false ∧ i.written? ≠ some W.plan.home := by
          simpa using other
        refine .still (L := LocalValues.sparing W.plan.home)
          (Instr.does_still leaves (Instr.not_callsService_of_inert inert) fun s hs l u =>
            LocalValues.sparing_store (fun e : s = W.plan.home => unwritten (e ▸ hs)) l u)
          fun flow t step leads method pc locals heap _ => ?_
        refine Frame.lands_kept (method.trans m.method) m.unaware (fun u hu => ?_) (pc ▸ m.behind) leads ?_
        · exact (houses u (locals u hu)).kept heap
        · rintro q rfl
          obtain ⟨s, rfl⟩ := leads
          obtain ⟨q', found, same⟩ := Instr.step_ret_eq_ok step
          cases same
          exact homing s q rfl found

omit leaves in
/-- A call on the handle, with what is known of it whatever its arguments are.  The handle lies beneath the
arguments of the call. -/
theorem serves {ref : MemberRef} {sig : Signature} (m : W.Minds f (callService ref) S S')
    (hsig : callSignature ref.descriptor = .ok sig) (service : ref.isService = true)
    (other : ref ≠ Service.createOrResetContext) (stack : f.stack[sig.params.length]? = some v)
    (shows : v.Shows w.heap id)
    (succeeds : ∀ args face a w', World.callHandle ref args id face w = .ok a w' →
      ∃ own', Contexts.Effect ready w.contexts (some id) own' w'.contexts ∧ ∀ rest,
        S'.Holds cls ready W.plan.home w' (f.moved 1 (Carries.received sig.result a rest)) own')
    (fails : ∀ args face e w', World.callHandle ref args id face w = .error e w' →
      ∃ own', Contexts.Effect ready w.contexts (some id) own' w'.contexts) :
    f.Proceeds cls host ready w (some id) (callService ref) := by
  obtain ⟨r, face, rfl, ho⟩ := shows
  obtain ⟨high, top⟩ := List.getElem?_eq_some_iff.1 stack
  have beneath : f.stack = (f.stack.take sig.params.length).reverse.reverse ++
      .object r :: f.stack.drop (sig.params.length + 1) := by
    rw [List.reverse_reverse, ← top, List.getElem_cons_drop, List.take_append_drop]
  have length : (f.stack.take sig.params.length).reverse.length = sig.params.length := by
    rw [List.length_reverse, List.length_take, Nat.min_eq_left (Nat.le_of_lt high)]
  unfold Frame.Proceeds
  rw [Instr.step_callService (f := f.moved 1 f.stack) service other hsig beneath length ho]
  split
  · next step =>
    split at step
    · next called =>
      cases step
      obtain ⟨own', effect, holds⟩ := succeeds _ _ _ _ called
      exact ⟨own', effect, m.tends rfl rfl (holds _)⟩
    · cases step
  · next step =>
    split at step
    · cases step
    · next called =>
      cases step
      exact fails _ _ _ _ called

omit leaves in
/-- A service is called on a handle that was lifted.  All services but one leave the context live, and after
most of them it is kept as before. -/
theorem served {ref : MemberRef} {depth : Nat} (m : W.Minds f (callService ref) (.lifted depth) S')
    (served : Care.served depth ref = some S') (intact : w.heap.HandlesIntact)
    (houses : f.Houses W.plan.home w.heap id) (stack : f.stack[depth]? = some v) (shows : v.Shows w.heap id) :
    f.Proceeds cls host ready w (some id) (callService ref) := by
  have lasts (other : ContextService.ofName? ref.name ≠ some .deactivate) (args : List Value)
      (face : ContextFace) : Keeps (World.keeping (Contexts.lasting id))
        (World.callHandle ref args id face : WorldM σ (Option Value)) :=
    (MemberRef.admittedFor_lasting other id).keeps_callHandle args face
  have still {h : Heap} (kept : w.heap.KeepsHandles h) {g : Frame} (locals : g.locals = f.locals) :
      g.Houses W.plan.home h id := fun u hu => (houses u (locals ▸ hu)).kept kept
  rcases Care.served_eq_some served with ⟨s, rfl, rfl, rfl⟩ | ⟨s, rfl, rfl, rfl⟩
  · have service : s.ref.isService = true := by simp [MemberRef.isService, s.owner_ref]
    refine m.serves s.callSignature_ref service s.ref_ne stack shows ?_ ?_
    · intro args face a w' called
      by_cases drops : s = .deactivate
      · subst drops
        rcases World.callHandle_deactivate args id face w with ⟨w'', done, contexts⟩ | ⟨e, refused⟩
        · cases done.symm.trans called
          exact ⟨none, contexts ▸ .dropped id, fun _ => .dropped⟩
        · cases refused.symm.trans called
      · have other : ContextService.ofName? s.ref.name ≠ some .deactivate := by
          rw [s.ofName?_ref]
          exact fun e => drops (Option.some.inj e)
        obtain ⟨lasting, kept⟩ := ((lasts other args face).ok called).1
        refine ⟨some id, .served lasting, fun rest => ?_⟩
        cases s with
        | getLocalVars =>
          obtain ⟨u, rfl, shown⟩ := World.shows_of_callHandle (.inl rfl) intact called
          exact .lifted (still kept rfl) rfl shown
        | getLocalStack =>
          obtain ⟨u, rfl, shown⟩ := World.shows_of_callHandle (.inr rfl) intact called
          exact .lifted (still kept rfl) rfl shown
        | deactivate => exact absurd rfl drops
        | _ => exact .kept (still kept rfl)
    · intro args face e w' called
      by_cases drops : s = .deactivate
      · subst drops
        rcases World.callHandle_deactivate args id face w with ⟨w'', done, contexts⟩ | ⟨e, refused⟩
        · cases done.symm.trans called
        · cases refused.symm.trans called
          exact ⟨some id, .nothing _⟩
      · have other : ContextService.ofName? s.ref.name ≠ some .deactivate := by
          rw [s.ofName?_ref]
          exact fun e => drops (Option.some.inj e)
        exact ⟨some id, .served ((lasts other args face).error called).1⟩
  · have service : s.ref.isService = true := by simp [MemberRef.isService, s.owner_ref]
    have other : ContextService.ofName? s.ref.name ≠ some .deactivate := by
      cases s with
      | increment => decide
      | store k | get k | push k | pop k => cases k <;> decide
    refine m.serves s.callSignature_ref service s.ref_ne stack shows ?_ ?_
    · intro args face a w' called
      obtain ⟨lasting, kept⟩ := ((lasts other args face).ok called).1
      exact ⟨some id, .served lasting, fun _ => .kept (still kept rfl)⟩
    · intro args face e w' called
      exact ⟨some id, .served ((lasts other args face).error called).1⟩

theorem lifted {depth : Nat} (m : W.Minds f i (.lifted depth) S') (intact : w.heap.HandlesIntact)
    (houses : f.Houses W.plan.home w.heap id) (stack : f.stack[depth]? = some v) (shows : v.Shows w.heap id) :
    f.Proceeds cls host ready w (some id) i := by
  rcases Care.after_lifted m.after with ⟨ref, rfl, served⟩ | ⟨pushes, rfl⟩
  · exact m.served served intact houses stack shows
  · exact m.pushed leaves pushes fun u => .lifted houses stack shows

theorem dropped (m : W.Minds f i .dropped S') : f.Proceeds cls host ready w none i := by
  have after := m.after
  simp only [Care.after] at after
  split at after
  · next leave =>
    obtain ⟨k, rfl⟩ := Instr.isReturn_iff.1 leave
    refine .still (L := LocalValues.anyhow) (Instr.does_still leaves rfl fun _ _ _ _ => trivial)
      fun flow t step _ _ _ _ _ _ => ?_
    obtain ⟨v, rfl, -⟩ := Instr.step_leave_eq_ok step
    trivial
  · cases after

omit leaves in
theorem born {r : ObjectId} {c : String} {fields : Std.ExtTreeMap String Value} {rest : List Value}
    (m : W.Minds f i .born S') (houses : f.Houses W.plan.home w.heap id) (stack : f.stack = .object r :: rest)
    (known : w.heap.get? r = some (.plain c fields)) : f.Proceeds cls host ready w (some id) i := by
  have after := m.after
  simp only [Care.after] at after
  split at after
  · next copies =>
    subst copies
    cases after
    exact m.carries (Carries.dup stack rfl) (.nothing _) (.copied houses rfl known)
  · cases after

theorem copied {r : ObjectId} {c : String} {fields : Std.ExtTreeMap String Value} {rest : List Value}
    (m : W.Minds f i .copied S') (houses : f.Houses W.plan.home w.heap id)
    (stack : f.stack = .object r :: .object r :: rest) (known : w.heap.get? r = some (.plain c fields)) :
    f.Proceeds cls host ready w (some id) i := by
  have after := m.after
  simp only [Care.after] at after
  split at after
  · next lifts =>
    subst lifts
    cases after
    refine m.lifts leaves houses fun v shows => ?_
    have topmost : v :: f.stack = [] ++ v :: .object r :: .object r :: rest := congrArg (v :: ·) stack
    exact .giving (f := f.moved 1 _) houses topmost known shows
  · cases after

/-- Either the constructor is called, or its payload is pushed first; of a class that is named like the signals
nothing is claimed. -/
theorem giving {r : ObjectId} {c : String} {fields : Std.ExtTreeMap String Value} {above rest : List Value}
    (m : W.Minds f i (.giving above.length) S') (houses : f.Houses W.plan.home w.heap id)
    (stack : f.stack = above ++ v :: .object r :: .object r :: rest)
    (known : w.heap.get? r = some (.plain c fields)) (shows : v.Shows w.heap id) :
    f.Proceeds cls host ready w (some id) i := by
  rcases Care.after_giving m.after with ⟨k, rfl, length, rfl⟩ | ⟨pushes, rfl⟩
  · have beneath : f.stack = (v :: above.reverse).reverse ++ .object r :: .object r :: rest := by
      rw [stack, List.reverse_cons, List.reverse_reverse, List.append_assoc]
      rfl
    unfold Frame.Proceeds
    rw [Instr.step_constructor (f := f.moved 1 f.stack) beneath (by simp [length])]
    cases found : cls.callee? k.constructor with
    | some callee =>
      have named : k.signalClass = cls.name := by
        unfold Class.callee? at found
        split at found
        · next owner => exact owner
        · cases found
      refine ⟨some id, .nothing _, (Class.callee?_eq_some found).1, ?_⟩
      exact .woven m.method m.unaware houses (.inr ⟨m.behind, by simp [← named]⟩)
    | none =>
      obtain ⟨w', built, contexts, kept, given⟩ := construct_known (k := k) known v above.reverse
      simp only [built]
      refine ⟨some id, contexts ▸ .nothing _, m.tends rfl rfl ?_⟩
      exact .built (fun u hu => (houses u hu).kept kept) fun _ => ⟨r, v, rest, rfl, given, shows.kept kept⟩
  · refine m.pushed leaves pushes fun u => ?_
    have topmost : u :: f.stack = (u :: above) ++ v :: .object r :: .object r :: rest := congrArg (u :: ·) stack
    exact .giving (f := f.moved 1 _) houses topmost known shows

theorem built (m : W.Minds f i .built S') (houses : f.Houses W.plan.home w.heap id) :
    f.Proceeds cls host ready w (some id) i := by
  have after := m.after
  simp only [Care.after] at after
  split at after
  · next throws =>
    subst throws
    refine .still (L := LocalValues.sparing W.plan.home) (Instr.does_still leaves rfl fun _ h => by cases h)
      fun flow t step _ method _ locals heap _ => ?_
    obtain ⟨exc, rfl⟩ := Instr.step_athrow_eq_ok step
    exact m.catches method fun u hu => (houses u (locals u hu)).kept heap
  · cases after

end Minds

end Weaving

namespace Frame

variable {f : Frame} {w : World σ} {own : Option ContextId} {i : Instr}

/-- One instruction changes only the context that its frame owns, and leads where the frame lands.  Code of
others does not know of handles; the code of the method is at one stage of its care. -/
theorem Tends.step (leaves : host.LeavesHandles) (intact : w.heap.HandlesIntact) (homing : ¬ f.method.Plain → f.Homing)
    (tends : f.Tends cls ready w own) (fetched : Run.fetch f = .ok i) :
    f.Proceeds cls host ready w own i := by
  cases tends with
  | plain plain =>
    have inert := plain i (Run.mem_of_fetch fetched)
    refine .still (L := LocalValues.anyhow) (Instr.does_still leaves (Instr.not_callsService_of_inert inert)
      fun _ _ _ _ => trivial) fun flow t step leads method _ _ _ _ => ?_
    have plain : t.frame.method.Plain := method ▸ plain
    exact lands_plain plain leads
  | @woven W S own method unaware care holds =>
    have here : W.stream[f.pc]? = some i := by
      have found := Run.getElem?_of_fetch fetched
      rwa [method] at found
    obtain ⟨S₀, S', before, after, behind⟩ := W.exists_after unaware here
    obtain rfl : S₀ = S := Option.some.inj (before.symm.trans care)
    have m : W.Minds f i S₀ S' := ⟨method, unaware, before, after, behind⟩
    cases holds with
    | unmet first => exact m.unmet leaves first intact
    | given stack shows => exact m.given stack shows
    | kept houses =>
      refine m.kept leaves houses fun s pc e found => ?_
      obtain ⟨q, l, rfl, jsr⟩ := homing (method ▸ W.not_plain) s pc (e ▸ fetched) found
      rw [method] at jsr
      exact ⟨q, l, rfl, jsr⟩
    | lifted houses stack shows => exact m.lifted leaves intact houses stack shows
    | dropped => exact m.dropped leaves
    | born houses stack known => exact m.born houses stack known
    | copied houses stack known => exact m.copied leaves houses stack known
    | giving houses stack known shows => exact m.giving leaves houses stack known shows
    | built houses signal => exact m.built leaves houses

end Frame

end Suspension
