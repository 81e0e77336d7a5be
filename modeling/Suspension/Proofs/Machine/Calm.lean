import Suspension.Proofs.Flow.Built
import Suspension.Proofs.Machine.Ordinary
import Suspension.Proofs.Machine.Services

/-!
# Calm instructions

Most of the code that is put into a method changes nothing that a context keeps of the local slots, and no
slot of the method.  Such instructions are calm.  No instruction at all, and so no run, touches the handles
on the heap.

## Main definitions
* `Contexts.anyhow`, `Contexts.sparing`: contexts that may change in any way, and contexts that keep the
  recorded slots.
* `LocalValues.keepingBelow`: local slots of which none is set up to a given one.
* `Instr.calm`: an instruction that keeps to both.

## Main results
* `Instr.does_calm`: what a calm instruction leaves alone.
* `Run.keepsHandles_follow`, `World.keepsHandles_execute`: runs leave the handles alone.
-/

namespace Suspension

variable {σ : Type}

/-! ## Contexts under services -/

/-- Contexts may change in any way. -/
def Contexts.anyhow : Keeping Contexts where
  rel _ _ := True
  refl _ := trivial
  trans _ _ := trivial

/-- The contexts that are live stay live, and keep the recorded slots. -/
def Contexts.sparing : Keeping Contexts where
  rel cs cs' := cs'.pending = cs.pending ∧
    ∀ id c, cs.get? id = some c → ∃ c', cs'.get? id = some c' ∧ c'.vars.slots = c.vars.slots
  refl _ := ⟨rfl, fun _ c h => ⟨c, h, rfl⟩⟩
  trans a b := ⟨b.1.trans a.1, fun id c h => by
    obtain ⟨c', h', same⟩ := a.2 id c h
    obtain ⟨c'', h'', same'⟩ := b.2 id c' h'
    exact ⟨c'', h'', same'.trans same⟩⟩

/-- Whether a method of a store changes the values under indices. -/
def StoreService.writes : StoreService → Bool
  | .store _ | .increment => true
  | .get _ | .push _ | .pop _ => false

theorem StoreService.slots_apply {s : StoreService} (reads : s.writes = false) {args : List Value}
    {store store' : Store} {v : Option Value} (h : s.apply args store = .ok (v, store')) :
    store'.slots = store.slots := by
  cases s with
  | store | increment => cases reads
  | get k =>
    obtain ⟨_, -, h⟩ := bind_eq_ok.1 h
    obtain ⟨_, -, h⟩ := bind_eq_ok.1 h
    cases h
    rfl
  | push k =>
    obtain ⟨_, -, h⟩ := bind_eq_ok.1 h
    obtain ⟨_, -, h⟩ := bind_eq_ok.1 h
    cases h
    rfl
  | pop k =>
    cases h
    rfl

/-- What a service that records nothing may make of a context: only one service takes the answer. -/
structure MemberRef.Alters (m : MemberRef) (c c' : Context) : Prop where
  parent : c'.parent = c.parent
  slots : c'.vars.slots = c.vars.slots
  answer : c'.callAnswer = c.callAnswer ∨
    ContextService.ofName? m.name = some .getCallAnswer ∧ c'.callAnswer = none

/-- A call of a service on one context keeps to a relation between contexts. -/
structure MemberRef.AdmittedFor (m : MemberRef) (C : Keeping Contexts) (id : ContextId) : Prop where
  drops : ContextService.ofName? m.name = some .deactivate → ∀ cs : Contexts, C.rel cs (cs.deactivate id)
  records : ∀ s, StoreService.ofName? m.name = some s → s.writes = true →
    ∀ (cs : Contexts) c vars, cs.get? id = some c → C.rel cs (cs.set id { c with vars })
  alters : ∀ (cs : Contexts) c c', cs.get? id = some c → m.Alters c c' → C.rel cs (cs.set id c')

/-- A call of a service keeps to a relation between contexts. -/
structure MemberRef.Admitted (m : MemberRef) (C : Keeping Contexts) : Prop where
  obtains : m = Service.createOrResetContext → ∀ cs : Contexts, C.rel cs cs.createOrReset.2
  each : ∀ id, m.AdmittedFor C id

section

variable {C : Keeping Contexts} {m : MemberRef} {α : Type}

theorem keeps_changeContexts {f : Contexts → Except ExecError (α × Contexts)}
    (h : ∀ {cs a cs'}, f cs = .ok (a, cs') → C.rel cs cs') :
    Keeps (World.keeping C) (World.changeContexts f : WorldM σ α) where
  ok := by
    intro w a w' e
    unfold World.changeContexts at e
    split at e
    · next changed =>
      cases e
      exact ⟨⟨h changed, .refl _⟩, trivial⟩
    · cases e
  error := by
    intro w e w' he
    unfold World.changeContexts at he
    split at he
    · cases he
    · cases he
      exact (World.keeping C).refl w

theorem keeps_report (e : Event) : Keeps (World.keeping C) (World.report e : WorldM σ Unit) where
  ok := by
    rintro w _ _ ⟨⟩
    exact ⟨⟨C.refl _, .refl _⟩, trivial⟩
  error := by rintro _ _ _ ⟨⟩

/-- What a context was that could be changed. -/
theorem Contexts.modify_eq_ok {cs cs' : Contexts} {id : ContextId} {f : Context → Context}
    (h : cs.modify id f = .ok cs') : ∃ c, cs.get? id = some c ∧ cs' = cs.set id (f c) := by
  obtain ⟨c, hc, h⟩ := bind_eq_ok.1 h
  cases h
  unfold Contexts.get at hc
  split at hc
  · next found =>
    cases hc
    exact ⟨_, found, rfl⟩
  · cases hc

theorem keeps_changeContext {id : ContextId} {f : Context → Context}
    (h : ∀ (cs : Contexts) c, cs.get? id = some c → C.rel cs (cs.set id (f c))) :
    Keeps (World.keeping C) (World.changeContext id f : WorldM σ Unit) :=
  keeps_changeContexts fun {cs _ _} e => by
    obtain ⟨cs', changed, e⟩ := map_eq_ok.1 e
    cases e
    obtain ⟨c, live, rfl⟩ := Contexts.modify_eq_ok changed
    exact h cs c live

theorem does_context (id : ContextId) :
    Keeps (World.keeping C) (World.context id : WorldM σ Context) :=
  keeps_get.seq fun _ => keeps_except _

/-- A call on the store of the local slots. -/
theorem World.callHandle_localVars (args : List Value) (id : ContextId) (w : World σ) :
    callHandle m args id .localVars w =
      match w.contexts.get? id with
      | none => .error (.unknownContext id) w
      | some c =>
        match callStore m args c.vars with
        | .error e => .error e w
        | .ok (v, vars) => .ok v (w.replace id { c with vars }) := by
  cases live : w.contexts.get? id with
  | none => simp [callHandle, context, Contexts.get, live]
  | some c =>
    cases called : callStore m args c.vars with
    | error e => simp [callHandle, context_apply live, called]
    | ok a => simp [callHandle, context_apply live, called, changeContext_apply live]

/-- A call on the store of the operand stack. -/
theorem World.callHandle_localStack (args : List Value) (id : ContextId) (w : World σ) :
    callHandle m args id .localStack w =
      match w.contexts.get? id with
      | none => .error (.unknownContext id) w
      | some c =>
        match callStore m args c.stack with
        | .error e => .error e w
        | .ok (v, stack) => .ok v (w.replace id { c with stack }) := by
  cases live : w.contexts.get? id with
  | none => simp [callHandle, context, Contexts.get, live]
  | some c =>
    cases called : callStore m args c.stack with
    | error e => simp [callHandle, context_apply live, called]
    | ok a => simp [callHandle, context_apply live, called, changeContext_apply live]

namespace MemberRef.AdmittedFor

variable {id : ContextId} (h : m.AdmittedFor C id)
include h

/-- Each service changes at most one field of the context, except the one that drops it. -/
theorem keeps_context {s : ContextService} (hs : ContextService.ofName? m.name = some s)
    (args : List Value) : Keeps (World.keeping C) (s.apply args id : WorldM σ (Option Value)) := by
  have alters (f : Context → Context) (altered : ∀ c, m.Alters c (f c)) :
      Keeps (World.keeping C) (World.changeContext id f : WorldM σ Unit) :=
    keeps_changeContext fun cs c live => h.alters cs c _ live (altered c)
  cases s with
  | getLabel => exact (does_context id).seq fun _ => keeps_pure _
  | setLabel =>
    exact (keeps_except _).seq fun _ => (keeps_except _).seq fun _ =>
      Does.seq (alters _ fun _ => ⟨rfl, rfl, .inl rfl⟩) fun _ => keeps_pure _
  | clearLabel => exact Does.seq (alters _ fun _ => ⟨rfl, rfl, .inl rfl⟩) fun _ => keeps_pure _
  | getLocalVars | getLocalStack =>
    exact (does_context id).seq fun _ => (keeps_handle ..).seq fun _ => keeps_pure _
  | register =>
    exact Does.seq (alters (fun c => { c with registered := true }) fun _ => ⟨rfl, rfl, .inl rfl⟩) fun _ =>
      keeps_pure _
  | deactivate =>
    have drops : Keeps (World.keeping C) (World.deactivate id : WorldM σ Unit) :=
      (keeps_report _).seq fun _ => keeps_changeContexts fun {cs _ _} e => by
        cases e
        exact h.drops hs cs
    exact drops.seq fun _ => keeps_pure _
  | getCallAnswer =>
    exact (does_context id).seq fun _ => Does.seq (alters _ fun _ => ⟨rfl, rfl, .inr ⟨hs, rfl⟩⟩) fun _ =>
      keeps_pure _

theorem keeps_command (args : List Value) :
    Keeps (World.keeping C) (World.callHandle m args id .context : WorldM σ (Option Value)) := by
  simp only [World.callHandle]
  split
  · next s hs => exact h.keeps_context hs args
  · exact does_throw _

/-- A store that is written keeps its slots, and one that is read keeps everything. -/
theorem keeps_vars (args : List Value) :
    Keeps (World.keeping C) (World.callHandle m args id .localVars : WorldM σ (Option Value)) := by
  have records {v : Option Value} {c : Context} {vars : Store} {w : World σ}
      (live : w.contexts.get? id = some c) (called : World.callStore m args c.vars = .ok (v, vars)) :
      (World.keeping C).rel w (w.replace id { c with vars }) := by
    refine ⟨?_, .refl _⟩
    unfold World.callStore at called
    split at called
    · next s hs =>
      cases writes : s.writes with
      | true => exact h.records s hs writes _ _ _ live
      | false => exact h.alters _ _ _ live ⟨rfl, StoreService.slots_apply writes called, .inl rfl⟩
    · cases called
  constructor
  · intro w v w' e
    rw [World.callHandle_localVars] at e
    split at e
    · cases e
    · next live =>
      split at e
      · cases e
      · next called =>
        cases e
        exact ⟨records live called, trivial⟩
  · intro w e w' he
    rw [World.callHandle_localVars] at he
    split at he
    · cases he
      exact (World.keeping C).refl w
    · split at he
      · cases he
        exact (World.keeping C).refl w
      · cases he

theorem keeps_stack (args : List Value) :
    Keeps (World.keeping C) (World.callHandle m args id .localStack : WorldM σ (Option Value)) := by
  constructor
  · intro w v w' e
    rw [World.callHandle_localStack] at e
    split at e
    · cases e
    · next live =>
      split at e
      · cases e
      · cases e
        exact ⟨⟨h.alters _ _ _ live ⟨rfl, rfl, .inl rfl⟩, .refl _⟩, trivial⟩
  · intro w e w' he
    rw [World.callHandle_localStack] at he
    split at he
    · cases he
      exact (World.keeping C).refl w
    · split at he
      · cases he
        exact (World.keeping C).refl w
      · cases he

/-- What a call on a handle does. -/
theorem keeps_callHandle (args : List Value) (face : ContextFace) :
    Keeps (World.keeping C) (World.callHandle m args id face : WorldM σ (Option Value)) := by
  cases face with
  | context => exact h.keeps_command args
  | localVars => exact h.keeps_vars args
  | localStack => exact h.keeps_stack args

end MemberRef.AdmittedFor

namespace MemberRef.Admitted

variable (h : m.Admitted C)
include h

/-- What a service that is admitted does. -/
theorem keeps_callService (receiver : Option Value) (args : List Value) :
    Keeps (World.keeping C) (World.callService m receiver args : WorldM σ (Option Value)) := by
  unfold World.callService
  split
  · next same =>
    have obtained : Keeps (World.keeping C)
        (World.changeContexts fun cs => .ok cs.createOrReset : WorldM σ ContextId) :=
      keeps_changeContexts fun {cs _ _} e => by
        have rel := h.obtains same cs
        rwa [Except.ok.inj e] at rel
    exact obtained.seq fun _ => (keeps_handle ..).seq fun _ => keeps_pure _
  · split
    · exact does_throw _
    · refine (keeps_except _).seq fun r => ?_
      split
      · exact does_throw _
      · refine (keeps_object _).seq fun o => ?_
        split
        · exact (h.each _).keeps_callHandle args _
        · exact does_throw _

end MemberRef.Admitted

end

/-- A call of a service that drops no context and hands out none, and records nothing. -/
def MemberRef.harmless (m : MemberRef) : Bool :=
  m ≠ Service.createOrResetContext && ContextService.ofName? m.name ≠ some .deactivate &&
    (StoreService.ofName? m.name).all (!·.writes)

theorem MemberRef.admitted_anyhow (m : MemberRef) : m.Admitted Contexts.anyhow :=
  ⟨fun _ _ => trivial, fun _ => ⟨fun _ _ => trivial, fun _ _ _ _ _ _ _ => trivial, fun _ _ _ _ _ => trivial⟩⟩

theorem Contexts.sparing_set {cs : Contexts} {id : ContextId} {c c' : Context}
    (live : cs.get? id = some c) (same : c'.vars.slots = c.vars.slots) :
    Contexts.sparing.rel cs (cs.set id c') := by
  refine ⟨rfl, fun other d h => ?_⟩
  by_cases e : other = id
  · subst e
    obtain rfl := Option.some.inj (live.symm.trans h)
    exact ⟨c', get?_set_self live c', same⟩
  · exact ⟨d, (get?_set_ne e c').trans h, rfl⟩

theorem MemberRef.admitted_sparing {m : MemberRef} (h : m.harmless = true) :
    m.Admitted Contexts.sparing := by
  simp only [harmless, Bool.and_eq_true, decide_eq_true_eq] at h
  obtain ⟨⟨other, lasting⟩, reads⟩ := h
  refine ⟨fun e => absurd e other, fun id => ⟨fun e => absurd e lasting, fun s hs writes => ?_,
    fun _ _ _ live altered => Contexts.sparing_set live altered.slots⟩⟩
  rw [hs] at reads
  simp [writes] at reads

/-! ## Calm instructions -/

/-- Local slots of which none is set up to a given one; an object there stays. -/
def LocalValues.keepingBelow (base : Slot) : Keeping LocalValues where
  rel l l' := (∀ (s : Slot) v, s.toNat < base.toNat → l'[s]? = some v → l[s]? = some v) ∧
    ∀ r, l[base]? = some (.object r) → l'[base]? = some (.object r)
  refl _ := ⟨fun _ _ _ h => h, fun _ h => h⟩
  trans a b := ⟨fun s v below h => a.1 s v below (b.1 s v below h), fun r h => b.2 r (a.2 r h)⟩

/-- Nothing stays in a slot but what was there, or was stored. -/
theorem LocalValues.getElem?_of_store {l : LocalValues} {s t : Slot} {u v : Value}
    (h : (l.store t v)[s]? = some u) : s = t ∧ u = v ∨ s ≠ t ∧ l[s]? = some u := by
  rw [getElem?_store] at h
  split at h
  · next e => exact .inl ⟨e, (Option.some.inj h).symm⟩
  · next ne => exact .inr ⟨ne, (Option.filter_eq_some_iff.1 h).1⟩

theorem LocalValues.keepingBelow_store {base s : Slot} (above : base < s) (l : LocalValues)
    (v : Value) : (keepingBelow base).rel l (l.store s v) := by
  have above : base.toNat < s.toNat := above
  refine ⟨fun t u below h => ?_, fun r h => getElem?_store_of_le h above⟩
  rcases getElem?_of_store h with ⟨rfl, -⟩ | ⟨-, old⟩
  · exact absurd below (by omega)
  · exact old

/-- Whether an instruction stores into no slot up to a given one, records nothing, and goes on to the next
one, throws, or calls. -/
def Instr.calm (base : Slot) : Instr → Bool
  | .plain (.leave _) | .slot .ret _ | .iinc .. | .jump .. | .tableSwitch .. | .lookupSwitch .. => false
  | .slot (.store _) s => base < s
  | .invoke _ m => !m.isService || m.harmless
  | _ => true

theorem Instr.targets_of_calm {base : Slot} {i : Instr} (calm : i.calm base = true) :
    i.targets = [] := by
  cases i with
  | jump | tableSwitch | lookupSwitch => cases calm
  | _ => rfl

/-- Where control goes after a calm instruction. -/
theorem Instr.calm_leads {base : Slot} {i : Instr} (calm : i.calm base = true) {cls : Class} {flow : Flow}
    (h : i.MayLead cls flow) :
    flow = .next ∨ (∃ exc, flow = .raise exc) ∨ ∃ callee args result, flow = .enter callee args result := by
  cases flow with
  | next => exact .inl rfl
  | raise exc => exact .inr (.inl ⟨exc, rfl⟩)
  | enter callee args result => exact .inr (.inr ⟨callee, args, result, rfl⟩)
  | goTo pc =>
    obtain ⟨s, rfl⟩ := h
    cases calm
  | leave v =>
    obtain ⟨k, rfl⟩ := Instr.isReturn_iff.1 h
    cases calm
  | jump l =>
    rw [show i.MayLead cls (.jump l) ↔ l ∈ i.targets from Iff.rfl, targets_of_calm calm] at h
    cases h

variable {cls : Class} {host : Host σ}

/-- What a calm instruction leaves alone. -/
theorem Instr.does_calm (leaves : host.LeavesHandles) {base : Slot} {i : Instr}
    (calm : i.calm base = true) :
    Does (Situation.keeping (LocalValues.keepingBelow base) Contexts.sparing) (i.MayLead cls)
      (i.step cls host) := by
  refine i.does_step cls leaves (fun s hs l v => ?_) fun kind m e service receiver args => ?_
  · unfold written? at hs
    split at hs
    · cases hs
      exact LocalValues.keepingBelow_store (by simpa [Instr.calm] using calm) l v
    · cases calm
    · cases hs
  · subst e
    have harmless : m.harmless = true := by simpa [Instr.calm, service] using calm
    exact (MemberRef.admitted_sparing harmless).keeps_callService receiver args

/-! ## Runs -/

/-- Slots may change in any way. -/
def LocalValues.anyhow : Keeping LocalValues where
  rel _ _ := True
  refl _ := trivial
  trans _ _ := trivial

/-- No instruction touches the handles. -/
theorem Instr.keepsHandles_step (leaves : host.LeavesHandles) (i : Instr) :
    Does (Situation.keeping LocalValues.anyhow Contexts.anyhow) (i.MayLead cls) (i.step cls host) :=
  i.does_step cls leaves (fun _ _ _ _ => trivial)
    fun _ m _ _ => m.admitted_anyhow.keeps_callService

/-- The world of a run or of its end. -/
def Progress.world : Progress σ → World σ
  | .running r => r.world
  | .completed _ w => w
  | .failed _ w => w

namespace Run

theorem world_unwind (w : World σ) (exc : ObjectId) (f : Frame) (cs : List Caller) :
    (unwind host w exc f cs).world = w := by
  induction cs generalizing f with
  | nil =>
    rw [unwind_eq]
    split <;> rfl
  | cons c cs ih =>
    rw [unwind_eq]
    split
    · rfl
    · rfl
    · exact ih c.frame

theorem world_go (r : Run σ) (flow : Flow) : (r.go host flow).world = r.world := by
  cases flow with
  | next => rfl
  | jump l =>
    unfold go
    simp only
    split <;> rfl
  | goTo pc => rfl
  | leave v =>
    obtain ⟨frame, callers, world⟩ := r
    cases callers <;> rfl
  | raise exc => exact world_unwind ..
  | enter callee args result =>
    unfold go
    simp only
    split <;> rfl

theorem keepsHandles_act (leaves : host.LeavesHandles) (r : Run σ) :
    r.world.heap.KeepsHandles (r.act cls host).world.heap := by
  unfold act
  split
  · exact .refl _
  · next i _ =>
    have step : Does (Situation.keeping LocalValues.anyhow Contexts.anyhow) (i.MayLead cls)
        (i.step cls host) := i.keepsHandles_step leaves
    split
    · next done =>
      rw [world_go]
      exact (step.ok done).1.2.2
    · next failed => exact (step.error failed).2.2

theorem keepsHandles_advance (leaves : host.LeavesHandles) (r : Run σ) :
    r.world.heap.KeepsHandles (r.advance cls host).world.heap := by
  rw [advance_eq]
  split
  · exact keepsHandles_act leaves r
  · exact .refl _
  · next n _ => exact keepsHandles_act leaves (r.paying (some n))

/-- Runs leave the handles alone. -/
theorem keepsHandles_follow (leaves : host.LeavesHandles) (n : Nat) (r : Run σ) :
    r.world.heap.KeepsHandles (r.follow cls host n).world.heap := by
  induction n generalizing r with
  | zero => exact .refl _
  | succ n ih =>
    have first : r.world.heap.KeepsHandles (r.advance cls host).world.heap :=
      keepsHandles_advance leaves r
    rw [follow]
    split
    · next r' e =>
      rw [e] at first
      exact first.trans (ih r')
    · exact first

end Run

/-- Runs of a method leave the handles alone. -/
theorem World.keepsHandles_execute (leaves : host.LeavesHandles) (patience : Nat) (method : Method)
    (args : List Value) : Keeps (World.keeping Contexts.anyhow)
      (World.execute cls host patience method args) := by
  have whole (frame : Frame) (w : World σ) (n : Nat) :
      w.heap.KeepsHandles (({ frame, world := w } : Run σ).follow cls host n).world.heap :=
    Run.keepsHandles_follow leaves n { frame, world := w }
  constructor
  · intro w c w' e
    unfold World.execute at e
    split at e
    · cases e
    · next frame _ =>
      have kept := whole frame w (w.fuel.getD patience + 1)
      split at e
      · next done =>
        cases e
        rw [done] at kept
        exact ⟨⟨trivial, kept⟩, trivial⟩
      · cases e
      · cases e
  · intro w c w' e
    unfold World.execute at e
    split at e
    · cases e
      exact (World.keeping _).refl w
    · next frame _ =>
      have kept := whole frame w (w.fuel.getD patience + 1)
      split at e
      · cases e
      · next done =>
        cases e
        rw [done] at kept
        exact ⟨trivial, kept⟩
      · next done =>
        cases e
        rw [done] at kept
        exact ⟨trivial, kept⟩

end Suspension
