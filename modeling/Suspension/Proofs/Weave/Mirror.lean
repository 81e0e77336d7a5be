import Suspension.Proofs.Weave.Ready

/-!
# The mirror of the local slots

The store of the local slots in a context repeats the slots of the frame that runs on it.  The code that is
put behind a store or an increment brings it up to date, and so does the code that copies the parameters.

## Main definitions
* `Weaving.Mirrors`: a store repeats the slots of a frame.
* `Weaving.Mirrored`: the context of a frame does.
* `World.Spares`: contexts that other code leaves alone.

## Main results
* `Weaving.Mirrored.spared`, `Weaving.Mirrored.calmed`: what does not disturb the mirror.
* `Weaving.Mirrored.performs_store`, `Weaving.Mirrored.performs_increment`: what brings it up to date.
* `Weaving.Mirrored.fetched`: so does a slot that is fetched back.
* `Plan.performs_deregister`: the context is dropped in front of a return.
-/

namespace Suspension

variable {σ : Type}

/-! ## What a store recalls -/

theorem Value.words_eq_of_mover {v : Value} {t : Tag} (h : v.kind.mover = t.kind.mover) :
    v.words = t.words := by
  cases v <;> cases t <;> first | rfl | cases h

theorem Value.words_eq_width {v : Value} {k : Storage} (h : v.kind.mover = k) :
    v.words = k.width.words := by
  subst h
  cases v <;> rfl

namespace Store

variable {s s' : Store} {k : Storage} {index other amount : Int32} {v : Value}

theorem recall_congr (h : s'.slots = s.slots) : s'.recall k index = s.recall k index := by
  simp only [Store.recall, getReferenceLike, get, slot?, h]

theorem slot?_put (s : Store) (index other : Int32) (v : Value) :
    (s.put index v).slot? other = if index = other then some v else s.slot? other := by
  rw [slot?, put, Std.ExtTreeMap.getElem?_insert]
  simp [slot?]

/-- What was put under an index is recalled. -/
theorem recall_put_self : (s.put index v).recall v.kind.mover index = v := by
  cases v <;> simp [Store.recall, getReferenceLike, get, slot?_put, read, Value.kind, Kind.mover, Storage.kind]

theorem recall_put_ne (h : index ≠ other) : (s.put index v).recall k other = s.recall k other := by
  simp only [Store.recall, getReferenceLike, get, slot?_put, if_neg h]

/-- What is added to an int that is recalled is recalled with it. -/
theorem increment_eq {n : Int32} (h : s.recall .int index = .int n) :
    s.increment index amount = s.put index (.int (n + amount)) := by
  have h : s.get .int index = .int n := h
  rw [increment, h]

/-- An addition changes no other index. -/
theorem recall_increment_ne (h : index ≠ other) :
    (s.increment index amount).recall k other = s.recall k other := by
  unfold increment
  split <;> exact recall_put_ne h

end Store

/-! ## Contexts that are left alone -/

/-- The contexts of a sort stay live and keep the recorded slots, and the handles stay. -/
structure World.Spares (others : ContextId → Prop) (w w' : World σ) : Prop where
  contexts : ∀ id c, others id → w.contexts.get? id = some c →
    ∃ c', w'.contexts.get? id = some c' ∧ c'.vars.slots = c.vars.slots
  handles : w.heap.KeepsHandles w'.heap

namespace World

variable {w w' w'' : World σ} {id : ContextId} {c : Context} {others : ContextId → Prop}

/-- A context that is replaced is the only one that changes. -/
theorem Reaches.spares (h : w.Reaches id c w') : w.Spares (· ≠ id) w' :=
  ⟨fun other d ne live => ⟨d, by rw [h.contexts, Contexts.get?_set_ne ne, live], rfl⟩,
    h.heap.keepsHandles⟩

theorem spares_of_keeping (h : (World.keeping Contexts.sparing).rel w w') :
    w.Spares (fun _ => True) w' :=
  ⟨fun id c _ live => h.1.2 id c live, h.2⟩

theorem spares_paying (w : World σ) (fuel : Option Nat) : w.Spares (fun _ => True) (w.paying fuel) :=
  ⟨fun _ c _ live => ⟨c, live, rfl⟩, .refl _⟩

theorem Spares.trans (h : w.Spares others w') (h' : w'.Spares others w'') : w.Spares others w'' := by
  refine ⟨fun id c mine live => ?_, h.handles.trans h'.handles⟩
  obtain ⟨c', live', same⟩ := h.contexts id c mine live
  obtain ⟨c'', live'', same'⟩ := h'.contexts id c' mine live'
  exact ⟨c'', live'', same'.trans same⟩

/-- The world after a context was dropped. -/
def dropped (w : World σ) (id : ContextId) : World σ :=
  { w with
    contexts := w.contexts.deactivate id
    events := w.events ++ [Contexts.deactivated id] }

theorem spares_dropped (w : World σ) (id : ContextId) : w.Spares (· ≠ id) (w.dropped id) := by
  refine ⟨fun other c ne live => ⟨c, ?_, rfl⟩, .refl _⟩
  have ne : other.index ≠ id.index := by
    rintro same
    cases other
    cases id
    exact ne (congrArg ContextId.mk same)
  exact (Arena.get?_remove ..).trans ((if_neg ne).trans live)

end World

/-- The code in front of a return drops the context.  Two services are called, one behind the other: the context
is registered, and then dropped. -/
theorem Plan.performs_deregister (cls : Class) (host : Host σ) {p : Plan} {f : Frame} {w : World σ}
    {id : ContextId} {c : Context} (holds : f.Holds p.slots.context w id c) :
    ∃ w', Performs cls host p.deregister ⟨f, w⟩ ⟨f.moved 4 f.stack, w'⟩ ∧ w.Spares (· ≠ id) w' ∧
      w'.contexts.pending = w.contexts.pending := by
  have completed (fuel : Option Nat) (live : (w.paying fuel).contexts.get? id = some c) :
      ContextService.register.apply [] id (w.paying fuel) =
        .ok none ((w.replace id { c with registered := true }).paying fuel) := by
    have changed := World.changeContext_apply live fun c => { c with registered := true }
    simp only [World.changeContext] at changed
    simp [ContextService.apply, Contexts.register, changed]
    rfl
  have reaches : w.Reaches id { c with registered := true } (w.replace id { c with registered := true }) :=
    World.reaches_replace _
  have holds' : (f.moved 2 f.stack).Holds p.slots.context (w.replace id { c with registered := true }) id
      { c with registered := true } := holds.after reaches rfl
  have dropped (fuel : Option Nat)
      (_ : ((w.replace id { c with registered := true }).paying fuel).contexts.get? id =
        some { c with registered := true }) :
      ContextService.deactivate.apply [] id ((w.replace id { c with registered := true }).paying fuel) =
        .ok none (((w.replace id { c with registered := true }).dropped id).paying fuel) := rfl
  have first := performs_service cls host holds .register rfl completed
  have second := performs_service cls host holds' .deactivate rfl dropped
  exact ⟨_, first.append second, reaches.spares.trans (World.spares_dropped ..), rfl⟩

namespace Weaving

variable (W : Weaving)

/-- A store repeats the slots of a frame below the reserved ones, but for that of the receiver. -/
def Mirrors (f : Frame) (vars : Store) : Prop :=
  ∀ (s : Slot) (v : Value), s.toNat < W.base → (W.method.isStatic = true ∨ s ≠ 0) →
    f.locals[s]? = some v → vars.recall v.kind.mover (slotIndex s) = v

/-- A frame of the suspendable method holds a context, which repeats its slots. -/
structure Mirrored (f : Frame) (w : World σ) (id : ContextId) : Prop where
  method : f.method = W.result
  context : ∃ c, f.Holds W.plan.slots.context w id c ∧ W.Mirrors f c.vars

variable {W} {f g : Frame} {w w' : World σ} {id : ContextId} {c : Context} {others : ContextId → Prop}

theorem Mirrors.congr {vars vars' : Store} (h : W.Mirrors f vars)
    (kept : ∀ (s : Slot) v, s.toNat < W.base → g.locals[s]? = some v → f.locals[s]? = some v)
    (same : vars'.slots = vars.slots) : W.Mirrors g vars' := fun s v below mine hs => by
  rw [Store.recall_congr same]
  exact h s v below mine (kept s v below hs)

namespace Mirrored

/-- The same slots, somewhere else. -/
theorem congr (h : W.Mirrored f w id) (method : g.method = f.method) (locals : g.locals = f.locals) :
    W.Mirrored g w id := by
  obtain ⟨c, holds, mirrors⟩ := h.context
  exact ⟨method.trans h.method, c, ⟨locals ▸ holds.handle, holds.live, holds.intact⟩,
    mirrors.congr (fun s v _ hs => locals ▸ hs) rfl⟩

/-- Other code does not disturb the mirror. -/
theorem spared (h : W.Mirrored f w id) (spares : w.Spares others w') (mine : others id) :
    W.Mirrored f w' id := by
  obtain ⟨c, holds, mirrors⟩ := h.context
  obtain ⟨c', live, same⟩ := spares.contexts id c mine holds.live
  obtain ⟨r, hr, ho⟩ := holds.handle
  exact ⟨h.method, c', ⟨⟨r, hr, spares.handles.kept r _ _ ho⟩, live, spares.handles.intact holds.intact⟩,
    mirrors.congr (fun _ _ _ hs => hs) same⟩

/-- Nor do calm instructions. -/
theorem calmed (h : W.Mirrored f w id)
    (calm : (Situation.keeping (LocalValues.keepingBelow W.plan.slots.context)
      Contexts.sparing).rel ⟨f, w⟩ ⟨g, w'⟩) : W.Mirrored g w' id := by
  obtain ⟨⟨method, -, locals⟩, world⟩ := calm
  obtain ⟨c, holds, mirrors⟩ := (h.spared (World.spares_of_keeping world) trivial).context
  obtain ⟨r, hr, ho⟩ := holds.handle
  exact ⟨method.trans h.method, c, ⟨⟨r, locals.2 r hr, ho⟩, holds.live, holds.intact⟩,
    mirrors.congr (fun s v below hs => locals.1 s v below hs) rfl⟩

theorem paying (h : W.Mirrored f w id) (fuel : Option Nat) : W.Mirrored f (w.paying fuel) id := by
  obtain ⟨c, holds, mirrors⟩ := h.context
  exact ⟨h.method, c, ⟨holds.handle, holds.live, holds.intact⟩, mirrors⟩

end Mirrored

/-! ## What brings the mirror up to date -/

/-- A store into a slot below the reserved ones leaves the context where it is. -/
theorem context_setLocal {s : Slot} {v : Value} (room : s.toNat + v.words ≤ W.base) :
    (f.setLocal s v).locals[W.plan.slots.context]? = f.locals[W.plan.slots.context]? :=
  Frame.getElem?_setLocal_above room

/-- The mirror after a slot was stored and recorded. -/
theorem Mirrors.put {s : Slot} {v : Value} {vars : Store} (h : W.Mirrors f vars) :
    W.Mirrors (f.setLocal s v) (vars.put (slotIndex s) v) := by
  intro t u below mine ht
  rcases LocalValues.getElem?_of_store ht with ⟨rfl, rfl⟩ | ⟨ne, old⟩
  · exact Store.recall_put_self
  · rw [Store.recall_put_ne fun e => ne (slotIndex_inj.1 e).symm]
    exact h t u below mine old

/-- The mirror after an int was added to. -/
theorem Mirrors.increment {s : Slot} {n amount : Int32} {vars : Store} (h : W.Mirrors f vars)
    (below : s.toNat < W.base) (hn : f.locals[s]? = some (.int n)) :
    W.Mirrors (f.setLocal s (.int (n + amount))) (vars.increment (slotIndex s) amount) := by
  intro t u belowt mine ht
  rcases LocalValues.getElem?_of_store ht with ⟨rfl, rfl⟩ | ⟨ne, old⟩
  · rw [Store.increment_eq (h t (.int n) below mine hn)]
    exact Store.recall_put_self
  · rw [Store.recall_increment_ne fun e => ne (slotIndex_inj.1 e).symm]
    exact h t u belowt mine old

variable (cls : Class) (host : Host σ)

namespace Mirrored

/-- A store, with the code behind it. -/
theorem performs_store (h : W.Mirrored f w id) {k : Storage} {s : Slot} {v : Value}
    {rest : List Value} (hstack : f.stack = v :: rest) (hk : v.kind.mover = k)
    (room : s.toNat + k.width.words ≤ W.base) :
    ∃ g w' c', Performs cls host (.store k s :: W.plan.record (.store k s)) ⟨f, w⟩ ⟨g, w'⟩ ∧
      W.Mirrored g w' id ∧ w.Reaches id c' w' := by
  obtain ⟨c, holds, mirrors⟩ := h.context
  have kept : (f.setLocal s v).locals[W.plan.slots.context]? = f.locals[W.plan.slots.context]? :=
    context_setLocal (by rw [Value.words_eq_width hk]; exact room)
  have stored : (Instr.store k s).Carries cls host ⟨f, w⟩ ⟨(f.setLocal s v).moved 1 rest, w⟩ :=
    Carries.store hstack hk
  have holds' : ((f.setLocal s v).moved 1 rest).Holds W.plan.slots.context w id c :=
    holds.after (World.Reaches.refl holds.live) kept
  obtain ⟨w', recorded, reaches⟩ := W.plan.performs_recordSlot cls host holds'
    (Frame.getElem?_locals_setLocal_self f s v) hk
  refine ⟨_, w', _, .cons stored recorded, ⟨h.method, _, holds'.after reaches rfl, ?_⟩, reaches⟩
  exact mirrors.put.congr (fun _ _ _ hs => hs) rfl

/-- An increment, with the code behind it. -/
theorem performs_increment (h : W.Mirrored f w id) {s : Slot} {n : Int32} (amount : Int16)
    (hn : f.locals[s]? = some (.int n)) (room : s.toNat + 1 ≤ W.base) :
    ∃ g w' c', Performs cls host (.iinc s amount :: W.plan.record (.iinc s amount)) ⟨f, w⟩ ⟨g, w'⟩ ∧
      W.Mirrored g w' id ∧ w.Reaches id c' w' := by
  obtain ⟨c, holds, mirrors⟩ := h.context
  have kept : (f.setLocal s (.int (n + amount.toInt32))).locals[W.plan.slots.context]? =
      f.locals[W.plan.slots.context]? := context_setLocal room
  have added : (Instr.iinc s amount).Carries cls host ⟨f, w⟩
      ⟨(f.setLocal s (.int (n + amount.toInt32))).moved 1 f.stack, w⟩ := Carries.iinc hn
  have holds' : ((f.setLocal s (.int (n + amount.toInt32))).moved 1 f.stack).Holds
      W.plan.slots.context w id c := holds.after (World.Reaches.refl holds.live) kept
  obtain ⟨w', recorded, reaches⟩ := W.plan.performs_recordIncrement cls host holds' amount
  refine ⟨_, w', _, .cons added recorded, ⟨h.method, _, holds'.after reaches rfl, ?_⟩, reaches⟩
  exact (mirrors.increment room hn).congr (fun _ _ _ hs => hs) rfl

/-- A value that is about to be fetched back. -/
theorem performs_get (h : W.Mirrored f w id) (k : Storage) (s : Slot) :
    ∃ c w', f.Holds W.plan.slots.context w id c ∧ W.Mirrors f c.vars ∧
      Performs cls host (W.plan.localVars ++ [pushSlot s, callService (Service.get k)]) ⟨f, w⟩
        ⟨f.moved 4 (c.vars.recall k (slotIndex s) :: f.stack), w'⟩ ∧ w.Reaches id c w' := by
  obtain ⟨c, holds, mirrors⟩ := h.context
  obtain ⟨r, w₁, asked, reaches, hr⟩ := W.plan.performs_localVars cls host holds
  have call : (callService (Service.get k)).Carries cls host
      ⟨f.moved 3 (.int (slotIndex s) :: .object r :: f.stack), w₁⟩
      ⟨f.moved 4 (c.vars.recall k (slotIndex s) :: f.stack), w₁.replace id c⟩ :=
    Carries.varsService [.int (slotIndex s)] (.get k) rfl rfl hr (holds.live_after reaches)
      StoreService.apply_get
  exact ⟨c, _, holds, mirrors, asked.append (.cons (Carries.pushInt _) (.one call)),
    reaches.trans (World.reaches_replace c)⟩

/-- The mirror after a slot was fetched back. -/
theorem fetched (h : W.Mirrored f w id) {c : Context} (holds : f.Holds W.plan.slots.context w id c)
    {k : Storage} {s : Slot} (room : s.toNat + k.width.words ≤ W.base) :
    W.Mirrored (f.setLocal s (c.vars.recall k (slotIndex s))) w id := by
  obtain ⟨c', holds', mirrors⟩ := h.context
  obtain rfl : c' = c := Option.some.inj (holds'.live.symm.trans holds.live)
  have mover := Store.mover_recall c'.vars k (slotIndex s)
  refine ⟨h.method, c', holds.after (World.Reaches.refl holds.live)
    (context_setLocal (by rw [Value.words_eq_width mover]; exact room)), ?_⟩
  intro t u below mine ht
  rcases LocalValues.getElem?_of_store ht with ⟨rfl, rfl⟩ | ⟨-, old⟩
  · rw [mover]
  · exact mirrors t u below mine old

end Mirrored

end Weaving

end Suspension
