import Suspension.Proofs.Weave.Tending

/-!
# Tidy runs

A run is tidy if each of its frames tends the context that it owns, and no two frames own the same one.  A
tidy run stays tidy, and so it changes no context that was there before it began.

## Main definitions
* `Class.Careful`: a class of which no method meddles with contexts but through inserted code.
* `Waiting`: frames that wait, each with a context of its own.
* `Run.Tidy`, `Run.Fair`: the invariant, and what the states of a run have to keep to.

## Main results
* `Run.Tidy.act`: one step of a tidy run.
* `Run.Tidy.follow`: a whole tidy run.
-/

namespace Suspension

variable {σ : Type} {cls : Class} {host : Host σ} {ready : Contexts → Prop} {n : Nat}

/-- Every method of a class meddles with no context, or is the suspendable form of one that does not. -/
def Class.Careful (cls : Class) : Prop :=
  ∀ m ∈ cls.methods, m.Plain ∨ ∃ W : Weaving, m = W.result ∧ W.method.Plain

/-- A context that a frame owns was handed out to it, and to none of the owners of others. -/
def Apart (n : Nat) (cs : Contexts) (own : Option ContextId) (ids : List ContextId) : Prop :=
  ∀ id, own = some id → Contexts.Owned n cs id ∧ id ∉ ids

/-- Frames that wait, with the contexts that they own; no two of them own the same one. -/
inductive Waiting (cls : Class) (n : Nat) (h : Heap) (contexts : Contexts) : List ContextId → List Caller → Prop
  | nil : Waiting cls n h contexts [] []
  | cons {own : Option ContextId} {ids : List ContextId} {c : Caller} {cs : List Caller}
      (waits : c.frame.Waits cls h own) (apart : Apart n contexts own ids)
      (rest : Waiting cls n h contexts ids cs) : Waiting cls n h contexts (own.toList ++ ids) (c :: cs)

variable {w w' : World σ} {f g : Frame} {cs : List Caller} {own own' : Option ContextId}
  {ids : List ContextId} {flow : Flow} {r r' : Run σ}

/-! ## What happens while frames wait -/

/-- Frames that wait keep their contexts, whatever a frame does that owns none of them. -/
theorem Waiting.after {h h' : Heap} {contexts contexts' : Contexts} (waiting : Waiting cls n h contexts ids cs)
    (effect : Contexts.Effect ready contexts own own' contexts') (kept : h.KeepsHandles h')
    (other : ∀ id ∈ ids, own ≠ some id) : Waiting cls n h' contexts' ids cs ∧ ∀ id ∈ ids, own' ≠ some id := by
  induction waiting with
  | nil => exact ⟨.nil, fun _ hid => absurd hid List.not_mem_nil⟩
  | @cons mine ids c cs waits apart _ ih =>
    obtain ⟨rest, others⟩ := ih fun id hid => other id (List.mem_append_right _ hid)
    have spared : ∀ id, mine = some id → Contexts.Owned n contexts' id ∧ own' ≠ some id := fun id e =>
      effect.others (apart id e).1 (other id (by simp [e]))
    refine ⟨.cons (waits.kept kept) (fun id e => ⟨(spared id e).1, (apart id e).2⟩) rest, fun id hid => ?_⟩
    rcases List.mem_append.1 hid with first | later
    · exact (spared id (by simpa using first)).2
    · exact others id later

namespace Run

/-- Every frame tends the context that it owns, and contexts with ids below a bound have no owner. -/
structure Tidy (cls : Class) (ready : Contexts → Prop) (n : Nat) (r : Run σ) : Prop where
  intact : r.world.heap.HandlesIntact
  beyond : Contexts.Beyond n r.world.contexts
  frames : ∃ own ids, r.frame.Tends cls ready r.world own ∧ Apart n r.world.contexts own ids ∧
    Waiting cls n r.world.heap r.world.contexts ids r.callers

/-- In suspendable code, subroutines are left for the place behind one of their calls, and a method that is
called is only entered if a context can be handed out to it. -/
structure Fair (ready : Contexts → Prop) (r : Run σ) : Prop where
  homing : ¬ r.frame.method.Plain → r.frame.Homing
  entered : r.callers ≠ [] → r.frame.method.Plain ∨ ready r.world.contexts

/-! ## Where a tidy run goes -/

section

variable (intact : w.heap.HandlesIntact) (beyond : Contexts.Beyond n w.contexts)
  (apart : Apart n w.contexts own ids) (waiting : Waiting cls n w.heap w.contexts ids cs)
include intact beyond apart waiting

/-- An exception that is caught leaves a tidy run.  It goes up the waiting frames until one of them catches it. -/
theorem tidy_unwind (catches : f.Catches w.heap own) {exc : ObjectId}
    (h : unwind host w exc f cs = .running r') : r'.Tidy cls ready n := by
  induction waiting generalizing f own with
  | nil =>
    rw [unwind_eq] at h
    split at h
    · cases h
    · next found =>
      cases h
      obtain ⟨l, target⟩ := Frame.exists_target found
      exact ⟨intact, beyond, own, [], catches.tends target exc, apart, .nil⟩
    · cases h
  | cons waits apart' rest ih =>
    rw [unwind_eq] at h
    split at h
    · cases h
    · next found =>
      cases h
      obtain ⟨l, target⟩ := Frame.exists_target found
      exact ⟨intact, beyond, own, _, catches.tends target exc, apart, .cons waits apart' rest⟩
    · exact ih apart' waits.catches h

/-- Wherever control goes from a frame that lands, the run is tidy.  A callee owns nothing yet. -/
theorem tidy_go (careful : cls.Careful) (lands : g.Lands cls ready w own flow)
    (h : go host ⟨g, cs, w⟩ flow = .running r')
    (entered : r'.callers ≠ [] → r'.frame.method.Plain ∨ ready r'.world.contexts) : r'.Tidy cls ready n := by
  cases flow with
  | next =>
    cases h
    exact ⟨intact, beyond, own, ids, lands, apart, waiting⟩
  | jump l =>
    unfold go at h
    simp only at h
    split at h
    · next pc target =>
      cases h
      exact ⟨intact, beyond, own, ids, lands pc target, apart, waiting⟩
    · cases h
  | goTo pc =>
    cases h
    exact ⟨intact, beyond, own, ids, lands, apart, waiting⟩
  | leave v =>
    cases waiting with
    | nil => cases h
    | @cons own' ids' c cs waits apart' rest =>
      cases h
      have back : (c.frame.receive c.result v).Tends cls ready w own' := by
        refine waits.tends ?_ ?_ ?_ <;> cases c.result <;> rfl
      exact ⟨intact, beyond, own', ids', back, apart', rest⟩
  | raise exc => exact tidy_unwind intact beyond apart waiting lands h
  | enter callee args result =>
    unfold go at h
    simp only at h
    split at h
    · next frame enters =>
      cases h
      obtain ⟨member, waits⟩ := lands
      obtain ⟨-, layout⟩ := Frame.enter_eq_ok enters
      have method : frame.method = callee := layout ▸ (Frame.layOut_eq ..).1
      have pc : frame.pc = 0 := layout ▸ (Frame.layOut_eq ..).2.2
      refine ⟨intact, beyond, none, own.toList ++ ids, ?_, nofun, .cons waits apart waiting⟩
      rcases careful callee member with plain | ⟨W, woven, unaware⟩
      · exact .plain (method ▸ plain)
      · rcases entered (List.cons_ne_nil _ _) with plain | first
        · exact .plain plain
        · exact .woven (method.trans woven) unaware (pc ▸ W.care_zero) (.unmet first)
    · cases h

end

/-! ## Steps -/

theorem Tidy.paying (h : r.Tidy cls ready n) (fuel : Option Nat) : (r.paying fuel).Tidy cls ready n := by
  obtain ⟨own, ids, tends, apart, waiting⟩ := h.frames
  exact ⟨h.intact, h.beyond, own, ids, tends.paying fuel, apart, waiting⟩

/-- One instruction of a tidy run: it changes the contexts as its frame may, which lands where it goes, and the
frames that wait keep their contexts. -/
theorem Tidy.step (leaves : host.LeavesHandles) (tidy : r.Tidy cls ready n)
    (homing : ¬ r.frame.method.Plain → r.frame.Homing) {i : Instr} {t : Situation σ} (fetched : fetch r.frame = .ok i)
    (step : i.step cls host ⟨r.frame.moved 1 r.frame.stack, r.world⟩ = .ok flow t) :
    ∃ own own' ids, (∀ id, own = some id → n ≤ id.index) ∧
      Contexts.Effect ready r.world.contexts own own' t.world.contexts ∧ t.frame.Lands cls ready t.world own' flow ∧
      Apart n t.world.contexts own' ids ∧ Waiting cls n t.world.heap t.world.contexts ids r.callers := by
  obtain ⟨own, ids, tends, apart, waiting⟩ := tidy.frames
  have proceeds := tends.step leaves tidy.intact homing fetched
  unfold Frame.Proceeds at proceeds
  rw [step] at proceeds
  obtain ⟨own', effect, lands⟩ := proceeds
  have keeps : Does _ (i.MayLead cls) (i.step cls host) := i.keepsHandles_step leaves
  have kept : r.world.heap.KeepsHandles t.world.heap := (keeps.ok step).1.2.2
  obtain ⟨waiting', others⟩ := waiting.after effect kept fun id hid e => (apart id e).2 hid
  have owned := effect.owned tidy.beyond fun id e => (apart id e).1
  exact ⟨own, own', ids, fun id e => (apart id e).1.high, effect, lands,
    fun id e => ⟨owned id e, fun hid => others id hid e⟩, waiting'⟩

/-- One step of a tidy run: it changes the contexts as its frame may, and the run stays tidy. -/
theorem Tidy.act (leaves : host.LeavesHandles) (careful : cls.Careful) (tidy : r.Tidy cls ready n)
    (fair : r.Fair ready) :
    ∃ own own', (∀ id, own = some id → n ≤ id.index) ∧
      Contexts.Effect ready r.world.contexts own own' (r.act cls host).world.contexts ∧
      ∀ r', r.act cls host = .running r' → r'.Fair ready → r'.Tidy cls ready n := by
  have kept : r.world.heap.KeepsHandles (r.act cls host).world.heap := keepsHandles_act leaves r
  unfold Run.act at kept ⊢
  cases fetched : fetch r.frame with
  | error e => exact ⟨none, none, nofun, .nothing none, fun _ h => by cases h⟩
  | ok i =>
    simp only [fetched] at kept ⊢
    cases step : i.step cls host ⟨{ r.frame with pc := r.frame.pc + 1 }, r.world⟩ with
    | ok flow t =>
      obtain ⟨own, own', ids, high, effect, lands, apart, waiting⟩ := tidy.step leaves fair.homing fetched step
      simp only [step, world_go] at kept ⊢
      refine ⟨own, own', high, effect, fun r' goes fair' => ?_⟩
      exact tidy_go (kept.intact tidy.intact) (tidy.beyond.since (effect.since tidy.beyond high)) apart waiting
        careful lands goes fair'.entered
    | error e t =>
      obtain ⟨own, ids, tends, apart, -⟩ := tidy.frames
      have proceeds := tends.step leaves tidy.intact fair.homing fetched
      have step : i.step cls host ⟨r.frame.moved 1 r.frame.stack, r.world⟩ = .error e t := step
      rw [Frame.Proceeds, step] at proceeds
      obtain ⟨own', effect⟩ := proceeds
      exact ⟨own, own', fun id e => (apart id e).1.high, effect, fun _ h => by cases h⟩

variable {C : Keeping Contexts}

/-- One instruction of a tidy run, if the budget lasts. -/
theorem Tidy.advance (leaves : host.LeavesHandles) (careful : cls.Careful)
    (each : ∀ {cs own own' cs'}, Contexts.Beyond n cs → (∀ id, own = some id → n ≤ id.index) →
      Contexts.Effect ready cs own own' cs' → C.rel cs cs')
    (tidy : r.Tidy cls ready n) (fair : r.Fair ready) :
    C.rel r.world.contexts (r.advance cls host).world.contexts ∧
      ∀ r', r.advance cls host = .running r' → r'.Fair ready → r'.Tidy cls ready n := by
  have paid (fuel : Option Nat) :
      C.rel r.world.contexts ((r.paying fuel).act cls host).world.contexts ∧
        ∀ r', (r.paying fuel).act cls host = .running r' → r'.Fair ready → r'.Tidy cls ready n := by
    have fair : (r.paying fuel).Fair ready := ⟨fair.homing, fair.entered⟩
    obtain ⟨own, own', high, effect, next⟩ := (tidy.paying fuel).act leaves careful fair
    exact ⟨each tidy.beyond high effect, next⟩
  rw [advance_eq]
  split
  · exact paid r.world.fuel
  · exact ⟨C.refl _, nofun⟩
  · next fuel _ => exact paid (some fuel)

/-- A tidy run stays tidy, and keeps to whatever relation all steps of frames that own no older context
keep to. -/
theorem Tidy.follow (leaves : host.LeavesHandles) (careful : cls.Careful)
    (each : ∀ {cs own own' cs'}, Contexts.Beyond n cs → (∀ id, own = some id → n ≤ id.index) →
      Contexts.Effect ready cs own own' cs' → C.rel cs cs')
    (tidy : r.Tidy cls ready n) (fair : r.Throughout cls host (Fair ready)) (m : Nat) :
    C.rel r.world.contexts (r.follow cls host m).world.contexts ∧
      ∀ x, r.follow cls host m = .running x → x.Tidy cls ready n := by
  induction m generalizing r with
  | zero =>
    refine ⟨C.refl _, ?_⟩
    rintro x ⟨⟩
    exact tidy
  | succ m ih =>
    obtain ⟨rel, next⟩ := tidy.advance leaves careful each fair.here
    rw [Run.follow]
    split
    · next r' first =>
      rw [first] at rel
      have fair' := fair.next first
      obtain ⟨later, reached⟩ := ih (next r' first fair'.here) fair'
      exact ⟨C.trans rel later, reached⟩
    · next ended => exact ⟨rel, fun x running => absurd running (ended x)⟩

/-- So it is tidy wherever it comes to. -/
theorem Tidy.along (leaves : host.LeavesHandles) (careful : cls.Careful) (tidy : r.Tidy cls ready n)
    (fair : r.Throughout cls host (Fair ready)) {m : Nat} {x : Run σ} (reached : r.follow cls host m = .running x) :
    x.Tidy cls ready n :=
  (tidy.follow leaves careful (C := Contexts.anyhow) (fun _ _ _ => trivial) fair m).2 x reached

/-! ## Signals that end a run -/

/-- A frame that is about to throw a signal that it has just built. -/
def Signals (r : Run σ) : Prop :=
  fetch r.frame = .ok (.plain .athrow) ∧ ∃ p k, r.frame.pc = p + 1 ∧
    r.frame.method.code.instrs[p]? = some (.invoke .special (SiteKind.constructor k))

/-- A signal that has just been built carries a handle of the context that its frame owns. -/
theorem Tidy.shows_of_signals (tidy : r.Tidy cls ready n) (signals : r.Signals)
    (foreign : Service.siteOfSignal? cls.name = none) :
    ∃ id exc v rest, Contexts.Owned n r.world.contexts id ∧ r.frame.stack = .object exc :: rest ∧
      r.world.heap.field? exc Service.contextField = some v ∧ v.Shows r.world.heap id := by
  obtain ⟨own, ids, tends, apart, -⟩ := tidy.frames
  obtain ⟨-, p, k, pc, constructor⟩ := signals
  cases tends with
  | plain plain =>
    have meddles : (Instr.invoke .special k.constructor).meddles = true := by cases k <;> decide
    rw [plain _ (List.mem_of_getElem? constructor)] at meddles
    cases meddles
  | woven method unaware care holds =>
    rw [method] at constructor
    rw [pc, Weaving.care_constructor unaware constructor] at care
    cases care
    cases holds with
    | built houses signal =>
      obtain ⟨exc, v, rest, stack, given, shows⟩ := signal foreign
      exact ⟨_, exc, v, rest, (apart _ rfl).1, stack, given, shows⟩

end Run

end Suspension
