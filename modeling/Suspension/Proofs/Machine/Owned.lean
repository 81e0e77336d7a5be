import Suspension.Proofs.Machine.Calm

/-!
# Contexts with owners

A frame of suspendable code has at most one context of its own: it is handed out to it, changed on its
behalf, and dropped in the end.  So whatever such frames do, contexts of which they do not own any handle
stay as they are.

## Main definitions
* `Contexts.still`, `Contexts.lasting`: contexts of which none changes, or at most one.
* `Contexts.Effect`: what a step does to the contexts, given the one that its frame owns.
* `Contexts.Since`: contexts that were there before stay as they are.
* `Contexts.Descend`: where contexts come from that were added.

## Main results
* `Contexts.Effect.since`, `Contexts.Effect.descend`: what follows from owning no older context.
-/

namespace Suspension

variable {σ : Type}

namespace Contexts

variable {cs cs' cs'' : Contexts} {id : ContextId} {n : Nat}

/-! ## What calls may change -/

/-- No context changes. -/
def still : Keeping Contexts where
  rel cs cs' := cs' = cs
  refl _ := rfl
  trans a b := b.trans a

/-- At most one context changes; it keeps its parent, and is given no answer. -/
structure Only (id : ContextId) (cs cs' : Contexts) : Prop where
  pending : cs'.pending = cs.pending
  nextId : cs'.table.nextId = cs.table.nextId
  others : ∀ other, other ≠ id → cs'.get? other = cs.get? other
  same : ∀ c', cs'.get? id = some c' → ∃ c, cs.get? id = some c ∧ c'.parent = c.parent ∧
    (c'.callAnswer = c.callAnswer ∨ c'.callAnswer = none)

theorem Only.refl (cs : Contexts) : Only id cs cs :=
  ⟨rfl, rfl, fun _ _ => rfl, fun c h => ⟨c, h, rfl, .inl rfl⟩⟩

theorem Only.trans (a : Only id cs cs') (b : Only id cs' cs'') : Only id cs cs'' := by
  refine ⟨b.pending.trans a.pending, b.nextId.trans a.nextId,
    fun other ne => (b.others other ne).trans (a.others other ne), fun c'' h => ?_⟩
  obtain ⟨c', live', parent', answer'⟩ := b.same c'' h
  obtain ⟨c, live, parent, answer⟩ := a.same c' live'
  refine ⟨c, live, parent'.trans parent, ?_⟩
  rcases answer' with same | none
  · rw [same]
    exact answer
  · exact .inr none

/-- At most one context changes, and it stays live. -/
def lasting (id : ContextId) : Keeping Contexts where
  rel cs cs' := Only id cs cs' ∧ ((cs.get? id).isSome = true → (cs'.get? id).isSome = true)
  refl cs := ⟨.refl cs, fun h => h⟩
  trans a b := ⟨a.1.trans b.1, fun h => b.2 (a.2 h)⟩

theorem only_set {c c' : Context} (live : cs.get? id = some c) (parent : c'.parent = c.parent)
    (answer : c'.callAnswer = c.callAnswer ∨ c'.callAnswer = none) : Only id cs (cs.set id c') := by
  refine ⟨rfl, Arena.nextId_set .., fun other ne => get?_set_ne ne c', fun d h => ?_⟩
  obtain rfl := Option.some.inj ((get?_set_self live c').symm.trans h)
  exact ⟨c, live, parent, answer⟩

theorem lasting_set {c c' : Context} (live : cs.get? id = some c) (parent : c'.parent = c.parent)
    (answer : c'.callAnswer = c.callAnswer ∨ c'.callAnswer = none) : (lasting id).rel cs (cs.set id c') :=
  ⟨only_set live parent answer, fun _ => by rw [get?_set_self live]; rfl⟩

/-- What is left of a context that is dropped. -/
theorem get?_deactivate (cs : Contexts) (id other : ContextId) :
    (cs.deactivate id).get? other = if other = id then none else cs.get? other := by
  have same : other.index = id.index ↔ other = id := by
    cases other
    cases id
    simp
  refine (Arena.get?_remove ..).trans ?_
  simp only [same]
  rfl

theorem only_deactivate (cs : Contexts) (id : ContextId) : Only id cs (cs.deactivate id) := by
  refine ⟨rfl, Arena.nextId_remove .., fun other ne => ?_, fun c h => ?_⟩
  · rw [get?_deactivate, if_neg ne]
  · rw [get?_deactivate, if_pos rfl] at h
    cases h

end Contexts

/-- Only one service drops the context that it is called on. -/
theorem MemberRef.admittedFor_lasting {m : MemberRef} (other : ContextService.ofName? m.name ≠ some .deactivate)
    (id : ContextId) : m.AdmittedFor (Contexts.lasting id) id :=
  ⟨fun drops => absurd drops other,
    fun _ _ _ _ _ _ live => Contexts.lasting_set live rfl (.inl rfl),
    fun _ _ _ live altered => Contexts.lasting_set live altered.parent (altered.answer.imp_right (·.2))⟩

/-- An instruction that calls no service changes no context. -/
theorem Instr.does_still {cls : Class} {host : Host σ} (leaves : host.LeavesHandles) {L : Keeping LocalValues}
    {i : Instr} (other : i.callsService = false)
    (may : ∀ t, i.written? = some t → ∀ (l : LocalValues) v, L.rel l (l.store t v)) :
    Does (Situation.keeping L Contexts.still) (i.MayLead cls) (i.step cls host) :=
  i.does_step cls leaves may fun kind m e service => by
    subst e
    rw [callsService, service] at other
    cases other

namespace Contexts

variable {cs cs' cs'' : Contexts} {id : ContextId} {n : Nat}

/-! ## Contexts that are handed out -/

/-- The context that is handed out is a fresh one, or the queued one; the others stay. -/
theorem createOrReset_eq (cs : Contexts) :
    cs.createOrReset.2.pending = none ∧
      (∀ other, other ≠ cs.createOrReset.1 → cs.createOrReset.2.get? other = cs.get? other) ∧
      ∃ c, cs.createOrReset.2.get? cs.createOrReset.1 = some c ∧
        (cs.get? cs.createOrReset.1 = none ∧ c = {} ∨ cs.pending = some cs.createOrReset.1) := by
  unfold createOrReset
  split
  · next id queued =>
    obtain ⟨pending, live⟩ := Option.filter_eq_some_iff.1 queued
    obtain ⟨c, hc⟩ := Option.isSome_iff_exists.1 (show (cs.get? id).isSome = true from live)
    exact ⟨rfl, fun _ _ => rfl, c, hc, .inr pending⟩
  · have added := queues_add cs {}
    refine ⟨rfl, fun other ne => (get?_add cs {} other).trans (if_neg ne), {}, ?_, .inl ⟨added.fresh, rfl⟩⟩
    exact (get?_add cs {} _).trans (if_pos rfl)

/-- A context that is handed out is the queued one, or one that was added. -/
theorem createOrReset_table (cs : Contexts) :
    cs.createOrReset.2.table = cs.table ∧ cs.pending = some cs.createOrReset.1 ∨
      cs.pending.filter cs.contains = none ∧ cs.createOrReset.1 = ⟨cs.table.nextId⟩ ∧
        cs.createOrReset.2.table = cs.table.push {} := by
  unfold createOrReset
  split
  · next id queued => exact .inl ⟨rfl, (Option.filter_eq_some_iff.1 queued).1⟩
  · next fresh => exact .inr ⟨fresh, rfl, rfl⟩

/-! ## Steps of frames that own a context -/

/-- What a step makes of the contexts and of the context that its frame owns: nothing changes, the own
context may change, it is dropped, or the frame is given one. -/
inductive Effect (ready : Contexts → Prop) (cs : Contexts) : Option ContextId → Option ContextId → Contexts → Prop
  | nothing (own : Option ContextId) : Effect ready cs own own cs
  | served {id : ContextId} {cs' : Contexts} (lasts : (lasting id).rel cs cs') :
    Effect ready cs (some id) (some id) cs'
  | dropped (id : ContextId) : Effect ready cs (some id) none (cs.deactivate id)
  | obtained (first : ready cs) : Effect ready cs none (some cs.createOrReset.1) cs.createOrReset.2

/-- Contexts with ids below a bound stay as they are, and none of them is queued anew. -/
structure Since (n : Nat) (cs cs' : Contexts) : Prop where
  kept : ∀ id, id.index < n → cs'.get? id = cs.get? id
  grown : cs.table.nextId ≤ cs'.table.nextId
  pending : ∀ id, cs'.pending = some id → cs.pending = some id

theorem Since.refl (cs : Contexts) : Since n cs cs := ⟨fun _ _ => rfl, Nat.le_refl _, fun _ h => h⟩

theorem Since.trans (a : Since n cs cs') (b : Since n cs' cs'') : Since n cs cs'' :=
  ⟨fun id low => (b.kept id low).trans (a.kept id low), Nat.le_trans a.grown b.grown,
    fun id h => a.pending id (b.pending id h)⟩

/-- No context with an id below a bound can be handed out. -/
structure Beyond (n : Nat) (cs : Contexts) : Prop where
  next : n ≤ cs.table.nextId
  pending : ∀ id, cs.pending = some id → n ≤ id.index

theorem Beyond.since (h : Beyond n cs) (since : Since n cs cs') : Beyond n cs' :=
  ⟨Nat.le_trans h.next since.grown, fun id hid => h.pending id (since.pending id hid)⟩

theorem Beyond.createOrReset (h : Beyond n cs) : n ≤ cs.createOrReset.1.index := by
  rcases cs.createOrReset_table with ⟨-, queued⟩ | ⟨-, fresh, -⟩
  · exact h.pending _ queued
  · rw [fresh]
    exact h.next

theorem since_createOrReset (h : Beyond n cs) : Since n cs cs.createOrReset.2 := by
  obtain ⟨emptied, others, -⟩ := cs.createOrReset_eq
  refine ⟨fun id low => others id ?_, ?_, fun id h => by rw [emptied] at h; cases h⟩
  · rintro rfl
    exact absurd h.createOrReset (Nat.not_le_of_lt low)
  · rcases cs.createOrReset_table with ⟨same, -⟩ | ⟨-, -, pushed⟩
    · exact same ▸ Nat.le_refl _
    · rw [pushed, Arena.nextId_push]
      exact Nat.le_succ _

theorem Only.since (h : Only id cs cs') (high : n ≤ id.index) : Since n cs cs' :=
  ⟨fun other low => h.others other (by rintro rfl; omega), Nat.le_of_eq h.nextId.symm,
    fun other hp => by rwa [h.pending] at hp⟩

variable {ready : Contexts → Prop} {own own' : Option ContextId}

/-- A frame that owns no older context changes none. -/
theorem Effect.since (h : Effect ready cs own own' cs') (beyond : Beyond n cs)
    (high : ∀ id, own = some id → n ≤ id.index) : Since n cs cs' := by
  cases h with
  | nothing => exact .refl cs
  | served lasts => exact lasts.1.since (high _ rfl)
  | dropped id => exact (only_deactivate cs id).since (high _ rfl)
  | obtained first => exact since_createOrReset beyond

/-- A context that is owned was handed out and is live; nobody else will be given it. -/
structure Owned (n : Nat) (cs : Contexts) (id : ContextId) : Prop where
  high : n ≤ id.index
  live : (cs.get? id).isSome = true
  taken : cs.pending ≠ some id

/-- The owner of a context that owns none any more has dropped it. -/
theorem Effect.deactivates (h : Effect ready cs (some id) none cs') : cs' = cs.deactivate id := by
  cases h with
  | dropped => rfl

/-- The owner of a context keeps it, or is given one. -/
theorem Effect.owned (h : Effect ready cs own own' cs') (beyond : Beyond n cs)
    (owned : ∀ id, own = some id → Owned n cs id) : ∀ id, own' = some id → Owned n cs' id := by
  intro id e
  cases h with
  | nothing => exact owned id e
  | served lasts =>
    have before := owned id e
    cases e
    exact ⟨before.high, lasts.2 before.live, lasts.1.pending ▸ before.taken⟩
  | dropped id => cases e
  | obtained first =>
    cases e
    obtain ⟨emptied, -, c, live, -⟩ := cs.createOrReset_eq
    exact ⟨beyond.createOrReset, by rw [live]; rfl, by simp [emptied]⟩

/-- Others keep their contexts.  What is handed out is queued or was not live. -/
theorem Effect.others (h : Effect ready cs own own' cs') (owned : Owned n cs id) (other : own ≠ some id) :
    Owned n cs' id ∧ own' ≠ some id := by
  cases h with
  | nothing => exact ⟨owned, other⟩
  | @served mine _ lasts =>
    have ne : id ≠ mine := fun e => other (e ▸ rfl)
    exact ⟨⟨owned.high, by rw [lasts.1.others _ ne]; exact owned.live, lasts.1.pending ▸ owned.taken⟩, other⟩
  | dropped mine =>
    have ne : id ≠ mine := fun e => other (e ▸ rfl)
    have only := only_deactivate cs mine
    exact ⟨⟨owned.high, by rw [only.others _ ne]; exact owned.live, only.pending ▸ owned.taken⟩, nofun⟩
  | obtained first =>
    obtain ⟨emptied, others, c, -, origin⟩ := cs.createOrReset_eq
    have ne : id ≠ cs.createOrReset.1 := by
      rintro rfl
      rcases origin with ⟨fresh, -⟩ | queued
      · have live := owned.live
        rw [fresh] at live
        cases live
      · exact owned.taken queued
    exact ⟨⟨owned.high, by rw [others _ ne]; exact owned.live, by simp [emptied]⟩,
      fun e => ne (Option.some.inj e).symm⟩

/-! ## Where contexts come from -/

/-- All contexts with ids from a bound on are copies of one context, or all of them are fresh. -/
def Descend (n : Nat) (origin : Option ContextId) (cs : Contexts) : Prop :=
  ∀ id c, n ≤ id.index → cs.get? id = some c → c.parent = origin

theorem Descend.only {origin : Option ContextId} (h : Descend n origin cs) (only : Only id cs cs') :
    Descend n origin cs' := by
  intro other c high live
  by_cases e : other = id
  · subst e
    obtain ⟨c₀, live₀, parent, -⟩ := only.same c live
    exact parent.trans (h other c₀ high live₀)
  · exact h other c high ((only.others other e).symm.trans live)

/-- Contexts that were added come from the same one. -/
def descending (n : Nat) (origin : Option ContextId) : Keeping Contexts where
  rel cs cs' := Descend n origin cs → Descend n origin cs'
  refl _ h := h
  trans a b h := b (a h)

/-- No other context is added if one is queued whenever one is handed out.  What is obtained is queued, and then
the table is the same; or it is new and has no origin. -/
theorem Effect.descend {origin : Option ContextId} (h : Effect ready cs own own' cs')
    (descend : Descend n origin cs)
    (queued : ready cs → origin = none ∨ (cs.pending.filter cs.contains).isSome = true) :
    Descend n origin cs' := by
  cases h with
  | nothing => exact descend
  | served lasts => exact descend.only lasts.1
  | dropped id => exact descend.only (only_deactivate cs id)
  | obtained first =>
    obtain ⟨-, others, -⟩ := cs.createOrReset_eq
    rcases cs.createOrReset_table with ⟨same, -⟩ | ⟨fresh, next, pushed⟩
    · intro id c high live
      exact descend id c high (by rw [← live, get?, get?, same])
    · rcases queued first with rfl | some
      · intro id c high live
        rw [get?, pushed, Arena.get?_push] at live
        split at live
        · cases live
          rfl
        · exact descend id c high live
      · rw [fresh] at some
        cases some

end Contexts

end Suspension
