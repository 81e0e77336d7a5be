import Suspension.Proofs.Machine.Requests

/-!
# Answers that contexts hold

A context is given an answer when it is continued with one, and holds it until it is asked for it.  There is one
instruction that asks, and the context that it asks holds nothing afterwards.  No other instruction gives a context
an answer or takes one away, and a context that is handed out new holds none.

## Main definitions
* `Instr.takesAnswer`: an instruction that asks a context for its answer.
* `Contexts.holding`: contexts that hold what they held.
* `Contexts.Owes`: contexts that all hold the same answer.

## Main results
* `Instr.does_holding`: all other instructions leave the answers where they are.
* `Contexts.Effect.owes`: so what all contexts hold that a run may work on stays the same.
* `World.callHandle_getCallAnswer`: what becomes of the answer that is taken.
-/

namespace Suspension

variable {σ : Type} {cls : Class} {host : Host σ}

/-- Whether an instruction asks a context for the answer that it holds. -/
def Instr.takesAnswer : Instr → Bool
  | .invoke _ m => m.isService && ContextService.ofName? m.name = some .getCallAnswer
  | _ => false

/-- It is a call of a service. -/
theorem Instr.callsService_of_takesAnswer {i : Instr} (takes : i.takesAnswer = true) : i.callsService = true := by
  cases i with
  | invoke kind m => exact (Bool.and_eq_true_iff.1 takes).1
  | _ => cases takes

namespace Contexts

variable {cs cs' : Contexts} {id : ContextId} {n : Nat} {v : Option Value}

/-! ## Answers that stay where they are -/

/-- Every context holds what it held before, and one that is added holds nothing. -/
def holding : Keeping Contexts where
  rel cs cs' := cs.table.nextId ≤ cs'.table.nextId ∧ ∀ id c', cs'.get? id = some c' →
    (∃ c, cs.get? id = some c ∧ c'.callAnswer = c.callAnswer) ∨
      cs.table.nextId ≤ id.index ∧ c'.callAnswer = none
  refl _ := ⟨Nat.le_refl _, fun _ c h => .inl ⟨c, h, rfl⟩⟩
  trans a b := by
    refine ⟨Nat.le_trans a.1 b.1, fun id c'' h'' => ?_⟩
    rcases b.2 id c'' h'' with ⟨c', h', same'⟩ | ⟨new, none⟩
    · rcases a.2 id c' h' with ⟨c, h, same⟩ | ⟨new, none⟩
      · exact .inl ⟨c, h, same'.trans same⟩
      · exact .inr ⟨new, same'.trans none⟩
    · exact .inr ⟨Nat.le_trans a.1 new, none⟩

theorem holding_set {c c' : Context} (live : cs.get? id = some c) (same : c'.callAnswer = c.callAnswer) :
    holding.rel cs (cs.set id c') := by
  refine ⟨Nat.le_of_eq (Arena.nextId_set ..).symm, fun other d h => .inl ?_⟩
  by_cases e : other = id
  · subst e
    obtain rfl := Option.some.inj ((get?_set_self live c').symm.trans h)
    exact ⟨c, live, same⟩
  · exact ⟨d, (get?_set_ne e c').symm.trans h, rfl⟩

theorem holding_deactivate (cs : Contexts) (id : ContextId) : holding.rel cs (cs.deactivate id) := by
  have only := only_deactivate cs id
  refine ⟨Nat.le_of_eq only.nextId.symm, fun other d h => .inl ⟨d, ?_, rfl⟩⟩
  rw [get?_deactivate] at h
  split at h
  · cases h
  · exact h

theorem holding_createOrReset (cs : Contexts) : holding.rel cs cs.createOrReset.2 := by
  rcases cs.createOrReset_table with ⟨same, -⟩ | ⟨-, -, pushed⟩
  · exact ⟨Nat.le_of_eq (congrArg Arena.nextId same).symm,
      fun id c h => .inl ⟨c, by rwa [get?, same] at h, rfl⟩⟩
  · refine ⟨by rw [pushed, Arena.nextId_push]; exact Nat.le_succ _, fun id c h => ?_⟩
    rw [get?, pushed, Arena.get?_push] at h
    split at h
    · next new =>
      cases h
      exact .inr ⟨Nat.le_of_eq new.symm, rfl⟩
    · exact .inl ⟨c, h, rfl⟩

end Contexts

/-- A service that does not ask for the answer leaves all answers where they are. -/
theorem MemberRef.admitted_holding {m : MemberRef} (other : ContextService.ofName? m.name ≠ some .getCallAnswer) :
    m.Admitted Contexts.holding where
  obtains _ cs := cs.holding_createOrReset
  each id :=
    { drops := fun _ cs => cs.holding_deactivate id
      records := fun _ _ _ _ _ _ live => Contexts.holding_set live rfl
      alters := fun _ _ _ live altered =>
        Contexts.holding_set live (altered.answer.resolve_right fun taken => other taken.1) }

/-- All instructions but one leave the answers where they are. -/
theorem Instr.does_holding (leaves : host.LeavesHandles) {i : Instr} (other : i.takesAnswer = false) :
    Does (Situation.keeping LocalValues.anyhow Contexts.holding) (i.MayLead cls) (i.step cls host) := by
  refine i.does_step cls leaves (fun _ _ _ _ => trivial) fun kind m e service receiver args => ?_
  subst e
  have name : ContextService.ofName? m.name ≠ some .getCallAnswer := by
    simpa [takesAnswer, service] using other
  exact (MemberRef.admitted_holding name).keeps_callService receiver args

/-- So does a step of a run that carries out another instruction. -/
theorem Run.holding_act (leaves : host.LeavesHandles) {r : Run σ}
    (other : ∀ i, fetch r.frame = .ok i → i.takesAnswer = false) :
    Contexts.holding.rel r.world.contexts (r.act cls host).world.contexts := by
  unfold act
  split
  · exact Contexts.holding.refl _
  · next i fetched =>
    have step : Does (Situation.keeping LocalValues.anyhow Contexts.holding) (i.MayLead cls) (i.step cls host) :=
      i.does_holding leaves (other i fetched)
    split
    · next done =>
      rw [world_go]
      exact (step.ok done).1.2.1
    · next failed => exact (step.error failed).2.1

/-! ## Contexts that owe an answer -/

namespace Contexts

variable {cs cs' : Contexts} {id : ContextId} {n : Nat} {v : Option Value} {ready : Contexts → Prop}
  {own own' : Option ContextId}

/-- All contexts with ids from a bound on hold the same answer, or all of them hold none. -/
def Owes (n : Nat) (v : Option Value) (cs : Contexts) : Prop :=
  ∀ id c, n ≤ id.index → cs.get? id = some c → c.callAnswer = v

/-- What the contexts hold stays the same, unless one is handed out that is new.  A context that was there
before keeps what it holds, so only one that is handed out can be new. -/
theorem Effect.owes (effect : Effect ready cs own own' cs') (holds : holding.rel cs cs') (owes : Owes n v cs)
    (first : ready cs → v = none ∨ (cs.pending.filter cs.contains).isSome = true) : Owes n v cs' := by
  intro id c' high live
  rcases holds.2 id c' live with ⟨c, before, same⟩ | ⟨new, none⟩
  · exact same.trans (owes id c high before)
  · have low : id.index < cs'.table.nextId := index_lt_of_get? live
    cases effect with
    | nothing => omega
    | served lasts =>
      have same := lasts.1.nextId
      omega
    | dropped mine =>
      have same := (only_deactivate cs mine).nextId
      omega
    | obtained handed =>
      rcases cs.createOrReset_table with ⟨same, -⟩ | ⟨fresh, -, -⟩
      · rw [same] at low
        omega
      · rcases first handed with rfl | queued
        · exact none
        · rw [fresh] at queued
          cases queued

/-- If no other context is live, none holds anything once the answer was taken. -/
theorem owes_none_of_set {c : Context} (live : cs.get? id = some c)
    (alone : ∀ other, n ≤ other.index → (cs.get? other).isSome = true → other = id) :
    Owes n none (cs.set id { c with callAnswer := none }) := by
  intro other d high there
  by_cases same : other = id
  · subst same
    rw [get?_set_self live] at there
    cases there
    rfl
  · rw [get?_set_ne same] at there
    exact absurd (alone other high (by rw [there]; rfl)) same

end Contexts

/-! ## The answer is taken -/

/-- A context that is asked for its answer hands it over and holds none any more; or the call is refused, and
nothing changes.  Only the context itself has the answer; the two stores are asked in vain. -/
theorem World.callHandle_getCallAnswer (args : List Value) (id : ContextId) (face : ContextFace) (w : World σ) :
    (∃ c, face = .context ∧ w.contexts.get? id = some c ∧
      callHandle (ContextService.ref .getCallAnswer) args id face w =
        .ok (some (c.callAnswer.getD .null)) (w.replace id { c with callAnswer := none })) ∨
      ∃ e, callHandle (ContextService.ref .getCallAnswer) args id face w = .error e w := by
  have noStore : StoreService.ofName? (ContextService.ref .getCallAnswer).name = none := by decide
  cases face with
  | context =>
    simp only [callHandle, ContextService.ofName?_ref]
    cases live : w.contexts.get? id with
    | none => exact .inr ⟨.unknownContext id, by simp [ContextService.apply, context, Contexts.get, live]⟩
    | some c =>
      exact .inl ⟨c, trivial, rfl, by simp [ContextService.apply, context_apply live, changeContext_apply live]⟩
  | localVars =>
    rw [callHandle_localVars]
    simp only [callStore, noStore]
    split
    · exact .inr ⟨_, rfl⟩
    · exact .inr ⟨_, rfl⟩
  | localStack =>
    rw [callHandle_localStack]
    simp only [callStore, noStore]
    split
    · exact .inr ⟨_, rfl⟩
    · exact .inr ⟨_, rfl⟩

end Suspension
