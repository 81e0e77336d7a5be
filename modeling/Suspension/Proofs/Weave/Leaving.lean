import Suspension.Proofs.Machine.Requests
import Suspension.Proofs.Weave.Returns
import Suspension.Proofs.Weave.Tidy

/-!
# How tidy runs end

A tidy run that was begun in suspendable code is left by it with its context dropped if it returns, and with its
context live if an exception leaves it.

## Main results
* `Run.Tidy.owned_of_threw`: the context of a run that an exception leaves is live.
* `Run.Tidy.dropped_of_returned`: the context of a run that returns has been dropped.
-/

namespace Suspension

variable {σ : Type} {cls : Class} {host : Host σ} {ready : Contexts → Prop} {n : Nat}

/-- The context is dropped by nothing else than the call that does so. -/
theorem Care.deactivates_of_after {home : Slot} {S : Care} {i : Instr} (h : S.after home i = some .dropped) :
    S = .lifted 0 ∧ i = callService (ContextService.ref .deactivate) := by
  cases S with
  | lifted depth =>
    rcases after_lifted h with ⟨m, rfl, served⟩ | ⟨-, same⟩
    · rcases served_eq_some served with ⟨s, rfl, rfl, same⟩ | ⟨s, -, -, same⟩
      · cases s with
        | deactivate => exact ⟨rfl, rfl⟩
        | _ => cases same
      · cases same
    · cases same
  | giving depth =>
    rcases after_giving h with ⟨_, _, _, same⟩ | ⟨-, same⟩
    · cases same
    · cases same
  | _ =>
    simp only [after] at h
    repeat' split at h
    all_goals cases h

/-! ## Where control comes from -/

section

variable {W : Weaving} {k : Option Storage} {f : Frame}

/-- In front of a return of suspendable code, its context has been dropped. -/
theorem Weaving.care_of_fetch (unaware : W.method.Plain) (own : f.method = W.result)
    (leaves : Run.fetch f = .ok (.plain (.leave k))) : W.care f.pc = some .dropped :=
  care_return unaware (own ▸ Run.getElem?_of_fetch leaves)

/-- So the frame neither waits nor was called just now. -/
theorem Frame.Waits.not_return {h : Heap} {own : Option ContextId} {g : Frame} (waits : f.Waits cls h own)
    (woven : ¬ f.method.Plain) (method : g.method = f.method) (pc : g.pc = f.pc) :
    Run.fetch g ≠ .ok (.plain (.leave k)) := by
  intro leaves
  cases waits with
  | plain plain => exact woven plain
  | woven own unaware _ care =>
    have dropped := Weaving.care_of_fetch unaware (method.trans own) leaves
    rw [pc] at dropped
    rcases care with kept | ⟨built, -⟩
    · rw [kept] at dropped
      cases dropped
    · rw [built] at dropped
      cases dropped

/-- What comes to a return from the instruction in front of it has dropped its context.  The frame has owned a
context until then, and owns none in front of the return. -/
theorem Frame.Tends.dropped_of_next {w : World σ} {own : Option ContextId} {i : Instr} {t : Situation σ}
    (leaves : host.LeavesHandles) (intact : w.heap.HandlesIntact) (homing : ¬ f.method.Plain → f.Homing)
    (tends : f.Tends cls ready w own) (fetched : Run.fetch f = .ok i)
    (step : i.step cls host ⟨f.moved 1 f.stack, w⟩ = .ok .next t) (woven : ¬ t.frame.method.Plain)
    (returns : Run.fetch t.frame = .ok (.plain (.leave k))) :
    ∃ id, own = some id ∧ t.world.contexts = w.contexts.deactivate id := by
  have keeps : Does _ (i.MayLead cls) (i.step cls host) := i.keepsHandles_step leaves
  obtain ⟨⟨method, pc, -⟩, -⟩ := (keeps.ok step).1
  have method : t.frame.method = f.method := method
  have pc : t.frame.pc = f.pc + 1 := pc
  have proceeds := tends.step leaves intact homing fetched
  rw [Proceeds, step] at proceeds
  obtain ⟨own', effect, lands⟩ := proceeds
  have before : ∃ id, own = some id := by
    cases tends with
    | plain plain => exact absurd (method ▸ plain) woven
    | woven own unaware care holds =>
      obtain ⟨S, S', here, after, behind⟩ := Weaving.exists_after unaware (own ▸ Run.getElem?_of_fetch fetched)
      have dropped := Weaving.care_of_fetch unaware (method.trans own) returns
      rw [pc, behind] at dropped
      cases dropped
      obtain ⟨rfl, -⟩ := Care.deactivates_of_after after
      cases here.symm.trans care
      cases holds with
      | lifted => exact ⟨_, rfl⟩
  have behind : own' = none := by
    cases lands with
    | plain plain => rfl
    | woven own unaware care holds =>
      cases care.symm.trans (Weaving.care_of_fetch unaware own returns)
      cases holds with
      | dropped => rfl
  obtain ⟨id, rfl⟩ := before
  exact ⟨id, rfl, (behind ▸ effect).deactivates⟩

end

namespace Run

variable {r r' : Run σ} {m : Method} {f : Frame} {cs : List Caller} {w w' : World σ} {own : Option ContextId}
  {ids : List ContextId} {k : Option Storage}

/-- An exception is caught where a label stands. -/
theorem fetch_of_unwind {exc : ObjectId} (h : unwind host w exc f cs = .running r') :
    ∃ l, fetch r'.frame = .ok (.label l) := by
  have caught {f : Frame} {pc : Nat} (found : f.handlerFor host w (f.pc - 1) exc f.method.code.regions = .ok (some pc)) :
      ∃ l, fetch (f.catching exc pc) = .ok (.label l) := by
    obtain ⟨l, target⟩ := Frame.exists_target found
    exact ⟨l, fetch_eq_ok (f.getElem?_of_target target)⟩
  induction cs generalizing f with
  | nil =>
    rw [unwind_eq] at h
    split at h
    · cases h
    · next found =>
      cases h
      exact caught found
    · cases h
  | cons c cs ih =>
    rw [unwind_eq] at h
    split at h
    · cases h
    · next found =>
      cases h
      exact caught found
    · exact ih h

/-- A run that gets to a return of suspendable code with nobody waiting has just dropped the context of this
code.  Labels, calls and frames that waited lead to no return, so control comes from the instruction in front of
it. -/
theorem Tidy.dropped_of_act (leaves : host.LeavesHandles) (tidy : r.Tidy cls ready n) (fair : r.Fair ready)
    (act : r.act cls host = .running r') (returns : fetch r'.frame = .ok (.plain (.leave k)))
    (woven : ¬ r'.frame.method.Plain) (alone : r'.callers = []) :
    ∃ id, n ≤ id.index ∧ (r.world.contexts.get? id).isSome = true ∧
      r'.world.contexts = r.world.contexts.deactivate id := by
  obtain ⟨i, flow, t, fetched, step, go⟩ := act_eq_running act
  have keeps : Does _ (i.MayLead cls) (i.step cls host) := i.keepsHandles_step leaves
  obtain ⟨⟨⟨method, pc, -⟩, -⟩, leads⟩ := keeps.ok step
  have method : t.frame.method = r.frame.method := method
  have pc : t.frame.pc = r.frame.pc + 1 := pc
  cases flow with
  | jump l =>
    unfold Run.go at go
    simp only at go
    split at go
    · next pc' target =>
      cases go
      have label : fetch (t.frame.goneTo pc') = .ok (.label l) := fetch_eq_ok (t.frame.getElem?_of_target target)
      cases label.symm.trans returns
    · cases go
  | goTo q =>
    cases go
    obtain ⟨s, rfl⟩ := leads
    obtain ⟨q', found, same⟩ := Instr.step_ret_eq_ok step
    cases same
    obtain ⟨p, l, rfl, jsr⟩ := fair.homing (method ▸ woven) s q fetched found
    obtain ⟨own, ids, tends, -, -⟩ := tidy.frames
    cases tends with
    | plain plain => exact absurd (show t.frame.method.Plain from method ▸ plain) woven
    | woven own unaware _ _ =>
      have dropped := Weaving.care_of_fetch (f := t.frame.goneTo (p + 1)) unaware (method.trans own) returns
      cases (Weaving.care_jsr unaware (own ▸ jsr)).symm.trans dropped
  | leave v =>
    obtain ⟨own, own', ids, -, -, -, -, waiting⟩ := tidy.step leaves fair.homing fetched step
    unfold Run.go leave at go
    simp only at go
    split at go
    · cases go
    · next c cs callers =>
      cases go
      rw [callers] at waiting
      cases waiting with
      | cons waits =>
        have back : (c.frame.receive c.result v).method = c.frame.method ∧
          (c.frame.receive c.result v).pc = c.frame.pc := by cases c.result <;> exact ⟨rfl, rfl⟩
        exact absurd returns (waits.not_return (back.1 ▸ woven) back.1 back.2)
  | raise exc =>
    obtain ⟨l, label⟩ := fetch_of_unwind go
    cases label.symm.trans returns
  | enter callee args result =>
    unfold Run.go at go
    simp only at go
    split at go
    · cases go
      cases alone
    · cases go
  | next =>
    cases go
    obtain ⟨own, ids, tends, apart, -⟩ := tidy.frames
    obtain ⟨id, rfl, dropped⟩ :=
      tends.dropped_of_next leaves tidy.intact fair.homing fetched step woven returns
    obtain ⟨owned, -⟩ := apart id rfl
    exact ⟨id, owned.high, owned.live, dropped⟩

/-! ## Whole runs -/

/-- The innermost of the frames is not counted. -/
theorem exists_owned (catches : f.Catches w.heap own) (apart : Apart n w.contexts own ids)
    (waiting : Waiting cls n w.heap w.contexts ids cs) (began : (⟨f, cs, w⟩ : Run σ).methods.getLast? = some m)
    (woven : ¬ m.Plain) : ∃ id, Contexts.Owned n w.contexts id := by
  induction waiting generalizing f own with
  | nil =>
    cases began
    cases catches with
    | plain plain => exact absurd plain woven
    | woven => exact ⟨_, (apart _ rfl).1⟩
  | cons waits apart' _ ih => exact ih waits.catches apart' (by simpa [methods] using began)

/-- The method that a run was begun in stays the last one. -/
theorem began_follow (leaves : host.LeavesHandles) (began : r.methods.getLast? = some m) :
    r.Throughout cls host (·.methods.getLast? = some m) := by
  refine throughout_of_act (fun _ _ h => h) (fun x y began act => ?_) began
  rcases methods_act leaves act with ⟨gone, same⟩ | ⟨callee, -, called⟩
  · rw [← same, List.getLast?_append] at began
    simpa [methods] using began
  · rw [called, List.getLast?_cons, began]
    rfl

/-- A run that returns has left the last of its methods.  Of all flows only a return with nobody waiting
completes with a value. -/
theorem act_eq_returned (leaves : host.LeavesHandles) {v : Option Value}
    (h : r.act cls host = .completed (.returned v) w) :
    ∃ k, fetch r.frame = .ok (.plain (.leave k)) ∧ r.callers = [] ∧ w = r.world := by
  unfold act at h
  split at h
  · cases h
  · next i fetched =>
    split at h
    · next flow t step =>
      have leads : i.MayLead cls flow := ((i.keepsHandles_step leaves).ok step).2
      cases flow with
      | leave v' =>
        obtain ⟨k, rfl⟩ := Instr.isReturn_iff.1 leads
        obtain ⟨-, -, world⟩ := Instr.step_leave_eq_ok step
        unfold go leave at h
        simp only at h
        split at h
        · next alone =>
          cases h
          exact ⟨k, fetched, alone, world⟩
        · cases h
      | raise exc => cases (unwind_eq_completed h).1
      | next | goTo => cases h
      | jump | enter =>
        unfold go at h
        simp only at h
        split at h <;> cases h
    · cases h

variable (leaves : host.LeavesHandles) (careful : cls.Careful) (tidy : r.Tidy cls ready n)
  (fair : r.Throughout cls host (Fair ready)) (began : r.methods.getLast? = some m)
include leaves careful tidy fair began

/-- A run that ends has come to a last state, which is tidy and fair. -/
theorem exists_tidy_last {l : Nat} {c : Completion} (done : r.follow cls host l = .completed c w) :
    ∃ k x fuel, r.follow cls host k = .running x ∧ (x.paying fuel).act cls host = .completed c w ∧
      x.Tidy cls ready n ∧ x.Fair ready ∧ x.methods.getLast? = some m := by
  obtain ⟨k, x, reached, last⟩ := exists_last done
  have ends : ∀ e w', x.advance cls host ≠ .failed e w' := by
    rintro e w' failed
    cases last.symm.trans failed
  obtain ⟨fuel, same⟩ := exists_act ends
  have tidy := tidy.along leaves careful fair reached
  exact ⟨k, x, fuel, reached, same ▸ last, tidy, fair k x reached, began_follow leaves began k x reached⟩

/-- The context of suspendable code is live if an exception leaves it. -/
theorem Tidy.owned_of_threw (woven : ¬ m.Plain) {l : Nat} {exc : ObjectId}
    (done : r.follow cls host l = .completed (.threw exc) w) :
    ∃ id, Contexts.Owned n w.contexts id := by
  obtain ⟨k, x, fuel, -, act, tidy, fair, began⟩ := exists_tidy_last leaves careful tidy fair began done
  obtain ⟨i, t, fetched, step, rfl⟩ := act_eq_threw act
  obtain ⟨own, own', ids, -, -, lands, apart, waiting⟩ :=
    (tidy.paying fuel).step leaves fair.homing fetched step
  refine exists_owned lands apart waiting ?_ woven
  have keeps : Does _ (i.MayLead cls) (i.step cls host) := i.keepsHandles_step leaves
  have method : t.frame.method = x.frame.method := (keeps.ok step).1.1.1
  rw [methods, method]
  exact began

/-- The context of suspendable code has been dropped if it returns.  The run does not start at a return, so a
step has led to it, and that step dropped the context. -/
theorem Tidy.dropped_of_returned (woven : ¬ m.Plain) (first : ∀ k, fetch r.frame ≠ .ok (.plain (.leave k))) {l : Nat}
    {v : Option Value} (done : r.follow cls host l = .completed (.returned v) w) :
    ∃ k x id, r.follow cls host k = .running x ∧ n ≤ id.index ∧ (x.world.contexts.get? id).isSome = true ∧
      w.contexts.get? id = none := by
  obtain ⟨k, x, fuel, reached, act, -, -, began'⟩ := exists_tidy_last leaves careful tidy fair began done
  obtain ⟨k', returns, alone, rfl⟩ := act_eq_returned leaves act
  have alone : x.callers = [] := alone
  have method : x.frame.method = m := by
    rw [methods, alone] at began'
    exact Option.some.inj began'
  cases k with
  | zero =>
    cases reached
    exact absurd returns (first k')
  | succ k =>
    obtain ⟨y, before, advanced⟩ := exists_before reached
    obtain ⟨fuel', act'⟩ := act_of_advance advanced
    have tidy := tidy.along leaves careful fair before
    have fair : (y.paying fuel').Fair ready := ⟨(fair k y before).homing, (fair k y before).entered⟩
    obtain ⟨id, high, live, dropped⟩ :=
      (tidy.paying fuel').dropped_of_act leaves fair act' returns (method ▸ woven) alone
    have dropped : (x.paying fuel).world.contexts = y.world.contexts.deactivate id := dropped
    refine ⟨k, y, id, before, high, live, ?_⟩
    rw [dropped, Contexts.get?_deactivate, if_pos rfl]

end Run

end Suspension
