import Suspension.Proofs.Weave.Mirror
import Suspension.Proofs.Weave.Tending

/-!
# Returns of suspendable code

A return of suspendable code is one of the method, and comes right behind the code that drops the context.  So
whoever returns has dropped its context, and the value that it returns is the one that was on top of the stack
before that.

## Main definitions
* `Weaving.MayReturn`: what a return needs.

## Main results
* `Weaving.exists_return`, `Weaving.care_return`: where suspendable code returns.
* `Weaving.follow_return`: from the code in front of a return on, a run returns with the value on top of the stack,
  or gets stuck.
* `Weaving.follow_return_of_mayReturn`: it does not get stuck if there is all that the return needs.
-/

namespace Suspension

/-! ## Where returns stand -/

/-- An element of lists that follow each other is one of these lists. -/
theorem exists_of_getElem?_flatten {α : Type} {codes : List (List α)} {n : Nat} {a : α}
    (h : codes.flatten[n]? = some a) :
    ∃ j code m, codes[j]? = some code ∧ code[m]? = some a ∧ n = (codes.take j).flatten.length + m := by
  induction codes generalizing n with
  | nil => cases h
  | cons code codes ih =>
    rw [List.flatten_cons] at h
    rcases Nat.lt_or_ge n code.length with first | later
    · rw [List.getElem?_append_left first] at h
      exact ⟨0, code, n, rfl, h, by simp⟩
    · rw [List.getElem?_append_right later] at h
      obtain ⟨j, other, m, here, found, place⟩ := ih h
      refine ⟨j + 1, other, m, here, found, ?_⟩
      rw [List.take_succ_cons, List.flatten_cons, List.length_append]
      omega

namespace Plan

variable {p : Plan}

/-- No return is put into a method. -/
theorem Inserts.not_return {i : Instr} (h : p.Inserts i) : i.isReturn = false := by
  cases h with
  | stock stock =>
    cases stock with
    | int n =>
      unfold pushInt
      repeat' split
      all_goals rfl
    | _ => rfl
  | _ => rfl

theorem length_deregister : p.deregister.length = 4 := rfl

end Plan

namespace Weaving

variable {W : Weaving} {j q : Nat} {k : Option Storage}

/-- A return of suspendable code is one of the method, behind the code that drops the context. -/
theorem exists_return (h : W.stream[q]? = some (.plain (.leave k))) :
    ∃ j, W.instrs[j]? = some (.plain (.leave k)) ∧ q = W.placeOf j + 4 := by
  have other {code : List Instr} {n : Nat} (inserted : ∀ i ∈ code, W.plan.Inserts i)
      (found : code[n]? = some (.plain (.leave k))) : False := by
    cases (inserted _ (List.mem_of_getElem? found)).not_return
  rw [stream, List.append_assoc] at h
  rcases Nat.lt_or_ge q W.front.length with first | later
  · rw [List.getElem?_append_left first] at h
    exact (other (Plan.inserts_prologue W.opened) h).elim
  rw [List.getElem?_append_right later] at h
  rcases Nat.lt_or_ge (q - W.front.length) W.pieces.flatten.length with inside | behind
  · rw [List.getElem?_append_left inside] at h
    obtain ⟨j, code, m, here, found, place⟩ := exists_of_getElem?_flatten h
    have own : W.piece j = code := by rw [piece, here, Option.getD_some]
    obtain ⟨ins, hj⟩ : ∃ ins, W.instrs[j]? = some ins :=
      ⟨_, List.getElem?_eq_getElem (W.length_pieces ▸ (List.getElem?_eq_some_iff.1 here).1)⟩
    rcases mem_piece hj (own ▸ List.mem_of_getElem? found) with ⟨rfl, -⟩ | inserted
    · refine ⟨j, hj, ?_⟩
      rw [← own, piece_return hj] at found
      rcases Nat.lt_or_ge m 4 with early | late
      · rw [List.getElem?_append_left early] at found
        exact (other (fun i hi => .stock (Plan.stock_deregister i hi)) found).elim
      · rw [List.getElem?_append_right late] at found
        obtain ⟨last, -⟩ := List.getElem?_eq_some_iff.1 found
        rw [List.length_singleton, Plan.length_deregister] at last
        rw [placeOf]
        omega
    · cases inserted.not_return
  · rw [List.getElem?_append_right behind] at h
    exact (other Plan.inserts_epilogue h).elim

/-- What stands in front of a return, and the return. -/
theorem stands_return (hj : W.instrs[j]? = some (.plain (.leave k))) :
    W.Stands (W.placeOf j) (W.plan.deregister ++ [.plain (.leave k)]) := by
  have here := stands_piece (List.getElem?_eq_some_iff.1 hj).1
  rwa [piece_return hj] at here

end Weaving

namespace Care

variable {home : Slot} {S S' : Care}

/-- The context is dropped by one call, whatever comes in front of it. -/
theorem after_deactivate (h : S.after home (callService Service.deactivate) = some S') : S' = .dropped := by
  have meddles : (callService Service.deactivate).meddles = true := by decide
  have other : callService Service.deactivate ≠ .load .reference home := by
    rintro ⟨⟩
  cases S with
  | lifted depth =>
    have known : ContextService.all.find? (·.ref = Service.deactivate) = some .deactivate := by decide
    have served : Care.served depth Service.deactivate = some S' := h
    rw [Care.served, known] at served
    simp only at served
    split at served
    · exact (Option.some.inj served).symm
    · cases served
  | kept =>
    rw [after, if_neg other, if_neg (by simp [callService]), if_pos (.inl meddles)] at h
    cases h
  | _ => simp [after, callService, Instr.pushes, Instr.isReturn] at h

/-- A service without arguments is called on what was lifted right before from where the context is kept.  A
signal is given nothing but values that are pushed. -/
theorem kept_of_after {slot : Slot} {s : ContextService} (alone : s.signature.params = [])
    (lifts : S.after home (.load .reference slot) = some S') (calls : S'.after home (callService s.ref) = some S'') :
    S = .kept ∧ slot = home := by
  have notPush : (callService s.ref).pushes = false := rfl
  cases S with
  | kept =>
    by_cases same : slot = home
    · exact ⟨rfl, same⟩
    · have other : Instr.load .reference slot ≠ .load .reference home := fun e => same (by cases e; rfl)
      rw [after_kept rfl other (by simp [Instr.written?])] at lifts
      cases lifts
      have meddles : (callService s.ref).meddles = true := by cases s <;> decide
      have notLoad : callService s.ref ≠ .load .reference home := by rintro ⟨⟩
      rw [after, if_neg notLoad, if_neg (by simp [callService]), if_pos (.inl meddles)] at calls
      cases calls
  | lifted depth =>
    rw [after_push rfl] at lifts
    cases lifts
    rcases after_lifted calls with ⟨m, same, served⟩ | ⟨push, -⟩
    · cases same
      have known : ContextService.all.find? (·.ref = s.ref) = some s := by cases s <;> decide
      simp [Care.served, known, alone] at served
    · cases notPush.symm.trans push
  | unmet =>
    have pushes : (Instr.load .reference slot).pushes = true := rfl
    have notCreated : Instr.load .reference slot ≠ .invoke .static Service.createOrResetContext := by
      rintro ⟨⟩
    rw [after, if_neg notCreated, if_pos pushes] at lifts
    cases lifts
    simp [after, callService, Instr.pushes] at calls
  | copied | giving =>
    obtain ⟨depth, rfl⟩ : ∃ depth, S' = .giving depth := by
      simp [after, Instr.pushes] at lifts
      first | exact ⟨_, lifts.symm⟩ | exact ⟨_, lifts.2.symm⟩
    rcases after_giving calls with ⟨k, same, -⟩ | ⟨push, -⟩
    · cases same
    · cases notPush.symm.trans push
  | given | dropped | born | built => simp [after, Instr.isReturn] at lifts

end Care

namespace Weaving

variable {W W' : Weaving} {j : Nat} {k : Option Storage} {f : Frame}

/-- Whoever returns has dropped its context. -/
theorem care_return (unaware : W.method.Plain) {q : Nat} (h : W.stream[q]? = some (.plain (.leave k))) :
    W.care q = some .dropped := by
  obtain ⟨j, hj, rfl⟩ := exists_return h
  have before : W.stream[W.placeOf j + 3]? = some (callService Service.deactivate) := by
    refine getElem?_placeOf_add ?_
    rw [piece_return hj]
    rfl
  obtain ⟨S, S', -, after, care⟩ := exists_after unaware before
  rw [care, Care.after_deactivate after]

/-- In front of the code that drops the context it is kept, in the slot that this code loads it from. -/
theorem care_deregister (unaware : W.method.Plain) (same : W'.result = W.result)
    (hj : W'.instrs[j]? = some (.plain (.leave k))) :
    W.care (W'.placeOf j) = some .kept ∧ W'.plan.home = W.plan.home := by
  have stream : W'.stream = W.stream := congrArg (·.code.instrs) same
  have here := stands_return hj
  rw [Stands, stream] at here
  have here : W.Stands (W'.placeOf j) (W'.plan.loadContext :: callService (ContextService.ref .register) :: _) := here
  obtain ⟨S, S', care, lifts, care'⟩ := exists_after unaware here.head
  obtain ⟨S₁, S₂, care₁, calls, -⟩ := exists_after unaware here.tail.head
  obtain rfl : S₁ = S' := Option.some.inj (care₁.symm.trans care')
  obtain ⟨rfl, home⟩ := Care.kept_of_after rfl lifts calls
  exact ⟨care, home⟩

end Weaving

/-! ## Runs that return -/

variable {σ : Type} {cls : Class} {host : Host σ}

namespace Run

/-- What is shown of a run one instruction at a time, if nothing is to be shown where it gets stuck.  The budget
is paid before the instruction is fetched, so there are three cases: no budget, an empty one, and one more step. -/
theorem follow_of_step {Q : Progress σ → Prop} {f : Frame} {cs : List Caller} {w : World σ} {i : Instr} {n : Nat}
    (fetched : fetch f = .ok i) (stuck : ∀ e w, Q (.failed e w))
    (each : ∀ fuel flow t, i.step cls host ⟨f.moved 1 f.stack, w.paying fuel⟩ = .ok flow t →
      Q (match go host ⟨t.frame, cs, t.world⟩ flow with
        | .running r => r.follow cls host n
        | ended => ended)) : Q (follow cls host (n + 1) ⟨f, cs, w⟩) := by
  have acts (fuel : Option Nat) : Q (match act cls host ⟨f, cs, w.paying fuel⟩ with
      | .running r => r.follow cls host n
      | ended => ended) := by
    rw [act_eq (r := ⟨f, cs, w.paying fuel⟩) fetched]
    cases step : i.step cls host ⟨f.moved 1 f.stack, w.paying fuel⟩ with
    | ok flow t =>
      have step : i.step cls host ⟨{ f with pc := f.pc + 1 }, w.paying fuel⟩ = .ok flow t := step
      simp only [step]
      exact each fuel flow t step
    | error e t =>
      have step : i.step cls host ⟨{ f with pc := f.pc + 1 }, w.paying fuel⟩ = .error e t := step
      simp only [step]
      exact stuck e _
  rw [follow, advance_eq]
  rcases budget : w.fuel with _ | _ | fuel
  · have same : w.paying none = w := budget ▸ w.paying_fuel
    exact same ▸ acts none
  · exact stuck _ _
  · exact acts (some fuel)

end Run

/-- What a return needs: a budget for the code in front of it and for itself, the handle in its slot, and a value of
its kind on the stack. -/
structure Weaving.MayReturn (W : Weaving) (k : Option Storage) (f : Frame) (w : World σ) : Prop where
  affords : Run.Affords w.fuel 5
  handle : ∃ r id, f.locals[W.plan.home]? = some (.object r) ∧ w.heap.get? r = some (.handle .context id)
  value : ∀ s, k = some s → ∃ v rest, f.stack = v :: rest ∧ v.kind = s.kind

/-- A run has returned with a value, or has got stuck. -/
def Progress.Returns (v : Option Value) : Progress σ → Prop
  | .running _ => False
  | .completed c _ => c = .returned v
  | .failed .. => True

namespace Weaving

variable {W : Weaving} {j : Nat} {k : Option Storage} {f : Frame} {w : World σ} {id : ContextId}

/-- The handle is loaded and a service is called on it that takes nothing and yields nothing: the run goes on with
the stack as it was, or gets stuck. -/
theorem follow_service {Q : Progress σ → Prop} {p : Plan} {s : ContextService} {n : Nat} {cs : List Caller}
    (alone : s.signature.params = []) (silent : s.signature.result = none) (stuck : ∀ e w, Q (.failed e w))
    (reads : f.Reads [p.loadContext, callService s.ref]) (houses : f.Houses p.home w.heap id)
    (rest : ∀ w' : World σ, w.heap.KeepsHandles w'.heap → Q (Run.follow cls host n ⟨f.moved 2 f.stack, cs, w'⟩)) :
    Q (Run.follow cls host (n + 2) ⟨f, cs, w⟩) := by
  refine Run.follow_of_step reads.fetch stuck fun fuel flow t step => ?_
  obtain ⟨v, found, rfl, rfl⟩ := Instr.step_load step
  obtain ⟨r, face, rfl, known⟩ := houses v found
  have next : Run.fetch (f.moved 1 (.object r :: f.stack)) = .ok (callService s.ref) :=
    (reads.tail (g := f.moved 1 (.object r :: f.stack)) rfl rfl).fetch
  refine Run.follow_of_step (f := f.moved 1 (.object r :: f.stack)) (w := w.paying fuel) next stuck
    fun fuel' flow t step => ?_
  have service : s.ref.isService = true := by simp [MemberRef.isService, s.owner_ref]
  have known' : ((w.paying fuel).paying fuel').heap.get? r = some (.handle face id) := known
  have stack : (f.moved 2 (.object r :: f.stack)).stack = ([] : List Value).reverse ++ .object r :: f.stack := rfl
  have step : (callService s.ref).step cls host ⟨f.moved 2 (.object r :: f.stack), (w.paying fuel).paying fuel'⟩ =
      .ok flow t := step
  rw [Instr.step_callService service s.ref_ne s.callSignature_ref stack (by rw [alone]; rfl) known'] at step
  split at step
  · next a w' called =>
    cases step
    have kept := (s.ref.admitted_anyhow.each id |>.keeps_callHandle [] face).ok called
    rw [silent]
    exact rest w' kept.1.2
  · cases step

/-- From the code in front of a return on, a run returns with the value on top of the stack, or gets stuck. -/
theorem follow_return (hj : W.instrs[j]? = some (.plain (.leave k))) (own : f.method = W.result)
    (place : f.pc = W.placeOf j) (houses : f.Houses W.plan.home w.heap id) :
    (Run.follow cls host 5 ⟨f, [], w⟩).Returns (k.bind fun _ => f.stack.head?) := by
  have here : f.Reads ([W.plan.loadContext, callService (ContextService.ref .register)] ++
      ([W.plan.loadContext, callService (ContextService.ref .deactivate)] ++ [.plain (.leave k)])) :=
    (stands_return hj).reads own place
  have behind : (f.moved 2 f.stack).Reads _ := here.right rfl rfl
  have last : (f.moved 4 f.stack).Reads [.plain (.leave k)] := behind.right rfl rfl
  refine follow_service (n := 3) rfl rfl (fun _ _ => trivial) here.left houses fun w₁ kept => ?_
  have houses₁ : (f.moved 2 f.stack).Houses W.plan.home w₁.heap id := fun v hv => (houses v hv).kept kept
  refine follow_service (n := 1) (f := f.moved 2 f.stack) rfl rfl (fun _ _ => trivial) behind.left houses₁
    fun w₂ _ => ?_
  refine Run.follow_of_step (f := f.moved 4 f.stack) (n := 0) last.fetch (fun _ _ => trivial)
    fun fuel flow t step => ?_
  obtain ⟨rfl, -⟩ := Instr.value_of_leave step
  rfl

/-- It does return if there is all that a return needs, and the context is live. -/
theorem follow_return_of_mayReturn (hj : W.instrs[j]? = some (.plain (.leave k))) (own : f.method = W.result)
    (place : f.pc = W.placeOf j) (may : W.MayReturn k f w) (houses : f.Houses W.plan.home w.heap id)
    (live : (w.contexts.get? id).isSome = true) (intact : w.heap.HandlesIntact) :
    ∃ w', Run.follow cls host 5 ⟨f, [], w⟩ = .completed (.returned (k.bind fun _ => f.stack.head?)) w' := by
  obtain ⟨c, live⟩ := Option.isSome_iff_exists.1 live
  have holds : f.Holds W.plan.home w id c := by
    obtain ⟨r, id', found, known⟩ := may.handle
    obtain ⟨r', face, same, known'⟩ := houses _ found
    cases same
    cases known.symm.trans known'
    exact ⟨⟨r, found, known⟩, live, intact⟩
  have here := (stands_return hj).reads own place
  obtain ⟨w', dropped, -⟩ := Plan.performs_deregister cls host holds
  have took := (dropped.takes here.left [] (P := fun _ => True) fun _ _ _ _ _ => trivial).follow (Run.Affords.first (m := 4) (n := 1) may.affords)
  have last : Run.fetch (f.moved 4 f.stack) = .ok (.plain (.leave k)) :=
    (here.right (g := f.moved 4 f.stack) rfl rfl).fetch
  have returned (fuel : Option Nat) : Run.act cls host ⟨f.moved 4 f.stack, [], w'.paying fuel⟩ =
      .completed (.returned (k.bind fun _ => f.stack.head?)) (w'.paying fuel) := by
    obtain ⟨g, left⟩ := Instr.step_leave_of_value cls host (f := f.moved 5 f.stack) (w := w'.paying fuel) may.value
    have left : (Instr.plain (.leave k)).step cls host
      ⟨{ f.moved 4 f.stack with pc := (f.moved 4 f.stack).pc + 1 }, w'.paying fuel⟩ = _ := left
    rw [Run.act_eq (r := ⟨f.moved 4 f.stack, [], w'.paying fuel⟩) last]
    simp only [left]
    rfl
  have more : Run.Affords (Run.spend w.fuel 4) 1 := Run.Affords.rest (m := 4) may.affords
  have ends := Run.advance_of_act (r := ⟨f.moved 4 f.stack, [], w'⟩) returned more
  have goes : Run.follow cls host 4 ⟨f, [], w⟩ = .running ⟨f.moved 4 f.stack, [], w'.paying (Run.spend w.fuel 4)⟩ :=
    took
  have ends : Run.advance cls host ⟨f.moved 4 f.stack, [], w'.paying (Run.spend w.fuel 4)⟩ = _ := ends
  refine ⟨w'.paying (Run.spend (Run.spend w.fuel 4) 1), ?_⟩
  rw [show 5 = 4 + 1 from rfl, Run.follow_add, goes]
  simp only [Run.follow, ends]

end Weaving

end Suspension
