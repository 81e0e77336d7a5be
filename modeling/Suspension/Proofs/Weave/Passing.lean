import Suspension.Proofs.Weave.Tidy

/-!
# What the common rethrow throws

In front of the code of a handler stands code that takes signals to the common rethrow.  Each of its
instructions hands the exception that has come to the handler on to the next one.  So what is thrown again is
what was thrown before, unless the code of the method goes on to the handler by itself.

## Main definitions
* `Method.LetsThrough`: where that code stands.
* `Run.PassesOn`: a run that has an exception in hand there.

## Main results
* `Run.PassesOn.before`: inside of that code, the exception was in hand before.
* `Run.PassesOn.caught`: where an exception has been caught, it is the one in hand.
-/

namespace Suspension

variable {σ : Type} {cls : Class} {host : Host σ} {exc : ObjectId}

/-- Places of suspendable code where signals are let through: the label of a handler with the three instructions
of the check behind it, and the last two instructions of a method that has handlers. -/
def Method.LetsThrough (m : Method) (place : Nat) : Prop :=
  ∃ r ∈ m.code.regions, .label r.handler ∈ (m.code.instrs.take (place + 1)).drop (place - 3) ∨
    m.code.instrs.length ≤ place + 2

instance (m : Method) (place : Nat) : Decidable (m.LetsThrough place) :=
  inferInstanceAs (Decidable (∃ r ∈ m.code.regions, _ ∨ _))

/-- How many values the check for signals has put above the exception that it checks. -/
def Instr.checking : Instr → Nat
  | .typed .instanceOf _ | .jump .. => 1
  | _ => 0

namespace Run

/-- A frame of suspendable code in front of an instruction that lets signals through. -/
def Passing (r : Run σ) : Prop := ¬ r.frame.method.Plain ∧ r.frame.method.LetsThrough r.frame.pc

instance (r : Run σ) : Decidable r.Passing := inferInstanceAs (Decidable (_ ∧ _))

/-- The code that lets signals through has an exception in hand. -/
def PassesOn (r : Run σ) (exc : ObjectId) : Prop :=
  r.Passing ∧ ∃ i, fetch r.frame = .ok i ∧ r.frame.stack[i.checking]? = some (.object exc)

end Run

/-! ## Steps of the check -/

namespace Instr

variable {s t : Situation σ} {flow : Flow}

/-- The value on top of the stack is copied. -/
theorem step_dup (h : (Instr.plain (.shuffle .dup)).step cls host s = .ok flow t) :
    flow = .next ∧ ∃ v rest, s.frame.stack = v :: rest ∧ t = ⟨{ s.frame with stack := v :: v :: rest }, s.world⟩ := by
  cases stack : s.frame.stack with
  | nil => simp [step, PlainOp.step, Frame.shuffle, Frame.dup, Frame.popWords, Frame.takeValues, stack] at h
  | cons v rest =>
    by_cases one : v.words ≤ 1
    · have words : 1 - v.words = 0 := by have := v.words_pos; omega
      simp [step, PlainOp.step, Frame.shuffle, Frame.dup, Frame.popWords, Frame.takeValues, Frame.pushAll, stack, one,
        words, Except.map] at h
      exact ⟨h.1.symm, v, rest, rfl, h.2.symm⟩
    · simp [step, PlainOp.step, Frame.shuffle, Frame.dup, Frame.popWords, Frame.takeValues, stack, one] at h

/-- The reference on top of the stack is tested. -/
theorem step_instanceOf {c : String} (h : (Instr.typed .instanceOf c).step cls host s = .ok flow t) :
    flow = .next ∧ ∃ v n rest, s.frame.stack = v :: rest ∧
      t = ⟨{ s.frame with stack := .int n :: rest }, s.world⟩ := by
  obtain ⟨exc, _, lifted, h⟩ := bind_apply_eq_ok h
  obtain ⟨f, popped, rfl⟩ := liftM_frame_eq_ok lifted
  obtain ⟨v, rest, stack, -, rfl⟩ := Frame.pops_popRef _ _ _ popped
  cases exc with
  | none =>
    cases h
    exact ⟨rfl, v, 0, rest, stack, rfl⟩
  | some exc =>
    cases tested : s.world.instanceOf host exc c with
    | error e => simp [World.isOf, tested] at h
    | ok b =>
      simp [World.isOf, tested] at h
      exact ⟨h.1.symm, v, _, rest, stack, h.2.symm⟩

/-- The int on top of the stack decides about a jump. -/
theorem step_ifZero {test : Test} {l : Label} (h : (Instr.jump (.ifZero test) l).step cls host s = .ok flow t) :
    (flow = .next ∨ flow = .jump l) ∧ ∃ v rest, s.frame.stack = v :: rest ∧
      t = ⟨{ s.frame with stack := rest }, s.world⟩ := by
  obtain ⟨n, _, lifted, h⟩ := bind_apply_eq_ok h
  obtain ⟨f, popped, rfl⟩ := liftM_frame_eq_ok lifted
  obtain ⟨v, rest, stack, -, rfl⟩ := Frame.pops_popInt _ _ _ popped
  cases h
  refine ⟨?_, v, rest, stack, rfl⟩
  unfold Flow.branch
  split
  · exact .inr rfl
  · exact .inl rfl

end Instr

/-! ## The places of the check -/

namespace Weaving

variable {W : Weaving} {f : Frame} {i : Instr} {j : Nat}

/-- A method that has handlers ends with the common rethrow. -/
theorem stands_rethrow {r : Region} (mem : r ∈ W.method.code.regions) :
    ∃ l, W.plan.rethrow = .ok l ∧ W.stream[W.placeOf W.instrs.length]? = some (.label l) ∧
      W.stream[W.placeOf W.instrs.length + 1]? = some (.plain .athrow) ∧
      W.stream.length = W.placeOf W.instrs.length + 2 := by
  obtain ⟨k, hk, handler, -⟩ := target_handler (f := { method := W.result }) rfl mem
  obtain ⟨l, drawn, -⟩ := piece_handler hk handler
  have epilogue := epilogue_eq hk handler drawn
  have behind := congrArg List.length (W.drop_placeOf W.instrs.length)
  rw [List.drop_eq_nil_of_le (Nat.le_of_eq W.length_pieces), epilogue] at behind
  simp at behind
  exact ⟨l, drawn, getElem?_epilogue (k := 0) (by rw [epilogue]; rfl), getElem?_epilogue (by rw [epilogue]; rfl),
    by omega⟩

/-- The places where signals are let through are those of the instructions that were inserted for it. -/
theorem passes_of_letsThrough (hm : f.method = W.result) (fetched : Run.fetch f = .ok i)
    (h : f.method.LetsThrough f.pc) : W.Passes f.pc i := by
  rw [hm] at h
  obtain ⟨r, mem, place⟩ := h
  rcases place with near | last
  · obtain ⟨k, hk, handler, target⟩ := target_handler hm (r := r) mem
    obtain ⟨n, hn⟩ := List.mem_iff_getElem?.1 near
    rw [List.getElem?_drop, List.getElem?_take] at hn
    split at hn
    · next low =>
      have same : f.pc - 3 + n = W.placeOf k := Except.ok.inj ((target_eq hm hn).symm.trans target)
      obtain ⟨i', fetched', passes⟩ := passing_of_piece hm hk handler (by omega) (by omega)
      cases fetched.symm.trans fetched'
      exact passes
    · cases hn
  · obtain ⟨l, drawn, label, again, length⟩ := stands_rethrow mem
    have here : W.stream[f.pc]? = some i := by
      have found := Run.getElem?_of_fetch fetched
      rwa [hm] at found
    have inside := (List.getElem?_eq_some_iff.1 here).1
    have last : W.stream.length ≤ f.pc + 2 := last
    have either : f.pc = W.placeOf W.instrs.length ∨ f.pc = W.placeOf W.instrs.length + 1 := by omega
    rcases either with place | place
    · rw [place] at here ⊢
      cases label.symm.trans here
      exact .rethrow drawn
    · rw [place] at here ⊢
      cases again.symm.trans here
      exact .again

/-- The first instruction of a piece lets signals through only if it is a label. -/
theorem Passes.exists_label (h : W.Passes (W.placeOf j) i) (inside : j ≤ W.instrs.length) : ∃ l, i = .label l := by
  have apart {k : Nat} {l : Label} (hk : W.instrs[k]? = some (.label l)) (handler : W.plan.isHandler l = true) :
      W.placeOf j ≤ W.placeOf k ∨ W.placeOf k + 4 ≤ W.placeOf j := by
    obtain ⟨r, -, hp⟩ := piece_handler hk handler
    have next : W.placeOf (k + 1) = W.placeOf k + 4 := by
      rw [placeOf_succ (List.getElem?_eq_some_iff.1 hk).1, hp]
      rfl
    rcases Nat.lt_or_ge k j with before | behind
    · exact .inr (next ▸ placeOf_mono before)
    · exact .inl (placeOf_mono behind)
  have high : W.placeOf j ≤ W.placeOf W.instrs.length := placeOf_mono inside
  generalize W.placeOf j = p at h apart high
  cases h with
  | handler | rethrow => exact ⟨_, rfl⟩
  | copy here handler | test here handler | branch here handler =>
    have := apart here handler
    omega
  | again => omega

end Weaving

namespace Run

variable {W : Weaving} {r r' : Run σ}

/-- Inside of the code that lets signals through, an exception that is in hand was so before, and nothing else
changes. -/
theorem PassesOn.before (hm : r.frame.method = W.result) (passing : r.Passing)
    (other : fetch r.frame ≠ .ok (.plain .athrow)) (act : r.act cls host = .running r')
    (on : r'.PassesOn exc) : r.PassesOn exc ∧ r'.world = r.world := by
  obtain ⟨i, flow, t, fetched, step, go⟩ := act_eq_running act
  obtain ⟨passing', i', fetched', top⟩ := on
  suffices hands : r.frame.stack[i.checking]? = some (.object exc) ∧ r'.world = r.world from
    ⟨⟨passing, i, fetched, hands.1⟩, hands.2⟩
  have passes := Weaving.passes_of_letsThrough hm fetched passing.2
  obtain ⟨region, mem, -⟩ := passing.2
  obtain ⟨⟨method, locals, stack, pc⟩, callers, world⟩ := r
  obtain rfl : method = W.result := hm
  have goesOn {ins : Instr} (behind : W.stream[pc + 1]? = some ins) (place : r'.frame.pc = pc + 1)
      (own : r'.frame.method = W.result) : i' = ins := by
    have found := Weaving.fetch_eq own (place ▸ behind)
    exact Except.ok.inj (fetched'.symm.trans found)
  have inPiece {j k : Nat} {ins : Instr} (h : (W.piece j)[k]? = some ins) : W.stream[W.placeOf j + k]? = some ins :=
    Weaving.getElem?_placeOf_add h
  change W.Passes pc i at passes
  change region ∈ W.method.code.regions at mem
  cases passes with
  | @handler j l here handler =>
    obtain ⟨l', -, hp⟩ := Weaving.piece_handler here handler
    cases step
    cases go
    obtain rfl := goesOn (inPiece (k := 1) (by rw [hp]; rfl)) rfl rfl
    exact ⟨top, rfl⟩
  | @copy j l here handler =>
    obtain ⟨l', -, hp⟩ := Weaving.piece_handler here handler
    obtain ⟨rfl, v, rest, taken, rfl⟩ := Instr.step_dup step
    cases go
    obtain rfl := goesOn (inPiece (k := 2) (by rw [hp]; rfl)) rfl rfl
    obtain rfl : stack = v :: rest := taken
    exact ⟨top, rfl⟩
  | @test j l here handler =>
    obtain ⟨l', -, hp⟩ := Weaving.piece_handler here handler
    obtain ⟨rfl, v, n, rest, taken, rfl⟩ := Instr.step_instanceOf step
    cases go
    obtain rfl := goesOn (inPiece (k := 3) (by rw [hp]; rfl)) rfl rfl
    obtain rfl : stack = v :: rest := taken
    exact ⟨top, rfl⟩
  | @branch j l l' here handler drawn =>
    obtain ⟨either, v, rest, taken, rfl⟩ := Instr.step_ifZero step
    obtain rfl : stack = v :: rest := taken
    rcases either with rfl | rfl
    · cases go
      obtain ⟨drawn', -, hp⟩ := Weaving.piece_handler here handler
      have inside := (List.getElem?_eq_some_iff.1 here).1
      have next : W.placeOf (j + 1) = W.placeOf j + 4 := by
        rw [Weaving.placeOf_succ inside, hp]
        rfl
      have passes : W.Passes (W.placeOf (j + 1)) i' := by
        rw [next]
        exact Weaving.passes_of_letsThrough rfl fetched' passing'.2
      obtain ⟨l, rfl⟩ := passes.exists_label inside
      exact ⟨top, rfl⟩
    · obtain ⟨drawn', same, label, -⟩ := Weaving.stands_rethrow mem
      cases drawn.symm.trans same
      unfold Run.go at go
      simp only at go
      split at go
      · next place found =>
        cases go
        obtain rfl : place = _ := Except.ok.inj (found.symm.trans (W.target_eq rfl label))
        obtain rfl : i' = .label l' := Except.ok.inj (fetched'.symm.trans (W.fetch_eq rfl label))
        exact ⟨top, rfl⟩
      · cases go
  | rethrow drawn =>
    cases step
    cases go
    obtain ⟨l, -, -, again, -⟩ := Weaving.stands_rethrow mem
    obtain rfl := goesOn again rfl rfl
    exact ⟨top, rfl⟩
  | again => exact absurd fetched other

/-- In a tidy run, code that is not plain is suspendable code. -/
theorem Tidy.exists_weaving {ready : Contexts → Prop} {n : Nat} (tidy : r.Tidy cls ready n)
    (woven : ¬ r.frame.method.Plain) : ∃ W : Weaving, r.frame.method = W.result ∧ W.method.Plain := by
  obtain ⟨own, ids, tends, -⟩ := tidy.frames
  cases tends with
  | plain plain => exact absurd plain woven
  | woven method unaware => exact ⟨_, method, unaware⟩

/-- Suspendable code does not begin with letting signals through. -/
theorem PassesOn.pc_ne_zero (hm : r.frame.method = W.result) (unaware : W.method.Plain) (on : r.PassesOn exc) :
    r.frame.pc ≠ 0 := by
  intro start
  obtain ⟨passing, i, fetched, -⟩ := on
  have passes := Weaving.passes_of_letsThrough hm fetched passing.2
  have here : W.stream[0]? = some i := by
    have found := getElem?_of_fetch fetched
    rwa [hm, start] at found
  obtain ⟨l, rfl⟩ : ∃ l, i = .label l := by
    rw [start] at passes
    generalize place : 0 = p at passes
    cases passes with
    | handler | rethrow => exact ⟨_, rfl⟩
    | copy | test | branch | again => cases place
  cases W.care_zero.symm.trans (W.care_label unaware here)

/-- An exception that is caught is alone on the stack, and nothing else changes. -/
theorem stack_of_unwind {w : World σ} {f : Frame} {cs : List Caller} (h : unwind host w exc f cs = .running r') :
    r'.frame.stack = [.object exc] ∧ r'.world = w := by
  induction cs generalizing f with
  | nil =>
    rw [unwind_eq] at h
    split at h
    · cases h
    · cases h
      exact ⟨rfl, rfl⟩
    · cases h
  | cons c cs ih =>
    rw [unwind_eq] at h
    split at h
    · cases h
    · cases h
      exact ⟨rfl, rfl⟩
    · exact ih h

/-- So at the handler that has caught it, it is the one in hand. -/
theorem PassesOn.caught {w : World σ} {f : Frame} {cs : List Caller} {thrown : ObjectId}
    (h : unwind host w thrown f cs = .running r') (on : r'.PassesOn exc) : exc = thrown := by
  obtain ⟨-, i, -, hands⟩ := on
  rw [(stack_of_unwind h).1] at hands
  have mem := List.mem_of_getElem? hands
  simpa [Value.object] using mem

end Run

end Suspension
