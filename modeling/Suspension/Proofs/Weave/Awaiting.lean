import Suspension.Proofs.Machine.Answers
import Suspension.Proofs.Weave.Ground
import Suspension.Proofs.Weave.Linkage
import Suspension.Proofs.Weave.Returns

/-!
# The way to an answer

Suspendable code takes the answer to a call behind the label at which the site of the call is resumed.  There is one
way to this place: from the entry to the dispatch, from there to the label, and straight on.  Nobody else goes to
such a label, no handler starts at one, and what stands in front of it is a throw.  So a run that comes to take an
answer has been on this way since it was entered, and has taken none before.

## Main definitions
* `Plan.SiteCode.asking`: the code of a call site from its label to the instruction that takes the answer.
* `Weaving.Awaits`: the places on the way to an answer.

## Main results
* `Weaving.lt_of_goes`: only the dispatch goes to the labels at which sites are resumed.
* `Weaving.Awaits.of_steers`: whoever comes to the way was on it before.
* `Run.awaits_of_follow`: a run that is on the way has been on it since it was begun.
-/

namespace Suspension

variable {σ : Type}

/-! ## What the parts of a site do -/

namespace Plan

variable {p : Plan} {site : Nat}

theorem quiet_pushInt (n : Int32) : (pushInt n).takesAnswer = false := by
  unfold pushInt
  repeat' split
  all_goals rfl

theorem quiet_castTo (t : Tag) : ∀ i ∈ castTo t, i.takesAnswer = false := by
  intro i hi
  have cast : i ∈ t.castTarget.toList.map (.typed .checkCast ·) := by simpa [castTo] using hi
  obtain ⟨c, -, rfl⟩ := List.mem_map.1 cast
  rfl

/-- No answer is taken where slots are fetched back. -/
theorem quiet_restoreLocals {locals : Locals} {code : List Instr} (h : p.restoreLocals site locals = .ok code) :
    ∀ i ∈ code, i.takesAnswer = false := by
  obtain ⟨codes, hcodes, h⟩ := bind_eq_ok.1 h
  cases h
  refine each_mapM hcodes fun e code h => ?_
  obtain ⟨k, -, h⟩ := bind_eq_ok.1 h
  cases h
  simp only [localVars, List.mem_append, List.mem_cons, List.not_mem_nil, or_false]
  rintro i ((((rfl | rfl) | rfl | rfl) | hi) | rfl)
  · rfl
  · decide
  · exact quiet_pushInt _
  · cases k <;> decide
  · exact quiet_castTo e.2 i hi
  · rfl

/-- No answer is taken where the stack is fetched back. -/
theorem quiet_restoreStack {stack : List Tag} {code : List Instr} (h : p.restoreStack site stack = .ok code) :
    ∀ i ∈ code, i.takesAnswer = false := by
  obtain ⟨codes, hcodes, h⟩ := bind_eq_ok.1 h
  cases h
  refine each_mapM hcodes fun t code h => ?_
  obtain ⟨k, -, h⟩ := bind_eq_ok.1 h
  cases h
  simp only [localStack, List.mem_append, List.mem_cons, List.not_mem_nil, or_false]
  rintro i (((rfl | rfl) | rfl) | hi)
  · rfl
  · decide
  · cases k <;> decide
  · exact quiet_castTo t i hi

theorem quiet_opening : ∀ i ∈ p.obtaining ++ p.dispatch, i.takesAnswer = false := by
  simp only [obtaining, dispatch, List.mem_append, List.mem_cons, List.not_mem_nil, or_false]
  rintro i ((rfl | rfl | rfl) | hi)
  · unfold loadReceiver
    split <;> rfl
  · decide
  · rfl
  · split at hi
    · cases hi
    · simp only [List.mem_cons, List.not_mem_nil, or_false] at hi
      rcases hi with rfl | rfl | rfl
      · rfl
      · decide
      · rfl

namespace SiteCode

variable {kind : InvokeKind} {sort : SiteKind} (s : p.SiteCode site kind sort)

/-- The code by which a flow is fetched back, and the instruction that pushes the handle. -/
def regaining : List Instr :=
  [p.loadContext, callService Service.clearLabel] ++ s.locals ++ s.stack ++ [p.loadContext]

/-- The code behind the label of a call site up to the instruction that takes the answer. -/
def asking : List Instr := s.regaining ++ [callService Service.getCallAnswer]

theorem returning_of_answer {t : Tag} (h : s.answer = some t) : s.returning = s.asking ++ castTo t := by
  simp [returning, asking, regaining, fetching, h]

theorem quiet_regaining : ∀ i ∈ s.regaining, i.takesAnswer = false := by
  simp only [regaining, List.mem_append, List.mem_cons, List.not_mem_nil, or_false]
  rintro i ((((rfl | rfl) | hi) | hi) | rfl)
  · rfl
  · decide
  · exact quiet_restoreLocals s.locals_eq i hi
  · exact quiet_restoreStack s.stack_eq i hi
  · rfl

theorem stock_asking : ∀ i ∈ s.asking, i.Stock := by
  simp only [asking, regaining, List.mem_append, List.mem_cons, List.not_mem_nil, or_false]
  rintro i (((((rfl | rfl) | hi) | hi) | rfl) | rfl)
  · exact .load _ _
  · exact .context .clearLabel
  · exact stock_restoreLocals s.locals_eq i hi
  · exact stock_restoreStack s.stack_eq i hi
  · exact .load _ _
  · exact .context .getCallAnswer

end SiteCode

/-! ## Where inserted code goes -/

/-- An instruction that goes to no other label than the common rethrow. -/
def Turns (p : Plan) (i : Instr) : Prop := ∀ l ∈ i.targets, p.rethrow = .ok l

theorem turns_of_targets {i : Instr} (h : i.targets = []) : p.Turns i := by
  intro l hl
  rw [h] at hl
  cases hl

theorem turns_of_stock {i : Instr} (h : i.Stock) : p.Turns i := turns_of_targets h.targets

theorem turns_throwSignal (kind : SiteKind) (payload : Option Slot) : ∀ i ∈ p.throwSignal kind payload, p.Turns i := by
  simp only [throwSignal, List.mem_append, List.mem_cons, List.not_mem_nil, or_false]
  rintro i (((rfl | rfl | rfl) | hi) | rfl | rfl)
  · exact turns_of_targets rfl
  · exact turns_of_targets rfl
  · exact turns_of_targets rfl
  · cases payload with
    | none => cases hi
    | some s =>
      obtain rfl := List.mem_singleton.1 hi
      exact turns_of_targets rfl
  · exact turns_of_targets rfl
  · exact turns_of_targets rfl

theorem turns_dropReceiver (kind : InvokeKind) : ∀ i ∈ dropReceiver kind, p.Turns i := by
  intro i hi
  unfold dropReceiver at hi
  split at hi
  · obtain rfl := List.mem_singleton.1 hi
    exact turns_of_targets rfl
  · cases hi

theorem SiteCode.turns_code {kind : InvokeKind} {sort : SiteKind} (s : p.SiteCode site kind sort) :
    ∀ i ∈ s.code, p.Turns i := by
  simp only [code, leaving, saving, List.mem_append, List.mem_cons, List.not_mem_nil, or_false]
  rintro i (((((hi | hi) | hi) | rfl | rfl | rfl) | hi) | rfl | hi)
  · split at hi
    · obtain rfl := List.mem_singleton.1 hi
      exact turns_of_targets rfl
    · cases hi
  · exact turns_dropReceiver kind i hi
  · exact turns_of_stock (stock_saveStack s.saved_eq i hi)
  · exact turns_of_targets rfl
  · exact turns_of_stock (.int _)
  · exact turns_of_targets rfl
  · exact turns_throwSignal _ _ i hi
  · exact turns_of_targets rfl
  · exact turns_of_stock (s.stock_returning i hi)

theorem turns_answer {kind : InvokeKind} {m : MemberRef} {code : List Instr} (h : p.answer kind m = .ok code) :
    ∀ i ∈ code, p.Turns i := by
  obtain ⟨s, -, h⟩ := bind_eq_ok.1 h
  cases h
  simp only [List.mem_append, List.mem_cons, List.not_mem_nil, or_false]
  rintro i (((hi | rfl) | hi) | hi)
  · split at hi
    · obtain rfl := List.mem_singleton.1 hi
      exact turns_of_targets rfl
    · cases hi
  · exact turns_of_targets rfl
  · exact turns_dropReceiver kind i hi
  · exact turns_throwSignal _ _ i hi

end Plan

namespace Weaving

variable {W : Weaving} {place : Nat}

/-- The piece of an instruction goes to the common rethrow, and to where the instruction goes. -/
theorem turns_piece {i : Nat} {ins j : Instr} (hi : W.instrs[i]? = some ins) (hj : j ∈ W.piece i) :
    j = ins ∨ W.plan.Turns j := by
  cases hd : ins.defined? with
  | some l =>
    obtain rfl := defined?_eq_some.1 hd
    cases handler : W.plan.isHandler l with
    | true =>
      obtain ⟨r, drawn, hp⟩ := piece_handler hi handler
      simp only [hp, List.mem_cons, List.not_mem_nil, or_false] at hj
      rcases hj with rfl | rfl | rfl | rfl
      · exact .inl rfl
      · exact .inr (Plan.turns_of_targets rfl)
      · exact .inr (Plan.turns_of_targets rfl)
      · exact .inr fun l hl => List.mem_singleton.1 hl ▸ drawn
    | false =>
      rw [piece_label hi handler, List.mem_singleton] at hj
      exact .inl hj
  | none =>
    cases hr : ins.isReturn with
    | true =>
      obtain ⟨k, rfl⟩ := Instr.isReturn_iff.1 hr
      rw [piece_return hi, List.mem_append, List.mem_singleton] at hj
      rcases hj with hj | rfl
      · exact .inr (Plan.turns_of_stock (Plan.stock_deregister j hj))
      · exact .inl rfl
    | false =>
      cases site : W.config.site? W.className ins with
      | none =>
        obtain ⟨fetched, hf, hp⟩ := piece_other hi hd hr site
        simp only [hp, List.mem_append, List.mem_cons] at hj
        rcases hj with (rfl | hj) | hj
        · exact .inl rfl
        · exact .inr (Plan.turns_of_stock (Plan.stock_record _ j hj))
        · exact .inr (Plan.turns_of_stock (Plan.stock_retype hf j hj))
      | some s =>
        obtain ⟨kind, sort, m⟩ := s
        cases suspends : sort.suspends with
        | true =>
          obtain ⟨s, hp⟩ := piece_site hi site suspends
          exact .inr (s.turns_code j (hp ▸ hj))
        | false =>
          obtain rfl : sort = .answer := by simpa [SiteKind.suspends] using suspends
          exact .inr (Plan.turns_answer (piece_answer hi site) j hj)

/-- The code by which suspendable code is entered, up to the dispatch. -/
abbrev opening (W : Weaving) : List Instr := W.plan.obtaining ++ W.plan.dispatch

/-- Only the dispatch goes to the labels at which sites are resumed.  A jump from behind the dispatch would be
one of the method, or go to the common rethrow. -/
theorem lt_of_goes {j : Instr} {l : Label} (here : W.stream[place]? = some j) (goes : l ∈ j.targets)
    (resumes : l ∈ W.plan.resumptions) : place < W.opening.length := by
  refine Nat.lt_of_not_le fun behind => ?_
  have added : l ∈ W.added := List.mem_cons_of_mem _ (List.mem_append_left _ resumes)
  obtain ⟨k, hk⟩ := List.mem_iff_getElem?.1 resumes
  have number := toNat_resumption hk
  have rethrow (turns : W.plan.Turns j) : False := by
    have last := toNat_rethrow (turns l goes)
    have inside : k < W.plan.resumptions.length := (List.getElem?_eq_some_iff.1 hk).1
    rw [length_resumptions] at inside
    omega
  have original (own : j ∈ W.instrs) : False := not_mentions_of_added added (.inl ⟨j, own, .inl goes⟩)
  obtain ⟨sig, -, front⟩ := W.front_eq
  have split : W.stream = W.opening ++ (.label W.plan.start ::
      W.plan.recordParams W.plan.method.receiverSlots sig.params ++ W.pieces.flatten ++ W.plan.epilogue) := by
    rw [stream, front]
    simp
  rw [split, List.getElem?_append_right behind] at here
  have member := List.mem_of_getElem? here
  simp only [List.mem_append, List.mem_cons] at member
  rcases member with ((rfl | copied) | inside) | last
  · cases goes
  · exact rethrow (Plan.turns_of_stock (Plan.stock_recordParams _ _ j copied))
  · obtain ⟨code, hcode, inside⟩ := List.mem_flatten.1 inside
    obtain ⟨i, hi, rfl⟩ := List.mem_iff_getElem.1 hcode
    have own := List.getElem?_eq_getElem (W.length_pieces ▸ hi : i < W.instrs.length)
    have piece : W.piece i = W.pieces[i] := by simp [Weaving.piece, List.getElem?_eq_getElem hi]
    rcases turns_piece own (piece ▸ inside) with rfl | turns
    · exact original (List.mem_of_getElem? own)
    · exact rethrow turns
  · rcases W.plan.epilogue_cases with none | ⟨r, -, -, both⟩
    · rw [none] at last
      cases last
    · rw [both] at last
      simp only [List.mem_cons, List.not_mem_nil, or_false] at last
      rcases last with rfl | rfl <;> cases goes

/-! ## The way -/

/-- The places on the way to an answer: those up to the dispatch, and those from the label of a call site to the
instruction that takes the answer. -/
inductive Awaits (W : Weaving) (place : Nat) : Prop
  | opening (front : place < W.opening.length)
  | resumed {i k : Nat} (s : W.Suspends i) (answers : s.code.answer.isSome = true)
      (at_k : place = W.placeOf i + s.code.leaving.length + k) (low : k ≤ s.code.asking.length)

theorem stands_opening : W.Stands 0 W.opening := by
  obtain ⟨sig, -, front⟩ := W.front_eq
  have stands := W.stands_front
  rw [front] at stands
  exact stands.left

theorem mem_opening {j : Instr} (front : place < W.opening.length) (here : W.stream[place]? = some j) :
    j ∈ W.opening := by
  obtain ⟨rest, whole⟩ := W.stands_opening
  rw [List.drop_zero] at whole
  rw [← whole, List.getElem?_append_left front] at here
  exact List.mem_of_getElem? here

/-- What stands from the label of a call site on. -/
theorem Suspends.stands_asking {i : Nat} (s : W.Suspends i) (answers : s.code.answer.isSome = true) :
    W.Stands (W.placeOf i + s.code.leaving.length) (.label s.code.resumption :: s.code.asking) := by
  obtain ⟨t, answer⟩ := Option.isSome_iff_exists.1 answers
  have stands := stands_piece s.lt
  rw [s.piece, Plan.SiteCode.code, s.code.returning_of_answer answer, ← List.cons_append] at stands
  exact stands.right.left

/-- What stands in front of the label is a throw. -/
theorem Suspends.throws {i : Nat} (s : W.Suspends i) {q : Nat} (before : q + 1 = W.placeOf i + s.code.leaving.length) :
    W.stream[q]? = some (.plain .athrow) := by
  have stands := stands_piece s.lt
  rw [s.piece, Plan.SiteCode.code] at stands
  have leaving := stands.left
  rw [Plan.SiteCode.leaving, Plan.throwSignal_eq, ← List.append_assoc] at leaving
  have last := leaving.right.head
  rw [Plan.SiteCode.leaving, Plan.throwSignal_eq, ← List.append_assoc, List.length_append, List.length_singleton] at before
  rw [← last]
  exact congrArg (W.stream[·]?) (by omega)

namespace Awaits

variable {q : Nat} {j : Instr}

/-- What stands on the way: the code by which the method is entered, a label at which a site is resumed, and the code
behind it. -/
theorem stands (h : W.Awaits place) (here : W.stream[place]? = some j) :
    j ∈ W.opening ∨ (∃ l ∈ W.plan.resumptions, j = .label l) ∨ j.Stock := by
  cases h with
  | opening front => exact .inl (mem_opening front here)
  | @resumed i k s answers at_k low =>
    obtain ⟨rest, whole⟩ := s.stands_asking answers
    rw [at_k, ← List.getElem?_drop, ← whole, List.getElem?_append_left (by simp; omega)] at here
    cases k with
    | zero =>
      cases here
      exact .inr (.inl ⟨_, List.mem_of_getElem? s.code.resumption_eq, rfl⟩)
    | succ k => exact .inr (.inr (s.code.stock_asking j (List.mem_of_getElem? here)))

/-- The labels on the way are those at which sites are resumed. -/
theorem resumes (h : W.Awaits place) {l : Label} (here : W.stream[place]? = some (.label l)) :
    l ∈ W.plan.resumptions := by
  rcases h.stands here with front | ⟨r, resumes, same⟩ | stock
  · have serves : (Instr.label l).Serves :=
      (List.mem_append.1 front).elim (Plan.serves_obtaining _) (Plan.serves_dispatch _)
    cases serves
  · cases same
    exact resumes
  · cases stock.serves

/-- No subroutine is called on the way. -/
theorem calls_nobody (h : W.Awaits place) {l : Label} (here : W.stream[place]? = some (.jump .jsr l)) : False := by
  have inserted : W.plan.Inserts (.jump .jsr l) := by
    rcases h.stands here with front | ⟨r, -, same⟩ | stock
    · exact (List.mem_append.1 front).elim (Plan.inserts_obtaining _) (Plan.inserts_dispatch _)
    · cases same
    · exact .stock stock
  cases inserted with
  | stock stock => cases stock.targets

/-- What stands in front of a place of the way is on it and takes no answer, or it throws.  The last instruction
of the way takes the answer, but it is not in front of another one. -/
theorem before (h : W.Awaits (q + 1)) :
    W.stream[q]? = some (.plain .athrow) ∨ W.Awaits q ∧ ∀ j, W.stream[q]? = some j → j.takesAnswer = false := by
  cases h with
  | opening front =>
    have front : q < W.opening.length := by omega
    exact .inr ⟨.opening front, fun j here => Plan.quiet_opening j (mem_opening front here)⟩
  | @resumed i k s answers at_k low =>
    cases k with
    | zero => exact .inl (s.throws at_k)
    | succ k =>
      refine .inr ⟨.resumed s answers (k := k) (by omega) (by omega), fun j here => ?_⟩
      obtain ⟨rest, whole⟩ := s.stands_asking answers
      rw [show q = W.placeOf i + s.code.leaving.length + k by omega, ← List.getElem?_drop, ← whole,
        List.getElem?_append_left (by simp; omega)] at here
      cases k with
      | zero =>
        cases here
        rfl
      | succ k =>
        rw [List.getElem?_cons_succ, Plan.SiteCode.asking, List.getElem?_append_left] at here
        · exact s.code.quiet_regaining j (List.mem_of_getElem? here)
        · rw [Plan.SiteCode.asking, List.length_append, List.length_singleton] at low
          omega

end Awaits

/-- Whoever comes to the way was on it before, and took no answer there.  However the place was reached: from
the one in front, by a jump, from a subroutine, or from an exception. -/
theorem Awaits.of_steers {place' : Nat} (awaits : W.Awaits place') (steers : W.result.Steers place place') :
    W.Awaits place ∧ ∀ j, W.stream[place]? = some j → j.takesAnswer = false := by
  have label {l : Label} (target : W.result.code.target? l = some place') : W.stream[place']? = some (.label l) := by
    have found : ({ method := W.result } : Frame).target l = .ok place' := by rw [Frame.target, target]
    exact Frame.getElem?_of_target _ found
  cases steers with
  | falls here on =>
    rcases awaits.before with throws | before
    · cases here.symm.trans throws
      cases on
    · exact before
  | goes here mem target =>
    have front := lt_of_goes here mem (awaits.resumes (label target))
    exact ⟨.opening front, fun j hj => Plan.quiet_opening j (mem_opening front hj)⟩
  | back calls =>
    rcases awaits.before with throws | ⟨before, -⟩
    · cases calls.symm.trans throws
    · exact (before.calls_nobody calls).elim
  | @caught r _ mem target =>
    have added : r.handler ∈ W.added :=
      List.mem_cons_of_mem _ (List.mem_append_left _ (awaits.resumes (label target)))
    exact (not_mentions_of_added added (.inr ⟨r, mem, .inr (.inr rfl)⟩)).elim

/-- The code that fetches the answer is on the way. -/
theorem Suspends.awaits_fetching {i : Nat} {t : Tag} (s : W.Suspends i) (answer : s.code.answer = some t)
    (last : place + (W.plan.fetching s.code.answer).length = W.placeOf (i + 1)) : W.Awaits place := by
  refine .resumed s (by rw [answer]; rfl) (k := s.code.regaining.length) ?_ ?_
  · have behind := placeOf_succ s.lt
    rw [s.piece, Plan.SiteCode.code, s.code.returning_of_answer answer] at behind
    rw [answer, behind] at last
    simp only [Plan.SiteCode.asking, Plan.fetching, List.length_append, List.length_cons, List.length_nil] at last
    omega
  · rw [Plan.SiteCode.asking, List.length_append]
    exact Nat.le_add_right ..

end Weaving

/-- A run that is on the way to an answer has been on it since it was begun, and its first frame has taken none. -/
theorem Run.awaits_of_follow {cls : Class} {host : Host σ} {W : Weaving} (leaves : host.LeavesHandles) {r x : Run σ}
    (homing : r.Throughout cls host fun y => ¬y.frame.method.Plain → y.frame.Homing) (own : r.ground.method = W.result)
    {n : Nat} (reached : r.follow cls host n = .running x) (awaits : W.Awaits x.ground.pc) :
    W.Awaits r.ground.pc ∧ ∀ k < n, ∀ y, r.follow cls host k = .running y → y.callers = [] →
      ∀ i, fetch y.frame = .ok i → i.takesAnswer = false := by
  induction n generalizing r with
  | zero =>
    cases reached
    exact ⟨awaits, fun k hk => absurd hk (Nat.not_lt_zero k)⟩
  | succ n ih =>
    rw [follow] at reached
    split at reached
    · next r' first =>
      obtain ⟨fuel, act⟩ := act_of_advance first
      have home (alone : r.callers = []) : r.frame.Homing := by
        obtain ⟨frame, callers, world⟩ := r
        obtain rfl : callers = [] := alone
        have own : frame.method = W.result := own
        exact homing.here (own ▸ W.not_plain)
      obtain ⟨same, steers⟩ := steers_of_act (r := r.paying fuel) leaves home act
      obtain ⟨later, quiet⟩ := ih (homing.next first) (same.trans own) reached
      have here : W.Awaits r.ground.pc ∧ (r.callers = [] → ∀ i, fetch r.frame = .ok i → i.takesAnswer = false) := by
        rcases steers with ⟨called, stays⟩ | steers
        · exact ⟨stays ▸ later, fun alone => absurd alone called⟩
        · obtain ⟨before, still⟩ := later.of_steers (W := W) (own ▸ steers)
          refine ⟨before, fun alone i fetched => still i ?_⟩
          have found := getElem?_of_fetch fetched
          obtain ⟨frame, callers, world⟩ := r
          obtain rfl : callers = [] := alone
          have own : frame.method = W.result := own
          rwa [own] at found
      refine ⟨here.1, fun k hk y at_k alone => ?_⟩
      cases k with
      | zero =>
        cases at_k
        exact here.2 alone
      | succ k =>
        rw [follow, first] at at_k
        exact quiet k (Nat.lt_of_succ_lt_succ hk) y at_k alone
    · next ended => exact absurd reached (ended x)

end Suspension
