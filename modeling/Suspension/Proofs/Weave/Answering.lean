import Suspension.Proofs.Machine.Answers
import Suspension.Proofs.Weave.Returns
import Suspension.Proofs.Weave.Tidy

/-!
# Answers that are taken

A run hands its answer to the first site that asks for it.  Until then the context that the run works on holds the
answer that the run was begun with, and afterwards it holds none.

## Main definitions
* `Run.Collects`, `Run.Collected`: a run that takes an answer, and one that has taken one.
* `Weaving.MayFetch`: what is needed to fetch an answer.

## Main results
* `Run.Tidy.act_takes`: what is taken is the answer of the context that the frame owns.
* `Run.Tidy.owes_follow`: what contexts hold during a run.
* `Weaving.follow_fetching`: a site goes on with the answer of its context on top of the stack, or gets stuck.
-/

namespace Suspension

variable {σ : Type} {cls : Class} {host : Host σ}

/-! ## What takes an answer -/

/-- An answer is taken on a handle that was lifted right before, and the context is kept.  Taking an answer is a
call of a service, which only a handle that was lifted admits. -/
theorem Care.lifted_of_takes {home : Slot} {S S' : Care} {i : Instr} (h : S.after home i = some S')
    (takes : i.takesAnswer = true) : S = .lifted 0 ∧ i = callService (ContextService.ref .getCallAnswer) := by
  have service : i.callsService = true := Instr.callsService_of_takesAnswer takes
  have meddles : i.meddles = true := by
    cases inert : i.meddles with
    | true => rfl
    | false => exact absurd service (by rw [Instr.not_callsService_of_inert inert]; decide)
  have pushes : i.pushes = false := by
    cases push : i.pushes with
    | false => rfl
    | true => exact absurd service (by rw [Instr.not_callsService_of_pushes push]; decide)
  have other {j : Instr} (quiet : j.takesAnswer = false) : i ≠ j := by
    rintro rfl
    cases quiet.symm.trans takes
  cases S with
  | lifted depth =>
    rcases after_lifted h with ⟨m, rfl, served⟩ | ⟨push, -⟩
    · have named : ContextService.ofName? m.name = some .getCallAnswer := by
        simpa [Instr.takesAnswer, callService] using (Bool.and_eq_true_iff.1 takes).2
      rcases served_eq_some served with ⟨s, rfl, length, -⟩ | ⟨s, rfl, -⟩
      · obtain rfl : s = .getCallAnswer := Option.some.inj (s.ofName?_ref.symm.trans named)
        obtain rfl : 0 = depth := length
        exact ⟨rfl, rfl⟩
      · have apart : ContextService.ofName? s.ref.name ≠ some .getCallAnswer := by
          cases s with
          | increment => decide
          | store k | get k | push k | pop k => cases k <;> decide
        exact absurd named apart
    · cases pushes.symm.trans push
  | unmet =>
    rw [after, if_neg (other (by decide)), pushes, if_neg Bool.false_ne_true] at h
    cases h
  | given =>
    rw [after, if_neg (other rfl)] at h
    cases h
  | kept =>
    rw [after, if_neg (other rfl), if_neg, if_pos (.inl meddles)] at h
    · cases h
    · rintro ⟨k, -, rfl⟩
      cases takes
  | dropped =>
    have stays : i.isReturn = false := by
      cases ret : i.isReturn with
      | false => rfl
      | true =>
        obtain ⟨k, rfl⟩ := Instr.isReturn_iff.1 ret
        cases takes
    rw [after, stays, if_neg Bool.false_ne_true] at h
    cases h
  | born =>
    rw [after, if_neg (other rfl)] at h
    cases h
  | copied =>
    rw [after, if_neg (other rfl)] at h
    cases h
  | giving depth =>
    rcases after_giving h with ⟨k, rfl, -⟩ | ⟨push, -⟩
    · cases k <;> exact absurd takes (by decide)
    · cases pushes.symm.trans push
  | built =>
    rw [after, if_neg (other rfl)] at h
    cases h

namespace Run

variable {ready : Contexts → Prop} {n : Nat} {v : Option Value} {r r' x : Run σ} {i : Instr}

/-- A run that takes an answer: its next instruction asks for one, and the run goes on. -/
def Collects (cls : Class) (host : Host σ) (r : Run σ) : Prop :=
  (∃ i, fetch r.frame = .ok i ∧ i.takesAnswer = true) ∧ ∃ r', r.advance cls host = .running r'

/-- A run that has taken an answer within a number of instructions. -/
def Collected (cls : Class) (host : Host σ) (n : Nat) (r : Run σ) : Prop :=
  ∃ k < n, ∃ x, r.follow cls host k = .running x ∧ x.Collects cls host

variable (host) in
/-- A frame that takes an answer takes that of the context that it owns, which holds none afterwards; or it is
refused, and nothing changes.  A method that knows of no contexts calls no service; in a woven one the handle is
that of the own context. -/
theorem Tidy.act_takes (tidy : r.Tidy cls ready n) (fetched : fetch r.frame = .ok i) (takes : i.takesAnswer = true) :
    (∃ id c r', n ≤ id.index ∧ r.world.contexts.get? id = some c ∧ r.act cls host = .running r' ∧
        r'.world.contexts = r.world.contexts.set id { c with callAnswer := none }) ∨
      ∃ e w', r.act cls host = .failed e w' ∧ w'.contexts = r.world.contexts := by
  obtain ⟨own, ids, tends, apart, -⟩ := tidy.frames
  cases tends with
  | plain plain =>
    have inert := Instr.not_callsService_of_inert (plain i (mem_of_fetch fetched))
    cases inert.symm.trans (Instr.callsService_of_takesAnswer takes)
  | @woven W S own method unaware care holds =>
    have here : W.stream[r.frame.pc]? = some i := by
      have found := getElem?_of_fetch fetched
      rwa [method] at found
    obtain ⟨S₀, S', before, after, -⟩ := W.exists_after unaware here
    obtain rfl : S₀ = S := Option.some.inj (before.symm.trans care)
    obtain ⟨rfl, rfl⟩ := Care.lifted_of_takes after takes
    cases holds with
    | @lifted id depth u houses stack shows =>
      obtain ⟨o, face, rfl, known⟩ := shows
      obtain ⟨high, top⟩ := List.getElem?_eq_some_iff.1 stack
      have beneath : (r.frame.moved 1 r.frame.stack).stack = ([] : List Value).reverse ++ .object o ::
          r.frame.stack.drop 1 := by
        rw [List.reverse_nil, List.nil_append, ← top, List.getElem_cons_drop, List.drop_zero]
        rfl
      have acts : r.act cls host = _ := act_eq fetched
      have step : (callService (ContextService.ref .getCallAnswer)).step cls host
          ⟨{ r.frame with pc := r.frame.pc + 1 }, r.world⟩ = _ :=
        Instr.step_callService rfl (ContextService.ref_ne .getCallAnswer)
          (ContextService.callSignature_ref .getCallAnswer) beneath rfl known
      rcases World.callHandle_getCallAnswer [] id face r.world with ⟨c, -, live, called⟩ | ⟨e, refused⟩
      · rw [called] at step
        simp only [step] at acts
        exact .inl ⟨id, c, _, (apart id rfl).1.high, live, acts, rfl⟩
      · rw [refused] at step
        simp only [step] at acts
        exact .inr ⟨e, _, acts, rfl⟩

section

variable (leaves : host.LeavesHandles) (careful : cls.Careful)
  (first : ∀ cs, ready cs → v = none ∨ (cs.pending.filter cs.contains).isSome = true)
include leaves careful first

/-- What the contexts of a run hold behind its next instruction.  An instruction that takes an answer is the
only one that changes what is held. -/
theorem Tidy.owes_advance (tidy : r.Tidy cls ready n) (fair : r.Fair ready) {new : ContextId}
    (alone : ∀ id, n ≤ id.index → (r.world.contexts.get? id).isSome = true → id = new)
    (owes : Contexts.Owes n v r.world.contexts) :
    (r.Collects cls host → Contexts.Owes n none (r.advance cls host).world.contexts) ∧
      (¬ r.Collects cls host → Contexts.Owes n v (r.advance cls host).world.contexts) := by
  by_cases takes : ∃ i, fetch r.frame = .ok i ∧ i.takesAnswer = true
  · obtain ⟨i, fetched, asks⟩ := takes
    have paid (fuel : Option Nat) (same : r.advance cls host = (r.paying fuel).act cls host) :
        (r.Collects cls host → Contexts.Owes n none (r.advance cls host).world.contexts) ∧
          (¬ r.Collects cls host → Contexts.Owes n v (r.advance cls host).world.contexts) := by
      rcases (tidy.paying fuel).act_takes host fetched asks with
        ⟨id, c, r', high, live, acts, after⟩ | ⟨e, w', acts, after⟩
      · refine ⟨fun _ => ?_, fun none => absurd ⟨⟨i, fetched, asks⟩, r', same.trans acts⟩ none⟩
        rw [same, acts]
        have live : r.world.contexts.get? id = some c := live
        obtain rfl : id = new := alone id high (by rw [live]; rfl)
        exact after ▸ Contexts.owes_none_of_set live alone
      · rw [same, acts]
        refine ⟨fun ⟨_, r', goes⟩ => ?_, fun _ => after ▸ owes⟩
        cases goes.symm.trans (same.trans acts)
    have budget : r.advance cls host = _ := advance_eq r
    split at budget
    · exact paid r.world.fuel budget
    · rw [budget]
      refine ⟨fun ⟨_, r', goes⟩ => ?_, fun _ => owes⟩
      cases goes.symm.trans budget
    · next fuel _ => exact paid (some fuel) budget
  · have quiet (i : Instr) (fetched : fetch r.frame = .ok i) : i.takesAnswer = false :=
      Bool.eq_false_iff.2 fun asks => takes ⟨i, fetched, asks⟩
    have paid (fuel : Option Nat) : Contexts.Owes n v ((r.paying fuel).act cls host).world.contexts := by
      have fair : (r.paying fuel).Fair ready := ⟨fair.homing, fair.entered⟩
      obtain ⟨own, own', -, effect, -⟩ := (tidy.paying fuel).act leaves careful fair
      exact effect.owes (holding_act (r := r.paying fuel) leaves quiet) owes (first _)
    refine ⟨fun collects => absurd collects.1 takes, fun _ => ?_⟩
    rw [advance_eq]
    split
    · exact paid r.world.fuel
    · exact owes
    · next fuel _ => exact paid (some fuel)

omit leaves careful first in
theorem collected_succ {k : Nat} (reached : r.follow cls host k = .running x) :
    r.Collected cls host (k + 1) ↔ r.Collected cls host k ∨ x.Collects cls host := by
  constructor
  · rintro ⟨j, hj, y, at_j, collects⟩
    rcases Nat.lt_succ_iff_lt_or_eq.1 hj with before | rfl
    · exact .inl ⟨j, before, y, at_j, collects⟩
    · cases at_j.symm.trans reached
      exact .inr collects
  · rintro (⟨j, hj, y, at_j, collects⟩ | collects)
    · exact ⟨j, Nat.lt_succ_of_lt hj, y, at_j, collects⟩
    · exact ⟨k, Nat.lt_succ_self k, x, reached, collects⟩

omit leaves careful first in
theorem collected_of_ended {k : Nat} (ended : ∀ x, r.follow cls host k ≠ .running x) :
    r.Collected cls host (k + 1) ↔ r.Collected cls host k := by
  refine ⟨fun ⟨j, hj, y, at_j, collects⟩ => ?_, fun ⟨j, hj, found⟩ => ⟨j, Nat.lt_succ_of_lt hj, found⟩⟩
  rcases Nat.lt_succ_iff_lt_or_eq.1 hj with before | rfl
  · exact ⟨j, before, y, at_j, collects⟩
  · exact absurd at_j (ended y)

/-- What the contexts of a run hold: what they held at its beginning, until it has taken an answer, and nothing
from then on. -/
theorem Tidy.owes_follow (tidy : r.Tidy cls ready n) (fair : r.Throughout cls host (Fair ready)) {new : ContextId}
    (alone : ∀ k id, n ≤ id.index → ((r.follow cls host k).world.contexts.get? id).isSome = true → id = new)
    (owes : Contexts.Owes n v r.world.contexts) (k : Nat) :
    (r.Collected cls host k → Contexts.Owes n none (r.follow cls host k).world.contexts) ∧
      (¬ r.Collected cls host k → Contexts.Owes n v (r.follow cls host k).world.contexts) := by
  induction k with
  | zero => exact ⟨fun ⟨j, hj, _⟩ => absurd hj (Nat.not_lt_zero j), fun _ => owes⟩
  | succ k ih =>
    cases at_k : r.follow cls host k with
    | running x =>
      rw [at_k] at ih
      have whole : r.follow cls host (k + 1) = x.advance cls host := follow_succ at_k
      have tidy' := tidy.along leaves careful fair at_k
      have alone' : ∀ id, n ≤ id.index → (x.world.contexts.get? id).isSome = true → id = new := by
        have here := alone k
        rwa [at_k] at here
      rw [collected_succ at_k, whole]
      by_cases before : r.Collected cls host k
      · obtain ⟨taken, kept⟩ := tidy'.owes_advance leaves careful (fun _ _ => .inl rfl) (fair k x at_k) alone'
          (ih.1 before)
        refine ⟨fun _ => ?_, fun none => absurd (.inl before) none⟩
        by_cases collects : x.Collects cls host
        · exact taken collects
        · exact kept collects
      · obtain ⟨taken, kept⟩ := tidy'.owes_advance leaves careful first (fair k x at_k) alone' (ih.2 before)
        exact ⟨fun either => taken (either.resolve_left before), fun none => kept fun c => none (.inr c)⟩
    | completed | failed =>
      rw [collected_of_ended fun x running => by cases at_k.symm.trans running]
      have whole : r.follow cls host (k + 1) = r.follow cls host k := by rw [follow_add, at_k]
      rw [whole]
      exact ih

end

end Run

/-! ## The site goes on -/

/-- A run has gone on at a place with some stack, or has got stuck. -/
def Progress.Continues (place : Nat) (stack : List Value) : Progress σ → Prop
  | .running r => r.frame.pc = place ∧ r.frame.stack = stack
  | .completed .. => False
  | .failed .. => True

/-- What is needed to fetch an answer: a budget, and the handle in its slot. -/
structure Weaving.MayFetch (W : Weaving) (n : Nat) (f : Frame) (w : World σ) : Prop where
  affords : Run.Affords w.fuel n
  handle : ∃ r id, f.locals[W.plan.home]? = some (.object r) ∧ w.heap.get? r = some (.handle .context id)

namespace Weaving

variable {W : Weaving} {i : Nat} {f : Frame} {w : World σ} {cs : List Caller} {id : ContextId} {t : Tag}
  {v : Option Value}

/-- The code that fetches the answer stands at the end of its site. -/
theorem Suspends.stands_fetching (s : W.Suspends i)
    (place : f.pc + (W.plan.fetching s.code.answer).length = W.placeOf (i + 1)) :
    W.Stands f.pc (W.plan.fetching s.code.answer) := by
  have stands := stands_piece s.lt
  have piece : W.piece i = (s.code.leaving ++ .label s.code.resumption ::
      ([W.plan.loadContext, callService Service.clearLabel] ++ s.code.locals ++ s.code.stack)) ++
        W.plan.fetching s.code.answer := by
    rw [s.piece, Plan.SiteCode.code, Plan.SiteCode.returning]
    simp
  have behind := placeOf_succ s.lt
  rw [piece, List.length_append] at behind
  rw [piece] at stands
  have start := Nat.add_right_cancel (place.trans (behind.trans (Nat.add_assoc ..).symm))
  rw [start]
  exact stands.right

/-- In front of this code the context is kept, in the slot that the code loads it from. -/
theorem Suspends.care_fetching {W' : Weaving} (s : W.Suspends i) (answer : s.code.answer = some t)
    (unaware : W'.method.Plain) (same : W.result = W'.result)
    (place : f.pc + (W.plan.fetching s.code.answer).length = W.placeOf (i + 1)) :
    W'.care f.pc = some .kept ∧ W.plan.home = W'.plan.home := by
  have stream : W.stream = W'.stream := congrArg (·.code.instrs) same
  have here := s.stands_fetching place
  rw [Stands, stream, answer] at here
  have here : W'.Stands f.pc (W.plan.loadContext :: callService (ContextService.ref .getCallAnswer) :: _) := here
  obtain ⟨S, S', care, lifts, care'⟩ := exists_after unaware here.head
  obtain ⟨S₁, S₂, care₁, calls, -⟩ := exists_after unaware here.tail.head
  obtain rfl : S₁ = S' := Option.some.inj (care₁.symm.trans care')
  obtain ⟨rfl, home⟩ := Care.kept_of_after rfl lifts calls
  exact ⟨care, home⟩

/-- An answer that passes the cast stays on top of the stack. -/
theorem follow_castTo {Q : Progress σ → Prop} {u : Value} {rest : List Value} (stuck : ∀ e w, Q (.failed e w))
    (reads : f.Reads (castTo t)) (stack : f.stack = u :: rest) (fits : u.Fits host w t)
    (goes : ∀ w' : World σ, Q (.running ⟨f.moved (castTo t).length f.stack, cs, w'⟩)) :
    Q (Run.follow cls host (castTo t).length ⟨f, cs, w⟩) := by
  unfold castTo at reads goes ⊢
  cases target : t.castTarget with
  | none =>
    rw [target] at goes
    exact goes w
  | some c =>
    rw [target] at reads goes
    have reads : f.Reads [.typed .checkCast c] := reads
    have carries : (Instr.typed .checkCast c).Carries cls host ⟨f, w⟩ ⟨f.moved 1 f.stack, w⟩ :=
      Carries.checkCast stack (fits c target)
    refine Run.follow_of_step (n := 0) reads.fetch stuck fun fuel flow t step => ?_
    cases (carries.step fuel).symm.trans step
    exact goes _

/-- From the code on that fetches the answer, a site goes on with the answer of its context on top of the stack,
or gets stuck.  The context is loaded from its slot, asked for its answer, and the answer is cast. -/
theorem follow_fetching (s : W.Suspends i) (answer : s.code.answer = some t) (own : f.method = W.result)
    (place : f.pc + (W.plan.fetching s.code.answer).length = W.placeOf (i + 1))
    (houses : f.Houses W.plan.home w.heap id) (owes : ∀ c, w.contexts.get? id = some c → c.callAnswer = v)
    (fits : (v.getD .null).Fits host w t) :
    (Run.follow cls host (W.plan.fetching s.code.answer).length ⟨f, cs, w⟩).Continues (W.placeOf (i + 1))
      (v.getD .null :: f.stack) := by
  have stands := s.stands_fetching place
  have length : (W.plan.fetching s.code.answer).length = (castTo t).length + 2 := by
    rw [answer, Plan.fetching, List.length_append, Nat.add_comm]
    rfl
  have reads := stands.reads own rfl
  rw [length] at place ⊢
  rw [answer] at reads
  have reads : f.Reads ([W.plan.loadContext, callService (ContextService.ref .getCallAnswer)] ++ castTo t) := reads
  refine Run.follow_of_step reads.left.fetch (fun _ _ => trivial) fun fuel flow u step => ?_
  obtain ⟨handle, found, rfl, rfl⟩ := Instr.step_load step
  obtain ⟨r, face, rfl, known⟩ := houses handle found
  have next : Run.fetch (f.moved 1 (.object r :: f.stack)) = .ok (callService (ContextService.ref .getCallAnswer)) :=
    (reads.left.tail (g := f.moved 1 (.object r :: f.stack)) rfl rfl).fetch
  refine Run.follow_of_step (f := f.moved 1 (.object r :: f.stack)) (w := w.paying fuel) next (fun _ _ => trivial)
    fun fuel' flow u step => ?_
  have stack : (f.moved 2 (.object r :: f.stack)).stack = ([] : List Value).reverse ++ .object r :: f.stack := rfl
  have known' : ((w.paying fuel).paying fuel').heap.get? r = some (.handle face id) := known
  have step : (callService (ContextService.ref .getCallAnswer)).step cls host
    ⟨f.moved 2 (.object r :: f.stack), (w.paying fuel).paying fuel'⟩ = .ok flow u := step
  rw [Instr.step_callService rfl (ContextService.ref_ne .getCallAnswer)
    (ContextService.callSignature_ref .getCallAnswer) stack rfl known'] at step
  rcases World.callHandle_getCallAnswer [] id face ((w.paying fuel).paying fuel') with
    ⟨c, -, live, called⟩ | ⟨e, refused⟩
  · rw [called] at step
    cases step
    have held : c.callAnswer = v := owes c live
    have fits' : (v.getD .null).Fits host (((w.paying fuel).paying fuel').replace id { c with callAnswer := none }) t :=
      fits.mono (.refl _) rfl
    refine follow_castTo (f := f.moved 2 (c.callAnswer.getD .null :: f.stack)) (fun _ _ => trivial)
      (reads.right rfl rfl) rfl (held ▸ fits') fun w' => ⟨?_, ?_⟩
    · show f.pc + 2 + (castTo t).length = _
      omega
    · show c.callAnswer.getD .null :: f.stack = _
      rw [held]
  · rw [refused] at step
    cases step

/-- It goes on if there is all that is needed to fetch an answer. -/
theorem follow_fetching_of_mayFetch (s : W.Suspends i) (answer : s.code.answer = some t) (own : f.method = W.result)
    (place : f.pc + (W.plan.fetching s.code.answer).length = W.placeOf (i + 1))
    (may : W.MayFetch (W.plan.fetching s.code.answer).length f w) (houses : f.Houses W.plan.home w.heap id)
    (live : (w.contexts.get? id).isSome = true) (intact : w.heap.HandlesIntact)
    (owes : ∀ c, w.contexts.get? id = some c → c.callAnswer = v) (fits : (v.getD .null).Fits host w t) :
    ∃ r, Run.follow cls host (W.plan.fetching s.code.answer).length ⟨f, cs, w⟩ = .running r := by
  obtain ⟨c, live⟩ := Option.isSome_iff_exists.1 live
  have holds : f.Holds W.plan.home w id c := by
    obtain ⟨r, id', found, known⟩ := may.handle
    obtain ⟨r', face, same, known'⟩ := houses _ found
    cases same
    cases known.symm.trans known'
    exact ⟨⟨r, found, known⟩, live, intact⟩
  have reads := (s.stands_fetching place).reads own rfl
  obtain ⟨w', performs, -⟩ := Plan.performs_fetching cls host holds fun u (hu : s.code.answer = some u) => by
    cases answer.symm.trans hu
    rw [owes c live]
    exact fits
  have took := (performs.takes reads cs (P := fun _ => True) fun _ _ _ _ _ => trivial).follow may.affords
  exact ⟨_, took⟩

end Weaving

end Suspension
