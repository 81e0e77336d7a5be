import Suspension.Proofs.Weave.Signals

/-!
# Signals are not seen by handlers

Whatever regions a method has, a signal that is raised in its suspendable form, or that comes out of a method
called by it, gets out again.  On its way it passes labels of handlers and code that was inserted for it, and
nothing else happens.

## Main definitions
* `Run.Arrives`: an exception comes to a frame.
* `Weaving.LetsOut`: an exception gets out of the frame.

## Main results
* `signal_opacity`: a signal that comes to a frame of a suspendable method gets out of it.
-/

namespace Suspension

variable {σ : Type}

/-- How an exception comes to a frame, with what has become of the run by then: an instruction of the frame
raises it, or it leaves the method that the frame waits for. -/
inductive Run.Arrives (cls : Class) (host : Host σ) (exc : ObjectId) :
    Progress σ → Frame → List Caller → World σ → Prop
  | raised {r : Run σ} {i : Instr} {f : Frame} {w : World σ} (fetched : Run.fetch r.frame = .ok i)
      (step : i.step cls host ⟨{ r.frame with pc := r.frame.pc + 1 }, r.world⟩ =
        .ok (.raise exc) ⟨f, w⟩) : Arrives cls host exc (r.act cls host) f r.callers w
  | left {f : Frame} {result : Option Tag} {cs : List Caller} {w : World σ} :
      Arrives cls host exc (Run.thrown host w exc (⟨f, result⟩ :: cs)) f cs w

/-- An exception that has come to a frame goes to the handlers of the method. -/
theorem Run.Arrives.eq_unwind {cls : Class} {host : Host σ} {exc : ObjectId} {p : Progress σ} {f : Frame}
    {cs : List Caller} {w : World σ} (h : Run.Arrives cls host exc p f cs w) :
    p = Run.unwind host w exc f cs := by
  cases h with
  | raised fetched step => rw [Run.act_eq fetched, step]; rfl
  | left => rfl

/-- An exception gets out of a frame as the object that it is, and nothing changes in the world: it gets out
at once, or every instruction on its way lets signals through and leads on to the next one. -/
def Weaving.LetsOut (W : Weaving) (cls : Class) (host : Host σ) (exc : ObjectId) (p : Progress σ)
    (cs : List Caller) (w : World σ) : Prop :=
  p = Run.thrown host w exc cs ∨
    ∃ g h : Frame, p = .running ⟨g, cs, w⟩ ∧ Run.Takes cls host W.Passing 5 ⟨g, cs, w⟩ ⟨h, cs, w⟩ ∧
      W.Passing h ∧ Run.Leaves cls host ⟨h, cs, w⟩ exc

/-- A signal that comes to a frame of a suspendable method gets out of it. -/
theorem signal_opacity {className : String} {method result : Method} {config : Config}
    (transformed : (method.transform className config).result = .ok (some result)) :
    ∃ W : Weaving, W.className = className ∧ W.method = method ∧ W.config = config ∧
      W.result = result ∧
      ∀ {σ : Type} (cls : Class) (host : Host σ) {f : Frame} {cs : List Caller} {w : World σ}
        {exc : ObjectId} {p : Progress σ}, f.method = result → w.IsSignal host exc →
        Run.Arrives cls host exc p f cs w → W.LetsOut cls host exc p cs w := by
  obtain ⟨W, rfl, hmethod, rfl, rfl⟩ := Weaving.exists_of_transform transformed
  refine ⟨W, rfl, hmethod, rfl, rfl, ?_⟩
  intro σ cls host f cs w exc p own signal arrives
  rw [arrives.eq_unwind]
  rcases Weaving.unwind_signal cls own signal cs with out | ⟨g, h, caught, taken, passing, leaves⟩
  · exact .inl (out w.fuel)
  · exact .inr ⟨g, h, caught w.fuel, taken, passing, leaves⟩

/-- A static method with a pause; whatever is thrown by it, or by its handler, goes to the handler. -/
def guarded : Method where
  access := staticFlag
  name := "execute"
  descriptor := "()V"
  maxLocals := 0
  code := {
    instrs := [.label 0, .pause, .plain (.leave none), .label 1, .plain (.shuffle .pop), .jump .goto 0, .label 2]
    regions := [⟨0, 2, 1, none⟩] }

theorem guarded_lets_signals_out :
    ∃ (W : Weaving) (f : Frame) (w : World Unit), W.method = guarded ∧ f.method = W.result ∧
      f.handlerFor (Host.nothing Unit) w (f.pc - 1) ⟨0⟩ W.result.code.regions =
        .ok (some (W.placeOf 3)) ∧
      W.LetsOut ⟨1, "app/C", some objectClass, [], [W.result]⟩ (Host.nothing Unit) ⟨0⟩
        (Run.thrown (Host.nothing Unit) w ⟨0⟩ [⟨f, none⟩]) [] w := by
  obtain ⟨result, transformed⟩ : ∃ result,
      (guarded.transform "app/C" {}).result = .ok (some result) :=
    exists_ok_some (by decide +kernel)
  obtain ⟨W, -, hmethod, -, hresult, letsOut⟩ := signal_opacity transformed
  let w : World Unit := { heap := (Heap.alloc {} (.new SiteKind.pause.signalClass)).2, outside := () }
  let f : Frame := { method := W.result, pc := W.placeOf 1 + 1 }
  have signal : w.IsSignal (Host.nothing Unit) ⟨0⟩ :=
    World.isSignal_of_class (Heap.get?_alloc_self {} (.new SiteKind.pause.signalClass))
  have instrs : W.instrs = guarded.code.instrs := congrArg (·.code.instrs) hmethod
  have label {i : Nat} {l : Label} (h : guarded.code.instrs[i]? = some (.label l)) :
      f.target l = .ok (W.placeOf i) := Weaving.target_label rfl (instrs ▸ h)
  have first : W.placeOf 0 ≤ W.placeOf 1 := Weaving.placeOf_mono (by decide)
  have last : W.placeOf 1 < W.placeOf 6 := by
    have handler : W.instrs[3]? = some (.label 1) := instrs ▸ rfl
    obtain ⟨check, piece⟩ := Weaving.exists_piece_label handler
    have next : W.placeOf 4 = W.placeOf 3 + (W.piece 3).length :=
      Weaving.placeOf_succ (List.getElem?_eq_some_iff.1 handler).1
    have before : W.placeOf 1 ≤ W.placeOf 3 := Weaving.placeOf_mono (by decide)
    have behind : W.placeOf 4 ≤ W.placeOf 6 := Weaving.placeOf_mono (by decide)
    rw [piece, List.length_cons] at next
    omega
  refine ⟨W, f, w, hmethod, rfl, ?_, letsOut _ _ hresult signal .left⟩
  have covered : f.covers ⟨0, 2, 1, none⟩ (W.placeOf 1) = .ok true := by
    rw [Frame.covers, label (i := 0) rfl, label (i := 6) rfl]
    simp [bind, Except.bind, pure, Except.pure, first, last]
  have regions : W.result.code.regions = [⟨0, 2, 1, none⟩] :=
    congrArg (·.code.regions) hmethod
  rw [regions, Frame.handlerFor, show f.pc - 1 = W.placeOf 1 from rfl, covered]
  simp [Region.catches, label (i := 3) rfl, bind, Except.bind, pure, Except.pure]

end Suspension
