import Suspension.Proofs.Machine.Calm
import Suspension.Proofs.Weave.Resumption

/-!
# Where inserted code is calm

From most places of a suspendable method, inserted code goes on calmly to an instruction of the method, or
throws.  Only what fetches slots back stores into slots of the method on the way.

## Main definitions
* `Weaving.Roomy`: everything that is recorded ends below the reserved slots.
* `Weaving.Ready`: the places from which inserted code goes on calmly.

## Main results
* `Weaving.ready_placeOf`: the pieces of all instructions start at such places.
* `Weaving.ready_behind`, `Weaving.ready_check`: so do the places behind a store, and behind a handler.
* `Weaving.ready_resumption`: and those at which sites are resumed.
-/

namespace Suspension

/-! ## Calm parts -/

theorem StoreService.calm_call {s : StoreService} (reads : s.writes = false) (base : Slot) :
    (callService s.ref).calm base = true := by
  have harmless : s.ref.harmless = true := by
    cases s with
    | store | increment => cases reads
    | get k | push k | pop k => cases k <;> decide
  simp [callService, Instr.calm, harmless]

theorem ContextService.calm_call {s : ContextService} (lasting : s ≠ .deactivate) (base : Slot) :
    (callService s.ref).calm base = true := by
  have harmless : s.ref.harmless = true := by
    cases s <;> first | decide | exact absurd rfl lasting
  simp [callService, Instr.calm, harmless]

namespace Plan

variable {p : Plan}

@[simp] theorem calm_pushInt (base : Slot) (n : Int32) : (pushInt n).calm base = true := by
  unfold pushInt
  split
  · rfl
  · split
    · rfl
    · split <;> rfl

@[simp] theorem calm_castTo (base : Slot) (t : Tag) : ∀ i ∈ castTo t, i.calm base = true := by
  unfold castTo
  cases t.castTarget <;> simp [Instr.calm]

theorem calm_localStack (base : Slot) : ∀ i ∈ p.localStack, i.calm base = true := by
  simp only [localStack, List.mem_cons, List.not_mem_nil, or_false, forall_eq_or_imp, forall_eq]
  exact ⟨rfl, ContextService.calm_call (s := .getLocalStack) (by decide) base⟩

theorem calm_dropReceiver (base : Slot) (kind : InvokeKind) :
    ∀ i ∈ dropReceiver kind, i.calm base = true := by
  unfold dropReceiver
  split <;> simp [Instr.calm]

theorem calm_building (base : Slot) (kind : SiteKind) (payload : Option Slot) :
    ∀ i ∈ p.building kind payload, i.calm base = true := by
  have constructor : (Instr.invoke .special kind.constructor).calm base = true := by
    have : kind.constructor.isService = false := by cases kind <;> decide
    simp [Instr.calm, this]
  cases payload <;> simp [building, loadContext, Instr.calm] <;> simpa [Instr.calm] using constructor

theorem calm_saveStack (spaced : p.slots.Spaced) {site : Nat} {stack : List Tag} {code : List Instr}
    (h : p.saveStack site stack = .ok code) : ∀ i ∈ code, i.calm p.slots.context = true := by
  obtain ⟨codes, hcodes, h⟩ := bind_eq_ok.1 h
  cases h
  refine each_mapM hcodes fun t code h => ?_
  obtain ⟨k, -, h⟩ := bind_eq_ok.1 h
  cases h
  simp only [List.mem_append, List.mem_cons, List.not_mem_nil, or_false]
  rintro i ((rfl | hi) | rfl | rfl)
  · have above : p.slots.context < p.slots.temp := by
      rw [UInt16.lt_iff_toNat_lt]
      have := spaced.temp
      omega
    simpa [Instr.calm] using above
  · exact calm_localStack _ i hi
  · rfl
  · exact StoreService.calm_call (s := .push k) rfl _

theorem calm_restoreStack {site : Nat} {stack : List Tag} {code : List Instr}
    (h : p.restoreStack site stack = .ok code) (base : Slot) : ∀ i ∈ code, i.calm base = true := by
  obtain ⟨codes, hcodes, h⟩ := bind_eq_ok.1 h
  cases h
  refine each_mapM hcodes fun t code h => ?_
  obtain ⟨k, -, h⟩ := bind_eq_ok.1 h
  cases h
  simp only [List.mem_append, List.mem_cons, List.not_mem_nil, or_false]
  rintro i ((hi | rfl) | hi)
  · exact calm_localStack _ i hi
  · exact StoreService.calm_call (s := .pop k) rfl _
  · exact calm_castTo _ t i hi

theorem calm_fetching (base : Slot) (answer : Option Tag) :
    ∀ i ∈ p.fetching answer, i.calm base = true := by
  unfold fetching
  split
  · simp only [List.mem_append, List.mem_cons, List.not_mem_nil, or_false]
    rintro i ((rfl | rfl) | hi)
    · rfl
    · exact ContextService.calm_call (s := .getCallAnswer) (by decide) base
    · exact calm_castTo _ _ i hi
  · simp

end Plan

namespace Weaving

variable (W : Weaving)

/-- Everything that is recorded of slots ends below the reserved ones. -/
structure Roomy : Prop where
  site : ∀ k S, W.shape.site? k = some S →
    ∀ (s : Slot) (t : Tag), S.locals[s]? = some t → s.toNat + t.words ≤ W.base
  label : ∀ (l : Label) (x : LabelSnapshot), W.shape.labels[l]? = some x →
    ∀ (s : Slot) (t : Tag), x.types.locals[s]? = some t → s.toNat + t.words ≤ W.base

/-- Code that stands at a place. -/
def Stands (pc : Nat) (code : List Instr) : Prop := code <+: W.stream.drop pc

/-- A place at which no piece starts. -/
def Hidden (pc : Nat) : Prop := ∀ j, pc ≠ W.placeOf j

/-- A place from which inserted code goes on calmly to an instruction of the method, or throws. -/
inductive Ready : Nat → Prop
  | place {i : Nat} {ins : Instr} (hi : W.instrs[i]? = some ins)
      (noSite : W.config.site? W.className ins = none) : Ready (W.placeOf i)
  | calm {pc : Nat} {i : Instr} (here : W.stream[pc]? = some i)
      (calm : i.calm W.plan.slots.context = true) (next : Ready (pc + 1)) : Ready pc
  | throw {pc : Nat} (here : W.stream[pc]? = some (.plain .athrow)) : Ready pc
  | check {pc q : Nat} {t : Test} {l : Label} (here : W.stream[pc]? = some (.jump (.ifZero t) l))
      (target : W.stream[q]? = some (.label l)) (taken : Ready q) (next : Ready (pc + 1)) : Ready pc
  | restore {pc site : Nat} {slot : Slot} {t : Tag} {code : List Instr}
      (hcode : W.plan.restoreLocal site slot t = .ok code) (here : W.Stands pc code)
      (hidden : ∀ q, pc ≤ q → q < pc + code.length → W.Hidden q)
      (room : slot.toNat + t.words ≤ W.base) (next : Ready (pc + code.length)) : Ready pc
  | ended {pc : Nat} (done : W.stream[pc]? = none) : Ready pc

variable {W}

/-! ## Code at a place -/

namespace Stands

variable {pc : Nat} {i : Instr} {code rest : List Instr}

theorem left (h : W.Stands pc (code ++ rest)) : W.Stands pc code :=
  (List.prefix_append code rest).trans h

theorem right (h : W.Stands pc (code ++ rest)) : W.Stands (pc + code.length) rest := by
  obtain ⟨t, ht⟩ := h
  refine ⟨t, ?_⟩
  rw [← List.drop_drop, ← ht, List.append_assoc, List.drop_left]

theorem head (h : W.Stands pc (i :: rest)) : W.stream[pc]? = some i := by
  obtain ⟨t, ht⟩ := h
  rw [← Nat.add_zero pc, ← List.getElem?_drop, ← ht]
  rfl

theorem tail (h : W.Stands pc (i :: rest)) : W.Stands (pc + 1) rest := by
  have h : W.Stands pc ([i] ++ rest) := h
  exact h.right

/-- A frame at the place has the code in front of it. -/
theorem reads (h : W.Stands pc code) {f : Frame} (hm : f.method = W.result) (hpc : f.pc = pc) :
    f.Reads code := by
  rw [Frame.Reads, hm, hpc]
  exact h

end Stands

/-- The piece of an instruction stands at its place. -/
theorem stands_piece {i : Nat} (hi : i < W.instrs.length) : W.Stands (W.placeOf i) (W.piece i) :=
  reads_piece (f := { method := W.result, pc := W.placeOf i }) rfl rfl hi

/-- No piece starts inside of another one. -/
theorem hidden_of_between {i q : Nat} (low : W.placeOf i < q) (high : q < W.placeOf (i + 1)) :
    W.Hidden q := by
  intro j e
  rcases Nat.le_total j i with h | h
  · have : W.placeOf j ≤ W.placeOf i := placeOf_mono h
    omega
  · rcases Nat.eq_or_lt_of_le h with rfl | h
    · omega
    · have : W.placeOf (i + 1) ≤ W.placeOf j := placeOf_mono h
      omega

/-- No piece starts in the front. -/
theorem hidden_front {q : Nat} (h : q < W.front.length) : W.Hidden q := by
  intro j e
  have : W.placeOf 0 ≤ W.placeOf j := placeOf_mono (Nat.zero_le j)
  rw [placeOf_zero] at this
  omega

theorem stands_front : W.Stands 0 W.front :=
  reads_front (f := { method := W.result }) rfl rfl

/-! ## Places that are ready -/

theorem Ready.ofCalm {pc : Nat} {code : List Instr} (here : W.Stands pc code)
    (calm : ∀ i ∈ code, i.calm W.plan.slots.context = true) (next : W.Ready (pc + code.length)) :
    W.Ready pc := by
  induction code generalizing pc with
  | nil => exact next
  | cons i rest ih =>
    refine .calm here.head (calm i (by simp)) (ih here.tail (fun j hj => calm j (by simp [hj])) ?_)
    rw [List.length_cons, Nat.add_comm rest.length, ← Nat.add_assoc] at next
    exact next

theorem Ready.ofThrow {pc : Nat} {kind : SiteKind} {payload : Option Slot} {rest : List Instr}
    (here : W.Stands pc (W.plan.throwSignal kind payload ++ rest)) : W.Ready pc := by
  rw [Plan.throwSignal_eq, List.append_assoc] at here
  exact .ofCalm here.left (Plan.calm_building _ _ _) (.throw here.right.head)

/-- Slots that were recorded are fetched back. -/
theorem Ready.ofRestore {pc site : Nat} {locals : Locals} {code : List Instr}
    (hcode : W.plan.restoreLocals site locals = .ok code) (here : W.Stands pc code)
    (hidden : ∀ q, pc ≤ q → q < pc + code.length → W.Hidden q)
    (room : ∀ (s : Slot) (t : Tag), locals[s]? = some t → s.toNat + t.words ≤ W.base)
    (next : W.Ready (pc + code.length)) : W.Ready pc := by
  obtain ⟨codes, hcodes, rfl⟩ := Plan.restoreLocals_eq_ok hcode
  have room : ∀ e ∈ W.plan.restoredSlots locals, e.1.toNat + e.2.words ≤ W.base := fun e he =>
    room _ _ (Plan.mem_restoredSlots.1 he).1
  clear hcode
  generalize W.plan.restoredSlots locals = entries at hcodes room
  induction entries generalizing pc codes with
  | nil =>
    cases hcodes
    exact next
  | cons e es ih =>
    simp only [List.mapM_cons, bind_eq_ok, pure, Except.pure, Except.ok.injEq] at hcodes
    obtain ⟨first, hfirst, more, hmore, rfl⟩ := hcodes
    rw [List.flatten_cons] at here next hidden
    rw [List.length_append, ← Nat.add_assoc] at next hidden
    exact .restore hfirst here.left (fun q low high => hidden q low (by omega)) (room e (by simp))
      (ih more here.right (fun q low high => hidden q (by omega) high) next hmore fun x hx =>
        room x (by simp [hx]))

/-- The code that leaves at a suspension site. -/
theorem ready_leaving {pc site : Nat} {kind : InvokeKind} {sort : SiteKind}
    (s : W.plan.SiteCode site kind sort) {rest : List Instr}
    (here : W.Stands pc (s.leaving ++ rest)) : W.Ready pc := by
  rw [Plan.SiteCode.leaving, List.append_assoc] at here
  refine .ofCalm here.left ?_ (.ofThrow here.right)
  have above : W.plan.slots.context < W.plan.slots.callTarget := by
    rw [UInt16.lt_iff_toNat_lt]
    have := W.spaced.callTarget
    omega
  simp only [Plan.saving, List.mem_append, List.mem_cons, List.not_mem_nil, or_false]
  rintro i (((hi | hi) | hi) | rfl | rfl | rfl)
  · split at hi
    · obtain rfl := List.mem_singleton.1 hi
      simpa [Instr.calm] using above
    · cases hi
  · exact Plan.calm_dropReceiver _ _ i hi
  · exact Plan.calm_saveStack W.spaced s.saved_eq i hi
  · rfl
  · exact Plan.calm_pushInt ..
  · exact ContextService.calm_call (s := .setLabel) (by decide) _

theorem ready_answer {pc : Nat} {kind : InvokeKind} {m : MemberRef} {code rest : List Instr}
    (hcode : W.plan.answer kind m = .ok code) (here : W.Stands pc (code ++ rest)) : W.Ready pc := by
  obtain ⟨sig, -, h⟩ := bind_eq_ok.1 hcode
  cases h
  rw [List.append_assoc] at here
  refine .ofCalm here.left ?_ (.ofThrow here.right)
  have above : W.plan.slots.context < W.plan.slots.answer := by
    rw [UInt16.lt_iff_toNat_lt]
    have := W.spaced.answer
    omega
  simp only [List.mem_append, List.mem_cons, List.not_mem_nil, or_false]
  rintro i ((hi | rfl) | hi)
  · split at hi
    · obtain rfl := List.mem_singleton.1 hi
      rfl
    · cases hi
  · simpa [Instr.calm] using above
  · exact Plan.calm_dropReceiver _ _ i hi

/-- The common rethrow. -/
theorem ready_epilogue : W.Ready (W.placeOf W.instrs.length) := by
  have behind : W.stream.drop (W.placeOf W.instrs.length) = W.plan.epilogue := by
    rw [drop_placeOf, List.drop_eq_nil_of_le (Nat.le_of_eq W.length_pieces)]
    rfl
  have here : W.Stands (W.placeOf W.instrs.length) W.plan.epilogue := by
    unfold Stands
    exact behind.symm ▸ List.prefix_refl _
  have none (empty : W.plan.epilogue = []) : W.Ready (W.placeOf W.instrs.length) := by
    refine .ended ?_
    rw [← Nat.add_zero (W.placeOf _), ← List.getElem?_drop, behind, empty]
    rfl
  unfold Plan.epilogue at here none
  split at here
  · next catching =>
    rw [if_pos catching] at none
    split at here
    · exact .calm here.head rfl (.throw here.tail.head)
    · next e => exact none (by simp [e])
  · next catching => exact none (by rw [if_neg catching])

/-- The pieces of all instructions start at places that are ready. -/
theorem ready_placeOf {i : Nat} (hi : i ≤ W.instrs.length) : W.Ready (W.placeOf i) := by
  rcases Nat.lt_or_eq_of_le hi with hi | rfl
  · have here : W.Stands (W.placeOf i) (W.piece i ++ []) := by
      rw [List.append_nil]
      exact stands_piece hi
    obtain ⟨ins, hins⟩ : ∃ ins, W.instrs[i]? = some ins := ⟨_, List.getElem?_eq_getElem hi⟩
    cases site : W.config.site? W.className ins with
    | none => exact .place hins site
    | some found =>
      obtain ⟨kind, sort, m⟩ := found
      cases suspends : sort.suspends with
      | true =>
        obtain ⟨s, hp⟩ := piece_site hins site suspends
        rw [hp, Plan.SiteCode.code, List.append_assoc] at here
        exact ready_leaving s here
      | false =>
        obtain rfl : sort = .answer := by
          cases sort <;> first | rfl | cases suspends
        exact ready_answer (piece_answer hins site) here
  · exact ready_epilogue

/-- The place behind what an instruction recorded.  Behind the copy there is nothing, or code that fetches slots
back. -/
theorem ready_behind (roomy : W.Roomy) {i : Nat} {ins : Instr} (hi : W.instrs[i]? = some ins)
    (notLabel : ins.defined? = none) (notReturn : ins.isReturn = false)
    (noSite : W.config.site? W.className ins = none) :
    W.Stands (W.placeOf i) (ins :: W.plan.record ins) ∧
      (∀ q, W.placeOf i < q → q < W.placeOf i + 1 + (W.plan.record ins).length → W.Hidden q) ∧
      W.Ready (W.placeOf i + 1 + (W.plan.record ins).length) := by
  obtain ⟨fetched, hfetched, hp⟩ := piece_other hi notLabel notReturn noSite
  have inside : i < W.instrs.length := (List.getElem?_eq_some_iff.1 hi).1
  have here := stands_piece inside
  have behind := ready_placeOf inside
  have stop := placeOf_succ inside
  rw [hp, List.length_append, List.length_cons, Nat.add_comm (W.plan.record ins).length,
    ← Nat.add_assoc, ← Nat.add_assoc] at stop
  rw [stop] at behind
  rw [hp] at here
  refine ⟨here.left, fun q low high => hidden_of_between (i := i) low (by omega), ?_⟩
  have rest := here.right
  rw [List.length_cons, Nat.add_comm (W.plan.record ins).length, ← Nat.add_assoc] at rest
  unfold Plan.retype at hfetched
  split at hfetched
  · split at hfetched
    · next x found =>
      rw [W.made.shape_eq] at found
      exact .ofRestore hfetched rest
        (fun q low high => hidden_of_between (i := i) (by omega) (by omega)) (roomy.label _ x found)
        behind
    · cases hfetched
      exact behind
  · cases hfetched
    exact behind

/-- The place behind a label. -/
theorem ready_check {i : Nat} {l : Label} (hi : W.instrs[i]? = some (.label l)) :
    W.Ready (W.placeOf i + 1) := by
  have inside : i < W.instrs.length := (List.getElem?_eq_some_iff.1 hi).1
  have here := stands_piece inside
  have behind := ready_placeOf inside
  rw [placeOf_succ inside] at behind
  cases handler : W.plan.isHandler l with
  | false =>
    rw [piece_label hi handler] at behind
    exact behind
  | true =>
    obtain ⟨r, hr, hp⟩ := piece_handler hi handler
    rw [hp] at here behind
    have rethrow : W.stream[W.placeOf W.instrs.length]? = some (.label r) :=
      getElem?_epilogue (k := 0) (by rw [epilogue_eq hi handler hr]; rfl)
    exact .calm here.tail.head rfl (.calm here.tail.tail.head rfl
      (.check here.tail.tail.tail.head rethrow ready_epilogue behind))

/-- The code that fetches the flow of a site back.  The label is cleared, slots are fetched back, and then the
stack and the answer. -/
theorem ready_returning (roomy : W.Roomy) {i : Nat} {kind : InvokeKind} {sort : SiteKind}
    (inside : i < W.instrs.length) (s : W.plan.SiteCode (W.siteAt i) kind sort)
    (hp : W.piece i = s.code) : W.stream[W.placeOf i + s.leaving.length]? = some (.label s.resumption) ∧
      W.Ready (W.placeOf i + s.leaving.length) := by
  have here := stands_piece inside
  have behind := ready_placeOf inside
  rw [placeOf_succ inside, hp] at behind
  rw [hp] at here
  have label := here.right
  have back := label.tail
  rw [Plan.SiteCode.returning, List.append_assoc, List.append_assoc] at back
  have stack := back.right.right
  have length : W.placeOf i + s.code.length = W.placeOf i + s.leaving.length + 1 +
      [W.plan.loadContext, callService Service.clearLabel].length + s.locals.length +
        (s.stack ++ W.plan.fetching s.answer).length := by
    simp only [Plan.SiteCode.code, Plan.SiteCode.returning, List.length_append, List.length_cons,
      List.length_nil]
    omega
  have stop := placeOf_succ inside
  rw [hp, length] at stop
  refine ⟨label.head, .calm label.head rfl (.ofCalm back.left ?_ (.ofRestore s.locals_eq back.right.left
    (fun q low high => hidden_of_between (i := i) (by omega) (by omega)) ?_ (.ofCalm stack ?_ ?_)))⟩
  · simp only [List.mem_cons, List.not_mem_nil, or_false, forall_eq_or_imp, forall_eq]
    exact ⟨rfl, ContextService.calm_call (s := .clearLabel) (by decide) _⟩
  · unfold Plan.snapshot
    rw [W.made.shape_eq]
    cases known : W.shape.site? (W.siteAt i) with
    | none => simp
    | some S => exact roomy.site _ S known
  · intro j hj
    rcases List.mem_append.1 hj with hj | hj
    · exact Plan.calm_restoreStack s.stack_eq _ j hj
    · exact Plan.calm_fetching _ _ j hj
  · rwa [length] at behind

/-- The places at which sites are resumed. -/
theorem ready_resumption (roomy : W.Roomy) {k : Nat} {l : Label}
    (h : W.plan.resumptions[k]? = some l) : ∃ q, W.stream[q]? = some (.label l) ∧ W.Ready q := by
  obtain ⟨i, s, rfl⟩ := exists_of_resumption h
  exact ⟨_, ready_returning roomy s.lt s.code s.piece⟩

end Weaving

end Suspension
