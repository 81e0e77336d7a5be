import Suspension.Proofs.Weave.Blocks
import Suspension.Proofs.Weave.Labels

/-!
# What inserted code addresses and where it goes

The code that is put into a method moves values between the stack and slots of three sorts: those that are
reserved for it, those that it copies, and, where a flow is fetched back, those that were recorded.  It goes to
the labels of the dispatch, and from a handler to the common rethrow.  Each part of it is looked through once
for both; an instruction of the method that is no site stands between two such parts.

## Main definitions
* `ReservedSlots.Holds`: a reserved slot, with what is moved to it.
* `Plan.Puts`: an instruction that is put in, by the slots that it may copy and those that it may fetch back.
* `Weaving.Becomes`, `Weaving.Composed`: what an instruction of the method becomes, and how all is put together.

## Main results
* `Plan.puts_prologue`, `Plan.SiteCode.puts_leaving`, `Plan.SiteCode.puts_returning`, `Plan.puts_answer`: the parts.
* `Weaving.becomes_piece`, `Weaving.composed`, `Weaving.Composed.mem_cases`: every instruction, and the whole.
-/

namespace Suspension

/-- A slot is reserved for values of a storage; the last one holds values of all of them. -/
inductive ReservedSlots.Holds (r : ReservedSlots) : Storage → Slot → Prop
  | context : r.Holds .reference r.context
  | callTarget : r.Holds .reference r.callTarget
  | answer : r.Holds .reference r.answer
  | temp (k : Storage) : r.Holds k r.temp

namespace Plan

/-- Some label of the method starts a handler. -/
def Handles (p : Plan) : Prop := ∃ l, p.isHandler l = true ∧ .label l ∈ p.method.code.instrs

/-- An instruction that is put into a method and is no label: it moves a value to a reserved slot or from there,
copies a slot or fetches one back, goes to labels that were added, or does none of this. -/
inductive Puts (p : Plan) (copied fetched : Storage → Slot → Prop) : Instr → Prop
  | load {k : Storage} {s : Slot} (own : p.slots.Holds k s) : p.Puts copied fetched (.load k s)
  | store {k : Storage} {s : Slot} (own : p.slots.Holds k s) : p.Puts copied fetched (.store k s)
  | copy {k : Storage} {s : Slot} (h : copied k s) : p.Puts copied fetched (.load k s)
  | fetch {k : Storage} {s : Slot} (h : fetched k s) : p.Puts copied fetched (.store k s)
  | dispatch (h : p.resumptions ≠ []) :
    p.Puts copied fetched (.tableSwitch 0 (Int32.ofNat p.resumptions.length - 1) p.start p.resumptions)
  | letThrough {l : Label} (h : p.rethrow = .ok l) (handles : p.Handles) :
    p.Puts copied fetched (.jump (.ifZero .ne) l)
  | plain {i : Instr} (slots : i.slotAccess? = none) (targets : i.targets = []) (mark : i.defined? = none) :
    p.Puts copied fetched i

/-- Nothing is copied, or nothing is fetched back. -/
def nothing : Storage → Slot → Prop := fun _ _ => False

/-- What an instruction stored is copied. -/
def copies (i : Instr) : Storage → Slot → Prop := fun k s => i = .store k s

/-- What is recorded in a frame is fetched back, but for the receiver. -/
def recorded (p : Plan) (locals : Locals) : Storage → Slot → Prop :=
  fun k s => (p.method.isStatic = true ∨ s ≠ 0) ∧ ∃ t, locals[s]? = some t ∧ t.kind.storage? = some k

/-- The receiver and the parameters are copied where the method is entered. -/
def entered (p : Plan) : Storage → Slot → Prop :=
  fun k slot => ∃ s, p.method.signature = .ok s ∧ slot.toNat + k.width.words ≤ p.method.receiverSlots + s.slots

variable {p : Plan} {copied fetched : Storage → Slot → Prop}

theorem Puts.mono {copied' fetched' : Storage → Slot → Prop} {i : Instr} (h : p.Puts copied fetched i)
    (copies : ∀ k s, copied k s → copied' k s) (fetches : ∀ k s, fetched k s → fetched' k s) :
    p.Puts copied' fetched' i := by
  cases h with
  | load own => exact .load own
  | store own => exact .store own
  | copy h => exact .copy (copies _ _ h)
  | fetch h => exact .fetch (fetches _ _ h)
  | dispatch h => exact .dispatch h
  | letThrough h handles => exact .letThrough h handles
  | plain slots targets mark => exact .plain slots targets mark

/-! ## Single instructions -/

theorem puts_pushInt (n : Int32) : p.Puts copied fetched (pushInt n) := by
  have stock := Instr.Stock.int n
  refine .plain ?_ stock.targets (defined?_pushInt n)
  unfold pushInt
  repeat' split
  all_goals rfl

theorem puts_callService (m : MemberRef) : p.Puts copied fetched (callService m) := .plain rfl rfl rfl

theorem puts_loadContext : p.Puts copied fetched p.loadContext := .load .context

theorem puts_castTo (t : Tag) : ∀ i ∈ castTo t, p.Puts copied fetched i := by
  intro i hi
  have cast : i ∈ t.castTarget.toList.map (.typed .checkCast ·) := by simpa [castTo] using hi
  obtain ⟨c, -, rfl⟩ := List.mem_map.1 cast
  exact .plain rfl rfl rfl

/-! ## Copies of slots -/

theorem puts_localVars : ∀ i ∈ p.localVars, p.Puts copied fetched i := by
  simp only [localVars, List.mem_cons, List.not_mem_nil, or_false, forall_eq_or_imp, forall_eq]
  exact ⟨puts_loadContext, puts_callService _⟩

theorem puts_localStack : ∀ i ∈ p.localStack, p.Puts copied fetched i := by
  simp only [localStack, List.mem_cons, List.not_mem_nil, or_false, forall_eq_or_imp, forall_eq]
  exact ⟨puts_loadContext, puts_callService _⟩

theorem puts_recordSlot {k : Storage} {s : Slot} (h : copied k s) :
    ∀ i ∈ p.recordSlot k s, p.Puts copied fetched i := by
  simp only [recordSlot, List.mem_append, List.mem_cons, List.not_mem_nil, or_false]
  rintro i (hi | rfl | rfl | rfl)
  · exact puts_localVars i hi
  · exact puts_pushInt _
  · exact .copy h
  · exact puts_callService _

theorem puts_record (i : Instr) : ∀ j ∈ p.record i, p.Puts (copies i) fetched j := by
  unfold record
  split
  · simp only [List.mem_append, List.mem_cons, List.not_mem_nil, or_false]
    rintro j (hj | rfl | rfl | rfl)
    · exact puts_localVars j hj
    · exact puts_pushInt _
    · exact puts_pushInt _
    · exact puts_callService _
  · exact puts_recordSlot rfl
  · simp

/-- The parameters that are copied lie one after the other. -/
theorem puts_recordParams {slot bound : Nat} {tags : List Tag} (room : slot + total Tag.words tags ≤ bound)
    (small : bound < 65536) :
    ∀ i ∈ p.recordParams slot tags, p.Puts (fun k s => s.toNat + k.width.words ≤ bound) fetched i := by
  induction tags generalizing slot with
  | nil => simp [recordParams]
  | cons t ts ih =>
    rw [total_cons] at room
    intro i hi
    rw [recordParams, List.mem_append] at hi
    rcases hi with hi | hi
    · split at hi
      · next k hk =>
        have words : k.width.words = t.words := by
          cases t <;> cases hk <;> rfl
        refine puts_recordSlot ?_ i hi
        rw [words]
        have pos : 0 < t.words := by
          cases t <;> exact Nat.succ_pos _
        rw [UInt16.toNat_ofNat_of_lt' (by simp [UInt16.size]; omega)]
        omega
      · cases hi
    · exact ih (by omega) i hi

/-! ## Saving and fetching back -/

theorem puts_saveStack {site : Nat} {stack : List Tag} {code : List Instr}
    (h : p.saveStack site stack = .ok code) : ∀ i ∈ code, p.Puts copied fetched i := by
  obtain ⟨codes, hcodes, h⟩ := bind_eq_ok.1 h
  cases h
  refine each_mapM hcodes fun t code h => ?_
  obtain ⟨k, -, h⟩ := bind_eq_ok.1 h
  cases h
  simp only [List.mem_append, List.mem_cons, List.not_mem_nil, or_false]
  rintro i ((rfl | hi) | rfl | rfl)
  · exact .store (.temp k)
  · exact puts_localStack i hi
  · exact .load (.temp k)
  · exact puts_callService _

theorem puts_restoreStack {site : Nat} {stack : List Tag} {code : List Instr}
    (h : p.restoreStack site stack = .ok code) : ∀ i ∈ code, p.Puts copied fetched i := by
  obtain ⟨codes, hcodes, h⟩ := bind_eq_ok.1 h
  cases h
  refine each_mapM hcodes fun t code h => ?_
  obtain ⟨k, -, h⟩ := bind_eq_ok.1 h
  cases h
  simp only [List.mem_append, List.mem_cons, List.not_mem_nil, or_false]
  rintro i ((hi | rfl) | hi)
  · exact puts_localStack i hi
  · exact puts_callService _
  · exact puts_castTo t i hi

theorem recorded_of_mem_restoredSlots {locals : Locals} {e : Slot × Tag} (he : e ∈ p.restoredSlots locals)
    {k : Storage} (hk : e.2.kind.storage? = some k) : p.recorded locals k e.1 := by
  have listed : e ∈ locals.toList.filter fun e => p.method.isStatic || e.1 ≠ 0 := by
    rw [restoredSlots, List.mem_append] at he
    exact he.elim (fun h => (List.mem_filter.1 h).1) fun h => (List.mem_filter.1 h).1
  obtain ⟨there, visited⟩ := List.mem_filter.1 listed
  exact ⟨by simpa using visited, e.2, Std.ExtTreeMap.mem_toList_iff_getElem?_eq_some.1 there, hk⟩

/-- Only what was recorded is fetched back. -/
theorem puts_restoreLocals {site : Nat} {locals : Locals} {code : List Instr}
    (h : p.restoreLocals site locals = .ok code) : ∀ i ∈ code, p.Puts copied (p.recorded locals) i := by
  obtain ⟨codes, hcodes, h⟩ := bind_eq_ok.1 h
  cases h
  intro i hi
  obtain ⟨part, hpart, hi⟩ := List.mem_flatten.1 hi
  obtain ⟨j, hj, rfl⟩ := List.mem_iff_getElem.1 hpart
  obtain ⟨length, each⟩ := mapM_eq_ok.1 hcodes
  have inside : j < (p.restoredSlots locals).length := length ▸ hj
  obtain ⟨k, hk, made⟩ := bind_eq_ok.1 (each j inside hj)
  rw [← Except.ok.inj made] at hi
  simp only [List.mem_append, List.mem_cons, List.not_mem_nil, or_false] at hi
  rcases hi with ((hi | rfl | rfl) | hi) | rfl
  · exact puts_localVars i hi
  · exact puts_pushInt _
  · exact puts_callService _
  · exact puts_castTo _ i hi
  · exact .fetch (recorded_of_mem_restoredSlots (List.getElem_mem inside) (storageFor_eq_ok.1 hk))

/-- What is known at the handler of which an instruction is the first store. -/
def retyped (p : Plan) (place : Nat) : Locals :=
  ((p.shape.retypeAt[place]?.bind (p.shape.labels[·]?)).map (·.types.locals)).getD ∅

theorem puts_retype {place site : Nat} {code : List Instr} (h : p.retype place site = .ok code) :
    ∀ i ∈ code, p.Puts copied (p.recorded (p.retyped place)) i := by
  unfold retype at h
  split at h
  · next handler at_handler =>
    split at h
    · next snapshot known =>
      have same : p.retyped place = snapshot.types.locals := by
        simp [retyped, at_handler, known]
      rw [same]
      exact puts_restoreLocals h
    · cases h
      simp
  · cases h
    simp

theorem puts_fetching (answer : Option Tag) : ∀ i ∈ p.fetching answer, p.Puts copied fetched i := by
  unfold fetching
  split
  · simp only [List.mem_append, List.mem_cons, List.not_mem_nil, or_false]
    rintro i ((rfl | rfl) | hi)
    · exact puts_loadContext
    · exact puts_callService _
    · exact puts_castTo _ i hi
  · simp

theorem puts_deregister : ∀ i ∈ p.deregister, p.Puts copied fetched i := by
  simp only [deregister, List.mem_cons, List.not_mem_nil, or_false]
  rintro i (rfl | rfl | rfl | rfl)
  · exact puts_loadContext
  · exact puts_callService _
  · exact puts_loadContext
  · exact puts_callService _

/-! ## Sites -/

theorem puts_dropReceiver (kind : InvokeKind) : ∀ i ∈ dropReceiver kind, p.Puts copied fetched i := by
  intro i hi
  unfold dropReceiver at hi
  split at hi
  · obtain rfl := List.mem_singleton.1 hi
    exact .plain rfl rfl rfl
  · cases hi

/-- A signal carries a value of a reserved slot, if it carries one. -/
theorem puts_throwSignal (kind : SiteKind) {payload : Option Slot}
    (own : ∀ s, payload = some s → p.slots.Holds .reference s) :
    ∀ i ∈ p.throwSignal kind payload, p.Puts copied fetched i := by
  simp only [throwSignal, List.mem_append, List.mem_cons, List.not_mem_nil, or_false]
  rintro i (((rfl | rfl | rfl) | hi) | rfl | rfl)
  · exact .plain rfl rfl rfl
  · exact .plain rfl rfl rfl
  · exact puts_loadContext
  · cases payload with
    | none => cases hi
    | some s =>
      obtain rfl := List.mem_singleton.1 hi
      exact .load (own s rfl)
  · exact .plain rfl rfl rfl
  · exact .plain rfl rfl rfl

/-- What leaves at a suspension site moves values to reserved slots only. -/
theorem SiteCode.puts_leaving {site : Nat} {kind : InvokeKind} {sort : SiteKind} (s : p.SiteCode site kind sort) :
    ∀ i ∈ s.leaving, p.Puts copied fetched i := by
  have payload (slot : Slot) (h : p.payload? sort = some slot) : p.slots.Holds .reference slot := by
    unfold payload? at h
    split at h
    · cases h
      exact .callTarget
    · cases h
  simp only [leaving, saving, List.mem_append, List.mem_cons, List.not_mem_nil, or_false]
  rintro i ((((hi | hi) | hi) | rfl | rfl | rfl) | hi)
  · split at hi
    · obtain rfl := List.mem_singleton.1 hi
      exact .store .callTarget
    · cases hi
  · exact puts_dropReceiver kind i hi
  · exact puts_saveStack s.saved_eq i hi
  · exact puts_loadContext
  · exact puts_pushInt _
  · exact puts_callService _
  · exact puts_throwSignal sort payload i hi

/-- What returns to a suspension site fetches back what was recorded there. -/
theorem SiteCode.puts_returning {site : Nat} {kind : InvokeKind} {sort : SiteKind} (s : p.SiteCode site kind sort) :
    ∀ i ∈ s.returning, p.Puts copied (p.recorded (p.snapshot site).locals) i := by
  simp only [returning, List.mem_append, List.mem_cons, List.not_mem_nil, or_false]
  rintro i ((((rfl | rfl) | hi) | hi) | hi)
  · exact puts_loadContext
  · exact puts_callService _
  · exact puts_restoreLocals s.locals_eq i hi
  · exact puts_restoreStack s.stack_eq i hi
  · exact puts_fetching _ i hi

theorem puts_answer {kind : InvokeKind} {m : MemberRef} {code : List Instr} (h : p.answer kind m = .ok code) :
    ∀ i ∈ code, p.Puts copied fetched i := by
  obtain ⟨s, -, h⟩ := bind_eq_ok.1 h
  cases h
  simp only [List.mem_append, List.mem_cons, List.not_mem_nil, or_false]
  rintro i (((hi | rfl) | hi) | hi)
  · split at hi
    · obtain rfl := List.mem_singleton.1 hi
      exact .plain rfl rfl rfl
    · cases hi
  · exact .store .answer
  · exact puts_dropReceiver kind i hi
  · refine puts_throwSignal _ ?_ i hi
    rintro _ ⟨⟩
    exact .answer

/-! ## The front and the end -/

/-- What comes in front of the start copies the receiver, what follows it the parameters. -/
theorem puts_prologue {front : List Instr} (h : p.prologue = .ok front) :
    ∃ opening mirrored, front = opening ++ .label p.start :: mirrored ∧
      ∀ i ∈ opening ++ mirrored, p.Puts p.entered nothing i := by
  obtain ⟨s, hs, small, front_eq⟩ := prologue_eq_ok h
  refine ⟨_, _, front_eq, ?_⟩
  simp only [obtaining, dispatch, List.mem_append, List.mem_cons, List.not_mem_nil, or_false]
  rintro i (((rfl | rfl | rfl) | hi) | hi)
  · unfold loadReceiver
    split
    · exact .plain rfl rfl rfl
    · next instance_ =>
      refine .copy ⟨s, hs, ?_⟩
      rw [Method.receiverSlots, if_neg instance_]
      exact Nat.le_add_right 1 _
  · exact .plain rfl rfl rfl
  · exact .store .context
  · split at hi
    · cases hi
    · next some =>
      simp only [List.mem_cons, List.not_mem_nil, or_false] at hi
      rcases hi with rfl | rfl | rfl
      · exact puts_loadContext
      · exact puts_callService _
      · exact .dispatch (by simpa using some)
  · exact (puts_recordParams (Nat.le_refl _) small i hi).mono (fun k slot inside => ⟨s, hs, inside⟩) fun _ _ => id

/-- The end is empty, or it is the common rethrow for a handler. -/
theorem epilogue_cases :
    p.epilogue = [] ∨ ∃ l, p.rethrow = .ok l ∧ p.Handles ∧ p.epilogue = [.label l, .plain .athrow] := by
  unfold epilogue
  split
  · next handles =>
    split
    · next l drawn =>
      obtain ⟨i, own, handler⟩ := List.any_eq_true.1 handles
      cases defined : i.defined? with
      | none => simp [defined] at handler
      | some h =>
        obtain rfl := defined?_eq_some.1 defined
        exact .inr ⟨l, drawn, ⟨h, by simpa [defined] using handler, own⟩, rfl⟩
    · exact .inl rfl
  · exact .inl rfl

/-- For a handler there is the common rethrow. -/
theorem epilogue_of_handles {l : Label} (drawn : p.rethrow = .ok l) (handles : p.Handles) :
    p.epilogue = [.label l, .plain .athrow] := by
  obtain ⟨h, handler, own⟩ := handles
  have any : (p.method.code.instrs.any fun i => (i.defined?.map p.isHandler).getD false) = true :=
    List.any_eq_true.2 ⟨_, own, by simpa [Instr.defined?] using handler⟩
  rw [epilogue, if_pos any, drawn]

end Plan

/-! ## Pieces -/

namespace Weaving

variable {W : Weaving}

/-- What an instruction of the method becomes.  If it is no site it stays, and the code behind it copies what it
stored and may fetch back what is known at a handler.  A suspension site is replaced by code that leaves, and by
code that fetches back what was recorded at the site, behind the label at which the site is resumed.  Where the
method would answer, the answer is thrown. -/
inductive Becomes (W : Weaving) (i : Nat) (ins : Instr) : List Instr → Prop
  | kept {before after : List Instr} (noSite : W.config.site? W.className ins = none)
      (ahead : ∀ j ∈ before, W.plan.Puts Plan.nothing Plan.nothing j)
      (behind : ∀ j ∈ after, W.plan.Puts (Plan.copies ins) (W.plan.recorded (W.plan.retyped i)) j) :
      Becomes W i ins (before ++ ins :: after)
  | suspended {leaving returning : List Instr} {l : Label} (site : W.config.suspends W.className ins = true)
      (resumption : W.plan.resumptions[W.siteAt i]? = some l)
      (left : ∀ j ∈ leaving, W.plan.Puts Plan.nothing Plan.nothing j)
      (returned : ∀ j ∈ returning,
        W.plan.Puts Plan.nothing (W.plan.recorded (W.plan.snapshot (W.siteAt i)).locals) j) :
      Becomes W i ins (leaving ++ .label l :: returning)
  | answered {code : List Instr} {kind : InvokeKind} {m : MemberRef}
      (site : W.config.site? W.className ins = some (kind, .answer, m))
      (put : ∀ j ∈ code, W.plan.Puts Plan.nothing Plan.nothing j) :
      Becomes W i ins code

/-- An instruction that stays without code in front of it. -/
theorem Becomes.stays {i : Nat} {ins : Instr} {after : List Instr} (noSite : W.config.site? W.className ins = none)
    (behind : ∀ j ∈ after, W.plan.Puts (Plan.copies ins) (W.plan.recorded (W.plan.retyped i)) j) :
    W.Becomes i ins (ins :: after) := by
  have ahead : ∀ j ∈ ([] : List Instr), W.plan.Puts Plan.nothing Plan.nothing j := List.forall_mem_nil _
  exact .kept noSite ahead behind

theorem becomes_piece {i : Nat} {ins : Instr} (hi : W.instrs[i]? = some ins) : W.Becomes i ins (W.piece i) := by
  cases defined : ins.defined? with
  | some l =>
    obtain rfl := defined?_eq_some.1 defined
    cases handler : W.plan.isHandler l with
    | true =>
      obtain ⟨r, hr, hp⟩ := piece_handler hi handler
      have own : .label l ∈ W.plan.method.code.instrs := W.made.method_eq ▸ List.mem_of_getElem? hi
      rw [hp]
      refine .stays rfl ?_
      simp only [List.mem_cons, List.not_mem_nil, or_false]
      rintro j (rfl | rfl | rfl)
      · exact .plain rfl rfl rfl
      · exact .plain rfl rfl rfl
      · exact .letThrough hr ⟨l, handler, own⟩
    | false =>
      rw [piece_label hi handler]
      exact .stays rfl (List.forall_mem_nil _)
  | none =>
    cases ret : ins.isReturn with
    | true =>
      obtain ⟨k, rfl⟩ := Instr.isReturn_iff.1 ret
      rw [piece_return hi]
      exact .kept rfl Plan.puts_deregister (by simp)
    | false =>
      cases site : W.config.site? W.className ins with
      | none =>
        obtain ⟨fetched, hf, hp⟩ := piece_other hi defined ret site
        rw [hp]
        refine .stays site fun j hj => ?_
        rcases List.mem_append.1 hj with hj | hj
        · exact Plan.puts_record ins j hj
        · exact Plan.puts_retype hf j hj
      | some s =>
        obtain ⟨kind, sort, m⟩ := s
        cases suspends : sort.suspends with
        | true =>
          obtain ⟨s, hp⟩ := piece_site hi site suspends
          rw [hp]
          refine .suspended ?_ s.resumption_eq s.puts_leaving s.puts_returning
          rw [Config.suspends, site]
          exact suspends
        | false =>
          obtain rfl : sort = .answer := by simpa [SiteKind.suspends] using suspends
          exact .answered site (Plan.puts_answer (piece_answer hi site))

/-- Suspendable code is the code of the method with insertions, in which sites are replaced. -/
structure Composed (W : Weaving) (opening mirrored : List Instr) : Prop where
  stream : W.result.code.instrs = opening ++ .label W.plan.start :: mirrored ++ W.pieces.flatten ++ W.plan.epilogue
  front : ∀ i ∈ opening ++ mirrored, W.plan.Puts W.plan.entered Plan.nothing i
  pieces : W.pieces.length = W.method.code.instrs.length
  piece : ∀ i ins, W.method.code.instrs[i]? = some ins → W.Becomes i ins (W.piece i)
  epilogue : W.plan.epilogue = [] ∨
    ∃ l, W.plan.rethrow = .ok l ∧ W.plan.Handles ∧ W.plan.epilogue = [.label l, .plain .athrow]

theorem composed (W : Weaving) : ∃ opening mirrored, W.Composed opening mirrored := by
  obtain ⟨opening, mirrored, front, put⟩ := Plan.puts_prologue W.opened
  refine ⟨opening, mirrored, ?_, put, W.length_pieces, fun i ins => becomes_piece, Plan.epilogue_cases⟩
  rw [← front]
  rfl

variable {Q : Storage → Slot → Prop}

/-- In what an instruction became there is the instruction itself, and what is put in, and labels. -/
theorem Becomes.mem_cases {i : Nat} {ins : Instr} {code : List Instr} (h : W.Becomes i ins code)
    (stored : ∀ k s, ins = .store k s → Q k s)
    (site : ∀ k s, W.plan.recorded (W.plan.snapshot (W.siteAt i)).locals k s → Q k s)
    (handler : ∀ k s, W.plan.recorded (W.plan.retyped i) k s → Q k s) {j : Instr} (hj : j ∈ code) :
    j = ins ∨ W.plan.Puts Q Q j ∨ ∃ l, j = .label l := by
  have nothing (k : Storage) (s : Slot) (none : Plan.nothing k s) : Q k s := none.elim
  cases h with
  | kept noSite ahead behind =>
    rcases List.mem_append.1 hj with hj | hj
    · exact .inr (.inl ((ahead j hj).mono nothing nothing))
    · rcases List.mem_cons.1 hj with rfl | hj
      · exact .inl rfl
      · exact .inr (.inl ((behind j hj).mono stored handler))
  | suspended suspends resumption left returned =>
    rcases List.mem_append.1 hj with hj | hj
    · exact .inr (.inl ((left j hj).mono nothing nothing))
    · rcases List.mem_cons.1 hj with rfl | hj
      · exact .inr (.inr ⟨_, rfl⟩)
      · exact .inr (.inl ((returned j hj).mono nothing site))
  | answered answers put => exact .inr (.inl ((put j hj).mono nothing nothing))

/-- Every instruction of suspendable code is one of the method, is put in, or is a label.  The stream is made of
the opening, the start, the copies of the parameters, the pieces, and the rethrow. -/
theorem Composed.mem_cases {opening mirrored : List Instr} (c : W.Composed opening mirrored)
    (entered : ∀ k s, W.plan.entered k s → Q k s) (stored : ∀ k s, .store k s ∈ W.instrs → Q k s)
    (site : ∀ n k s, W.plan.recorded (W.plan.snapshot n).locals k s → Q k s)
    (handler : ∀ n k s, W.plan.recorded (W.plan.retyped n) k s → Q k s)
    {ins : Instr} (h : ins ∈ W.result.code.instrs) :
    ins ∈ W.instrs ∨ W.plan.Puts Q Q ins ∨ ∃ l, ins = .label l := by
  have front (member : ins ∈ opening ++ mirrored) : W.plan.Puts Q Q ins :=
    (c.front ins member).mono entered fun _ _ none => none.elim
  rw [c.stream] at h
  simp only [List.mem_append, List.mem_cons] at h
  rcases h with (((h | rfl | h) | h) | h)
  · exact .inr (.inl (front (List.mem_append_left _ h)))
  · exact .inr (.inr ⟨_, rfl⟩)
  · exact .inr (.inl (front (List.mem_append_right _ h)))
  · obtain ⟨code, member, inside⟩ := List.mem_flatten.1 h
    obtain ⟨i, hi, rfl⟩ := List.mem_iff_getElem.1 member
    have inRange : i < W.instrs.length := c.pieces ▸ hi
    have own := List.getElem?_eq_getElem inRange
    have becomes := c.piece i _ own
    rw [Weaving.piece, List.getElem?_eq_getElem hi, Option.getD_some] at becomes
    have stored' (k : Storage) (s : Slot) (same : W.instrs[i] = .store k s) : Q k s :=
      stored k s (same ▸ List.mem_of_getElem? own)
    rcases becomes.mem_cases stored' (site _) (handler i) inside with rfl | put
    · exact .inl (List.mem_of_getElem? own)
    · exact .inr put
  · rcases c.epilogue with none | ⟨l, -, -, eq⟩
    · rw [none] at h
      cases h
    · rw [eq] at h
      simp only [List.mem_cons, List.not_mem_nil, or_false] at h
      rcases h with rfl | rfl
      · exact .inr (.inr ⟨_, rfl⟩)
      · exact .inr (.inl (.plain rfl rfl rfl))

end Weaving

end Suspension
