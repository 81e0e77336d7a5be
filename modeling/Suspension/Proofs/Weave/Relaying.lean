import Suspension.Proofs.Weave.Fitting

/-!
# What the sections of suspendable code do

Every section of suspendable code takes the frames that fit it through, without running out of operands,
splitting a value or reading a slot that is not set, and hands on frames that fit where it leads.  So
suspendable code is made of sections.

## Main results
* `Weaving.Traced.relays_entry`, `Weaving.Traced.relays_start`: in front of the code of the method.
* `Weaving.Traced.relays_piece`: the code of an instruction that is no suspension site.
* `Weaving.Traced.relays_leaving`, `Weaving.Traced.relays_behind`: a suspension site.
* `Weaving.Traced.sections`: suspendable code is made of sections.
-/

namespace Suspension

/-- What ends a block stores nothing that would have to be copied. -/
theorem Plan.record_of_endsBlock (p : Plan) {i : Instr} (ends : i.endsBlock = true) : p.record i = [] := by
  cases i with
  | slot op s =>
    cases op with
    | store => cases ends
    | _ => rfl
  | iinc => cases ends
  | _ => rfl

/-- An instruction that neither goes on nor jumps leads to handlers only. -/
theorem Instr.Leads.none {i : Instr} {m : Method} {place j : Nat} {kind : EdgeKind} (leads : i.Leads m place kind j)
    (falls : i.fallsThrough = false) (targets : i.targets = []) : kind = .exception := by
  cases leads with
  | on runs => cases falls.symm.trans runs
  | jump mem =>
    rw [targets] at mem
    cases mem
  | caught => rfl

namespace Takes

variable {className : String} {config : Config} {code : List Instr} {f f' : SymFrame}

theorem inner (h : Takes className config code f f') : ∀ x ∈ code, x.defined? = none ∧ x.endsBlock = false :=
  fun x hx => ⟨(h.straight x hx).unlabelled, (h.straight x hx).inner⟩

/-- What was put on the stack is thrown. -/
theorem run_throw {t : Tag} (h : Takes className config code f (f'.withStack (t :: f'.stack))) :
    Step.run (stepsOf className config (code ++ [.plain .athrow])) f = .ok f' :=
  h.run_snoc rfl

/-- A label has no operations. -/
theorem run_label (h : Takes className config code f f') (l : Label) :
    Step.run (stepsOf className config (.label l :: code)) f = .ok f' := h.run

end Takes

namespace Weaving

variable {W : Weaving} {root : SymFrame} {g : Graph} {widened : Widenings} {p : Pass} {f f' h : SymFrame}
  {rest : List Tag} {i place : Nat} {ins : Instr}

/-- Code at a place takes a frame through, and hands on frames that fit. -/
abbrev Relays (W : Weaving) (root : SymFrame) (place : Nat) (code : List Instr) (f : SymFrame) : Prop :=
  W.result.Relays W.className W.config W.Part (W.Fits root) place code f

namespace Traced

/-! ## In front of the code of the method -/

/-- The context is obtained, and the dispatch goes to the start or to a site.  Without a site there is no
dispatch, and the start follows at once. -/
theorem relays_entry (T : W.Traced root g widened p) (fits : W.Fits root .entry f) :
    W.Relays root 0 (W.plan.obtaining ++ W.plan.dispatch) f := by
  have receiver : W.plan.method.isStatic = true ∨ (0 : Slot) ∈ f.locals := by
    rw [W.made.method_eq]
    cases own : W.method.isStatic with
    | true => exact .inl rfl
    | false => exact .inr ((SymFrame.Recalls.alike fits).mem trivial (T.root_receiver own))
  have obtained := Plan.takes_obtaining W.className W.config receiver
  have holds := Plan.holdsContext_obtained (p := W.plan) f
  have recalls : (f.setLocal W.plan.slots.context (.ref Service.contextClass)).Recalls (fun _ => True)
      (W.entered root) := SymFrame.Recalls.setLocal fits _ _
  obtain ⟨sig, parsed, -⟩ := W.front_eq
  have ran : Step.run (stepsOf W.className W.config (W.plan.obtaining ++ W.plan.dispatch)) f =
      .ok (f.setLocal W.plan.slots.context (.ref Service.contextClass)) := by
    rw [stepsOf_append, Step.run_append, obtained.run]
    exact Plan.run_dispatch W.className W.config holds
  by_cases none : W.plan.resumptions = []
  · have empty : W.plan.dispatch = [] := by rw [Plan.dispatch, none]; rfl
    have next := Part.start parsed
    rw [empty, List.append_nil] at next ran ⊢
    refine .on (.inner (by simp [Plan.obtaining]) obtained.inner) (fun x hx => (obtained.inner x hx).2) ran
      fun _ => ⟨.start, .label W.plan.start :: W.plan.recordParams W.plan.method.receiverSlots sig.params, ?_, recalls⟩
    rwa [Nat.zero_add]
  · have some : W.plan.dispatch = [W.plan.loadContext, callService Service.getLabel] ++
        [.tableSwitch 0 (Int32.ofNat W.plan.resumptions.length - 1) W.plan.start W.plan.resumptions] := by
      rw [Plan.dispatch, if_neg (by simpa using none)]
      rfl
    have asked := obtained.append (Plan.takes_service W.className W.config holds .getLabel rfl)
    rw [some, ← List.append_assoc] at ran ⊢
    refine .last (.snoc asked.inner rfl) ran ?_
    rintro kind j (runs | ⟨mem, target⟩ | _) regular -
    · cases runs
    · rcases List.mem_append.1 mem with mem | mem
      · obtain ⟨k, hk⟩ := List.mem_iff_getElem?.1 mem
        obtain ⟨i, s, rfl⟩ := exists_of_resumption hk
        cases target.symm.trans (target?_eq s.label)
        exact ⟨.behind i, _, .behind s, recalls⟩
      · obtain rfl := List.mem_singleton.1 mem
        cases target.symm.trans (target?_eq label_start)
        exact ⟨.start, _, .start parsed, recalls⟩
    · exact absurd rfl regular

/-- Where the code of an instruction ends, the next one follows. -/
theorem exists_next (T : W.Traced root g widened p) (fits : i < W.instrs.length → W.Fits root (.piece i) f)
    (lt : W.placeOf i < W.stream.length) : ∃ a code, W.Part a (W.placeOf i) code ∧ W.Fits root a f := by
  have inside := lt_of_placeOf_lt T.accepted.regions lt
  obtain ⟨code, part⟩ := exists_part inside
  exact ⟨_, code, part, fits inside⟩

/-- The parameters are copied.  The slot of the context is not set in the frame that the method starts from, so
nothing can need it. -/
theorem relays_start (T : W.Traced root g widened p) {sig : Signature} (parsed : W.method.signature = .ok sig)
    (fits : W.Fits root .start f) :
    W.Relays root (W.plan.obtaining ++ W.plan.dispatch).length
      (.label W.plan.start :: W.plan.recordParams W.plan.method.receiverSlots sig.params) f := by
  have fits : f.Recalls (fun _ => True) (W.entered root) := fits
  have there (before : List Tag) (t : Tag) (after : List Tag) (cut : sig.params = before ++ t :: after) :
      UInt16.ofNat (W.plan.method.receiverSlots + total Tag.words before) ∈ f.locals := by
    have param := T.root_param parsed cut
    rw [W.made.method_eq]
    have other : UInt16.ofNat (W.method.receiverSlots + total Tag.words before) ≠ W.plan.slots.context := by
      intro same
      rw [same, T.root_context] at param
      cases param
    exact (T.recalls_root fits).alike.mem other param
  have copied := Plan.takes_recordParams W.className W.config (holds_entered fits) there
  refine .on (.label _ copied.inner) ?_ (copied.run_label _) fun lt => ?_
  · intro x hx
    rcases List.mem_cons.1 hx with rfl | hx
    · rfl
    · exact (copied.inner x hx).2
  · obtain ⟨sig', parsed', front⟩ := W.front_eq
    cases parsed.symm.trans parsed'
    have place : W.placeOf 0 = (W.plan.obtaining ++ W.plan.dispatch).length +
        (Instr.label W.plan.start :: W.plan.recordParams W.plan.method.receiverSlots sig.params).length := by
      rw [placeOf_zero, front, List.length_append]
    rw [← place] at lt ⊢
    refine T.exists_next (fun inside => ⟨inside, holds_entered fits, root, .entry, ?_⟩) lt
    refine (T.recalls_root fits).mono fun s needs => ?_
    rintro rfl
    have mem := T.accepted.mem_of_needs needs .entry
    rw [Std.ExtTreeMap.mem_iff_isSome_getElem?, T.root_context] at mem
    cases mem

/-! ## Instructions of the method -/

/-- An instruction of the method does to a frame that fits what it does to the frame that is recalled.  The
recalled frame is one of a path, so it takes the step; the frame that recalls it does the same. -/
theorem exists_after (T : W.Traced root g widened p) (hi : W.instrs[i]? = some ins) (fits : W.Fits root (.piece i) f) :
    ∃ f', Step.run (ins.steps W.className W.config) f = .ok f' ∧ W.plan.HoldsContext f' ∧
      ∀ kind q, ins.Leads W.method i kind q → kind ≠ .exception → q < W.instrs.length →
        W.Fits root (.piece q) (kind.deliver f') := by
  obtain ⟨-, holds, h, reaches, recalls⟩ := fits
  obtain ⟨f', h', ran, ran', -, behind⟩ := T.accepted.exists_step hi reaches recalls
  have holds' : W.plan.HoldsContext f' := by
    rcases Instr.locals_run ran with same | ⟨k, slot, t, rest, rfl, stack, stored⟩
    · obtain ⟨c, hc, reference⟩ := holds
      exact ⟨c, same ▸ hc, reference⟩
    · obtain ⟨u, more, stack', kind, -⟩ := recalls.alike.stack_cons stack
      have room := T.store_room hi reaches stack'
      have same : (k.tag?.getD t).words = (k.tag?.getD u).words := by
        cases k with
        | reference => exact Tag.words_of_kind kind
        | _ => rfl
      have kept : W.plan.HoldsContext (f.setLocal slot (k.tag?.getD t)) := holds.setLocal_below (same ▸ room)
      obtain ⟨c, hc, reference⟩ := kept
      exact ⟨c, stored ▸ hc, reference⟩
  refine ⟨f', ran, holds', fun kind q leads regular lt => ?_⟩
  exact ⟨lt, holds'.deliver kind, kind.deliver h', .step reaches hi ran' leads regular, behind kind q leads regular⟩

/-- Without handlers nothing is fetched back behind a store.  Every entry of the table comes from a block that
is a handler. -/
theorem retype_eq (T : W.Traced root g widened p) (place site : Nat) : W.plan.retype place site = .ok [] := by
  have none : (p.shape g).retypeAt = ∅ := by
    refine List.foldlRecOn (motive := (· = ∅)) _ _ rfl fun m hm v hv => ?_
    obtain ⟨b, l, v⟩ := v
    obtain ⟨w, -, found⟩ := List.mem_filterMap.1 hv
    obtain ⟨b', hb, found⟩ := Option.bind_eq_some_iff.1 found
    obtain ⟨l', -, found⟩ := Option.bind_eq_some_iff.1 found
    cases found
    have noHandler := Graph.noHandler_of_build T.accepted.built T.accepted.regions T.accepted.nonempty
      (List.mem_of_getElem? hb)
    simpa [noHandler] using hm
  rw [Plan.retype, W.made.shape_eq, T.shape, none]
  simp
  rfl

/-- An instruction that is no site is followed by the copy of what it stored. -/
theorem relays_other (T : W.Traced root g widened p) (hi : W.instrs[i]? = some ins) (notLabel : ins.defined? = none)
    (notReturn : ins.isReturn = false) (notSite : W.config.site? W.className ins = none)
    (fits : W.Fits root (.piece i) f) : W.Relays root (W.placeOf i) (W.piece i) f := by
  have inside := (List.getElem?_eq_some_iff.1 hi).1
  obtain ⟨f', ran, holds, behind⟩ := T.exists_after hi fits
  obtain ⟨fetched, hf, piece⟩ := piece_other hi notLabel notReturn notSite
  cases (T.retype_eq i (W.siteAt i)).symm.trans hf
  have next := placeOf_succ inside
  cases ends : ins.endsBlock with
  | true =>
    rw [W.plan.record_of_endsBlock ends] at piece
    rw [piece] at next ⊢
    show W.Relays root (W.placeOf i) ([] ++ [ins]) f
    refine .last (.one ins) (by simpa [stepsOf] using ran) fun kind j leads regular lt => ?_
    rcases leads_original hi leads regular with ⟨rfl, falls, rfl⟩ | ⟨q, leads', inside', rfl⟩
    · rw [List.length_nil, Nat.add_zero, ← show W.placeOf (i + 1) = W.placeOf i + 1 from next] at lt ⊢
      exact T.exists_next (behind .fallthrough _ (.on falls) regular) lt
    · exact T.exists_next (behind kind q leads' regular) lt
  | false =>
    have copied : Takes W.className W.config (W.plan.record ins) f' f' := by
      refine Plan.takes_record W.className W.config holds ?_
      rintro k slot rfl
      obtain ⟨t, rest, -, stored⟩ := Instr.run_store ran
      rw [stored, Std.ExtTreeMap.mem_iff_isSome_getElem?, Locals.getElem?_store_self]
      rfl
    have inner : ∀ x ∈ ins :: W.plan.record ins, x.defined? = none ∧ x.endsBlock = false := by
      intro x hx
      rcases List.mem_cons.1 hx with rfl | hx
      · exact ⟨notLabel, ends⟩
      · exact copied.inner x hx
    have both : Step.run (stepsOf W.className W.config (ins :: W.plan.record ins)) f = .ok f' := by
      rw [stepsOf_cons, Step.run_append, ran]
      exact copied.run
    rw [List.append_nil] at piece
    rw [piece] at next ⊢
    refine .on (.inner (by simp) inner) (fun x hx => (inner x hx).2) both fun lt => ?_
    rw [← next] at lt ⊢
    exact T.exists_next (behind .fallthrough _ (.on (ins.fallsThrough_of_not_endsBlock ends)) (by simp)) lt

/-- The operands of a site are on the stack of what comes there, and what it is called on has one word. -/
theorem exists_operands (T : W.Traced root g widened p) {kind : InvokeKind} {callee : MemberRef} {sig : Signature}
    (hi : W.instrs[i]? = some (.invoke kind callee))
    (classified : (W.config.classify W.className callee).isSome = true)
    (parsed : Signature.parse callee.descriptor = .ok sig)
    (reaches : W.method.Reaches W.className W.config root i h)
    (alike : f.stack.map Tag.kind = h.stack.map Tag.kind) :
    ∃ args receivers below, f.stack = args ++ (receivers ++ below) ∧ args.length = sig.params.length ∧
      receivers.length = kind.hasReceiver.toNat ∧ (∀ t ∈ receivers, t.words = 1) ∧
        below = f.stack.drop (sig.params.length + kind.hasReceiver.toNat) := by
  obtain ⟨h', ran⟩ := T.accepted.exists_run hi reaches
  obtain ⟨enough, -⟩ := (run_invoke W.className W.config parsed).1 ran
  have length : f.stack.length = h.stack.length := by simpa using congrArg List.length alike
  refine ⟨f.stack.take sig.params.length, (f.stack.drop sig.params.length).take kind.hasReceiver.toNat, _,
    ?_, ?_, ?_, fun t ht => ?_, rfl⟩
  · rw [← List.drop_drop, List.take_append_drop, List.take_append_drop]
  · rw [List.length_take]
    omega
  · rw [List.length_take, List.length_drop]
    omega
  · obtain ⟨n, hn⟩ := List.mem_iff_getElem?.1 ht
    rw [List.getElem?_take] at hn
    split at hn
    · next few =>
      cases has : kind.hasReceiver with
      | false => simp [has] at few
      | true =>
        obtain rfl : n = 0 := by simpa [has] using few
        rw [List.getElem?_drop, Nat.add_zero] at hn
        have kinds := congrArg (·[sig.params.length]?) alike
        simp only [List.getElem?_map, hn, Option.map_some] at kinds
        obtain ⟨u, hu, kind⟩ := Option.map_eq_some_iff.1 kinds.symm
        have narrow := T.tame.receivers i _ callee sig h hi classified parsed reaches has u hu
        rw [← Tag.words_of_kind kind, Tag.words]
        cases width : u.width with
        | one => rfl
        | two => simp [Tag.isWide, width] at narrow
    · cases hn

/-- The code of an answer site ends in a throw. -/
theorem relays_answer (T : W.Traced root g widened p) {kind : InvokeKind} {callee : MemberRef}
    (hi : W.instrs[i]? = some (.invoke kind callee))
    (site : W.config.site? W.className (.invoke kind callee) = some (kind, .answer, callee))
    (fits : W.Fits root (.piece i) f) : W.Relays root (W.placeOf i) (W.piece i) f := by
  obtain ⟨-, holds, h, reaches, recalls⟩ := fits
  have classified := Config.classify_of_site? site
  obtain ⟨sig, parsed, few⟩ := Config.signature_of_answer classified
  obtain ⟨args, receivers, below, stack, value, length, one, -⟩ :=
    T.exists_operands hi (by rw [classified]; rfl) parsed reaches recalls.alike.stack
  obtain ⟨front, f', t, code, answered⟩ := Plan.exists_answering W.className W.config (piece_answer hi site) parsed few
    spaced holds stack value length one
  rw [code]
  exact .last (.snoc answered.inner rfl) answered.run_throw fun kind j leads regular =>
    absurd (leads.none rfl rfl) regular

/-- The code of an instruction that is no suspension site. -/
theorem relays_piece (T : W.Traced root g widened p) (hi : W.instrs[i]? = some ins)
    (stays : W.config.suspends W.className ins = false) (fits : W.Fits root (.piece i) f) :
    W.Relays root (W.placeOf i) (W.piece i) f := by
  have inside := (List.getElem?_eq_some_iff.1 hi).1
  obtain ⟨f', ran, holds', behind⟩ := T.exists_after hi fits
  cases hd : ins.defined? with
  | some l =>
    obtain rfl := defined?_eq_some.1 hd
    have noHandler : W.plan.isHandler l = false := by
      rw [Plan.isHandler, W.made.method_eq, T.accepted.regions]
      rfl
    have piece := piece_label hi noHandler
    rw [piece]
    refine .on (.one _) (by simp) (by simpa [stepsOf] using ran) fun lt => ?_
    rw [← piece, ← placeOf_succ inside] at lt ⊢
    exact T.exists_next (behind .fallthrough _ (.on rfl) (by simp)) lt
  | none =>
    cases hr : ins.isReturn with
    | true =>
      obtain ⟨k, rfl⟩ := Instr.isReturn_iff.1 hr
      rw [piece_return hi]
      have dropped := Plan.takes_deregister W.className W.config fits.2.1
      exact .last (.snoc dropped.inner rfl) (dropped.run_snoc ran) fun kind j leads regular =>
        absurd (leads.none rfl rfl) regular
    | false =>
      cases site : W.config.site? W.className ins with
      | none => exact T.relays_other hi hd hr site fits
      | some s =>
        obtain ⟨kind, sort, m⟩ := s
        obtain rfl := invocation_of_site? site
        have answers : sort = .answer := by simpa [Config.suspends, site, SiteKind.suspends] using stays
        subst answers
        exact T.relays_answer hi site fits

/-! ## Suspension sites -/

/-- What was recorded at a site recalls a frame that comes there, without the operands of the call. -/
theorem exists_snapshot (T : W.Traced root g widened p) (s : W.Suspends i) :
    ∃ sig h, Signature.parse s.callee.descriptor = .ok sig ∧ W.method.Reaches W.className W.config root i h ∧
      sig.params.length + s.kind.hasReceiver.toNat ≤ h.stack.length ∧
        (W.plan.snapshot (W.siteAt i)).Recalls (fun _ => True)
          { h with stack := h.stack.drop (sig.params.length + s.kind.hasReceiver.toNat) } := by
  have counted : W.siteAt i < W.shape.sites.length := by
    rw [W.made.sites, ← length_resumptions]
    exact (List.getElem?_eq_some_iff.1 s.code.resumption_eq).1
  obtain ⟨snapshot, known⟩ : ∃ snapshot, W.shape.site? (W.siteAt i) = some snapshot := by
    have there := List.getElem?_eq_getElem counted
    cases found : W.shape.sites[W.siteAt i] with
    | none => exact absurd (found ▸ List.getElem_mem counted) T.snapshots
    | some snapshot => exact ⟨snapshot, by rw [Shape.site?, there, found, Option.join_some]⟩
  have own : W.plan.snapshot (W.siteAt i) = snapshot := by
    rw [Plan.snapshot, W.made.shape_eq, known]
    rfl
  rw [own]
  rw [T.shape] at known
  exact T.accepted.exists_recalled s.here s.suspends_eq known

/-- The flow is saved, and a signal thrown.  The snapshot is as high as the stack of any frame that comes there,
without the operands. -/
theorem relays_leaving (T : W.Traced root g widened p) (s : W.Suspends i) (fits : W.Fits root (.piece i) f) :
    W.Relays root (W.placeOf i) s.code.leaving f := by
  obtain ⟨lt, holds, h, reaches, recalls⟩ := fits
  obtain ⟨sig, h₀, parsed, reaches₀, -, recorded⟩ := T.exists_snapshot s
  obtain ⟨sig', parsed', target, -, -⟩ := s.signature
  cases parsed.symm.trans parsed'
  obtain ⟨args, receivers, below, stack, value, length, one, drop⟩ :=
    T.exists_operands s.here (by rw [s.classified]; rfl) parsed reaches recalls.alike.stack
  have high : (W.plan.snapshot (W.siteAt i)).stack.length = below.length := by
    have recorded := congrArg List.length recorded.alike.stack
    have known := congrArg List.length (recalls.alike.stack.trans (T.accepted.alike lt reaches reaches₀).stack)
    simp only [List.length_map, List.length_drop] at recorded known
    rw [drop, List.length_drop, recorded, known]
  obtain ⟨front, f', t, leaving, taken⟩ := s.code.exists_leaving W.className W.config s.suspends spaced holds stack
    (value.trans target) length one (Nat.le_of_eq high)
  rw [leaving]
  exact .last (.snoc taken.inner rfl) taken.run_throw fun kind j leads regular =>
    absurd (leads.none rfl rfl) regular

/-- What stands in a slot behind a site recalls what stood there in front of it. -/
theorem slot_returned (T : W.Traced root g widened p) (s : W.Suspends i) (fits : W.Fits root (.behind i) f)
    (reaches : W.method.Reaches W.className W.config root i h)
    (recorded : (W.plan.snapshot (W.siteAt i)).Recalls (fun _ => True) { h with stack := rest }) (slot : Slot) :
    Recalled (s.code.returned f).locals[slot]? h.locals[slot]? ∧ (slot ∈ h.locals →
      (s.code.returned f).locals[slot]?.map Tag.kind = h.locals[slot]?.map Tag.kind) := by
  have fits : f.Recalls (fun _ => True) (W.entered root) := fits
  have same := recorded.alike.slots slot trivial
  cases found : (W.plan.snapshot (W.siteAt i)).locals[slot]? with
  | none =>
    rw [found] at same
    have unset : h.locals[slot]? = none := Option.map_eq_none_iff.1 same.symm
    refine ⟨?_, fun there => ?_⟩
    · rw [unset]
      rintro t u - ⟨⟩
    · rw [Std.ExtTreeMap.mem_iff_isSome_getElem?, unset] at there
      cases there
  | some t =>
    by_cases restored : W.plan.method.isStatic = true ∨ slot ≠ 0
    · have mem := Plan.mem_restoredSlots.2 ⟨found, restored⟩
      have apart := (reaches.apart T.rooted).kinds fun s => recorded.alike.slots s trivial
      have here : (s.code.returned f).locals[slot]? = some t.fetched :=
        Locals.getElem?_refill apart (W.plan.nodup_restoredSlots _) (fun e he => (Plan.mem_restoredSlots.1 he).1) _ mem
      have recalls := recorded.related.slots slot
      rw [found] at same recalls
      rw [here]
      exact ⟨recalls.fetched, fun _ => same ▸ congrArg some (s.code.kind_slot mem)⟩
    · rw [not_or, not_not] at restored
      obtain ⟨notStatic, rfl⟩ := restored
      have own : W.method.isStatic = false := by simpa [W.made.method_eq] using notStatic
      have base : (0 : Slot) ≠ W.plan.slots.context := by
        intro same
        have := T.root_context
        rw [← same, T.root_receiver own] at this
        cases this
      have receiver : (W.entered root).locals[(0 : Slot)]? = h.locals[(0 : Slot)]? := by
        rw [T.getElem?_entered base, T.root_receiver own, T.receiver_kept own reaches]
      have kept : (s.code.returned f).locals[(0 : Slot)]? = f.locals[(0 : Slot)]? := by
        refine Locals.getElem?_refill_free fun e he => ?_
        have other := (Plan.mem_restoredSlots.1 he).2.resolve_left notStatic
        refine ⟨other, fun _ => Nat.succ_ne_zero _, fun u hu wide => ?_⟩
        have kinds := fits.alike.slots 0 trivial
        rw [hu, receiver, T.receiver_kept own reaches, Option.map_some, Option.map_some, Option.some.injEq] at kinds
        rw [Tag.isWide_of_kind kinds] at wide
        cases wide
      rw [kept, ← receiver]
      exact ⟨fits.related.slots 0, fun _ => fits.alike.slots 0 trivial⟩

/-- The flow is fetched back, and goes on.  What was recorded in front of the site is what comes back behind it;
the method is entered with an empty stack, so that is all that is on it. -/
theorem relays_behind (T : W.Traced root g widened p) (s : W.Suspends i) (fits : W.Fits root (.behind i) f) :
    W.Relays root (W.placeOf i + s.code.leaving.length) (.label s.code.resumption :: s.code.returning) f := by
  have fits' : f.Recalls (fun _ => True) (W.entered root) := fits
  obtain ⟨sig, h, parsed, reaches, enough, recorded⟩ := T.exists_snapshot s
  obtain ⟨sig', parsed', -, answer, references⟩ := s.signature
  cases parsed.symm.trans parsed'
  have below (slot : Slot) (t : Tag) (ht : (W.plan.snapshot (W.siteAt i)).locals[slot]? = some t) :
      slot.toNat + t.words ≤ W.plan.slots.context.toNat := by
    have inside : SymFrame.Inside W.base
        { h with stack := h.stack.drop (sig.params.length + s.kind.hasReceiver.toNat) } :=
      fun slot t ht => T.inside reaches slot t ht
    exact inside.alike recorded.alike slot t ht
  have holds := holds_entered fits'
  have fetched := s.code.takes_returning W.className W.config holds below (answer ▸ references)
  have holds' : W.plan.HoldsContext (s.code.returned f) := holds.refill fun e he =>
    below _ _ (Plan.mem_restoredSlots.1 he).1
  have called : Step.run ((Instr.invoke s.kind s.callee).steps W.className W.config) h = .ok _ :=
    (run_invoke W.className W.config parsed).2 ⟨enough, rfl⟩
  have empty : f.stack = [] := by
    have kinds := fits'.alike.stack
    rw [show (W.entered root).stack = [] from T.root_stack] at kinds
    simpa using kinds
  have stack : List.Forall₂ (Tag.Related Recalled) (s.code.returned f).stack
      (sig.result.toList ++ h.stack.drop (sig.params.length + s.kind.hasReceiver.toNat)) := by
    have all : (s.code.returned f).stack = (sig.result.toList ++ (W.plan.snapshot (W.siteAt i)).stack).map Tag.fetched := by
      rw [Plan.SiteCode.returned, answer, empty, List.append_nil, List.map_append, Option.toList_map]
    rw [all]
    refine recalled_fetched (List.rel_append (List.forall₂_same.2 fun t _ => ⟨rfl, recalled_lasting.refl _⟩)
      recorded.related.stack) fun t ht => ?_
    rcases List.mem_append.1 ht with result | entry
    · exact Tag.kind_fetched (references t (Option.mem_toList.1 result))
    · exact s.code.kind_entry entry
  have inner : ∀ x ∈ Instr.label s.code.resumption :: s.code.returning, x.endsBlock = false := by
    intro x hx
    rcases List.mem_cons.1 hx with rfl | hx
    · rfl
    · exact (fetched.inner x hx).2
  refine .on (.label _ fetched.inner) inner (fetched.run_label _) fun lt => ?_
  have next : W.placeOf (i + 1) = W.placeOf i + s.code.leaving.length +
      (Instr.label s.code.resumption :: s.code.returning).length := by
    rw [placeOf_succ s.lt, s.length_piece, List.length_cons, Nat.add_assoc]
  rw [← next] at lt ⊢
  have on : W.method.Reaches W.className W.config root (i + 1) (EdgeKind.fallthrough.deliver _) :=
    .step reaches s.here called (.on rfl) (by simp)
  refine T.exists_next (fun inside => ⟨inside, holds', _, on, ⟨stack, fun slot => ?_⟩, ?_, fun slot needs => ?_⟩) lt
  · exact (T.slot_returned s fits reaches recorded slot).1
  · exact ((SymFrame.Related.forall₂_iff (recalled_lasting.refl none)).1 stack).1
  · have there := T.accepted.mem_of_needs needs on
    exact (T.slot_returned s fits reaches recorded slot).2 there

/-! ## All of it -/

/-- Suspendable code is made of sections. -/
theorem sections (T : W.Traced root g widened p) :
    W.result.Sections W.className W.config root W.Part (W.Fits root) where
  entry := ⟨.entry, _, .entry, .refl _ root⟩
  unique a b place code code' := Part.unique
  stands a place code := Part.stands
  run a place code f part fits := by
    cases part with
    | entry => exact T.relays_entry fits
    | start parsed => exact T.relays_start parsed fits
    | piece hi stays => exact T.relays_piece hi stays fits
    | leaving s => exact T.relays_leaving s fits
    | behind s => exact T.relays_behind s fits
  widen a w f fits := fits.widen w
  operands a f f' := T.operands
  slots a f f' fits fits' := T.slots fits fits'

end Traced

end Weaving

end Suspension
