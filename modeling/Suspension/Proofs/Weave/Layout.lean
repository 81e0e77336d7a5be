import Suspension.Proofs.Flow.Steps
import Suspension.Proofs.Machine.Straight
import Suspension.Transform

/-!
# The layout of suspendable code

The stream of a suspendable method is its front, then one piece for each instruction of the method, and
then the common rethrow.

## Main definitions
* `Plan.Made`: what is settled by a plan.
* `Plan.pieces`: what each instruction becomes.
* `Weaving`: a method that could be made suspendable, with all that was settled on the way.
* `Weaving.result`, `Weaving.placeOf`, `Weaving.siteAt`: the suspendable form, where the piece of an
  instruction starts, and the number of the next suspension site.

## Main results
* `Weaving.exists_of_transform`: every method that was made suspendable has a weaving.
* `Weaving.instr_piece`: what the piece of an instruction is.
* `Weaving.drop_placeOf`: what stands from the piece of an instruction on.
-/

namespace Suspension

namespace Plan

variable {p : Plan}

/-- What is settled by a plan. -/
structure Made (className : String) (method : Method) (config : Config) (metrics : Metrics)
    (shape : Shape) (p : Plan) : Prop where
  className_eq : p.className = className
  method_eq : p.method = method
  config_eq : p.config = config
  shape_eq : p.shape = shape
  sites : shape.sites.length = metrics.siteCount
  slots : ReservedSlots.above (max method.maxLocals metrics.maxLocals) = .ok p.slots
  start : freshLabel method 0 = .ok p.start
  resumptions : ((List.range metrics.siteCount).mapM fun k => freshLabel method (k + 1)) =
    .ok p.resumptions
  rethrow : p.rethrow = freshLabel method (metrics.siteCount + 1)

theorem made_of_make {className : String} {method : Method} {config : Config} {metrics : Metrics}
    {shape : Shape} (h : make className method config metrics shape = .ok p) :
    Made className method config metrics shape p := by
  unfold make at h
  split at h
  · cases h
  · next count =>
    obtain ⟨slots, hslots, h⟩ := bind_eq_ok.1 h
    obtain ⟨start, hstart, h⟩ := bind_eq_ok.1 h
    obtain ⟨resumptions, hres, h⟩ := bind_eq_ok.1 h
    cases h
    exact ⟨rfl, rfl, rfl, rfl, Decidable.not_not.1 count, hslots, hstart, hres, rfl⟩

/-- What each instruction from `place` on becomes. -/
def pieces (p : Plan) : (place site : Nat) → List Instr → Except WeaveError (List (List Instr))
  | _, _, [] => return []
  | place, site, i :: rest => do
    let (code, isSite) ← p.instr place site i
    return code :: (← pieces p (place + 1) (if isSite then site + 1 else site) rest)

theorem body_eq (place site : Nat) (instrs : List Instr) :
    p.body place site instrs = List.flatten <$> p.pieces place site instrs := by
  induction instrs generalizing place site with
  | nil => rfl
  | cons i rest ih =>
    rw [body, pieces]
    cases p.instr place site i with
    | error e => rfl
    | ok result =>
      obtain ⟨code, isSite⟩ := result
      simp only [bind, Except.bind, ih]
      cases p.pieces (place + 1) (if isSite then site + 1 else site) rest <;> rfl

/-- Only the suspension sites are counted. -/
theorem isSite_of_instr {place site : Nat} {i : Instr} {code : List Instr} {isSite : Bool}
    (h : p.instr place site i = .ok (code, isSite)) :
    isSite = p.config.suspends p.className i := by
  unfold instr at h
  split at h
  · next l =>
    have none : p.config.suspends p.className (.label l) = false := rfl
    split at h
    · obtain ⟨_, _, h⟩ := bind_eq_ok.1 h
      cases h
      exact none.symm
    · cases h
      exact none.symm
  · split at h
    · next ret =>
      cases h
      obtain ⟨k, rfl⟩ := Instr.isReturn_iff.1 ret
      rfl
    · unfold Config.suspends
      split at h
      · next kind m hs =>
        obtain ⟨_, _, h⟩ := bind_eq_ok.1 h
        cases h
        simp [hs, SiteKind.suspends]
      · next kind sort m ne hs =>
        obtain ⟨_, _, h⟩ := bind_eq_ok.1 h
        cases h
        have : sort ≠ .answer := ne
        simp [hs, SiteKind.suspends, this]
      · next hs =>
        obtain ⟨_, _, h⟩ := bind_eq_ok.1 h
        cases h
        simp [hs]

theorem pieces_eq_ok {place site : Nat} {instrs : List Instr} {l : List (List Instr)}
    (h : p.pieces place site instrs = .ok l) :
    l.length = instrs.length ∧
      ∀ i (hi : i < instrs.length) (hl : i < l.length),
        p.instr (place + i) (site + (instrs.take i).countP (p.config.suspends p.className))
          instrs[i] = .ok (l[i], p.config.suspends p.className instrs[i]) := by
  induction instrs generalizing place site l with
  | nil =>
    cases h
    simp
  | cons i rest ih =>
    rw [pieces] at h
    obtain ⟨⟨code, isSite⟩, hcode, h⟩ := bind_eq_ok.1 h
    obtain ⟨more, hmore, h⟩ := bind_eq_ok.1 h
    cases h
    obtain rfl := isSite_of_instr hcode
    obtain ⟨hlen, hget⟩ := ih hmore
    refine ⟨by simp [hlen], fun j hj hl => ?_⟩
    cases j with
    | zero => simpa using hcode
    | succ j =>
      have := hget j (by simpa using hj) (by simpa using hl)
      rw [List.take_succ_cons, List.countP_cons]
      simp only [List.getElem_cons_succ]
      rw [← this]
      congr 1
      · omega
      · split <;> omega

end Plan

namespace Plan

variable {p : Plan}

/-! ## The code of a suspension site -/

/-- The code of a suspension site by which the flow is saved, up to the signal. -/
def saving (p : Plan) (site : Nat) (kind : InvokeKind) (sort : SiteKind) (saved : List Instr) :
    List Instr :=
  (if sort = .call then [.store .reference p.slots.callTarget] else []) ++ dropReceiver kind ++ saved
    ++ [p.loadContext, pushInt (Int32.ofNat site), callService Service.setLabel]

/-- The slot of the value that the signal of a site carries. -/
def payload? (p : Plan) (sort : SiteKind) : Option Slot :=
  if sort = .call then some p.slots.callTarget else none

/-- The code that fetches the answer to a call. -/
def fetching (p : Plan) (answer : Option Tag) : List Instr :=
  match answer with
  | some t => [p.loadContext, callService Service.getCallAnswer] ++ castTo t
  | none => []

/-- What is known at a site. -/
def snapshot (p : Plan) (site : Nat) : SymFrame := (p.shape.site? site).getD {}

/-- The parts of the code of a suspension site. -/
structure SiteCode (p : Plan) (site : Nat) (kind : InvokeKind) (sort : SiteKind) where
  answer : Option Tag
  saved : List Instr
  resumption : Label
  locals : List Instr
  stack : List Instr
  answer_eq : (if sort = .call then p.answerType else .ok none) = .ok answer
  saved_eq : p.saveStack site (p.snapshot site).stack = .ok saved
  resumption_eq : p.resumptions[site]? = some resumption
  locals_eq : p.restoreLocals site (p.snapshot site).locals = .ok locals
  stack_eq : p.restoreStack site (p.snapshot site).stack = .ok stack

namespace SiteCode

variable {site : Nat} {kind : InvokeKind} {sort : SiteKind} (s : p.SiteCode site kind sort)

/-- The code that leaves the method. -/
def leaving : List Instr := p.saving site kind sort s.saved ++ p.throwSignal sort (p.payload? sort)

/-- The code behind the label at which the site is resumed. -/
def returning : List Instr :=
  [p.loadContext, callService Service.clearLabel] ++ s.locals ++ s.stack ++ p.fetching s.answer

/-- The code of the site. -/
def code : List Instr := s.leaving ++ .label s.resumption :: s.returning

end SiteCode

/-- The parts of the code of a suspension site.  Calls and the other sites differ in what they hand over. -/
theorem suspend_eq_ok {site : Nat} {kind : InvokeKind} {sort : SiteKind} {code : List Instr}
    (h : p.suspend site kind sort = .ok code) : ∃ s : p.SiteCode site kind sort, s.code = code := by
  unfold suspend at h
  simp only [← snapshot.eq_def] at h
  split at h
  case isTrue isCall | isFalse isCall =>
    obtain ⟨answer, answer_eq, h⟩ := bind_eq_ok.1 h
    obtain ⟨saved, saved_eq, h⟩ := bind_eq_ok.1 h
    split at h
    · next resumption resumption_eq =>
      obtain ⟨_, hres, h⟩ := bind_eq_ok.1 h
      cases hres
      obtain ⟨locals, locals_eq, h⟩ := bind_eq_ok.1 h
      obtain ⟨stack, stack_eq, h⟩ := bind_eq_ok.1 h
      cases h
      refine ⟨⟨answer, saved, resumption, locals, stack, ?_, saved_eq, resumption_eq, locals_eq,
        stack_eq⟩, ?_⟩
      · simpa [isCall, pure, Except.pure] using answer_eq
      · cases answer <;>
          simp [SiteCode.code, SiteCode.leaving, SiteCode.returning, saving, payload?, fetching, isCall]
    · obtain ⟨_, hres, -⟩ := bind_eq_ok.1 h
      cases hres

/-! ## The front -/

/-- The instruction that pushes what the context is handed out for. -/
def loadReceiver (p : Plan) : Instr :=
  if p.method.isStatic then .plain .aconstNull else .load .reference 0

/-- The code that obtains the context. -/
def obtaining (p : Plan) : List Instr :=
  [p.loadReceiver, .invoke .static Service.createOrResetContext,
    .store .reference p.slots.context]

theorem prologue_eq_ok {front : List Instr} (h : p.prologue = .ok front) :
    ∃ s, p.method.signature = .ok s ∧ p.method.receiverSlots + s.slots < 65536 ∧
      front = p.obtaining ++ p.dispatch ++ .label p.start ::
        p.recordParams p.method.receiverSlots s.params := by
  obtain ⟨s, hs, h⟩ := bind_eq_ok.1 h
  rw [mapError_eq_ok] at hs
  by_cases many : 65536 ≤ p.method.receiverSlots + s.slots
  · rw [if_pos many] at h
    cases h
  · rw [if_neg many] at h
    cases h
    exact ⟨s, hs, by omega, by simp [obtaining, loadReceiver]⟩

end Plan

/-- A site is a call that is classified as one. -/
theorem Config.of_site? {className : String} {config : Config} {i : Instr} {kind : InvokeKind} {sort : SiteKind}
    {callee : MemberRef} (h : config.site? className i = some (kind, sort, callee)) :
    i = .invoke kind callee ∧ config.classify className callee = some sort := by
  cases i with
  | invoke kind' m =>
    obtain ⟨sort', classified, same⟩ := Option.map_eq_some_iff.1 h
    cases same
    exact ⟨rfl, classified⟩
  | _ => cases h

/-- A method that could be made suspendable, with all that was settled on the way. -/
structure Weaving where
  className : String
  method : Method
  config : Config
  metrics : Metrics
  shape : Shape
  plan : Plan
  front : List Instr
  pieces : List (List Instr)
  measured : Metrics.measure className method config = .ok metrics
  needed : metrics.needsWeaving = true
  shaped : (Shape.ofMethod className method config metrics).result = .ok shape
  planned : Plan.make className method config metrics shape = .ok plan
  opened : plan.prologue = .ok front
  cut : plan.pieces 0 0 method.code.instrs = .ok pieces

namespace Weaving

variable (W : Weaving)

/-- The instructions of the method as it was. -/
abbrev instrs : List Instr := W.method.code.instrs

/-- The whole stream. -/
def stream : List Instr := W.front ++ W.pieces.flatten ++ W.plan.epilogue

/-- The suspendable form. -/
def result : Method :=
  { W.method with
    maxLocals := W.plan.slots.maxLocals
    code := { W.method.code with instrs := W.stream } }

/-- Where the piece of an instruction starts. -/
def placeOf (i : Nat) : Nat := W.front.length + (W.pieces.take i).flatten.length

/-- The number of the first suspension site from an instruction on. -/
def siteAt (i : Nat) : Nat := (W.instrs.take i).countP (W.config.suspends W.className)

/-- Every method that was made suspendable has a weaving.  The method is measured, analysed, planned and
emitted; each step leaves its part of the weaving. -/
theorem exists_of_transform {className : String} {method result : Method} {config : Config}
    (h : (method.transform className config).result = .ok (some result)) :
    ∃ W : Weaving, W.className = className ∧ W.method = method ∧ W.config = config ∧
      W.result = result := by
  unfold Method.transform at h
  simp only [Reported.result_bind, Reported.result_mapError] at h
  obtain ⟨metrics, hm, h⟩ := bind_eq_ok.1 h
  rw [mapError_eq_ok] at hm
  split at h
  · next needed =>
    simp only [Reported.result_bind, Reported.result_mapError] at h
    obtain ⟨shape, hs, h⟩ := bind_eq_ok.1 h
    obtain ⟨made, hw, h⟩ := bind_eq_ok.1 h
    cases h
    rw [mapError_eq_ok] at hs hw
    unfold Metrics.ofMethod at hm
    simp only [Reported.result_bind, Reported.result_ofExcept] at hm
    obtain ⟨metrics', measured, hm⟩ := bind_eq_ok.1 hm
    obtain ⟨-, -, hm⟩ := bind_eq_ok.1 hm
    cases hm
    unfold Method.weave at hw
    simp only [Reported.result_bind, Reported.result_ofExcept] at hw
    obtain ⟨made', woven, hw⟩ := bind_eq_ok.1 hw
    obtain ⟨-, -, hw⟩ := bind_eq_ok.1 hw
    cases hw
    obtain ⟨p, planned, woven⟩ := bind_eq_ok.1 woven
    obtain ⟨stream, hstream, woven⟩ := bind_eq_ok.1 woven
    cases woven
    obtain ⟨front, opened, hstream⟩ := bind_eq_ok.1 hstream
    obtain ⟨body, hbody, hstream⟩ := bind_eq_ok.1 hstream
    cases hstream
    rw [Plan.body_eq] at hbody
    obtain ⟨pieces, cut, rfl⟩ := map_eq_ok.1 hbody
    rw [(Plan.made_of_make planned).method_eq] at cut
    exact ⟨⟨className, method, config, metrics, shape, p, front, pieces, measured, needed, hs,
      planned, opened, cut⟩, rfl, rfl, rfl, rfl⟩
  · simp only [Reported.result_bind] at h
    obtain ⟨-, -, h⟩ := bind_eq_ok.1 h
    cases h

theorem made : Plan.Made W.className W.method W.config W.metrics W.shape W.plan :=
  Plan.made_of_make W.planned

/-! ## Pieces and places -/

/-- The piece of an instruction. -/
def piece (i : Nat) : List Instr := W.pieces[i]?.getD []

theorem length_pieces : W.pieces.length = W.instrs.length := (Plan.pieces_eq_ok W.cut).1

variable {W}

/-- What the piece of an instruction is. -/
theorem instr_piece {i : Nat} {ins : Instr} (hi : W.instrs[i]? = some ins) :
    W.plan.instr i (W.siteAt i) ins = .ok (W.piece i, W.config.suspends W.className ins) := by
  obtain ⟨hlt, rfl⟩ := List.getElem?_eq_some_iff.1 hi
  have hl : i < W.pieces.length := W.length_pieces ▸ hlt
  have := (Plan.pieces_eq_ok W.cut).2 i hlt hl
  rw [W.made.config_eq, W.made.className_eq, Nat.zero_add, Nat.zero_add] at this
  rw [piece, List.getElem?_eq_getElem hl]
  exact this

theorem placeOf_zero : W.placeOf 0 = W.front.length := by
  simp [placeOf]

theorem placeOf_succ {i : Nat} (hi : i < W.instrs.length) :
    W.placeOf (i + 1) = W.placeOf i + (W.piece i).length := by
  have hl : i < W.pieces.length := W.length_pieces ▸ hi
  rw [placeOf, placeOf, piece, List.getElem?_eq_getElem hl, List.take_succ_eq_append_getElem hl,
    List.flatten_append, List.length_append]
  simp [Nat.add_assoc]

theorem placeOf_mono {i j : Nat} (h : i ≤ j) : W.placeOf i ≤ W.placeOf j := by
  rw [placeOf, placeOf, ← Nat.add_sub_of_le h, List.take_add]
  simp

/-- What stands from the piece of an instruction on. -/
theorem drop_placeOf (i : Nat) :
    W.stream.drop (W.placeOf i) = (W.pieces.drop i).flatten ++ W.plan.epilogue := by
  have : W.stream = (W.front ++ (W.pieces.take i).flatten) ++
      ((W.pieces.drop i).flatten ++ W.plan.epilogue) := by
    have cut := congrArg List.flatten (List.take_append_drop i W.pieces)
    rw [List.flatten_append] at cut
    rw [stream, ← cut]
    simp
  rw [this, List.drop_left' (by simp [placeOf])]

theorem getElem?_placeOf_add {i k : Nat} {ins : Instr} (h : (W.piece i)[k]? = some ins) :
    W.stream[W.placeOf i + k]? = some ins := by
  have hl : i < W.pieces.length := by
    apply Nat.lt_of_not_le
    intro hle
    simp [piece, List.getElem?_eq_none hle] at h
  rw [piece, List.getElem?_eq_getElem hl, Option.getD_some] at h
  rw [← List.getElem?_drop, drop_placeOf, List.drop_eq_getElem_cons hl, List.flatten_cons,
    List.append_assoc, List.getElem?_append_left (List.getElem?_eq_some_iff.1 h).1]
  exact h

/-- A frame at the start of a piece has the piece in front of it. -/
theorem reads_piece {f : Frame} {i : Nat} (hm : f.method = W.result) (hpc : f.pc = W.placeOf i)
    (hi : i < W.instrs.length) : f.Reads (W.piece i) := by
  have hl : i < W.pieces.length := W.length_pieces ▸ hi
  have : f.method.code.instrs.drop f.pc = (W.pieces.drop i).flatten ++ W.plan.epilogue := by
    rw [hm, hpc]
    exact drop_placeOf i
  rw [Frame.Reads, this, List.drop_eq_getElem_cons hl, piece, List.getElem?_eq_getElem hl,
    Option.getD_some, List.flatten_cons, List.append_assoc]
  exact List.prefix_append ..

theorem fetch_eq {f : Frame} (hm : f.method = W.result) {i : Instr} (h : W.stream[f.pc]? = some i) :
    Run.fetch f = .ok i := by
  have : f.method.code.instrs[f.pc]? = some i := by
    rw [hm]
    exact h
  rw [Run.fetch, this]

/-- A frame at the entry has the front before it. -/
theorem reads_front {f : Frame} (hm : f.method = W.result) (hpc : f.pc = 0) : f.Reads W.front := by
  rw [Frame.Reads, hm, hpc]
  exact ⟨W.pieces.flatten ++ W.plan.epilogue, by simp [result, stream]⟩

/-! ## The pieces by sort of instruction -/

/-- The label of a handler is followed by letting signals through. -/
theorem piece_handler {i : Nat} {l : Label} (hi : W.instrs[i]? = some (.label l))
    (handler : W.plan.isHandler l = true) :
    ∃ r, W.plan.rethrow = .ok r ∧
      W.piece i = [.label l, .plain (.shuffle .dup), .typed .instanceOf Service.signalClass,
        .jump (.ifZero .ne) r] := by
  have h := instr_piece hi
  change (if W.plan.isHandler l then _ else _) = _ at h
  rw [if_pos handler] at h
  obtain ⟨check, hcheck, h⟩ := bind_eq_ok.1 h
  obtain ⟨r, hr, hcheck⟩ := bind_eq_ok.1 hcheck
  cases hcheck
  injection h with h
  injection h with h
  exact ⟨r, hr, h.symm⟩

/-- Other labels stay as they are. -/
theorem piece_label {i : Nat} {l : Label} (hi : W.instrs[i]? = some (.label l))
    (handler : W.plan.isHandler l = false) : W.piece i = [.label l] := by
  have h := instr_piece hi
  change (if W.plan.isHandler l then _ else _) = _ at h
  rw [handler, if_neg Bool.false_ne_true] at h
  injection h with h
  injection h with h
  exact h.symm

theorem exists_piece_label {i : Nat} {l : Label} (hi : W.instrs[i]? = some (.label l)) :
    ∃ check, W.piece i = .label l :: check := by
  cases handler : W.plan.isHandler l with
  | true =>
    obtain ⟨r, -, hp⟩ := piece_handler hi handler
    exact ⟨_, hp⟩
  | false => exact ⟨[], piece_label hi handler⟩

/-- A return is preceded by dropping the context. -/
theorem piece_return {i : Nat} {k : Option Storage}
    (hi : W.instrs[i]? = some (.plain (.leave k))) :
    W.piece i = W.plan.deregister ++ [.plain (.leave k)] := by
  have h := instr_piece hi
  change Except.ok _ = _ at h
  injection h with h
  injection h with h
  exact h.symm

/-- A call that is no site, or another instruction, is followed by copying what it stored. -/
theorem piece_other {i : Nat} {ins : Instr} (hi : W.instrs[i]? = some ins)
    (notLabel : ins.defined? = none) (notReturn : ins.isReturn = false)
    (notSite : W.config.site? W.className ins = none) :
    ∃ fetched, W.plan.retype i (W.siteAt i) = .ok fetched ∧
      W.piece i = ins :: W.plan.record ins ++ fetched := by
  have h := instr_piece hi
  unfold Plan.instr at h
  split at h
  · cases notLabel
  · rw [notReturn, if_neg Bool.false_ne_true, W.made.config_eq, W.made.className_eq] at h
    simp only [notSite] at h
    obtain ⟨fetched, hf, h⟩ := bind_eq_ok.1 h
    injection h with h
    injection h with h
    exact ⟨fetched, hf, h.symm⟩

theorem invocation_of_site? {ins : Instr} {kind : InvokeKind} {sort : SiteKind} {m : MemberRef}
    (h : W.config.site? W.className ins = some (kind, sort, m)) : ins = .invoke kind m :=
  (Config.of_site? h).1

/-- A suspension site is replaced by the code that leaves and returns. -/
theorem piece_site {i : Nat} {ins : Instr} {kind : InvokeKind} {sort : SiteKind} {m : MemberRef}
    (hi : W.instrs[i]? = some ins) (site : W.config.site? W.className ins = some (kind, sort, m))
    (suspends : sort.suspends = true) :
    ∃ s : W.plan.SiteCode (W.siteAt i) kind sort, W.piece i = s.code := by
  have h := instr_piece hi
  obtain rfl := invocation_of_site? site
  simp only [Plan.instr, Instr.isReturn, W.made.config_eq, W.made.className_eq, site,
    Bool.false_eq_true, if_false] at h
  split at h
  · next e =>
    cases e
    cases suspends
  · next e =>
    cases e
    obtain ⟨code, hcode, h⟩ := bind_eq_ok.1 h
    injection h with h
    injection h with h
    obtain ⟨s, hs⟩ := Plan.suspend_eq_ok hcode
    exact ⟨s, h ▸ hs.symm⟩
  · next e => cases e

/-- An answer site is replaced by the code that throws the answer. -/
theorem piece_answer {i : Nat} {ins : Instr} {kind : InvokeKind} {m : MemberRef}
    (hi : W.instrs[i]? = some ins)
    (site : W.config.site? W.className ins = some (kind, .answer, m)) :
    W.plan.answer kind m = .ok (W.piece i) := by
  have h := instr_piece hi
  obtain rfl := invocation_of_site? site
  simp only [Plan.instr, Instr.isReturn, W.made.config_eq, W.made.className_eq, site,
    Bool.false_eq_true, if_false] at h
  obtain ⟨code, hcode, h⟩ := bind_eq_ok.1 h
  injection h with h
  injection h with h
  exact h ▸ hcode

/-- The graph of the method. -/
theorem exists_graph (W : Weaving) :
    ∃ g, Graph.build W.className W.method W.config = .ok g := by
  have shaped := W.shaped
  unfold Shape.ofMethod Graph.ofMethod at shaped
  simp only [Reported.result_bind, Reported.result_ofExcept] at shaped
  obtain ⟨g, hg, -⟩ := bind_eq_ok.1 shaped
  obtain ⟨g', hg, -⟩ := bind_eq_ok.1 hg
  exact ⟨g', hg⟩

end Weaving

end Suspension
