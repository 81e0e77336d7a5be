import Suspension.Proofs.Symbolic.Retyping
import Suspension.Proofs.Weave.Linked
import Suspension.Proofs.Weave.Miscounts

/-!
# Which methods cannot be made suspendable

A method that was measured and analysed is refused for three reasons: its slots leave no room for the reserved
ones, the configured call cannot be left and resumed, or a return address would have to be saved.  Each part of the
inserted code hinges on one of them, and all other errors are ruled out by what the analyses have checked.

## Main definitions
* `WeaveError.Refusal`: the errors for these reasons.
* `Config.CallsReference`, `Method.Restorable`: what a call and what recorded slots have to satisfy.
* `Method.Weavable`: what a method has to satisfy.
* `Plan.Prepared`: what the analyses have checked of an instruction.

## Main results
* `Plan.hinges_instr`, `Plan.hinges_body`: what the code of an instruction and of a method hinges on.
* `weave_hinges`: a method is made suspendable exactly if it is weavable.
-/

namespace Suspension

/-- An error that says that the slots leave no room, that the configured call cannot be answered, or that a value
cannot be captured. -/
def WeaveError.Refusal : WeaveError → Prop
  | .tooManyLocals _ | .unsupportedCall _ | .primitiveAnswer _ | .uncapturable .. => True
  | _ => False

/-- The configured call takes one reference, and yields a reference or nothing. -/
def Config.CallsReference (config : Config) : Prop :=
  ∃ target result, config.callSignature = .ok ⟨[target], result⟩ ∧ target.kind = .reference ∧
    ∀ t, result = some t → t.kind = .reference

/-- No return address is in a slot that is fetched back; the receiver stays where it is. -/
def Method.Restorable (m : Method) (locals : Locals) : Prop :=
  ∀ (slot : Slot) (t : Tag), locals[slot]? = some t → m.isStatic = true ∨ slot ≠ 0 → t ≠ .address

/-- What a method has to satisfy to be made suspendable, besides being analysed.  The sites and the handlers are
those of its shape; a handler counts if some store in it is followed by fetching back. -/
structure Method.Weavable (m : Method) (className : String) (config : Config) (metrics : Metrics) (shape : Shape) :
    Prop where
  room : max m.maxLocals.toNat metrics.maxLocals.toNat ≤ 65530
  call : (∃ i ∈ m.code.instrs, ∃ kind callee, config.site? className i = some (kind, .call, callee)) →
    config.CallsReference
  stack : ∀ site f, shape.site? site = some f → ∀ t ∈ f.stack, t ≠ .address
  locals : ∀ site f, shape.site? site = some f → m.Restorable f.locals
  handlers : ∀ (place : Nat) (l : Label) (x : LabelSnapshot), shape.retypeAt[place]? = some l →
    shape.labels[l]? = some x → m.Restorable x.types.locals

theorem Tag.storage?_eq_none {t : Tag} : t.kind.storage? = none ↔ t = .address := by
  cases t <;> simp [Tag.kind, Kind.storage?]

/-- The stores at which the slots of a handler are fetched back are stores of the method. -/
theorem Shape.store_of_retypeAt {className : String} {method : Method} {config : Config} {metrics : Metrics}
    {shape : Shape} (shaped : (ofMethod className method config metrics).result = .ok shape) {place : Nat} {l : Label}
    (h : shape.retypeAt[place]? = some l) : ∃ k slot, method.code.instrs[place]? = some (.store k slot) := by
  obtain ⟨g, root, widened, p, -, hg, -, hp, -, rfl⟩ := exists_pass shaped
  obtain ⟨-, -, start, k, slot, -, store⟩ := (Pass.retypeAt_iff hg hp).1 h
  exact ⟨k, slot, store.here⟩

/-! ## What the parts hinge on -/

namespace Plan

variable {p : Plan} {place site : Nat} {i : Instr} {f : SymFrame}

theorem hinges_storageFor (site : Nat) (t : Tag) : Hinges (t ≠ .address) WeaveError.Refusal (storageFor site t) := by
  unfold storageFor
  split
  · next k found =>
    refine .ok (fun address => ?_) k
    rw [Tag.storage?_eq_none.2 address] at found
    cases found
  · next none => exact .error (not_not.2 (Tag.storage?_eq_none.1 none)) trivial

theorem hinges_saveStack (site : Nat) (stack : List Tag) :
    Hinges (∀ t ∈ stack, t ≠ .address) WeaveError.Refusal (p.saveStack site stack) :=
  .andThen (.mapM fun t => (hinges_storageFor site t).andThen fun _ _ => ⟨_, rfl⟩) fun _ _ => ⟨_, rfl⟩

theorem hinges_restoreStack (site : Nat) (stack : List Tag) :
    Hinges (∀ t ∈ stack, t ≠ .address) WeaveError.Refusal (p.restoreStack site stack) := by
  refine Hinges.congr (.andThen (.mapM fun t => (hinges_storageFor site t).andThen fun _ _ => ⟨_, rfl⟩)
    fun _ _ => ⟨_, rfl⟩) ?_
  simp only [List.mem_reverse]

theorem hinges_restoreLocals (site : Nat) (locals : Locals) :
    Hinges (p.method.Restorable locals) WeaveError.Refusal (p.restoreLocals site locals) := by
  refine Hinges.congr (.andThen (.mapM fun e => (hinges_storageFor site e.2).andThen fun _ _ => ⟨_, rfl⟩)
    fun _ _ => ⟨_, rfl⟩) ⟨?_, ?_⟩
  · intro each slot t recorded visited
    exact each (slot, t) (mem_restoredSlots.2 ⟨recorded, visited⟩)
  · rintro restorable ⟨slot, t⟩ mem
    obtain ⟨recorded, visited⟩ := mem_restoredSlots.1 mem
    exact restorable slot t recorded visited

/-- The answer to a call that was analysed is refused for what the call takes and yields, not for its
descriptor.  It takes one parameter, a reference; any other number of them is a reason of its own. -/
theorem hinges_answerType {sig : Signature} (parsed : p.config.callSignature = .ok sig) :
    Hinges p.config.CallsReference WeaveError.Refusal p.answerType := by
  obtain ⟨params, result⟩ := sig
  have only {target result'} (h : p.config.callSignature = .ok ⟨[target], result'⟩) :
      params = [target] ∧ result = result' := by
    rw [parsed] at h
    cases h
    exact ⟨rfl, rfl⟩
  unfold answerType
  rw [parsed]
  rcases params with _ | ⟨t, _ | ⟨u, more⟩⟩
  · exact .error (fun ⟨_, _, h, _⟩ => nomatch (only h).1) trivial
  · refine Hinges.congr (Q := t.kind = .reference ∧ ∀ r, result = some r → r.kind = .reference) ?_ ?_
    · dsimp only [Except.mapError, bind, Except.bind]
      split
      · next other => exact .error (fun h => other h.1) trivial
      · next takes =>
        cases result with
        | none => exact .ok ⟨not_not.1 takes, nofun⟩ none
        | some r =>
          dsimp only
          split
          · next other => exact .error (fun h => other (h.2 r rfl)) trivial
          · next yields =>
            refine .ok ⟨not_not.1 takes, ?_⟩ _
            rintro _ ⟨⟩
            exact not_not.1 yields
    · constructor
      · rintro ⟨takes, yields⟩
        exact ⟨t, result, parsed, takes, yields⟩
      · rintro ⟨target, result', h, takes, yields⟩
        obtain ⟨same, rfl⟩ := only h
        cases same
        exact ⟨takes, yields⟩
  · exact .error (fun ⟨_, _, h, _⟩ => nomatch (only h).1) trivial

/-- The code of a site hinges on what was recorded at the site, and that of a call on the call as well.  A site
that was not reached has an empty snapshot, which can be saved. -/
theorem hinges_suspend {site : Nat} (covered : site < p.resumptions.length) (kind : InvokeKind) {sort : SiteKind}
    (parsed : sort = .call → ∃ sig, p.config.callSignature = .ok sig) :
    Hinges ((sort = .call → p.config.CallsReference) ∧
        ∀ f, p.shape.site? site = some f → (∀ t ∈ f.stack, t ≠ .address) ∧ p.method.Restorable f.locals)
      WeaveError.Refusal (p.suspend site kind sort) := by
  let known := (p.shape.site? site).getD {}
  have recorded : ((∀ t ∈ known.stack, t ≠ .address) ∧ p.method.Restorable known.locals ∧
      ∀ t ∈ known.stack, t ≠ .address) ↔
      ∀ f, p.shape.site? site = some f → (∀ t ∈ f.stack, t ≠ .address) ∧ p.method.Restorable f.locals := by
    subst known
    cases p.shape.site? site with
    | none =>
      refine iff_of_true ⟨nofun, fun slot t none => ?_, nofun⟩ nofun
      rw [Option.getD_none, Std.ExtTreeMap.getElem?_empty] at none
      cases none
    | some f =>
      constructor
      · rintro ⟨stack, locals, -⟩ _ ⟨⟩
        exact ⟨stack, locals⟩
      · intro each
        obtain ⟨stack, locals⟩ := each f rfl
        exact ⟨stack, locals, stack⟩
  unfold suspend
  simp only [List.getElem?_eq_getElem covered, pure_bind]
  split
  · next call =>
    obtain ⟨sig, parsed⟩ := parsed call
    refine ((hinges_answerType parsed).bind fun _ _ => (hinges_saveStack _ _).bind fun _ _ =>
      (hinges_restoreLocals _ _).bind fun _ _ => (hinges_restoreStack _ _).andThen fun _ _ => ⟨_, rfl⟩).congr ?_
    exact and_congr ⟨fun calls _ => calls, fun calls => calls call⟩ recorded
  · next other =>
    refine ((hinges_saveStack _ _).bind fun _ _ => (hinges_restoreLocals _ _).bind fun _ _ =>
      (hinges_restoreStack _ _).andThen fun _ _ => ⟨_, rfl⟩).congr (recorded.trans ?_)
    exact (and_iff_right fun call => absurd call other).symm

theorem hinges_retype (place site : Nat) :
    Hinges (∀ (l : Label) (x : LabelSnapshot), p.shape.retypeAt[place]? = some l → p.shape.labels[l]? = some x →
      p.method.Restorable x.types.locals) WeaveError.Refusal (p.retype place site) := by
  unfold retype
  split
  · next l retyped =>
    rw [retyped]
    split
    · next x known =>
      refine (hinges_restoreLocals site x.types.locals).congr ⟨?_, fun each => each l x rfl known⟩
      rintro restorable _ x' ⟨⟩ known'
      obtain rfl := Option.some.inj (known.symm.trans known')
      exact restorable
    · next none =>
      refine .ok ?_ []
      rintro _ x ⟨⟩ known
      cases none.symm.trans known
  · next none =>
    rw [none]
    exact .ok nofun []

/-- What the analyses have checked of the instruction at a place: the descriptor of a call can be read, a handler has
the common rethrow, and what is followed by fetching back is a store. -/
structure Prepared (p : Plan) (place : Nat) (i : Instr) : Prop where
  parsed : ∀ kind callee, p.config.site? p.className i = some (kind, .call, callee) →
    ∃ sig, p.config.callSignature = .ok sig
  rethrow : ∀ l, i = .label l → p.isHandler l = true → ∃ r, p.rethrow = .ok r
  store : ∀ l, p.shape.retypeAt[place]? = some l → ∃ k slot, i = .store k slot

/-- What the code of the instruction at a place hinges on, where `site` is the number of the next site. -/
structure Admits (p : Plan) (place site : Nat) (i : Instr) : Prop where
  call : ∀ kind callee, p.config.site? p.className i = some (kind, .call, callee) → p.config.CallsReference
  site : p.config.suspends p.className i = true → ∀ f, p.shape.site? site = some f →
    (∀ t ∈ f.stack, t ≠ .address) ∧ p.method.Restorable f.locals
  handler : ∀ (l : Label) (x : LabelSnapshot), p.shape.retypeAt[place]? = some l → p.shape.labels[l]? = some x →
    p.method.Restorable x.types.locals

/-- An instruction that is neither a store nor a site is admitted. -/
theorem Prepared.admits (h : p.Prepared place i) (noSite : p.config.suspends p.className i = false)
    (noStore : ∀ k slot, i ≠ .store k slot) : p.Admits place site i where
  call kind callee call := by
    rw [Config.suspends, call] at noSite
    cases noSite
  site suspends := by
    rw [noSite] at suspends
    cases suspends
  handler l x retyped _ := by
    obtain ⟨k, slot, same⟩ := h.store l retyped
    exact absurd same (noStore k slot)

theorem hinges_instr (h : p.Prepared place i)
    (covered : p.config.suspends p.className i = true → site < p.resumptions.length) :
    Hinges (p.Admits place site i) WeaveError.Refusal (p.instr place site i) := by
  unfold instr
  split
  · next l =>
    have admits : p.Admits place site (.label l) := h.admits rfl fun _ _ same => by cases same
    split
    · next handler =>
      obtain ⟨r, drawn⟩ := h.rethrow l rfl handler
      rw [signalCheck, drawn]
      exact .ok admits _
    · exact .ok admits _
  · next other =>
    split
    · next leaves =>
      obtain ⟨k, rfl⟩ := Instr.isReturn_iff.1 leaves
      exact .ok (h.admits rfl fun _ _ same => by cases same) _
    · split
      · next kind m found =>
        obtain ⟨rfl, classified⟩ := Config.of_site? found
        obtain ⟨sig, parsed, -⟩ := Config.signature_of_answer classified
        rw [answer, parsed]
        refine .ok (h.admits ?_ fun _ _ same => by cases same) _
        rw [Config.suspends, found]
        rfl
      · next kind sort m answer found =>
        obtain ⟨rfl, -⟩ := Config.of_site? found
        have suspends : p.config.suspends p.className (.invoke kind m) = true := by
          rw [Config.suspends, found]
          exact decide_eq_true answer
        refine ((hinges_suspend (covered suspends) kind fun call => h.parsed kind m (call ▸ found)).andThen
          fun _ _ => ⟨_, rfl⟩).congr ?_
        constructor
        · rintro ⟨calls, recorded⟩
          refine ⟨?_, fun _ => recorded, ?_⟩
          · intro kind' callee call
            rw [found] at call
            cases call
            exact calls rfl
          · intro l x retyped
            obtain ⟨_, _, store⟩ := h.store l retyped
            cases store
        · intro admits
          refine ⟨?_, admits.site suspends⟩
          rintro rfl
          exact admits.call kind m found
      · next none =>
        refine ((hinges_retype place site).andThen fun _ _ => ⟨_, rfl⟩).congr ⟨fun handler => ⟨?_, ?_, handler⟩, (·.handler)⟩
        · intro kind callee call
          rw [none] at call
          cases call
        · intro suspends
          rw [Config.suspends, none] at suspends
          cases suspends

/-- All of the instructions from a place on are admitted, each with the number that the next site has there. -/
def AdmitsFrom (p : Plan) (place site : Nat) (instrs : List Instr) : Prop :=
  ∀ j i, instrs[j]? = some i →
    p.Admits (place + j) (site + (instrs.take j).countP (p.config.suspends p.className)) i

theorem admitsFrom_cons {rest : List Instr} : p.AdmitsFrom place site (i :: rest) ↔ p.Admits place site i ∧
    p.AdmitsFrom (place + 1) (if p.config.suspends p.className i then site + 1 else site) rest := by
  have shift (j : Nat) : (place + 1 + j = place + (j + 1)) ∧
      (if p.config.suspends p.className i then site + 1 else site) +
        (rest.take j).countP (p.config.suspends p.className) =
      site + ((i :: rest).take (j + 1)).countP (p.config.suspends p.className) := by
    rw [List.take_succ_cons, List.countP_cons]
    split <;> omega
  constructor
  · intro each
    refine ⟨each 0 i rfl, fun j i' here => ?_⟩
    rw [(shift j).1, (shift j).2]
    exact each (j + 1) i' here
  · rintro ⟨first, later⟩ (_ | j) i' here
    · cases here
      exact first
    · rw [← (shift j).1, ← (shift j).2]
      exact later j i' here

/-- The code of a method hinges on its instructions one by one.  The induction is along the method, and a site that
is passed raises the number of the next one. -/
theorem hinges_body {instrs : List Instr} (h : ∀ j i, instrs[j]? = some i → p.Prepared (place + j) i)
    (covered : site + instrs.countP (p.config.suspends p.className) ≤ p.resumptions.length) :
    Hinges (p.AdmitsFrom place site instrs) WeaveError.Refusal (p.body place site instrs) := by
  induction instrs generalizing place site with
  | nil => exact .ok nofun []
  | cons i rest ih =>
    rw [List.countP_cons] at covered
    refine ((hinges_instr (h 0 i rfl) fun suspends => ?_).bind fun result made => ?_).congr admitsFrom_cons.symm
    · rw [if_pos suspends] at covered
      omega
    · obtain ⟨code, isSite⟩ := result
      obtain rfl := isSite_of_instr made
      refine (ih (fun j i' here => ?_) ?_).andThen fun _ _ => ⟨_, rfl⟩
      · rw [Nat.add_assoc, Nat.add_comm 1 j]
        exact h (j + 1) i' here
      · split <;> rename_i suspends <;> simp only [suspends, if_true, Bool.false_eq_true, if_false] at covered <;> omega

/-- The five reserved slots are above those of the method. -/
theorem hinges_above (m n : UInt16) :
    Hinges (max m.toNat n.toNat ≤ 65530) WeaveError.Refusal (ReservedSlots.above (max m n)) := by
  have base : (max m n).toNat = max m.toNat n.toNat := by
    change (if m ≤ n then n else m).toNat = _
    simp only [UInt16.le_iff_toNat_le]
    split <;> omega
  unfold ReservedSlots.above
  rw [base]
  split
  · next fits => exact .ok (by omega) _
  · next full => exact .error (by omega) trivial

/-- A plan for a method whose sites were all found, and for which there are labels, hinges on the room for the
reserved slots. -/
theorem hinges_make {className : String} {method : Method} {config : Config} {metrics : Metrics} {shape : Shape}
    (sites : shape.sites.length = metrics.siteCount)
    (labels : ∀ offset ≤ metrics.siteCount, ∃ l, freshLabel method offset = .ok l) :
    Hinges (max method.maxLocals.toNat metrics.maxLocals.toNat ≤ 65530) WeaveError.Refusal
      (make className method config metrics shape) := by
  obtain ⟨start, drawn⟩ := labels 0 (Nat.zero_le _)
  obtain ⟨resumptions, all⟩ : ∃ resumptions, ((List.range metrics.siteCount).mapM fun k => freshLabel method (k + 1)) =
      .ok resumptions := Graph.exists_mapM fun k mem => labels (k + 1) (List.mem_range.1 mem)
  unfold make
  rw [if_neg fun differ => differ sites, drawn, all]
  exact (hinges_above _ _).andThen fun _ _ => ⟨_, rfl⟩

/-- There are slots for the parameters of a method that was measured. -/
theorem Made.exists_prologue {className : String} {method : Method} {config : Config} {metrics : Metrics}
    {shape : Shape} (made : Made className method config metrics shape p)
    (measured : Metrics.measure className method config = .ok metrics) : ∃ front, p.prologue = .ok front := by
  obtain ⟨⟨sig, parsed, small, -⟩, -⟩ := Metrics.slots_le measured
  unfold prologue
  rw [made.method_eq, parsed]
  simp only [Except.mapError, ok_bind]
  rw [if_neg (Nat.not_le.2 small)]
  exact ⟨_, rfl⟩

end Plan

/-! ## Methods that were analysed -/

variable {className : String} {method : Method} {config : Config} {metrics : Metrics} {shape : Shape}

/-- The descriptor of a call in a method that has a graph can be read. -/
theorem Graph.exists_callSignature {g : Graph} (hg : build className method config = .ok g) {i : Instr}
    (mem : i ∈ method.code.instrs) {kind : InvokeKind} {callee : MemberRef}
    (call : config.site? className i = some (kind, .call, callee)) : ∃ sig, config.callSignature = .ok sig := by
  obtain ⟨rfl, classified⟩ := Config.of_site? call
  obtain ⟨effect, has⟩ := exists_effect_of_build hg mem
  obtain ⟨sig, parsed, -⟩ := bind_eq_ok.1 has
  rcases Config.descriptor_of_suspends classified rfl with ⟨-, same⟩ | ⟨other, -⟩
  · rw [same] at parsed
    exact ⟨sig, parsed⟩
  · exact absurd rfl other

/-- There are labels for the start and for each site, and for the common rethrow if something is caught. -/
structure Method.Labelled (m : Method) (metrics : Metrics) : Prop where
  sites : m.firstFresh + metrics.siteCount + 1 < 2 ^ 32
  rethrow : m.code.regions ≠ [] → m.firstFresh + (metrics.siteCount + 1) + 1 < 2 ^ 32

theorem Plan.exists_freshLabel {offset : Nat} (room : method.firstFresh + offset + 1 < 2 ^ 32) :
    ∃ l, freshLabel method offset = .ok l := by
  refine ⟨UInt32.ofNat (method.firstFresh + offset), ?_⟩
  change (if method.firstFresh + offset + 1 < 4294967296 then _ else _) = _
  exact if_pos room

/-- The instructions of a method are what its analyses have checked. -/
theorem Plan.Made.prepared {p : Plan} (made : Plan.Made className method config metrics shape p)
    (shaped : (Shape.ofMethod className method config metrics).result = .ok shape)
    (labelled : method.Labelled metrics) {place : Nat} {i : Instr} (here : method.code.instrs[place]? = some i) :
    p.Prepared place i := by
  obtain ⟨g, -, -, -, -, hg, -⟩ := Shape.exists_pass shaped
  refine ⟨?_, ?_, ?_⟩
  · intro kind callee call
    rw [made.config_eq, made.className_eq] at call
    rw [made.config_eq]
    exact Graph.exists_callSignature hg (List.mem_of_getElem? here) call
  · intro l _ handler
    rw [made.rethrow]
    refine Plan.exists_freshLabel (labelled.rethrow ?_)
    rw [Plan.isHandler, made.method_eq] at handler
    rintro none
    rw [none] at handler
    cases handler
  · intro l retyped
    rw [made.shape_eq] at retyped
    obtain ⟨k, slot, there⟩ := Shape.store_of_retypeAt shaped retyped
    exact ⟨k, slot, Option.some.inj (here.symm.trans there)⟩

/-- What the code of a method hinges on, in terms of the method.  One speaks of every instruction and the other
of every site, and every site has its number at some instruction. -/
theorem Plan.Made.weavable_iff {p : Plan} (made : Plan.Made className method config metrics shape p)
    (measured : Metrics.measure className method config = .ok metrics)
    (shaped : (Shape.ofMethod className method config metrics).result = .ok shape) :
    (max method.maxLocals.toNat metrics.maxLocals.toNat ≤ 65530 ∧ p.AdmitsFrom 0 0 method.code.instrs) ↔
      method.Weavable className config metrics shape := by
  obtain rfl := made.className_eq
  obtain rfl := made.method_eq
  obtain rfl := made.config_eq
  obtain rfl := made.shape_eq
  constructor
  · rintro ⟨room, admits⟩
    have site (k : Nat) (f : SymFrame) (found : p.shape.site? k = some f) :
        (∀ t ∈ f.stack, t ≠ .address) ∧ p.method.Restorable f.locals := by
      have counted : k < p.method.code.instrs.countP (p.config.suspends p.className) := by
        rw [← Metrics.siteCount_eq measured, ← length_sites_of_shape measured shaped]
        exact (List.getElem?_eq_some_iff.1 (Option.join_eq_some_iff.1 found)).1
      obtain ⟨j, i, here, suspends, rfl⟩ := exists_take_countP _ _ counted
      rw [← Nat.zero_add (List.countP _ _)] at found
      exact (admits j i here).site suspends f found
    refine ⟨room, ?_, fun k f found => (site k f found).1, fun k f found => (site k f found).2, ?_⟩
    · rintro ⟨i, mem, kind, callee, call⟩
      obtain ⟨j, here⟩ := List.mem_iff_getElem?.1 mem
      exact (admits j i here).call kind callee call
    · intro place l x retyped known
      obtain ⟨k, slot, here⟩ := Shape.store_of_retypeAt shaped retyped
      rw [← Nat.zero_add place] at retyped
      exact (admits place _ here).handler l x retyped known
  · intro weavable
    refine ⟨weavable.room, fun j i here => ⟨?_, ?_, ?_⟩⟩
    · intro kind callee call
      exact weavable.call ⟨i, List.mem_of_getElem? here, kind, callee, call⟩
    · intro _ f found
      exact ⟨weavable.stack _ f found, weavable.locals _ f found⟩
    · intro l x retyped known
      exact weavable.handlers _ l x retyped known

theorem hinges_woven (measured : Metrics.measure className method config = .ok metrics)
    (shaped : (Shape.ofMethod className method config metrics).result = .ok shape)
    (labelled : method.Labelled metrics) :
    Hinges (method.Weavable className config metrics shape) WeaveError.Refusal
      (method.woven className config metrics shape) := by
  refine ((Plan.hinges_make (length_sites_of_shape measured shaped) fun offset le => ?_).bind (R := method.Weavable
    className config metrics shape) fun p planned => ?_).congr (and_iff_right_of_imp (·.room))
  · exact Plan.exists_freshLabel (Nat.lt_of_le_of_lt (by omega) labelled.sites)
  · have made := Plan.made_of_make planned
    have room := (Plan.hinges_above _ _).succeeds.1 ⟨_, made.slots⟩
    have labels : p.resumptions.length = metrics.siteCount := by simpa using (mapM_eq_ok.1 made.resumptions).1
    obtain ⟨front, opened⟩ := made.exists_prologue measured
    refine Hinges.congr ?_ ((and_iff_right room).symm.trans (made.weavable_iff measured shaped))
    unfold Plan.stream
    rw [opened, made.method_eq]
    refine Hinges.andThen ((Plan.hinges_body (fun j i here => ?_) ?_).andThen fun _ _ => ⟨_, rfl⟩) fun _ _ => ⟨_, rfl⟩
    · rw [Nat.zero_add]
      exact made.prepared shaped labelled here
    · refine Nat.le_of_eq ?_
      rw [Nat.zero_add, labels, Metrics.siteCount_eq measured, made.config_eq, made.className_eq]

/-- A method that was measured and analysed, and for which there are labels, is made suspendable exactly if it is
weavable; if it is not, then because its slots leave no room, the configured call cannot be answered, or a return
address would have to be saved. -/
theorem weave_hinges (measured : (Metrics.ofMethod className method config).result = .ok metrics)
    (shaped : (Shape.ofMethod className method config metrics).result = .ok shape)
    (labelled : method.Labelled metrics) :
    ((∃ result, (method.weave className config metrics shape).result = .ok result) ↔
        method.Weavable className config metrics shape) ∧
      ∀ e, (method.weave className config metrics shape).result = .error e → e.Refusal := by
  have measured : Metrics.measure className method config = .ok metrics := by
    unfold Metrics.ofMethod at measured
    simp only [Reported.result_bind, Reported.result_ofExcept] at measured
    obtain ⟨metrics', measured, same⟩ := bind_eq_ok.1 measured
    cases same
    exact measured
  have hinges : Hinges (method.Weavable className config metrics shape) WeaveError.Refusal
      (method.weave className config metrics shape).result := by
    unfold Method.weave
    simp only [Reported.result_bind, Reported.result_ofExcept]
    exact (hinges_woven measured shaped labelled).andThen fun _ _ => ⟨_, rfl⟩
  exact ⟨hinges.succeeds, hinges.fails⟩

namespace Refusals

/-- Makes a call that waits for an answer, with the given descriptor. -/
def asking (descriptor : String) : Method where
  access := staticFlag
  name := "execute"
  descriptor := "()V"
  maxLocals := 0
  code.instrs := [.plain .aconstNull, .invoke .static ⟨"app/C", "call", descriptor⟩, .plain (.shuffle .pop),
    .plain (.leave none)]

/-- The configuration in which the call has the given descriptor. -/
def calling (descriptor : String) : Config := { callDescriptor := descriptor }

/-- Whether there are labels, and whether the method is made suspendable, once it was analysed. -/
def outcome (descriptor : String) : Option (Bool × Bool) := do
  let metrics ← (Metrics.ofMethod "app/C" (asking descriptor) (calling descriptor)).result.toOption
  let shape ← (Shape.ofMethod "app/C" (asking descriptor) (calling descriptor) metrics).result.toOption
  return (decide ((asking descriptor).firstFresh + metrics.siteCount + 1 < 2 ^ 32),
    ((asking descriptor).weave "app/C" (calling descriptor) metrics shape).result.toOption.isSome)

theorem exists_analysis (descriptor : String) (woven : Bool) (known : outcome descriptor = some (true, woven)) :
    ∃ metrics shape, (Metrics.ofMethod "app/C" (asking descriptor) (calling descriptor)).result = .ok metrics ∧
      (Shape.ofMethod "app/C" (asking descriptor) (calling descriptor) metrics).result = .ok shape ∧
      (asking descriptor).Labelled metrics ∧
      ((asking descriptor).weave "app/C" (calling descriptor) metrics shape).result.toOption.isSome = woven := by
  obtain ⟨metrics, measured, known⟩ := Option.bind_eq_some_iff.1 known
  obtain ⟨shape, shaped, known⟩ := Option.bind_eq_some_iff.1 known
  obtain ⟨room, woven⟩ := Prod.mk.inj (Option.some.inj known)
  exact ⟨metrics, shape, eq_ok_of_toOption measured, eq_ok_of_toOption shaped,
    ⟨of_decide_eq_true room, fun some => absurd rfl some⟩, woven⟩

end Refusals

/-- A call of an object that yields an object can be left; one that yields an int is the reason to refuse a method. -/
theorem asking_hinges :
    (∃ metrics shape, (Refusals.asking "(Ljava/lang/Object;)Ljava/lang/Object;").Weavable "app/C"
      (Refusals.calling "(Ljava/lang/Object;)Ljava/lang/Object;") metrics shape) ∧
    ∃ metrics shape e, ¬(Refusals.asking "(Ljava/lang/Object;)I").Weavable "app/C"
        (Refusals.calling "(Ljava/lang/Object;)I") metrics shape ∧
      ((Refusals.asking "(Ljava/lang/Object;)I").weave "app/C" (Refusals.calling "(Ljava/lang/Object;)I") metrics
        shape).result = .error e ∧ e.Refusal := by
  obtain ⟨metrics, shape, measured, shaped, labelled, woven⟩ :=
    Refusals.exists_analysis "(Ljava/lang/Object;)Ljava/lang/Object;" true (by decide +kernel)
  obtain ⟨metrics', shape', measured', shaped', labelled', refused⟩ :=
    Refusals.exists_analysis "(Ljava/lang/Object;)I" false (by decide +kernel)
  obtain ⟨weavable, -⟩ := weave_hinges measured shaped labelled
  obtain ⟨weavable', fails⟩ := weave_hinges measured' shaped' labelled'
  refine ⟨⟨metrics, shape, weavable.1 (exists_ok woven)⟩, metrics', shape', ?_⟩
  cases result : ((Refusals.asking "(Ljava/lang/Object;)I").weave "app/C" (Refusals.calling "(Ljava/lang/Object;)I")
      metrics' shape').result with
  | ok m =>
    rw [result] at refused
    cases refused
  | error e =>
    refine ⟨e, fun fits => ?_, rfl, fails e result⟩
    obtain ⟨m, woven⟩ := weavable'.2 fits
    rw [result] at woven
    cases woven

end Suspension
