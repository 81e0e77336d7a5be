import Suspension.Proofs.Failure
import Suspension.Proofs.Flow.Lowered
import Suspension.Proofs.Symbolic.Traversal
import Suspension.Proofs.Weave.Ready

/-!
# Counts that cannot disagree

The sites of a method are counted before it is analysed, where its graph is built, and where its code is
emitted.  Each of the later two compares its count with the one before and has an error for the case that they
disagree.  They never do, so of all the errors in which a method can be refused these do not occur.

## Main definitions
* `AnalysisError.Counted`, `WeaveError.Counted`, `TransformError.Counted`: the errors other than those.
* `AnalysisError.Other`, `WeaveError.Other`: the errors that are not about parameters or labels either.

## Main results
* `fails_shape`: the analysis finds the sites that were counted.
* `Plan.fails_body`: every site that is emitted has a label at which it is resumed.
* `fails_transform`: a method is refused by its analysis or while its code is emitted.
* `counted_transform`: a method is refused for other reasons only.
-/

namespace Suspension

/-- An error of the analysis that is not about the number of sites. -/
def AnalysisError.Counted : AnalysisError → Prop
  | .siteCountMismatch .. => False
  | _ => True

/-- An error that keeps code from being emitted and is not about the number of sites. -/
def WeaveError.Counted : WeaveError → Prop
  | .snapshotCountMismatch .. | .missingResumption _ => False
  | _ => True

variable {className : String} {method : Method} {config : Config} {metrics : Metrics} {α : Type}

/-! ## The analysis

What is shown of the errors in which the analysis may end is shown for all properties that hold of the errors
about other things.
-/

/-- An error of the analysis that is neither about the number of sites nor about the number of parameters. -/
def AnalysisError.Other : AnalysisError → Prop
  | .siteCountMismatch .. | .tooManyParameters => False
  | _ => True

theorem AnalysisError.Other.counted {e : AnalysisError} (h : e.Other) : e.Counted := by
  cases e <;> trivial

/-- A method that was measured has a slot for every parameter. -/
theorem Metrics.entry_lt (measured : measure className method config = .ok metrics) {s : Signature}
    (parsed : method.signature = .ok s) : method.receiverSlots + s.slots < 65536 := by
  obtain ⟨⟨s', parsed', small, -⟩, -⟩ := Metrics.slots_le measured
  obtain rfl : s' = s := Except.ok.inj (parsed'.symm.trans parsed)
  exact small

section Analysis

variable {P : AnalysisError → Prop}

theorem fails_entrySlots {s : Signature}
    (many : 65536 ≤ method.receiverSlots + s.slots → P .tooManyParameters) : Fails P (method.entrySlots s) := by
  unfold Method.entrySlots
  split
  · exact .ok _
  · next large => exact .error (many (Nat.le_of_not_lt large))

variable (other : ∀ e : AnalysisError, e.Other → P e)

include other

theorem fails_ofDescriptor (r : Except MalformedDescriptor α) : Fails P (AnalysisError.ofDescriptor r) :=
  .mapError (.of_forall fun _ => other _ trivial)

theorem fails_measure
    (many : ∀ s, method.signature = .ok s → 65536 ≤ method.receiverSlots + s.slots → P .tooManyParameters) :
    Fails P (Metrics.measure className method config) :=
  (fails_ofDescriptor other _).bind fun s parsed =>
    (fails_entrySlots (many s (mapError_eq_ok.1 parsed))).bind fun _ _ => .ok _

theorem fails_resolve (blocks : List Stretch) (l : Label) :
    Fails P (Graph.resolve blocks l) := by
  unfold Graph.resolve
  split
  · exact .ok _
  · exact .error (other _ trivial)

theorem fails_lower (blocks : List Stretch) (site : Nat) (body : List (Nat × Instr)) :
    Fails P (Graph.lower className config blocks site body) := by
  induction body generalizing site with
  | nil => exact .ok _
  | cons e rest ih =>
    refine (fails_ofDescriptor other _).bind fun effect _ => .bind ?_ fun jumps _ => (ih _).bind fun _ _ => .ok _
    exact .mapM fun l _ => (fails_resolve other blocks l).bind fun _ _ => .ok _

theorem fails_lowerAll (all ss : List Stretch) (place site : Nat) :
    Fails P (Graph.lowerAll className config all place site ss) := by
  induction ss generalizing place site with
  | nil => exact .ok _
  | cons s rest ih => exact (fails_lower other all site s.body).bind fun _ _ => (ih _ _).bind fun _ _ => .ok _

theorem fails_span (blocks : List Stretch) (r : Region) : Fails P (Graph.span blocks r) :=
  (fails_resolve other _ _).bind fun _ _ => (fails_resolve other _ _).bind fun _ _ =>
    (fails_resolve other _ _).bind fun _ _ => .ok _

theorem fails_build : Fails P (Graph.build className method config) := by
  unfold Graph.build
  simp only
  split
  · exact .bind (.error (other _ trivial)) fun _ h => nomatch h
  · exact (fails_lowerAll other _ _ _ _).bind fun _ _ => .bind (.mapM fun r _ => fails_span other _ r) fun _ _ => .ok _

/-- A method that was measured has no more parameters than there are slots. -/
theorem fails_root (measured : Metrics.measure className method config = .ok metrics) :
    Fails P (SymFrame.root className method) := by
  refine (fails_ofDescriptor other _).bind fun s parsed => ?_
  have small := Metrics.entry_lt measured (mapError_eq_ok.1 parsed)
  exact (fails_entrySlots fun many => absurd small (Nat.not_lt.2 many)).bind fun _ _ => .ok _

theorem fails_interpret (b : Block) (opening : SymFrame) :
    Fails P (b.interpret opening) := by
  refine .bind (.foldlM (fun t s => ?_) _) fun _ _ => .ok _
  unfold Trail.follow
  split
  · next f _ _ => exact .error (other _ (by cases f <;> trivial))
  · exact .ok _

theorem fails_traverse (g : Graph) (widened : Widenings) (n : Nat) (p : Pass) :
    Fails P (p.traverse g metrics widened n).result := by
  induction n generalizing p with
  | zero => exact .ok _
  | succ n ih =>
    unfold Pass.traverse
    split
    · exact .ok _
    · split
      · simp only [Reported.result_bind]
        exact .bind (.ok _) fun _ _ => (fails_interpret other _ _).bind fun _ _ => ih _
      · exact ih _

theorem fails_checkSlots (policy : JoinPolicy) (place : Nat) (entry incoming : SymFrame) (slots : List Slot) :
    Fails P (Pass.checkSlots policy place entry incoming slots).result := by
  induction slots with
  | nil => exact .ok _
  | cons slot rest ih =>
    unfold Pass.checkSlots
    simp only
    split
    · exact ih
    · cases policy with
      | reject => simpa only [Reported.result_bind] using .bind (.error (other _ trivial)) fun _ _ => ih
      | firstPredecessor => simpa only [Reported.result_bind] using .bind (.ok _) fun _ _ => ih

theorem fails_checkEdge (p : Pass) (g : Graph) (live : Liveness) (policy : JoinPolicy) (place : Nat)
    (exit : SymFrame) (e : Edge) : Fails P (p.checkEdge g live policy place exit e).result := by
  unfold Pass.checkEdge
  split
  · simp only
    split
    · exact .ok _
    · split
      · exact .ok _
      · split
        · simp only [Reported.result_bind]
          exact .bind (.error (other _ trivial)) fun _ _ => (fails_checkSlots other _ _ _ _ _).bind fun _ _ => .ok _
        · simp only [Reported.result_bind]
          exact (fails_checkSlots other _ _ _ _ _).bind fun _ _ => .ok _
  · exact .ok _

theorem fails_checkEdges (p : Pass) (g : Graph) (live : Liveness) (policy : JoinPolicy) (place : Nat)
    (exit : SymFrame) (edges : List Edge) :
    Fails P (p.checkEdges g live policy place exit edges).result := by
  induction edges with
  | nil => exact .ok _
  | cons e rest ih =>
    simp only [Pass.checkEdges, Reported.result_bind]
    exact (fails_checkEdge other _ _ _ _ _ _ _).bind fun _ _ => ih.bind fun _ _ => .ok _

theorem fails_check (p : Pass) (g : Graph) (live : Liveness) (policy : JoinPolicy) (places : List Nat) :
    Fails P (p.check g live policy places).result := by
  induction places with
  | nil => exact .ok _
  | cons place rest ih =>
    unfold Pass.check
    split
    · simp only [Reported.result_bind]
      exact (fails_checkEdges other _ _ _ _ _ _ _).bind fun _ _ => ih.bind fun _ _ => .ok _
    · simp only [Reported.result_bind]
      exact .bind (.ok _) fun _ _ => ih.bind fun _ _ => .ok _

theorem fails_rounds (g : Graph) (live : Liveness) (policy : JoinPolicy) (root : SymFrame) (n : Nat)
    (widened : Widenings) :
    Fails P (Shape.rounds g live method metrics policy root n widened).result := by
  induction n generalizing widened with
  | zero =>
    rw [Shape.rounds.eq_def]
    simp only [Reported.result_bind]
    exact (fails_traverse other _ _ _ _).bind fun _ _ => (fails_check other _ _ _ _ _).bind fun _ _ => .ok _
  | succ n ih =>
    rw [Shape.rounds.eq_def]
    simp only [Reported.result_bind]
    refine (fails_traverse other _ _ _ _).bind fun _ _ => (fails_check other _ _ _ _ _).bind fun _ _ => ?_
    split
    · exact .ok _
    · exact ih _

/-- The analysis finds the sites that were counted, and slots for the parameters. -/
theorem fails_shape (measured : Metrics.measure className method config = .ok metrics) :
    Fails P (Shape.ofMethod className method config metrics).result := by
  unfold Shape.ofMethod Graph.ofMethod
  simp only [Reported.result_bind]
  refine .bind ((fails_build other).bind fun _ _ => .ok _) fun g hg => ?_
  obtain ⟨g', built, hg⟩ := bind_eq_ok.1 hg
  obtain rfl : g = g' := (Except.ok.inj hg).symm
  have same : g.sites.length = metrics.siteCount := by
    rw [Graph.length_sites_of_build built, Metrics.siteCount_eq measured]
  rw [if_neg (fun differ => differ same)]
  simp only [Reported.result_bind]
  exact (fails_root other measured).bind fun _ _ => fails_rounds other _ _ _ _ _ _

end Analysis

/-- A shape has a place for each site that was counted. -/
theorem length_sites_of_shape {s : Shape} (measured : Metrics.measure className method config = .ok metrics)
    (shaped : (Shape.ofMethod className method config metrics).result = .ok s) :
    s.sites.length = metrics.siteCount := by
  obtain ⟨g, root, widened, p, asked, built, -, -, -, rfl⟩ := Shape.exists_pass shaped
  rw [Metrics.siteCount_eq measured, ← Graph.length_sites_of_build built]
  simp [Pass.shape]

/-! ## The emitted code

Whether code can be emitted depends on the labels that are drawn for it.  What is shown of the errors in which
this may end is shown for all properties that hold of the errors about other things.
-/

/-- An error that keeps code from being emitted and is neither about the number of sites or parameters nor about
labels. -/
def WeaveError.Other : WeaveError → Prop
  | .snapshotCountMismatch .. | .missingResumption _ | .labelsExhausted | .tooManyParameters => False
  | _ => True

theorem WeaveError.Other.counted {e : WeaveError} (h : e.Other) : e.Counted := by
  cases e <;> trivial

namespace Plan

variable {p : Plan} {P : WeaveError → Prop}

/-- A label is drawn as long as the counter has room for another one. -/
theorem fails_freshLabel {offset : Nat} (exhausted : 2 ^ 32 ≤ method.firstFresh + offset + 1 → P .labelsExhausted) :
    Fails P (freshLabel method offset) := by
  change Fails P (if method.firstFresh + offset + 1 < 4294967296 then
    .ok (UInt32.ofNat (method.firstFresh + offset)) else .error .labelsExhausted)
  split
  · exact .ok _
  · next large => exact .error (exhausted (Nat.le_of_not_lt large))

variable (other : ∀ e : WeaveError, e.Other → P e)

include other

theorem fails_make {shape : Shape} (fresh : ∀ offset ≤ metrics.siteCount, Fails P (freshLabel method offset))
    (sites : shape.sites.length = metrics.siteCount) :
    Fails P (make className method config metrics shape) := by
  unfold make
  rw [if_neg fun differ => differ sites]
  refine .bind ?_ fun _ _ => (fresh 0 (Nat.zero_le _)).bind fun _ _ =>
    .bind (.mapM fun k hk => fresh (k + 1) (List.mem_range.1 hk)) fun _ _ => .ok _
  unfold ReservedSlots.above
  split
  · exact .ok _
  · exact .error (other _ trivial)

theorem fails_prologue
    (small : ∀ s, p.method.signature = .ok s → p.method.receiverSlots + s.slots < 65536) : Fails P p.prologue := by
  unfold prologue
  refine .bind (.mapError (.of_forall fun _ => other _ trivial)) fun s parsed => ?_
  rw [if_neg (Nat.not_le.2 (small s (mapError_eq_ok.1 parsed)))]
  exact .ok _

theorem fails_storageFor (site : Nat) (t : Tag) : Fails P (storageFor site t) := by
  unfold storageFor
  split
  · exact .ok _
  · exact .error (other _ trivial)

theorem fails_saveStack (site : Nat) (stack : List Tag) : Fails P (p.saveStack site stack) :=
  .bind (.mapM fun t _ => (fails_storageFor other site t).bind fun _ _ => .ok _) fun _ _ => .ok _

theorem fails_restoreStack (site : Nat) (stack : List Tag) : Fails P (p.restoreStack site stack) :=
  .bind (.mapM fun t _ => (fails_storageFor other site t).bind fun _ _ => .ok _) fun _ _ => .ok _

theorem fails_restoreLocals (site : Nat) (locals : Locals) : Fails P (p.restoreLocals site locals) :=
  .bind (.mapM fun e _ => (fails_storageFor other site e.2).bind fun _ _ => .ok _) fun _ _ => .ok _

theorem fails_answerType : Fails P p.answerType := by
  unfold answerType
  refine .bind (.mapError (.of_forall fun _ => other _ trivial)) fun s _ => ?_
  simp only
  split
  · split
    · exact .bind (.error (other _ trivial)) fun _ h => nomatch h
    · split
      · split
        · exact .error (other _ trivial)
        · exact .ok _
      · exact .ok _
  · exact .bind (.error (other _ trivial)) fun _ h => nomatch h

theorem fails_answer (kind : InvokeKind) (m : MemberRef) : Fails P (p.answer kind m) :=
  .bind (.mapError (.of_forall fun _ => other _ trivial)) fun _ _ => .ok _

/-- A site of a number that is covered has a label at which it is resumed. -/
theorem fails_suspend {site : Nat} (covered : site < p.resumptions.length) (kind : InvokeKind)
    (sort : SiteKind) : Fails P (p.suspend site kind sort) := by
  unfold suspend
  simp only
  split
  case isTrue | isFalse =>
    refine .bind (by first | exact fails_answerType other | exact .ok _) fun _ _ =>
      (fails_saveStack other _ _).bind fun _ _ => ?_
    rw [List.getElem?_eq_getElem covered]
    exact .bind (.ok _) fun _ _ => (fails_restoreLocals other _ _).bind fun _ _ =>
      (fails_restoreStack other _ _).bind fun _ _ => .ok _

theorem fails_retype (place site : Nat) : Fails P (p.retype place site) := by
  unfold retype
  split
  · split
    · exact fails_restoreLocals other _ _
    · exact .ok _
  · exact .ok _

theorem fails_instr (rethrow : Fails P p.rethrow) {place site : Nat} {i : Instr}
    (covered : p.config.suspends p.className i = true → site < p.resumptions.length) :
    Fails P (p.instr place site i) := by
  unfold instr
  split
  · split
    · exact .bind (rethrow.bind fun _ _ => .ok _) fun _ _ => .ok _
    · exact .ok _
  · split
    · exact .ok _
    · unfold Config.suspends at covered
      split
      · exact (fails_answer other _ _).bind fun _ _ => .ok _
      · next kind sort m answer site? =>
        rw [site?] at covered
        have suspends : sort.suspends = true := decide_eq_true answer
        exact (fails_suspend other (covered suspends) _ _).bind fun _ _ => .ok _
      · exact (fails_retype other _ _).bind fun _ _ => .ok _

/-- As many labels as there are sites are enough. -/
theorem fails_body (rethrow : Fails P p.rethrow) {place site : Nat} {instrs : List Instr}
    (covered : site + instrs.countP (p.config.suspends p.className) ≤ p.resumptions.length) :
    Fails P (p.body place site instrs) := by
  induction instrs generalizing place site with
  | nil => exact .ok _
  | cons i rest ih =>
    rw [List.countP_cons] at covered
    refine .bind (fails_instr other rethrow fun suspends => ?_) fun result made => ?_
    · rw [if_pos suspends] at covered
      omega
    · obtain ⟨code, isSite⟩ := result
      obtain rfl := isSite_of_instr made
      refine .bind (ih ?_) fun _ _ => .ok _
      split <;> rename_i suspends <;> simp only [suspends, if_true, Bool.false_eq_true, if_false] at covered <;> omega

end Plan

/-- Code is emitted, but for errors about labels that cannot be drawn and errors about other things. -/
theorem fails_woven {P : WeaveError → Prop} {shape : Shape} (other : ∀ e : WeaveError, e.Other → P e)
    (fresh : ∀ offset ≤ metrics.siteCount + 1, Fails P (Plan.freshLabel method offset))
    (measured : Metrics.measure className method config = .ok metrics)
    (shaped : (Shape.ofMethod className method config metrics).result = .ok shape) :
    Fails P (method.woven className config metrics shape) := by
  refine .bind (Plan.fails_make other (fun offset le => fresh offset (Nat.le_succ_of_le le))
    (length_sites_of_shape measured shaped)) fun p planned => ?_
  have made := Plan.made_of_make planned
  have labels : p.resumptions.length = metrics.siteCount := by
    simpa using (mapM_eq_ok.1 made.resumptions).1
  have small (s : Signature) (parsed : p.method.signature = .ok s) : p.method.receiverSlots + s.slots < 65536 := by
    rw [made.method_eq] at parsed ⊢
    exact Metrics.entry_lt measured parsed
  refine .bind ((Plan.fails_prologue other small).bind fun _ _ => .bind ?_ fun _ _ => .ok _) fun _ _ => .ok _
  refine Plan.fails_body other (made.rethrow ▸ fresh _ (Nat.le_refl _)) (Nat.le_of_eq ?_)
  rw [labels, Metrics.siteCount_eq measured, made.config_eq, made.className_eq, made.method_eq, Nat.zero_add]

/-- An error in which a method is refused that is not about the number of its sites. -/
def TransformError.Counted : TransformError → Prop
  | .analysis _ _ e => e.Counted
  | .weave _ _ e => e.Counted
  | _ => True

/-- A method is refused because its analysis fails or because its code cannot be emitted. -/
theorem fails_transform {P : TransformError → Prop}
    (measuring : Fails (fun e => P (.analysis className (method.name ++ method.descriptor) e))
      (Metrics.measure className method config))
    (shaping : ∀ metrics, Metrics.measure className method config = .ok metrics →
      Fails (fun e => P (.analysis className (method.name ++ method.descriptor) e))
        (Shape.ofMethod className method config metrics).result)
    (weaving : ∀ metrics shape, Metrics.measure className method config = .ok metrics →
      (Shape.ofMethod className method config metrics).result = .ok shape →
      Fails (fun e => P (.weave className (method.name ++ method.descriptor) e))
        (method.woven className config metrics shape)) :
    Fails P (method.transform className config).result := by
  unfold Method.transform
  simp only [Reported.result_bind, Reported.result_mapError]
  unfold Metrics.ofMethod
  simp only [Reported.result_bind, Reported.result_ofExcept]
  refine .bind (.mapError (measuring.bind fun _ _ => .ok _)) fun metrics found => ?_
  obtain ⟨metrics', measured, found⟩ := bind_eq_ok.1 (mapError_eq_ok.1 found)
  obtain rfl : metrics = metrics' := (Except.ok.inj found).symm
  split
  · simp only [Reported.result_bind, Reported.result_mapError]
    refine .bind (.mapError (shaping metrics measured)) fun shape shaped => ?_
    unfold Method.weave
    simp only [Reported.result_bind, Reported.result_ofExcept]
    exact .bind (.mapError ((weaving metrics shape measured (mapError_eq_ok.1 shaped)).bind fun _ _ => .ok _))
      fun _ _ => .ok _
  · exact .ok _

/-- A method is not refused for the number of its sites. -/
theorem counted_transform : Fails TransformError.Counted (method.transform className config).result :=
  fails_transform (fails_measure (fun _ => AnalysisError.Other.counted) fun _ _ _ => trivial)
    (fun _ measured => fails_shape (fun _ => AnalysisError.Other.counted) measured) fun _ _ measured shaped =>
      fails_woven (fun _ => WeaveError.Other.counted) (fun _ _ => Plan.fails_freshLabel fun _ => trivial) measured shaped

end Suspension
