import Suspension.Proofs.Weave.Contents
import Suspension.Proofs.Weave.Passages
import Suspension.Proofs.Weave.Ready

/-!
# The graph of suspendable code

Suspendable code of a method without handlers has a graph of its own: what was put in has operations, and the
labels that it goes to are those of the method, the start, and the resumptions, each of which stands at one
place.

## Main results
* `Weaving.mem_definedLabels_of_targets`: the labels that suspendable code goes to.
* `Weaving.exists_graph_again`: suspendable code has a graph.
* `Weaving.leads_original`: an instruction of the method leads to the pieces of what it led to.
-/

namespace Suspension

variable {className : String} {config : Config}

namespace Config

variable {kind : InvokeKind} {sort : SiteKind} {callee : MemberRef}

theorem classify_of_site? (h : config.site? className (.invoke kind callee) = some (kind, sort, callee)) :
    config.classify className callee = some sort := by
  simp only [site?, Instr.invocation?, Option.map_eq_some_iff, Prod.mk.injEq] at h
  obtain ⟨sort', classified, -, rfl, -⟩ := h
  exact classified

/-- An answer takes one value at most. -/
theorem signature_of_answer (h : config.classify className callee = some .answer) :
    ∃ sig, Signature.parse callee.descriptor = .ok sig ∧ sig.params.length ≤ 1 := by
  have known : callee.descriptor ∈ answerDescriptors := by
    unfold classify at h
    repeat' split at h
    all_goals first | (cases h; done) | exact (And.right ‹_›)
  have each : ∀ d ∈ answerDescriptors, ((Signature.parse d).toOption.map fun s => decide (s.params.length ≤ 1)) =
      some true := by
    decide +kernel
  obtain ⟨sig, parsed, few⟩ := Option.map_eq_some_iff.1 (each _ known)
  exact ⟨sig, eq_ok_of_toOption parsed, of_decide_eq_true few⟩

/-- What a suspension site calls has the descriptor that is configured for it.  The sorts are tried in order,
each by its name and its descriptor. -/
theorem descriptor_of_suspends (h : config.classify className callee = some sort) (suspends : sort.suspends = true) :
    sort = .call ∧ callee.descriptor = config.callDescriptor ∨
      sort ≠ .call ∧ callee.descriptor = pauseDescriptor := by
  unfold classify at h
  split at h
  · cases h
  split at h
  · next pause =>
    cases h
    exact .inr ⟨by simp, pause.2⟩
  split at h
  · next stepBack =>
    cases h
    exact .inr ⟨by simp, stepBack.2⟩
  split at h
  · next call =>
    cases h
    exact .inl ⟨rfl, call.2⟩
  split at h
  · cases h
    cases suspends
  · cases h

end Config

/-- The configured call takes one value, and what comes back is a reference. -/
theorem Plan.answerType_eq_ok {p : Plan} {answer : Option Tag} (h : p.answerType = .ok answer) :
    ∃ sig t, p.config.callSignature = .ok sig ∧ sig.params = [t] ∧ answer = sig.result ∧
      ∀ t, sig.result = some t → t.kind = .reference := by
  obtain ⟨sig, parsed, h⟩ := bind_eq_ok.1 h
  rcases params : sig.params with _ | ⟨t, _ | ⟨u, more⟩⟩
  · rw [params] at h
    cases result : sig.result <;> (rw [result] at h; cases h)
  · refine ⟨sig, t, mapError_eq_ok.1 parsed, params, ?_⟩
    rw [params] at h
    dsimp only at h
    cases result : sig.result with
    | none =>
      rw [result] at h
      split at h
      · cases h
      · cases h
        exact ⟨rfl, nofun⟩
    | some u =>
      rw [result] at h
      split at h
      · cases h
      · dsimp only at h
        split at h
        · cases h
        · next reference =>
          cases h
          refine ⟨rfl, ?_⟩
          rintro _ ⟨⟩
          exact not_not.1 reference
  · rw [params] at h
    cases result : sig.result <;> (rw [result] at h; cases h)

/-- What is put into a method has operations. -/
theorem Plan.Inserts.exists_effect {p : Plan} {i : Instr} (h : p.Inserts i) :
    ∃ effect, i.effect className config 0 = .ok effect := by
  cases h with
  | stock stock =>
    cases stock with
    | vars s => exact Instr.exists_effect_of_parse _ (mapError_eq_ok.1 s.callSignature_ref)
    | context s => exact Instr.exists_effect_of_parse _ (mapError_eq_ok.1 s.callSignature_ref)
    | int n =>
      unfold pushInt
      repeat' split
      all_goals exact ⟨_, rfl⟩
    | _ => exact ⟨_, rfl⟩
  | obtain =>
    have parsed : Signature.parse Service.createOrResetContext.descriptor =
        .ok ⟨[.object], some (.ref Service.contextClass)⟩ := eq_ok_of_toOption (by decide +kernel)
    exact Instr.exists_effect_of_parse _ parsed
  | construct k => exact Instr.exists_effect_of_parse _ (mapError_eq_ok.1 k.callSignature_constructor)
  | _ => exact ⟨_, rfl⟩

namespace Weaving

variable {W : Weaving} {i : Nat}

namespace Suspends

variable (s : W.Suspends i)

theorem suspends_eq : W.config.suspends W.className (.invoke s.kind s.callee) = true := by
  rw [Config.suspends, s.site]
  exact s.suspends

theorem classified : W.config.classify W.className s.callee = some s.sort := Config.classify_of_site? s.site

/-- A call that waits for an answer takes one value, the other sites take none; what comes back is a reference. -/
theorem signature : ∃ sig, Signature.parse s.callee.descriptor = .ok sig ∧
    sig.params.length = (if s.sort = .call then 1 else 0) ∧ s.code.answer = sig.result ∧
      ∀ t, sig.result = some t → t.kind = .reference := by
  have answer := s.code.answer_eq
  rcases Config.descriptor_of_suspends s.classified s.suspends with ⟨sort, own⟩ | ⟨other, own⟩
  · rw [if_pos sort] at answer ⊢
    obtain ⟨sig, t, parsed, params, result, reference⟩ := Plan.answerType_eq_ok answer
    rw [W.made.config_eq] at parsed
    exact ⟨sig, own ▸ parsed, by rw [params]; rfl, result, reference⟩
  · have pauses : Signature.parse Config.pauseDescriptor = .ok ⟨[], none⟩ := eq_ok_of_toOption (by decide +kernel)
    rw [if_neg other] at answer ⊢
    exact ⟨_, own ▸ pauses, rfl, (Except.ok.inj answer).symm, fun _ ht => by cases ht⟩

end Suspends

/-- The front up to the start of the method. -/
theorem front_eq : ∃ sig, W.method.signature = .ok sig ∧ W.front = W.plan.obtaining ++ W.plan.dispatch ++
    .label W.plan.start :: W.plan.recordParams W.plan.method.receiverSlots sig.params := by
  obtain ⟨sig, parsed, -, front⟩ := Plan.prologue_eq_ok W.opened
  rw [W.made.method_eq] at parsed
  exact ⟨sig, parsed, front⟩

theorem label_start : W.stream[(W.plan.obtaining ++ W.plan.dispatch).length]? = some (.label W.plan.start) := by
  obtain ⟨sig, -, front⟩ := W.front_eq
  have stands := W.stands_front
  rw [front] at stands
  have here := stands.right.head
  rwa [Nat.zero_add] at here

/-! ## Where suspendable code leads -/

/-- The labels of the method are defined in suspendable code. -/
theorem mem_definedLabels_of_original {l : Label} (hl : l ∈ definedLabels W.instrs) : l ∈ definedLabels W.stream := by
  obtain ⟨q, hq⟩ := List.mem_iff_getElem?.1 (mem_definedLabels.1 hl)
  obtain ⟨check, hp⟩ := exists_piece_label hq
  exact mem_definedLabels.2 (List.mem_of_getElem? (getElem?_placeOf_add (k := 0) (by rw [hp]; rfl)))

/-- The labels that suspendable code goes to are defined. -/
theorem mem_definedLabels_of_targets {ins : Instr} (hi : ins ∈ W.stream) {l : Label} (hl : l ∈ ins.targets) :
    l ∈ definedLabels W.stream := by
  obtain ⟨opening, mirrored, composed⟩ := W.composed
  have sorts := composed.mem_cases (Q := fun _ _ => True) (fun _ _ _ => trivial) (fun _ _ _ => trivial)
    (fun _ _ _ _ => trivial) (fun _ _ _ _ => trivial) hi
  rcases sorts with old | put | ⟨l, rfl⟩
  · obtain ⟨g, hg⟩ := W.exists_graph
    exact mem_definedLabels_of_original (Graph.targets_of_build hg old hl)
  · cases put with
    | dispatch some =>
      rcases List.mem_append.1 hl with hl | hl
      · obtain ⟨k, hk⟩ := List.mem_iff_getElem?.1 hl
        obtain ⟨i, s, rfl⟩ := exists_of_resumption hk
        exact mem_definedLabels.2 (List.mem_of_getElem? s.label)
      · obtain rfl := List.mem_singleton.1 hl
        exact mem_definedLabels.2 (List.mem_of_getElem? label_start)
    | letThrough drawn handles =>
      obtain rfl := List.mem_singleton.1 hl
      have last : .label l ∈ W.plan.epilogue := by
        rw [Plan.epilogue_of_handles drawn handles]
        exact List.mem_cons_self
      exact mem_definedLabels.2 (List.mem_append_right _ last)
    | plain slots targets mark =>
      rw [targets] at hl
      cases hl
    | _ => cases hl
  · cases hl

/-- Suspendable code of a method without handlers has a graph. -/
theorem exists_graph_again (regions : W.method.code.regions = []) :
    ∃ g, Graph.build W.className W.result W.config = .ok g := by
  obtain ⟨g, hg⟩ := W.exists_graph
  refine Graph.exists_build regions nodup_definedLabels (fun ins hi => ?_) fun ins hi l hl =>
    mem_definedLabels_of_targets hi hl
  rcases W.mem_stream hi with ⟨old, -⟩ | put
  · exact Graph.exists_effect_of_build hg old
  · exact put.exists_effect

/-- An instruction of the method leads on, or to the pieces of what it led to. -/
theorem leads_original {ins : Instr} (hi : W.instrs[i]? = some ins) {place j : Nat} {kind : EdgeKind}
    (leads : ins.Leads W.result place kind j) (regular : kind ≠ .exception) :
    kind = .fallthrough ∧ ins.fallsThrough = true ∧ j = place + 1 ∨
      ∃ q, ins.Leads W.method i kind q ∧ q < W.instrs.length ∧ j = W.placeOf q := by
  cases leads with
  | on falls => exact .inl ⟨rfl, falls, rfl⟩
  | jump mem target =>
    obtain ⟨g, hg⟩ := W.exists_graph
    have defined := Graph.targets_of_build hg (List.mem_of_getElem? hi) mem
    obtain ⟨q, hq⟩ := List.mem_iff_getElem?.1 (mem_definedLabels.1 defined)
    have own : W.method.code.target? _ = some (0 + q) := lastDefinition_eq_some (Graph.nodup_of_build hg) hq 0
    rw [Nat.zero_add] at own
    obtain ⟨check, hp⟩ := exists_piece_label hq
    have moved := target?_eq (getElem?_placeOf_add (k := 0) (by rw [hp]; rfl))
    exact .inr ⟨q, .jump mem own, (List.getElem?_eq_some_iff.1 hq).1, Option.some.inj (target.symm.trans moved)⟩
  | caught => exact absurd rfl regular

end Weaving

end Suspension
