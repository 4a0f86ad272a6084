import PointsTo.Proofs.Program.HierarchyCalls
import PointsTo.Proofs.Variants.CorrespondingBodies
import PointsTo.Proofs.Variants.Embedding
import PointsTo.Proofs.Variants.Undoing
import PointsTo.Proofs.Variants.Validity

/-! Corresponding programs. If the bodies of two models correspond, the one model makes a program without
fault if the other does. Each of the programs is embedded in the other, so their facts correspond, and so do
their call graphs of the hierarchy. -/

namespace PointsTo

namespace Relabeling

/-- The second graph is the first one in the numbers of the other program. -/
structure CarriesGraph (ρ : Relabeling) (g g' : CallGraph CallId MethodId) : Prop where
  entries : ∀ y, y ∈ g'.entries.toList ↔ ∃ x ∈ g.entries.toList, ρ.method x = y
  reachable : ∀ y, y ∈ g'.reachable.toList ↔ ∃ x ∈ g.reachable.toList, ρ.method x = y
  edges : ∀ e, e ∈ g'.edges.toList ↔ ∃ f ∈ g.edges.toList, ρ.plainEdge f = e

namespace KeepsBodies

variable {ρ : Relabeling} {place : MethodId → Equiv.Perm Nat} {m n : Model}
  (h : ρ.KeepsBodies place m n)

include h

/-! ### Bodies -/

theorem mem_body_iff {x : MethodId} (hx : m.IsMethod x) {t : Stmt} :
    t ∈ (n.method (ρ.method x)).body ↔ ∃ s ∈ (m.method x).body, ρ.stmt s = t := by
  simp only [Array.mem_iff_getElem?]
  constructor
  · intro hexists
    obtain ⟨j, hj⟩ := hexists
    obtain ⟨k, rfl⟩ := (place x).surjective j
    rw [h.body x hx] at hj
    obtain ⟨s, hs, rfl⟩ := Option.map_eq_some_iff.1 hj
    exact ⟨s, ⟨k, hs⟩, rfl⟩
  · rintro ⟨s, ⟨k, hs⟩, rfl⟩
    refine ⟨place x k, ?_⟩
    rw [h.body x hx, hs]
    rfl

variable (hm : m.Scoped) {x : MethodId}

include hm

theorem callee?_call {i : CallId} (hi : m.IsCall i) (receiver : Option ClassId) :
    n.callee? (receiver.map ρ.cls) (n.call (ρ.call i)) =
      (m.callee? receiver (m.call i)).map ρ.method := by
  have hcall := (h.call i hi).2
  exact h.toKeepsMethods.callee? hm hcall.kind hcall.cls hcall.subsignature receiver

/-! ### Faults -/

omit hm in
theorem agrees (hx : m.IsMethod x) :
    ρ.Agrees (Program.ofModel m x) (Program.ofModel n (ρ.method x)) where
  entry := rfl
  isStatic_entry := h.isStatic x hx
  isAbstract_entry := h.isAbstract x hx
  var v hv := (h.var v hv).2
  isStatic f hf := (h.field f hf).2
  params y hy := by
    have hlength := congrArg List.length (h.params y hy)
    rwa [List.length_map, Array.length_toList, Array.length_toList] at hlength

variable (hn : n.Scoped)

include hn

theorem matchesCall {i : CallId} (hi : m.IsCall i) :
    ρ.MatchesCall (Program.ofModel m x) (Program.ofModel n (ρ.method x)) i := by
  have hcall := (h.call i hi).2
  exact {
    hcall with
    callee := fun receiver _ => h.callee?_call hm hi receiver
    candidates := fun y hy => h.toKeepsMethods.exists_candidate hm hcall.cls hcall.subsignature hn
      (hm.call hi).cls hy }

/-- No fault comes with other numbers. -/
theorem fault?_eq_none (hp : (Program.ofModel m x).Accepted)
    (hmethods : ∀ y, n.IsMethod y → ∃ x, m.IsMethod x ∧ ρ.method x = y) :
    (Program.ofModel n (ρ.method x)).fault? = none := by
  apply (h.agrees hp.isMethod_entry).fault?_eq_none hp
  intro y t ht
  obtain ⟨z, hz, rfl⟩ := hmethods y (Model.isMethod_of_mem_body ht)
  obtain ⟨s, hs, rfl⟩ := (h.mem_body_iff hz).1 ht
  have hknows := (hm.method hz).body s hs
  refine ⟨z, s, hs, rfl, rfl, ?_, ?_⟩
  · rintro i rfl
    exact (h.site i hknows).2.lhs
  · rintro i rfl
    exact h.matchesCall hm hn hknows

end KeepsBodies

/-! ### Facts -/

section Programs

variable {ρ : Relabeling} {place : MethodId → Equiv.Perm Nat} {p q : Program}
  (h : ρ.KeepsBodies place p.toModel q.toModel) (hentry : ρ.method p.entry = q.entry) (hp : p.Accepted)
  (hq : q.Accepted)

include h hentry hp hq

theorem KeepsBodies.embeds : ρ.Embeds p q where
  entry := hentry
  var v hv := (h.var v hv).2
  lhs i hi := (h.site i hi).2.lhs
  object heap i hi := by
    obtain ⟨-, -, hcls, hcontainer, -⟩ := h.site i hi
    have howner := (h.method _ (hp.scope.site hi).container).2
    cases heap with
    | allocationSite =>
      show HeapObject.mk (.site (ρ.site i)) (q.site (ρ.site i)).cls
        (some (q.method (q.site (ρ.site i)).container).owner) = _
      rw [hcls, hcontainer, howner]
      rfl
    | type =>
      show HeapObject.mk (.merged (q.site (ρ.site i)).cls) (q.site (ρ.site i)).cls none = _
      rw [hcls]
      rfl
  kind i hi := (h.call i hi).2.kind
  receiver i hi := (h.call i hi).2.receiver
  args i hi := (h.call i hi).2.args
  result i hi := (h.call i hi).2.result
  callee i hi receiver _ x hx := by
    rw [h.callee?_call hp.scope hi, hx]
    rfl
  this := h.this
  params := h.params
  returns x hx v hv :=
    hq.mem_returns ((h.mem_body_iff hx).2 ⟨_, (hp.owned.methods x hx).returns v hv, rfl⟩)
  body x hx s hs := (h.mem_body_iff hx).2 ⟨s, hs, rfl⟩

/-! ### The call graph of the hierarchy -/

omit hentry hp hq in
theorem KeepsBodies.mem_callsIn_iff {x : MethodId} (hx : p.IsMethod x) {j : CallId} :
    j ∈ q.callsIn (ρ.method x) ↔ ∃ i ∈ p.callsIn x, ρ.call i = j := by
  rw [Program.mem_callsIn, h.mem_body_iff hx]
  constructor
  · intro hexists
    obtain ⟨s, hs, heq⟩ := hexists
    cases s with
    | invoke i => exact ⟨i, Program.mem_callsIn.2 hs, Stmt.invoke.inj heq⟩
    | _ => cases heq
  · rintro ⟨i, hi, rfl⟩
    exact ⟨_, Program.mem_callsIn.1 hi, rfl⟩

omit hentry in
theorem KeepsBodies.mem_hierarchyCallees_iff {i : CallId} (hi : p.IsCall i) {y : MethodId} :
    y ∈ q.hierarchyCallees (q.call (ρ.call i)) ↔
      ∃ x ∈ p.hierarchyCallees (p.call i), ρ.method x = y := by
  have hcall := (h.call i hi).2
  rw [hp.eq_ofModel, hq.eq_ofModel]
  exact h.toKeepsMethods.mem_hierarchyCallees_iff hp.scope hcall.kind hcall.cls hcall.subsignature hq.scope
    (hp.scope.call hi).cls

theorem KeepsBodies.mem_hierarchyReachable_iff {y : MethodId} :
    y ∈ q.hierarchyReachable ↔ ∃ x ∈ p.hierarchyReachable, p.IsMethod x ∧ ρ.method x = y := by
  simp only [hp.mem_hierarchyReachable_iff, hq.mem_hierarchyReachable_iff]
  constructor
  · intro hy
    induction hy with
    | refl => exact ⟨p.entry, .refl, hp.isMethod_entry, hentry⟩
    | tail _ hstep ih =>
      obtain ⟨x, hx, hmethod, rfl⟩ := ih
      obtain ⟨j, hj, hcallee⟩ := hstep
      obtain ⟨i, hi, rfl⟩ := (h.mem_callsIn_iff hmethod).1 (Program.mem_callsIn.2 hj)
      obtain ⟨z, hz, rfl⟩ := (h.mem_hierarchyCallees_iff hp hq
        (hp.isCall_of_mem_body (Program.mem_callsIn.1 hi))).1 hcallee
      exact ⟨z, hx.tail ⟨i, Program.mem_callsIn.1 hi, hz⟩, hp.isMethod_of_mem_hierarchyCallees hz, rfl⟩
  · rintro ⟨x, hx, -, rfl⟩
    induction hx with
    | refl => exact hentry ▸ .refl
    | tail _ hstep ih =>
      obtain ⟨i, hi, hcallee⟩ := hstep
      have hmem := (h.mem_callsIn_iff (Model.isMethod_of_mem_body hi)).2
        ⟨i, Program.mem_callsIn.2 hi, rfl⟩
      exact ih.tail ⟨ρ.call i, Program.mem_callsIn.1 hmem,
        (h.mem_hierarchyCallees_iff hp hq (hp.isCall_of_mem_body hi)).2 ⟨_, hcallee, rfl⟩⟩

omit h hentry hp hq in
theorem mem_entries_hierarchyCallGraph {x : MethodId} :
    x ∈ p.hierarchyCallGraph.entries.toList ↔ x = p.entry := by
  have hcalls : ∀ x (g : CallGraph CallId MethodId) i, (p.addHierarchyCalls x g i).entries = g.entries := by
    intro x g i
    rw [Program.addHierarchyCalls]
    exact foldl_preserves (fun _ _ => CallGraph.entries_addEdge) _ _
  have hmethods : p.hierarchyCallGraph.entries =
      ((CallGraph.empty : CallGraph CallId MethodId).addEntry p.entry).entries := by
    rw [Program.hierarchyCallGraph]
    exact foldl_preserves (fun g x => foldl_preserves (hcalls x) _ (g.addReachable x)) _ _
  rw [hmethods]
  simp [CallGraph.addEntry, CallGraph.empty, Numbering.mem_toList_insert]

theorem KeepsBodies.carriesGraph : ρ.CarriesGraph p.hierarchyCallGraph q.hierarchyCallGraph where
  entries y := by
    simp only [mem_entries_hierarchyCallGraph, exists_eq_left, hentry, eq_comm]
  reachable y := by
    rw [Program.Accepted.mem_reachable_hierarchyCallGraph, h.mem_hierarchyReachable_iff hentry hp hq]
    simp only [Program.Accepted.mem_reachable_hierarchyCallGraph]
    constructor
    · rintro ⟨x, hx, -, heq⟩
      exact ⟨x, hx, heq⟩
    · rintro ⟨x, hx, heq⟩
      exact ⟨x, hx, hp.isMethod_of_mem_hierarchyReachable hx, heq⟩
  edges e := by
    rw [hq.records_hierarchyCallGraph.edges]
    constructor
    · obtain ⟨kind, site, callee⟩ := e
      rintro ⟨hkind, ⟨y, hy, hcall⟩, hcallee⟩
      obtain ⟨x, hx, hmethod, rfl⟩ := (h.mem_hierarchyReachable_iff hentry hp hq).1 hy
      obtain ⟨i, hi, rfl⟩ := (h.mem_callsIn_iff hmethod).1 hcall
      have hknown := hp.isCall_of_mem_body (Program.mem_callsIn.1 hi)
      obtain ⟨z, hz, rfl⟩ := (h.mem_hierarchyCallees_iff hp hq hknown).1 hcallee
      refine ⟨⟨(p.call i).kind, i, z⟩, ?_, ?_⟩
      · exact (hp.records_hierarchyCallGraph.edges _).2 ⟨rfl, ⟨x, hx, hi⟩, hz⟩
      · rw [plainEdge, ← (h.call i hknown).2.kind]
        exact congrArg (CallEdge.mk · _ _) hkind.symm
    · rintro ⟨f, hf, rfl⟩
      obtain ⟨hkind, ⟨x, hx, hi⟩, hcallee⟩ := (hp.records_hierarchyCallGraph.edges f).1 hf
      have hmem := Program.mem_callsIn.1 hi
      have hmethod := Model.isMethod_of_mem_body hmem
      have hknown := hp.isCall_of_mem_body hmem
      refine ⟨hkind.trans (h.call _ hknown).2.kind.symm, ⟨ρ.method x, ?_, ?_⟩, ?_⟩
      · exact (h.mem_hierarchyReachable_iff hentry hp hq).2 ⟨x, hx, hmethod, rfl⟩
      · exact (h.mem_callsIn_iff hmethod).2 ⟨_, hi, rfl⟩
      · exact (h.mem_hierarchyCallees_iff hp hq hknown).2 ⟨_, hcallee, rfl⟩

end Programs

end Relabeling

/-! ### Results -/

namespace Analysis

variable {a : Analysis} {r : Result}

theorem Finishes.facts_le_possibleFacts (hp : a.program.Accepted) (hr : a.Finishes r) :
    r.state.facts ≤ a.possibleFacts := (hr.isLeast hp.indexed).2 (closed_possibleFacts hp)

/-- The methods with a body that are not reachable. -/
theorem Finishes.mem_unreachableMethods_iff (hr : a.Finishes r) {x : MethodId} :
    x ∈ r.unreachableMethods ↔ a.program.IsMethod x ∧ (a.program.method x).isAbstract = false ∧
      x ∉ r.answers.reachable := by
  have hprogram : r.program = a.program := by
    obtain ⟨order, limit, hresult⟩ := hr
    exact (congrArg Result.program (result_eq_ok hresult).2 :)
  have hcontains : r.callGraph.contains x = true ↔ x ∈ r.answers.reachable := Numbering.contains_iff
  rw [Result.unreachableMethods, hprogram, List.mem_filter, Model.methodIds, Id.mem_upTo, ← hcontains]
  simp [Model.IsMethod]

end Analysis

namespace Relabeling

variable {ρ ρ' : Relabeling} {place place' : MethodId → Equiv.Perm Nat} {p q : Program}
  (h : ρ.KeepsBodies place p.toModel q.toModel) (h' : ρ'.KeepsBodies place' q.toModel p.toModel)
  (hundone : ρ.UndoneBy ρ' p.toModel) (hundoes : ρ'.UndoneBy ρ q.toModel)
  (hentry : ρ.method p.entry = q.entry) (hp : p.Accepted) (hq : q.Accepted) {σ : Selector}
  {heap : HeapModel} {r r' : Result} (hr : (⟨p, σ, heap⟩ : Analysis).Finishes r)
  (hr' : (⟨q, σ, heap⟩ : Analysis).Finishes r')

include h h' hundone hundoes hentry hp hq hr hr'

theorem facts_eq_image : r'.state.facts = ρ.image r.state.facts := by
  have hentry' : ρ'.method q.entry = p.entry := by rw [← hentry, hundone.method _ hp.isMethod_entry]
  have hthere := (h.embeds hentry hp hq).le_preimage hp (hr.isLeast hp.indexed)
    (hr'.isLeast hq.indexed).1
  have hback := (h'.embeds hentry' hq hp).le_preimage hq (hr'.isLeast hq.indexed)
    (hr.isLeast hp.indexed).1
  apply le_antisymm
  · exact UndoneBy.le_image (a := ⟨q, σ, heap⟩) hundoes (hr'.facts_le_possibleFacts hq) hback
  · exact le_preimage_iff.1 hthere

theorem carries_answers : ρ.Carries ⟨p, σ, heap⟩ r.answers r'.answers := by
  rw [hr.answers_eq_facts hp.indexed, hr'.answers_eq_facts hq.indexed,
    facts_eq_image h h' hundone hundoes hentry hp hq hr hr']
  exact UndoneBy.carries (a := ⟨p, σ, heap⟩) hundone (hr.facts_le_possibleFacts hp) hentry

theorem mem_unreachableMethods_iff {y : MethodId} :
    y ∈ r'.unreachableMethods ↔ ∃ x ∈ r.unreachableMethods, ρ.method x = y := by
  have hreachable := (carries_answers h h' hundone hundoes hentry hp hq hr hr').reachable
  have hmethod : ∀ x ∈ r.answers.reachable, p.IsMethod x := by
    intro x hx
    rw [hr.answers_eq_facts hp.indexed] at hx
    obtain ⟨k, hk⟩ := hx
    exact ((hr.facts_le_possibleFacts hp).1 hk).2
  have hiff : ∀ x, p.IsMethod x → (ρ.method x ∈ r'.answers.reachable ↔ x ∈ r.answers.reachable) := by
    intro x hx
    rw [hreachable]
    constructor
    · rintro ⟨z, hz, heq⟩
      have hzx : z = x := by rw [← hundone.method x hx, ← heq, hundone.method z (hmethod z hz)]
      exact hzx ▸ hz
    · exact fun hmem => ⟨x, hmem, rfl⟩
  simp only [hr.mem_unreachableMethods_iff, hr'.mem_unreachableMethods_iff]
  constructor
  · rintro ⟨hy, habstract, hnot⟩
    obtain ⟨x, hx, rfl⟩ : ∃ x, p.IsMethod x ∧ ρ.method x = y :=
      ⟨_, (h'.method y hy).1, hundoes.method y hy⟩
    refine ⟨x, ⟨hx, ?_, fun hmem => hnot ((hiff x hx).2 hmem)⟩, rfl⟩
    rw [← h.isAbstract x hx]
    exact habstract
  · rintro ⟨x, ⟨hx, habstract, hnot⟩, rfl⟩
    refine ⟨(h.method x hx).1, ?_, fun hmem => hnot ((hiff x hx).1 hmem)⟩
    rw [h.isAbstract x hx]
    exact habstract

end Relabeling

end PointsTo
