import PointsTo.Proofs.Facts
import PointsTo.Proofs.Program.Callees

/-! Possible facts. The contexts that a selector can choose are of bounded length and made of call
sites, objects and types of the program. The facts that speak of nothing else than methods, calls,
objects and places under such contexts are closed. -/

namespace PointsTo

namespace Analysis

variable (a : Analysis)

/-! ### Contexts -/

/-- What contexts can be made of. -/
def contextElems : Set (ContextElemOf HeapObject) :=
  {e | ∃ i, a.program.IsCall i ∧ .callSite i = e} ∪
    {e | ∃ s, a.program.IsSite s ∧ .object (a.heap.object a.program.toModel s) = e} ∪
    {e | ∃ s, a.program.IsSite s ∧
      .type ((a.heap.object a.program.toModel s).container.getD
        (a.heap.object a.program.toModel s).type) = e}

/-- How long contexts can get. -/
def contextBound : Nat :=
  match a.selector with
  | .insensitive => 0
  | .callString k h | .object k h | .type k h => max k h

def possibleContexts : Set (ContextOf HeapObject) :=
  {c | c.elems.length ≤ a.contextBound ∧ ∀ e ∈ c.elems, e ∈ a.contextElems}

def possibleObjects : Set (Located HeapObject) :=
  {o | o.context ∈ a.possibleContexts ∧
    ∃ s, a.program.IsSite s ∧ a.heap.object a.program.toModel s = o.item}

def possiblePlaces : Set Place :=
  {p | match p with
    | .var c v => c ∈ a.possibleContexts ∧ a.program.IsVar v
    | .field o f => o ∈ a.possibleObjects ∧ a.program.IsField f
    | .static f => a.program.IsField f
    | .elements o => o ∈ a.possibleObjects}

/-- All that can be said of the program with these contexts. -/
def possibleFacts : Facts where
  reach := {x | x.context ∈ a.possibleContexts ∧ a.program.IsMethod x.item}
  calls := {e | e.kind = (a.program.call e.site.item).kind ∧
    (e.site.context ∈ a.possibleContexts ∧ a.program.IsCall e.site.item) ∧
      e.callee.context ∈ a.possibleContexts ∧ a.program.IsMethod e.callee.item}
  flow := {f | f.1 ∈ a.possiblePlaces ∧ f.2 ∈ a.possiblePlaces}
  pointsTo := {f | f.1 ∈ a.possiblePlaces ∧ f.2 ∈ a.possibleObjects}

variable {a}

theorem empty_mem_possibleContexts : .empty ∈ a.possibleContexts :=
  ⟨Nat.zero_le _, fun _ he => absurd he List.not_mem_nil⟩

theorem heapContext_mem_possibleContexts {c : ContextOf HeapObject} (hc : c ∈ a.possibleContexts) :
    a.selector.heapContext c ∈ a.possibleContexts := by
  refine ⟨?_, fun e he => hc.2 e (Selector.mem_of_mem_heapContext he)⟩
  rw [contextBound]
  cases a.selector with
  | insensitive => exact Nat.zero_le _
  | callString k h | object k h | type k h =>
    exact Nat.le_trans (ContextOf.length_last_le c h) (Nat.le_max_right k h)

theorem append_mem_possibleContexts {c : ContextOf HeapObject} (hc : c ∈ a.possibleContexts)
    {e : ContextElemOf HeapObject} (he : e ∈ a.contextElems) {k : Nat} (hk : k ≤ a.contextBound) :
    c.append e k ∈ a.possibleContexts := by
  refine ⟨Nat.le_trans (ContextOf.length_last_le _ k) hk, fun d hd => ?_⟩
  rcases ContextOf.mem_of_mem_append hd with hd | rfl
  · exact hc.2 d hd
  · exact he

theorem calleeContext_mem_possibleContexts {c : ContextOf HeapObject} (hc : c ∈ a.possibleContexts)
    {i : CallId} (hi : a.program.IsCall i) (receiver : Option (Located HeapObject))
    (hreceiver : ∀ o ∈ receiver, o ∈ a.possibleObjects) :
    a.selector.calleeContext c i (receiver.map fun o => ⟨o.context, o.item, o.item⟩) ∈
      a.possibleContexts := by
  have hbound : ∀ k h, max k h = a.contextBound → k ≤ a.contextBound :=
    fun k h heq => heq ▸ Nat.le_max_left k h
  cases hselector : a.selector with
  | insensitive => exact empty_mem_possibleContexts
  | callString k h =>
    exact append_mem_possibleContexts hc (Or.inl (Or.inl ⟨i, hi, rfl⟩))
      (hbound k h (by rw [contextBound, hselector]))
  | object k h =>
    cases receiver with
    | none => exact hc
    | some o =>
      obtain ⟨ho, s, hs, hitem⟩ := hreceiver o rfl
      exact append_mem_possibleContexts ho (Or.inl (Or.inr ⟨s, hs, congrArg _ hitem⟩))
        (hbound k h (by rw [contextBound, hselector]))
  | type k h =>
    cases receiver with
    | none => exact hc
    | some o =>
      obtain ⟨ho, s, hs, hitem⟩ := hreceiver o rfl
      refine append_mem_possibleContexts ho (Or.inr ⟨s, hs, ?_⟩)
        (hbound k h (by rw [contextBound, hselector]))
      rw [hitem]

/-! ### Closure -/

variable (hp : a.program.Accepted)

include hp

theorem closed_possibleFacts : a.Closed a.possibleFacts where
  entry := ⟨empty_mem_possibleContexts, hp.isMethod_entry⟩
  reads x hx stmt hstmt := by
    obtain ⟨hcontext, hmethod⟩ := hx
    have hknows := (hp.scope.method hmethod).body stmt hstmt
    cases stmt with
    | new site =>
      exact ⟨⟨hcontext, (hp.scope.site hknows).lhs⟩, heapContext_mem_possibleContexts hcontext, site,
        hknows, rfl⟩
    | copy lhs rhs => exact ⟨⟨hcontext, hknows.2⟩, hcontext, hknows.1⟩
    | loadStatic lhs field => exact ⟨hknows.2, hcontext, hknows.1⟩
    | storeStatic field rhs => exact ⟨⟨hcontext, hknows.2⟩, hknows.1⟩
    | invoke i =>
      intro _ y hy
      exact ⟨rfl, ⟨hcontext, hknows⟩, calleeContext_mem_possibleContexts hcontext hknows
        none (by rintro _ ⟨⟩), Model.isMethod_of_callee? hp.scope hy⟩
    | loadField | storeField | loadArray | storeArray | ret => trivial
  meets c v o ho stmt hstmt := by
    obtain ⟨⟨hcontext, -⟩, hobject⟩ := ho
    have hknows := (hp.scope.method (Model.isMethod_of_mem_body hstmt)).body stmt hstmt
    cases stmt with
    | storeField base field rhs => exact fun _ => ⟨⟨hcontext, hknows.2.2⟩, hobject, hknows.2.1⟩
    | loadField lhs base field => exact fun _ => ⟨⟨hobject, hknows.2.2⟩, hcontext, hknows.1⟩
    | storeArray base rhs => exact fun _ => ⟨⟨hcontext, hknows.2⟩, hobject⟩
    | loadArray lhs base => exact fun _ => ⟨hobject, hcontext, hknows.1⟩
    | invoke i =>
      intro _ x hx
      have hmethod := Model.isMethod_of_callee? hp.scope hx
      have hcallee := calleeContext_mem_possibleContexts hcontext hknows
        (some o) (by rintro _ ⟨⟩; exact hobject)
      exact ⟨⟨rfl, ⟨hcontext, hknows⟩, hcallee, hmethod⟩, fun this hthis =>
        ⟨⟨hcallee, (hp.scope.method hmethod).this this hthis⟩, hobject⟩⟩
    | new | copy | loadStatic | storeStatic | ret => trivial
  wires e he := by
    obtain ⟨-, ⟨hcaller, hcall⟩, hcallee, hmethod⟩ := he
    have hknows := hp.scope.call hcall
    have hcalled := hp.scope.method hmethod
    refine ⟨⟨hcallee, hmethod⟩, fun arg param hmem => ?_, fun r hr v hv => ?_⟩
    · obtain ⟨harg, hparam⟩ := List.of_mem_zip hmem
      exact ⟨⟨hcaller, hknows.args arg harg⟩, hcallee,
        hcalled.params param (Array.mem_toList_iff.1 hparam)⟩
    · exact ⟨⟨hcallee, hcalled.returns v hv⟩, hcaller, hknows.result r hr⟩
  flows p q hpq o ho := ⟨hpq.2, ho.2⟩

/-! ### What possible facts speak of -/

omit hp in
theorem contexts_possibleFacts_subset : a.possibleFacts.contexts ⊆ a.possibleContexts := by
  rintro c (⟨x, hx, rfl⟩ | ⟨p, o, ho, rfl⟩)
  · exact hx.1
  · exact ho.2.1

omit hp in
theorem qobjects_possibleFacts_subset : a.possibleFacts.qobjects ⊆ a.possibleObjects := by
  rintro o ⟨p, hpo⟩
  exact hpo.2

theorem qmethods_possibleFacts {x : Located MethodId} (hx : x ∈ a.qmethods a.possibleFacts) :
    a.program.IsMethod x.item := by
  rcases hx with hx | ⟨e, he, rfl⟩
  · exact hx.2
  · exact (hp.scope.call he.2.1.2).container

theorem cells_possibleFacts_subset : a.cells a.possibleFacts ⊆ a.possiblePlaces := by
  rintro p (⟨q, hpq | hqp⟩ | ⟨o, ho⟩ | ⟨e, he, r, hr, rfl⟩)
  · exact hpq.1
  · exact hqp.2
  · exact ho.1
  · exact ⟨he.2.1.1, (hp.scope.call he.2.1.2).result r hr⟩

end Analysis

end PointsTo
