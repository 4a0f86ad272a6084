import PointsTo.Proofs.Precision.Abstraction

/-! Merged objects. One object for all objects of a class is an abstraction of an object for each allocation
site, inside contexts as well. The selectors that never look into objects respect it: under them the type
heap model merges what the allocation sites keep apart, and loses nothing. Type sensitivity does not
respect it, for it speaks of the class that contains an allocation site, which a merged object lacks. -/

namespace PointsTo

/-- The object that stands for all of its class. -/
def HeapObject.merge (o : HeapObject) : HeapObject := ⟨.merged o.type, o.type, none⟩

theorem HeapModel.merge_object (m : Model) (i : SiteId) :
    (allocationSite.object m i).merge = type.object m i := rfl

namespace Abstraction

theorem map_calleeContext_merge {σ : Selector} (hσ : ∀ k n, σ ≠ .type k n)
    (c : ContextOf HeapObject) (i : CallId) (d : ContextOf HeapObject) (o : HeapObject) :
    (σ.calleeContext c i (some ⟨d, o, o⟩)).map HeapObject.merge =
      σ.calleeContext (c.map HeapObject.merge) i
        (some ⟨d.map HeapObject.merge, o.merge, o.merge⟩) := by
  rw [Selector.map_calleeContext]
  cases σ with
  | insensitive | callString | object => rfl
  | type k n => exact absurd rfl (hσ k n)

def merging (p : Program) {σ : Selector} (hσ : ∀ k n, σ ≠ .type k n) :
    Abstraction p σ σ .allocationSite .type where
  object := HeapObject.merge
  method c := c.map HeapObject.merge
  heap c := c.map HeapObject.merge
  type_object _ := rfl
  object_object i := HeapModel.merge_object p.toModel i
  method_empty := rfl
  heap_heapContext c := Selector.map_heapContext _ σ c
  method_calleeContext_none c i := Selector.map_calleeContext _ σ c i none
  method_calleeContext_some := map_calleeContext_merge hσ

end Abstraction

namespace Analysis

/-- In whatever orders the two analyses have worked, the one with the type heap model has found all that
the other has, with the objects of a class merged. -/
theorem solve_merges {p : Program} (hp : p.Accepted) {σ : Selector} (hσ : ∀ k n, σ ≠ .type k n)
    {order order' : WorkOrder} {limit limit' : Option Nat} {s u : State}
    (hs : (⟨p, σ, .allocationSite⟩ : Analysis).solve order limit = .ok s)
    (hu : (⟨p, σ, .type⟩ : Analysis).solve order' limit' = .ok u) :
    (Abstraction.merging p hσ).Sends s.facts u.facts ∧
      (∀ o, s.entities.IsQObject o → ∃ o', u.entities.IsQObject o' ∧
        u.entities.qobjectAt o' = (Abstraction.merging p hσ).qobject (s.entities.qobjectAt o)) ∧
      (Result.ofState p s).answers.MapsInto HeapObject.merge (Result.ofState p u).answers := by
  have hsends := (Abstraction.merging p hσ).sends_of_isLeast (isLeast_facts hp.indexed hs)
    (isLeast_facts hp.indexed hu).1
  have hfinal := final_of_solve hp.indexed hs
  have hfinal' := final_of_solve hp.indexed hu
  refine ⟨hsends, fun o ho => ?_, ?_⟩
  · have hknown : s.entities.qobjectAt o ∈ s.facts.qobjects := by
      rw [← hfinal.image_qobjectAt]
      exact Set.mem_image_of_mem _ ho
    have hsent := hsends.qobjects _ hknown
    rw [← hfinal'.image_qobjectAt] at hsent
    obtain ⟨o', ho', heq⟩ := hsent
    exact ⟨o', ho', heq⟩
  · have hanswers : (Result.ofState p s).answers =
        (⟨p, σ, .allocationSite⟩ : Analysis).answers s.facts :=
      State.answers_ofState (a := ⟨p, σ, .allocationSite⟩) hfinal.sound hfinal.entry
    have hanswers' : (Result.ofState p u).answers = (⟨p, σ, .type⟩ : Analysis).answers u.facts :=
      State.answers_ofState (a := ⟨p, σ, .type⟩) hfinal'.sound hfinal'.entry
    rw [hanswers, hanswers']
    exact hsends.answers

/-- The small program under the receivers of its methods, in different orders. -/
theorem solve_merges_identity : ∃ s u,
    (⟨.identity, .object 1 0, .allocationSite⟩ : Analysis).solve .fifo none = .ok s ∧
      (⟨.identity, .object 1 0, .type⟩ : Analysis).solve .lifo none = .ok u ∧
      (Result.ofState .identity s).answers.MapsInto HeapObject.merge
        (Result.ofState .identity u).answers := by
  obtain ⟨s, hs⟩ := exists_eq_ok
    (e := (⟨.identity, .object 1 0, .allocationSite⟩ : Analysis).solve .fifo none) (by decide +kernel)
  obtain ⟨u, hu⟩ := exists_eq_ok
    (e := (⟨.identity, .object 1 0, .type⟩ : Analysis).solve .lifo none) (by decide +kernel)
  have hσ : ∀ k n, Selector.object 1 0 ≠ .type k n := fun _ _ h => by cases h
  exact ⟨s, u, hs, hu, (solve_merges Program.accepted_identity hσ hs hu).2.2⟩

end Analysis

end PointsTo
