import Mathlib.Data.Set.Insert
import PointsTo.CallGraph

/-! Call graphs without contexts. A call site is placed in the one method that holds it and its edges are
of the kind of its call, whichever way the graph is built. So such a graph is described by the call sites
that are placed and by the pairs of call site and callee. -/

namespace PointsTo

theorem foldl_preserves {α β γ : Type} {op : α → β → α} {f : α → γ} (h : ∀ a b, f (op a b) = f a)
    (l : List β) (a : α) : f (l.foldl op a) = f a := by
  induction l generalizing a with
  | nil => rfl
  | cons b l ih => exact (ih (op a b)).trans (h a b)

namespace CallGraph

/-- The call sites in `sites` are placed, and the edges are those between the pairs in `calls`. -/
structure Records (m : Model) (sites : Set CallId) (calls : Set (CallId × MethodId))
    (g : CallGraph CallId MethodId) : Prop where
  coherent : g.Coherent
  edges : ∀ e, e ∈ g.edges.toList ↔ e.kind = (m.call e.site).kind ∧ (e.site, e.callee) ∈ calls
  containers : ∀ i x, g.container? i = some x ↔ i ∈ sites ∧ (m.call i).container = x

namespace Records

variable {m : Model} {sites : Set CallId} {calls : Set (CallId × MethodId)}
  {g : CallGraph CallId MethodId}

theorem empty (m : Model) : (empty : CallGraph CallId MethodId).Records m ∅ ∅ where
  coherent := .empty
  edges e := by simp [CallGraph.empty]
  containers i x := by simp [CallGraph.empty, container?]

/-- Methods make no difference. -/
theorem withMethods (h : g.Records m sites calls) (entries reachable : Numbering MethodId) :
    ({ g with entries, reachable } : CallGraph CallId MethodId).Records m sites calls :=
  { h with coherent := { h.coherent with } }

theorem setContainer (h : g.Records m sites calls) (i : CallId) :
    (g.setContainer i (m.call i).container).Records m (sites ∪ {i}) calls where
  coherent := ⟨h.coherent.hasEdge_iff, h.coherent.distinct⟩
  edges := h.edges
  containers j x := by
    rw [container?_setContainer, h.containers]
    by_cases hj : i = j
    · subst hj
      simp
    · simp [hj, Ne.symm hj]

/-- An edge between a pair that has one already is of the same kind, so nothing is lost. -/
theorem addEdge (h : g.Records m sites calls) (i : CallId) (y : MethodId) :
    (g.addEdge ⟨(m.call i).kind, i, y⟩).Records m sites (calls ∪ {(i, y)}) where
  coherent := h.coherent.addEdge _
  containers j x := by rw [container?_addEdge, h.containers]
  edges e := by
    by_cases hedge : g.hasEdge i y = true
    · obtain ⟨f, hf, rfl, rfl⟩ := (h.coherent.hasEdge_iff i y).1 hedge
      have hsame : g.addEdge ⟨(m.call f.site).kind, f.site, f.callee⟩ = g := addEdge_of_hasEdge hedge
      rw [hsame, h.edges, Set.union_singleton, Set.insert_eq_of_mem ((h.edges f).1 hf).2]
    · rw [mem_edges_addEdge hedge, h.edges, Set.mem_union, Set.mem_singleton_iff]
      obtain ⟨kind, j, x⟩ := e
      simp only [CallEdge.mk.injEq, Prod.mk.injEq]
      constructor
      · rintro (⟨hkind, hmem⟩ | ⟨rfl, rfl, rfl⟩)
        · exact ⟨hkind, Or.inl hmem⟩
        · exact ⟨rfl, Or.inr ⟨rfl, rfl⟩⟩
      · rintro ⟨hkind, hmem | ⟨rfl, rfl⟩⟩
        · exact Or.inl ⟨hkind, hmem⟩
        · exact Or.inr ⟨hkind, rfl, rfl⟩

/-- Each element of a list adds what it adds to any graph. -/
theorem foldl {β : Type} {f : CallGraph CallId MethodId → β → CallGraph CallId MethodId} {l : List β}
    (sitesOf : β → Set CallId) (callsOf : β → Set (CallId × MethodId))
    (hstep : ∀ b ∈ l, ∀ {g : CallGraph CallId MethodId} {sites calls}, g.Records m sites calls →
      (f g b).Records m (sites ∪ sitesOf b) (calls ∪ callsOf b))
    (h : g.Records m sites calls) :
    (l.foldl f g).Records m (sites ∪ {i | ∃ b ∈ l, i ∈ sitesOf b})
      (calls ∪ {c | ∃ b ∈ l, c ∈ callsOf b}) := by
  induction l generalizing g sites calls with
  | nil => simpa using h
  | cons b l ih =>
    have hrest := ih (fun c hc => hstep c (List.mem_cons_of_mem b hc)) (hstep b List.mem_cons_self h)
    have hsites : sites ∪ sitesOf b ∪ {i | ∃ c ∈ l, i ∈ sitesOf c} =
        sites ∪ {i | ∃ c ∈ b :: l, i ∈ sitesOf c} := by
      ext i
      simp [or_assoc]
    have hcalls : calls ∪ callsOf b ∪ {p | ∃ c ∈ l, p ∈ callsOf c} =
        calls ∪ {p | ∃ c ∈ b :: l, p ∈ callsOf c} := by
      ext p
      simp [or_assoc]
    rwa [hsites, hcalls] at hrest

end Records

end CallGraph

end PointsTo
