import Mathlib.Data.List.Basic
import PointsTo.CallGraph

/-! The index of callers. Whatever is done to a graph, the call sites that are listed for a method are those
of the edges to it, in the order of the edges. As no two edges have the same ends, none is listed twice. -/

namespace PointsTo

namespace CallGraph

variable {S M : Type} [DecidableEq M]

/-- The call sites of the edges that lead to a method, in their order. -/
def sitesTo (edges : List (CallEdge S M)) (x : M) : List S :=
  (edges.filter fun e => e.callee = x).map CallEdge.site

theorem mem_sitesTo {edges : List (CallEdge S M)} {x : M} {s : S} :
    s ∈ sitesTo edges x ↔ ∃ e ∈ edges, e.site = s ∧ e.callee = x := by
  simp [sitesTo, and_assoc, and_comm]

theorem sitesTo_append (edges : List (CallEdge S M)) (e : CallEdge S M) (x : M) :
    sitesTo (edges ++ [e]) x = sitesTo edges x ++ if e.callee = x then [e.site] else [] := by
  rw [sitesTo, List.filter_append, List.map_append]
  by_cases h : e.callee = x
  · simp [sitesTo, h]
  · simp [sitesTo, h]

variable [Coded S] [Coded M]

/-- The index has for each method the call sites of the edges to it. -/
def ListsCallers (g : CallGraph S M) : Prop :=
  ∀ x, (g.callSites x).toList = sitesTo g.edges.toList x

variable {g : CallGraph S M}

theorem ListsCallers.empty : (empty : CallGraph S M).ListsCallers := by
  intro x
  have hnone : (∅ : Std.TreeMap M (Array S)).getD x #[] = #[] := Std.TreeMap.getD_emptyc
  simp [callSites, CallGraph.empty, sitesTo, hnone]

theorem ListsCallers.setContainer (h : g.ListsCallers) (s : S) (y : M) :
    (g.setContainer s y).ListsCallers := h

theorem ListsCallers.addEdge (h : g.ListsCallers) (e : CallEdge S M) : (g.addEdge e).ListsCallers := by
  intro x
  by_cases hedge : g.hasEdge e.site e.callee = true
  · rw [addEdge_of_hasEdge hedge]
    exact h x
  · rw [edges_addEdge hedge, Array.toList_push, sitesTo_append, callSites_addEdge hedge, ← h x]
    split
    · exact Array.toList_push
    · rw [List.append_nil]

/-- If the call site of each edge is placed, then the callers are the methods that the sites are placed in. -/
theorem ListsCallers.callers_eq (h : g.ListsCallers) {container : S → M}
    (hplaced : ∀ e ∈ g.edges.toList, g.container? e.site = some (container e.site)) (x : M) :
    g.callers x = (sitesTo g.edges.toList x).map container := by
  rw [callers, h, List.filterMap_eq_map_iff_forall_eq_some]
  intro i hi
  obtain ⟨e, he, rfl, -⟩ := mem_sitesTo.1 hi
  exact hplaced e he

/-- No two edges have the same ends. -/
theorem Coherent.nodup_sitesTo (h : g.Coherent) (x : M) : (sitesTo g.edges.toList x).Nodup := by
  rw [sitesTo, List.Nodup, List.pairwise_map, List.pairwise_filter]
  refine h.distinct.imp ?_
  intro e f hends he hf hsame
  rw [decide_eq_true_eq] at he hf
  exact hends ⟨hsame, he.trans hf.symm⟩

end CallGraph

end PointsTo
