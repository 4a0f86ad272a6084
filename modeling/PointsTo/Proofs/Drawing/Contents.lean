import Mathlib.Data.List.Nodup
import PointsTo.Proofs.Result.Answers
import PointsTo.Proofs.Solver.Safety
import PointsTo.Views

/-! What the views of a result show. The view of calls passes over an edge whose call site is placed
nowhere, and takes its nodes and the ends of its edges from different places; yet it has every call edge,
between nodes of its own. The view of flow has the edges of the flow graph and just the cells at their
ends. -/

namespace PointsTo

namespace Dot.Graph

variable (g : Graph)

def ids : List Nat := g.nodes.map (·.id)

/-- The two ends of each edge. -/
def ends : List (Nat × Nat) := g.edges.map fun e => (e.source, e.target)

end Dot.Graph

namespace Result

section Shown

variable (r : Result)

/-- The drawn edge is the call edge, and starts where its call site is placed. -/
structure DrawsCall (d : Dot.Edge) (e : QCallEdge) : Prop where
  kind : d.kind = .call e.kind
  label : d.label = r.qcallText e.site
  source : ∃ x, r.state.calls.container? e.site = some x ∧ d.source = x.index
  target : d.target = e.callee.index

/-- The view of calls has each call edge, in order, and each reachable method. -/
structure ShowsCalls : Prop where
  edges : List.Forall₂ r.DrawsCall r.callView.edges r.state.calls.edges.toList
  ends : ∀ d ∈ r.callView.edges, d.source ∈ r.callView.ids ∧ d.target ∈ r.callView.ids
  nodes : ∀ n, n ∈ r.callView.nodes ↔ ∃ x, r.state.calls.contains x = true ∧ n = ⟨r.qmethodText x, x.index⟩
  distinct : r.callView.ids.Nodup

/-- The view of flow has each flow edge once, and each cell at the end of one. -/
structure ShowsFlow : Prop where
  edges : ∀ x y : CellId, (x.index, y.index) ∈ r.flowView.ends ↔ r.state.flow.hasEdge x y = true
  once : r.flowView.ends.Nodup
  counted : r.flowView.edges.length = r.state.flow.numEdges
  nodes : ∀ i, i ∈ r.flowView.ids ↔ ∃ d ∈ r.flowView.edges, d.source = i ∨ d.target = i
  distinct : r.flowView.ids.Nodup
  size : r.flowView.nodes.length = r.state.flow.nodes.size

end Shown

variable {r : Result}

/-! ### Flow -/

theorem ids_flowView : r.flowView.ids = r.flowNodes.map Id.index := by
  rw [Dot.Graph.ids, flowView, List.map_map]
  rfl

theorem ends_flowView : r.flowView.ends = r.state.flow.edges.map (Prod.map Id.index Id.index) := by
  rw [Dot.Graph.ends, flowView, List.map_map]
  rfl

theorem mem_flowNodes {c : CellId} : c ∈ r.flowNodes ↔ c ∈ r.state.flow.nodes := by
  rw [flowNodes, FlowGraph.nodes, Numbering.mem_toList_ofList, IdSet.mem_ofList]

theorem mem_ids_flowView {i : Nat} :
    i ∈ r.flowView.ids ↔ ∃ d ∈ r.flowView.edges, d.source = i ∨ d.target = i := by
  rw [ids_flowView, List.mem_map]
  constructor
  · rintro ⟨c, hc, rfl⟩
    obtain ⟨f, hf, hend⟩ := List.mem_flatMap.1 (Numbering.mem_toList_ofList.1 hc)
    refine ⟨_, List.mem_map_of_mem hf, ?_⟩
    rcases List.mem_pair.1 hend with rfl | rfl
    · exact Or.inl rfl
    · exact Or.inr rfl
  · rintro ⟨d, hd, hend⟩
    obtain ⟨f, hf, rfl⟩ := List.mem_map.1 hd
    have hnode : ∀ c ∈ [f.1, f.2], c ∈ r.flowNodes := fun c hc =>
      Numbering.mem_toList_ofList.2 (List.mem_flatMap.2 ⟨f, hf, hc⟩)
    rcases hend with rfl | rfl
    · exact ⟨f.1, hnode _ List.mem_cons_self, rfl⟩
    · exact ⟨f.2, hnode _ (List.mem_cons_of_mem _ List.mem_cons_self), rfl⟩

theorem showsFlow (r : Result) : r.ShowsFlow where
  edges x y := by
    rw [ends_flowView, ← FlowGraph.mem_edges, ← Prod.map_apply]
    exact List.mem_map_of_injective (Id.index_injective.prodMap Id.index_injective)
  once := by
    rw [ends_flowView]
    exact r.state.flow.nodup_edges.map (Id.index_injective.prodMap Id.index_injective)
  counted := by rw [flowView, List.length_map, FlowGraph.numEdges_eq, FlowGraph.edges]
  nodes i := mem_ids_flowView
  distinct := by
    rw [ids_flowView]
    exact (Numbering.nodup_toList _).map Id.index_injective
  size := by
    rw [flowView, List.length_map, IdSet.size_eq_length]
    refine ((List.perm_ext_iff_of_nodup (Numbering.nodup_toList _) (IdSet.nodup_toList _)).2 ?_).length_eq
    intro c
    rw [IdSet.mem_toList]
    exact mem_flowNodes

/-! ### Calls -/

theorem forall₂_filterMap {α β : Type} {f : α → Option β} {R : β → α → Prop} {l : List α}
    (h : ∀ a ∈ l, ∃ b, f a = some b ∧ R b a) : List.Forall₂ R (l.filterMap f) l := by
  induction l with
  | nil => exact .nil
  | cons a l ih =>
    obtain ⟨ha, hl⟩ := List.forall_mem_cons.1 h
    obtain ⟨b, hb, hab⟩ := ha
    rw [List.filterMap_cons_some hb]
    exact .cons hab (ih hl)

theorem showsCalls (hlinked : ∀ e ∈ r.state.calls.edges.toList, e.callee ∈ r.state.calls.reachable.toList)
    (hplaced : ∀ e ∈ r.state.calls.edges.toList,
      ∃ x ∈ r.state.calls.reachable.toList, r.state.calls.container? e.site = some x) :
    r.ShowsCalls where
  edges := by
    rw [callView]
    apply forall₂_filterMap
    intro e he
    obtain ⟨x, -, hx⟩ := hplaced e he
    rw [hx]
    exact ⟨_, rfl, rfl, rfl, ⟨x, hx, rfl⟩, rfl⟩
  ends d hd := by
    have hid : ∀ x ∈ r.state.calls.reachable.toList, x.index ∈ r.callView.ids := by
      intro x hx
      exact List.mem_map.2 ⟨_, List.mem_map_of_mem hx, rfl⟩
    obtain ⟨e, he, hd⟩ := List.mem_filterMap.1 hd
    obtain ⟨x, hx, hplace⟩ := hplaced e he
    rw [hplace] at hd
    obtain rfl := Option.some.inj hd
    exact ⟨hid x hx, hid e.callee (hlinked e he)⟩
  nodes n := by
    rw [callView, List.mem_map]
    simp only [CallGraph.contains, Numbering.contains_iff, eq_comm (a := n)]
  distinct := by
    rw [Dot.Graph.ids, callView, List.map_map]
    exact (Numbering.nodup_toList _).map Id.index_injective

end Result

namespace Analysis

variable {a : Analysis} {order : WorkOrder} {limit : Option Nat} {r : Result}

/-- The views of a finished analysis show all of its call graph and all of its flow graph, and nothing
else. -/
theorem views_complete (hp : a.program.Accepted) (h : a.result order limit = .ok r) :
    r.ShowsCalls ∧ r.ShowsFlow := by
  obtain ⟨hsolve, -⟩ := result_eq_ok h
  refine ⟨Result.showsCalls (fun e he => ?_) (fun e he => ?_), r.showsFlow⟩
  · exact reachable_callee hp hsolve he
  · exact exists_reachable_container hp hsolve he

/-- The object and the argument flow into the method, and from there into the result. -/
theorem views_complete_identity : ∃ r, identity.result .lifo none = .ok r ∧
    r.callView.edges.length = 1 ∧ r.callView.ids = [0, 1] ∧ r.flowView.ends = [(0, 2), (2, 3)] ∧
    r.ShowsCalls ∧ r.ShowsFlow := by
  obtain ⟨r, hr, hsizes⟩ := exists_ok_of_any (e := identity.result .lifo none)
    (f := fun r => decide (r.callView.edges.length = 1 ∧ r.callView.ids = [0, 1] ∧
      r.flowView.ends = [(0, 2), (2, 3)])) (by decide +kernel)
  obtain ⟨hedges, hids, hends⟩ := decide_eq_true_iff.1 hsizes
  exact ⟨r, hr, hedges, hids, hends, views_complete (a := identity) Program.accepted_identity hr⟩

end Analysis

end PointsTo
