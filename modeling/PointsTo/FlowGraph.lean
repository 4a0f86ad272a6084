import PointsTo.IdSet
import PointsTo.Numbering

/-! The pointer flow graph: an edge from one cell to another says that the second holds whatever the
first holds. -/

namespace PointsTo

namespace FlowGraph

/-- The edges that lead to the targets of each source, by source and then by insertion. -/
def edgesOf (targets : Std.TreeMap CellId (Numbering CellId)) : List (CellId × CellId) :=
  targets.toList.flatMap fun (source, targets) => targets.toList.map (source, ·)

theorem mem_edgesOf {targets : Std.TreeMap CellId (Numbering CellId)} {x y : CellId} :
    (x, y) ∈ edgesOf targets ↔ y ∈ (targets.getD x .empty).toList := by
  rw [edgesOf, List.mem_flatMap]
  constructor
  · intro hexists
    obtain ⟨⟨source, ys⟩, hmem, hy⟩ := hexists
    obtain ⟨target, htarget, heq⟩ := List.mem_map.1 hy
    obtain ⟨rfl, rfl⟩ := Prod.mk.inj heq
    have hget := Std.TreeMap.mem_toList_iff_getElem?_eq_some.1 hmem
    rw [Std.TreeMap.getD_eq_getD_getElem?, hget]
    exact htarget
  · intro h
    rw [Std.TreeMap.getD_eq_getD_getElem?] at h
    cases hget : targets[x]? with
    | none => simp [hget] at h
    | some ys =>
      rw [hget] at h
      exact ⟨(x, ys), Std.TreeMap.mem_toList_iff_getElem?_eq_some.2 hget, List.mem_map.2 ⟨y, h, rfl⟩⟩

theorem nodup_edgesOf (targets : Std.TreeMap CellId (Numbering CellId)) : (edgesOf targets).Nodup := by
  rw [List.nodup_iff_pairwise_ne, edgesOf, List.pairwise_flatMap]
  refine ⟨fun entry _ => ?_, ?_⟩
  · rw [List.pairwise_map]
    exact entry.2.nodup_toList.imp fun hne heq => hne (Prod.mk.inj heq).2
  · refine targets.distinct_keys_toList.imp ?_
    intro a b hne x hx y hy heq
    obtain ⟨_, _, rfl⟩ := List.mem_map.1 hx
    obtain ⟨_, _, rfl⟩ := List.mem_map.1 hy
    exact hne (Std.LawfulEqOrd.compare_eq_iff_eq.2 (Prod.mk.inj heq).1)

/-- One more target makes one more edge, unless the edge is there already. -/
theorem length_edgesOf_insert (targets : Std.TreeMap CellId (Numbering CellId)) (x y : CellId) :
    (edgesOf (targets.insert x ((targets.getD x .empty).insert y))).length =
      if (targets.getD x .empty).contains y then (edgesOf targets).length
      else (edgesOf targets).length + 1 := by
  have hmem : ∀ e, e ∈ edgesOf (targets.insert x ((targets.getD x .empty).insert y)) ↔
      e = (x, y) ∨ e ∈ edgesOf targets := by
    intro e
    obtain ⟨u, v⟩ := e
    simp only [mem_edgesOf, Std.TreeMap.getD_insert, Std.LawfulEqOrd.compare_eq_iff_eq, Prod.mk.injEq]
    by_cases hx : x = u
    · subst hx
      simp [or_comm]
    · simp [hx, Ne.symm hx]
  split
  · rename_i hold
    have hedge : (x, y) ∈ edgesOf targets := mem_edgesOf.2 (Numbering.contains_iff.1 hold)
    refine ((List.perm_ext_iff_of_nodup (nodup_edgesOf _) (nodup_edgesOf _)).2 fun e => ?_).length_eq
    rw [hmem, or_iff_right_of_imp]
    rintro rfl
    exact hedge
  · rename_i hnew
    have hnodup : ((x, y) :: edgesOf targets).Nodup := by
      refine List.nodup_cons.2 ⟨fun hedge => hnew ?_, nodup_edgesOf targets⟩
      exact Numbering.contains_iff.2 (mem_edgesOf.1 hedge)
    refine ((List.perm_ext_iff_of_nodup (nodup_edgesOf _) hnodup).2 fun e => ?_).length_eq
    rw [hmem, List.mem_cons]

end FlowGraph

/-- The targets of each source. Edges are counted as they are added. -/
structure FlowGraph where
  targets : Std.TreeMap CellId (Numbering CellId)
  numEdges : Nat
  numEdges_eq : numEdges = (FlowGraph.edgesOf targets).length

namespace FlowGraph

def empty : FlowGraph := ⟨∅, 0, rfl⟩

instance : Inhabited FlowGraph := ⟨empty⟩

def targetsOf (g : FlowGraph) (source : CellId) : Numbering CellId :=
  g.targets.getD source .empty

/-- The cells that `source` flows into, by first insertion. -/
def successors (g : FlowGraph) (source : CellId) : List CellId := (g.targetsOf source).toList

def hasEdge (g : FlowGraph) (source target : CellId) : Bool :=
  (g.targetsOf source).contains target

/-- An edge that is there already is not added again. -/
def insert (g : FlowGraph) (source target : CellId) : FlowGraph where
  targets := g.targets.insert source ((g.targetsOf source).insert target)
  numEdges := if g.hasEdge source target then g.numEdges else g.numEdges + 1
  numEdges_eq := by
    have hlength := length_edgesOf_insert g.targets source target
    rw [← g.numEdges_eq] at hlength
    exact hlength.symm

/-- All edges, by source and then by insertion. -/
def edges (g : FlowGraph) : List (CellId × CellId) := edgesOf g.targets

def nodes (g : FlowGraph) : IdSet .cell :=
  .ofList (g.edges.flatMap fun (source, target) => [source, target])

@[simp] theorem hasEdge_empty {x y : CellId} : ¬ empty.hasEdge x y = true := by
  have h : (∅ : Std.TreeMap CellId (Numbering CellId)).getD x .empty = .empty :=
    Std.TreeMap.getD_emptyc
  simp [hasEdge, targetsOf, empty, h]

@[simp] theorem hasEdge_insert {g : FlowGraph} {source target x y : CellId} :
    (g.insert source target).hasEdge x y = true ↔
      g.hasEdge x y = true ∨ x = source ∧ y = target := by
  simp only [hasEdge, Numbering.contains_iff, targetsOf, insert, Std.TreeMap.getD_insert,
    Std.LawfulEqOrd.compare_eq_iff_eq]
  by_cases h : source = x
  · subst h
    simp
  · simp [h, Ne.symm h]

theorem mem_successors {g : FlowGraph} {x y : CellId} :
    y ∈ g.successors x ↔ g.hasEdge x y = true := by
  rw [successors, hasEdge, Numbering.contains_iff]

theorem mem_edges {g : FlowGraph} {x y : CellId} : (x, y) ∈ g.edges ↔ g.hasEdge x y = true := by
  rw [edges, mem_edgesOf, hasEdge, Numbering.contains_iff, targetsOf]

theorem nodup_edges (g : FlowGraph) : g.edges.Nodup := nodup_edgesOf g.targets

end FlowGraph

end PointsTo
