import Mathlib.Data.Set.Card
import PointsTo.Proofs.Solver.Final
import PointsTo.Solver.Statistics

/-! The figures of a finished run. Apart from the number of work items, they count what the facts speak
of: readings tell identifiers apart, and final states number just what there is. -/

namespace PointsTo

/-! ### Counting through readings -/

section Counting

variable {α β : Type} {entity : Entity}

theorem ncard_setOf_mem {l : List α} (hl : l.Nodup) : {x | x ∈ l}.ncard = l.length := by
  classical
  rw [← List.coe_toFinset, Set.ncard_coe_finset, List.toFinset_card_of_nodup hl]

theorem length_eq_ncard_image {l : List α} {f : α → β} (hl : l.Nodup) (hf : Set.InjOn f {x | x ∈ l}) :
    l.length = (f '' {x | x ∈ l}).ncard := by
  rw [hf.ncard_image, ncard_setOf_mem hl]

theorem Id.nodup_upTo (entity : Entity) (n : Nat) : (Id.upTo entity n).Nodup :=
  List.nodup_range.map fun _ _ h => congrArg Id.index h

/-- As many identifiers as there are values that they read as. -/
theorem eq_ncard_image {n : Nat} {f : Id entity → β} (hf : Set.InjOn f {c | c.index < n}) :
    n = (f '' {c | c.index < n}).ncard := by
  have hset : {c : Id entity | c.index < n} = {c | c ∈ Id.upTo entity n} := by
    ext c
    exact Id.mem_upTo.symm
  rw [hset] at hf ⊢
  rw [← length_eq_ncard_image (Id.nodup_upTo entity n) hf, Id.length_upTo]

end Counting

/-- The figures of facts that were reached with a number of work items. -/
noncomputable def Analysis.figures (a : Analysis) (F : Facts) (iterations : Nat) : Statistics where
  iterations := iterations
  contexts := F.contexts.ncard
  objects := F.objects.ncard
  qobjects := F.qobjects.ncard
  cells := (a.cells F).ncard
  flowEdges := F.flow.ncard
  callEdges := F.calls.ncard
  reachable := F.reach.ncard

namespace Entities.Scoped

variable {t : Entities} (ht : t.Scoped)

include ht

theorem edgeAt_injOn : Set.InjOn t.edgeAt {e | t.IsQCall e.site ∧ t.IsQMethod e.callee} := by
  intro e he f hf heq
  obtain ⟨hkind, hsite, hcallee⟩ := CallEdge.mk.inj heq
  have hsite' := ht.qcallAt_injective he.1 hf.1 hsite
  have hcallee' := ht.qmethodAt_injective he.2 hf.2 hcallee
  cases e
  cases f
  exact CallEdge.mk.injEq .. ▸ ⟨hkind, hsite', hcallee'⟩

theorem map_cellAt_injOn :
    Set.InjOn (Prod.map t.cellAt t.cellAt) {e | t.IsCell e.1 ∧ t.IsCell e.2} := by
  intro e he f hf heq
  obtain ⟨hsource, htarget⟩ := Prod.mk.inj heq
  exact Prod.ext (ht.cellAt_injective he.1 hf.1 hsource) (ht.cellAt_injective he.2 hf.2 htarget)

end Entities.Scoped

namespace State

variable {a : Analysis} {s : State}

theorem Scoped.edges_subset (hs : s.Scoped) : {e | e ∈ s.calls.edges.toList} ⊆
    {e | s.entities.IsQCall e.site ∧ s.entities.IsQMethod e.callee} :=
  fun e he => hs.requested e (Or.inl he)

theorem Scoped.flow_subset (hs : s.Scoped) : {e | e ∈ s.flow.edges} ⊆
    {e | s.entities.IsCell e.1 ∧ s.entities.IsCell e.2} :=
  fun e he => hs.flow e.1 e.2 (FlowGraph.mem_edges.1 he)

theorem image_flow (s : State) :
    Prod.map s.entities.cellAt s.entities.cellAt '' {e | e ∈ s.flow.edges} = s.facts.flow := by
  ext f
  constructor
  · rintro ⟨⟨x, y⟩, hxy, rfl⟩
    exact ⟨x, y, FlowGraph.mem_edges.1 hxy, rfl⟩
  · rintro ⟨x, y, hxy, rfl⟩
    exact ⟨(x, y), FlowGraph.mem_edges.2 hxy, rfl⟩

theorem Final.statistics_eq (hs : s.Final a) : s.statistics = a.figures s.facts s.processed := by
  have hcontexts := eq_ncard_image fun _ hc _ hd h => hs.sound.entities.contextAt_injective hc hd h
  have hobjects := eq_ncard_image fun _ ho _ hp h =>
    Entities.object_injective (t := s.entities) ho hp h
  have hqobjects := eq_ncard_image fun _ ho _ hp h => hs.sound.entities.qobjectAt_injective ho hp h
  have hcells := eq_ncard_image fun _ hc _ hd h => hs.sound.entities.cellAt_injective hc hd h
  have hflow := length_eq_ncard_image s.flow.nodup_edges
    (hs.sound.entities.map_cellAt_injOn.mono hs.sound.scope.flow_subset)
  have hcalls := length_eq_ncard_image hs.sound.calls.nodup_edges
    (hs.sound.entities.edgeAt_injOn.mono hs.sound.scope.edges_subset)
  have hreach := length_eq_ncard_image s.calls.reachable.nodup_toList fun x hx y hy h =>
    hs.sound.entities.qmethodAt_injective (hs.sound.reachable x hx).1 (hs.sound.reachable y hy).1 h
  have hreachable : s.calls.numReachable = s.calls.reachable.toList.length :=
    Numbering.size_eq_length _
  rw [image_flow] at hflow
  rw [statistics, Analysis.figures, ← hs.image_contextAt, ← hs.image_object, ← hs.image_qobjectAt,
    ← hs.image_cellAt, Statistics.mk.injEq]
  refine ⟨rfl, hcontexts, hobjects, hqobjects, hcells, s.flow.numEdges_eq.trans hflow, ?_, ?_⟩
  · exact Array.length_toList.symm.trans hcalls
  · exact hreachable.trans hreach

end State

end PointsTo
