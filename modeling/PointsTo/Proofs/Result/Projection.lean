import PointsTo.Proofs.CallGraphIndex
import PointsTo.Proofs.Result.HierarchyBound

/-! Results as projections. Each query of a result is answered in its own way: variables from a table that
is filled once, cells of objects by a search through all cells, calls from a graph that is built anew. All
the answers say what the solver has found, with contexts left out. -/

namespace PointsTo

namespace Result

section Projection

variable (r : Result)

/-- What a cell holds, if it was met. -/
def contents? (c : Cell) : Option (IdSet (.qualified .object)) :=
  (r.entities.lookupCell? c).map r.entities.pointsTo

/-- The number stands for the object under the heap context. -/
def IsUnder (q : QObjectId) (k : ContextId) (o : ObjectId) : Prop :=
  r.entities.IsQObject q ∧ r.entities.qobject q = ⟨k, o⟩

/-- The object is held under some heap context. -/
def Holds (objects : IdSet (.qualified .object)) (o : ObjectId) : Prop :=
  ∃ k, ∃ q ∈ objects, r.IsUnder q k o

/-- The call graph under contexts has an edge between the call and the method, each under some context. -/
def CallsUnder (i : CallId) (x : MethodId) : Prop :=
  ∃ c d, ∃ e ∈ r.state.calls.edges.toList,
    r.entities.qcall e.site = ⟨c, i⟩ ∧ r.entities.qmethod e.callee = ⟨d, x⟩

/-- The answers are the findings of the solver without their contexts. -/
structure IsProjection : Prop where
  locals : ∀ v o, o ∈ r.pointsTo v ↔
    ∃ c objects, r.pointsToUnder? c v = some objects ∧ r.Holds objects o
  statics : ∀ f o, o ∈ r.staticFieldPointsTo f ↔
    ∃ objects, r.contents? (.static f) = some objects ∧ r.Holds objects o
  fields : ∀ b f o, o ∈ r.fieldPointsTo b f ↔ ∃ k base objects,
    r.IsUnder base k b ∧ r.contents? (.field base f) = some objects ∧ r.Holds objects o
  elements : ∀ b o, o ∈ r.elementsPointTo b ↔ ∃ k base objects,
    r.IsUnder base k b ∧ r.contents? (.elements base) = some objects ∧ r.Holds objects o
  aliases : ∀ v w, r.mayAlias v w = true ↔ ∃ o, o ∈ r.pointsTo v ∧ o ∈ r.pointsTo w
  aliases_of_common : ∀ v w c d A B, r.pointsToUnder? c v = some A → r.pointsToUnder? d w = some B →
    (∃ q, q ∈ A ∧ q ∈ B) → r.mayAlias v w = true
  aliases_self : ∀ v, r.mayAlias v v = true ↔ ∃ o, o ∈ r.pointsTo v
  edges : ∀ e, e ∈ r.callGraph.edges.toList ↔
    e.kind = (r.program.call e.site).kind ∧ r.CallsUnder e.site e.callee
  distinct : r.callGraph.edges.toList.Pairwise fun e f => ¬ (e.site = f.site ∧ e.callee = f.callee)
  containers : ∀ e ∈ r.callGraph.edges.toList,
    r.callGraph.container? e.site = some (r.program.call e.site).container
  reachable : ∀ x, x ∈ r.callGraph.reachable.toList ↔
    ∃ c, ∃ y ∈ r.state.calls.reachable.toList, r.entities.qmethod y = ⟨c, x⟩
  callers : ∀ x, ∃ sites : List CallId, sites.Nodup ∧
    (∀ i, i ∈ sites ↔ ∃ e ∈ r.callGraph.edges.toList, e.site = i ∧ e.callee = x) ∧
    r.callGraph.callers x = sites.map fun i => (r.program.call i).container

end Projection

variable {r : Result} {p : Program} {s : State}

theorem contents?_eq_some_iff {c : Cell} {objects : IdSet (.qualified .object)} :
    r.contents? c = some objects ↔
      ∃ cell, r.entities.IsCell cell ∧ r.entities.cell cell = c ∧ r.entities.pointsTo cell = objects := by
  rw [contents?, Option.map_eq_some_iff]
  simp only [Entities.lookupCell?_eq_some_iff, and_assoc]

section Cells

variable (hs : r.entities.Scoped)

include hs

/-- What a cell holds are numbers of objects under heap contexts. -/
theorem holds_pointsTo_iff {cell : CellId} {o : ObjectId} : r.Holds (r.entities.pointsTo cell) o ↔
    ∃ q ∈ r.entities.pointsTo cell, r.entities.baseObject q = o := by
  constructor
  · rintro ⟨k, q, hq, -, hread⟩
    exact ⟨q, hq, congrArg Qualified.item hread⟩
  · rintro ⟨q, hq, rfl⟩
    exact ⟨_, q, hq, hs.held cell q hq, rfl⟩

theorem holds_contents_iff {c : Cell} {o : ObjectId} :
    (∃ objects, r.contents? c = some objects ∧ r.Holds objects o) ↔
      ∃ cell, r.entities.IsCell cell ∧ r.entities.cell cell = c ∧
        ∃ q ∈ r.entities.pointsTo cell, r.entities.baseObject q = o := by
  constructor
  · rintro ⟨_, hcontents, ho⟩
    obtain ⟨cell, hcell, hread, rfl⟩ := contents?_eq_some_iff.1 hcontents
    exact ⟨cell, hcell, hread, (holds_pointsTo_iff hs).1 ho⟩
  · rintro ⟨cell, hcell, hread, ho⟩
    exact ⟨_, contents?_eq_some_iff.2 ⟨cell, hcell, hread, rfl⟩, (holds_pointsTo_iff hs).2 ho⟩

/-- Cells that belong to an object, over all its heap contexts. -/
theorem holds_contents_of_base_iff (cellOf : QObjectId → Cell)
    (hscope : ∀ base, r.entities.ScopedCell (cellOf base) → r.entities.IsQObject base) {b o : ObjectId} :
    (∃ k base objects, r.IsUnder base k b ∧ r.contents? (cellOf base) = some objects ∧
        r.Holds objects o) ↔
      ∃ cell base, r.entities.IsCell cell ∧ r.entities.cell cell = cellOf base ∧
        r.entities.baseObject base = b ∧
        ∃ q ∈ r.entities.pointsTo cell, r.entities.baseObject q = o := by
  constructor
  · rintro ⟨k, base, objects, ⟨-, hbase⟩, hholds⟩
    obtain ⟨cell, hcell, hread, ho⟩ := (holds_contents_iff hs).1 ⟨objects, hholds⟩
    exact ⟨cell, base, hcell, hread, congrArg Qualified.item hbase, ho⟩
  · rintro ⟨cell, base, hcell, hread, rfl, ho⟩
    have hbase := hscope base (hread ▸ hs.cell hcell)
    obtain ⟨objects, hholds⟩ := (holds_contents_iff hs).2 ⟨cell, hcell, hread, ho⟩
    exact ⟨_, base, objects, ⟨hbase, rfl⟩, hholds⟩

end Cells

theorem mem_pointsTo_iff_under (hs : (ofState p s).entities.Scoped) {v : VarId} {o : ObjectId} :
    o ∈ (ofState p s).pointsTo v ↔ ∃ c objects,
      (ofState p s).pointsToUnder? c v = some objects ∧ (ofState p s).Holds objects o := by
  rw [mem_pointsTo]
  constructor
  · rintro ⟨cell, k, hcell, hvar, ho⟩
    have hk : (ofState p s).entities.ScopedCell (.var k v) := hvar ▸ hs.cell hcell
    have hunder := pointsToUnder?_eq_some_iff.2 ⟨k, cell, hk, rfl, hcell, hvar, rfl⟩
    exact ⟨_, _, hunder, (holds_pointsTo_iff hs).2 ho⟩
  · rintro ⟨c, objects, hunder, ho⟩
    obtain ⟨k, cell, -, -, hcell, hvar, rfl⟩ := pointsToUnder?_eq_some_iff.1 hunder
    exact ⟨cell, k, hcell, hvar, (holds_pointsTo_iff hs).1 ho⟩

/-- An object that both variables hold under one heap context is common to them without it. -/
theorem mayAlias_of_common (hs : (ofState p s).entities.Scoped) {v w : VarId} {c d : Context}
    {A B : IdSet (.qualified .object)} (hv : (ofState p s).pointsToUnder? c v = some A)
    (hw : (ofState p s).pointsToUnder? d w = some B) (hcommon : ∃ q, q ∈ A ∧ q ∈ B) :
    (ofState p s).mayAlias v w = true := by
  obtain ⟨q, hqA, hqB⟩ := hcommon
  obtain ⟨k, cell, -, -, -, -, hA⟩ := pointsToUnder?_eq_some_iff.1 hv
  have hq : (ofState p s).IsUnder q ((ofState p s).entities.qobject q).context
      ((ofState p s).entities.baseObject q) := ⟨hs.held cell q (hA ▸ hqA), rfl⟩
  rw [mayAlias, IdSet.meets_iff]
  exact ⟨_, (mem_pointsTo_iff_under hs).2 ⟨c, A, hv, _, q, hqA, hq⟩,
    (mem_pointsTo_iff_under hs).2 ⟨d, B, hw, _, q, hqB, hq⟩⟩

/-- Each call site is placed before its edge is added, so that the index of callers is kept. -/
theorem listsCallers_projectCalls : (projectCalls p s).ListsCallers := by
  have hmethods : (projectMethods s).ListsCallers := by
    rw [projectMethods_eq]
    exact CallGraph.ListsCallers.empty
  rw [projectCalls_eq]
  exact List.foldlRecOn _ _ hmethods fun g hg e _ => (hg.setContainer _ _).addEdge _

section Kinds

variable (hkind : ∀ e ∈ s.calls.edges.toList, e.kind = (p.call (s.entities.qcall e.site).item).kind)

include hkind

theorem mem_edges_projectCalls_iff_under {e : CallEdge CallId MethodId} :
    e ∈ (projectCalls p s).edges.toList ↔
      e.kind = (p.call e.site).kind ∧ (ofState p s).CallsUnder e.site e.callee := by
  rw [(records_projectCalls hkind).edges]
  refine and_congr_right fun _ => ⟨?_, ?_⟩
  · rintro ⟨f, hf, hends⟩
    obtain ⟨hsite, hcallee⟩ := Prod.mk.inj hends
    exact ⟨_, _, f, hf, Qualified.ext rfl hsite, Qualified.ext rfl hcallee⟩
  · rintro ⟨c, d, f, hf, hsite, hcallee⟩
    exact ⟨f, hf, Prod.ext (congrArg Qualified.item hsite) (congrArg Qualified.item hcallee)⟩

/-- The call site of each edge is placed in the method that holds it. -/
theorem container?_projectCalls {e : CallEdge CallId MethodId}
    (he : e ∈ (projectCalls p s).edges.toList) :
    (projectCalls p s).container? e.site = some (p.call e.site).container := by
  obtain ⟨f, hf, rfl⟩ := (mem_edges_projectCalls hkind).1 he
  exact ((records_projectCalls hkind).containers _ _).2 ⟨⟨f, hf, rfl⟩, rfl⟩

end Kinds

theorem isProjection_ofState (hs : (ofState p s).entities.Scoped)
    (hkind : ∀ e ∈ s.calls.edges.toList, e.kind = (p.call (s.entities.qcall e.site).item).kind) :
    (ofState p s).IsProjection where
  locals v o := mem_pointsTo_iff_under hs
  statics f o := by rw [mem_staticFieldPointsTo, holds_contents_iff hs]
  fields b f o := by
    rw [mem_fieldPointsTo, holds_contents_of_base_iff hs (.field · f) fun _ hbase => hbase]
  elements b o := by
    rw [mem_elementsPointTo, holds_contents_of_base_iff hs .elements fun _ hbase => hbase]
  aliases v w := IdSet.meets_iff
  aliases_of_common v w c d A B := mayAlias_of_common hs
  aliases_self v := by rw [mayAlias, IdSet.meets_iff]; simp only [and_self]
  edges e := mem_edges_projectCalls_iff_under hkind
  distinct := (records_projectCalls hkind).coherent.distinct
  containers e he := container?_projectCalls hkind he
  reachable x := by
    refine mem_reachable_projectCalls.trans ⟨?_, ?_⟩
    · rintro ⟨y, hy, rfl⟩
      exact ⟨_, y, hy, rfl⟩
    · rintro ⟨c, y, hy, hread⟩
      exact ⟨y, hy, congrArg Qualified.item hread⟩
  callers x := by
    have hcoherent := (records_projectCalls hkind).coherent
    refine ⟨_, hcoherent.nodup_sitesTo x, fun i => CallGraph.mem_sitesTo, ?_⟩
    exact listsCallers_projectCalls.callers_eq (fun e he => container?_projectCalls hkind he) x

end Result

namespace Analysis

variable {a : Analysis} {order : WorkOrder} {limit : Option Nat} {r : Result}

/-- The answers of a finished analysis are what the solver has found, with contexts left out. -/
theorem isProjection_of_result (hp : a.program.Accepted) (h : a.result order limit = .ok r) :
    r.program = a.program ∧ a.solve order limit = .ok r.state ∧ r.IsProjection := by
  obtain ⟨hsolve, hr⟩ := result_eq_ok h
  refine ⟨congrArg Result.program hr, hsolve, ?_⟩
  have hs := (final_of_solve hp.indexed hsolve).sound
  rw [hr]
  exact Result.isProjection_ofState hs.entities fun e he => (hs.requested e (Or.inl he)).2.2.2

theorem isProjection_of_result_identity : ∃ r, identity.result .fifo none = .ok r ∧
    r.program = .identity ∧ identity.solve .fifo none = .ok r.state ∧ r.IsProjection := by
  obtain ⟨r, hr⟩ := exists_eq_ok (e := identity.result .fifo none) (by decide +kernel)
  exact ⟨r, hr, isProjection_of_result (a := identity) Program.accepted_identity hr⟩

end Analysis

end PointsTo
