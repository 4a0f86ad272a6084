import PointsTo.Proofs.CallGraph
import PointsTo.Proofs.Entities.Scope
import PointsTo.Result

/-! The queries of a result. Each answers with the objects of certain cells, contexts left out, and the
call graph has the edges of the solver's one without their contexts. -/

namespace PointsTo

namespace Entities

variable {t : Entities}

theorem mem_numberedCells {c : CellId} {x : Cell} :
    (c, x) ∈ t.numberedCells ↔ t.IsCell c ∧ t.cell c = x := by
  rw [numberedCells, List.mem_map]
  constructor
  · intro h
    obtain ⟨⟨y, i⟩, hmem, heq⟩ := h
    obtain ⟨rfl, rfl⟩ := Prod.mk.inj heq
    have hi := List.getElem?_eq_some_iff.1 (List.mem_zipIdx_iff_getElem?.1 hmem)
    obtain ⟨hlt, hget⟩ := hi
    refine ⟨by rwa [IsCell, Numbering.size_eq_length], ?_⟩
    rw [cell, Array.getD_eq_getD_getElem?, ← Array.getElem?_toList]
    exact congrArg (Option.getD · default) ((List.getElem?_eq_getElem hlt).trans (congrArg some hget))
  · rintro ⟨hc, rfl⟩
    refine ⟨(t.cell c, c.index), List.mem_zipIdx_iff_getElem?.2 ?_, rfl⟩
    rw [cell, Array.getD_eq_getD_getElem?, Numbering.toList, Array.getElem?_toList,
      Array.getElem?_eq_getElem hc]
    rfl

theorem mem_forgetContexts {objects : IdSet (.qualified .object)} {o : ObjectId} :
    o ∈ t.forgetContexts objects ↔ ∃ q ∈ objects, t.baseObject q = o := by
  simp [forgetContexts]

end Entities

namespace Result

variable {p : Program} {t : Entities} {s : State} {o : ObjectId}

theorem mem_collectVar (objects : Std.TreeMap VarId (IdSet .object)) (c : CellId) (x : Cell)
    {v : VarId} :
    o ∈ (collectVar t objects (c, x)).getD v ∅ ↔
      o ∈ objects.getD v ∅ ∨ ∃ k, x = .var k v ∧ o ∈ t.forgetContexts (t.pointsTo c) := by
  cases x with
  | var k w =>
    simp only [collectVar, Std.TreeMap.getD_insert, Std.LawfulEqOrd.compare_eq_iff_eq]
    by_cases hw : w = v
    · simp [hw]
    · simp [hw]
  | field | static | elements => simp [collectVar]

theorem mem_foldl_collectVar (cells : List (CellId × Cell))
    (objects : Std.TreeMap VarId (IdSet .object)) {v : VarId} :
    o ∈ (cells.foldl (collectVar t) objects).getD v ∅ ↔ o ∈ objects.getD v ∅ ∨
      ∃ c k, (c, .var k v) ∈ cells ∧ o ∈ t.forgetContexts (t.pointsTo c) := by
  induction cells generalizing objects with
  | nil => simp
  | cons x cells ih =>
    obtain ⟨c, x⟩ := x
    rw [List.foldl_cons, ih, mem_collectVar, or_assoc]
    refine or_congr_right ⟨?_, ?_⟩
    · rintro (⟨k, rfl, ho⟩ | ⟨d, k, hmem, ho⟩)
      · exact ⟨c, k, List.mem_cons_self, ho⟩
      · exact ⟨d, k, List.mem_cons_of_mem _ hmem, ho⟩
    · intro h
      obtain ⟨d, k, hmem, ho⟩ := h
      rcases List.mem_cons.1 hmem with heq | hmem
      · obtain ⟨rfl, rfl⟩ := Prod.mk.inj heq
        exact Or.inl ⟨k, rfl, ho⟩
      · exact Or.inr ⟨d, k, hmem, ho⟩

/-- A variable has the objects that it holds under some context. -/
theorem mem_pointsTo {v : VarId} :
    o ∈ (ofState p s).pointsTo v ↔ ∃ c k, s.entities.IsCell c ∧ s.entities.cell c = .var k v ∧
      ∃ q ∈ s.entities.pointsTo c, s.entities.baseObject q = o := by
  have hempty : (∅ : Std.TreeMap VarId (IdSet .object)).getD v ∅ = ∅ := Std.TreeMap.getD_emptyc
  rw [pointsTo, ofState, collectVars, mem_foldl_collectVar, hempty]
  simp only [IdSet.not_mem_empty, false_or, Entities.mem_numberedCells, Entities.mem_forgetContexts,
    and_assoc]

theorem mem_foldl_union (r : Result) (cells : List (CellId × Cell)) (objects : IdSet .object) :
    o ∈ cells.foldl
        (fun ids c => ids ∪ r.entities.forgetContexts (r.entities.pointsTo c.1)) objects ↔
      o ∈ objects ∨ ∃ c ∈ cells, o ∈ r.entities.forgetContexts (r.entities.pointsTo c.1) := by
  induction cells generalizing objects with
  | nil => simp
  | cons c cells ih =>
    rw [List.foldl_cons, ih, IdSet.mem_union, or_assoc]
    simp

theorem mem_objectsWhere {r : Result} {test : Cell → Bool} :
    o ∈ r.objectsWhere test ↔ ∃ c, r.entities.IsCell c ∧ test (r.entities.cell c) = true ∧
      ∃ q ∈ r.entities.pointsTo c, r.entities.baseObject q = o := by
  rw [objectsWhere, mem_foldl_union]
  simp only [IdSet.not_mem_empty, false_or, List.mem_filter, Entities.mem_forgetContexts]
  constructor
  · intro h
    obtain ⟨⟨c, x⟩, ⟨hmem, htest⟩, ho⟩ := h
    obtain ⟨hc, rfl⟩ := Entities.mem_numberedCells.1 hmem
    exact ⟨c, hc, htest, ho⟩
  · intro hexists
    obtain ⟨c, hc, htest, ho⟩ := hexists
    exact ⟨(c, r.entities.cell c), ⟨Entities.mem_numberedCells.2 ⟨hc, rfl⟩, htest⟩, ho⟩

theorem mem_staticFieldPointsTo {r : Result} {f : FieldId} :
    o ∈ r.staticFieldPointsTo f ↔ ∃ c, r.entities.IsCell c ∧ r.entities.cell c = .static f ∧
      ∃ q ∈ r.entities.pointsTo c, r.entities.baseObject q = o := by
  simp only [staticFieldPointsTo, mem_objectsWhere, beq_iff_eq]

/-- A field of an object has what it holds in the object under some heap context. -/
theorem mem_fieldPointsTo {r : Result} {b : ObjectId} {f : FieldId} :
    o ∈ r.fieldPointsTo b f ↔ ∃ c base, r.entities.IsCell c ∧ r.entities.cell c = .field base f ∧
      r.entities.baseObject base = b ∧ ∃ q ∈ r.entities.pointsTo c, r.entities.baseObject q = o := by
  rw [fieldPointsTo, mem_objectsWhere]
  apply exists_congr
  intro c
  cases r.entities.cell c with
  | field base g =>
    simp only [Bool.and_eq_true, beq_iff_eq, CellOf.field.injEq]
    constructor
    · rintro ⟨hc, ⟨rfl, hb⟩, ho⟩
      exact ⟨base, hc, ⟨rfl, rfl⟩, hb, ho⟩
    · rintro ⟨_, hc, ⟨rfl, rfl⟩, hb, ho⟩
      exact ⟨hc, ⟨rfl, hb⟩, ho⟩
  | var | static | elements => simp

theorem mem_elementsPointTo {r : Result} {b : ObjectId} :
    o ∈ r.elementsPointTo b ↔ ∃ c base, r.entities.IsCell c ∧ r.entities.cell c = .elements base ∧
      r.entities.baseObject base = b ∧ ∃ q ∈ r.entities.pointsTo c, r.entities.baseObject q = o := by
  rw [elementsPointTo, mem_objectsWhere]
  apply exists_congr
  intro c
  cases r.entities.cell c with
  | elements base =>
    simp only [beq_iff_eq, CellOf.elements.injEq]
    constructor
    · intro h
      obtain ⟨hc, hb, ho⟩ := h
      exact ⟨base, hc, rfl, hb, ho⟩
    · rintro ⟨_, hc, rfl, hb, ho⟩
      exact ⟨hc, hb, ho⟩
  | var | field | static => simp

/-! ### The call graph -/

/-- A call edge without contexts. -/
def projectEdge (t : Entities) (e : QCallEdge) : CallEdge CallId MethodId :=
  ⟨e.kind, (t.qcall e.site).item, (t.qmethod e.callee).item⟩

theorem entries_addEdge (g : CallGraph CallId MethodId) (e : QCallEdge) :
    (addEdge p t g e).entries = g.entries := by
  rw [addEdge, CallGraph.entries_addEdge]
  rfl

theorem reachable_addEdge (g : CallGraph CallId MethodId) (e : QCallEdge) :
    (addEdge p t g e).reachable = g.reachable := by
  rw [addEdge, CallGraph.reachable_addEdge]
  rfl

/-- An edge that is of the kind of its call. -/
theorem records_addEdge {g : CallGraph CallId MethodId} {sites : Set CallId}
    {calls : Set (CallId × MethodId)} (h : g.Records p.toModel sites calls) {e : QCallEdge}
    (he : e.kind = (p.call (t.qcall e.site).item).kind) :
    (addEdge p t g e).Records p.toModel (sites ∪ {(projectEdge t e).site})
      (calls ∪ {((projectEdge t e).site, (projectEdge t e).callee)}) := by
  rw [addEdge, he]
  exact (h.setContainer _).addEdge _ _

/-- The graph that the edges are added to: methods only. -/
def projectMethods (s : State) : CallGraph CallId MethodId :=
  s.calls.reachable.toList.foldl (fun g x => g.addReachable (s.entities.qmethod x).item)
    (s.calls.entries.toList.foldl (fun g x => g.addEntry (s.entities.qmethod x).item) .empty)

section Methods

variable (method : QMethodId → MethodId) (ids : List QMethodId) (g : CallGraph CallId MethodId)

theorem foldl_addEntry : ids.foldl (fun g x => g.addEntry (method x)) g =
    { g with entries := ids.foldl (fun n x => n.insert (method x)) g.entries } := by
  induction ids generalizing g with
  | nil => rfl
  | cons x ids ih => exact ih (g.addEntry (method x))

theorem foldl_addReachable : ids.foldl (fun g x => g.addReachable (method x)) g =
    { g with reachable := ids.foldl (fun n x => n.insert (method x)) g.reachable } := by
  induction ids generalizing g with
  | nil => rfl
  | cons x ids ih => exact ih (g.addReachable (method x))

theorem mem_foldl_insert (n : Numbering MethodId) {y : MethodId} :
    y ∈ (ids.foldl (fun n x => n.insert (method x)) n).toList ↔
      y ∈ n.toList ∨ ∃ x ∈ ids, method x = y := by
  induction ids generalizing n with
  | nil => simp
  | cons x ids ih =>
    rw [List.foldl_cons, ih, Numbering.mem_toList_insert, or_assoc]
    simp only [List.mem_cons, exists_eq_or_imp]
    exact or_congr Iff.rfl (or_congr eq_comm Iff.rfl)

end Methods

theorem projectMethods_eq (s : State) : projectMethods s =
    { CallGraph.empty with
      entries := s.calls.entries.toList.foldl (fun n x => n.insert (s.entities.qmethod x).item) .empty
      reachable :=
        s.calls.reachable.toList.foldl (fun n x => n.insert (s.entities.qmethod x).item) .empty } := by
  rw [projectMethods, foldl_addReachable, foldl_addEntry]
  rfl

theorem projectCalls_eq (p : Program) (s : State) :
    projectCalls p s = s.calls.edges.toList.foldl (addEdge p s.entities) (projectMethods s) := by
  rw [projectCalls, ← Array.foldl_toList]
  rfl

theorem mem_entries_projectCalls {x : MethodId} : x ∈ (projectCalls p s).entries.toList ↔
    ∃ id ∈ s.calls.entries.toList, (s.entities.qmethod id).item = x := by
  rw [projectCalls_eq, foldl_preserves entries_addEdge, projectMethods_eq, mem_foldl_insert]
  simp

theorem mem_reachable_projectCalls {x : MethodId} : x ∈ (projectCalls p s).reachable.toList ↔
    ∃ id ∈ s.calls.reachable.toList, (s.entities.qmethod id).item = x := by
  rw [projectCalls_eq, foldl_preserves reachable_addEdge, projectMethods_eq, mem_foldl_insert]
  simp

section Kinds

variable (hkind : ∀ e ∈ s.calls.edges.toList, e.kind = (p.call (s.entities.qcall e.site).item).kind)

include hkind

theorem records_projectCalls : (projectCalls p s).Records p.toModel
    {i | ∃ e ∈ s.calls.edges.toList, (projectEdge s.entities e).site = i}
    {c | ∃ e ∈ s.calls.edges.toList,
      ((projectEdge s.entities e).site, (projectEdge s.entities e).callee) = c} := by
  have hmethods : (projectMethods s).Records p.toModel ∅ ∅ := by
    rw [projectMethods_eq]
    exact (CallGraph.Records.empty p.toModel).withMethods _ _
  have hedges := hmethods.foldl _ _ fun e he _ _ _ h => records_addEdge (t := s.entities) h (hkind e he)
  rw [projectCalls_eq]
  convert hedges using 1
  · simp [eq_comm]
  · simp [eq_comm]

/-- Edges of one call have one kind, so none is lost when they are joined. -/
theorem mem_edges_projectCalls {f : CallEdge CallId MethodId} : f ∈ (projectCalls p s).edges.toList ↔
    ∃ e ∈ s.calls.edges.toList, projectEdge s.entities e = f := by
  rw [(records_projectCalls hkind).edges]
  constructor
  · rintro ⟨hf, e, he, hends⟩
    obtain ⟨hsite, hcallee⟩ := Prod.mk.inj hends
    refine ⟨e, he, ?_⟩
    obtain ⟨kind, i, y⟩ := f
    have hsame : e.kind = kind := calc
      e.kind = (p.call (projectEdge s.entities e).site).kind := hkind e he
      _ = (p.call i).kind := congrArg (fun j => (p.call j).kind) hsite
      _ = kind := hf.symm
    rw [projectEdge, CallEdge.mk.injEq]
    exact ⟨hsame, hsite, hcallee⟩
  · rintro ⟨e, he, rfl⟩
    exact ⟨hkind e he, e, he, rfl⟩

end Kinds

end Result

end PointsTo
