import PointsTo.Proofs.Result.Queries
import PointsTo.Proofs.Solver.Final

/-! What a result says. Its answers leave contexts out; here the objects in them are spoken of by what
they are, so that results of different runs can be compared. The answers of a finished analysis are the
facts of the solver without their contexts. -/

namespace PointsTo

@[ext] structure Answers where
  pointsTo : VarId → Set HeapObject
  statics : FieldId → Set HeapObject
  fields : HeapObject → FieldId → Set HeapObject
  elements : HeapObject → Set HeapObject
  calls : Set (CallEdge CallId MethodId)
  reachable : Set MethodId
  entries : Set MethodId

/-- No answer of the first says more than the second does. -/
structure Answers.Within (A B : Answers) : Prop where
  pointsTo : ∀ v, A.pointsTo v ⊆ B.pointsTo v
  statics : ∀ f, A.statics f ⊆ B.statics f
  fields : ∀ b f, A.fields b f ⊆ B.fields b f
  elements : ∀ b, A.elements b ⊆ B.elements b
  calls : A.calls ⊆ B.calls
  reachable : A.reachable ⊆ B.reachable
  entries : A.entries ⊆ B.entries

theorem Answers.Within.antisymm {A B : Answers} (h : A.Within B) (h' : B.Within A) : A = B := by
  refine Answers.ext ?_ ?_ ?_ ?_ ?_ ?_ ?_
  · funext v
    exact Set.Subset.antisymm (h.pointsTo v) (h'.pointsTo v)
  · funext f
    exact Set.Subset.antisymm (h.statics f) (h'.statics f)
  · funext b f
    exact Set.Subset.antisymm (h.fields b f) (h'.fields b f)
  · funext b
    exact Set.Subset.antisymm (h.elements b) (h'.elements b)
  · exact Set.Subset.antisymm h.calls h'.calls
  · exact Set.Subset.antisymm h.reachable h'.reachable
  · exact Set.Subset.antisymm h.entries h'.entries

/-- The answers to the queries of a result. -/
def Result.answers (r : Result) : Answers where
  pointsTo v := {h | ∃ o ∈ r.pointsTo v, r.entities.object o = h}
  statics f := {h | ∃ o ∈ r.staticFieldPointsTo f, r.entities.object o = h}
  fields b f := {h | ∃ i, r.entities.IsObject i ∧ r.entities.object i = b ∧
    ∃ o ∈ r.fieldPointsTo i f, r.entities.object o = h}
  elements b := {h | ∃ i, r.entities.IsObject i ∧ r.entities.object i = b ∧
    ∃ o ∈ r.elementsPointTo i, r.entities.object o = h}
  calls := {e | e ∈ r.callGraph.edges.toList}
  reachable := {x | x ∈ r.callGraph.reachable.toList}
  entries := {x | x ∈ r.callGraph.entries.toList}

namespace Analysis

/-- Facts without their contexts. -/
def answers (a : Analysis) (F : Facts) : Answers where
  pointsTo v := {h | ∃ k c, (.var k v, ⟨c, h⟩) ∈ F.pointsTo}
  statics f := {h | ∃ c, (.static f, ⟨c, h⟩) ∈ F.pointsTo}
  fields b f := {h | ∃ d c, (.field ⟨d, b⟩ f, ⟨c, h⟩) ∈ F.pointsTo}
  elements b := {h | ∃ d c, (.elements ⟨d, b⟩, ⟨c, h⟩) ∈ F.pointsTo}
  calls := {e | ∃ f ∈ F.calls, ⟨f.kind, f.site.item, f.callee.item⟩ = e}
  reachable := {x | ∃ k, ⟨k, x⟩ ∈ F.reach}
  entries := {a.program.entry}

variable {a : Analysis} {order : WorkOrder} {limit : Option Nat} {r : Result}

theorem result_eq_ok (h : a.result order limit = .ok r) :
    a.solve order limit = .ok r.state ∧ r = .ofState a.program r.state := by
  rw [result] at h
  cases hsolve : a.solve order limit with
  | error e =>
    rw [hsolve] at h
    cases h
  | ok s =>
    rw [hsolve] at h
    obtain rfl := Except.ok.inj h
    exact ⟨rfl, rfl⟩

end Analysis

namespace State

variable {a : Analysis} {F : Facts} {s : State}

/-- Objects that a place holds under some heap context, from the cells that stand for the place. -/
theorem exists_mem_pointsTo_iff {p : Place} {h : HeapObject} :
    (∃ c, (p, ⟨c, h⟩) ∈ s.facts.pointsTo) ↔ ∃ c, s.entities.cellAt c = p ∧
      ∃ q ∈ s.entities.pointsTo c, s.entities.object (s.entities.baseObject q) = h := by
  constructor
  · intro hexists
    obtain ⟨k, c, q, hq, heq⟩ := hexists
    obtain ⟨hc, hqAt⟩ := Prod.mk.inj heq
    exact ⟨c, hc, q, hq, congrArg Located.item hqAt⟩
  · rintro ⟨c, rfl, q, hq, rfl⟩
    exact ⟨(s.entities.qobjectAt q).context, c, q, hq, rfl⟩

theorem answers_pointsTo (v : VarId) :
    (Result.ofState a.program s).answers.pointsTo v = (a.answers s.facts).pointsTo v := by
  ext h
  simp only [Result.answers, Analysis.answers, Set.mem_ofPred_eq, Result.mem_pointsTo,
    exists_mem_pointsTo_iff, Entities.cellAt_eq_var_iff]
  constructor
  · rintro ⟨_, ⟨c, i, hc, hvar, q, hq, rfl⟩, rfl⟩
    exact ⟨_, c, ⟨i, hvar, rfl⟩, q, hq, rfl⟩
  · rintro ⟨_, c, ⟨i, hvar, rfl⟩, q, hq, rfl⟩
    exact ⟨_, ⟨c, i, Entities.isCell_of_mem_pointsTo hq, hvar, q, hq, rfl⟩, rfl⟩

theorem answers_statics (f : FieldId) :
    (Result.ofState a.program s).answers.statics f = (a.answers s.facts).statics f := by
  ext h
  simp only [Result.answers, Analysis.answers, Set.mem_ofPred_eq, Result.mem_staticFieldPointsTo,
    exists_mem_pointsTo_iff, Entities.cellAt_eq_static_iff]
  constructor
  · rintro ⟨_, ⟨c, hc, hstatic, q, hq, rfl⟩, rfl⟩
    exact ⟨c, hstatic, q, hq, rfl⟩
  · rintro ⟨c, hstatic, q, hq, rfl⟩
    exact ⟨_, ⟨c, Entities.isCell_of_mem_pointsTo hq, hstatic, q, hq, rfl⟩, rfl⟩

section OfState

variable (hs : s.Sound a F)

include hs

theorem answers_fields (b : HeapObject) (f : FieldId) :
    (Result.ofState a.program s).answers.fields b f = (a.answers s.facts).fields b f := by
  ext h
  simp only [Result.answers, Analysis.answers, Set.mem_ofPred_eq, Result.mem_fieldPointsTo,
    exists_mem_pointsTo_iff, Entities.cellAt_eq_field_iff]
  constructor
  · rintro ⟨_, hi, rfl, _, ⟨c, base, hc, hfield, rfl, q, hq, rfl⟩, rfl⟩
    exact ⟨_, c, ⟨base, hfield, rfl⟩, q, hq, rfl⟩
  · rintro ⟨d, c, ⟨base, hfield, hbase⟩, q, hq, rfl⟩
    have hc := Entities.isCell_of_mem_pointsTo hq
    have hscoped : s.entities.ScopedCell (.field base f) := hfield ▸ hs.entities.cell hc
    exact ⟨_, (hs.entities.qobject hscoped).2, congrArg Located.item hbase, _,
      ⟨c, base, hc, hfield, rfl, q, hq, rfl⟩, rfl⟩

theorem answers_elements (b : HeapObject) :
    (Result.ofState a.program s).answers.elements b = (a.answers s.facts).elements b := by
  ext h
  simp only [Result.answers, Analysis.answers, Set.mem_ofPred_eq, Result.mem_elementsPointTo,
    exists_mem_pointsTo_iff, Entities.cellAt_eq_elements_iff]
  constructor
  · rintro ⟨_, hi, rfl, _, ⟨c, base, hc, helements, rfl, q, hq, rfl⟩, rfl⟩
    exact ⟨_, c, ⟨base, helements, rfl⟩, q, hq, rfl⟩
  · rintro ⟨d, c, ⟨base, helements, hbase⟩, q, hq, rfl⟩
    have hc := Entities.isCell_of_mem_pointsTo hq
    have hscoped : s.entities.ScopedCell (.elements base) := helements ▸ hs.entities.cell hc
    exact ⟨_, (hs.entities.qobject hscoped).2, congrArg Located.item hbase, _,
      ⟨c, base, hc, helements, rfl, q, hq, rfl⟩, rfl⟩

theorem answers_calls :
    (Result.ofState a.program s).answers.calls = (a.answers s.facts).calls := by
  have hkind := fun e he => (hs.requested e (Or.inl he)).2.2.2
  ext e
  simp only [Result.answers, Analysis.answers, Set.mem_ofPred_eq]
  rw [Result.ofState, Result.mem_edges_projectCalls hkind]
  constructor
  · rintro ⟨f, hf, rfl⟩
    exact ⟨_, ⟨f, hf, rfl⟩, rfl⟩
  · rintro ⟨_, ⟨f, hf, rfl⟩, rfl⟩
    exact ⟨f, hf, rfl⟩

omit hs in
theorem answers_reachable :
    (Result.ofState a.program s).answers.reachable = (a.answers s.facts).reachable := by
  ext x
  simp only [Result.answers, Analysis.answers, Set.mem_ofPred_eq]
  rw [Result.ofState, Result.mem_reachable_projectCalls]
  constructor
  · rintro ⟨id, hid, rfl⟩
    exact ⟨_, id, hid, rfl⟩
  · intro h
    obtain ⟨k, id, hid, heq⟩ := h
    exact ⟨id, hid, congrArg Located.item heq⟩

theorem answers_entries (hentry : ∃ x, x ∈ s.calls.entries.toList) :
    (Result.ofState a.program s).answers.entries = (a.answers s.facts).entries := by
  ext x
  simp only [Result.answers, Analysis.answers, Set.mem_ofPred_eq, Set.mem_singleton_iff]
  rw [Result.ofState, Result.mem_entries_projectCalls]
  constructor
  · rintro ⟨id, hid, rfl⟩
    exact congrArg Located.item (hs.entries id hid).2
  · rintro rfl
    obtain ⟨id, hid⟩ := hentry
    exact ⟨id, hid, congrArg Located.item (hs.entries id hid).2⟩

theorem answers_ofState (hentry : ∃ x, x ∈ s.calls.entries.toList) :
    (Result.ofState a.program s).answers = a.answers s.facts := by
  apply Answers.ext
  · exact funext answers_pointsTo
  · exact funext answers_statics
  · exact funext fun b => funext (answers_fields hs b)
  · exact funext (answers_elements hs)
  · exact answers_calls hs
  · exact answers_reachable
  · exact answers_entries hs hentry

end OfState

theorem isObject_of_mem_pointsTo (hs : s.Sound a F) {v : VarId} {o : ObjectId}
    (ho : o ∈ (Result.ofState a.program s).pointsTo v) : s.entities.IsObject o := by
  obtain ⟨c, k, -, -, q, hq, rfl⟩ := Result.mem_pointsTo.1 ho
  exact (hs.entities.qobject (hs.due c q (Or.inl hq)).2.1).2

/-- Two variables may be aliases if there is an object that both may hold. -/
theorem mayAlias_ofState_iff (hs : s.Sound a F) {u v : VarId} :
    (Result.ofState a.program s).mayAlias u v = true ↔
      ∃ h, h ∈ (Result.ofState a.program s).answers.pointsTo u ∧
        h ∈ (Result.ofState a.program s).answers.pointsTo v := by
  rw [Result.mayAlias, IdSet.meets_iff]
  constructor
  · intro hexists
    obtain ⟨o, hu, hv⟩ := hexists
    exact ⟨_, ⟨o, hu, rfl⟩, o, hv, rfl⟩
  · rintro ⟨_, ⟨o, hu, rfl⟩, o', hv, heq⟩
    have ho := isObject_of_mem_pointsTo hs hu
    have ho' := isObject_of_mem_pointsTo hs hv
    obtain rfl := Entities.object_injective ho' ho heq
    exact ⟨o', hu, hv⟩

end State

namespace Analysis

variable {a : Analysis} {order : WorkOrder} {limit : Option Nat} {r : Result}

/-- The answers of a finished analysis are those of the least closed facts. -/
theorem answers_of_result (hp : a.program.Indexed) (h : a.result order limit = .ok r) :
    ∃ F, IsLeast {F | a.Closed F} F ∧ r.answers = a.answers F := by
  obtain ⟨hsolve, hr⟩ := result_eq_ok h
  have hsound := (advances_of_solve hp (closed_all a) hsolve).sound
  refine ⟨r.state.facts, isLeast_facts hp hsolve, ?_⟩
  rw [hr]
  exact State.answers_ofState hsound (entry_mem_entries hp hsolve)

theorem mayAlias_iff (hp : a.program.Indexed) (h : a.result order limit = .ok r) {u v : VarId} :
    r.mayAlias u v = true ↔ ∃ o, o ∈ r.answers.pointsTo u ∧ o ∈ r.answers.pointsTo v := by
  obtain ⟨hsolve, hr⟩ := result_eq_ok h
  rw [hr]
  exact State.mayAlias_ofState_iff (advances_of_solve hp (closed_all a) hsolve).sound

end Analysis

end PointsTo
