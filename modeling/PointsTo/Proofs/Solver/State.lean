import PointsTo.Proofs.Facts

/-! States of the solver as facts. A state has established some facts and promised others: objects that
wait for a cell and call edges that wait to be installed count as promised. States grow in both. -/

namespace PointsTo

namespace State

section Facts

variable (s : State)

/-- An object is in a cell or waits to enter it. -/
def Due (c : CellId) (o : QObjectId) : Prop := o ∈ s.entities.pointsTo c ∨ o ∈ s.work.pendingFor c

/-- A call edge is installed or waits to be. -/
def Requested (e : QCallEdge) : Prop := e ∈ s.calls.edges.toList ∨ e ∈ s.work.calls.toList

/-- The facts that a state has established. -/
def facts : Facts where
  reach := {x | ∃ id ∈ s.calls.reachable.toList, s.entities.qmethodAt id = x}
  calls := {e | ∃ id ∈ s.calls.edges.toList, s.entities.edgeAt id = e}
  flow := {f | ∃ x y, s.flow.hasEdge x y = true ∧ (s.entities.cellAt x, s.entities.cellAt y) = f}
  pointsTo := {f | ∃ c, ∃ o ∈ s.entities.pointsTo c, (s.entities.cellAt c, s.entities.qobjectAt o) = f}

/-- The facts that a state has established or will have once the work that waits is done. -/
def promised : Facts where
  reach := s.facts.reach
  calls := {e | ∃ id, s.Requested id ∧ s.entities.edgeAt id = e}
  flow := s.facts.flow
  pointsTo := {f | ∃ c o, s.Due c o ∧ (s.entities.cellAt c, s.entities.qobjectAt o) = f}

/-- What the source of a flow edge holds is due at its target. -/
def FlowSettled : Prop :=
  ∀ x y, s.flow.hasEdge x y = true → ∀ o ∈ s.entities.pointsTo x, s.Due y o

/-- Everything spoken of in a state is known, and its parts are coherent. -/
structure Scoped : Prop where
  entities : s.entities.Scoped
  work : s.work.Coherent
  calls : s.calls.Coherent
  entries : ∀ x ∈ s.calls.entries.toList, s.entities.IsQMethod x
  reachable : ∀ x ∈ s.calls.reachable.toList, s.entities.IsQMethod x
  requested : ∀ e, s.Requested e → s.entities.IsQCall e.site ∧ s.entities.IsQMethod e.callee
  due : ∀ c o, s.Due c o → s.entities.IsCell c ∧ s.entities.IsQObject o
  flow : ∀ x y, s.flow.hasEdge x y = true → s.entities.IsCell x ∧ s.entities.IsCell y
  containers : ∀ c x, s.calls.container? c = some x →
    s.entities.IsQCall c ∧ s.entities.IsQMethod x

end Facts

/-- Nothing that one state has or promises is missing in the other. -/
structure Grows (s u : State) : Prop where
  entities : s.entities.Extends u.entities
  pointsTo : ∀ c, ∀ o ∈ s.entities.pointsTo c, o ∈ u.entities.pointsTo c
  due : ∀ c o, s.Due c o → u.Due c o
  entries : ∀ x ∈ s.calls.entries.toList, x ∈ u.calls.entries.toList
  reachable : ∀ x ∈ s.calls.reachable.toList, x ∈ u.calls.reachable.toList
  edges : ∀ e ∈ s.calls.edges.toList, e ∈ u.calls.edges.toList
  requested : ∀ e, s.Requested e → u.Requested e
  flow : ∀ x y, s.flow.hasEdge x y = true → u.flow.hasEdge x y = true
  placed : ∀ c x, s.calls.container? c = some x → ∃ y, u.calls.container? c = some y

variable {s u v : State}

theorem facts_le_promised : s.facts ≤ s.promised := by
  refine Facts.le_iff.2 ⟨subset_rfl, ?_, subset_rfl, ?_⟩
  · rintro _ ⟨e, he, rfl⟩
    exact ⟨e, Or.inl he, rfl⟩
  · rintro _ ⟨c, o, ho, rfl⟩
    exact ⟨c, o, Or.inl ho, rfl⟩

/-- When no work is left, what is due in a cell is there. -/
theorem mem_pointsTo_of_due (hs : s.Scoped) (h : s.work.isEmpty = true) {c : CellId} {o : QObjectId}
    (ho : s.Due c o) : o ∈ s.entities.pointsTo c := by
  rw [WorkList.isEmpty, Bool.and_eq_true, Queue.isEmpty_iff, Queue.isEmpty_iff] at h
  rcases ho with ho | ho
  · exact ho
  · have hnot : c ∉ s.work.waiting.toList := by
      rw [h.1]
      exact List.not_mem_nil
    rw [WorkList.pendingFor_eq_empty hs.work hnot] at ho
    exact absurd ho IdSet.not_mem_empty

/-- When no work is left, what was promised is established. -/
theorem promised_eq_facts (hs : s.Scoped) (h : s.work.isEmpty = true) : s.promised = s.facts := by
  refine le_antisymm (Facts.le_iff.2 ⟨subset_rfl, ?_, subset_rfl, ?_⟩) facts_le_promised
  · rintro _ ⟨e, he | he, rfl⟩
    · exact ⟨e, he, rfl⟩
    · rw [WorkList.isEmpty, Bool.and_eq_true, Queue.isEmpty_iff, Queue.isEmpty_iff] at h
      rw [h.2] at he
      cases he
  · rintro _ ⟨c, o, ho, rfl⟩
    exact ⟨c, o, mem_pointsTo_of_due hs h ho, rfl⟩

theorem mem_addContext (s : State) (c : Context) :
    c ∈ (s.addContext c).entities.contexts.toList := Entities.mem_addContext _ _

theorem mem_addObject (s : State) (o : HeapObject) :
    o ∈ (s.addObject o).entities.objects.toList := Entities.mem_addObject _ _

theorem mem_addQObject (s : State) (o : Qualified .object) :
    o ∈ (s.addQObject o).entities.qobjects.toList := Entities.mem_addQObject _ _

theorem mem_addQMethod (s : State) (x : Qualified .method) :
    x ∈ (s.addQMethod x).entities.qmethods.toList := Entities.mem_addQMethod _ _

theorem mem_addQCall (s : State) (c : Qualified .call) :
    c ∈ (s.addQCall c).entities.qcalls.toList := Entities.mem_addQCall _ _

theorem mem_addCell (s : State) (c : Cell) : c ∈ (s.addCell c).entities.cells.toList :=
  Entities.mem_addCell _ _

namespace Grows

theorem refl (s : State) : s.Grows s :=
  ⟨.refl _, fun _ _ h => h, fun _ _ h => h, fun _ h => h, fun _ h => h, fun _ h => h, fun _ h => h,
    fun _ _ h => h, fun _ x h => ⟨x, h⟩⟩

theorem trans (h : s.Grows u) (h' : u.Grows v) : s.Grows v where
  entities := h.entities.trans h'.entities
  pointsTo c o ho := h'.pointsTo c o (h.pointsTo c o ho)
  due c o ho := h'.due c o (h.due c o ho)
  entries x hx := h'.entries x (h.entries x hx)
  reachable x hx := h'.reachable x (h.reachable x hx)
  edges e he := h'.edges e (h.edges e he)
  requested e he := h'.requested e (h.requested e he)
  flow x y hxy := h'.flow x y (h.flow x y hxy)
  placed c x hx := by
    obtain ⟨y, hy⟩ := h.placed c x hx
    exact h'.placed c y hy

theorem facts_le (h : s.Grows u) (hs : s.Scoped) : s.facts ≤ u.facts := by
  refine Facts.le_iff.2 ⟨?_, ?_, ?_, ?_⟩
  · rintro _ ⟨x, hx, rfl⟩
    exact ⟨x, h.reachable x hx, h.entities.qmethodAt hs.entities (hs.reachable x hx)⟩
  · rintro _ ⟨e, he, rfl⟩
    obtain ⟨hsite, hcallee⟩ := hs.requested e (Or.inl he)
    exact ⟨e, h.edges e he, h.entities.edgeAt hs.entities hsite hcallee⟩
  · rintro _ ⟨x, y, hxy, rfl⟩
    obtain ⟨hx, hy⟩ := hs.flow x y hxy
    refine ⟨x, y, h.flow x y hxy, ?_⟩
    rw [h.entities.cellAt hs.entities hx, h.entities.cellAt hs.entities hy]
  · rintro _ ⟨c, o, ho, rfl⟩
    obtain ⟨hc, hobject⟩ := hs.due c o (Or.inl ho)
    refine ⟨c, o, h.pointsTo c o ho, ?_⟩
    rw [h.entities.cellAt hs.entities hc, h.entities.qobjectAt hs.entities hobject]

theorem promised_le (h : s.Grows u) (hs : s.Scoped) : s.promised ≤ u.promised := by
  obtain ⟨hreach, -, hflow, -⟩ := Facts.le_iff.1 (h.facts_le hs)
  refine Facts.le_iff.2 ⟨hreach, ?_, hflow, ?_⟩
  · rintro _ ⟨e, he, rfl⟩
    obtain ⟨hsite, hcallee⟩ := hs.requested e he
    exact ⟨e, h.requested e he, h.entities.edgeAt hs.entities hsite hcallee⟩
  · rintro _ ⟨c, o, ho, rfl⟩
    obtain ⟨hc, hobject⟩ := hs.due c o ho
    refine ⟨c, o, h.due c o ho, ?_⟩
    rw [h.entities.cellAt hs.entities hc, h.entities.qobjectAt hs.entities hobject]

end Grows

end State

end PointsTo
