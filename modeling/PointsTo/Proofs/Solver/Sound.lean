import PointsTo.Proofs.Solver.State

/-! States within closed facts. A state is sound for facts if whatever it numbers is spoken of by them
and whatever it has established or promised is among them. Entities are numbered, and work, edges and
containers are added, without leaving the facts. -/

namespace PointsTo

/-- Every entity that has a number is spoken of by the facts. -/
structure Entities.Named (a : Analysis) (F : Facts) (t : Entities) : Prop where
  contexts : ∀ c ∈ t.contexts.toList, t.contextOf c ∈ F.contexts
  objects : ∀ o ∈ t.objects.toList, o ∈ F.objects
  qobjects : ∀ o ∈ t.qobjects.toList, t.qobjectOf o ∈ F.qobjects
  qmethods : ∀ x ∈ t.qmethods.toList, t.qmethodOf x ∈ a.qmethods F
  qcalls : ∀ c ∈ t.qcalls.toList, t.qcallOf c ∈ F.qcalls
  cells : ∀ c ∈ t.cells.toList, t.placeOf c ∈ a.cells F

namespace Entities.Named

variable {a : Analysis} {F : Facts} {t : Entities}

theorem empty (a : Analysis) (F : Facts) : Entities.empty.Named a F := by
  constructor <;> intro _ h <;> simp [Entities.empty] at h

theorem addContext (h : t.Named a F) (ht : t.Scoped) {c : Context} (hc : t.contextOf c ∈ F.contexts) :
    (t.addContext c).Named a F where
  contexts := Numbering.forall_mem_insert h.contexts hc
  objects := h.objects
  qobjects o ho := by
    rw [(extends_addContext t c).qobjectOf ht (ht.qobjects o ho).1 (ht.qobjects o ho).2]
    exact h.qobjects o ho
  qmethods x hx := by
    rw [(extends_addContext t c).qmethodOf ht (ht.qmethods x hx)]
    exact h.qmethods x hx
  qcalls d hd := by
    rw [(extends_addContext t c).qcallOf ht (ht.qcalls d hd)]
    exact h.qcalls d hd
  cells d hd := by
    rw [(extends_addContext t c).placeOf ht (ht.cells d hd)]
    exact h.cells d hd

theorem addObject (h : t.Named a F) (ht : t.Scoped) {o : HeapObject} (ho : o ∈ F.objects) :
    (t.addObject o).Named a F where
  contexts c hc := by
    rw [(extends_addObject t o).contextOf (ht.contexts c hc)]
    exact h.contexts c hc
  objects := Numbering.forall_mem_insert h.objects ho
  qobjects p hp := by
    rw [(extends_addObject t o).qobjectOf ht (ht.qobjects p hp).1 (ht.qobjects p hp).2]
    exact h.qobjects p hp
  qmethods x hx := by
    rw [(extends_addObject t o).qmethodOf ht (ht.qmethods x hx)]
    exact h.qmethods x hx
  qcalls c hc := by
    rw [(extends_addObject t o).qcallOf ht (ht.qcalls c hc)]
    exact h.qcalls c hc
  cells c hc := by
    rw [(extends_addObject t o).placeOf ht (ht.cells c hc)]
    exact h.cells c hc

theorem addQObject (h : t.Named a F) (ht : t.Scoped) {o : Qualified .object}
    (ho : t.qobjectOf o ∈ F.qobjects) : (t.addQObject o).Named a F where
  contexts := h.contexts
  objects := h.objects
  qobjects := Numbering.forall_mem_insert h.qobjects ho
  qmethods := h.qmethods
  qcalls := h.qcalls
  cells c hc := by
    rw [(extends_addQObject t o).placeOf ht (ht.cells c hc)]
    exact h.cells c hc

theorem addQMethod (h : t.Named a F) {x : Qualified .method} (hx : t.qmethodOf x ∈ a.qmethods F) :
    (t.addQMethod x).Named a F where
  contexts := h.contexts
  objects := h.objects
  qobjects := h.qobjects
  qmethods := Numbering.forall_mem_insert h.qmethods hx
  qcalls := h.qcalls
  cells := h.cells

theorem addQCall (h : t.Named a F) {c : Qualified .call} (hc : t.qcallOf c ∈ F.qcalls) :
    (t.addQCall c).Named a F where
  contexts := h.contexts
  objects := h.objects
  qobjects := h.qobjects
  qmethods := h.qmethods
  qcalls := Numbering.forall_mem_insert h.qcalls hc
  cells := h.cells

theorem addCell (h : t.Named a F) {c : Cell} (hc : t.placeOf c ∈ a.cells F) :
    (t.addCell c).Named a F where
  contexts := h.contexts
  objects := h.objects
  qobjects := h.qobjects
  qmethods := h.qmethods
  qcalls := h.qcalls
  cells := Numbering.forall_mem_insert h.cells hc

end Entities.Named

namespace Entities

section Within

variable (a : Analysis) (F : Facts) (t : Entities)

/-- A known object, read as one that the facts let a known cell hold. -/
def HoldsIn (c : CellId) (o : QObjectId) : Prop :=
  t.IsCell c ∧ t.IsQObject o ∧ (t.cellAt c, t.qobjectAt o) ∈ F.pointsTo

def FlowsIn (x y : CellId) : Prop := t.IsCell x ∧ t.IsCell y ∧ (t.cellAt x, t.cellAt y) ∈ F.flow

def ReachedIn (x : QMethodId) : Prop := t.IsQMethod x ∧ t.qmethodAt x ∈ F.reach

/-- A known call edge of the facts, of the kind of its call. -/
def CalledIn (e : QCallEdge) : Prop :=
  t.IsQCall e.site ∧ t.IsQMethod e.callee ∧ t.edgeAt e ∈ F.calls ∧
    e.kind = (a.program.call (t.qcallAt e.site).item).kind

/-- A known call site in the method that holds it. -/
def PlacedIn (c : QCallId) (x : QMethodId) : Prop :=
  t.IsQCall c ∧ t.IsQMethod x ∧ t.qmethodAt x = a.containerOf (t.qcallAt c)

/-- A known method, read as the entry method under the empty context. -/
def StartsIn (x : QMethodId) : Prop := t.IsQMethod x ∧ t.qmethodAt x = ⟨.empty, a.program.entry⟩

end Within

namespace Extends

variable {a : Analysis} {F : Facts} {t u : Entities} (h : t.Extends u) (ht : t.Scoped)

include h ht

theorem holdsIn {c : CellId} {o : QObjectId} (ho : t.HoldsIn F c o) : u.HoldsIn F c o := by
  obtain ⟨hc, hobject, hF⟩ := ho
  refine ⟨h.isCell hc, h.isQObject hobject, ?_⟩
  rw [h.cellAt ht hc, h.qobjectAt ht hobject]
  exact hF

theorem flowsIn {x y : CellId} (hxy : t.FlowsIn F x y) : u.FlowsIn F x y := by
  obtain ⟨hx, hy, hF⟩ := hxy
  refine ⟨h.isCell hx, h.isCell hy, ?_⟩
  rw [h.cellAt ht hx, h.cellAt ht hy]
  exact hF

theorem reachedIn {x : QMethodId} (hx : t.ReachedIn F x) : u.ReachedIn F x := by
  obtain ⟨hx, hF⟩ := hx
  refine ⟨h.isQMethod hx, ?_⟩
  rw [h.qmethodAt ht hx]
  exact hF

theorem calledIn {e : QCallEdge} (he : t.CalledIn a F e) : u.CalledIn a F e := by
  obtain ⟨hsite, hcallee, hF, hkind⟩ := he
  refine ⟨h.isQCall hsite, h.isQMethod hcallee, ?_, ?_⟩
  · rw [h.edgeAt ht hsite hcallee]
    exact hF
  · rw [h.qcallAt ht hsite]
    exact hkind

theorem placedIn {c : QCallId} {x : QMethodId} (hc : t.PlacedIn a c x) : u.PlacedIn a c x := by
  obtain ⟨hc, hx, hcontainer⟩ := hc
  refine ⟨h.isQCall hc, h.isQMethod hx, ?_⟩
  rw [h.qmethodAt ht hx, h.qcallAt ht hc]
  exact hcontainer

theorem startsIn {x : QMethodId} (hx : t.StartsIn a x) : u.StartsIn a x := by
  obtain ⟨hx, hentry⟩ := hx
  refine ⟨h.isQMethod hx, ?_⟩
  rw [h.qmethodAt ht hx]
  exact hentry

end Extends

end Entities

namespace State

/-- The state stays within the facts. -/
structure Sound (a : Analysis) (F : Facts) (s : State) : Prop where
  entities : s.entities.Scoped
  named : s.entities.Named a F
  work : s.work.Coherent
  calls : s.calls.Coherent
  entries : ∀ x ∈ s.calls.entries.toList, s.entities.StartsIn a x
  reachable : ∀ x ∈ s.calls.reachable.toList, s.entities.ReachedIn F x
  requested : ∀ e, s.Requested e → s.entities.CalledIn a F e
  due : ∀ c o, s.Due c o → s.entities.HoldsIn F c o
  flow : ∀ x y, s.flow.hasEdge x y = true → s.entities.FlowsIn F x y
  containers : ∀ c x, s.calls.container? c = some x → s.entities.PlacedIn a c x

namespace Sound

variable {a : Analysis} {F : Facts} {s u : State}

theorem scope (hs : s.Sound a F) : s.Scoped where
  entities := hs.entities
  work := hs.work
  calls := hs.calls
  entries x hx := (hs.entries x hx).1
  reachable x hx := (hs.reachable x hx).1
  requested e he := ⟨(hs.requested e he).1, (hs.requested e he).2.1⟩
  due c o ho := ⟨(hs.due c o ho).1, (hs.due c o ho).2.1⟩
  flow x y hxy := ⟨(hs.flow x y hxy).1, (hs.flow x y hxy).2.1⟩
  containers c x hx := ⟨(hs.containers c x hx).1, (hs.containers c x hx).2.1⟩

theorem promised_le (hs : s.Sound a F) : s.promised ≤ F := by
  refine Facts.le_iff.2 ⟨?_, ?_, ?_, ?_⟩
  · rintro _ ⟨x, hx, rfl⟩
    exact (hs.reachable x hx).2
  · rintro _ ⟨e, he, rfl⟩
    exact (hs.requested e he).2.2.1
  · rintro _ ⟨x, y, hxy, rfl⟩
    exact (hs.flow x y hxy).2.2
  · rintro _ ⟨c, o, ho, rfl⟩
    exact (hs.due c o ho).2.2

theorem empty (a : Analysis) (F : Facts) (order : WorkOrder) : (State.empty order).Sound a F where
  entities := Entities.Scoped.empty
  named := Entities.Named.empty a F
  work := WorkList.Coherent.empty order
  calls := CallGraph.Coherent.empty
  entries x hx := by simp [State.empty, CallGraph.empty] at hx
  reachable x hx := by simp [State.empty, CallGraph.empty] at hx
  requested e he := by
    rcases he with he | he <;> simp [State.empty, CallGraph.empty, WorkList.empty] at he
  due c o ho := by
    rcases ho with ho | ho
    · simp [State.empty, Entities.empty, Entities.pointsTo] at ho
    · simp [State.empty] at ho
  flow x y hxy := absurd hxy FlowGraph.hasEdge_empty
  containers c x hx := by simp [State.empty, CallGraph.empty, CallGraph.container?] at hx

/-- More entities, of which the facts speak, in a state that is otherwise the same. -/
theorem extend {t : Entities} (hs : s.Sound a F) (hextends : s.entities.Extends t)
    (hpointsTo : ∀ c, t.pointsTo c = s.entities.pointsTo c) (hscoped : t.Scoped)
    (hnamed : t.Named a F) : ({ s with entities := t } : State).Sound a F where
  entities := hscoped
  named := hnamed
  work := hs.work
  calls := hs.calls
  entries x hx := hextends.startsIn hs.entities (hs.entries x hx)
  reachable x hx := hextends.reachedIn hs.entities (hs.reachable x hx)
  requested e he := hextends.calledIn hs.entities (hs.requested e he)
  due c o ho := by
    rw [Due, hpointsTo] at ho
    exact hextends.holdsIn hs.entities (hs.due c o ho)
  flow x y hxy := hextends.flowsIn hs.entities (hs.flow x y hxy)
  containers c x hx := hextends.placedIn hs.entities (hs.containers c x hx)

end Sound

end State

end PointsTo
