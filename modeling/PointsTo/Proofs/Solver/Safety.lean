import PointsTo.Proofs.Origins
import PointsTo.Proofs.Solver.Callers
import PointsTo.Proofs.Solver.Final

/-! Safety. In every state of a run of an accepted program the numbers spoken of are those of things that
exist, a cell that is taken off the work list has objects pending, and a call edge that is taken off has
a reachable caller. A run that ends has passed its objects along every flow edge, has no variable of a
method that was never entered, and has placed every call site in the method that holds it. -/

namespace PointsTo

structure HeapObject.InRange (p : Program) (o : HeapObject) : Prop where
  origin : match o.origin with
    | .site s => p.IsSite s
    | .merged c => p.IsClass c
  type : p.IsClass o.type
  container : ∀ c ∈ o.container, p.IsClass c

namespace Entities

section InRange

variable (p : Program) (t : Entities)

def ElemInRange : ContextElem → Prop
  | .callSite i => p.IsCall i
  | .object o => t.IsObject o
  | .type c => p.IsClass c

def CellInRange : Cell → Prop
  | .var k v => t.IsContext k ∧ p.IsVar v
  | .field o f => t.IsQObject o ∧ p.IsField f
  | .static f => p.IsField f
  | .elements o => t.IsQObject o

/-- Every number spoken of is that of something in the program or in the collection itself. -/
structure InRange : Prop where
  contexts : ∀ c ∈ t.contexts.toList, ∀ e ∈ c.elems, t.ElemInRange p e
  objects : ∀ o ∈ t.objects.toList, o.InRange p
  qobjects : ∀ o ∈ t.qobjects.toList, t.IsContext o.context ∧ t.IsObject o.item
  qmethods : ∀ x ∈ t.qmethods.toList, t.IsContext x.context ∧ p.IsMethod x.item
  qcalls : ∀ c ∈ t.qcalls.toList, t.IsContext c.context ∧ p.IsCall c.item
  cells : ∀ c ∈ t.cells.toList, t.CellInRange p c
  held : ∀ c, ∀ o ∈ t.pointsTo c, t.IsCell c ∧ t.IsQObject o

end InRange

end Entities

namespace State

section Safe

variable (a : Analysis) (s : State)

structure InRange (p : Program) : Prop where
  entities : s.entities.InRange p
  flow : ∀ f ∈ s.flow.edges, s.entities.IsCell f.1 ∧ s.entities.IsCell f.2
  edges : ∀ e ∈ s.calls.edges.toList, s.entities.IsQCall e.site ∧ s.entities.IsQMethod e.callee
  queued : ∀ e ∈ s.work.calls.toList, s.entities.IsQCall e.site ∧ s.entities.IsQMethod e.callee
  waiting : ∀ c ∈ s.work.waiting.toList, s.entities.IsCell c
  pending : ∀ c, ∀ o ∈ s.work.pendingFor c, s.entities.IsCell c ∧ s.entities.IsQObject o
  entries : ∀ x ∈ s.calls.entries.toList, s.entities.IsQMethod x
  reachable : ∀ x ∈ s.calls.reachable.toList, s.entities.IsQMethod x
  containers : ∀ c x, s.calls.container? c = some x → s.entities.IsQCall c ∧ s.entities.IsQMethod x

/-- What the solver takes for granted of a state when it takes up the next work item. -/
structure Safe : Prop where
  inRange : s.InRange a.program
  pending : ∀ c waiting, s.work.popCell? = some (c, waiting) → s.work.pending.contains c = true
  caller : ∀ e rest, s.work.poll = some (.call e, rest) →
    s.Enters (a.program.holder (s.entities.qcall e.site))

/-- A call edge leads from the method that its call site has been placed in to its callee. -/
def Calls (x y : QMethodId) : Prop :=
  ∃ e ∈ s.calls.edges.toList, s.calls.container? e.site = some x ∧ e.callee = y

/-- What holds of a state once no work is left. -/
structure Complete : Prop where
  work : s.work.isEmpty = true
  flow : ∀ f ∈ s.flow.edges, (s.entities.pointsTo f.1).subset (s.entities.pointsTo f.2) = true
  vars : ∀ k v, .var k v ∈ s.entities.cells.toList → s.Enters ⟨k, (a.program.var v).method⟩
  connected : ∀ x ∈ s.calls.reachable.toList,
    ∃ y ∈ s.calls.entries.toList, s.entities.StartsIn a y ∧ Relation.ReflTransGen s.Calls y x
  placed : ∀ e ∈ s.calls.edges.toList, ∃ x, s.calls.container? e.site = some x ∧
    s.entities.IsQMethod x ∧ s.entities.qmethod x = a.program.holder (s.entities.qcall e.site)

end Safe

end State

/-- A call site that has been placed is in the method that holds it, also by number. -/
theorem Entities.qmethod_of_placedIn {a : Analysis} {t : Entities} (ht : t.Scoped) {c : QCallId}
    {x : QMethodId} (h : t.PlacedIn a c x) : t.qmethod x = a.program.holder (t.qcall c) := by
  obtain ⟨hc, hx, hread⟩ := h
  obtain ⟨hcontext, hitem⟩ := Located.mk.inj hread
  exact Qualified.ext (ht.contextAt_injective (ht.qmethod hx) (ht.qcall hc) hcontext) hitem

namespace Analysis

open State

variable {a : Analysis} {s : State} {order : WorkOrder}

/-! ### Numbers in range -/

theorem inRange_object {m : HeapModel} {p : Program} (hp : p.Accepted) {site : SiteId}
    (hsite : p.IsSite site) : (m.object p.toModel site).InRange p := by
  have hknows := hp.scope.site hsite
  cases m with
  | allocationSite =>
    refine ⟨hsite, hknows.cls, fun c hc => ?_⟩
    obtain rfl := Option.some.inj hc
    exact (hp.scope.method hknows.container).owner
  | type => exact ⟨hknows.cls, hknows.cls, fun c hc => by cases hc⟩

theorem isClass_of_inRange {p : Program} {o : HeapObject} (ho : o.InRange p) :
    p.IsClass (o.container.getD o.type) := by
  cases hcontainer : o.container with
  | none => exact ho.type
  | some c => exact ho.container c hcontainer

section InRange

variable (hp : a.program.Accepted) (hs : s.Sound a a.possibleFacts)

include hp hs

theorem elemInRange {c : Context} (hc : c ∈ s.entities.contexts.toList) {e : ContextElem}
    (he : e ∈ c.elems) : s.entities.ElemInRange a.program e := by
  have hpossible := contexts_possibleFacts_subset (hs.named.contexts c hc)
  have helem := hpossible.2 _ (List.mem_map_of_mem he)
  cases e with
  | callSite i =>
    rcases helem with (⟨j, hj, heq⟩ | ⟨_, _, heq⟩) | ⟨_, _, heq⟩
    · obtain rfl := ContextElemOf.callSite.inj heq
      exact hj
    · cases heq
    · cases heq
  | object o => exact hs.entities.contexts c hc o he
  | type d =>
    rcases helem with (⟨_, _, heq⟩ | ⟨_, _, heq⟩) | ⟨site, hsite, heq⟩
    · cases heq
    · cases heq
    · obtain rfl := ContextElemOf.type.inj heq
      exact isClass_of_inRange (inRange_object hp hsite)

theorem cellInRange {c : Cell} (hc : c ∈ s.entities.cells.toList) :
    s.entities.CellInRange a.program c := by
  have hscoped := hs.entities.cells c hc
  have hplace := cells_possibleFacts_subset hp (hs.named.cells c hc)
  cases c with
  | var k v => exact ⟨hscoped, hplace.2⟩
  | field o f => exact ⟨hscoped, hplace.2⟩
  | static f => exact hplace
  | elements o => exact hscoped

theorem entities_inRange : s.entities.InRange a.program where
  contexts c hc e he := elemInRange hp hs hc he
  objects o ho := by
    obtain ⟨q, ⟨p, hpq⟩, rfl⟩ := hs.named.objects o ho
    obtain ⟨-, -, site, hsite, hitem⟩ := hpq
    rw [← hitem]
    exact inRange_object hp hsite
  qobjects := hs.entities.qobjects
  qmethods x hx := ⟨hs.entities.qmethods x hx, qmethods_possibleFacts hp (hs.named.qmethods x hx)⟩
  qcalls c hc := by
    obtain ⟨e, he, hsite⟩ := hs.named.qcalls c hc
    refine ⟨hs.entities.qcalls c hc, ?_⟩
    have hitem := congrArg Located.item hsite
    rw [← show e.site.item = c.item from hitem]
    exact he.2.1.2
  cells c hc := cellInRange hp hs hc
  held c o ho := by
    obtain ⟨hcell, hobject, -⟩ := hs.due c o (Or.inl ho)
    exact ⟨hcell, hobject⟩

theorem state_inRange : s.InRange a.program where
  entities := entities_inRange hp hs
  flow f hf := hs.scope.flow f.1 f.2 (FlowGraph.mem_edges.1 hf)
  edges e he := hs.scope.requested e (Or.inl he)
  queued e he := hs.scope.requested e (Or.inr he)
  waiting _ hc := hs.scope.isCell_of_waiting hc
  pending c o ho := hs.scope.due c o (Or.inr ho)
  entries := hs.scope.entries
  reachable := hs.scope.reachable
  containers := hs.scope.containers

end InRange

/-! ### Runs -/

section Runs

variable (hp : a.program.Accepted)

include hp

theorem safe_run (order : WorkOrder) (n : Nat) : (a.run n (a.start order)).Safe a := by
  have hs := (advances_of_run hp.indexed (closed_possibleFacts hp) order n).sound
  refine ⟨state_inRange hp hs, fun c waiting hpop => ?_, fun e rest hpoll => ?_⟩
  · exact hs.work.contains_of_popCell? hpop
  · have hcalls := (WorkList.polled_of_poll hpoll).of_call.1
    have hmem : e ∈ (a.run n (a.start order)).work.calls.toList := by
      rw [hcalls]
      exact List.mem_cons_self
    exact ((anchored_run hp order n).callers e hmem).2

theorem complete_of_solve {limit : Option Nat} (h : a.solve order limit = .ok s) : s.Complete a := by
  have hfinal := final_of_solve hp.indexed h
  have hadvances := advances_of_solve hp.indexed (closed_all a) h
  obtain ⟨hrun, hempty⟩ := solve_eq_ok h
  have hanchored := anchored_run hp order (limit.getD itemRange)
  rw [hrun] at hanchored
  have hcalls : s.work.calls.toList = [] := by
    rw [WorkList.isEmpty, Bool.and_eq_true, Queue.isEmpty_iff, Queue.isEmpty_iff] at hempty
    exact hempty.2
  have hplaced : ∀ e ∈ s.calls.edges.toList, ∃ x, s.calls.container? e.site = some x ∧
      s.entities.IsQMethod x ∧ s.entities.qmethod x = a.program.holder (s.entities.qcall e.site) := by
    intro e he
    obtain ⟨x, hx⟩ := (hfinal.wired e he).placed
    have hin := hfinal.sound.containers e.site x hx
    exact ⟨x, hx, hin.2.1, Entities.qmethod_of_placedIn hfinal.sound.entities hin⟩
  refine ⟨hempty, fun f hf => ?_, fun k v hv => ?_, fun x hx => ?_, hplaced⟩
  · rw [IdSet.subset_iff]
    intro o ho
    have hdue := hadvances.settled (flowSettled_empty order) f.1 f.2 (FlowGraph.mem_edges.1 hf) o ho
    exact mem_pointsTo_of_due hfinal.sound.scope hempty hdue
  · exact (hanchored.cells k v hv).enters hcalls
  · obtain ⟨y, hy, hpath⟩ := hanchored.connected x hx
    refine ⟨y, hy, hfinal.sound.entries y hy, Relation.ReflTransGen.mono ?_ _ _ hpath⟩
    intro u w hleads
    obtain ⟨e, he, -, hu, hread, hcallee⟩ := hleads
    obtain ⟨z, hz, hzid, hzread⟩ := hplaced e he
    have hsame : s.entities.qmethodAt u = s.entities.qmethodAt z :=
      congrArg s.entities.qmethodOf (hread.trans hzread.symm)
    obtain rfl := hfinal.sound.entities.qmethodAt_injective hu hzid hsame
    exact ⟨e, he, hz, hcallee⟩

/-- What asks for a call edge is in a reachable method, which is the one that holds the call site. -/
theorem exists_reachable_of_originates (hs : s.Sound a s.facts) (hcomplete : s.Complete a)
    {e : LocatedEdge} (he : a.Originates s.facts e) :
    ∃ x ∈ s.calls.reachable.toList, s.entities.qmethodAt x = a.containerOf e.site := by
  cases he with
  | static hx hi =>
    obtain ⟨x, hx, rfl⟩ := hx
    refine ⟨x, hx, ?_⟩
    rw [containerOf, hp.container_of_mem_body hi]
  | @receiver c v o i y ho hi =>
    obtain ⟨cell, q, hq, heq⟩ := ho
    obtain ⟨k, hvar, rfl⟩ := Entities.cellAt_eq_var_iff.1 (Prod.mk.inj heq).1
    have hmem : .var k v ∈ s.entities.cells.toList := by
      rw [← show s.entities.cell cell = .var k v from hvar]
      exact Numbering.getD_mem (hs.due cell q (Or.inl hq)).1 _
    obtain ⟨x, hx, -, hread⟩ := hcomplete.vars k v hmem
    refine ⟨x, hx, ?_⟩
    rw [containerOf, hp.container_of_mem_body hi, Entities.qmethodAt, hread]
    rfl

/-- The method in which the call site of an edge has been placed is reachable. -/
theorem exists_reachable_container {limit : Option Nat} (h : a.solve order limit = .ok s)
    {e : QCallEdge} (he : e ∈ s.calls.edges.toList) :
    ∃ x ∈ s.calls.reachable.toList, s.calls.container? e.site = some x := by
  have hs := (final_of_solve hp.indexed h).sound
  have hcomplete := complete_of_solve hp h
  have horigin := originates_of_isLeast (isLeast_facts hp.indexed h) ⟨e, he, rfl⟩
  obtain ⟨x, hx, hcaller⟩ := exists_reachable_of_originates hp hs hcomplete horigin
  obtain ⟨y, hy, -⟩ := hcomplete.placed e he
  obtain ⟨-, hknown, hread⟩ := hs.containers e.site y hy
  obtain rfl := hs.entities.qmethodAt_injective (hs.reachable x hx).1 hknown (hcaller.trans hread.symm)
  exact ⟨x, hx, hy⟩

theorem reachable_callee {limit : Option Nat} (h : a.solve order limit = .ok s) {e : QCallEdge}
    (he : e ∈ s.calls.edges.toList) : e.callee ∈ s.calls.reachable.toList := by
  have hanchored := anchored_run hp order (limit.getD itemRange)
  rw [(solve_eq_ok h).1] at hanchored
  have hcalls := (final_of_solve hp.indexed h).sound.calls
  exact hanchored.linked e.site e.callee ((hcalls.hasEdge_iff _ _).2 ⟨e, he, rfl, rfl⟩)

/-- In no state of a run is the solver let down by what it takes for granted, and a run that ends is
complete. -/
theorem runs_safe (order : WorkOrder) : (∀ n, (a.run n (a.start order)).Safe a) ∧
    ∀ limit s, a.solve order limit = .ok s → s.Complete a :=
  ⟨safe_run hp order, fun _ _ h => complete_of_solve hp h⟩

end Runs

theorem runs_safe_identity : (∀ n, (identity.run n (identity.start .lifo)).Safe identity) ∧
    ∃ s, identity.solve .lifo none = .ok s ∧ s.Complete identity := by
  obtain ⟨hsafe, hcomplete⟩ := runs_safe (a := identity) Program.accepted_identity .lifo
  obtain ⟨s, hs⟩ := exists_eq_ok (e := identity.solve .lifo none) (by decide +kernel)
  exact ⟨hsafe, s, hs, hcomplete _ s hs⟩

end Analysis

end PointsTo
