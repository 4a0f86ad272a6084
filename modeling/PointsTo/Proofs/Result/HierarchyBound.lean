import PointsTo.Proofs.Origins
import PointsTo.Proofs.Program.HierarchyCalls
import PointsTo.Proofs.Result.Answers
import PointsTo.Proofs.Solver.Safety

/-! The call graph of the hierarchy as a bound. If virtual and interface calls find only objects of
classes below the ones that they name, then each call edge of a finished analysis leads to a method that
the call may run by the hierarchy alone. Reachable methods hang together by call edges, so all of them
are reached in the hierarchy too. -/

namespace PointsTo

/-- What the first graph has is in the second, and call sites are placed in the same methods. -/
structure CallGraph.Within {S M : Type} [Coded S] [Coded M] (g h : CallGraph S M) : Prop where
  reachable : ∀ x ∈ g.reachable.toList, x ∈ h.reachable.toList
  edges : ∀ e ∈ g.edges.toList, e ∈ h.edges.toList
  containers : ∀ e ∈ g.edges.toList, ∃ x, g.container? e.site = some x ∧ h.container? e.site = some x

namespace Result

/-- The object is of a class, and of one below the class that the call names. -/
def Suits (r : Result) (i : CallId) (o : ObjectId) : Prop :=
  (r.program.cls (r.entities.object o).type).isInterface = false ∧
    (r.entities.object o).type ∈ r.program.subtypesOf (r.program.call i).cls

instance (r : Result) (i : CallId) (o : ObjectId) : Decidable (r.Suits i o) :=
  inferInstanceAs (Decidable (_ ∧ _))

/-- What a virtual or interface call finds at its receiver, under any context, suits the call. -/
def TypeConsistent (r : Result) : Prop :=
  ∀ i, r.program.IsCall i →
    (r.program.call i).kind = .virtual ∨ (r.program.call i).kind = .interface →
      ∀ v ∈ (r.program.call i).receiver, ∀ c objects, r.pointsToUnder? c v = some objects →
        ∀ o ∈ objects, r.Suits i (r.entities.baseObject o)

/-- The same of the objects of receivers, contexts left out, which can be computed. -/
def ReceiversSuit (r : Result) : Prop :=
  ∀ i ∈ r.program.callIds,
    (r.program.call i).kind = .virtual ∨ (r.program.call i).kind = .interface →
      ∀ v ∈ (r.program.call i).receiver, ∀ o ∈ (r.pointsTo v).toList, r.Suits i o

instance (r : Result) : Decidable r.ReceiversSuit :=
  inferInstanceAs (Decidable (∀ i ∈ r.program.callIds,
    (r.program.call i).kind = .virtual ∨ (r.program.call i).kind = .interface →
      ∀ v ∈ (r.program.call i).receiver, ∀ o ∈ (r.pointsTo v).toList, r.Suits i o))

variable {r : Result} {p : Program} {s : State}

theorem pointsToUnder?_eq_some_iff {c : Context} {v : VarId} {objects : IdSet (.qualified .object)} :
    r.pointsToUnder? c v = some objects ↔
      ∃ k cell, r.entities.IsContext k ∧ r.entities.context k = c ∧ r.entities.IsCell cell ∧
        r.entities.cell cell = .var k v ∧ r.entities.pointsTo cell = objects := by
  simp only [pointsToUnder?, Option.bind_eq_bind, Option.bind_eq_some_iff, Option.pure_def,
    Option.some.injEq, Entities.lookupContext?_eq_some_iff, Entities.lookupCell?_eq_some_iff]
  constructor
  · intro h
    obtain ⟨k, ⟨hk, hread⟩, cell, ⟨hcell, hvar⟩, hobjects⟩ := h
    exact ⟨k, cell, hk, hread, hcell, hvar, hobjects⟩
  · intro h
    obtain ⟨k, cell, hk, hread, hcell, hvar, hobjects⟩ := h
    exact ⟨k, ⟨hk, hread⟩, cell, ⟨hcell, hvar⟩, hobjects⟩

/-- The objects of a variable are those that it has under some context. -/
theorem typeConsistent_iff (hs : s.entities.Scoped) :
    (ofState p s).TypeConsistent ↔ (ofState p s).ReceiversSuit := by
  constructor
  · intro h i hi hkind v hv o ho
    obtain ⟨cell, k, hcell, hvar, q, hq, rfl⟩ := mem_pointsTo.1 (IdSet.mem_toList.1 ho)
    have hk : s.entities.ScopedCell (.var k v) := hvar ▸ hs.cell hcell
    exact h i (Id.mem_upTo.1 hi) hkind v hv _ _
      (pointsToUnder?_eq_some_iff.2 ⟨k, cell, hk, rfl, hcell, hvar, rfl⟩) q hq
  · intro h i hi hkind v hv c objects hobjects q hq
    obtain ⟨k, cell, -, -, hcell, hvar, rfl⟩ := pointsToUnder?_eq_some_iff.1 hobjects
    apply h i (Id.mem_upTo.2 hi) hkind v hv
    exact IdSet.mem_toList.2 (mem_pointsTo.2 ⟨cell, k, hcell, hvar, q, hq, rfl⟩)

end Result

namespace State

variable {a : Analysis} {s : State}

/-- What a call edge leads to is what the call may run by the hierarchy alone. -/
theorem mem_hierarchyCallees_of_originates (hp : a.program.Accepted) (hs : s.Sound a s.facts)
    (hconsistent : (Result.ofState a.program s).TypeConsistent) {e : LocatedEdge}
    (he : a.Originates s.facts e) :
    e.callee.item ∈ a.program.hierarchyCallees (a.program.call e.site.item) := by
  cases he with
  | @static x i y hx hi hstatic hy =>
    have hkind : (a.program.call i).kind = .static := by simpa [Call.isStatic] using hstatic
    apply Program.mem_hierarchyCallees_of_callee? _ _ hy
    · rw [hkind]
      decide
    · rw [hkind]
      decide
  | @receiver c v o i y ho hi hv hy =>
    -- special calls have a receiver as well, but do not look at its class
    by_cases hkind : (a.program.call i).kind = .virtual ∨ (a.program.call i).kind = .interface
    · obtain ⟨cell, q, hq, heq⟩ := ho
      obtain ⟨hcell, rfl⟩ := Prod.mk.inj heq
      obtain ⟨k, hvar, -⟩ := Entities.cellAt_eq_var_iff.1 hcell
      have hmem : s.entities.baseObject q ∈ (Result.ofState a.program s).pointsTo v :=
        Result.mem_pointsTo.2 ⟨cell, k, (hs.due cell q (Or.inl hq)).1, hvar, q, hq, rfl⟩
      obtain ⟨hclass, hbelow⟩ := (Result.typeConsistent_iff hs.entities).1 hconsistent i
        (Id.mem_upTo.2 (hp.isCall_of_mem_body hi)) hkind v hv _ (IdSet.mem_toList.2 hmem)
      exact Program.mem_hierarchyCallees_of_subtype hkind hbelow hclass hy
    · rw [not_or] at hkind
      exact Program.mem_hierarchyCallees_of_callee? hkind.1 hkind.2 hy

end State

namespace Analysis

open State

variable {a : Analysis} {order : WorkOrder} {limit : Option Nat} {r : Result} {s : State}

section Solved

variable (hp : a.program.Accepted) (h : a.solve order limit = .ok s)
  (hconsistent : (Result.ofState a.program s).TypeConsistent)

include hp h hconsistent

/-- The call of a call edge is in a reachable method and may run the callee by the hierarchy alone. -/
theorem exists_caller_of_edge {e : QCallEdge} (he : e ∈ s.calls.edges.toList) :
    ∃ x ∈ s.calls.reachable.toList,
      .invoke (s.entities.qcall e.site).item ∈
        (a.program.method (s.entities.qmethod x).item).body ∧
      (s.entities.qmethod e.callee).item ∈
        a.program.hierarchyCallees (a.program.call (s.entities.qcall e.site).item) := by
  have hs := (final_of_solve hp.indexed h).sound
  have horigin := originates_of_isLeast (isLeast_facts hp.indexed h) ⟨e, he, rfl⟩
  obtain ⟨x, hx, hcaller⟩ := exists_reachable_of_originates hp hs (complete_of_solve hp h) horigin
  obtain ⟨y, hi⟩ := horigin.exists_mem_body
  obtain rfl : (s.entities.qmethod x).item = y :=
    (congrArg Located.item hcaller).trans (hp.container_of_mem_body hi)
  exact ⟨x, hx, hi, mem_hierarchyCallees_of_originates hp hs hconsistent horigin⟩

/-- Reachable methods are reached along call edges, and so along calls that the hierarchy allows. -/
theorem mem_hierarchyReachable {x : QMethodId} (hx : x ∈ s.calls.reachable.toList) :
    (s.entities.qmethod x).item ∈ a.program.hierarchyReachable := by
  have hcomplete := complete_of_solve hp h
  have hstep : ∀ y z, s.Calls y z →
      a.program.MayCall (s.entities.qmethod y).item (s.entities.qmethod z).item := by
    intro y z hcalls
    obtain ⟨e, he, hy, rfl⟩ := hcalls
    -- the method on the path is the one in which the call site has been placed
    obtain ⟨y', hy', -, hread⟩ := hcomplete.placed e he
    obtain rfl : y = y' := Option.some.inj (hy.symm.trans hy')
    obtain ⟨w, -, hi, hcallee⟩ := exists_caller_of_edge hp h hconsistent he
    refine ⟨_, ?_, hcallee⟩
    rw [hread, Program.holder, hp.container_of_mem_body hi]
    exact hi
  obtain ⟨y, -, hstart, hpath⟩ := hcomplete.connected x hx
  have hentry : (s.entities.qmethod y).item = a.program.entry := congrArg Located.item hstart.2
  rw [hp.mem_hierarchyReachable_iff, ← hentry]
  exact hpath.lift (fun z => (s.entities.qmethod z).item) hstep

end Solved

/-- On a run where calls find only objects of classes below the ones that they name, the call graph is
within that of the hierarchy. -/
theorem callGraph_within_hierarchy (hp : a.program.Accepted) (h : a.result order limit = .ok r)
    (hconsistent : r.TypeConsistent) : r.callGraph.Within a.program.hierarchyCallGraph := by
  obtain ⟨hsolve, hr⟩ := result_eq_ok h
  generalize r.state = s at hsolve hr
  subst hr
  have hs := (final_of_solve hp.indexed hsolve).sound
  have hhierarchy := hp.records_hierarchyCallGraph
  have hprojected := Result.records_projectCalls fun e he => (hs.requested e (Or.inl he)).2.2.2
  have hedges : ∀ e ∈ (Result.projectCalls a.program s).edges.toList,
      (∃ x ∈ a.program.hierarchyReachable, e.site ∈ a.program.callsIn x) ∧
        e.callee ∈ a.program.hierarchyCallees (a.program.call e.site) := by
    intro e he
    obtain ⟨-, f, hf, hends⟩ := (hprojected.edges e).1 he
    obtain ⟨hsite, hcallee⟩ := Prod.mk.inj hends
    obtain ⟨x, hx, hi, hmem⟩ := exists_caller_of_edge hp hsolve hconsistent hf
    rw [← hsite, ← hcallee]
    exact ⟨⟨_, mem_hierarchyReachable hp hsolve hconsistent hx, Program.mem_callsIn.2 hi⟩, hmem⟩
  refine ⟨fun x hx => ?_, fun e he => ?_, fun e he => ⟨(a.program.call e.site).container, ?_, ?_⟩⟩
  · obtain ⟨y, hy, rfl⟩ := Result.mem_reachable_projectCalls.1 hx
    rw [Program.Accepted.mem_reachable_hierarchyCallGraph]
    exact mem_hierarchyReachable hp hsolve hconsistent hy
  · rw [hhierarchy.edges]
    exact ⟨((hprojected.edges e).1 he).1, hedges e he⟩
  · obtain ⟨-, f, hf, hends⟩ := (hprojected.edges e).1 he
    exact (hprojected.containers _ _).2 ⟨⟨f, hf, (Prod.mk.inj hends).1⟩, rfl⟩
  · exact (hhierarchy.containers _ _).2 ⟨(hedges e he).1, rfl⟩

/-- In the small program the receiver is an object of the class that the call names. -/
theorem callGraph_within_hierarchy_identity : ∃ r, identity.result .fifo none = .ok r ∧
    r.TypeConsistent ∧ r.callGraph.Within Program.identity.hierarchyCallGraph := by
  obtain ⟨s, hs⟩ := exists_eq_ok (e := identity.solve .fifo none) (by decide +kernel)
  have hr : identity.result .fifo none = .ok (.ofState .identity s) := by
    rw [result, hs]
    rfl
  have hscoped := (final_of_solve (a := identity) Program.accepted_identity.indexed hs).sound.entities
  have hchecked : (identity.result .fifo none).toOption.all (fun r => decide r.ReceiversSuit) = true := by
    decide +kernel
  rw [hr, Except.toOption, Option.all_some, decide_eq_true_iff] at hchecked
  have hconsistent := (Result.typeConsistent_iff hscoped).2 hchecked
  have hwithin := callGraph_within_hierarchy (a := identity) Program.accepted_identity hr hconsistent
  exact ⟨_, hr, hconsistent, hwithin⟩

end Analysis

end PointsTo
