import PointsTo.Proofs.Origins
import PointsTo.Proofs.Program.Descriptions
import PointsTo.Proofs.Program.HierarchyCalls
import PointsTo.Proofs.Program.Instances
import PointsTo.Proofs.Solver.Final
import PointsTo.Proofs.Solver.Obligations

/-! Kinds of calls. A static call enters a static method, which has no receiver variable. A call of any
other kind enters a method with a body, which may be static as well: whether a method is static is not
looked at there, and the receiver is bound if the method has a variable for it, that is, if it is an
instance method. -/

namespace PointsTo

/-! ### What calls enter -/

namespace Model

variable {m : Model} {receiver : Option ClassId} {c : Call} {x : MethodId}

theorem isAbstract_of_dispatch? {t : ClassId} {s : Subsignature} (h : m.dispatch? t s = some x) :
    (m.method x).isAbstract = false := by
  obtain ⟨d, -, hd⟩ := List.exists_of_findSome?_eq_some h
  simpa using (Option.filter_eq_some_iff.1 hd).2

/-- Static calls look for static methods and let them be abstract. -/
theorem isStatic_of_callee? (hkind : c.kind = .static) (h : m.callee? receiver c = some x) :
    (m.method x).isStatic = true := by
  rw [callee?, hkind] at h
  exact (Option.filter_eq_some_iff.1 h).2

/-- The other kinds dispatch, which passes over abstract methods and takes static ones for what they
are. -/
theorem isAbstract_of_callee? (hkind : c.kind ≠ .static) (h : m.callee? receiver c = some x) :
    (m.method x).isAbstract = false := by
  rw [callee?] at h
  split at h
  · rename_i hstatic
    exact absurd hstatic hkind
  · exact isAbstract_of_dispatch? h
  · obtain ⟨t, -, ht⟩ := Option.bind_eq_some_iff.1 h
    exact isAbstract_of_dispatch? ht
  · obtain ⟨t, -, ht⟩ := Option.bind_eq_some_iff.1 h
    exact isAbstract_of_dispatch? ht
  · cases h

end Model

namespace Program

/-- What calls of its kind enter: a static call a static method, any other a method with a body, and
there is a receiver variable if the method is an instance method. -/
structure Suited (p : Program) (c : Call) (x : MethodId) : Prop where
  isStatic : c.kind = .static → (p.method x).isStatic = true ∧ (p.method x).this = none
  isConcrete : c.kind ≠ .static → (p.method x).isAbstract = false
  this : (p.method x).this.isSome = !(p.method x).isStatic

namespace Accepted

variable {p : Program} (hp : p.Accepted)

include hp

theorem suited_of_callee? {receiver : Option ClassId} {c : Call} {x : MethodId}
    (h : p.callee? receiver c = some x) : p.Suited c x := by
  have hmethod := Model.isMethod_of_callee? hp.scope h
  refine ⟨fun hkind => ?_, fun hkind => Model.isAbstract_of_callee? hkind h, hp.instancesHaveThis x hmethod⟩
  have hstatic := Model.isStatic_of_callee? hkind h
  exact ⟨hstatic, hp.staticsLackThis x hmethod hstatic⟩

/-- The hierarchy is asked for callees in the same way, with types below a class for receivers. -/
theorem suited_of_mem_hierarchyCallees {c : Call} {x : MethodId} (h : x ∈ p.hierarchyCallees c) :
    p.Suited c x := by
  rw [hierarchyCallees] at h
  cases hkind : c.kind with
  | static | special =>
    simp only [hkind, Option.mem_toList] at h
    exact hp.suited_of_callee? h
  | virtual | interface =>
    simp only [hkind] at h
    obtain ⟨t, -, ht⟩ := List.mem_filterMap.1 (List.mem_eraseDups.1 h)
    have hcallee : p.callee? (some t) c = some x := by
      rw [Model.callee?, hkind]
      exact ht
    exact hp.suited_of_callee? hcallee
  | dynamic =>
    simp only [hkind] at h
    exact absurd h List.not_mem_nil

end Accepted

end Program

/-! ### Call edges -/

namespace State

section Edges

variable (a : Analysis) (s : State) (e : QCallEdge)

/-- The object is at the receiver of a call edge, under the context of the call, and it is the callee
under the context of the callee that the call enters on it. -/
def Brings (o : QObjectId) : Prop :=
  (∃ v c, (a.program.call (s.entities.qcall e.site).item).receiver = some v ∧
    s.entities.Numbers c (.var (s.entities.qcall e.site).context v) ∧ o ∈ s.entities.pointsTo c) ∧
  a.program.callee? (some (s.entities.object (s.entities.baseObject o)).type)
      (a.program.call (s.entities.qcall e.site).item) = some (s.entities.qmethod e.callee).item ∧
  a.selector.calleeContext (s.entities.context (s.entities.qcall e.site).context)
      (s.entities.qcall e.site).item (some (s.entities.receiver o)) =
    s.entities.context (s.entities.qmethod e.callee).context

/-- Some object at the receiver is there for a call edge, and whatever object is there for it is bound to
the receiver variable of the callee, if there is one. -/
structure BindsReceiver : Prop where
  brought : ∃ o, s.Brings a e o
  bound : ∀ o, s.Brings a e o → ∀ this ∈ (a.program.method (s.entities.qmethod e.callee).item).this,
    ∃ c, s.entities.Numbers c (.var (s.entities.qmethod e.callee).context this) ∧
      o ∈ s.entities.pointsTo c

end Edges

variable {a : Analysis} {s : State} {e : QCallEdge}

/-- A call edge that no static call asks for is there for an object. -/
theorem exists_brings_of_originates (hs : s.Scoped) (he : e ∈ s.calls.edges.toList)
    (horigin : a.Originates s.facts (s.entities.edgeAt e))
    (hkind : (a.program.call (s.entities.qcall e.site).item).kind ≠ .static) :
    ∃ o, s.Brings a e o := by
  obtain ⟨hsite, hcallee⟩ := hs.requested e (Or.inl he)
  have hk := hs.entities.qcall hsite
  generalize hedge : s.entities.edgeAt e = f at horigin
  cases horigin with
  | @static x i y _ _ hstatic =>
    obtain rfl : (s.entities.qcall e.site).item = i := congrArg (fun f => f.site.item) hedge
    exact absurd (by simpa [Call.isStatic] using hstatic) hkind
  | @receiver c v o i y ho hi hv hy =>
    obtain ⟨-, hsiteAt, hcalleeAt⟩ := CallEdge.mk.inj hedge
    obtain ⟨hcontext, hitem⟩ := Located.mk.inj hsiteAt
    obtain ⟨htarget, hmethod⟩ := Located.mk.inj hcalleeAt
    obtain rfl : (s.entities.qcall e.site).item = i := hitem
    obtain rfl : (s.entities.qmethod e.callee).item = y := hmethod
    obtain ⟨d, q, hq, heq⟩ := ho
    obtain ⟨hcell, rfl⟩ := Prod.mk.inj heq
    obtain ⟨hd, hqobject⟩ := hs.due d q (Or.inl hq)
    rw [← hcontext] at hcell htarget
    refine ⟨q, ⟨v, d, hv, hs.entities.numbers_of_cellAt (x := .var _ v) hd hk hcell, hq⟩, hy, ?_⟩
    have hscoped := hs.entities.calleeContext_receiver hk a.selector (s.entities.qcall e.site).item hqobject
    apply Entities.contextOf_injective hscoped (hs.entities.context (hs.entities.qmethod hcallee))
    exact (s.entities.contextOf_contextOn a _ _ q).trans htarget.symm

end State

namespace Analysis

open State

variable {a : Analysis} {order : WorkOrder} {limit : Option Nat} {s : State}

theorem bindsReceiver_of_solve (hp : a.program.Accepted) (h : a.solve order limit = .ok s)
    {e : QCallEdge} (he : e ∈ s.calls.edges.toList)
    (hkind : (a.program.call (s.entities.qcall e.site).item).kind ≠ .static) : s.BindsReceiver a e := by
  have hs := (final_of_solve hp.indexed h).sound.scope
  have horigin := originates_of_isLeast (isLeast_facts hp.indexed h) ⟨e, he, rfl⟩
  refine ⟨exists_brings_of_originates hs he horigin hkind, fun o ho this hthis => ?_⟩
  obtain ⟨⟨v, c, hv, hnumbers, hmem⟩, hcallee, hcontext⟩ := ho
  obtain ⟨x, hi⟩ := horigin.exists_mem_body
  obtain ⟨hrun, hempty⟩ := solve_eq_ok h
  have hsettled := settled_run hp order (limit.getD itemRange)
  rw [hrun] at hsettled
  -- the rule speaks of an edge of its own, which leads under the same context
  obtain ⟨f, hf, hbound⟩ := hsettled.meets c _ v hnumbers o hmem x _ hi hv _ hcallee
  have hsame : (s.entities.qmethod f.callee).context = (s.entities.qmethod e.callee).context := by
    apply hs.entities.contextAt_injective (hs.entities.qmethod hf.isQMethod)
      (hs.entities.qmethod (hs.requested e (Or.inl he)).2)
    exact congrArg s.entities.contextOf (hf.context.trans hcontext)
  obtain ⟨d, hd, hdue⟩ := hbound this hthis
  rw [hsame] at hd
  exact ⟨d, hd, mem_pointsTo_of_due hs hempty hdue⟩

theorem suited_of_originates (hp : a.program.Accepted) {F : Facts} {e : LocatedEdge}
    (he : a.Originates F e) : e.kind = (a.program.call e.site.item).kind ∧
      a.program.Suited (a.program.call e.site.item) e.callee.item := by
  cases he with
  | static _ _ _ hy => exact ⟨rfl, hp.suited_of_callee? hy⟩
  | receiver _ _ _ hy => exact ⟨rfl, hp.suited_of_callee? hy⟩

/-! ### Methods that a call takes for what they are -/

/-- `x = new A; x.s(); A.t()`, where `s` is static and `t` is static and abstract. -/
def lenient : Description where
  entry := "A.main()"
  classes :=
    [{ name := "A"
       methods :=
        [{ signature := "main()"
           isStatic := true
           body := [.new "x" "A", .invoke .virtual "A.s()" (some "x") [] none,
            .invoke .static "A.t()" none [] none] },
         { signature := "s()", isStatic := true },
         { signature := "t()", isStatic := true, isAbstract := true }] }]

/-- A virtual call can enter a static method, and a static call an abstract one, in the analysis and in
the call graph of the hierarchy. -/
theorem exists_edges_to_static_and_abstract : ∃ p s, lenient.toProgram = .ok p ∧ p.Accepted ∧
    (⟨p, .insensitive, .allocationSite⟩ : Analysis).solve .fifo none = .ok s ∧
      (∃ e ∈ s.calls.edges.toList, e.kind = .virtual ∧
        (p.method (s.entities.qmethod e.callee).item).isStatic = true) ∧
      (∃ e ∈ s.calls.edges.toList, e.kind = .static ∧
        (p.method (s.entities.qmethod e.callee).item).isAbstract = true) ∧
      (∃ e ∈ p.hierarchyCallGraph.edges.toList, e.kind = .virtual ∧
        (p.method e.callee).isStatic = true) ∧
      ∃ e ∈ p.hierarchyCallGraph.edges.toList, e.kind = .static ∧
        (p.method e.callee).isAbstract = true := by
  obtain ⟨p, hp, hchecked⟩ := exists_ok_of_any (e := lenient.toProgram)
    (f := fun p => ((⟨p, .insensitive, .allocationSite⟩ : Analysis).solve .fifo none).toOption.any
        (fun s =>
          (s.calls.edges.toList.any fun e => decide (e.kind = .virtual ∧
            (p.method (s.entities.qmethod e.callee).item).isStatic = true)) &&
          s.calls.edges.toList.any fun e => decide (e.kind = .static ∧
            (p.method (s.entities.qmethod e.callee).item).isAbstract = true)) &&
      (p.hierarchyCallGraph.edges.toList.any (fun e => decide (e.kind = .virtual ∧
          (p.method e.callee).isStatic = true)) &&
        p.hierarchyCallGraph.edges.toList.any fun e => decide (e.kind = .static ∧
          (p.method e.callee).isAbstract = true))) (by decide +kernel)
  simp only [Bool.and_eq_true] at hchecked
  obtain ⟨hsolved, hvirtual', hstatic'⟩ := hchecked
  obtain ⟨s, hs, hedges⟩ := exists_ok_of_any hsolved
  rw [Bool.and_eq_true] at hedges
  obtain ⟨hvirtual, hstatic⟩ := hedges
  simp only [List.any_eq_true, decide_eq_true_iff] at hvirtual hstatic hvirtual' hstatic'
  exact ⟨p, s, hp, Description.accepted_toProgram hp, hs, hvirtual, hstatic, hvirtual', hstatic'⟩

/-- A static call enters a static method, which has no receiver variable. Any other call enters a method
with a body, and if that is an instance method, the objects that the call enters it on are bound to its
receiver variable. -/
theorem calls_enter_suited (hp : a.program.Accepted) :
    (∀ order limit s, a.solve order limit = .ok s → ∀ e ∈ s.calls.edges.toList,
      e.kind = (a.program.call (s.entities.qcall e.site).item).kind ∧
      a.program.Suited (a.program.call (s.entities.qcall e.site).item)
        (s.entities.qmethod e.callee).item ∧
      (e.kind ≠ .static → s.BindsReceiver a e)) ∧
    ∀ e ∈ a.program.hierarchyCallGraph.edges.toList, e.kind = (a.program.call e.site).kind ∧
      a.program.Suited (a.program.call e.site) e.callee := by
  constructor
  · intro order limit s h e he
    have horigin := originates_of_isLeast (isLeast_facts hp.indexed h) ⟨e, he, rfl⟩
    obtain ⟨hkind, hsuited⟩ := suited_of_originates hp horigin
    refine ⟨hkind, hsuited, fun hne => bindsReceiver_of_solve hp h he ?_⟩
    exact fun hstatic => hne (hkind.trans hstatic)
  · intro e he
    obtain ⟨hkind, -, hcallee⟩ := (hp.records_hierarchyCallGraph.edges e).1 he
    exact ⟨hkind, hp.suited_of_mem_hierarchyCallees hcallee⟩

/-- In the small program the receiver of the one call is bound. -/
theorem calls_enter_suited_identity : ∃ s, identity.solve .fifo none = .ok s ∧
    ∃ e ∈ s.calls.edges.toList, e.kind = .virtual ∧ s.BindsReceiver identity e := by
  obtain ⟨s, hs, hany⟩ := exists_ok_of_any (e := identity.solve .fifo none)
    (f := fun s => s.calls.edges.toList.any fun e => decide (e.kind = .virtual)) (by decide +kernel)
  obtain ⟨e, he, hkind⟩ := List.any_eq_true.1 hany
  have hvirtual := decide_eq_true_iff.1 hkind
  obtain ⟨-, -, hbinds⟩ :=
    (calls_enter_suited (a := identity) Program.accepted_identity).1 _ _ s hs e he
  refine ⟨s, hs, e, he, hvirtual, hbinds ?_⟩
  rw [hvirtual]
  decide

end Analysis

end PointsTo
