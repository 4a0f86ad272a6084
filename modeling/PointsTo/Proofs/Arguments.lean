import PointsTo.Proofs.Origins
import PointsTo.Proofs.Program.Descriptions
import PointsTo.Proofs.Solver.Final
import PointsTo.Proofs.Solver.Obligations

/-! Arguments and parameters. A program is refused unless each call passes the right number of arguments
to every method that its kind and the class that it names let it run. The solver dispatches on whatever
objects arrive at a receiver, which need not be of types below that class: an edge to a method for which
the call has not been checked is there for such an object. -/

namespace PointsTo

namespace Program

/-- The methods for whose parameters the arguments of a call are counted. -/
def checkedCallees (p : Program) (c : Call) : List MethodId :=
  match c.kind with
  | .static | .special => (p.callee? none c).toList
  | .virtual | .interface => p.virtualCandidates c
  | .dynamic => []

theorem mem_virtualCandidates_of_subtype {p : Program} {c : Call} {t : ClassId} {x : MethodId}
    (ht : t ∈ p.subtypesOf c.cls) (hx : p.dispatch? t c.subsignature = some x) :
    x ∈ p.virtualCandidates c :=
  List.mem_append_left _ (List.mem_filterMap.2 ⟨t, ht, hx⟩)

namespace Accepted

variable {p : Program} (hp : p.Accepted) {y : MethodId} {i : CallId}
  (hi : .invoke i ∈ (p.method y).body)

include hp hi

theorem targetFault_eq_none : p.targetFault? i = none :=
  ((stmtFault?_eq_none_iff.1 (hp.stmtFault_eq_none hi)).2.2 i rfl).2

theorem length_args_of_mem_checkedCallees {x : MethodId} (hx : x ∈ p.checkedCallees (p.call i)) :
    (p.call i).args.length = (p.method x).params.size := by
  have hfault := hp.targetFault_eq_none hi
  rw [targetFault?] at hfault
  rw [checkedCallees] at hx
  refine (arityFault?_eq_none_iff.1 ?_).symm
  cases hkind : (p.call i).kind with
  | static | special =>
    simp only [hkind, Option.mem_toList] at hx hfault
    rw [Option.mem_def.1 hx] at hfault
    exact hfault
  | virtual | interface =>
    simp only [hkind] at hx hfault
    exact List.findSome?_eq_none_iff.1 hfault x hx
  | dynamic =>
    simp only [hkind] at hx
    exact absurd hx List.not_mem_nil

end Accepted

/-- Only an object that is not below the class that a call names runs a method for which the call has not
been checked. -/
theorem not_mem_subtypesOf_of_not_mem_checkedCallees {p : Program} {c : Call} {t : ClassId}
    {x : MethodId} (hx : p.callee? (some t) c = some x) (hnot : x ∉ p.checkedCallees c) :
    (c.kind = .virtual ∨ c.kind = .interface) ∧ t ∉ p.subtypesOf c.cls ∧
      p.dispatch? t c.subsignature = some x := by
  rw [checkedCallees] at hnot
  rw [Model.callee?] at hx
  cases hkind : c.kind with
  | static | special =>
    simp only [hkind] at hx
    simp [hkind, Model.callee?, hx] at hnot
  | virtual | interface =>
    simp only [hkind] at hx hnot
    exact ⟨by simp, fun ht => hnot (mem_virtualCandidates_of_subtype ht hx), hx⟩
  | dynamic =>
    simp only [hkind] at hx
    cases hx

end Program

namespace State

section Edges

variable (a : Analysis) (s : State) (e : QCallEdge)

/-- The argument in a position flows into the parameter in that position. -/
def PassesAt (n : Nat) : Prop :=
  ∃ arg param, (a.program.call (s.entities.qcall e.site).item).args[n]? = some arg ∧
    (a.program.method (s.entities.qmethod e.callee).item).params[n]? = some param ∧
      s.HasFlow (.var (s.entities.qcall e.site).context arg)
        (.var (s.entities.qmethod e.callee).context param)

/-- No argument of a call edge is dropped and no parameter is left unbound. -/
structure Binds : Prop where
  count : (a.program.call (s.entities.qcall e.site).item).args.length =
    (a.program.method (s.entities.qmethod e.callee).item).params.size
  argument : ∀ n < (a.program.call (s.entities.qcall e.site).item).args.length, s.PassesAt a e n
  parameter : ∀ n < (a.program.method (s.entities.qmethod e.callee).item).params.size,
    s.PassesAt a e n

/-- At the receiver of a call edge, under the context of the call, there is an object that is not below
the class that the call names, and that runs the callee. -/
def Strays : Prop :=
  ((a.program.call (s.entities.qcall e.site).item).kind = .virtual ∨
    (a.program.call (s.entities.qcall e.site).item).kind = .interface) ∧
  ∃ v c o, (a.program.call (s.entities.qcall e.site).item).receiver = some v ∧
    s.entities.Numbers c (.var (s.entities.qcall e.site).context v) ∧ o ∈ s.entities.pointsTo c ∧
      (s.entities.object (s.entities.baseObject o)).type ∉
        a.program.subtypesOf (a.program.call (s.entities.qcall e.site).item).cls ∧
      a.program.dispatch? (s.entities.object (s.entities.baseObject o)).type
          (a.program.call (s.entities.qcall e.site).item).subsignature =
        some (s.entities.qmethod e.callee).item

end Edges

variable {a : Analysis} {s : State} {e : QCallEdge}

theorem binds_of_length_eq (hsettled : s.WiresAt a e)
    (hlength : (a.program.call (s.entities.qcall e.site).item).args.length =
      (a.program.method (s.entities.qmethod e.callee).item).params.size) : s.Binds a e := by
  have hpasses : ∀ n < (a.program.call (s.entities.qcall e.site).item).args.length,
      s.PassesAt a e n := by
    intro n hn
    have hparam := hlength ▸ hn
    refine ⟨_, _, List.getElem?_eq_getElem hn, Array.getElem?_eq_getElem hparam, ?_⟩
    apply hsettled.argument
    refine List.mem_iff_getElem.2 ⟨n, ?_, ?_⟩
    · simpa [← hlength] using hn
    · simp
  exact ⟨hlength, hpasses, fun n hn => hpasses n (hlength ▸ hn)⟩

end State

namespace Analysis

open State

variable {a : Analysis} {order : WorkOrder} {limit : Option Nat} {s : State}

/-- What asks for a call edge that has not been checked is an object that the call is not meant for. -/
theorem strays_of_originates (hs : s.Scoped) {e : QCallEdge} (he : e ∈ s.calls.edges.toList)
    (horigin : a.Originates s.facts (s.entities.edgeAt e))
    (hnot : (s.entities.qmethod e.callee).item ∉
      a.program.checkedCallees (a.program.call (s.entities.qcall e.site).item)) :
    s.Strays a e := by
  have hk := hs.entities.qcall (hs.requested e (Or.inl he)).1
  generalize hedge : s.entities.edgeAt e = f at horigin
  cases horigin with
  | @static x i y hx hi hstatic hy =>
    obtain ⟨-, hsite, hcallee⟩ := CallEdge.mk.inj hedge
    obtain rfl : (s.entities.qcall e.site).item = i := congrArg Located.item hsite
    obtain rfl : (s.entities.qmethod e.callee).item = y := congrArg Located.item hcallee
    refine absurd ?_ hnot
    have hkind : (a.program.call (s.entities.qcall e.site).item).kind = .static := by
      simpa [Call.isStatic] using hstatic
    simp [Program.checkedCallees, hkind, hy]
  | @receiver c v o i y ho hi hv hy =>
    obtain ⟨-, hsite, hcallee⟩ := CallEdge.mk.inj hedge
    obtain ⟨hcontext, hitem⟩ := Located.mk.inj hsite
    obtain rfl : (s.entities.qcall e.site).item = i := hitem
    obtain rfl : (s.entities.qmethod e.callee).item = y := congrArg Located.item hcallee
    obtain ⟨d, q, hq, heq⟩ := ho
    obtain ⟨hcell, rfl⟩ := Prod.mk.inj heq
    have hd := (hs.due d q (Or.inl hq)).1
    rw [← hcontext] at hcell
    have hnumbers := hs.entities.numbers_of_cellAt (x := .var _ v) hd hk hcell
    obtain ⟨hkind, hstray, hrun⟩ := Program.not_mem_subtypesOf_of_not_mem_checkedCallees hy hnot
    exact ⟨hkind, v, d, q, hv, hnumbers, hq, hstray, hrun⟩

/-! ### Receivers that a call is not meant for -/

/-- `x = new B; x.m(x)`, where the call names a class `A` whose `m` has one parameter, and the `m` of the
unrelated `B` has two. -/
def outsider : Description where
  entry := "A.main()"
  classes :=
    [{ name := "A"
       methods :=
        [{ signature := "main()"
           isStatic := true
           body := [.new "x" "B", .invoke .virtual "A.m(A)" (some "x") ["x"] none] },
         { signature := "m(A)", params := ["p"] }] },
     { name := "B"
       methods := [{ signature := "m(A)", params := ["p", "q"] }] }]

/-- No program is refused for what only objects of other classes run, so an edge can have too few
arguments. -/
theorem exists_edge_with_unbound_parameter : ∃ p s, outsider.toProgram = .ok p ∧ p.Accepted ∧
    (⟨p, .insensitive, .allocationSite⟩ : Analysis).solve .fifo none = .ok s ∧
      ∃ e ∈ s.calls.edges.toList, (p.call (s.entities.qcall e.site).item).args.length <
        (p.method (s.entities.qmethod e.callee).item).params.size := by
  obtain ⟨p, hp, hsolved⟩ := exists_ok_of_any (e := outsider.toProgram)
    (f := fun p => ((⟨p, .insensitive, .allocationSite⟩ : Analysis).solve .fifo none).toOption.any
      fun s => s.calls.edges.toList.any fun e =>
        decide ((p.call (s.entities.qcall e.site).item).args.length <
          (p.method (s.entities.qmethod e.callee).item).params.size)) (by decide +kernel)
  obtain ⟨s, hs, hany⟩ := exists_ok_of_any hsolved
  obtain ⟨e, he, hfewer⟩ := List.any_eq_true.1 hany
  exact ⟨p, s, hp, Description.accepted_toProgram hp, hs, e, he, decide_eq_true_iff.1 hfewer⟩

/-- A call edge binds arguments and parameters one to one wherever the program has been checked, and there
are no others but for receivers that the call is not meant for. -/
theorem edges_bind_where_checked
    (hp : a.program.Accepted ∨ ∃ bytes, Program.ofBytes bytes = .ok a.program)
    (h : a.solve order limit = .ok s) {e : QCallEdge} (he : e ∈ s.calls.edges.toList) :
    ((s.entities.qmethod e.callee).item ∈
      a.program.checkedCallees (a.program.call (s.entities.qcall e.site).item) → s.Binds a e) ∧
    ((s.entities.qmethod e.callee).item ∉
      a.program.checkedCallees (a.program.call (s.entities.qcall e.site).item) → s.Strays a e) := by
  have hp : a.program.Accepted := hp.elim id fun ⟨_, hbytes⟩ => Program.accepted_ofBytes hbytes
  have hs := (final_of_solve hp.indexed h).sound.scope
  have horigin := originates_of_isLeast (isLeast_facts hp.indexed h) ⟨e, he, rfl⟩
  refine ⟨fun hchecked => ?_, strays_of_originates hs he horigin⟩
  have hwires : s.WiresAt a e := by
    obtain ⟨hrun, -⟩ := solve_eq_ok h
    have hsettled := settled_run hp order (limit.getD itemRange)
    rw [hrun] at hsettled
    exact hsettled.wires e he
  obtain ⟨y, hy⟩ := horigin.exists_mem_body
  exact binds_of_length_eq hwires (hp.length_args_of_mem_checkedCallees hy hchecked)

theorem edges_bind_where_checked_identity : ∃ s, identity.solve .fifo none = .ok s ∧
    ∃ e ∈ s.calls.edges.toList, s.Binds identity e := by
  obtain ⟨s, hs, hany⟩ := exists_ok_of_any (e := identity.solve .fifo none)
    (f := fun s => s.calls.edges.toList.any fun e => decide ((s.entities.qmethod e.callee).item ∈
      identity.program.checkedCallees (identity.program.call (s.entities.qcall e.site).item)))
    (by decide +kernel)
  obtain ⟨e, he, hchecked⟩ := List.any_eq_true.1 hany
  have hbinds := (edges_bind_where_checked (a := identity) (Or.inl Program.accepted_identity) hs he).1
  exact ⟨s, hs, e, he, hbinds (decide_eq_true_iff.1 hchecked)⟩

end Analysis

end PointsTo
