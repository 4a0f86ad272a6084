import Mathlib.Algebra.Order.BigOperators.Group.List
import Mathlib.Algebra.Order.Ring.Nat
import PointsTo.Proofs.Solver.Callers
import PointsTo.Proofs.Solver.Progress

/-! A bound on the work of runs. A step leaves at most so many work items, and leaves any only when it
establishes something new. So the work items of a run are paid for by the facts that are possible, and
these can be counted from the program and the length of contexts alone. -/

namespace PointsTo

theorem le_sum_getD {α : Type} (f : α → Nat) (as : Array α) (i : Nat) {d : α} (hd : f d = 0) :
    f (as.getD i d) ≤ (as.toList.map f).sum := by
  by_cases hi : i < as.size
  · rw [Array.getD_eq_getD_getElem?, Array.getElem?_eq_getElem hi, Option.getD_some]
    exact List.le_sum_of_mem (List.mem_map_of_mem (Array.getElem_mem_toList hi))
  · rw [Array.getD_eq_getD_getElem?, Array.getElem?_eq_none (Nat.le_of_not_lt hi), Option.getD_none, hd]
    exact Nat.zero_le _

namespace Program

variable (p : Program) (depth : Nat)

/-- How many work items the uses of all variables leave for one object. -/
def useCount : Nat := (p.uses.toList.map Uses.weight).sum

/-- How many statements, returned variables and arguments there are. -/
def wireCount : Nat :=
  (p.methods.toList.map fun x => x.body.size + x.returns.size).sum +
    (p.calls.toList.map fun c => c.args.length).sum

/-- How many work items a step leaves at most. -/
def stepCount : Nat := p.placeCount depth + p.objectCount depth * p.useCount + p.wireCount

/-- How many call edges and objects at places there can be. -/
def factCount : Nat := p.callEdgeCount depth + p.placeCount depth * p.objectCount depth

/-- How many work items a run deals with at most. -/
def workCount : Nat := p.stepCount depth * (p.factCount depth + 1)

/-- How many work items a run deals with at most, for context length `k` and heap context length `h`. -/
def workBound (k h : Nat) : Nat := p.workCount (max k h)

theorem weight_usesOf_le (v : VarId) : (p.usesOf v).weight ≤ p.useCount :=
  le_sum_getD Uses.weight p.uses v.index rfl

theorem wiring_le (x : MethodId) (i : CallId) : (p.method x).body.size + (p.call i).args.length +
    (p.method x).returns.size ≤ p.wireCount := by
  have hmethod := le_sum_getD (fun y : Method => y.body.size + y.returns.size) p.methods x.index
    (d := default) rfl
  have hcall := le_sum_getD (fun c : Call => c.args.length) p.calls i.index (d := default) rfl
  calc
    (p.method x).body.size + (p.call i).args.length + (p.method x).returns.size
      = (p.method x).body.size + (p.method x).returns.size + (p.call i).args.length := by omega
    _ ≤ p.wireCount := Nat.add_le_add hmethod hcall

end Program

namespace Analysis

open State

variable {a : Analysis} {s u : State} {depth : Nat}

section Step

variable (hp : a.program.Accepted) (hdepth : a.contextBound ≤ depth)

include hp hdepth

/-! ### What a step leaves -/

theorem length_cells_le (hs : s.Sound a a.possibleFacts) {cells : List CellId} (hnodup : cells.Nodup)
    (hcells : ∀ c ∈ cells, s.entities.IsCell c) : cells.length ≤ a.program.placeCount depth := by
  apply (atMost_possiblePlaces hdepth).length_le hnodup (f := s.entities.cellAt)
  · intro c hc d hd heq
    exact hs.entities.cellAt_injective (hcells c hc) (hcells d hd) heq
  · intro c hc
    exact cells_possibleFacts_subset hp (hs.named.cells _ (Numbering.getD_mem (hcells c hc) _))

omit hp in
theorem length_objects_le (hs : s.Sound a a.possibleFacts) {objects : IdSet (.qualified .object)}
    (hobjects : ∀ o ∈ objects, s.entities.IsQObject o) :
    objects.toList.length ≤ a.program.objectCount depth := by
  have hmem : ∀ o ∈ objects.toList, s.entities.IsQObject o := fun o ho =>
    hobjects o (IdSet.mem_toList.1 ho)
  apply (atMost_possibleObjects hdepth).length_le objects.nodup_toList (f := s.entities.qobjectAt)
  · intro o ho q hq heq
    exact hs.entities.qobjectAt_injective (hmem o ho) (hmem q hq) heq
  · intro o ho
    exact qobjects_possibleFacts_subset (hs.named.qobjects _ (Numbering.getD_mem (hmem o ho) _))

theorem leaves_deliver (hs : s.Sound a a.possibleFacts) (h : s.Anchored a) {c : CellId}
    {objects : IdSet (.qualified .object)} {rest : WorkList}
    (hpolled : s.work.Polled (.objects c objects) rest) :
    Leaves (a.program.placeCount depth + a.program.objectCount depth * a.program.useCount)
      (s.without rest) (a.deliver c objects (s.without rest)) := by
  have hobjects : ∀ o ∈ objects \ s.entities.pointsTo c, s.entities.IsQObject o := by
    intro o ho
    exact (hs.due c o (Or.inr (hpolled.of_objects.1 ▸ (IdSet.mem_sdiff.1 ho).1))).2.1
  have hnew := length_objects_le hdepth hs hobjects
  have hsuccessors : (s.flow.successors c).length ≤ a.program.placeCount depth := by
    apply length_cells_le hp hdepth hs (Numbering.nodup_toList _)
    intro d hd
    exact (hs.flow c d (FlowGraph.mem_successors.1 hd)).2.1
  have hspread : Leaves (a.program.placeCount depth) (s.without rest)
      ((s.without rest).spread c (objects \ s.entities.pointsTo c)) :=
    ⟨(WorkList.size_foldl_addObjects_le _ _ _).trans (Nat.add_le_add_left hsuccessors _), rfl⟩
  rw [deliver_eq]
  split
  · rename_i k v _
    have hlinked : ((s.without rest).spread c (objects \ s.entities.pointsTo c)).Linked := h.linked
    have hmeet := serves_meetAll hp hlinked k v (objects \ s.entities.pointsTo c).toList
    apply hspread.trans (hmeet.toLeaves.mono _)
    exact Nat.mul_le_mul hnew (a.program.weight_usesOf_le v)
  · exact hspread.mono (Nat.le_add_right _ _)

/-- A step takes one work item off the list before it leaves any. -/
theorem size_step_lt (hs : s.Sound a a.possibleFacts) (h : s.Anchored a) (hstep : a.step? s = some u) :
    u.work.size < s.work.size + a.program.stepCount depth ∧ u.processed = s.processed + 1 := by
  rw [step?] at hstep
  split at hstep
  · cases hstep
  · rename_i item rest hpoll
    have hpolled := WorkList.polled_of_poll hpoll
    have hshorter := WorkList.size_lt_of_polled hpolled
    have hleaves : Leaves (a.program.stepCount depth) (s.without rest)
        (a.process (s.without rest) item) := by
      cases item with
      | objects c objects => exact (leaves_deliver hp hdepth hs h hpolled).mono (Nat.le_add_right _ _)
      | call e =>
        apply (anchored_install hp hs h hpolled).2.mono
        exact (a.program.wiring_le _ _).trans (Nat.le_add_left _ _)
    obtain rfl := Option.some.inj hstep
    exact ⟨Nat.lt_of_le_of_lt hleaves.size (Nat.add_lt_add_right hshorter _), hleaves.processed⟩

end Step

/-! ### Potential -/

/-- The work items that are left, and those that the facts not yet established can still leave. -/
noncomputable def potential (a : Analysis) (depth : Nat) (s : State) : Nat :=
  s.work.size + a.program.stepCount depth * s.missing a.possibleFacts

section Run

variable (hp : a.program.Accepted) (hdepth : a.contextBound ≤ depth)

include hp hdepth

theorem potential_lt (hs : s.Sound a a.possibleFacts) (h : s.Anchored a) (hstep : a.step? s = some u) :
    a.potential depth u < a.potential depth s := by
  have hF := closed_possibleFacts hp
  have hadvances := advances_step hp.indexed hs hF hstep
  rcases step_establishes_or_shortens hp.indexed hs hF hstep with hnew | ⟨hfacts, hshorter⟩
  · -- one fact less is missing, which pays for what the step leaves
    have hmissing := missing_lt a.finite_possibleFacts (hadvances.grows.facts_le hs.scope)
      (le_trans facts_le_promised hadvances.sound.promised_le) hnew
    have hpaid := Nat.mul_le_mul_left (a.program.stepCount depth) hmissing
    have hsize := (size_step_lt hp hdepth hs h hstep).1
    rw [Nat.mul_succ] at hpaid
    rw [potential, potential]
    omega
  · rw [potential, potential, missing, hfacts, ← missing]
    exact Nat.add_lt_add_right hshorter _

/-- A run that may deal with as many work items as its potential says ends. -/
theorem isEmpty_run (n : Nat) (hs : s.Sound a a.possibleFacts) (h : s.Anchored a)
    (hn : a.potential depth s ≤ n) :
    (a.run n s).work.isEmpty = true ∧ (a.run n s).processed ≤ s.processed + n := by
  induction n generalizing s with
  | zero =>
    refine ⟨?_, Nat.le_refl _⟩
    rw [← step?_eq_none_iff, run]
    cases hstep : a.step? s with
    | none => rfl
    | some u => exact absurd (potential_lt hp hdepth hs h hstep) (by omega)
  | succ n ih =>
    cases hstep : a.step? s with
    | none =>
      rw [step?_eq_none_iff] at hstep
      rw [run_of_isEmpty hstep]
      exact ⟨hstep, Nat.le_add_right _ _⟩
    | some u =>
      have hlt := potential_lt hp hdepth hs h hstep
      have hcount := (size_step_lt hp hdepth hs h hstep).2
      have hadvances := advances_step hp.indexed hs (closed_possibleFacts hp) hstep
      obtain ⟨hempty, hprocessed⟩ := ih hadvances.sound (anchored_step hp hs h hstep) (by omega)
      rw [run, hstep]
      refine ⟨hempty, ?_⟩
      calc
        (a.run n u).processed ≤ u.processed + n := hprocessed
        _ = s.processed + (n + 1) := by omega

theorem potential_start_le (order : WorkOrder) :
    a.potential depth (a.start order) ≤ a.program.workCount depth := by
  have hsize : (a.start order).work.size ≤ a.program.stepCount depth := calc
    (a.start order).work.size ≤ 0 + (a.program.method a.program.entry).body.size :=
      (anchored_start hp order).2.size
    _ ≤ a.program.wireCount := by
      have hwiring := a.program.wiring_le a.program.entry default
      omega
    _ ≤ a.program.stepCount depth := Nat.le_add_left _ _
  have hmissing : (a.start order).missing a.possibleFacts ≤ a.program.factCount depth := by
    have hcalls := (atMost_possibleCalls hdepth).subset
      (Set.sdiff_subset (s := a.possibleFacts.calls) (t := (a.start order).facts.calls))
    have hpointsTo := (atMost_possiblePointsTo hdepth).subset
      (Set.sdiff_subset (s := a.possibleFacts.pointsTo) (t := (a.start order).facts.pointsTo))
    exact Nat.add_le_add hcalls.2 hpointsTo.2
  have hpaid := Nat.mul_le_mul_left (a.program.stepCount depth) hmissing
  rw [potential, Program.workCount, Nat.mul_succ]
  omega

/-- With enough work items allowed, a run ends, in one state whatever their number. -/
theorem exists_solve_within (order : WorkOrder) : ∃ s, s.processed ≤ a.program.workCount depth ∧
    ∀ limit, a.program.workCount depth ≤ limit → a.solve order (some limit) = .ok s := by
  obtain ⟨hanchored, hstart⟩ := anchored_start hp order
  obtain ⟨hempty, hprocessed⟩ := isEmpty_run hp hdepth (a.program.workCount depth)
    (advances_start (closed_possibleFacts hp) order).1.sound hanchored
    (potential_start_le hp hdepth order)
  refine ⟨a.run (a.program.workCount depth) (a.start order), ?_, fun limit hlimit => ?_⟩
  · calc
      (a.run (a.program.workCount depth) (a.start order)).processed
        ≤ (a.start order).processed + a.program.workCount depth := hprocessed
      _ = 0 + a.program.workCount depth := congrArg (· + _) hstart.processed
      _ = a.program.workCount depth := Nat.zero_add _
  · obtain ⟨m, rfl⟩ := Nat.exists_eq_add_of_le hlimit
    rw [solve, final, Option.getD_some, run_add, run_of_isEmpty hempty, State.finished, if_pos hempty]

end Run

theorem exists_solve_eq_ok (a : Analysis) (hp : a.program.Accepted) (order : WorkOrder) :
    ∃ n s, ∀ limit, n ≤ limit → a.solve order (some limit) = .ok s := by
  obtain ⟨s, -, hs⟩ := exists_solve_within hp (Nat.le_refl a.contextBound) order
  exact ⟨_, s, hs⟩

/-- The bound depends on the program and the lengths of contexts only. -/
theorem solve_within_workBound {p : Program} (hp : p.Accepted) (k h : Nat) {selector : Selector}
    (hselector : selector ∈ [.insensitive, .callString k h, .object k h, .type k h]) (heap : HeapModel)
    (order : WorkOrder) : ∃ s, s.processed ≤ p.workBound k h ∧
      ∀ limit, p.workBound k h ≤ limit →
        (⟨p, selector, heap⟩ : Analysis).solve order (some limit) = .ok s := by
  apply exists_solve_within (a := ⟨p, selector, heap⟩) hp
  simp only [List.mem_cons, List.not_mem_nil, or_false] at hselector
  rcases hselector with rfl | rfl | rfl | rfl
  · exact Nat.zero_le _
  · exact Nat.le_refl _
  · exact Nat.le_refl _
  · exact Nat.le_refl _

theorem solve_within_workBound_identity : ∃ s, s.processed ≤ Program.identity.workBound 1 0 ∧
    ∀ limit, Program.identity.workBound 1 0 ≤ limit → identity.solve .fifo (some limit) = .ok s :=
  solve_within_workBound Program.accepted_identity 1 0 (by decide) .allocationSite .fifo

end Analysis

end PointsTo
