import PointsTo.Proofs.FactCounts
import PointsTo.Proofs.Solver.Fixpoint

/-! Progress. A step that establishes nothing new leaves one work item less, and what a run can establish
is among the possible facts. Once no work is left, it makes no difference how many more work items a run
may deal with. -/

namespace PointsTo

theorem WorkList.size_lt_of_polled {w rest : WorkList} {item : WorkItem} (h : w.Polled item rest) :
    rest.size < w.size := by
  rw [h.size_eq]
  exact Nat.lt_succ_self _

namespace State

/-- How many possible facts a state has yet to establish. -/
noncomputable def missing (F : Facts) (s : State) : Nat :=
  (F.calls \ s.facts.calls).ncard + (F.pointsTo \ s.facts.pointsTo).ncard

/-- A later state has a call edge or an object at a place that the first one lacks. -/
def Establishes (s u : State) : Prop :=
  (∃ e ∈ u.facts.calls, e ∉ s.facts.calls) ∨ ∃ f ∈ u.facts.pointsTo, f ∉ s.facts.pointsTo

variable {F : Facts} {s u : State}

theorem ncard_sdiff_lt {α : Type} {A B C : Set α} (hC : C.Finite) (hAB : A ⊆ B) (hBC : B ⊆ C) {x : α}
    (hx : x ∈ B) (hnew : x ∉ A) : (C \ B).ncard < (C \ A).ncard := by
  refine Set.ncard_lt_ncard ⟨Set.sdiff_subset_sdiff_right hAB, fun hle => ?_⟩ hC.sdiff
  exact (hle ⟨hBC hx, hnew⟩).2 hx

theorem missing_lt (hF : F.Finite) (hle : s.facts ≤ u.facts) (hu : u.facts ≤ F)
    (hnew : s.Establishes u) : u.missing F < s.missing F := by
  obtain ⟨-, hcalls, -, hpointsTo⟩ := Facts.le_iff.1 hle
  obtain ⟨-, hcallsF, -, hpointsToF⟩ := Facts.le_iff.1 hu
  rcases hnew with ⟨e, he, hnot⟩ | ⟨f, hf, hnot⟩
  · have hlt := ncard_sdiff_lt hF.calls hcalls hcallsF he hnot
    have hle := Set.ncard_le_ncard (Set.sdiff_subset_sdiff_right hpointsTo) hF.pointsTo.sdiff
    exact Nat.add_lt_add_of_lt_of_le hlt hle
  · have hlt := ncard_sdiff_lt hF.pointsTo hpointsTo hpointsToF hf hnot
    have hle := Set.ncard_le_ncard (Set.sdiff_subset_sdiff_right hcalls) hF.calls.sdiff
    exact Nat.add_lt_add_of_le_of_lt hle hlt

end State

namespace Analysis

open State

variable {a : Analysis} {F : Facts} {s u : State} {order : WorkOrder}

theorem deliver_establishes_or_eq (hp : a.program.Indexed) (hs : s.Sound a F) (hF : a.Closed F)
    {c : CellId} {objects : IdSet (.qualified .object)} {rest : WorkList}
    (hpolled : s.work.Polled (.objects c objects) rest) :
    s.Establishes (a.deliver c objects (s.without rest)) ∨
      a.deliver c objects (s.without rest) = s.without rest := by
  have hadvances := advances_deliver hp hs hF hpolled
  by_cases hnew : ∃ o ∈ objects, o ∉ s.entities.pointsTo c
  · obtain ⟨o, ho, hnot⟩ := hnew
    have hdue := hs.due c o (Or.inr (hpolled.of_objects.1 ▸ ho))
    refine Or.inl (Or.inr ⟨(s.entities.cellAt c, s.entities.qobjectAt o),
      ⟨c, o, mem_pointsTo_deliver hp hs hF hpolled ho, ?_⟩, ?_⟩)
    · rw [hadvances.grows.entities.cellAt hs.entities hdue.1,
        hadvances.grows.entities.qobjectAt hs.entities hdue.2.1]
    · intro h
      obtain ⟨d, p, hpd, heq⟩ := h
      obtain ⟨hcell, hobject⟩ := Prod.mk.inj heq
      obtain ⟨hd, hpk, -⟩ := hs.due d p (Or.inl hpd)
      obtain rfl := hs.entities.cellAt_injective hd hdue.1 hcell
      obtain rfl := hs.entities.qobjectAt_injective hpk hdue.2.1 hobject
      exact hnot hpd
  · have hempty : objects \ (s.without rest).entities.pointsTo c = ∅ := by
      apply IdSet.ext
      intro o
      simp only [IdSet.mem_sdiff, IdSet.not_mem_empty, iff_false, not_and, not_not]
      intro ho
      exact Classical.byContradiction fun hnot => hnew ⟨o, ho, hnot⟩
    rw [deliver_eq, hempty, spread_empty]
    split
    · exact Or.inr rfl
    · exact Or.inr rfl

theorem install_establishes_or_eq (hs : s.Sound a F) (hF : a.Closed F) {e : QCallEdge}
    {rest : WorkList} (hpolled : s.work.Polled (.call e) rest) :
    s.Establishes (a.install e (s.without rest)) ∨ a.install e (s.without rest) = s.without rest := by
  have hadvances := advances_install hs hF hpolled
  by_cases hedge : s.calls.hasEdge e.site e.callee = true
  · exact Or.inr (if_pos hedge)
  · obtain ⟨hsite, hcallee, -⟩ := hs.requested e ((requested_without hpolled).2 (Or.inr rfl))
    refine Or.inl (Or.inl ⟨s.entities.edgeAt e,
      ⟨e, mem_edges_install hs hF hpolled hedge, ?_⟩, ?_⟩)
    · exact hadvances.grows.entities.edgeAt hs.entities hsite hcallee
    · intro h
      obtain ⟨f, hf, heq⟩ := h
      obtain ⟨hfsite, hfcallee, -⟩ := hs.requested f (Or.inl hf)
      obtain ⟨-, hsiteAt, hcalleeAt⟩ := CallEdge.mk.inj heq
      exact hedge ((hs.calls.hasEdge_iff _ _).2 ⟨f, hf,
        hs.entities.qcallAt_injective hfsite hsite hsiteAt,
        hs.entities.qmethodAt_injective hfcallee hcallee hcalleeAt⟩)

/-- A step establishes something new, or does nothing but take a work item off the list. -/
theorem step_establishes_or_shortens (hp : a.program.Indexed) (hs : s.Sound a F) (hF : a.Closed F)
    (h : a.step? s = some u) :
    s.Establishes u ∨ u.facts = s.facts ∧ u.work.size < s.work.size := by
  rw [step?] at h
  split at h
  · cases h
  · rename_i item rest hpoll
    have hpolled := WorkList.polled_of_poll hpoll
    have hshorter := WorkList.size_lt_of_polled hpolled
    cases item with
    | objects c objects =>
      obtain rfl : a.deliver c objects (s.without rest) = u := Option.some.inj h
      apply (deliver_establishes_or_eq hp hs hF hpolled).imp_right
      intro heq
      rw [heq]
      exact ⟨rfl, hshorter⟩
    | call e =>
      obtain rfl : a.install e (s.without rest) = u := Option.some.inj h
      apply (install_establishes_or_eq hs hF hpolled).imp_right
      intro heq
      rw [heq]
      exact ⟨rfl, hshorter⟩

theorem step?_eq_none_iff : a.step? s = none ↔ s.work.isEmpty = true := by
  rw [← WorkList.poll_eq_none_iff, step?]
  cases s.work.poll <;> simp

theorem run_of_isEmpty (h : s.work.isEmpty = true) (n : Nat) : a.run n s = s := by
  cases n with
  | zero => rfl
  | succ n => rw [run, step?_eq_none_iff.2 h]

theorem run_add (m n : Nat) (s : State) : a.run (m + n) s = a.run n (a.run m s) := by
  induction m generalizing s with
  | zero => rw [Nat.zero_add, run]
  | succ m ih =>
    rw [Nat.succ_add, run, run]
    cases hstep : a.step? s with
    | none => exact (run_of_isEmpty (step?_eq_none_iff.1 hstep) n).symm
    | some u => exact ih u

end Analysis

end PointsTo
