import PointsTo.Proofs.Renaming.Carries
import PointsTo.Proofs.Result.Answers
import PointsTo.Proofs.Solver.WorkBound

/-! Work orders. In whatever order the work items are dealt with, a run ends, and all runs end in the same
state up to a renaming of identifiers. The figures, but for the number of work items, and the answers of
the results are the same. -/

namespace PointsTo

/-- The states differ by a renaming and by the number of work items it took to reach them. -/
structure State.Matches (p : Program) (s u : State) : Prop where
  renamed : ∃ ρ : Renaming s.entities u.entities, ρ.Carries
  statistics : { s.statistics with iterations := u.processed } = u.statistics
  answers : (Result.ofState p s).answers = (Result.ofState p u).answers
  mayAlias : ∀ v w, (Result.ofState p s).mayAlias v w = (Result.ofState p u).mayAlias v w
  unreachable : (Result.ofState p s).unreachableMethods = (Result.ofState p u).unreachableMethods

theorem Result.unreachableMethods_eq {r r' : Result} (hprogram : r.program = r'.program)
    (h : r.answers.reachable = r'.answers.reachable) : r.unreachableMethods = r'.unreachableMethods := by
  rw [unreachableMethods, unreachableMethods, ← hprogram]
  apply List.filter_congr
  intro x _
  have hcontains : r.callGraph.contains x = r'.callGraph.contains x := by
    rw [Bool.eq_iff_iff, CallGraph.contains, CallGraph.contains, Numbering.contains_iff,
      Numbering.contains_iff]
    exact Set.ext_iff.1 h x
  rw [hcontains]

namespace State.Final

variable {a : Analysis} {s u : State}

theorem matches_of_facts_eq (hs : s.Final a) (hu : u.Final a) (h : s.facts = u.facts) :
    s.Matches a.program u := by
  have hanswers : (Result.ofState a.program s).answers = (Result.ofState a.program u).answers := by
    rw [answers_ofState hs.sound hs.entry, answers_ofState hu.sound hu.entry, h]
  constructor
  case renamed =>
    obtain ⟨ρ⟩ := hs.exists_renaming hu h
    exact ⟨ρ, hs.carries hu h ρ⟩
  case statistics =>
    rw [hs.statistics_eq, hu.statistics_eq, h]
    rfl
  case answers => exact hanswers
  case mayAlias =>
    intro v w
    rw [Bool.eq_iff_iff, mayAlias_ofState_iff hs.sound, mayAlias_ofState_iff hu.sound, hanswers]
  case unreachable => exact Result.unreachableMethods_eq rfl (congrArg Answers.reachable hanswers)

end State.Final

namespace Analysis

variable {a : Analysis}

/-- Whatever the order, runs end, and in the same state up to renaming. -/
theorem solve_matches (hp : a.program.Accepted) :
    (∃ n s u, (∀ limit, n ≤ limit →
        a.solve .fifo (some limit) = .ok s ∧ a.solve .lifo (some limit) = .ok u) ∧
      s.Matches a.program u) ∧
    ∀ order order' limit limit' s u, a.solve order limit = .ok s → a.solve order' limit' = .ok u →
      s.Matches a.program u := by
  have hmatches : ∀ order order' limit limit' s u, a.solve order limit = .ok s →
      a.solve order' limit' = .ok u → s.Matches a.program u := by
    intro order order' limit limit' s u hs hu
    have hfacts := (isLeast_facts hp.indexed hs).unique (isLeast_facts hp.indexed hu)
    exact (final_of_solve hp.indexed hs).matches_of_facts_eq (final_of_solve hp.indexed hu) hfacts
  obtain ⟨n, s, hs⟩ := a.exists_solve_eq_ok hp .fifo
  obtain ⟨m, u, hu⟩ := a.exists_solve_eq_ok hp .lifo
  refine ⟨⟨max n m, s, u, fun limit hlimit => ⟨?_, ?_⟩, ?_⟩, hmatches⟩
  · exact hs limit (Nat.le_trans (Nat.le_max_left n m) hlimit)
  · exact hu limit (Nat.le_trans (Nat.le_max_right n m) hlimit)
  · exact hmatches _ _ _ _ _ _ (hs n (Nat.le_refl n)) (hu m (Nat.le_refl m))

/-- The small program under the receivers of its methods, in both orders. -/
theorem solve_matches_identity :
    ∃ s u, (⟨.identity, .object 1 0, .allocationSite⟩ : Analysis).solve .fifo none = .ok s ∧
      (⟨.identity, .object 1 0, .allocationSite⟩ : Analysis).solve .lifo none = .ok u ∧
      s.Matches .identity u := by
  obtain ⟨s, hs⟩ := exists_eq_ok
    (e := (⟨.identity, .object 1 0, .allocationSite⟩ : Analysis).solve .fifo none) (by decide +kernel)
  obtain ⟨u, hu⟩ := exists_eq_ok
    (e := (⟨.identity, .object 1 0, .allocationSite⟩ : Analysis).solve .lifo none) (by decide +kernel)
  exact ⟨s, u, hs, hu, (solve_matches Program.accepted_identity).2 _ _ _ _ s u hs hu⟩

end Analysis

end PointsTo
