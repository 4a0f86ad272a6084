import PointsTo.Proofs.Solver.WorkBound

/-! Limits. The loop of a run counts each work item that it takes and refuses the one that is over the
limit. Under a limit it deals with the same first work items as without one, so it ends just when the
limit is no less than their number, and then in the same state. -/

namespace PointsTo

namespace Analysis

open State

/-- The loop of a run, with the work items that it deals with and what it comes to. A work item counts
from the moment it is taken, and one that is over the limit ends the loop. -/
inductive Loop (a : Analysis) (limit : Option Nat) :
    State → List WorkItem → Except AnalysisError State → Prop where
  | drained {s : State} (hpoll : s.work.poll = none) : Loop a limit s [] (.ok s)
  | refused {s : State} {item : WorkItem} {rest : WorkList} {l : Nat}
      (hpoll : s.work.poll = some (item, rest)) (hlimit : limit = some l) (hl : l < s.processed + 1) :
      Loop a limit s [] (.error (.iterationLimitExceeded l))
  | next {s : State} {item : WorkItem} {rest : WorkList} {items : List WorkItem}
      {r : Except AnalysisError State} (hpoll : s.work.poll = some (item, rest))
      (hlimit : ∀ l ∈ limit, s.processed + 1 ≤ l)
      (hrest : Loop a limit (a.process { s with work := rest, processed := s.processed + 1 } item)
        items r) :
      Loop a limit s (item :: items) r

variable {a : Analysis} {limit : Option Nat} {s u : State} {items items' : List WorkItem}
  {r r' : Except AnalysisError State} {order : WorkOrder}

/-- Nothing is left open in the loop. -/
theorem Loop.unique (h : a.Loop limit s items r) (h' : a.Loop limit s items' r') :
    items = items' ∧ r = r' := by
  induction h generalizing items' r' with
  | drained hpoll =>
    cases h' with
    | drained => exact ⟨rfl, rfl⟩
    | refused hpoll' | next hpoll' => simp [hpoll] at hpoll'
  | refused hpoll hlimit hl =>
    cases h' with
    | drained hpoll' => simp [hpoll] at hpoll'
    | refused _ hlimit' =>
      obtain rfl := Option.some.inj (hlimit.symm.trans hlimit')
      exact ⟨rfl, rfl⟩
    | next _ hlimit' => exact absurd (hlimit' _ hlimit) (Nat.not_le_of_lt hl)
  | next hpoll hlimit _ ih =>
    cases h' with
    | drained hpoll' => simp [hpoll] at hpoll'
    | refused _ hlimit' hl' => exact absurd (hlimit _ hlimit') (Nat.not_le_of_lt hl')
    | next hpoll' _ hrest' =>
      obtain ⟨rfl, rfl⟩ := Prod.mk.inj (Option.some.inj (hpoll.symm.trans hpoll'))
      obtain ⟨rfl, rfl⟩ := ih hrest'
      exact ⟨rfl, rfl⟩

theorem Loop.eq_iff (h : a.Loop limit s items r) :
    a.Loop limit s items' r' ↔ items' = items ∧ r' = r := by
  constructor
  · exact fun h' => h'.unique h
  · rintro ⟨rfl, rfl⟩
    exact h

theorem step?_of_poll {item : WorkItem} {rest : WorkList} (hpoll : s.work.poll = some (item, rest)) :
    a.step? s = some (a.process { s with work := rest, processed := s.processed + 1 } item) := by
  rw [step?, hpoll]

/-- A run that ends is a run of the loop without a limit. -/
theorem exists_loop_of_run (n : Nat) (h : (a.run n s).work.isEmpty = true) :
    ∃ items, a.Loop none s items (.ok (a.run n s)) := by
  induction n generalizing s with
  | zero => exact ⟨[], .drained (WorkList.poll_eq_none_iff.2 h)⟩
  | succ n ih =>
    cases hpoll : s.work.poll with
    | none =>
      rw [run_of_isEmpty (WorkList.poll_eq_none_iff.1 hpoll)]
      exact ⟨[], .drained hpoll⟩
    | some next =>
      obtain ⟨item, rest⟩ := next
      rw [run, step?_of_poll hpoll] at h ⊢
      obtain ⟨items, hitems⟩ := ih h
      exact ⟨item :: items, .next hpoll (fun l hl => by cases hl) hitems⟩

/-- A run that may deal with `n` work items has a result if there are no more of them. -/
theorem Loop.finished_run (h : a.Loop none s items (.ok u)) (n : Nat) (limit : Option Nat) :
    (a.run n s).finished limit = if items.length ≤ n then .ok u
      else .error (.iterationLimitExceeded (limit.getD itemRange)) := by
  generalize hr : Except.ok u = r at h
  induction h generalizing n with
  | drained hpoll =>
    obtain rfl := Except.ok.inj hr
    have hempty := WorkList.poll_eq_none_iff.1 hpoll
    rw [run_of_isEmpty hempty, State.finished, if_pos hempty, List.length_nil, if_pos (Nat.zero_le n)]
  | refused _ hlimit => cases hlimit
  | @next s item rest items r hpoll _ _ ih =>
    cases n with
    | zero =>
      have hleft : ¬ s.work.isEmpty = true := by
        rw [← WorkList.poll_eq_none_iff, hpoll]
        exact Option.some_ne_none _
      rw [run, State.finished, if_neg hleft, List.length_cons, if_neg (Nat.not_succ_le_zero _)]
    | succ n =>
      rw [run, step?_of_poll hpoll, List.length_cons, ih n hr]
      simp only [Nat.add_le_add_iff_right]

section Count

variable (hp : a.program.Accepted)

include hp

/-- A step counts the work item that it deals with and no other. -/
theorem processed_step (hs : s.Sound a a.possibleFacts) (h : s.Anchored a) (hstep : a.step? s = some u) :
    u.processed = s.processed + 1 ∧ u.Sound a a.possibleFacts ∧ u.Anchored a :=
  ⟨(size_step_lt hp (Nat.le_refl _) hs h hstep).2,
    (advances_step hp.indexed hs (closed_possibleFacts hp) hstep).sound, anchored_step hp hs h hstep⟩

theorem Loop.processed (hs : s.Sound a a.possibleFacts) (h : s.Anchored a)
    (hloop : a.Loop none s items (.ok u)) : u.processed = s.processed + items.length := by
  generalize hr : Except.ok u = r at hloop
  induction hloop with
  | drained =>
    obtain rfl := Except.ok.inj hr
    rfl
  | refused _ hlimit => cases hlimit
  | next hpoll _ _ ih =>
    obtain ⟨hcount, hsound, hanchored⟩ := processed_step hp hs h (step?_of_poll hpoll)
    rw [ih hsound hanchored hr, hcount, List.length_cons, Nat.add_assoc, Nat.add_comm 1]

/-- Under a limit the loop stops short where the limit is reached, and agrees with the loop without one
until then. -/
theorem Loop.take (hs : s.Sound a a.possibleFacts) (h : s.Anchored a)
    (hloop : a.Loop none s items (.ok u)) (l : Nat) :
    a.Loop (some l) s (items.take (l - s.processed))
      ((a.run (l - s.processed) s).finished (some l)) := by
  generalize hr : Except.ok u = r at hloop
  induction hloop with
  | drained hpoll =>
    have hempty := WorkList.poll_eq_none_iff.1 hpoll
    rw [List.take_nil, run_of_isEmpty hempty, State.finished, if_pos hempty]
    exact .drained hpoll
  | refused _ hlimit => cases hlimit
  | @next s item rest items r hpoll _ _ ih =>
    by_cases hl : s.processed + 1 ≤ l
    · obtain ⟨hcount, hsound, hanchored⟩ := processed_step hp hs h (step?_of_poll hpoll)
      have hleft : l - s.processed = l - (s.processed + 1) + 1 := by omega
      have hrest := ih hsound hanchored hr
      rw [hcount] at hrest
      rw [hleft, List.take_succ_cons, run, step?_of_poll hpoll]
      refine .next hpoll (fun m hm => ?_) hrest
      obtain rfl := Option.some.inj hm
      exact hl
    · have hleft : ¬ s.work.isEmpty = true := by
        rw [← WorkList.poll_eq_none_iff, hpoll]
        exact Option.some_ne_none _
      have hnone : l - s.processed = 0 := by omega
      rw [hnone, List.take_zero, run, State.finished, if_neg hleft, Option.getD_some]
      exact .refused hpoll rfl (by omega)

theorem exists_loop (order : WorkOrder) :
    ∃ items s, a.Loop none (a.start order) items (.ok s) ∧ s.processed = items.length := by
  obtain ⟨hanchored, hstart⟩ := anchored_start hp order
  have hsound := (advances_start (closed_possibleFacts hp) order).1.sound
  obtain ⟨hempty, -⟩ := isEmpty_run hp (Nat.le_refl _) _ hsound hanchored (Nat.le_refl _)
  obtain ⟨items, hitems⟩ := exists_loop_of_run _ hempty
  refine ⟨items, _, hitems, ?_⟩
  rw [hitems.processed hp hsound hanchored, hstart.processed]
  exact Nat.zero_add _

/-- Without a limit the loop deals with certain work items and comes to one state. Under any limit it
deals with the first of them, as many as the limit allows: all of them, and then the result is that same
state, or too few, and then the result is just that the limit is exceeded. -/
theorem limit_cuts_off (order : WorkOrder) : ∃ items s, s.processed = items.length ∧
    (∀ items' r, a.Loop none (a.start order) items' r ↔ items' = items ∧ r = .ok s) ∧
    (s.processed ≤ itemRange → a.solve order none = .ok s) ∧
    (∀ l items' r, a.Loop (some l) (a.start order) items' r ↔
      items' = items.take l ∧ r = a.solve order (some l)) ∧
    (∀ l, a.solve order (some l) =
      if s.processed ≤ l then .ok s else .error (.iterationLimitExceeded l)) ∧
    ∀ l m t, l ≤ m → a.solve order (some l) = .ok t → a.solve order (some m) = .ok t := by
  obtain ⟨hanchored, hstart⟩ := anchored_start hp order
  have hsound := (advances_start (closed_possibleFacts hp) order).1.sound
  have hzero : (a.start order).processed = 0 := hstart.processed
  obtain ⟨items, s, hloop, hcount⟩ := exists_loop hp order
  have hsolve : ∀ l, a.solve order (some l) =
      if s.processed ≤ l then .ok s else .error (.iterationLimitExceeded l) := by
    intro l
    rw [hcount]
    exact hloop.finished_run l (some l)
  refine ⟨items, s, hcount, fun items' r => hloop.eq_iff, fun hrange => ?_, fun l items' r => ?_,
    hsolve, fun l m t hlm ht => ?_⟩
  · rw [hcount] at hrange
    rw [solve, final, hloop.finished_run, Option.getD_none, if_pos hrange]
  · have htake := hloop.take hp hsound hanchored l
    rw [hzero, Nat.sub_zero] at htake
    exact htake.eq_iff
  · rw [hsolve] at ht ⊢
    split at ht
    · rename_i hl
      rw [if_pos (Nat.le_trans hl hlm), ht]
    · cases ht

end Count

/-- The small program takes five work items. -/
theorem limit_cuts_off_identity : ∃ s, s.processed = 5 ∧ identity.solve .fifo none = .ok s ∧
    identity.solve .fifo (some 5) = .ok s ∧
    identity.solve .fifo (some 4) = .error (.iterationLimitExceeded 4) := by
  obtain ⟨items, s, -, -, hnone, -, hsolve, -⟩ :=
    limit_cuts_off (a := identity) Program.accepted_identity .fifo
  obtain ⟨t, ht, hfive⟩ := exists_ok_of_any (e := identity.solve .fifo (some 5))
    (f := fun t => decide (t.processed = 5)) (by decide +kernel)
  have hfive := decide_eq_true_iff.1 hfive
  have hs : s.processed = 5 := by
    rw [hsolve] at ht
    split at ht
    · obtain rfl := Except.ok.inj ht
      exact hfive
    · cases ht
  refine ⟨s, hs, hnone ?_, ?_, ?_⟩
  · rw [hs]
    decide
  · rw [hsolve, if_pos (Nat.le_of_eq hs)]
  · rw [hsolve, if_neg (by omega)]

end Analysis

end PointsTo
