import PointsTo.Proofs.Solver.Step

/-! Runs of the solver. Every state of a run comes from the empty one by advancing, so what it has
established is closed up to what it has promised. Once no work is left nothing is promised beyond what
is established, which is then the least closed facts. -/

namespace PointsTo

namespace Analysis

open State

variable {a : Analysis} {F : Facts} {s u : State} {order : WorkOrder}

/-! ### Steps and runs -/

theorem advances_step (hp : a.program.Indexed) (hs : s.Sound a F) (hF : a.Closed F)
    (h : a.step? s = some u) : Advances a F s u := by
  rw [step?] at h
  split at h
  · cases h
  · rename_i item rest hpoll
    have hpolled := WorkList.polled_of_poll hpoll
    obtain rfl := Option.some.inj h
    cases item with
    | objects c objects => exact advances_deliver hp hs hF hpolled
    | call e => exact advances_install hs hF hpolled

theorem advances_run (hp : a.program.Indexed) (hs : s.Sound a F) (hF : a.Closed F) (fuel : Nat) :
    Advances a F s (a.run fuel s) := by
  induction fuel generalizing s with
  | zero => exact .refl hs
  | succ fuel ih =>
    rw [run]
    split
    · exact .refl hs
    · rename_i u hu
      have hstep := advances_step hp hs hF hu
      exact hstep.trans (ih hstep.sound)

/-- The entry method under the empty context is an entry of the call graph, and reachable. -/
theorem advances_start (hF : a.Closed F) (order : WorkOrder) :
    Advances a F (State.empty order) (a.start order) ∧
      ∃ x ∈ (a.start order).calls.entries.toList, x ∈ (a.start order).calls.reachable.toList := by
  have hempty := Sound.empty a F order
  have hcontext : Advances a F _ ((State.empty order).addContext .empty) :=
    advances_addContext hempty (fun o ho => absurd ho List.not_mem_nil) (Or.inl ⟨_, hF.entry, rfl⟩)
  have hcmem := mem_addContext (State.empty order) .empty
  have hread := Entities.contextAt_contextId hcmem
  have hid := Entities.isContext_contextId hcmem
  rw [start]
  generalize (State.empty order).addContext .empty = s at *
  generalize hentry : (⟨s.entities.contextId .empty, a.program.entry⟩ : Qualified .method) = entry
  have hentryAt : s.entities.qmethodOf entry = ⟨.empty, a.program.entry⟩ := by
    rw [← hentry, Entities.qmethodOf, hread]
    rfl
  have hentryk : s.entities.IsContext entry.context := by rwa [← hentry]
  have hmethod := advances_addQMethod hcontext.sound hentryk (Or.inl (hentryAt ▸ hF.entry))
  have hmem := mem_addQMethod s entry
  have hxAt := Entities.qmethodAt_of_extends hmethod.grows.entities hcontext.sound.entities hentryk hmem
  have hx := Entities.isQMethod_qmethodId hmem
  generalize s.addQMethod entry = t at *
  rw [hentryAt] at hxAt
  have hentries : ∀ y, y ∈ (t.calls.addEntry (t.entities.qmethodId entry)).entries.toList ↔
      y ∈ t.calls.entries.toList ∨ y = t.entities.qmethodId entry := fun y => Numbering.mem_toList_insert
  have hentered : Advances a F t
      { t with calls := t.calls.addEntry (t.entities.qmethodId entry) } := by
    refine .of_grows ?_ ?_ (fun h => h) rfl (fun _ => rfl) rfl
    · exact { Grows.refl t with entries := fun y hy => (hentries y).2 (Or.inl hy) }
    · refine { hmethod.sound with
        calls := ⟨hmethod.sound.calls.hasEdge_iff, hmethod.sound.calls.distinct⟩
        entries := fun y hy => ?_ }
      rcases (hentries y).1 hy with hold | rfl
      · exact hmethod.sound.entries y hold
      · exact ⟨hx, hxAt⟩
  obtain ⟨hstart, hreach⟩ := advances_enter hentered.sound hF (x := t.entities.qmethodId entry)
    ⟨hx, hxAt.symm ▸ hF.entry⟩
  exact ⟨((hcontext.trans hmethod).trans hentered).trans hstart, _,
    hstart.grows.entries _ ((hentries _).2 (Or.inr rfl)), hreach⟩

/-- Any state of a run has established what is closed up to its promises, within any closed facts. -/
theorem advances_of_run (hp : a.program.Indexed) (hF : a.Closed F) (order : WorkOrder) (fuel : Nat) :
    Advances a F (State.empty order) (a.run fuel (a.start order)) := by
  obtain ⟨hstart, -⟩ := advances_start hF order
  exact hstart.trans (advances_run hp hstart.sound hF fuel)

/-! ### What a run establishes -/

theorem flowSettled_empty (order : WorkOrder) : (State.empty order).FlowSettled :=
  fun _ _ hxy => absurd hxy FlowGraph.hasEdge_empty

/-- Everything that follows by one rule from what a state has established is established or promised. -/
theorem follows_of_advances (h : Advances a F (State.empty order) s)
    (hentry : ⟨.empty, a.program.entry⟩ ∈ s.facts.reach) : a.Follows s.facts s.promised where
  entry := hentry
  reads := by
    rintro _ ⟨x, hx, rfl⟩
    rcases h.reads x hx with hold | hread
    · simp [State.empty, CallGraph.empty] at hold
    · exact hread
  meets := by
    intro k v q hexists
    obtain ⟨c, o, ho, hq⟩ := hexists
    obtain ⟨hcell, rfl⟩ := Prod.mk.inj hq
    rcases h.meets c o ho with hold | hmet
    · simp [State.empty, Entities.empty, Entities.pointsTo] at hold
    · exact hmet k v hcell
  wires := by
    rintro _ ⟨e, he, rfl⟩
    rcases h.wires e he with hold | hwired
    · simp [State.empty, CallGraph.empty] at hold
    · exact hwired.wires
  flows := by
    rintro p q ⟨x, y, hxy, hpq⟩ o ⟨c, o', ho', hpo⟩
    obtain ⟨rfl, rfl⟩ := Prod.mk.inj hpq
    obtain ⟨hcell, rfl⟩ := Prod.mk.inj hpo
    obtain rfl := h.sound.entities.cellAt_injective (h.sound.due c o' (Or.inl ho')).1
      (h.sound.flow x y hxy).1 hcell
    exact ⟨y, o', h.settled (flowSettled_empty order) _ y hxy o' ho', rfl⟩

theorem entry_mem_reach (a : Analysis) (order : WorkOrder) (hp : a.program.Indexed) (fuel : Nat) :
    ⟨.empty, a.program.entry⟩ ∈ (a.run fuel (a.start order)).facts.reach := by
  obtain ⟨hstart, x, hentries, hreach⟩ := advances_start (closed_all a) order
  have hrun := advances_run hp hstart.sound (closed_all a) fuel
  refine ⟨x, hrun.grows.reachable x hreach, ?_⟩
  exact (hrun.sound.entries x (hrun.grows.entries x hentries)).2

theorem follows_of_run (a : Analysis) (order : WorkOrder) (hp : a.program.Indexed) (fuel : Nat) :
    a.Follows (a.run fuel (a.start order)).facts (a.run fuel (a.start order)).promised :=
  follows_of_advances (advances_of_run hp (closed_all a) order fuel) (entry_mem_reach a order hp fuel)

theorem solve_eq_ok {limit : Option Nat} (h : a.solve order limit = .ok s) :
    a.run (limit.getD itemRange) (a.start order) = s ∧ s.work.isEmpty = true := by
  rw [solve, final, State.finished] at h
  split at h
  · rename_i hempty
    obtain rfl := Except.ok.inj h
    exact ⟨rfl, hempty⟩
  · cases h

theorem advances_of_solve (hp : a.program.Indexed) (hF : a.Closed F) {limit : Option Nat}
    (h : a.solve order limit = .ok s) : Advances a F (State.empty order) s := by
  obtain ⟨rfl, -⟩ := solve_eq_ok h
  exact advances_of_run hp hF order _

theorem isLeast_facts (hp : a.program.Indexed) {limit : Option Nat}
    (h : a.solve order limit = .ok s) : IsLeast {F | a.Closed F} s.facts := by
  have hadvances := advances_of_solve hp (closed_all a) h
  obtain ⟨hrun, hempty⟩ := solve_eq_ok h
  have hpromised := promised_eq_facts hadvances.sound.scope hempty
  constructor
  · have hfollows := follows_of_run a order hp (limit.getD itemRange)
    rw [hrun, hpromised] at hfollows
    exact hfollows
  · intro F hF
    rw [← hpromised]
    exact (advances_of_solve hp hF h).sound.promised_le

/-- A run that ends has established the least facts closed under the rules of the analysis. -/
theorem solve_isLeast_closed (hp : a.program.Accepted) {limit : Option Nat}
    (h : a.solve order limit = .ok s) : IsLeast {F | a.Closed F} s.facts :=
  isLeast_facts hp.indexed h

/-- The analysis of the small program that tells methods apart by their receiver. -/
def identity : Analysis := ⟨.identity, .object 1 0, .allocationSite⟩

theorem solve_isLeast_closed_identity :
    ∃ s, (⟨.identity, .object 1 0, .allocationSite⟩ : Analysis).solve .fifo none = .ok s ∧
      IsLeast {F | (⟨.identity, .object 1 0, .allocationSite⟩ : Analysis).Closed F} s.facts := by
  obtain ⟨s, hs⟩ := exists_eq_ok
    (e := (⟨.identity, .object 1 0, .allocationSite⟩ : Analysis).solve .fifo none) (by decide +kernel)
  exact ⟨s, hs, solve_isLeast_closed Program.accepted_identity hs⟩

end Analysis

end PointsTo
