import Mathlib.Data.Set.Image
import PointsTo.Proofs.Solver.Fixpoint

/-! Final states. When no work is left, what has a number is exactly what the facts speak of: nothing was
numbered in vain, and nothing of the facts is without a number. -/

namespace PointsTo

namespace State

/-- A state that keeps within its own facts and whose call edges are wired. -/
structure Final (a : Analysis) (s : State) : Prop where
  sound : s.Sound a s.facts
  wired : ∀ e ∈ s.calls.edges.toList, s.Wired a e
  entry : ∃ x, x ∈ s.calls.entries.toList

namespace Final

variable {a : Analysis} {s : State} (hs : s.Final a)

include hs

theorem image_contextAt :
    s.entities.contextAt '' {c | s.entities.IsContext c} = s.facts.contexts := by
  ext k
  constructor
  · rintro ⟨c, hc, rfl⟩
    exact hs.sound.named.contexts _ (Numbering.getD_mem hc _)
  · rintro (⟨_, ⟨x, hx, rfl⟩, rfl⟩ | ⟨p, _, ⟨c, o, ho, heq⟩, rfl⟩)
    · have hmethod := (hs.sound.reachable x hx).1
      exact ⟨_, hs.sound.entities.qmethod hmethod, rfl⟩
    · obtain ⟨rfl, rfl⟩ := Prod.mk.inj heq
      have hobject := (hs.sound.due c o (Or.inl ho)).2.1
      exact ⟨_, (hs.sound.entities.qobject hobject).1, rfl⟩

theorem image_qobjectAt :
    s.entities.qobjectAt '' {o | s.entities.IsQObject o} = s.facts.qobjects := by
  ext q
  constructor
  · rintro ⟨o, ho, rfl⟩
    exact hs.sound.named.qobjects _ (Numbering.getD_mem ho _)
  · intro h
    obtain ⟨p, c, o, ho, heq⟩ := h
    obtain ⟨rfl, rfl⟩ := Prod.mk.inj heq
    exact ⟨o, (hs.sound.due c o (Or.inl ho)).2.1, rfl⟩

theorem image_object : s.entities.object '' {o | s.entities.IsObject o} = s.facts.objects := by
  ext h
  constructor
  · rintro ⟨o, ho, rfl⟩
    exact hs.sound.named.objects _ (Numbering.getD_mem ho _)
  · rintro ⟨q, hq, rfl⟩
    rw [← hs.image_qobjectAt] at hq
    obtain ⟨o, ho, rfl⟩ := hq
    exact ⟨_, (hs.sound.entities.qobject ho).2, rfl⟩

theorem image_qmethodAt :
    s.entities.qmethodAt '' {x | s.entities.IsQMethod x} = a.qmethods s.facts := by
  ext y
  constructor
  · rintro ⟨x, hx, rfl⟩
    exact hs.sound.named.qmethods _ (Numbering.getD_mem hx _)
  · rintro (⟨x, hx, rfl⟩ | ⟨_, ⟨e, he, rfl⟩, rfl⟩)
    · exact ⟨x, (hs.sound.reachable x hx).1, rfl⟩
    · obtain ⟨x, hx⟩ := (hs.wired e he).placed
      obtain ⟨-, hmethod, hcontainer⟩ := hs.sound.containers _ _ hx
      exact ⟨x, hmethod, hcontainer⟩

theorem image_qcallAt : s.entities.qcallAt '' {c | s.entities.IsQCall c} = s.facts.qcalls := by
  ext d
  constructor
  · rintro ⟨c, hc, rfl⟩
    exact hs.sound.named.qcalls _ (Numbering.getD_mem hc _)
  · rintro ⟨_, ⟨e, he, rfl⟩, rfl⟩
    exact ⟨e.site, (hs.sound.requested e (Or.inl he)).1, rfl⟩

theorem image_cellAt : s.entities.cellAt '' {c | s.entities.IsCell c} = a.cells s.facts := by
  ext p
  constructor
  · rintro ⟨c, hc, rfl⟩
    exact hs.sound.named.cells _ (Numbering.getD_mem hc _)
  · rintro (⟨q, ⟨x, y, hxy, heq⟩ | ⟨x, y, hxy, heq⟩⟩ | ⟨q, c, o, ho, heq⟩ | ⟨_, ⟨e, he, rfl⟩, r, hr, rfl⟩)
    · exact ⟨x, (hs.sound.flow x y hxy).1, (Prod.mk.inj heq).1⟩
    · exact ⟨y, (hs.sound.flow x y hxy).2.1, (Prod.mk.inj heq).2⟩
    · exact ⟨c, (hs.sound.due c o (Or.inl ho)).1, (Prod.mk.inj heq).1⟩
    · have hmem := (hs.wired e he).result r hr
      exact ⟨_, Entities.isCell_cellId hmem, Entities.cellAt_cellId hmem⟩

/-- A call site that has a number has a call edge, and so has been placed in a method. -/
theorem container {c : QCallId} (hc : s.entities.IsQCall c) :
    ∃ x, s.calls.container? c = some x ∧ s.entities.PlacedIn a c x := by
  obtain ⟨_, ⟨e, he, rfl⟩, hsite⟩ := hs.sound.named.qcalls _ (Numbering.getD_mem hc _)
  have hknown := (hs.sound.requested e (Or.inl he)).1
  obtain rfl := hs.sound.entities.qcallAt_injective hknown hc hsite
  obtain ⟨x, hx⟩ := (hs.wired e he).placed
  exact ⟨x, hx, hs.sound.containers _ _ hx⟩

end Final

end State

namespace Analysis

variable {a : Analysis} {order : WorkOrder} {limit : Option Nat} {s : State}

theorem entry_mem_entries (hp : a.program.Indexed) (h : a.solve order limit = .ok s) :
    ∃ x, x ∈ s.calls.entries.toList := by
  obtain ⟨rfl, -⟩ := solve_eq_ok h
  obtain ⟨hstart, x, hx, -⟩ := advances_start (closed_all a) order
  exact ⟨x, (advances_run hp hstart.sound (closed_all a) _).grows.entries x hx⟩

theorem final_of_solve (hp : a.program.Indexed) (h : a.solve order limit = .ok s) : s.Final a := by
  have hadvances := advances_of_solve hp (isLeast_facts hp h).1 h
  refine ⟨hadvances.sound, fun e he => ?_, entry_mem_entries hp h⟩
  rcases hadvances.wires e he with hold | hwired
  · simp [State.empty, CallGraph.empty] at hold
  · exact hwired

end Analysis

end PointsTo
