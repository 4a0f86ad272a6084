import PointsTo.Proofs.Solver.Step

/-! Oblivious operations. Most of what the solver does to a state is done by number: it matters not which
context, object or call site has a number. Such an operation commutes with putting other things behind
those numbers. -/

namespace PointsTo

namespace State

/-- The state with other contexts, objects and call sites behind its numbers, and another history. -/
def withNumbers (s : State) (contexts : Numbering Context) (objects : Numbering HeapObject)
    (qcalls : Numbering (Qualified .call)) (events : Array Event) : State :=
  { s with entities := { s.entities with contexts, objects, qcalls }, events }

/-- The operation neither reads nor numbers contexts, objects and call sites, and nothing happens. -/
structure Oblivious (op : State → State) : Prop where
  withNumbers : ∀ s n m q e, op (s.withNumbers n m q e) = (op s).withNumbers n m q e
  contexts : ∀ s, (op s).entities.contexts = s.entities.contexts
  objects : ∀ s, (op s).entities.objects = s.entities.objects
  qobjects : ∀ s, (op s).entities.qobjects = s.entities.qobjects
  qcalls : ∀ s, (op s).entities.qcalls = s.entities.qcalls
  events : ∀ s, (op s).events = s.events

namespace Oblivious

variable {op op' : State → State}

theorem comp (h : Oblivious op) (h' : Oblivious op') : Oblivious fun s => op' (op s) where
  withNumbers s n m q e := by rw [h.withNumbers, h'.withNumbers]
  contexts s := (h'.contexts _).trans (h.contexts s)
  objects s := (h'.objects _).trans (h.objects s)
  qobjects s := (h'.qobjects _).trans (h.qobjects s)
  qcalls s := (h'.qcalls _).trans (h.qcalls s)
  events s := (h'.events _).trans (h.events s)

theorem foldl {β : Type} {op : State → β → State} (h : ∀ b, Oblivious (op · b)) (l : List β) :
    Oblivious fun s => l.foldl op s := by
  induction l with
  | nil =>
    exact ⟨fun _ _ _ _ _ => rfl, fun _ => rfl, fun _ => rfl, fun _ => rfl, fun _ => rfl, fun _ => rfl⟩
  | cons b l ih => exact (h b).comp ih

/-- Such an operation may be left out where a test succeeds that does not look behind the numbers either. -/
theorem guarded (test : State → Bool) (htest : ∀ s n m q e, test (s.withNumbers n m q e) = test s)
    (h : Oblivious op) : Oblivious fun s => if test s then s else op s := by
  constructor
  case withNumbers =>
    intro s n m q e
    rw [htest, h.withNumbers]
    split <;> rfl
  all_goals
    intro s
    split
  case contexts.isFalse => exact h.contexts s
  case objects.isFalse => exact h.objects s
  case qobjects.isFalse => exact h.qobjects s
  case qcalls.isFalse => exact h.qcalls s
  case events.isFalse => exact h.events s
  all_goals rfl

end Oblivious

theorem oblivious_addQMethod (x : Qualified .method) : Oblivious (·.addQMethod x) :=
  ⟨fun _ _ _ _ _ => rfl, fun _ => rfl, fun _ => rfl, fun _ => rfl, fun _ => rfl, fun _ => rfl⟩

theorem oblivious_addCell (c : Cell) : Oblivious (·.addCell c) :=
  ⟨fun _ _ _ _ _ => rfl, fun _ => rfl, fun _ => rfl, fun _ => rfl, fun _ => rfl, fun _ => rfl⟩

theorem oblivious_give (c : Cell) (o : QObjectId) : Oblivious (·.give c o) := by
  have hsend : Oblivious fun s => s.send (s.entities.cellId c) (.singleton o) :=
    ⟨fun _ _ _ _ _ => rfl, fun _ => rfl, fun _ => rfl, fun _ => rfl, fun _ => rfl, fun _ => rfl⟩
  exact (oblivious_addCell c).comp hsend

/-- The flow edge between two cells that have a number. -/
theorem oblivious_addFlow (x y : Cell) :
    Oblivious fun s => s.addFlow (s.entities.cellId x) (s.entities.cellId y) := by
  apply Oblivious.guarded fun s => s.flow.hasEdge (s.entities.cellId x) (s.entities.cellId y)
  · exact fun _ _ _ _ _ => rfl
  · exact ⟨fun _ _ _ _ _ => rfl, fun _ => rfl, fun _ => rfl, fun _ => rfl, fun _ => rfl, fun _ => rfl⟩

theorem oblivious_connect (x y : Cell) : Oblivious (·.connect x y) := by
  have hcells := (oblivious_addCell x).comp (oblivious_addCell y)
  unfold connect
  exact hcells.comp (oblivious_addFlow x y)

theorem oblivious_connectAll (flows : List (Cell × Cell)) : Oblivious (·.connectAll flows) := by
  unfold connectAll
  apply Oblivious.foldl
  intro f
  obtain ⟨x, y⟩ := f
  exact oblivious_connect x y

/-- Leaves a call edge to be installed unless there is one already. The call site has a number. -/
def requestFrom (s : State) (kind : CallKind) (c : QCallId) (callee : Qualified .method) : State :=
  if s.calls.hasEdge c (s.entities.qmethodId callee) then s
  else { s with work := s.work.addCall ⟨kind, c, s.entities.qmethodId callee⟩ }

theorem requestCall_eq (s : State) (kind : CallKind) (site : Qualified .call)
    (callee : Qualified .method) : s.requestCall kind site callee =
      ((s.addQCall site).addQMethod callee).requestFrom kind ((s.addQCall site).entities.qcallId site)
        callee := rfl

theorem oblivious_requestFrom (kind : CallKind) (c : QCallId) (callee : Qualified .method) :
    Oblivious (·.requestFrom kind c callee) := by
  apply Oblivious.guarded fun s => s.calls.hasEdge c (s.entities.qmethodId callee)
  · exact fun _ _ _ _ _ => rfl
  · exact ⟨fun _ _ _ _ _ => rfl, fun _ => rfl, fun _ => rfl, fun _ => rfl, fun _ => rfl, fun _ => rfl⟩

theorem oblivious_spread (c : CellId) (objects : IdSet (.qualified .object)) :
    Oblivious (·.spread c objects) :=
  ⟨fun _ _ _ _ _ => rfl, fun _ => rfl, fun _ => rfl, fun _ => rfl, fun _ => rfl, fun _ => rfl⟩

end State

end PointsTo
