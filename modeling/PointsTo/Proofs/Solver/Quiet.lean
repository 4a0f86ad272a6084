import PointsTo.Proofs.Solver.Operations

/-! What the operations of the solver leave alone. Objects enter cells, methods become reachable and call
edges are added in three places of the solver only; everything else numbers, connects, sends and requests,
and is quiet about these. -/

namespace PointsTo

namespace State

/-- The methods whose reaching was recorded, in order. -/
def reachedEvents (s : State) : List QMethodId :=
  s.events.toList.filterMap fun
    | .reached x => some x
    | _ => none

/-- The call edges whose addition was recorded, in order. -/
def calledEvents (s : State) : List QCallEdge :=
  s.events.toList.filterMap fun
    | .called e => some e
    | _ => none

/-- No object has entered a cell, no method has become reachable and no call edge has been added. -/
structure Quiet (s u : State) : Prop where
  entities : s.entities.Extends u.entities
  pointsTo : ∀ c, u.entities.pointsTo c = s.entities.pointsTo c
  reachable : u.calls.reachable = s.calls.reachable
  edges : u.calls.edges = s.calls.edges
  reached : u.reachedEvents = s.reachedEvents
  called : u.calledEvents = s.calledEvents

variable {s u v : State}

namespace Quiet

theorem refl (s : State) : s.Quiet s := ⟨.refl _, fun _ => rfl, rfl, rfl, rfl, rfl⟩

theorem trans (h : s.Quiet u) (h' : u.Quiet v) : s.Quiet v where
  entities := h.entities.trans h'.entities
  pointsTo c := (h'.pointsTo c).trans (h.pointsTo c)
  reachable := h'.reachable.trans h.reachable
  edges := h'.edges.trans h.edges
  reached := h'.reached.trans h.reached
  called := h'.called.trans h.called

theorem foldl {β : Type} {op : State → β → State} (hop : ∀ s b, Quiet s (op s b)) (l : List β)
    (s : State) : Quiet s (l.foldl op s) := by
  induction l generalizing s with
  | nil => exact refl s
  | cons b l ih => exact (hop s b).trans (ih (op s b))

end Quiet

theorem quiet_addContext (s : State) (c : Context) : s.Quiet (s.addContext c) :=
  { Quiet.refl s with entities := Entities.extends_addContext _ _ }

theorem quiet_addObject (s : State) (o : HeapObject) : s.Quiet (s.addObject o) :=
  { Quiet.refl s with entities := Entities.extends_addObject _ _ }

theorem quiet_addQObject (s : State) (o : Qualified .object) : s.Quiet (s.addQObject o) :=
  { Quiet.refl s with entities := Entities.extends_addQObject _ _ }

theorem quiet_addQMethod (s : State) (x : Qualified .method) : s.Quiet (s.addQMethod x) :=
  { Quiet.refl s with entities := Entities.extends_addQMethod _ _ }

theorem quiet_addQCall (s : State) (c : Qualified .call) : s.Quiet (s.addQCall c) :=
  { Quiet.refl s with entities := Entities.extends_addQCall _ _ }

theorem quiet_addCell (s : State) (c : Cell) : s.Quiet (s.addCell c) :=
  { Quiet.refl s with
    entities := Entities.extends_addCell _ _
    pointsTo := fun d => Entities.pointsTo_addCell _ _ d }

theorem quiet_record (s : State) {e : Event} (hreached : ∀ x, e ≠ .reached x)
    (hcalled : ∀ f, e ≠ .called f) : s.Quiet (s.record e) := by
  refine { Quiet.refl s with reached := ?_, called := ?_ }
  · rw [reachedEvents, record, Array.toList_push, List.filterMap_append]
    cases e <;> simp [reachedEvents] at *
  · rw [calledEvents, record, Array.toList_push, List.filterMap_append]
    cases e <;> simp [calledEvents] at *

theorem quiet_send (s : State) (c : CellId) (objects : IdSet (.qualified .object)) :
    s.Quiet (s.send c objects) := { Quiet.refl s with }

theorem quiet_give (s : State) (c : Cell) (o : QObjectId) : s.Quiet (s.give c o) :=
  (quiet_addCell s c).trans (quiet_send _ _ _)

theorem quiet_addFlow (s : State) (x y : CellId) : s.Quiet (s.addFlow x y) := by
  unfold addFlow
  split
  · exact .refl s
  · exact { Quiet.refl s with }

theorem quiet_connect (s : State) (x y : Cell) : s.Quiet (s.connect x y) :=
  ((quiet_addCell s x).trans (quiet_addCell _ y)).trans (quiet_addFlow _ _ _)

theorem quiet_connectAll (s : State) (flows : List (Cell × Cell)) : s.Quiet (s.connectAll flows) := by
  apply Quiet.foldl
  intro s f
  exact quiet_connect s f.1 f.2

theorem quiet_requestCall (s : State) (kind : CallKind) (site : Qualified .call)
    (callee : Qualified .method) : s.Quiet (s.requestCall kind site callee) := by
  have hadd := (quiet_addQCall s site).trans (quiet_addQMethod _ callee)
  rw [requestCall]
  split
  · exact hadd
  · exact { hadd with }

end State

namespace Analysis

open State

variable {a : Analysis} {s : State}

theorem quiet_allocate (k : ContextId) (site : SiteId) (s : State) :
    s.Quiet (a.allocate k site s) := by
  unfold allocate
  exact (((quiet_addContext s _).trans (quiet_addObject _ _)).trans (quiet_addQObject _ _)).trans
    (quiet_give _ _ _)

theorem quiet_callStatic (k : ContextId) (i : CallId) (s : State) :
    s.Quiet (a.callStatic k i s) := by
  rw [callStatic]
  split
  · exact quiet_record s (fun _ h => by cases h) fun _ h => by cases h
  · exact (quiet_addContext s _).trans (quiet_requestCall _ _ _ _)

theorem quiet_read (k : ContextId) (s : State) (stmt : Stmt) : s.Quiet (a.read k s stmt) := by
  cases stmt with
  | new site => exact quiet_allocate k site s
  | copy | loadStatic | storeStatic => exact quiet_connect s _ _
  | invoke i =>
    rw [read]
    split
    · exact quiet_callStatic k i s
    · exact .refl s
  | loadField | storeField | loadArray | storeArray | ret => exact .refl s

theorem quiet_readAll (k : ContextId) (body : Array Stmt) (s : State) :
    s.Quiet (body.foldl (a.read k) s) := by
  rw [← Array.foldl_toList]
  exact .foldl (quiet_read k) _ _

theorem quiet_bindThis (this : Option VarId) (l : ContextId) (o : QObjectId) (s : State) :
    s.Quiet (match this with
      | none => s
      | some this => s.give (.var l this) o) := by
  cases this with
  | none => exact .refl s
  | some this => exact quiet_give s _ o

theorem quiet_callOn (k : ContextId) (o : QObjectId) (s : State) (i : CallId) :
    s.Quiet (a.callOn k o s i) := by
  rw [callOn]
  split
  · exact quiet_record s (fun _ h => by cases h) fun _ h => by cases h
  · have hcontext : s.Quiet (s.addContext
        (a.selector.calleeContext (s.entities.context k) i (some (s.entities.receiver o)))) :=
      quiet_addContext s _
    exact (hcontext.trans (quiet_bindThis _ _ o _)).trans (quiet_requestCall _ _ _ _)

theorem quiet_meet (k : ContextId) (v : VarId) (s : State) (o : QObjectId) :
    s.Quiet (a.meet k v s o) := by
  rw [meet, ← Array.foldl_toList]
  exact (quiet_connectAll s _).trans (.foldl (quiet_callOn k o) _ _)

theorem quiet_returnResult (call : Call) (k : ContextId) (x : Method) (l : ContextId) (s : State) :
    s.Quiet (returnResult call k x l s) := by
  unfold returnResult
  split
  · exact .refl s
  · exact (quiet_addCell s _).trans (quiet_connectAll _ _)

end Analysis

end PointsTo
