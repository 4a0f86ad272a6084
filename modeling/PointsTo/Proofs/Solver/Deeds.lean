import PointsTo.Solver.Basic

/-! Runs that keep a record of what they do: what each work item brought that was new, which object was
met at which variable, which body was read and which call edge was wired. A deed is written down where it
is done, and without the record the run is the run of the solver. -/

namespace PointsTo

inductive Deed where
  /-- A work item for a cell was dealt with, and of its objects these were new there. -/
  | delivered (cell : CellId) (new : IdSet (.qualified .object))
  /-- The statements that use a variable as base or receiver met an object. -/
  | met (context : ContextId) (var : VarId) (object : QObjectId)
  | read (method : QMethodId)
  | wired (edge : QCallEdge)

/-- A state with the record of what was done on the way to it, the latest last. -/
structure Noted where
  state : State
  deeds : List Deed

namespace Noted

def note (t : Noted) (d : Deed) : Noted := { t with deeds := t.deeds ++ [d] }

def map (t : Noted) (op : State → State) : Noted := { t with state := op t.state }

end Noted

namespace Analysis

variable (a : Analysis)

def meetNoted (context : ContextId) (var : VarId) (t : Noted) (o : QObjectId) : Noted :=
  (t.note (.met context var o)).map fun s => a.meet context var s o

def enterNoted (x : QMethodId) (t : Noted) : Noted :=
  if t.state.calls.contains x then t
  else
    let t := t.map fun s => { s with calls := s.calls.addReachable x }.record (.reached x)
    let method := t.state.entities.qmethod x
    (t.note (.read x)).map fun s => (a.program.method method.item).body.foldl (a.read method.context) s

def deliverNoted (c : CellId) (objects : IdSet (.qualified .object)) (t : Noted) : Noted :=
  let new := objects \ t.state.entities.pointsTo c
  let t := (t.note (.delivered c new)).map fun s =>
    if new.isEmpty then s
    else
      let s := { s with entities := s.entities.grow c new }
      (s.flow.successors c).foldl (fun s target => s.send target new) s
  match t.state.entities.cell c with
  | .var context var => new.toList.foldl (a.meetNoted context var) t
  | _ => t

def installNoted (edge : QCallEdge) (t : Noted) : Noted :=
  if t.state.calls.hasEdge edge.site edge.callee then t
  else
    let site := t.state.entities.qcall edge.site
    let target := t.state.entities.qmethod edge.callee
    let call := a.program.call site.item
    let t := (t.note (.wired edge)).map fun s =>
      let caller : Qualified .method := ⟨site.context, call.container⟩
      let s := { s with calls := s.calls.addEdge edge }.record (.called edge)
      let s := s.addQMethod caller
      { s with calls := s.calls.setContainer edge.site (s.entities.qmethodId caller) }
    (a.enterNoted edge.callee t).map fun s =>
      let x := a.program.method target.item
      let s := s.connectAll (argumentFlows call site.context x target.context)
      returnResult call site.context x target.context s

def processNoted (t : Noted) : WorkItem → Noted
  | .objects c objects => a.deliverNoted c objects t
  | .call edge => a.installNoted edge t

def stepNoted? (t : Noted) : Option Noted :=
  match t.state.work.poll with
  | none => none
  | some (item, work) =>
    some (a.processNoted (t.map fun s => { s with work, processed := s.processed + 1 }) item)

def runNoted : Nat → Noted → Noted
  | 0, t => t
  | fuel + 1, t =>
    match a.stepNoted? t with
    | none => t
    | some t => runNoted fuel t

def startNoted (order : WorkOrder) : Noted :=
  let s := (State.empty order).addContext .empty
  let entry : Qualified .method := ⟨s.entities.contextId .empty, a.program.entry⟩
  let s := s.addQMethod entry
  let id := s.entities.qmethodId entry
  a.enterNoted id ⟨{ s with calls := s.calls.addEntry id }, []⟩

/-- The state in which a run stops, with all that it did. -/
def finalNoted (order : WorkOrder) (limit : Option Nat) : Noted :=
  a.runNoted (limit.getD itemRange) (a.startNoted order)

/-! ### Without the record -/

variable {a}

theorem foldl_meetNoted (k : ContextId) (v : VarId) (l : List QObjectId) (t : Noted) :
    l.foldl (a.meetNoted k v) t = ⟨l.foldl (a.meet k v) t.state, t.deeds ++ l.map (.met k v)⟩ := by
  induction l generalizing t with
  | nil => simp
  | cons o l ih =>
    rw [List.foldl_cons, List.foldl_cons, ih]
    simp [meetNoted, Noted.note, Noted.map]

theorem state_enterNoted (x : QMethodId) (t : Noted) :
    (a.enterNoted x t).state = a.enter x t.state := by
  rw [enterNoted, enter]
  split <;> rfl

theorem state_deliverNoted (c : CellId) (objects : IdSet (.qualified .object)) (t : Noted) :
    (a.deliverNoted c objects t).state = a.deliver c objects t.state := by
  simp only [deliverNoted, deliver, Noted.map, Noted.note]
  generalize (if (objects \ t.state.entities.pointsTo c).isEmpty then t.state else _) = u
  cases u.entities.cell c with
  | var k v => exact congrArg Noted.state (foldl_meetNoted k v _ _)
  | field | static | elements => rfl

theorem state_installNoted (e : QCallEdge) (t : Noted) :
    (a.installNoted e t).state = a.install e t.state := by
  rw [installNoted, install]
  split
  · rfl
  · simp only [Noted.map, state_enterNoted]
    rfl

theorem state_processNoted (t : Noted) (item : WorkItem) :
    (a.processNoted t item).state = a.process t.state item := by
  cases item with
  | objects c objects => exact state_deliverNoted c objects t
  | call e => exact state_installNoted e t

theorem state_stepNoted? (t : Noted) : (a.stepNoted? t).map Noted.state = a.step? t.state := by
  rw [stepNoted?, step?]
  cases t.state.work.poll with
  | none => rfl
  | some next => exact congrArg some (state_processNoted _ next.1)

theorem state_runNoted (fuel : Nat) (t : Noted) : (a.runNoted fuel t).state = a.run fuel t.state := by
  induction fuel generalizing t with
  | zero => rfl
  | succ fuel ih =>
    have hstep := state_stepNoted? (a := a) t
    rw [runNoted, run, ← hstep]
    cases a.stepNoted? t with
    | none => rfl
    | some u => exact ih u

theorem state_startNoted (order : WorkOrder) : (a.startNoted order).state = a.start order :=
  state_enterNoted _ _

theorem state_finalNoted (order : WorkOrder) (limit : Option Nat) :
    (a.finalNoted order limit).state = a.final order limit := by
  rw [finalNoted, state_runNoted, state_startNoted, final]

end Analysis

end PointsTo
