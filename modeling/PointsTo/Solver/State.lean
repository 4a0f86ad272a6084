import PointsTo.Entities
import PointsTo.FlowGraph
import PointsTo.WorkList

/-! The state of the solver: everything numbered so far with the objects each cell holds, the flow
graph, the call graph under contexts, and the work that is left. The operations here number what they
speak of in the order in which they mention it. -/

namespace PointsTo

/-- What happens in a run beside the growth of its graphs. -/
inductive Event where
  | reached (method : QMethodId)
  | staticCallWithoutTarget (call : CallId)
  | callWithoutTarget (call : CallId) (receiver : ObjectId)
  | called (edge : QCallEdge)
  deriving DecidableEq, Repr

structure State where
  entities : Entities
  flow : FlowGraph
  calls : CallGraph QCallId QMethodId
  work : WorkList
  /-- The number of work items dealt with. -/
  processed : Nat
  events : Array Event
  deriving Inhabited

namespace State

def empty (order : WorkOrder) : State := ⟨.empty, .empty, .empty, .empty order, 0, #[]⟩

variable (s : State)

def record (e : Event) : State := { s with events := s.events.push e }

def addContext (c : Context) : State := { s with entities := s.entities.addContext c }

def addObject (o : HeapObject) : State := { s with entities := s.entities.addObject o }

def addQObject (o : Qualified .object) : State := { s with entities := s.entities.addQObject o }

def addQMethod (x : Qualified .method) : State := { s with entities := s.entities.addQMethod x }

def addQCall (c : Qualified .call) : State := { s with entities := s.entities.addQCall c }

def addCell (c : Cell) : State := { s with entities := s.entities.addCell c }

/-- Leaves objects to be put into a cell. -/
def send (c : CellId) (objects : IdSet (.qualified .object)) : State :=
  { s with work := s.work.addObjects c objects }

/-- Lets a cell hold one more object, once that work is done. -/
def give (c : Cell) (o : QObjectId) : State :=
  let s := s.addCell c
  s.send (s.entities.cellId c) (.singleton o)

/-- Adds a flow edge. What the source holds already is sent along it. -/
def addFlow (source target : CellId) : State :=
  if s.flow.hasEdge source target then s
  else
    let objects := s.entities.pointsTo source
    { s with flow := s.flow.insert source target, work := s.work.addObjects target objects }

/-- Adds the flow edge between two cells, numbering the source first. -/
def connect (source target : Cell) : State :=
  let s := (s.addCell source).addCell target
  s.addFlow (s.entities.cellId source) (s.entities.cellId target)

def connectAll (flows : List (Cell × Cell)) : State :=
  flows.foldl (fun s (source, target) => s.connect source target) s

/-- Leaves a call edge to be installed unless there is one already. -/
def requestCall (kind : CallKind) (site : Qualified .call) (callee : Qualified .method) : State :=
  let s := (s.addQCall site).addQMethod callee
  let edge : QCallEdge := ⟨kind, s.entities.qcallId site, s.entities.qmethodId callee⟩
  if s.calls.hasEdge edge.site edge.callee then s else { s with work := s.work.addCall edge }

end State

end PointsTo
