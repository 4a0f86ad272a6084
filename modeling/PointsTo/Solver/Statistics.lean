import PointsTo.Binary64
import PointsTo.Solver.Basic

/-! The figures of a run. -/

namespace PointsTo

structure Statistics where
  iterations : Nat
  contexts : Nat
  objects : Nat
  qobjects : Nat
  cells : Nat
  flowEdges : Nat
  callEdges : Nat
  reachable : Nat
  deriving DecidableEq, Repr

def State.statistics (s : State) : Statistics where
  iterations := s.processed
  contexts := s.entities.contexts.size
  objects := s.entities.objects.size
  qobjects := s.entities.qobjects.size
  cells := s.entities.cells.size
  flowEdges := s.flow.numEdges
  callEdges := s.calls.numEdges
  reachable := s.calls.numReachable

/-- The report on a run that took the time given as text. -/
def Statistics.lines (x : Statistics) (time : String) : List String :=
  [s!"Iterations: {x.iterations}",
    s!"Contexts: {x.contexts}",
    s!"Objects: {x.objects} ({x.qobjects} with context)",
    s!"Pointers: {x.cells}",
    s!"PFG edges: {x.flowEdges}",
    s!"Reachable context-sensitive methods: {x.reachable}",
    s!"Call edges: {x.callEdges}",
    s!"Solving time: {time}"]

end PointsTo
