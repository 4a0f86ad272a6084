import PointsTo.CallGraph
import PointsTo.Log

/-! The call graph of the class hierarchy alone. A virtual or interface call may run whatever one of the
classes below its declared class runs for it; dynamic calls are passed over. -/

namespace PointsTo

def Call.skippedRecord? (c : Call) : Option LogRecord :=
  match c.kind with
  | .dynamic => some ⟨.debug, "Skipping dynamic call to " ++ c.subsignature.text⟩
  | _ => none

namespace Program

variable (p : Program)

/-- The possible callees of a call, each once. -/
def hierarchyCallees (c : Call) : List MethodId :=
  match c.kind with
  | .static | .special => (p.callee? none c).toList
  | .virtual | .interface =>
    (((p.subtypesOf c.cls).filter fun t => !(p.cls t).isInterface).filterMap fun t =>
      p.dispatch? t c.subsignature).eraseDups
  | .dynamic => []

/-- The call sites in the body of a method, in order. -/
def callsIn (x : MethodId) : List CallId :=
  (p.method x).body.toList.filterMap fun
    | .invoke call => some call
    | _ => none

/-- The methods reached from the entry method, nearest first. -/
def hierarchyReachable : List MethodId :=
  closure (fun x => (p.callsIn x).flatMap fun c => p.hierarchyCallees (p.call c))
    p.methods.size p.entry

def addHierarchyCalls (x : MethodId) (g : CallGraph CallId MethodId) (c : CallId) :
    CallGraph CallId MethodId :=
  (p.hierarchyCallees (p.call c)).foldl (fun g callee => g.addEdge ⟨(p.call c).kind, c, callee⟩)
    (g.setContainer c x)

def hierarchyCallGraph : CallGraph CallId MethodId :=
  p.hierarchyReachable.foldl
    (fun g x => (p.callsIn x).foldl (p.addHierarchyCalls x) (g.addReachable x))
    (CallGraph.empty.addEntry p.entry)

/-- The log of building the call graph `g` of the hierarchy. -/
def hierarchyLog (g : CallGraph CallId MethodId) : List LogRecord :=
  let skipped :=
    g.reachable.toList.flatMap fun x =>
      (p.callsIn x).filterMap fun c => (p.call c).skippedRecord?
  skipped ++
    [⟨.info, s!"Class hierarchy call graph: {g.numReachable} reachable methods, {g.numEdges} edges"⟩]

end Program

end PointsTo
