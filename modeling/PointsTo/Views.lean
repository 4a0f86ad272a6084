import PointsTo.Dot
import PointsTo.Result

/-! The graphs of a result, for drawing: pointer flow between cells, and calls between methods under
their contexts. -/

namespace PointsTo

namespace Result

variable (r : Result)

def flowNodes : List CellId :=
  (Numbering.ofList (r.state.flow.edges.flatMap fun (source, target) => [source, target])).toList

/-- The cells that take part in a flow edge, by first appearance, and the flow edges. -/
def flowView : Dot.Graph where
  name := "pointer_flow"
  nodes := r.flowNodes.map fun c => ⟨r.cellText c, c.index⟩
  edges := r.state.flow.edges.map fun (source, target) =>
    ⟨source.index, target.index, "", .flow⟩

/-- The reachable methods, and the call edges whose call site lies in a known method. -/
def callView : Dot.Graph where
  name := "call_graph"
  nodes := r.state.calls.reachable.toList.map fun x => ⟨r.qmethodText x, x.index⟩
  edges := r.state.calls.edges.toList.filterMap fun e =>
    (r.state.calls.container? e.site).map fun caller =>
      ⟨caller.index, e.callee.index, r.qcallText e.site, .call e.kind⟩

end Result

end PointsTo
