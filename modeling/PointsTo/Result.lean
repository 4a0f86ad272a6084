import PointsTo.Solver.Statistics

/-! The result of an analysis, contexts left out. The objects of a variable are collected over its
contexts, the cells of objects over the heap contexts of those objects, and the call graph joins the
edges of one call site under all contexts. -/

namespace PointsTo

structure Result where
  program : Program
  state : State
  /-- The objects of each variable that was met under some context. -/
  varObjects : Std.TreeMap VarId (IdSet .object)
  callGraph : CallGraph CallId MethodId
  deriving Inhabited

namespace Result

/-- Adds the objects of one cell to its variable, if it is one. -/
def collectVar (t : Entities) (objects : Std.TreeMap VarId (IdSet .object)) (c : CellId × Cell) :
    Std.TreeMap VarId (IdSet .object) :=
  match c.2 with
  | .var _ v => objects.insert v (objects.getD v ∅ ∪ t.forgetContexts (t.pointsTo c.1))
  | _ => objects

def collectVars (t : Entities) : Std.TreeMap VarId (IdSet .object) :=
  t.numberedCells.foldl (collectVar t) ∅

def addEdge (p : Program) (t : Entities) (g : CallGraph CallId MethodId) (e : QCallEdge) :
    CallGraph CallId MethodId :=
  let call := (t.qcall e.site).item
  (g.setContainer call (p.call call).container).addEdge ⟨e.kind, call, (t.qmethod e.callee).item⟩

def projectCalls (p : Program) (s : State) : CallGraph CallId MethodId :=
  let method (x : QMethodId) := (s.entities.qmethod x).item
  let g := s.calls.entries.toList.foldl (fun g x => g.addEntry (method x)) .empty
  let g := s.calls.reachable.toList.foldl (fun g x => g.addReachable (method x)) g
  s.calls.edges.foldl (addEdge p s.entities) g

def ofState (p : Program) (s : State) : Result :=
  ⟨p, s, collectVars s.entities, projectCalls p s⟩

variable (r : Result)

def entities : Entities := r.state.entities

def pointsTo (v : VarId) : IdSet .object := r.varObjects.getD v ∅

/-- The objects of a variable under one context, if the variable was met under it. -/
def pointsToUnder? (c : Context) (v : VarId) : Option (IdSet (.qualified .object)) := do
  let context ← r.entities.lookupContext? c
  let cell ← r.entities.lookupCell? (.var context v)
  return r.entities.pointsTo cell

/-- The objects in all cells that pass a test. -/
def objectsWhere (test : Cell → Bool) : IdSet .object :=
  (r.entities.numberedCells.filter fun c => test c.2).foldl
    (fun ids c => ids ∪ r.entities.forgetContexts (r.entities.pointsTo c.1)) ∅

def staticFieldPointsTo (f : FieldId) : IdSet .object := r.objectsWhere (· == .static f)

def fieldPointsTo (o : ObjectId) (f : FieldId) : IdSet .object :=
  r.objectsWhere fun
    | .field base g => g == f && r.entities.baseObject base == o
    | _ => false

def elementsPointTo (o : ObjectId) : IdSet .object :=
  r.objectsWhere fun
    | .elements base => r.entities.baseObject base == o
    | _ => false

def mayAlias (v w : VarId) : Bool := IdSet.meets (r.pointsTo v) (r.pointsTo w)

/-- The methods with a body that are never reached, in order. -/
def unreachableMethods : List MethodId :=
  r.program.methodIds.filter fun x =>
    !(r.program.method x).isAbstract && !r.callGraph.contains x

def objectText (o : ObjectId) : String := (r.entities.object o).text r.program.toModel

def objectTexts (objects : IdSet .object) : List String := objects.toList.map r.objectText

/-- The objects between braces, each as its text. -/
def setText (objects : IdSet .object) : String :=
  "\x7b" ++ ", ".intercalate (r.objectTexts objects) ++ "\x7d"

def contextText (c : ContextId) : String := (r.entities.context c).text

def qobjectText (o : QObjectId) : String :=
  r.contextText (r.entities.qobject o).context ++ " " ++ r.objectText (r.entities.qobject o).item

def qmethodText (x : QMethodId) : String :=
  r.contextText (r.entities.qmethod x).context ++ " " ++
    r.program.methodSignature (r.entities.qmethod x).item

def qcallText (c : QCallId) : String :=
  r.contextText (r.entities.qcall c).context ++ " " ++
    r.program.callSignature (r.entities.qcall c).item

def cellText (c : CellId) : String :=
  match r.entities.cell c with
  | .var context v => r.contextText context ++ " " ++ r.program.varSignature v
  | .field base f => r.qobjectText base ++ "." ++ (r.program.field f).name
  | .static f => r.program.fieldSignature f
  | .elements base => r.qobjectText base ++ "[*]"

/-- One line for each variable that holds an object, in order. -/
def lines : List String :=
  r.varObjects.toList.filterMap fun (v, objects) =>
    if objects.isEmpty then none
    else some (r.program.varSignature v ++ " -> " ++ r.setText objects)

end Result

namespace Analysis

def result (a : Analysis) (order : WorkOrder) (limit : Option Nat) : Except AnalysisError Result :=
  (a.solve order limit).map (Result.ofState a.program)

end Analysis

end PointsTo
