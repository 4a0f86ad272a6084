import PointsTo.CommandLine.Options
import PointsTo.HierarchyCalls
import PointsTo.Program.Text
import PointsTo.Views

/-! What a run of the command does: it reads a program, prints the class hierarchy call graph or the
results of an analysis, and draws graphs into files. Printing goes on until something goes wrong. -/

namespace PointsTo.CommandLine

inductive QueryError where
  | malformedVariable (query : String)
  | unknownVariable (query : String)
  deriving DecidableEq, Repr

def QueryError.message : QueryError → String
  | malformedVariable query => s!"Malformed variable '{query}', expected 'var@Class.method()'"
  | unknownVariable query => s!"Unknown variable '{query}'"

inductive RunError where
  | load (error : LoadError)
  | analysis (error : AnalysisError)
  | query (error : QueryError)
  /-- A file cannot be read or written. -/
  | file
  deriving DecidableEq, Repr

/-- A variable written `variable@Class.method(..)`. -/
def findVar (p : Program) (query : String) : Except QueryError VarId :=
  match VarRef.ofText? query with
  | none => .error (.malformedVariable query)
  | some ref =>
    match p.lookupVar? ref.method ref.name with
    | none => .error (.unknownVariable query)
    | some v => .ok v

/-- The order of texts by their bytes, which is that of their characters. -/
def edgeLe (a b : String × String × String) : Bool :=
  a.1 < b.1 || (a.1 == b.1 && (a.2.1 < b.2.1 || (a.2.1 == b.2.1 && a.2.2 ≤ b.2.2)))

/-- The edges by call site, callee and kind. -/
def callGraphLines (p : Program) (g : CallGraph CallId MethodId) : List String :=
  let edges :=
    g.edges.toList.map fun e =>
      (p.callSignature e.site, p.methodSignature e.callee, e.kind.text)
  (edges.mergeSort edgeLe).map fun (site, callee, kind) => site ++ " --" ++ kind ++ "--> " ++ callee

def unreachableLines (r : Result) : List String :=
  r.unreachableMethods.map fun x => "unreachable: " ++ r.program.methodSignature x

def pointsToLine (r : Result) (query : String) : Except QueryError String :=
  (findVar r.program query).map fun v => query ++ " -> " ++ r.setText (r.pointsTo v)

def aliasLine (r : Result) (a b : String) : Except QueryError String := do
  let v ← findVar r.program a
  let w ← findVar r.program b
  return a ++ (if r.mayAlias v w then " may alias " else " does not alias ") ++ b

/-- The texts two by two. -/
def pairs : List String → List (String × String)
  | a :: b :: rest => (a, b) :: pairs rest
  | _ => []

/-- What is printed about a result, in order, up to a query that fails. -/
def reports (o : Options) (r : Result) (time : String) : List (Except QueryError (List String)) :=
  [.ok (if o.dontOutput then [] else r.lines)] ++
  o.pointsTo.map (fun query => (pointsToLine r query).map fun line => [line]) ++
  (pairs o.mayAlias).map (fun (a, b) => (aliasLine r a b).map fun line => [line]) ++
  [.ok (if o.callGraph then callGraphLines r.program r.callGraph ++ unreachableLines r else []),
    .ok (if o.stats then r.state.statistics.lines time else [])]

/-- The lines before the first failure, and that failure. -/
def untilFailure {ε : Type} : List (Except ε (List String)) → List String × Option ε
  | [] => ([], none)
  | .error e :: _ => ([], some e)
  | .ok lines :: rest =>
    let (more, failure) := untilFailure rest
    (lines ++ more, failure)

/-- The graphs to be drawn: the path of the file and its lines. -/
def drawings (o : Options) (r : Result) : List (String × List String) :=
  (o.visualize.toList.map fun path => (path, ((Dot.render? r.flowView).getD []))) ++
    o.visualizeCallGraph.toList.map fun path => (path, ((Dot.render? r.callView).getD []))

/-- What a run prints, what it then writes into files, and why it stops early. -/
structure Report where
  lines : List String := []
  files : List (String × List String) := []
  failure : Option RunError := none

def reportResult (o : Options) (r : Result) (time : String) : Report :=
  match untilFailure (reports o r time) with
  | (lines, some e) => { lines, failure := some (.query e) }
  | (lines, none) => { lines, files := drawings o r }

def Options.analysis (o : Options) (p : Program) : Analysis :=
  ⟨p, o.sensitivity.selector o.k, o.heap⟩

/-- The state in which the analysis stops; there is none when only the class hierarchy is asked for. -/
def analyze (o : Options) (p : Program) : Option State :=
  if o.hierarchy then none else some ((o.analysis p).final o.order o.maxIterations)

/-- What a run shows of a program, given what `analyze` found and the text for the time it took. -/
def report (o : Options) (p : Program) (outcome : Option State) (time : String) : Report :=
  match outcome with
  | none => { lines := callGraphLines p p.hierarchyCallGraph }
  | some s =>
    match s.finished o.maxIterations with
    | .error e => { failure := some (.analysis e) }
    | .ok s => reportResult o (Result.ofState p s) time

def log (o : Options) (p : Program) (outcome : Option State) (time : String) : List LogRecord :=
  p.builtRecord ::
    match outcome with
    | none => p.hierarchyLog p.hierarchyCallGraph
    | some s => (o.analysis p).log o.maxIterations s time

end PointsTo.CommandLine
