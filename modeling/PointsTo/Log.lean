import PointsTo.Solver.Statistics

/-! The log. What building a program and running an analysis report on the way is data first and text
when it is asked for. -/

namespace PointsTo

inductive LogLevel where
  | warn
  | info
  | debug
  | trace
  deriving DecidableEq, Repr

def LogLevel.text : LogLevel → String
  | warn => "WARN"
  | info => "INFO"
  | debug => "DEBUG"
  | trace => "TRACE"

structure LogRecord where
  level : LogLevel
  message : String
  deriving DecidableEq, Repr

def LogRecord.text (r : LogRecord) : String := r.level.text ++ " " ++ r.message

def Program.builtRecord (p : Program) : LogRecord :=
  ⟨.debug, s!"Built program with {p.classes.size} classes, {p.methods.size} methods and {p.vars.size} variables"⟩

namespace State

def contextText (s : State) (c : ContextId) : String := (s.entities.context c).text

def eventRecord (p : Program) (s : State) : Event → LogRecord
  | .reached x =>
    let method := s.entities.qmethod x
    ⟨.trace, "Reachable: " ++ p.methodSignature method.item ++ " under " ++ s.contextText method.context⟩
  | .staticCallWithoutTarget call =>
    ⟨.debug, "Static call " ++ p.callSignature call ++ " has no target"⟩
  | .callWithoutTarget call receiver =>
    ⟨.trace, "No target for " ++ p.callSignature call ++ " on " ++
      (s.entities.object receiver).text p.toModel⟩
  | .called edge =>
    let site := s.entities.qcall edge.site
    let callee := s.entities.qmethod edge.callee
    ⟨.debug, "Call edge (" ++ edge.kind.text ++ ") " ++ s.contextText site.context ++ " " ++
      p.callSignature site.item ++ " -> " ++ s.contextText callee.context ++ " " ++
      p.methodSignature callee.item⟩

end State

namespace Analysis

variable (a : Analysis)

def startRecord : LogRecord :=
  ⟨.info, "Solving points-to sets from " ++ a.program.methodSignature a.program.entry ++ " with " ++
    a.selector.logText⟩

/-- The log of a run, given the state it stopped in and the text for the time it took. -/
def log (limit : Option Nat) (s : State) (time : String) : List LogRecord :=
  let stop : LogRecord :=
    if s.work.isEmpty then
      ⟨.info, "Reached fixpoint\n" ++ "\n".intercalate (s.statistics.lines time)⟩
    else
      ⟨.warn, (AnalysisError.iterationLimitExceeded (limit.getD itemRange)).message⟩
  a.startRecord :: (s.events.toList.map (s.eventRecord a.program) ++ [stop])

end Analysis

end PointsTo
