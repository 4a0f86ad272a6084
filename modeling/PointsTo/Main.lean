import PointsTo.CommandLine.Run

/-! The command. It exits with 0 after a run without failure, with 1 after a failure and with 2 when the
command line is refused. The log goes to the standard error stream: failures and warnings unless it is
to be quiet, and one more level for each time `-v` is given. -/

namespace PointsTo.CommandLine

def RunError.message : RunError → String
  | load (.text fault) => s!"Could not parse program description: {fault.category}"
  | load (.program error) => error.message
  | analysis error => error.message
  | query error => error.message
  | file => "Could not read or write a file"

def helpLines : List String :=
  ["Points-to analysis of object-oriented programs, sensitive to contexts",
    "",
    "Usage: points-to [OPTIONS] <FILE>",
    "",
    "  -s, --selector <S>              insensitive, call-site, object or type",
    "  -k <K>                          context length",
    "      --heap <HEAP>               allocation-site or type",
    "  -o, --order <ORDER>             fifo or lifo",
    "      --max-iterations <N>        stop after that many work items",
    "      --points-to <VAR>           print the objects of var@Class.method(..)",
    "      --may-alias <VAR> <VAR>     say whether two variables may alias",
    "  -O, --dont-output               leave out the objects of all variables",
    "  -C, --call-graph                print the call graph",
    "      --stats                     print the figures of the run",
    "      --cha                       print the call graph of the class hierarchy alone",
    "      --visualize <PATH>          draw the pointer flow graph",
    "      --visualize-call-graph <PATH>",
    "                                  draw the call graph under contexts",
    "  -q, --quiet                     no log",
    "  -v, --verbose                   more log",
    "  -h, --help                      print this",
    "  -V, --version                   print the version"]

/-- How often `-v` has to be given, and once more, for records of a level to be shown. -/
def verbosityOf : LogLevel → Nat
  | .warn => 1
  | .info => 2
  | .debug => 3
  | .trace => 4

def showLog (o : Options) (records : List LogRecord) : IO Unit := do
  unless o.quiet do
    for r in records do
      if verbosityOf r.level ≤ o.verbose + 1 then
        IO.eprintln r.text

def showFailure (o : Options) (e : RunError) : IO UInt32 := do
  unless o.quiet do
    IO.eprintln e.message
  return 1

def readProgram (path : String) : IO (Except RunError Program) := do
  match ← (IO.FS.readBinFile path).toBaseIO with
  | .error (.inappropriateType ..) => return .error (.load (.text .unreadable))
  | .error _ => return .error .file
  | .ok bytes => return (Program.ofBytes bytes.toList).mapError .load

def writeDrawing (path : String) (lines : List String) : IO Bool := do
  match ← (IO.FS.writeFile path ("\n".intercalate lines ++ "\n")).toBaseIO with
  | .error _ => return false
  | .ok _ => return true

def showReport (o : Options) (r : Report) : IO UInt32 := do
  r.lines.forM IO.println
  match r.failure with
  | some e => showFailure o e
  | none =>
    for (path, lines) in r.files do
      unless ← writeDrawing path lines do
        return ← showFailure o .file
    return 0

def runCommand (o : Options) : IO UInt32 := do
  match ← readProgram o.file with
  | .error e => showFailure o e
  | .ok p =>
    let start ← IO.monoNanosNow
    let outcome ← IO.lazyPure fun _ => analyze o p
    let stop ← IO.monoNanosNow
    let time := secondsText ((stop - start) / 1000) ++ "s"
    showLog o (log o p outcome time)
    showReport o (report o p outcome time)

def showUsage : UsageError → IO UInt32
  | .displayHelp => do
    helpLines.forM IO.println
    return 0
  | .displayVersion => do
    IO.println "points-to 0.1.0"
    return 0
  | e => do
    IO.eprintln e.kind
    return 2

end PointsTo.CommandLine

def main (args : List String) : IO UInt32 := do
  match PointsTo.CommandLine.Options.parse args with
  | .error e => PointsTo.CommandLine.showUsage e
  | .ok o => PointsTo.CommandLine.runCommand o
