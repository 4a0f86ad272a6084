import PointsTo.Solver.Basic

/-! The command line. Options have long names, some one-letter names too; letters may be put together,
and a value may be attached. An option that is given is settled only when the next one begins or the
line ends: then the number of its values is looked at, whether it was given before, and what the values
say. Words that start with a hyphen are never values, and after `--` every word stands for itself. -/

namespace PointsTo.CommandLine

structure Options where
  file : String := ""
  sensitivity : Sensitivity := .insensitive
  k : Nat := 1
  heap : HeapModel := .allocationSite
  order : WorkOrder := .fifo
  maxIterations : Option Nat := none
  pointsTo : List String := []
  mayAlias : List String := []
  dontOutput : Bool := false
  callGraph : Bool := false
  stats : Bool := false
  hierarchy : Bool := false
  visualize : Option String := none
  visualizeCallGraph : Option String := none
  quiet : Bool := false
  verbose : Nat := 0
  deriving DecidableEq, Repr

/-- Why a command line gives no options. Asking for help or the version is among the reasons. -/
inductive UsageError where
  | missingRequiredArgument
  | unknownArgument
  | invalidValue
  | valueValidation
  | argumentConflict
  | wrongNumberOfValues
  | tooManyValues
  | displayHelp
  | displayVersion
  deriving DecidableEq, Repr

def UsageError.kind : UsageError → String
  | missingRequiredArgument => "MissingRequiredArgument"
  | unknownArgument => "UnknownArgument"
  | invalidValue => "InvalidValue"
  | valueValidation => "ValueValidation"
  | argumentConflict => "ArgumentConflict"
  | wrongNumberOfValues => "WrongNumberOfValues"
  | tooManyValues => "TooManyValues"
  | displayHelp => "DisplayHelp"
  | displayVersion => "DisplayVersion"

inductive Opt where
  | selector
  | k
  | heap
  | order
  | maxIterations
  | pointsTo
  | mayAlias
  | dontOutput
  | callGraph
  | stats
  | cha
  | visualize
  | visualizeCallGraph
  | quiet
  | verbose
  | help
  | version
  deriving DecidableEq, Repr

namespace Opt

def ofLong? : String → Option Opt
  | "selector" => some selector
  | "heap" => some heap
  | "order" => some order
  | "max-iterations" => some maxIterations
  | "points-to" => some pointsTo
  | "may-alias" => some mayAlias
  | "dont-output" => some dontOutput
  | "call-graph" => some callGraph
  | "stats" => some stats
  | "cha" => some cha
  | "visualize" => some visualize
  | "visualize-call-graph" => some visualizeCallGraph
  | "quiet" => some quiet
  | "verbose" => some verbose
  | "help" => some help
  | "version" => some version
  | _ => none

def ofShort? : Char → Option Opt
  | 's' => some selector
  | 'k' => some k
  | 'o' => some order
  | 'O' => some dontOutput
  | 'C' => some callGraph
  | 'q' => some quiet
  | 'v' => some verbose
  | 'h' => some help
  | 'V' => some version
  | _ => none

/-- How many values belong to one occurrence. -/
def arity : Opt → Nat
  | mayAlias => 2
  | selector | k | heap | order | maxIterations | pointsTo | visualize | visualizeCallGraph => 1
  | _ => 0

def repeatable : Opt → Bool
  | pointsTo | mayAlias | verbose => true
  | _ => false

end Opt

/-- Decimal digits, a plus sign before them or not, that fit into 64 bits. -/
def number? (text : String) : Option Nat :=
  let digits :=
    match text.toList with
    | '+' :: cs => cs
    | cs => cs
  if digits.isEmpty || !digits.all (fun c => '0' ≤ c && c ≤ '9') then none
  else
    let n := digits.foldl (fun n c => 10 * n + (c.toNat - 48)) 0
    if n < 1 <<< 64 then some n else none

def sensitivity? : String → Option Sensitivity
  | "insensitive" => some .insensitive
  | "call-site" => some .callSite
  | "object" => some .object
  | "type" => some .type
  | _ => none

def heapModel? : String → Option HeapModel
  | "allocation-site" => some .allocationSite
  | "type" => some .type
  | _ => none

def workOrder? : String → Option WorkOrder
  | "fifo" => some .fifo
  | "lifo" => some .lifo
  | _ => none

/-- What has been read of a command line. -/
structure Reading where
  options : Options := {}
  hasFile : Bool := false
  /-- The options settled so far. -/
  given : List Opt := []
  /-- The option that still waits to be settled, with its values. -/
  pending : Option (Opt × List String) := none
  /-- Whether `--` has passed. -/
  plain : Bool := false

namespace Reading

/-- Enters the values of an option, of which there are as many as its arity. -/
def store (o : Options) (opt : Opt) (values : List String) : Except UsageError Options :=
  let value := values.headD ""
  let orElse {α : Type} (x : Option α) (e : UsageError) (f : α → Options) :
      Except UsageError Options :=
    match x with
    | none => .error e
    | some a => .ok (f a)
  match opt with
  | .selector => orElse (sensitivity? value) .invalidValue fun s => { o with sensitivity := s }
  | .k => orElse (number? value) .valueValidation fun n => { o with k := n }
  | .heap => orElse (heapModel? value) .invalidValue fun h => { o with heap := h }
  | .order => orElse (workOrder? value) .invalidValue fun w => { o with order := w }
  | .maxIterations =>
    orElse (number? value) .valueValidation fun n => { o with maxIterations := some n }
  | .pointsTo => .ok { o with pointsTo := o.pointsTo ++ values }
  | .mayAlias => .ok { o with mayAlias := o.mayAlias ++ values }
  | .dontOutput => .ok { o with dontOutput := true }
  | .callGraph => .ok { o with callGraph := true }
  | .stats => .ok { o with stats := true }
  | .cha => .ok { o with hierarchy := true }
  | .visualize => .ok { o with visualize := some value }
  | .visualizeCallGraph => .ok { o with visualizeCallGraph := some value }
  | .quiet => .ok { o with quiet := true }
  | .verbose => .ok { o with verbose := min (o.verbose + 1) 255 }
  | .help => .error .displayHelp
  | .version => .error .displayVersion

/-- Settles one occurrence of an option. -/
def settleOne (r : Reading) (opt : Opt) (values : List String) : Except UsageError Reading :=
  if opt.arity ≠ 0 ∧ values.isEmpty then .error .invalidValue
  else if values.length ≠ opt.arity then .error .wrongNumberOfValues
  else if !opt.repeatable && r.given.contains opt then .error .argumentConflict
  else (store r.options opt values).map fun options => { r with options, given := opt :: r.given }

/-- Settles the option that waits. -/
def settle (r : Reading) : Except UsageError Reading :=
  match r.pending with
  | none => .ok r
  | some (opt, values) => settleOne { r with pending := none } opt values

/-- An option with the value attached to it, or with values to come. -/
def begin (r : Reading) (opt : Opt) (attached : Option String) : Except UsageError Reading := do
  let r ← r.settle
  match attached with
  | some value => r.settleOne opt [value]
  | none =>
    if opt.arity = 0 then r.settleOne opt []
    else return { r with pending := some (opt, []) }

/-- A word after two hyphens; what follows a first `=` is attached. -/
def long (r : Reading) (word : List Char) : Except UsageError Reading :=
  let (name, rest) := word.span (· != '=')
  match Opt.ofLong? (String.ofList name) with
  | none => .error .unknownArgument
  | some opt =>
    match rest with
    | [] => r.begin opt none
    | _ :: value => if opt.arity = 0 then .error .tooManyValues else r.begin opt (some (String.ofList value))

/-- The letters after one hyphen. What stands behind an option that takes values is attached. -/
def short (r : Reading) : List Char → Except UsageError Reading
  | [] => .ok r
  | c :: cs =>
    match Opt.ofShort? c with
    | none => .error .unknownArgument
    | some opt =>
      if opt.arity = 0 then
        match r.begin opt none with
        | .error e => .error e
        | .ok r => short r cs
      else
        match cs with
        | [] => r.begin opt none
        | '=' :: value => r.begin opt (some (String.ofList value))
        | value => r.begin opt (some (String.ofList value))

/-- A word that stands for itself. There is one such word, the file. -/
def plainWord (r : Reading) (word : String) : Except UsageError Reading :=
  if r.hasFile then .error .unknownArgument
  else r.settle.map fun r => { r with options := { r.options with file := word }, hasFile := true }

/-- Whether the option that waits takes another value. -/
def awaiting? (r : Reading) : Option (Opt × List String) :=
  r.pending.filter fun (opt, values) => values.length < opt.arity

def word (r : Reading) (text : String) : Except UsageError Reading :=
  if r.plain then r.plainWord text
  else
    match text.toList with
    | ['-', '-'] => .ok { r with plain := true }
    | '-' :: '-' :: cs => r.long cs
    | '-' :: c :: cs => r.short (c :: cs)
    | _ =>
      match r.awaiting? with
      | some (opt, values) => .ok { r with pending := some (opt, values ++ [text]) }
      | none => r.plainWord text

end Reading

def Options.parse (words : List String) : Except UsageError Options := do
  let r ← words.foldlM Reading.word {}
  let r ← r.settle
  if r.hasFile then return r.options else throw .missingRequiredArgument

end PointsTo.CommandLine
