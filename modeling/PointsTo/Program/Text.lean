import PointsTo.Json.Record
import PointsTo.Program.Description

/-! The text form of a program description, a JSON document. -/

namespace PointsTo

namespace Description

open Json

def readClassKind : Scan ClassKind := enumeration [("class", .plain), ("interface", .interface)]

def readCallKind : Scan CallKind :=
  enumeration
    [("static", .static), ("special", .special), ("virtual", .virtual), ("interface", .interface),
      ("dynamic", .dynamic)]

/-- The names that occur in a statement other than a call. -/
structure Operands where
  lhs : String := ""
  rhs : String := ""
  base : String := ""
  field : String := ""
  cls : String := ""

namespace Operands

def readLhs : Json.Field Operands := .needed "lhs" text fun o s => { o with lhs := s }

def readRhs : Json.Field Operands := .needed "rhs" text fun o s => { o with rhs := s }

def readBase : Json.Field Operands := .needed "base" text fun o s => { o with base := s }

def readField : Json.Field Operands := .needed "field" text fun o s => { o with field := s }

def readClass : Json.Field Operands := .needed "class" text fun o s => { o with cls := s }

end Operands

open Operands in
/-- The statements other than calls and returns: name, fields in order and meaning. -/
def plainStmts : List (String × List (Json.Field Operands) × (Operands → Stmt)) :=
  [("new", [readLhs, readClass], fun o => .new o.lhs o.cls),
    ("copy", [readLhs, readRhs], fun o => .copy o.lhs o.rhs),
    ("load_field", [readLhs, readBase, readField], fun o => .loadField o.lhs o.base o.field),
    ("store_field", [readBase, readField, readRhs], fun o => .storeField o.base o.field o.rhs),
    ("load_static", [readLhs, readField], fun o => .loadStatic o.lhs o.field),
    ("store_static", [readField, readRhs], fun o => .storeStatic o.field o.rhs),
    ("load_array", [readLhs, readBase], fun o => .loadArray o.lhs o.base),
    ("store_array", [readBase, readRhs], fun o => .storeArray o.base o.rhs)]

structure CallParts where
  kind : CallKind := .static
  method : String := ""
  receiver : Option String := none
  args : List String := []
  result : Option String := none

def readCallParts : Scan CallParts :=
  record
    [.needed "kind" readCallKind fun c x => { c with kind := x },
      .needed "method" text fun c x => { c with method := x },
      .default "receiver" (optional text) fun c x => { c with receiver := x },
      .default "args" (list text) fun c x => { c with args := x },
      .default "result" (optional text) fun c x => { c with result := x }]
    {}

def readInvoke : Scan Stmt := do
  let c ← readCallParts
  return .invoke c.kind c.method c.receiver c.args c.result

def readReturn : Scan Stmt := do
  let var ← record [.default "var" (optional text) fun _ x => x] none
  return .ret var

def readStmt : Scan Stmt :=
  let plain := plainStmts.map fun (name, fields, make) =>
    (name, none, do return make (← record fields {}))
  variant (plain ++ [("invoke", none, readInvoke), ("return", none, readReturn)])

def readField : Scan Field :=
  record
    [.needed "name" text fun f x => { f with name := x },
      .default "static" flag fun f x => { f with isStatic := x }]
    {}

def readMethod : Scan Method :=
  record
    [.needed "signature" text fun m x => { m with signature := x },
      .default "static" flag fun m x => { m with isStatic := x },
      .default "abstract" flag fun m x => { m with isAbstract := x },
      .default "params" (list text) fun m x => { m with params := x },
      .default "body" (list readStmt) fun m x => { m with body := x }]
    {}

def readClass : Scan Class :=
  record
    [.needed "name" text fun c x => { c with name := x },
      .default "kind" readClassKind fun c x => { c with kind := x },
      .default "abstract" flag fun c x => { c with isAbstract := x },
      .default "superclass" (optional text) fun c x => { c with superclass := x },
      .default "interfaces" (list text) fun c x => { c with interfaces := x },
      .default "fields" (list readField) fun c x => { c with fields := x },
      .default "methods" (list readMethod) fun c x => { c with methods := x }]
    {}

def read : Scan Description :=
  record
    [.needed "entry" text fun d x => { d with entry := x },
      .needed "classes" (list readClass) fun d x => { d with classes := x }]
    {}

def ofBytes (bytes : List UInt8) : Except Fault Description := readAll read bytes

end Description

/-- Why a text gives no program. -/
inductive LoadError where
  | text (fault : Json.Fault)
  | program (error : ProgramError)
  deriving DecidableEq, Repr

namespace Program

def ofBytes (bytes : List UInt8) : Except LoadError Program :=
  match Description.ofBytes bytes with
  | .error fault => .error (.text fault)
  | .ok d =>
    match d.toProgram with
    | .error e => .error (.program e)
    | .ok p => .ok p

end Program

end PointsTo
