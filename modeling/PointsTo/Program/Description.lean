import PointsTo.Program.Builder
import PointsTo.Program.Reference

/-! Descriptions of programs by name. Classes, methods and fields are declared under names, and a local
variable is introduced by its first mention in a body. A description becomes a program in five passes:
all classes; their links and fields; their methods; the bodies, which need every superclass linked to
find inherited fields; and the entry method. -/

namespace PointsTo

namespace Description

inductive Stmt where
  | new (lhs cls : String)
  | copy (lhs rhs : String)
  | loadField (lhs base field : String)
  | storeField (base field rhs : String)
  | loadStatic (lhs field : String)
  | storeStatic (field rhs : String)
  | loadArray (lhs base : String)
  | storeArray (base rhs : String)
  | invoke (kind : CallKind) (method : String) (receiver : Option String) (args : List String)
      (result : Option String)
  | ret (var : Option String)
  deriving DecidableEq, Repr

structure Field where
  name : String := ""
  isStatic : Bool := false
  deriving DecidableEq, Repr

structure Method where
  signature : String := ""
  isStatic : Bool := false
  isAbstract : Bool := false
  params : List String := []
  body : List Stmt := []
  deriving DecidableEq, Repr

structure Class where
  name : String := ""
  kind : ClassKind := .plain
  isAbstract : Bool := false
  superclass : Option String := none
  interfaces : List String := []
  fields : List Field := []
  methods : List Method := []
  deriving DecidableEq, Repr

end Description

/-- A program by name; the entry method is written `Class.subsignature`. -/
structure Description where
  entry : String := ""
  classes : List Description.Class := []
  deriving DecidableEq, Repr

namespace Builder

variable (b : Builder)

def findClass (name : String) : Except ProgramError ClassId :=
  match b.classNamed? name with
  | none => .error (.unknownClass name)
  | some c => .ok c

/-- The class and the member that a reference names; the member need not exist. -/
def findMember (text : String) : Except ProgramError (ClassId × String) :=
  match MemberRef.ofText? text with
  | none => .error (.malformedReference text)
  | some ref => (b.findClass ref.owner).map fun c => (c, ref.member)

def findField (text : String) : Except ProgramError FieldId := do
  let (c, name) ← b.findMember text
  match b.resolveField? c name with
  | none => .error (.unknownField text)
  | some f => .ok f

def addStmt (x : MethodId) : Description.Stmt → Except ProgramError Builder
  | .new lhs cls => do
    let c ← b.findClass cls
    let (lhs, b) := b.var x lhs
    return (b.pushNew x lhs c).2
  | .copy lhs rhs => do
    let (lhs, b) := b.var x lhs
    let (rhs, b) := b.var x rhs
    return b.push x (.copy lhs rhs)
  | .loadField lhs base field => do
    let f ← b.findField field
    let (lhs, b) := b.var x lhs
    let (base, b) := b.var x base
    return b.push x (.loadField lhs base f)
  | .storeField base field rhs => do
    let f ← b.findField field
    let (base, b) := b.var x base
    let (rhs, b) := b.var x rhs
    return b.push x (.storeField base f rhs)
  | .loadStatic lhs field => do
    let f ← b.findField field
    let (lhs, b) := b.var x lhs
    return b.push x (.loadStatic lhs f)
  | .storeStatic field rhs => do
    let f ← b.findField field
    let (rhs, b) := b.var x rhs
    return b.push x (.storeStatic f rhs)
  | .loadArray lhs base => do
    let (lhs, b) := b.var x lhs
    let (base, b) := b.var x base
    return b.push x (.loadArray lhs base)
  | .storeArray base rhs => do
    let (base, b) := b.var x base
    let (rhs, b) := b.var x rhs
    return b.push x (.storeArray base rhs)
  | .invoke kind method receiver args result => do
    let (c, s) ← b.findMember method
    let (receiver, b) := b.vars? x receiver
    let (args, b) := b.varList x args
    let (result, b) := b.vars? x result
    let call : Call :=
      { kind, cls := c, subsignature := ⟨s⟩, receiver, args, result, container := x, index := 0 }
    return (b.pushCall x call).2
  | .ret var => do
    let (var, b) := b.vars? x var
    return b.pushReturn x var

def addHeader (c : ClassId) (d : Description.Class) : Except ProgramError Builder := do
  let b := b.setAbstract c (d.isAbstract || d.kind == .interface)
  let b ←
    match d.superclass with
    | none => pure b
    | some name => (b.findClass name).map fun s => b.setSuperclass c (some s)
  let b ← d.interfaces.foldlM (fun b name => (b.findClass name).map fun i => b.addInterface c i) b
  d.fields.foldlM (fun b f => (b.addField c f.name f.isStatic).map (·.2)) b

/-- Declares a method of class `c` and notes its body for later. -/
def addMethodOf (c : ClassId) (state : List (MethodId × List Description.Stmt) × Builder)
    (d : Description.Method) : Except ProgramError (List (MethodId × List Description.Stmt) × Builder) := do
  let (bodies, b) := state
  let (x, b) ← b.addMethod c ⟨d.signature⟩ d.isStatic d.isAbstract d.params
  return ((x, d.body) :: bodies, b)

def setEntryNamed (text : String) : Except ProgramError Builder := do
  let (c, s) ← b.findMember text
  match (b.cls c).declaredMethod? ⟨s⟩ with
  | none => .error (.unknownMethod text)
  | some x => .ok (b.setEntry x)

end Builder

namespace Description

def declareClasses (d : Description) : Except ProgramError Builder :=
  d.classes.foldlM (fun b c => (b.addClass c.name c.kind none).map (·.2)) Builder.empty

/-- The classes of the description with the identifiers they get. -/
def numberedClasses (d : Description) : List (ClassId × Class) :=
  d.classes.zipIdx.map fun (c, i) => (⟨i⟩, c)

def toBuilder (d : Description) : Except ProgramError Builder := do
  let b ← d.declareClasses
  let b ← d.numberedClasses.foldlM (fun b (c, desc) => b.addHeader c desc) b
  let (bodies, b) ← d.numberedClasses.foldlM
    (fun state (c, desc) => desc.methods.foldlM (Builder.addMethodOf c) state) ([], b)
  let b ← bodies.reverse.foldlM (fun b (x, body) => body.foldlM (fun b s => b.addStmt x s) b) b
  b.setEntryNamed d.entry

def toProgram (d : Description) : Except ProgramError Program := d.toBuilder >>= Builder.build

end Description

end PointsTo
