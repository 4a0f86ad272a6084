import PointsTo.Program.Validation

/-! Assembling a program step by step. A step that introduces something answers its identifier, and one
that would declare a name twice is refused. Cycles, unresolved calls and argument counts need the whole
program and are looked at when it is finished. -/

namespace PointsTo

/-- A model under construction. -/
structure Builder extends Model where
  entry : Option MethodId := none
  deriving Inhabited

namespace Builder

def empty : Builder := {}

variable (b : Builder)

def addClass (name : String) (kind : ClassKind) (superclass : Option ClassId) :
    Except ProgramError (ClassId × Builder) :=
  if (b.classNamed? name).isSome then .error (.duplicateClass name)
  else
    let c : Class :=
      { name, kind, isAbstract := kind == .interface, superclass, interfaces := #[],
        methods := #[], fields := #[] }
    .ok (⟨b.classes.size⟩, { b with classes := b.classes.push c })

def modifyClass (c : ClassId) (change : Class → Class) : Builder :=
  { b with classes := b.classes.modify c.index change }

def setSuperclass (c : ClassId) (superclass : Option ClassId) : Builder :=
  b.modifyClass c fun x => { x with superclass }

def addInterface (c interface : ClassId) : Builder :=
  b.modifyClass c fun x => { x with interfaces := x.interfaces.push interface }

def setAbstract (c : ClassId) (isAbstract : Bool) : Builder :=
  b.modifyClass c fun x => { x with isAbstract }

def addField (c : ClassId) (name : String) (isStatic : Bool) :
    Except ProgramError (FieldId × Builder) :=
  if ((b.cls c).declaredField? name).isSome then
    .error (.duplicateField (b.className c ++ "." ++ name))
  else
    let id : FieldId := ⟨b.fields.size⟩
    let b := b.modifyClass c fun x => { x with fields := x.fields.push (name, id) }
    .ok (id, { b with fields := b.fields.push { name, owner := c, isStatic } })

def modifyMethod (x : MethodId) (change : Method → Method) : Builder :=
  { b with methods := b.methods.modify x.index change }

/-- The local variable of that name, introduced by its first mention. -/
def var (x : MethodId) (name : String) : VarId × Builder :=
  match (b.method x).local? name with
  | some v => (v, b)
  | none =>
    let v : VarId := ⟨b.vars.size⟩
    let b := b.modifyMethod x fun y => { y with locals := y.locals.push (name, v) }
    (v, { b with vars := b.vars.push { name, method := x } })

def vars? (x : MethodId) (name : Option String) : Option VarId × Builder :=
  match name with
  | none => (none, b)
  | some name => let (v, b) := b.var x name; (some v, b)

def varList (x : MethodId) : List String → Builder → List VarId × Builder
  | [], b => ([], b)
  | name :: names, b =>
    let (v, b) := b.var x name
    let (vs, b) := varList x names b
    (v :: vs, b)

def addThis (x : MethodId) : Builder :=
  let (v, b) := b.var x "this"
  b.modifyMethod x fun y => { y with this := some v }

def addParam (x : MethodId) (name : String) : Builder :=
  let (v, b) := b.var x name
  b.modifyMethod x fun y => { y with params := y.params.push v }

/-- Declares a method. An instance method gets its receiver variable `this`, then come the parameters;
parameters of one name are one variable. -/
def addMethod (c : ClassId) (s : Subsignature) (isStatic isAbstract : Bool)
    (params : List String) : Except ProgramError (MethodId × Builder) :=
  if ((b.cls c).declaredMethod? s).isSome then
    .error (.duplicateMethod (b.className c ++ "." ++ s.text))
  else
    let id : MethodId := ⟨b.methods.size⟩
    let b := b.modifyClass c fun x => { x with methods := x.methods.push (s, id) }
    let x : Method :=
      { subsignature := s, owner := c, isStatic, isAbstract, this := none, params := #[],
        returns := #[], body := #[], locals := #[] }
    let b : Builder := { b with methods := b.methods.push x }
    let b := if isStatic then b else b.addThis id
    .ok (id, params.foldl (fun b name => b.addParam id name) b)

def push (x : MethodId) (s : Stmt) : Builder :=
  b.modifyMethod x fun y => { y with body := y.body.push s }

def pushNew (x : MethodId) (lhs : VarId) (c : ClassId) : SiteId × Builder :=
  let id : SiteId := ⟨b.sites.size⟩
  let site : Site := { lhs, cls := c, container := x, index := (b.method x).body.size }
  (id, { b with sites := b.sites.push site }.push x (.new id))

/-- Adds a call site; `call` says all but the place it gets. -/
def pushCall (x : MethodId) (call : Call) : CallId × Builder :=
  let id : CallId := ⟨b.calls.size⟩
  let call := { call with container := x, index := (b.method x).body.size }
  (id, { b with calls := b.calls.push call }.push x (.invoke id))

/-- Adds a return statement; the variable joins the returned ones unless it is among them. -/
def pushReturn (x : MethodId) (var : Option VarId) : Builder :=
  let b :=
    match var with
    | none => b
    | some v =>
      b.modifyMethod x fun y =>
        if y.returns.contains v then y else { y with returns := y.returns.push v }
  b.push x (.ret var)

def setEntry (x : MethodId) : Builder := { b with entry := some x }

/-- Finishes the program: links the hierarchy, indexes the uses of variables, and refuses the first
fault. -/
def build : Except ProgramError Program :=
  match b.entry with
  | none => .error .missingEntry
  | some entry =>
    match b.endlessClass? with
    | some c => .error (.hierarchyCycle (b.className c))
    | none =>
      let p := Program.ofModel b.toModel entry
      match p.fault? with
      | some e => .error e
      | none => .ok p

end Builder

end PointsTo
