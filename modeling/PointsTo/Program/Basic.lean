import PointsTo.Id

/-! The model of a program: classes with their fields and methods, method bodies as statement lists,
and the allocation sites and call sites that occur in them. Each sort of thing has its own array, and
things refer to one another by identifier. -/

namespace PointsTo

/-- The key of a method in its class, `name(parameter types)`. A method overrides those of the same
subsignature in its superclasses. -/
structure Subsignature where
  text : String
  deriving DecidableEq, Repr, Inhabited

/-- What stands before the parameter list. -/
def Subsignature.name (s : Subsignature) : String :=
  String.ofList (s.text.toList.takeWhile (· != '('))

inductive ClassKind where
  | plain
  | interface
  deriving DecidableEq, Repr, Inhabited

inductive CallKind where
  | static
  /-- Constructor, private and super calls. -/
  | special
  | virtual
  | interface
  | dynamic
  deriving DecidableEq, Repr, Inhabited

def CallKind.text : CallKind → String
  | .static => "static"
  | .special => "special"
  | .virtual => "virtual"
  | .interface => "interface"
  | .dynamic => "dynamic"

structure Class where
  name : String
  kind : ClassKind
  isAbstract : Bool
  superclass : Option ClassId
  interfaces : Array ClassId
  methods : Array (Subsignature × MethodId)
  fields : Array (String × FieldId)
  deriving Inhabited

namespace Class

def isInterface (c : Class) : Bool := c.kind == .interface

def declaredMethod? (c : Class) (s : Subsignature) : Option MethodId :=
  (c.methods.find? (·.1 == s)).map (·.2)

def declaredField? (c : Class) (name : String) : Option FieldId :=
  (c.fields.find? (·.1 == name)).map (·.2)

end Class

structure Field where
  name : String
  owner : ClassId
  isStatic : Bool
  deriving Inhabited

inductive Stmt where
  /-- `x = new T` -/
  | new (site : SiteId)
  /-- `x = y` -/
  | copy (lhs rhs : VarId)
  /-- `x = y.f` -/
  | loadField (lhs base : VarId) (field : FieldId)
  /-- `x.f = y` -/
  | storeField (base : VarId) (field : FieldId) (rhs : VarId)
  /-- `x = T.f` -/
  | loadStatic (lhs : VarId) (field : FieldId)
  /-- `T.f = y` -/
  | storeStatic (field : FieldId) (rhs : VarId)
  /-- `x = y[*]` -/
  | loadArray (lhs base : VarId)
  /-- `x[*] = y` -/
  | storeArray (base rhs : VarId)
  | invoke (call : CallId)
  | ret (var : Option VarId)
  deriving DecidableEq, Repr

structure Method where
  subsignature : Subsignature
  owner : ClassId
  isStatic : Bool
  isAbstract : Bool
  /-- The receiver parameter of an instance method. -/
  this : Option VarId
  params : Array VarId
  /-- The variables returned somewhere in the body, each once, by first return. -/
  returns : Array VarId
  body : Array Stmt
  locals : Array (String × VarId)
  deriving Inhabited

def Method.local? (m : Method) (name : String) : Option VarId :=
  (m.locals.find? (·.1 == name)).map (·.2)

structure Var where
  name : String
  method : MethodId
  deriving Inhabited

/-- An allocation site. Arrays are objects of a class that stands for the array type. -/
structure Site where
  lhs : VarId
  cls : ClassId
  container : MethodId
  index : Nat
  deriving Inhabited

/-- A call site. -/
structure Call where
  kind : CallKind
  cls : ClassId
  subsignature : Subsignature
  receiver : Option VarId
  args : List VarId
  result : Option VarId
  container : MethodId
  index : Nat
  deriving Inhabited

def Call.isStatic (c : Call) : Bool := c.kind == .static

/-- The declarations and bodies of a program, well-formed or not. -/
structure Model where
  classes : Array Class := #[]
  fields : Array Field := #[]
  methods : Array Method := #[]
  vars : Array Var := #[]
  sites : Array Site := #[]
  calls : Array Call := #[]
  deriving Inhabited

namespace Model

variable (m : Model)

def cls (c : ClassId) : Class := m.classes.getD c.index default

def field (f : FieldId) : Field := m.fields.getD f.index default

def method (x : MethodId) : Method := m.methods.getD x.index default

def var (v : VarId) : Var := m.vars.getD v.index default

def site (s : SiteId) : Site := m.sites.getD s.index default

def call (c : CallId) : Call := m.calls.getD c.index default

def classIds : List ClassId := Id.upTo .cls m.classes.size

def methodIds : List MethodId := Id.upTo .method m.methods.size

def varIds : List VarId := Id.upTo .var m.vars.size

def siteIds : List SiteId := Id.upTo .site m.sites.size

def callIds : List CallId := Id.upTo .call m.calls.size

def classNamed? (name : String) : Option ClassId :=
  (m.classes.findIdx? (·.name == name)).map Id.mk

def className (c : ClassId) : String := (m.cls c).name

/-- `Class.subsignature` -/
def methodSignature (x : MethodId) : String :=
  m.className (m.method x).owner ++ "." ++ (m.method x).subsignature.text

/-- `Class.field`, by the class that declares the field -/
def fieldSignature (f : FieldId) : String :=
  m.className (m.field f).owner ++ "." ++ (m.field f).name

/-- `variable@Class.subsignature` -/
def varSignature (v : VarId) : String :=
  (m.var v).name ++ "@" ++ m.methodSignature (m.var v).method

/-- `Class.subsignature#statement` -/
def callSignature (c : CallId) : String :=
  m.methodSignature (m.call c).container ++ "#" ++ toString (m.call c).index

/-- `new T@Class.subsignature#statement` -/
def siteSignature (s : SiteId) : String :=
  "new " ++ m.className (m.site s).cls ++ "@" ++ m.methodSignature (m.site s).container ++ "#" ++
    toString (m.site s).index

end Model

end PointsTo
