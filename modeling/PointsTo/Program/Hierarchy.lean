import PointsTo.Closure
import PointsTo.Program.Basic
import PointsTo.Program.Reference

/-! The class hierarchy. Methods and fields are sought along the superclass chain, nearest class
first; a chain is cut off after as many classes as there are, which only a cyclic one outlasts. The
inverse links, from a class to what lies directly below it, are collected once for a program. -/

namespace PointsTo

namespace Model

variable (m : Model)

def ancestorsWithin : Nat → ClassId → List ClassId
  | 0, _ => []
  | fuel + 1, c =>
    c :: match (m.cls c).superclass with
      | none => []
      | some d => ancestorsWithin fuel d

/-- The class and its superclasses, nearest first. -/
def ancestors (c : ClassId) : List ClassId := m.ancestorsWithin m.classes.size c

def concreteMethod? (s : Subsignature) (c : ClassId) : Option MethodId :=
  ((m.cls c).declaredMethod? s).filter fun x => !(m.method x).isAbstract

/-- The method that an object of class `c` runs for `s`. Abstract declarations are passed over. -/
def dispatch? (c : ClassId) (s : Subsignature) : Option MethodId :=
  (m.ancestors c).findSome? (m.concreteMethod? s)

def resolveField? (c : ClassId) (name : String) : Option FieldId :=
  (m.ancestors c).findSome? fun d => (m.cls d).declaredField? name

/-- The callee of a call. The class of the receiver object counts for virtual and interface calls
only. -/
def callee? (receiver : Option ClassId) (c : Call) : Option MethodId :=
  match c.kind with
  | .static => ((m.cls c.cls).declaredMethod? c.subsignature).filter fun x => (m.method x).isStatic
  | .special => m.dispatch? c.cls c.subsignature
  | .virtual | .interface => receiver.bind fun t => m.dispatch? t c.subsignature
  | .dynamic => none

/-- Whether the superclass chain of a class ends within the given number of classes. -/
def endsWithin : Nat → ClassId → Bool
  | 0, _ => false
  | fuel + 1, c =>
    match (m.cls c).superclass with
    | none => true
    | some d => endsWithin fuel d

/-- The first class whose superclass chain never ends. -/
def endlessClass? : Option ClassId :=
  m.classIds.find? fun c => !m.endsWithin m.classes.size c

end Model

/-- The types directly below a class or interface, in class order. -/
structure Subtypes where
  subclasses : Array ClassId := #[]
  implementors : Array ClassId := #[]
  subinterfaces : Array ClassId := #[]
  deriving Inhabited

namespace Subtypes

def all (s : Subtypes) : List ClassId :=
  s.subclasses.toList ++ s.implementors.toList ++ s.subinterfaces.toList

def addSubclass (c : ClassId) (s : Subtypes) : Subtypes :=
  { s with subclasses := s.subclasses.push c }

def addImplementor (c : ClassId) (s : Subtypes) : Subtypes :=
  { s with implementors := s.implementors.push c }

def addSubinterface (c : ClassId) (s : Subtypes) : Subtypes :=
  { s with subinterfaces := s.subinterfaces.push c }

end Subtypes

namespace Model

variable (m : Model)

/-- Enters a class below its superclass and its interfaces. -/
def linkClass (links : Array Subtypes) (c : ClassId) : Array Subtypes :=
  let links :=
    match (m.cls c).superclass with
    | none => links
    | some d => links.modify d.index (Subtypes.addSubclass c)
  let add := if (m.cls c).isInterface then Subtypes.addSubinterface c else Subtypes.addImplementor c
  (m.cls c).interfaces.foldl (fun links d => links.modify d.index add) links

def subtypeLinks : Array Subtypes :=
  m.classIds.foldl m.linkClass (Array.replicate m.classes.size {})

end Model

/-- The statements that use a variable as base or receiver. They are what has to be seen to again
when the variable may hold another object. -/
structure Uses where
  /-- `v.field = rhs` -/
  storeFields : Array (FieldId × VarId) := #[]
  /-- `lhs = v.field` -/
  loadFields : Array (VarId × FieldId) := #[]
  /-- `v[*] = rhs` -/
  storeArrays : Array VarId := #[]
  /-- `lhs = v[*]` -/
  loadArrays : Array VarId := #[]
  /-- `v.m(..)` -/
  calls : Array CallId := #[]
  deriving Inhabited

namespace Model

variable (m : Model)

/-- The variable that a statement uses as base or receiver, and how. -/
def useOf? : Stmt → Option (VarId × (Uses → Uses))
  | .storeField base field rhs =>
    some (base, fun u => { u with storeFields := u.storeFields.push (field, rhs) })
  | .loadField lhs base field =>
    some (base, fun u => { u with loadFields := u.loadFields.push (lhs, field) })
  | .storeArray base rhs => some (base, fun u => { u with storeArrays := u.storeArrays.push rhs })
  | .loadArray lhs base => some (base, fun u => { u with loadArrays := u.loadArrays.push lhs })
  | .invoke call =>
    (m.call call).receiver.map fun v => (v, fun u => { u with calls := u.calls.push call })
  | _ => none

def indexUse (uses : Array Uses) (s : Stmt) : Array Uses :=
  match m.useOf? s with
  | none => uses
  | some (v, add) => uses.modify v.index add

def useIndex : Array Uses :=
  m.methods.foldl (fun uses x => x.body.foldl m.indexUse uses) (Array.replicate m.vars.size {})

end Model

/-- A model with an entry method, its inverse hierarchy links and its index of variable uses. -/
structure Program extends Model where
  entry : MethodId
  subtypes : Array Subtypes
  uses : Array Uses
  deriving Inhabited

namespace Program

def ofModel (m : Model) (entry : MethodId) : Program :=
  { m with entry, subtypes := m.subtypeLinks, uses := m.useIndex }

variable (p : Program)

def directSubtypes (c : ClassId) : Subtypes := p.subtypes.getD c.index {}

def usesOf (v : VarId) : Uses := p.uses.getD v.index {}

/-- The class and everything below it, breadth first: subclasses, then implementors, then
subinterfaces. -/
def subtypesOf (c : ClassId) : List ClassId :=
  closure (fun d => (p.directSubtypes d).all) p.classes.size c

/-- A method declared by the named class itself. -/
def lookupMethod? (cls : String) (s : Subsignature) : Option MethodId :=
  (p.classNamed? cls).bind fun c => (p.cls c).declaredMethod? s

/-- A variable by name in a method given as `Class.subsignature`. -/
def lookupVar? (method name : String) : Option VarId := do
  let ref ← MemberRef.ofText? method
  let x ← p.lookupMethod? ref.owner ⟨ref.member⟩
  (p.method x).local? name

/-- A field given as `Class.field`, sought upwards from that class. -/
def lookupField? (text : String) : Option FieldId := do
  let ref ← MemberRef.ofText? text
  let c ← p.classNamed? ref.owner
  p.resolveField? c ref.member

end Program

end PointsTo
