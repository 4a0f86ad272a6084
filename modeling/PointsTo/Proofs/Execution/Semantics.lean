import Mathlib.Logic.Function.Basic
import Mathlib.Logic.Relation
import PointsTo.Program.Hierarchy

/-! Execution. A frame of a method executes statements of its body in any order, each as often as it
likes. Objects are numbered in the order of allocation and remember their allocation site. A call enters
a new frame. Frames stay, so that whatever a frame may return, now or later, may reach the frame that
entered it. A variable, field or array element that was never assigned holds nothing. -/

namespace PointsTo

/-- An allocated object, by its number. -/
abbrev Ref := Nat

structure Frame where
  method : MethodId
  locals : VarId → Option Ref
  /-- The frame that entered this one, and the call by which it did. -/
  caller : Option (Nat × CallId)

namespace Frame

def assign (f : Frame) (v : VarId) (value : Option Ref) : Frame :=
  { f with locals := Function.update f.locals v value }

/-- Assigns to each parameter what its argument holds in the calling frame. -/
def pass (f caller : Frame) (bindings : List (VarId × VarId)) : Frame :=
  bindings.foldl (fun f b => f.assign b.2 (caller.locals b.1)) f

end Frame

structure World where
  /-- The allocation sites of the objects. -/
  sites : List SiteId
  statics : FieldId → Option Ref
  fields : Ref × FieldId → Option Ref
  elements : Ref × Nat → Option Ref
  frames : List Frame

namespace World

/-- One frame of the entry method. -/
def initial (p : Program) : World where
  sites := []
  statics _ := none
  fields _ := none
  elements _ := none
  frames := [⟨p.entry, fun _ => none, none⟩]

variable (w : World)

def assign (i : Nat) (v : VarId) (value : Option Ref) : World :=
  { w with frames := w.frames.modify i fun f => f.assign v value }

def allocate (s : SiteId) : World := { w with sites := w.sites ++ [s] }

def setStatic (f : FieldId) (value : Option Ref) : World :=
  { w with statics := Function.update w.statics f value }

def setField (r : Ref) (f : FieldId) (value : Option Ref) : World :=
  { w with fields := Function.update w.fields (r, f) value }

def setElement (r : Ref) (n : Nat) (value : Option Ref) : World :=
  { w with elements := Function.update w.elements (r, n) value }

/-- The frame of a method that frame `i` enters by a call, with `this` bound to the receiver and the
parameters to the arguments, position by position. -/
def entered (p : Program) (i : Nat) (f : Frame) (c : CallId) (x : MethodId) (receiver : Option Ref) :
    Frame :=
  let start : Frame := ⟨x, fun _ => none, some (i, c)⟩
  let bound :=
    match (p.method x).this with
    | none => start
    | some this => start.assign this receiver
  bound.pass f ((p.call c).args.zip (p.method x).params.toList)

def push (f : Frame) : World := { w with frames := w.frames ++ [f] }

/-- Frame `i` may execute the statement. -/
structure Executes (p : Program) (i : Nat) (f : Frame) (s : Stmt) : Prop where
  frame : w.frames[i]? = some f
  stmt : s ∈ (p.method f.method).body

/-- The method that a call enters when a frame executes it, and the receiver. Dynamic calls enter
nothing. -/
inductive Invokes (p : Program) (f : Frame) (c : Call) : MethodId → Option Ref → Prop where
  | static {x : MethodId} (hkind : c.kind = .static) (hcallee : p.callee? none c = some x) :
    Invokes p f c x none
  | special {x : MethodId} {v : VarId} {r : Ref} (hkind : c.kind = .special)
      (hreceiver : c.receiver = some v) (hvalue : f.locals v = some r)
      (hcallee : p.callee? none c = some x) : Invokes p f c x (some r)
  | dispatched {x : MethodId} {v : VarId} {r : Ref} {s : SiteId}
      (hkind : c.kind = .virtual ∨ c.kind = .interface) (hreceiver : c.receiver = some v)
      (hvalue : f.locals v = some r) (hsite : w.sites[r]? = some s)
      (hcallee : p.dispatch? (p.site s).cls c.subsignature = some x) : Invokes p f c x (some r)

inductive Step (p : Program) : World → Prop where
  | new {i f s} (h : w.Executes p i f (.new s)) :
    Step p ((w.allocate s).assign i (p.site s).lhs (some w.sites.length))
  | copy {i f lhs rhs} (h : w.Executes p i f (.copy lhs rhs)) : Step p (w.assign i lhs (f.locals rhs))
  | loadStatic {i f lhs field} (h : w.Executes p i f (.loadStatic lhs field)) :
    Step p (w.assign i lhs (w.statics field))
  | storeStatic {i f field rhs} (h : w.Executes p i f (.storeStatic field rhs)) :
    Step p (w.setStatic field (f.locals rhs))
  | loadField {i f lhs base field r} (h : w.Executes p i f (.loadField lhs base field))
      (hbase : f.locals base = some r) : Step p (w.assign i lhs (w.fields (r, field)))
  | storeField {i f base field rhs r} (h : w.Executes p i f (.storeField base field rhs))
      (hbase : f.locals base = some r) : Step p (w.setField r field (f.locals rhs))
  | loadArray {i f lhs base r} (n : Nat) (h : w.Executes p i f (.loadArray lhs base))
      (hbase : f.locals base = some r) : Step p (w.assign i lhs (w.elements (r, n)))
  | storeArray {i f base rhs r} (n : Nat) (h : w.Executes p i f (.storeArray base rhs))
      (hbase : f.locals base = some r) : Step p (w.setElement r n (f.locals rhs))
  | enter {i f c x receiver} (h : w.Executes p i f (.invoke c))
      (hx : w.Invokes p f (p.call c) x receiver) : Step p (w.push (entered p i f c x receiver))
  | ret {i j f c v result} (h : w.Executes p j f (.ret (some v))) (hcaller : f.caller = some (i, c))
      (hresult : (p.call c).result = some result) : Step p (w.assign i result (f.locals v))

/-- The worlds that an execution of the program may come to. -/
def Reachable (p : Program) (w : World) : Prop :=
  Relation.ReflTransGen (fun w w' => Step w p w') (initial p) w

end World

end PointsTo
