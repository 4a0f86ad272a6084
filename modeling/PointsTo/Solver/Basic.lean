import PointsTo.Solver.State

/-! The points-to solver. Two kinds of work item drive a run. Objects that arrive at a cell flow on
along its edges; at a variable they are also met by every statement that uses the variable as base or
receiver, which adds flow edges and requests calls. A call edge makes its callee reachable, and so its
body read, and connects arguments with parameters and returned variables with the result. -/

namespace PointsTo

/-- What is analysed, and how contexts and objects are told apart. -/
structure Analysis where
  program : Program
  selector : Selector
  heap : HeapModel

section Flows

variable {C O : Type}

/-- The flow between a field or array cell of an object and the variables on the other side, for every
access to the object under a context. -/
def Uses.flows (u : Uses) (context : C) (o : O) : List (CellOf C O × CellOf C O) :=
  u.storeFields.toList.map (fun (field, rhs) => (.var context rhs, .field o field)) ++
  u.loadFields.toList.map (fun (lhs, field) => (.field o field, .var context lhs)) ++
  u.storeArrays.toList.map (fun rhs => (.var context rhs, .elements o)) ++
  u.loadArrays.toList.map (fun lhs => (.elements o, .var context lhs))

/-- The flow of arguments into parameters, position by position. -/
def argumentFlows (call : Call) (caller : C) (x : Method) (callee : C) :
    List (CellOf C O × CellOf C O) :=
  (call.args.zip x.params.toList).map fun (arg, param) => (.var caller arg, .var callee param)

/-- The flow of returned variables into the result. -/
def returnFlows (result : VarId) (caller : C) (x : Method) (callee : C) :
    List (CellOf C O × CellOf C O) :=
  x.returns.toList.map fun var => (.var callee var, .var caller result)

theorem Uses.map_flows {D P : Type} (f : C → D) (g : O → P) (u : Uses) (c : C) (o : O) :
    (u.flows c o).map (Prod.map (CellOf.map f g) (CellOf.map f g)) = u.flows (f c) (g o) := by
  simp [flows, CellOf.map, Function.comp_def]

theorem map_argumentFlows {D P : Type} (f : C → D) (g : O → P) (call : Call) (c d : C) (x : Method) :
    (argumentFlows call c x d).map (Prod.map (CellOf.map f g) (CellOf.map f g)) =
      argumentFlows call (f c) x (f d) := by
  simp [argumentFlows, CellOf.map, Function.comp_def]

theorem map_returnFlows {D P : Type} (f : C → D) (g : O → P) (result : VarId) (c d : C) (x : Method) :
    (returnFlows result c x d).map (Prod.map (CellOf.map f g) (CellOf.map f g)) =
      returnFlows result (f c) x (f d) := by
  simp [returnFlows, CellOf.map, Function.comp_def]

theorem Uses.mem_flows {u : Uses} {c : C} {o : O} {f : CellOf C O × CellOf C O} :
    f ∈ u.flows c o ↔
      (∃ field rhs, (field, rhs) ∈ u.storeFields ∧ (.var c rhs, .field o field) = f) ∨
      (∃ lhs field, (lhs, field) ∈ u.loadFields ∧ (.field o field, .var c lhs) = f) ∨
      (∃ rhs ∈ u.storeArrays, (.var c rhs, .elements o) = f) ∨
      ∃ lhs ∈ u.loadArrays, (.elements o, .var c lhs) = f := by
  simp [flows]

theorem mem_argumentFlows {call : Call} {c d : C} {x : Method} {f : CellOf C O × CellOf C O} :
    f ∈ argumentFlows call c x d ↔
      ∃ arg param, (arg, param) ∈ call.args.zip x.params.toList ∧ (.var c arg, .var d param) = f := by
  simp [argumentFlows]

theorem mem_returnFlows {result : VarId} {c d : C} {x : Method} {f : CellOf C O × CellOf C O} :
    f ∈ returnFlows result c x d ↔ ∃ v ∈ x.returns, (.var d v, .var c result) = f := by
  simp [returnFlows]

end Flows

namespace Analysis

variable (a : Analysis)

/-- The statement `x = new T` under a context. -/
def allocate (context : ContextId) (site : SiteId) (s : State) : State :=
  let object := a.heap.object a.program.toModel site
  let heapContext := a.selector.heapContext (s.entities.context context)
  let s := (s.addContext heapContext).addObject object
  let located : Qualified .object := ⟨s.entities.contextId heapContext, s.entities.objectId object⟩
  let s := s.addQObject located
  s.give (.var context (a.program.site site).lhs) (s.entities.qobjectId located)

def callStatic (context : ContextId) (id : CallId) (s : State) : State :=
  let call := a.program.call id
  match a.program.callee? none call with
  | none => s.record (.staticCallWithoutTarget id)
  | some callee =>
    let target := a.selector.calleeContext (s.entities.context context) id none
    let s := s.addContext target
    s.requestCall call.kind ⟨context, id⟩ ⟨s.entities.contextId target, callee⟩

/-- What a statement does under a context without regard to objects. -/
def read (context : ContextId) (s : State) : Stmt → State
  | .new site => a.allocate context site s
  | .copy lhs rhs => s.connect (.var context rhs) (.var context lhs)
  | .loadStatic lhs field => s.connect (.static field) (.var context lhs)
  | .storeStatic field rhs => s.connect (.var context rhs) (.static field)
  | .invoke call => if (a.program.call call).isStatic then a.callStatic context call s else s
  | _ => s

/-- Makes a method reachable and reads its body, once. -/
def enter (x : QMethodId) (s : State) : State :=
  if s.calls.contains x then s
  else
    let s := { s with calls := s.calls.addReachable x }.record (.reached x)
    let method := s.entities.qmethod x
    (a.program.method method.item).body.foldl (a.read method.context) s

/-- A call on a variable meets a receiver object. -/
def callOn (context : ContextId) (receiver : QObjectId) (s : State) (id : CallId) : State :=
  let call := a.program.call id
  let located := s.entities.qobject receiver
  let object := s.entities.object located.item
  match a.program.callee? (some object.type) call with
  | none => s.record (.callWithoutTarget id located.item)
  | some callee =>
    let r : Receiver := ⟨s.entities.context located.context, located.item, object⟩
    let target := a.selector.calleeContext (s.entities.context context) id (some r)
    let s := s.addContext target
    let inner := s.entities.contextId target
    let s :=
      match (a.program.method callee).this with
      | none => s
      | some this => s.give (.var inner this) receiver
    s.requestCall call.kind ⟨context, id⟩ ⟨inner, callee⟩

/-- The statements that use a variable as base or receiver meet an object. -/
def meet (context : ContextId) (var : VarId) (s : State) (o : QObjectId) : State :=
  let uses := a.program.usesOf var
  uses.calls.foldl (a.callOn context o) (s.connectAll (uses.flows context o))

/-- Objects enter a cell. Only those that are new there go on. -/
def deliver (c : CellId) (objects : IdSet (.qualified .object)) (s : State) : State :=
  let new := objects \ s.entities.pointsTo c
  let s :=
    if new.isEmpty then s
    else
      let s := { s with entities := s.entities.grow c new }
      (s.flow.successors c).foldl (fun s target => s.send target new) s
  match s.entities.cell c with
  | .var context var => new.toList.foldl (a.meet context var) s
  | _ => s

def returnResult (call : Call) (caller : ContextId) (x : Method) (callee : ContextId) (s : State) :
    State :=
  match call.result with
  | none => s
  | some result => (s.addCell (.var caller result)).connectAll (returnFlows result caller x callee)

/-- Adds a call edge with all that follows from it, once. -/
def install (edge : QCallEdge) (s : State) : State :=
  if s.calls.hasEdge edge.site edge.callee then s
  else
    let site := s.entities.qcall edge.site
    let target := s.entities.qmethod edge.callee
    let call := a.program.call site.item
    let caller : Qualified .method := ⟨site.context, call.container⟩
    let s := { s with calls := s.calls.addEdge edge }.record (.called edge)
    let s := s.addQMethod caller
    let s := { s with calls := s.calls.setContainer edge.site (s.entities.qmethodId caller) }
    let s := a.enter edge.callee s
    let x := a.program.method target.item
    let s := s.connectAll (argumentFlows call site.context x target.context)
    returnResult call site.context x target.context s

def process (s : State) : WorkItem → State
  | .objects c objects => a.deliver c objects s
  | .call edge => a.install edge s

/-- Deals with the next work item, if there is one. -/
def step? (s : State) : Option State :=
  match s.work.poll with
  | none => none
  | some (item, work) => some (a.process { s with work, processed := s.processed + 1 } item)

/-- Deals with work items until none is left, at most `fuel` of them. -/
def run : Nat → State → State
  | 0, s => s
  | fuel + 1, s =>
    match a.step? s with
    | none => s
    | some s => run fuel s

/-- The entry method is reachable under the empty context. -/
def start (order : WorkOrder) : State :=
  let s := (State.empty order).addContext .empty
  let entry : Qualified .method := ⟨s.entities.contextId .empty, a.program.entry⟩
  let s := s.addQMethod entry
  let id := s.entities.qmethodId entry
  a.enter id { s with calls := s.calls.addEntry id }

end Analysis

inductive AnalysisError where
  | iterationLimitExceeded (limit : Nat)
  deriving DecidableEq, Repr

def AnalysisError.message : AnalysisError → String
  | iterationLimitExceeded limit => s!"Analysis did not reach a fixpoint within {limit} iterations"

/-- Work items are counted in 64 bits, and a run without a limit of its own may use that range. -/
def itemRange : Nat := 1 <<< 64

/-- The state itself if no work is left in it. -/
def State.finished (s : State) (limit : Option Nat) : Except AnalysisError State :=
  if s.work.isEmpty then .ok s else .error (.iterationLimitExceeded (limit.getD itemRange))

namespace Analysis

variable (a : Analysis)

/-- The state in which a run stops, for want of work or at its limit. -/
def final (order : WorkOrder) (limit : Option Nat) : State :=
  a.run (limit.getD itemRange) (a.start order)

/-- A run that stops before its work is done has no result. -/
def solve (order : WorkOrder) (limit : Option Nat) : Except AnalysisError State :=
  (a.final order limit).finished limit

end Analysis

end PointsTo
