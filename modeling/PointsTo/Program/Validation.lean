import PointsTo.Program.Error
import PointsTo.Program.Hierarchy

/-! What a program must satisfy beyond its links: a static entry method with a body, variables used in
their own method, fields accessed with the right static-ness, and calls whose receiver, target and
argument count fit. The first fault counts, methods and statements taken in order. -/

namespace PointsTo

namespace Program

variable (p : Program)

def varFault? (x : MethodId) (v : VarId) : Option ProgramError :=
  if (p.var v).method = x then none
  else some (.foreignVariable (p.varSignature v) (p.methodSignature x))

def varsFault? (x : MethodId) (vs : List VarId) : Option ProgramError :=
  vs.findSome? (p.varFault? x)

def fieldFault? (f : FieldId) (isStatic : Bool) : Option ProgramError :=
  if (p.field f).isStatic = isStatic then none else some (.fieldKindMismatch (p.fieldSignature f))

/-- A static call has no receiver, a special, virtual or interface call has one. -/
def receiverFault? (c : CallId) : Option ProgramError :=
  match (p.call c).kind, (p.call c).receiver with
  | .static, some _ => some (.unexpectedReceiver (p.callSignature c))
  | .special, none | .virtual, none | .interface, none =>
    some (.missingReceiver (p.callSignature c))
  | _, _ => none

def arityFault? (c : CallId) (callee : MethodId) : Option ProgramError :=
  let expected := (p.method callee).params.size
  let found := (p.call c).args.length
  if expected = found then none
  else some (.arityMismatch (p.callSignature c) (p.methodSignature callee) expected found)

/-- What an object of any type below the declared class may run for the call, and what is declared for
it anywhere there, abstract declarations included. -/
def virtualCandidates (c : Call) : List MethodId :=
  let types := p.subtypesOf c.cls
  types.filterMap (fun t => p.dispatch? t c.subsignature) ++
    types.filterMap fun t => (p.cls t).declaredMethod? c.subsignature

/-- A static or special call has one target, which must exist. Whatever a virtual or interface call may
run must take its arguments. -/
def targetFault? (c : CallId) : Option ProgramError :=
  match (p.call c).kind with
  | .static | .special =>
    match p.callee? none (p.call c) with
    | none => some (.unresolvedCall (p.callSignature c))
    | some callee => p.arityFault? c callee
  | .virtual | .interface => (p.virtualCandidates (p.call c)).findSome? (p.arityFault? c)
  | .dynamic => none

def stmtFault? (x : MethodId) : Stmt → Option ProgramError
  | .new site => p.varsFault? x [(p.site site).lhs]
  | .copy lhs rhs => p.varsFault? x [lhs, rhs]
  | .loadField lhs base field => p.varsFault? x [lhs, base] <|> p.fieldFault? field false
  | .storeField base field rhs => p.varsFault? x [base, rhs] <|> p.fieldFault? field false
  | .loadStatic lhs field => p.varsFault? x [lhs] <|> p.fieldFault? field true
  | .storeStatic field rhs => p.varsFault? x [rhs] <|> p.fieldFault? field true
  | .loadArray lhs base => p.varsFault? x [lhs, base]
  | .storeArray base rhs => p.varsFault? x [base, rhs]
  | .invoke call =>
    let c := p.call call
    p.varsFault? x (c.receiver.toList ++ c.args ++ c.result.toList) <|>
      p.receiverFault? call <|> p.targetFault? call
  | .ret var => p.varsFault? x var.toList

def methodFault? (x : MethodId) : Option ProgramError :=
  (p.method x).body.toList.findSome? (p.stmtFault? x)

def entryFault? : Option ProgramError :=
  if (p.method p.entry).isStatic && !(p.method p.entry).isAbstract then none
  else some (.invalidEntry (p.methodSignature p.entry))

def fault? : Option ProgramError := p.entryFault? <|> p.methodIds.findSome? p.methodFault?

end Program

end PointsTo
