/-! What can be wrong with a program, and how it is told. Classes, members, variables and call sites
are named by their signatures. -/

namespace PointsTo

inductive ProgramError where
  | duplicateClass (name : String)
  | duplicateField (field : String)
  | duplicateMethod (method : String)
  | unknownClass (name : String)
  | unknownField (field : String)
  | unknownMethod (method : String)
  | malformedReference (text : String)
  | hierarchyCycle (cls : String)
  | missingEntry
  | invalidEntry (method : String)
  | missingReceiver (call : String)
  | unexpectedReceiver (call : String)
  | unresolvedCall (call : String)
  | arityMismatch (call callee : String) (expected found : Nat)
  | fieldKindMismatch (field : String)
  | foreignVariable (var method : String)
  deriving DecidableEq, Repr

def ProgramError.message : ProgramError → String
  | duplicateClass name => s!"Class '{name}' is declared more than once"
  | duplicateField field => s!"Field '{field}' is declared more than once"
  | duplicateMethod method => s!"Method '{method}' is declared more than once"
  | unknownClass name => s!"Unknown class '{name}'"
  | unknownField field => s!"Unknown field '{field}'"
  | unknownMethod method => s!"Unknown method '{method}'"
  | malformedReference text => s!"Malformed member reference '{text}', expected 'Class.member'"
  | hierarchyCycle cls => s!"Class '{cls}' is part of a cyclic superclass chain"
  | missingEntry => "No entry method was set"
  | invalidEntry method => s!"Entry method '{method}' must be static and have a body"
  | missingReceiver call => s!"Instance call site {call} has no receiver"
  | unexpectedReceiver call => s!"Static call site {call} has a receiver"
  | unresolvedCall call => s!"Call site {call} cannot be resolved to a method"
  | arityMismatch call callee expected found =>
    s!"Call site {call} passes {found} arguments but {callee} takes {expected}"
  | fieldKindMismatch field => s!"Field '{field}' is accessed with the wrong static-ness"
  | foreignVariable var method => s!"Variable '{var}' is used outside of its method {method}"

end PointsTo
