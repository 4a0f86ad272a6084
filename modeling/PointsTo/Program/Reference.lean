/-! References to members by text. A member is written `Class.member`, and both class names and
parameter lists may hold dots: the dot that counts is the last one before the parameter list, so that
`a.b.C.m(a.b.D)` names the method `m(a.b.D)` of the class `a.b.C`. A local variable is written
`variable@Class.member`. -/

namespace PointsTo

/-- A class name and the name or subsignature of one of its members. -/
structure MemberRef where
  owner : String
  member : String
  deriving DecidableEq, Repr

/-- The text cut at the last dot before the parameter list, without that dot. -/
def cutMember? (text : List Char) : Option (List Char × List Char) :=
  let head := text.takeWhile (· != '(')
  match head.reverse.span (· != '.') with
  | (_, []) => none
  | (name, _ :: owner) => some (owner.reverse, name.reverse ++ text.dropWhile (· != '('))

def MemberRef.ofText? (text : String) : Option MemberRef :=
  match cutMember? text.toList with
  | none => none
  | some (owner, member) =>
    if owner.isEmpty || member.isEmpty then none
    else some ⟨String.ofList owner, String.ofList member⟩

/-- A variable name and the method it is sought in. -/
structure VarRef where
  name : String
  method : String
  deriving DecidableEq, Repr

/-- Cuts at the first `@`. -/
def VarRef.ofText? (text : String) : Option VarRef :=
  match text.toList.span (· != '@') with
  | (_, []) => none
  | (name, _ :: method) => some ⟨String.ofList name, String.ofList method⟩

end PointsTo
