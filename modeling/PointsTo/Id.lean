import Std.Data.TreeMap

/-! Identifiers. Everything the analysis speaks of, from the classes of a program to the cells of its
heap, is numbered from zero within its own sort, and an identifier carries that sort in its type.
Values that a list of numbers tells apart are ordered by it, identifiers by their number. -/

namespace PointsTo

/-- Values told apart by a list of numbers. -/
class Coded (α : Type) where
  code : α → List Nat
  code_injective : ∀ {a b : α}, code a = code b → a = b

instance (priority := low) codedOrd {α : Type} [Coded α] : Ord α := ⟨compareOn Coded.code⟩

instance (priority := low) codedTransOrd {α : Type} [Coded α] : Std.TransOrd α :=
  inferInstanceAs (Std.TransCmp (compareOn Coded.code))

instance (priority := low) codedLawfulEqOrd {α : Type} [Coded α] : Std.LawfulEqOrd α where
  eq_of_compare {a b} h := by
    have heq : (Coded.code a : List Nat) = Coded.code b := Std.LawfulEqOrd.eq_of_compare h
    exact Coded.code_injective heq

/-- The sorts of things that are numbered. A `qualified` thing is one seen under a context. -/
inductive Entity where
  | cls
  | field
  | method
  | var
  | site
  | call
  | context
  | object
  | cell
  | qualified (entity : Entity)
  deriving DecidableEq, Repr

/-- The number of a thing among the things of its sort. -/
@[ext] structure Id (entity : Entity) where
  index : Nat
  deriving DecidableEq, Repr, Inhabited

theorem Id.index_injective {entity : Entity} : Function.Injective (Id.index : Id entity → Nat) :=
  fun _ _ => Id.ext

theorem Id.map_mk_eq_some_iff {entity : Entity} {i : Option Nat} {id : Id entity} :
    i.map Id.mk = some id ↔ i = some id.index := by
  cases i <;> simp [Id.ext_iff]

instance idCoded {entity : Entity} : Coded (Id entity) where
  code id := [id.index]
  code_injective {a b} h := by cases a; cases b; simpa using h

abbrev ClassId := Id .cls
abbrev FieldId := Id .field
abbrev MethodId := Id .method
abbrev VarId := Id .var
/-- An allocation site, the statement `x = new T`. -/
abbrev SiteId := Id .site
/-- A call site. -/
abbrev CallId := Id .call
abbrev ContextId := Id .context
abbrev ObjectId := Id .object
/-- A place that holds references: a variable, a field or the elements of an array. -/
abbrev CellId := Id .cell
/-- An object under a heap context. -/
abbrev QObjectId := Id (.qualified .object)
/-- A method under a context. -/
abbrev QMethodId := Id (.qualified .method)
/-- A call site under the context of its method. -/
abbrev QCallId := Id (.qualified .call)

/-- The first `count` identifiers of a sort, in order. -/
def Id.upTo (entity : Entity) (count : Nat) : List (Id entity) := (List.range count).map Id.mk

@[simp] theorem Id.mem_upTo {entity : Entity} {count : Nat} {id : Id entity} :
    id ∈ Id.upTo entity count ↔ id.index < count := by
  cases id; simp [Id.upTo]

theorem Id.length_upTo (entity : Entity) (count : Nat) : (Id.upTo entity count).length = count := by
  rw [Id.upTo, List.length_map, List.length_range]

end PointsTo
