import Std.Data.ExtTreeSet
import PointsTo.Id

/-! Sets of identifiers of one sort. A set is determined by its members, and its listing ascends. -/

namespace PointsTo

structure IdSet (entity : Entity) where
  tree : Std.ExtTreeSet (Id entity)

namespace IdSet

variable {entity : Entity}

instance : DecidableEq (IdSet entity) := fun s t =>
  decidable_of_iff (s.tree = t.tree) ⟨fun h => by cases s; cases t; exact congrArg mk h, congrArg tree⟩

instance : EmptyCollection (IdSet entity) := ⟨⟨∅⟩⟩

instance : Inhabited (IdSet entity) := ⟨∅⟩

instance : Membership (Id entity) (IdSet entity) := ⟨fun s id => id ∈ s.tree⟩

instance : Union (IdSet entity) := ⟨fun s t => ⟨s.tree ∪ t.tree⟩⟩

instance : SDiff (IdSet entity) := ⟨fun s t => ⟨s.tree \ t.tree⟩⟩

def insert (s : IdSet entity) (id : Id entity) : IdSet entity := ⟨s.tree.insert id⟩

def singleton (id : Id entity) : IdSet entity := insert ∅ id

def ofList (ids : List (Id entity)) : IdSet entity := ids.foldl insert ∅

def contains (s : IdSet entity) (id : Id entity) : Bool := s.tree.contains id

def isEmpty (s : IdSet entity) : Bool := s.tree.isEmpty

def size (s : IdSet entity) : Nat := s.tree.size

/-- The members in ascending order. -/
def toList (s : IdSet entity) : List (Id entity) := s.tree.toList

/-- Whether every member of the first set is in the second. -/
def subset (s t : IdSet entity) : Bool := s.toList.all t.contains

/-- Whether the two sets have a member in common. -/
def meets (s t : IdSet entity) : Bool := s.toList.any t.contains

/-- The members between braces. -/
def text (s : IdSet entity) : String :=
  "\x7b" ++ ", ".intercalate (s.toList.map fun id => toString id.index) ++ "\x7d"

variable {s t : IdSet entity} {a b : Id entity}

@[ext] theorem ext (h : ∀ id, id ∈ s ↔ id ∈ t) : s = t := by
  cases s; cases t
  exact congrArg mk (Std.ExtTreeSet.ext_mem h)

@[simp] theorem not_mem_empty : a ∉ (∅ : IdSet entity) := Std.ExtTreeSet.not_mem_empty

@[simp] theorem mem_union : a ∈ s ∪ t ↔ a ∈ s ∨ a ∈ t := Std.ExtTreeSet.mem_union_iff

@[simp] theorem mem_sdiff : a ∈ s \ t ↔ a ∈ s ∧ a ∉ t := Std.ExtTreeSet.mem_diff_iff

@[simp] theorem mem_insert : a ∈ s.insert b ↔ a = b ∨ a ∈ s := by
  show a ∈ s.tree.insert b ↔ a = b ∨ a ∈ s.tree
  rw [Std.ExtTreeSet.mem_insert, Std.LawfulEqOrd.compare_eq_iff_eq, eq_comm]

@[simp] theorem mem_singleton : a ∈ singleton b ↔ a = b := by simp [singleton]

@[simp] theorem mem_toList : a ∈ s.toList ↔ a ∈ s := Std.ExtTreeSet.mem_toList

theorem nodup_toList (s : IdSet entity) : s.toList.Nodup :=
  s.tree.distinct_toList.imp fun hne heq => hne (Std.LawfulEqOrd.compare_eq_iff_eq.2 heq)

theorem size_eq_length (s : IdSet entity) : s.size = s.toList.length :=
  Std.ExtTreeSet.length_toList.symm

@[simp] theorem contains_iff : s.contains a = true ↔ a ∈ s := Std.ExtTreeSet.contains_iff_mem

theorem isEmpty_iff : s.isEmpty = true ↔ s = ∅ := by
  show s.tree.isEmpty = true ↔ s = ∅
  rw [Std.ExtTreeSet.isEmpty_iff]
  exact ⟨fun h => by cases s; exact congrArg mk h, congrArg tree⟩

theorem exists_mem_iff : (∃ id, id ∈ s) ↔ s ≠ ∅ := by
  constructor
  · rintro ⟨id, hid⟩ rfl
    exact not_mem_empty hid
  · intro hne
    refine Classical.byContradiction fun hnone => hne (ext fun id => ?_)
    simpa using fun hid => hnone ⟨id, hid⟩

private theorem mem_foldl_insert (ids : List (Id entity)) :
    ∀ s : IdSet entity, a ∈ ids.foldl insert s ↔ a ∈ s ∨ a ∈ ids := by
  induction ids with
  | nil => intro s; simp
  | cons b ids ih =>
    intro s
    rw [List.foldl_cons, ih, mem_insert, List.mem_cons, or_comm (a := a = b), or_assoc]

@[simp] theorem mem_ofList {ids : List (Id entity)} : a ∈ ofList ids ↔ a ∈ ids := by
  simp [ofList, mem_foldl_insert]

theorem subset_iff : subset s t = true ↔ ∀ id ∈ s, id ∈ t := by simp [subset]

theorem meets_iff : meets s t = true ↔ ∃ id ∈ s, id ∈ t := by simp [meets]

end IdSet

end PointsTo
