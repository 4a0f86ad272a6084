import PointsTo.IdSet
import PointsTo.Numbering
import PointsTo.Selector

/-! What a run of the analysis has come across: contexts, objects, objects, methods and call sites under
a context, and cells, each numbered on first mention, and for each cell the objects it holds. -/

namespace PointsTo

/-- A thing under a context. -/
@[ext] structure Qualified (entity : Entity) where
  context : ContextId
  item : Id entity
  deriving DecidableEq, Repr, Inhabited

instance qualifiedCoded {entity : Entity} : Coded (Qualified entity) where
  code q := [q.context.index, q.item.index]
  code_injective {a b} h := by
    obtain ⟨⟨ca⟩, ⟨ia⟩⟩ := a
    obtain ⟨⟨cb⟩, ⟨ib⟩⟩ := b
    simpa using h

/-- A place that holds references. Contexts are spoken of as `C`, objects under a context as `O`. -/
inductive CellOf (C O : Type) where
  | var (context : C) (var : VarId)
  | field (base : O) (field : FieldId)
  | static (field : FieldId)
  /-- The elements of an array, taken together. -/
  | elements (base : O)
  deriving DecidableEq, Repr, Inhabited

def CellOf.map {C O D P : Type} (f : C → D) (g : O → P) : CellOf C O → CellOf D P
  | .var c v => .var (f c) v
  | .field o x => .field (g o) x
  | .static x => .static x
  | .elements o => .elements (g o)

abbrev Cell := CellOf ContextId QObjectId

instance cellCoded : Coded Cell where
  code
    | .var context var => [0, context.index, var.index]
    | .field base field => [1, base.index, field.index]
    | .static field => [2, field.index]
    | .elements base => [3, base.index]
  code_injective {a b} h := by
    cases a <;> cases b <;> simp at h <;> simp [Id.ext_iff, h]

structure Entities where
  contexts : Numbering Context
  objects : Numbering HeapObject
  qobjects : Numbering (Qualified .object)
  qmethods : Numbering (Qualified .method)
  qcalls : Numbering (Qualified .call)
  cells : Numbering Cell
  contents : Array (IdSet (.qualified .object))
  size_contents : contents.size = cells.size

namespace Entities

def empty : Entities := ⟨.empty, .empty, .empty, .empty, .empty, .empty, #[], rfl⟩

instance : Inhabited Entities := ⟨empty⟩

variable (t : Entities)

def contextId (c : Context) : ContextId := ⟨t.contexts.indexOf c⟩

def objectId (o : HeapObject) : ObjectId := ⟨t.objects.indexOf o⟩

def qobjectId (o : Qualified .object) : QObjectId := ⟨t.qobjects.indexOf o⟩

def qmethodId (x : Qualified .method) : QMethodId := ⟨t.qmethods.indexOf x⟩

def qcallId (c : Qualified .call) : QCallId := ⟨t.qcalls.indexOf c⟩

def cellId (c : Cell) : CellId := ⟨t.cells.indexOf c⟩

def addContext (c : Context) : Entities := { t with contexts := t.contexts.insert c }

def addObject (o : HeapObject) : Entities := { t with objects := t.objects.insert o }

def addQObject (o : Qualified .object) : Entities := { t with qobjects := t.qobjects.insert o }

def addQMethod (x : Qualified .method) : Entities := { t with qmethods := t.qmethods.insert x }

def addQCall (c : Qualified .call) : Entities := { t with qcalls := t.qcalls.insert c }

/-- A cell that has the next number is new, and empty. -/
def addCell (c : Cell) : Entities :=
  let cells := t.cells.insert c
  { t with
    cells
    contents := if cells.indexOf c = t.contents.size then t.contents.push ∅ else t.contents
    size_contents := by
      rw [t.size_contents]
      split
      · rename_i hnext
        have hnew := Numbering.indexOf_insert_eq_size_iff.1 hnext
        rw [Array.size_push, t.size_contents]
        exact (Numbering.size_insert_of_not_mem hnew).symm
      · rename_i hnext
        have hold := Classical.not_not.1 (mt Numbering.indexOf_insert_eq_size_iff.2 hnext)
        rw [t.size_contents, show cells = t.cells from Numbering.insert_of_mem hold] }

def context (c : ContextId) : Context := t.contexts.values.getD c.index default

def object (o : ObjectId) : HeapObject := t.objects.values.getD o.index default

def qobject (o : QObjectId) : Qualified .object := t.qobjects.values.getD o.index default

def qmethod (x : QMethodId) : Qualified .method := t.qmethods.values.getD x.index default

def qcall (c : QCallId) : Qualified .call := t.qcalls.values.getD c.index default

def cell (c : CellId) : Cell := t.cells.values.getD c.index default

/-- The objects that a cell holds. -/
def pointsTo (c : CellId) : IdSet (.qualified .object) := t.contents.getD c.index ∅

/-- Adds objects to one cell. -/
def grow (c : CellId) (objects : IdSet (.qualified .object)) : Entities :=
  { t with
    contents := t.contents.modify c.index (· ∪ objects)
    size_contents := by simp [t.size_contents] }

def lookupContext? (c : Context) : Option ContextId := (t.contexts.indexOf? c).map Id.mk

def lookupCell? (c : Cell) : Option CellId := (t.cells.indexOf? c).map Id.mk

/-- All cells with their identifiers. -/
def numberedCells : List (CellId × Cell) :=
  t.cells.toList.zipIdx.map fun (c, i) => (⟨i⟩, c)

def numberedQObjects : List (QObjectId × Qualified .object) :=
  t.qobjects.toList.zipIdx.map fun (o, i) => (⟨i⟩, o)

/-- The object that an object under a context is an instance of. -/
def baseObject (o : QObjectId) : ObjectId := (t.qobject o).item

/-- The objects behind objects under contexts. -/
def forgetContexts (objects : IdSet (.qualified .object)) : IdSet .object :=
  .ofList (objects.toList.map t.baseObject)

end Entities

end PointsTo
