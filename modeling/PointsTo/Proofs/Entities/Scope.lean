import PointsTo.Entities

/-! The scope of identifiers. An identifier is known to a collection of entities if something has its
number there. Collections only grow, what has a number keeps it, and the values in a scoped collection
speak of known things only. -/

namespace PointsTo

namespace Entities

section Known

variable (t : Entities)

def IsContext (c : ContextId) : Prop := c.index < t.contexts.size

def IsObject (o : ObjectId) : Prop := o.index < t.objects.size

def IsQObject (o : QObjectId) : Prop := o.index < t.qobjects.size

def IsQMethod (x : QMethodId) : Prop := x.index < t.qmethods.size

def IsQCall (c : QCallId) : Prop := c.index < t.qcalls.size

def IsCell (c : CellId) : Prop := c.index < t.cells.size

def ScopedContext (c : Context) : Prop := ∀ o, .object o ∈ c.elems → t.IsObject o

def ScopedCell : Cell → Prop
  | .var context _ => t.IsContext context
  | .field base _ => t.IsQObject base
  | .static _ => True
  | .elements base => t.IsQObject base

/-- Everything spoken of is known, by the values that have a number and by the contents of cells. -/
structure Scoped : Prop where
  contexts : ∀ c ∈ t.contexts.toList, t.ScopedContext c
  qobjects : ∀ o ∈ t.qobjects.toList, t.IsContext o.context ∧ t.IsObject o.item
  qmethods : ∀ x ∈ t.qmethods.toList, t.IsContext x.context
  qcalls : ∀ c ∈ t.qcalls.toList, t.IsContext c.context
  cells : ∀ c ∈ t.cells.toList, t.ScopedCell c
  held : ∀ c, ∀ o ∈ t.pointsTo c, t.IsQObject o

end Known

/-- The second collection numbers all that the first does, in the same way. -/
structure Extends (t u : Entities) : Prop where
  contexts : t.contexts.toList <+: u.contexts.toList
  objects : t.objects.toList <+: u.objects.toList
  qobjects : t.qobjects.toList <+: u.qobjects.toList
  qmethods : t.qmethods.toList <+: u.qmethods.toList
  qcalls : t.qcalls.toList <+: u.qcalls.toList
  cells : t.cells.toList <+: u.cells.toList

variable {t u v : Entities}

namespace Extends

theorem refl (t : Entities) : t.Extends t :=
  ⟨List.prefix_refl _, List.prefix_refl _, List.prefix_refl _, List.prefix_refl _,
    List.prefix_refl _, List.prefix_refl _⟩

theorem trans (h : t.Extends u) (h' : u.Extends v) : t.Extends v :=
  ⟨h.contexts.trans h'.contexts, h.objects.trans h'.objects, h.qobjects.trans h'.qobjects,
    h.qmethods.trans h'.qmethods, h.qcalls.trans h'.qcalls, h.cells.trans h'.cells⟩

theorem isContext (h : t.Extends u) {c : ContextId} (hc : t.IsContext c) : u.IsContext c :=
  Nat.lt_of_lt_of_le hc (Numbering.size_le_of_prefix h.contexts)

theorem isObject (h : t.Extends u) {o : ObjectId} (ho : t.IsObject o) : u.IsObject o :=
  Nat.lt_of_lt_of_le ho (Numbering.size_le_of_prefix h.objects)

theorem isQObject (h : t.Extends u) {o : QObjectId} (ho : t.IsQObject o) : u.IsQObject o :=
  Nat.lt_of_lt_of_le ho (Numbering.size_le_of_prefix h.qobjects)

theorem isQMethod (h : t.Extends u) {x : QMethodId} (hx : t.IsQMethod x) : u.IsQMethod x :=
  Nat.lt_of_lt_of_le hx (Numbering.size_le_of_prefix h.qmethods)

theorem isQCall (h : t.Extends u) {c : QCallId} (hc : t.IsQCall c) : u.IsQCall c :=
  Nat.lt_of_lt_of_le hc (Numbering.size_le_of_prefix h.qcalls)

theorem isCell (h : t.Extends u) {c : CellId} (hc : t.IsCell c) : u.IsCell c :=
  Nat.lt_of_lt_of_le hc (Numbering.size_le_of_prefix h.cells)

theorem scopedContext (h : t.Extends u) {c : Context} (hc : t.ScopedContext c) :
    u.ScopedContext c := fun o ho => h.isObject (hc o ho)

theorem scopedCell (h : t.Extends u) {c : Cell} (hc : t.ScopedCell c) : u.ScopedCell c := by
  cases c with
  | var context v => exact h.isContext hc
  | field base f => exact h.isQObject hc
  | static f => trivial
  | elements base => exact h.isQObject hc

theorem context (h : t.Extends u) {c : ContextId} (hc : t.IsContext c) : u.context c = t.context c :=
  Numbering.getD_of_prefix h.contexts hc _

theorem object (h : t.Extends u) {o : ObjectId} (ho : t.IsObject o) : u.object o = t.object o :=
  Numbering.getD_of_prefix h.objects ho _

theorem qobject (h : t.Extends u) {o : QObjectId} (ho : t.IsQObject o) :
    u.qobject o = t.qobject o := Numbering.getD_of_prefix h.qobjects ho _

theorem qmethod (h : t.Extends u) {x : QMethodId} (hx : t.IsQMethod x) :
    u.qmethod x = t.qmethod x := Numbering.getD_of_prefix h.qmethods hx _

theorem qcall (h : t.Extends u) {c : QCallId} (hc : t.IsQCall c) : u.qcall c = t.qcall c :=
  Numbering.getD_of_prefix h.qcalls hc _

theorem cell (h : t.Extends u) {c : CellId} (hc : t.IsCell c) : u.cell c = t.cell c :=
  Numbering.getD_of_prefix h.cells hc _

end Extends

theorem isContext_contextId {c : Context} (h : c ∈ t.contexts.toList) : t.IsContext (t.contextId c) :=
  Numbering.indexOf_lt h

theorem isObject_objectId {o : HeapObject} (h : o ∈ t.objects.toList) : t.IsObject (t.objectId o) :=
  Numbering.indexOf_lt h

theorem isQObject_qobjectId {o : Qualified .object} (h : o ∈ t.qobjects.toList) :
    t.IsQObject (t.qobjectId o) := Numbering.indexOf_lt h

theorem isQMethod_qmethodId {x : Qualified .method} (h : x ∈ t.qmethods.toList) :
    t.IsQMethod (t.qmethodId x) := Numbering.indexOf_lt h

theorem isQCall_qcallId {c : Qualified .call} (h : c ∈ t.qcalls.toList) : t.IsQCall (t.qcallId c) :=
  Numbering.indexOf_lt h

theorem isCell_cellId {c : Cell} (h : c ∈ t.cells.toList) : t.IsCell (t.cellId c) :=
  Numbering.indexOf_lt h

theorem context_contextId {c : Context} (h : c ∈ t.contexts.toList) : t.context (t.contextId c) = c :=
  Numbering.getD_indexOf h _

theorem object_objectId {o : HeapObject} (h : o ∈ t.objects.toList) : t.object (t.objectId o) = o :=
  Numbering.getD_indexOf h _

theorem qobject_qobjectId {o : Qualified .object} (h : o ∈ t.qobjects.toList) :
    t.qobject (t.qobjectId o) = o := Numbering.getD_indexOf h _

theorem qmethod_qmethodId {x : Qualified .method} (h : x ∈ t.qmethods.toList) :
    t.qmethod (t.qmethodId x) = x := Numbering.getD_indexOf h _

theorem qcall_qcallId {c : Qualified .call} (h : c ∈ t.qcalls.toList) : t.qcall (t.qcallId c) = c :=
  Numbering.getD_indexOf h _

theorem cell_cellId {c : Cell} (h : c ∈ t.cells.toList) : t.cell (t.cellId c) = c :=
  Numbering.getD_indexOf h _

theorem lookupContext?_eq_some_iff {c : Context} {k : ContextId} :
    t.lookupContext? c = some k ↔ t.IsContext k ∧ t.context k = c := by
  rw [lookupContext?, Id.map_mk_eq_some_iff]
  exact Numbering.indexOf?_eq_some_iff_getD _

theorem lookupCell?_eq_some_iff {c : Cell} {k : CellId} :
    t.lookupCell? c = some k ↔ t.IsCell k ∧ t.cell k = c := by
  rw [lookupCell?, Id.map_mk_eq_some_iff]
  exact Numbering.indexOf?_eq_some_iff_getD _

namespace Scoped

theorem context (h : t.Scoped) {c : ContextId} (hc : t.IsContext c) :
    t.ScopedContext (t.context c) := h.contexts _ (Numbering.getD_mem hc _)

theorem qobject (h : t.Scoped) {o : QObjectId} (ho : t.IsQObject o) :
    t.IsContext (t.qobject o).context ∧ t.IsObject (t.qobject o).item :=
  h.qobjects _ (Numbering.getD_mem ho _)

theorem qmethod (h : t.Scoped) {x : QMethodId} (hx : t.IsQMethod x) :
    t.IsContext (t.qmethod x).context := h.qmethods _ (Numbering.getD_mem hx _)

theorem qcall (h : t.Scoped) {c : QCallId} (hc : t.IsQCall c) : t.IsContext (t.qcall c).context :=
  h.qcalls _ (Numbering.getD_mem hc _)

theorem cell (h : t.Scoped) {c : CellId} (hc : t.IsCell c) : t.ScopedCell (t.cell c) :=
  h.cells _ (Numbering.getD_mem hc _)

theorem empty : Entities.empty.Scoped where
  contexts c h := by simp [Entities.empty] at h
  qobjects o h := by simp [Entities.empty] at h
  qmethods x h := by simp [Entities.empty] at h
  qcalls c h := by simp [Entities.empty] at h
  cells c h := by simp [Entities.empty] at h
  held c o h := by simp [Entities.empty, pointsTo] at h

end Scoped

/-! ### Adding entities -/

theorem mem_addContext (t : Entities) (c : Context) : c ∈ (t.addContext c).contexts.toList :=
  Numbering.mem_insert_self _ _

theorem mem_addObject (t : Entities) (o : HeapObject) : o ∈ (t.addObject o).objects.toList :=
  Numbering.mem_insert_self _ _

theorem mem_addQObject (t : Entities) (o : Qualified .object) :
    o ∈ (t.addQObject o).qobjects.toList := Numbering.mem_insert_self _ _

theorem mem_addQMethod (t : Entities) (x : Qualified .method) :
    x ∈ (t.addQMethod x).qmethods.toList := Numbering.mem_insert_self _ _

theorem mem_addQCall (t : Entities) (c : Qualified .call) : c ∈ (t.addQCall c).qcalls.toList :=
  Numbering.mem_insert_self _ _

theorem cells_addCell (t : Entities) (c : Cell) : (t.addCell c).cells = t.cells.insert c := rfl

theorem mem_addCell (t : Entities) (c : Cell) : c ∈ (t.addCell c).cells.toList :=
  Numbering.mem_insert_self _ _

theorem extends_addContext (t : Entities) (c : Context) : t.Extends (t.addContext c) :=
  { Extends.refl t with contexts := Numbering.prefix_insert _ _ }

theorem extends_addObject (t : Entities) (o : HeapObject) : t.Extends (t.addObject o) :=
  { Extends.refl t with objects := Numbering.prefix_insert _ _ }

theorem extends_addQObject (t : Entities) (o : Qualified .object) : t.Extends (t.addQObject o) :=
  { Extends.refl t with qobjects := Numbering.prefix_insert _ _ }

theorem extends_addQMethod (t : Entities) (x : Qualified .method) : t.Extends (t.addQMethod x) :=
  { Extends.refl t with qmethods := Numbering.prefix_insert _ _ }

theorem extends_addQCall (t : Entities) (c : Qualified .call) : t.Extends (t.addQCall c) :=
  { Extends.refl t with qcalls := Numbering.prefix_insert _ _ }

theorem extends_addCell (t : Entities) (c : Cell) : t.Extends (t.addCell c) :=
  { Extends.refl t with cells := Numbering.prefix_insert _ _ }

theorem extends_grow (t : Entities) (c : CellId) (objects : IdSet (.qualified .object)) :
    t.Extends (t.grow c objects) := { Extends.refl t with }

@[simp] theorem pointsTo_addCell (t : Entities) (c : Cell) (d : CellId) :
    (t.addCell c).pointsTo d = t.pointsTo d := by
  simp only [pointsTo, addCell, Array.getD_eq_getD_getElem?]
  split
  · rw [Array.getElem?_push]
    by_cases h : d.index = t.contents.size
    · simp [h]
    · simp [h]
  · rfl

/-- There is nothing in a cell without a number. -/
theorem isCell_of_mem_pointsTo {c : CellId} {o : QObjectId} (ho : o ∈ t.pointsTo c) : t.IsCell c := by
  refine Classical.byContradiction fun hnot => ?_
  have hsize : ¬ c.index < t.contents.size := by rwa [t.size_contents]
  rw [pointsTo, Array.getD_eq_getD_getElem?, Array.getElem?_eq_none (Nat.le_of_not_lt hsize)] at ho
  exact IdSet.not_mem_empty ho

theorem grow_empty (t : Entities) (c : CellId) : t.grow c ∅ = t := by
  have hcontents : t.contents.modify c.index (· ∪ ∅) = t.contents := by
    apply Array.ext (by simp)
    intro i _ hi
    rw [Array.getElem_modify]
    split
    · exact IdSet.ext fun o => by simp
    · rfl
  cases t
  simp only [grow]
  congr

/-- Nothing is put into a cell without a number. -/
theorem mem_pointsTo_grow_iff (t : Entities) {c d : CellId} {objects : IdSet (.qualified .object)}
    {o : QObjectId} : o ∈ (t.grow c objects).pointsTo d ↔
      o ∈ t.pointsTo d ∨ t.IsCell c ∧ d = c ∧ o ∈ objects := by
  have hsize : t.IsCell c ↔ c.index < t.contents.size := by rw [t.size_contents]; rfl
  simp only [pointsTo, grow, Array.getD_eq_getD_getElem?, Array.getElem?_modify, hsize]
  by_cases hd : c.index = d.index
  · obtain rfl := Id.ext hd
    by_cases hc : c.index < t.contents.size
    · simp [hc]
    · simp [hc]
  · have hne : d ≠ c := fun heq => hd (heq ▸ rfl)
    simp [hd, hne]

theorem mem_pointsTo_grow (t : Entities) {c : CellId} (h : t.IsCell c)
    {objects : IdSet (.qualified .object)} {d : CellId} {o : QObjectId} :
    o ∈ (t.grow c objects).pointsTo d ↔ o ∈ t.pointsTo d ∨ d = c ∧ o ∈ objects := by
  rw [mem_pointsTo_grow_iff, and_iff_right h]

namespace Scoped

theorem addContext (h : t.Scoped) {c : Context} (hc : t.ScopedContext c) : (t.addContext c).Scoped where
  contexts := Numbering.forall_mem_insert h.contexts hc
  qobjects o ho := ⟨(extends_addContext t c).isContext (h.qobjects o ho).1, (h.qobjects o ho).2⟩
  qmethods x hx := (extends_addContext t c).isContext (h.qmethods x hx)
  qcalls d hd := (extends_addContext t c).isContext (h.qcalls d hd)
  cells d hd := (extends_addContext t c).scopedCell (h.cells d hd)
  held := h.held

theorem addObject (h : t.Scoped) (o : HeapObject) : (t.addObject o).Scoped where
  contexts c hc := (extends_addObject t o).scopedContext (h.contexts c hc)
  qobjects p hp := ⟨(h.qobjects p hp).1, (extends_addObject t o).isObject (h.qobjects p hp).2⟩
  qmethods := h.qmethods
  qcalls := h.qcalls
  cells c hc := (extends_addObject t o).scopedCell (h.cells c hc)
  held := h.held

theorem addQObject (h : t.Scoped) {o : Qualified .object} (hc : t.IsContext o.context)
    (ho : t.IsObject o.item) : (t.addQObject o).Scoped where
  contexts := h.contexts
  qobjects := Numbering.forall_mem_insert h.qobjects ⟨hc, ho⟩
  qmethods := h.qmethods
  qcalls := h.qcalls
  cells c hc := (extends_addQObject t o).scopedCell (h.cells c hc)
  held c p hp := (extends_addQObject t o).isQObject (h.held c p hp)

theorem addQMethod (h : t.Scoped) {x : Qualified .method} (hx : t.IsContext x.context) :
    (t.addQMethod x).Scoped where
  contexts := h.contexts
  qobjects := h.qobjects
  qmethods := Numbering.forall_mem_insert h.qmethods hx
  qcalls := h.qcalls
  cells c hc := (extends_addQMethod t x).scopedCell (h.cells c hc)
  held := h.held

theorem addQCall (h : t.Scoped) {c : Qualified .call} (hc : t.IsContext c.context) :
    (t.addQCall c).Scoped where
  contexts := h.contexts
  qobjects := h.qobjects
  qmethods := h.qmethods
  qcalls := Numbering.forall_mem_insert h.qcalls hc
  cells d hd := (extends_addQCall t c).scopedCell (h.cells d hd)
  held := h.held

theorem addCell (h : t.Scoped) {c : Cell} (hc : t.ScopedCell c) : (t.addCell c).Scoped where
  contexts := h.contexts
  qobjects := h.qobjects
  qmethods := h.qmethods
  qcalls := h.qcalls
  cells d hd := (extends_addCell t c).scopedCell (Numbering.forall_mem_insert h.cells hc d hd)
  held d o ho := by
    rw [pointsTo_addCell] at ho
    exact (extends_addCell t c).isQObject (h.held d o ho)

theorem grow (h : t.Scoped) {c : CellId} (hc : t.IsCell c) {objects : IdSet (.qualified .object)}
    (ho : ∀ o ∈ objects, t.IsQObject o) : (t.grow c objects).Scoped where
  contexts := h.contexts
  qobjects := h.qobjects
  qmethods := h.qmethods
  qcalls := h.qcalls
  cells := h.cells
  held d o hmem := by
    rcases (mem_pointsTo_grow t hc).1 hmem with hmem | ⟨_, hmem⟩
    · exact h.held d o hmem
    · exact ho o hmem

end Scoped

end Entities

end PointsTo
