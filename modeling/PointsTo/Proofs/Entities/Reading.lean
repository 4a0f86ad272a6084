import PointsTo.Proofs.Entities.Scope
import PointsTo.WorkList

/-! The structural reading of identifiers. An identifier is read as what it stands for, contexts and the
objects in them included, so that what two collections of entities say can be compared. Readings do not
change as a collection grows, and within a scoped collection different identifiers read differently. -/

namespace PointsTo

/-- A thing under a context whose objects are spoken of by what they are. -/
@[ext] structure Located (α : Type) where
  context : ContextOf HeapObject
  item : α

/-- A cell read structurally. -/
abbrev Place := CellOf (ContextOf HeapObject) (Located HeapObject)

/-- A call edge read structurally. -/
abbrev LocatedEdge := CallEdge (Located CallId) (Located MethodId)

namespace Entities

section Reading

variable (t : Entities)

def contextOf (c : Context) : ContextOf HeapObject := c.map t.object

def contextAt (c : ContextId) : ContextOf HeapObject := t.contextOf (t.context c)

def qobjectOf (o : Qualified .object) : Located HeapObject := ⟨t.contextAt o.context, t.object o.item⟩

def qobjectAt (o : QObjectId) : Located HeapObject := t.qobjectOf (t.qobject o)

def qmethodOf (x : Qualified .method) : Located MethodId := ⟨t.contextAt x.context, x.item⟩

def qmethodAt (x : QMethodId) : Located MethodId := t.qmethodOf (t.qmethod x)

def qcallOf (c : Qualified .call) : Located CallId := ⟨t.contextAt c.context, c.item⟩

def qcallAt (c : QCallId) : Located CallId := t.qcallOf (t.qcall c)

def placeOf (c : Cell) : Place := c.map t.contextAt t.qobjectAt

def cellAt (c : CellId) : Place := t.placeOf (t.cell c)

def edgeAt (e : QCallEdge) : LocatedEdge := ⟨e.kind, t.qcallAt e.site, t.qmethodAt e.callee⟩

end Reading

variable {t u : Entities}

theorem contextAt_contextId {c : Context} (h : c ∈ t.contexts.toList) :
    t.contextAt (t.contextId c) = t.contextOf c := by
  rw [contextAt, context_contextId h]

theorem qobjectAt_qobjectId {o : Qualified .object} (h : o ∈ t.qobjects.toList) :
    t.qobjectAt (t.qobjectId o) = t.qobjectOf o := by
  rw [qobjectAt, qobject_qobjectId h]

theorem qmethodAt_qmethodId {x : Qualified .method} (h : x ∈ t.qmethods.toList) :
    t.qmethodAt (t.qmethodId x) = t.qmethodOf x := by
  rw [qmethodAt, qmethod_qmethodId h]

theorem qcallAt_qcallId {c : Qualified .call} (h : c ∈ t.qcalls.toList) :
    t.qcallAt (t.qcallId c) = t.qcallOf c := by
  rw [qcallAt, qcall_qcallId h]

theorem cellAt_cellId {c : Cell} (h : c ∈ t.cells.toList) : t.cellAt (t.cellId c) = t.placeOf c := by
  rw [cellAt, cell_cellId h]

theorem cellAt_eq_var_iff {c : CellId} {k : ContextOf HeapObject} {v : VarId} :
    t.cellAt c = .var k v ↔ ∃ i, t.cell c = .var i v ∧ t.contextAt i = k := by
  rw [cellAt, placeOf]
  cases t.cell c <;> grind [CellOf.map]

theorem cellAt_eq_field_iff {c : CellId} {o : Located HeapObject} {f : FieldId} :
    t.cellAt c = .field o f ↔ ∃ b, t.cell c = .field b f ∧ t.qobjectAt b = o := by
  rw [cellAt, placeOf]
  cases t.cell c <;> grind [CellOf.map]

theorem cellAt_eq_static_iff {c : CellId} {f : FieldId} :
    t.cellAt c = .static f ↔ t.cell c = .static f := by
  rw [cellAt, placeOf]
  cases t.cell c <;> simp [CellOf.map]

theorem cellAt_eq_elements_iff {c : CellId} {o : Located HeapObject} :
    t.cellAt c = .elements o ↔ ∃ b, t.cell c = .elements b ∧ t.qobjectAt b = o := by
  rw [cellAt, placeOf]
  cases t.cell c <;> simp [CellOf.map]

/-! ### Readings do not change -/

namespace Extends

variable (h : t.Extends u)

include h

theorem contextOf {c : Context} (hc : t.ScopedContext c) : u.contextOf c = t.contextOf c := by
  refine congrArg ContextOf.mk (List.map_congr_left fun e he => ?_)
  cases e with
  | callSite call => rfl
  | object o => exact congrArg ContextElemOf.object (h.object (hc o he))
  | type cls => rfl

variable (ht : t.Scoped)

include ht

theorem contextAt {c : ContextId} (hc : t.IsContext c) : u.contextAt c = t.contextAt c := by
  rw [Entities.contextAt, h.context hc]
  exact h.contextOf (ht.context hc)

theorem qobjectOf {o : Qualified .object} (hc : t.IsContext o.context) (ho : t.IsObject o.item) :
    u.qobjectOf o = t.qobjectOf o := by
  rw [Entities.qobjectOf, h.contextAt ht hc, h.object ho]
  rfl

theorem qobjectAt {o : QObjectId} (ho : t.IsQObject o) : u.qobjectAt o = t.qobjectAt o := by
  rw [Entities.qobjectAt, h.qobject ho]
  exact h.qobjectOf ht (ht.qobject ho).1 (ht.qobject ho).2

theorem qmethodOf {x : Qualified .method} (hx : t.IsContext x.context) :
    u.qmethodOf x = t.qmethodOf x := by
  rw [Entities.qmethodOf, h.contextAt ht hx]
  rfl

theorem qmethodAt {x : QMethodId} (hx : t.IsQMethod x) : u.qmethodAt x = t.qmethodAt x := by
  rw [Entities.qmethodAt, h.qmethod hx]
  exact h.qmethodOf ht (ht.qmethod hx)

theorem qcallOf {c : Qualified .call} (hc : t.IsContext c.context) : u.qcallOf c = t.qcallOf c := by
  rw [Entities.qcallOf, h.contextAt ht hc]
  rfl

theorem qcallAt {c : QCallId} (hc : t.IsQCall c) : u.qcallAt c = t.qcallAt c := by
  rw [Entities.qcallAt, h.qcall hc]
  exact h.qcallOf ht (ht.qcall hc)

theorem placeOf {c : Cell} (hc : t.ScopedCell c) : u.placeOf c = t.placeOf c := by
  cases c with
  | var context v => exact congrArg (CellOf.var · v) (h.contextAt ht hc)
  | field base f => exact congrArg (CellOf.field · f) (h.qobjectAt ht hc)
  | static f => rfl
  | elements base => exact congrArg CellOf.elements (h.qobjectAt ht hc)

theorem cellAt {c : CellId} (hc : t.IsCell c) : u.cellAt c = t.cellAt c := by
  rw [Entities.cellAt, h.cell hc]
  exact h.placeOf ht (ht.cell hc)

theorem edgeAt {e : QCallEdge} (hsite : t.IsQCall e.site) (hcallee : t.IsQMethod e.callee) :
    u.edgeAt e = t.edgeAt e := by
  rw [Entities.edgeAt, h.qcallAt ht hsite, h.qmethodAt ht hcallee]
  rfl

end Extends

/-! ### Reading what has just been numbered -/

section Numbered

variable (h : t.Extends u)

include h

/-- What a larger collection has numbered reads there as it did before. -/
theorem contextAt_of_extends {c : Context} (hc : t.ScopedContext c) (hmem : c ∈ u.contexts.toList) :
    u.contextAt (u.contextId c) = t.contextOf c := by
  rw [contextAt_contextId hmem, h.contextOf hc]

variable (ht : t.Scoped)

include ht

theorem qobjectAt_of_extends {o : Qualified .object} (hc : t.IsContext o.context)
    (ho : t.IsObject o.item) (hmem : o ∈ u.qobjects.toList) :
    u.qobjectAt (u.qobjectId o) = t.qobjectOf o := by
  rw [qobjectAt_qobjectId hmem, h.qobjectOf ht hc ho]

theorem qmethodAt_of_extends {x : Qualified .method} (hx : t.IsContext x.context)
    (hmem : x ∈ u.qmethods.toList) : u.qmethodAt (u.qmethodId x) = t.qmethodOf x := by
  rw [qmethodAt_qmethodId hmem, h.qmethodOf ht hx]

theorem qcallAt_of_extends {c : Qualified .call} (hc : t.IsContext c.context)
    (hmem : c ∈ u.qcalls.toList) : u.qcallAt (u.qcallId c) = t.qcallOf c := by
  rw [qcallAt_qcallId hmem, h.qcallOf ht hc]

theorem cellAt_of_extends {c : Cell} (hc : t.ScopedCell c) (hmem : c ∈ u.cells.toList) :
    u.cellAt (u.cellId c) = t.placeOf c := by
  rw [cellAt_cellId hmem, h.placeOf ht hc]

end Numbered

/-! ### Readings tell identifiers apart -/

theorem object_injective {o p : ObjectId} (ho : t.IsObject o) (hp : t.IsObject p)
    (h : t.object o = t.object p) : o = p := Id.ext (Numbering.getD_injective ho hp h)

theorem map_object_injective : ∀ {as bs : List ContextElem},
    (∀ o, .object o ∈ as → t.IsObject o) → (∀ o, .object o ∈ bs → t.IsObject o) →
    as.map (·.map t.object) = bs.map (·.map t.object) → as = bs
  | [], [], _, _, _ => rfl
  | [], b :: bs, _, _, h => by cases h
  | a :: as, [], _, _, h => by cases h
  | a :: as, b :: bs, ha, hb, h => by
    obtain ⟨hhead, htail⟩ := List.cons.inj h
    have hrest := map_object_injective (fun o ho => ha o (List.mem_cons_of_mem _ ho))
      (fun o ho => hb o (List.mem_cons_of_mem _ ho)) htail
    have heq : a = b := by
      cases a <;> cases b <;> simp only [ContextElemOf.map] at hhead <;> try cases hhead
      · rfl
      · rename_i o p
        have hinj := object_injective (ha o List.mem_cons_self) (hb p List.mem_cons_self)
          (ContextElemOf.object.inj hhead)
        rw [hinj]
      · rfl
    rw [heq, hrest]

theorem contextOf_injective {c d : Context} (hc : t.ScopedContext c) (hd : t.ScopedContext d)
    (h : t.contextOf c = t.contextOf d) : c = d :=
  congrArg ContextOf.mk (map_object_injective hc hd (congrArg ContextOf.elems h))

namespace Scoped

variable (ht : t.Scoped)

include ht

theorem contextAt_injective {c d : ContextId} (hc : t.IsContext c) (hd : t.IsContext d)
    (h : t.contextAt c = t.contextAt d) : c = d :=
  Id.ext (Numbering.getD_injective (d := default) hc hd
    (contextOf_injective (ht.context hc) (ht.context hd) h))

theorem qobjectAt_injective {o p : QObjectId} (ho : t.IsQObject o) (hp : t.IsQObject p)
    (h : t.qobjectAt o = t.qobjectAt p) : o = p := by
  obtain ⟨hcontext, hitem⟩ := Located.mk.inj h
  refine Id.ext (Numbering.getD_injective (d := default) ho hp (Qualified.ext ?_ ?_))
  · exact ht.contextAt_injective (ht.qobject ho).1 (ht.qobject hp).1 hcontext
  · exact object_injective (ht.qobject ho).2 (ht.qobject hp).2 hitem

theorem qmethodAt_injective {x y : QMethodId} (hx : t.IsQMethod x) (hy : t.IsQMethod y)
    (h : t.qmethodAt x = t.qmethodAt y) : x = y := by
  obtain ⟨hcontext, hitem⟩ := Located.mk.inj h
  refine Id.ext (Numbering.getD_injective (d := default) hx hy (Qualified.ext ?_ hitem))
  exact ht.contextAt_injective (ht.qmethod hx) (ht.qmethod hy) hcontext

theorem qcallAt_injective {c d : QCallId} (hc : t.IsQCall c) (hd : t.IsQCall d)
    (h : t.qcallAt c = t.qcallAt d) : c = d := by
  obtain ⟨hcontext, hitem⟩ := Located.mk.inj h
  refine Id.ext (Numbering.getD_injective (d := default) hc hd (Qualified.ext ?_ hitem))
  exact ht.contextAt_injective (ht.qcall hc) (ht.qcall hd) hcontext

theorem placeOf_injective {c d : Cell} (hc : t.ScopedCell c) (hd : t.ScopedCell d)
    (h : t.placeOf c = t.placeOf d) : c = d := by
  cases c <;> cases d <;> simp only [placeOf, CellOf.map] at h <;> try cases h
  · obtain ⟨hcontext, rfl⟩ := CellOf.var.inj h
    rw [ht.contextAt_injective hc hd hcontext]
  · obtain ⟨hbase, rfl⟩ := CellOf.field.inj h
    rw [ht.qobjectAt_injective hc hd hbase]
  · rfl
  · rw [ht.qobjectAt_injective hc hd (CellOf.elements.inj h)]

theorem cellAt_injective {c d : CellId} (hc : t.IsCell c) (hd : t.IsCell d)
    (h : t.cellAt c = t.cellAt d) : c = d :=
  Id.ext (Numbering.getD_injective (d := default) hc hd
    (ht.placeOf_injective (ht.cell hc) (ht.cell hd) h))

end Scoped

end Entities

end PointsTo
