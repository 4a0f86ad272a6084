import PointsTo.Proofs.Facts

/-! Relabelings. Two programs may number their parts differently. Maps from the identifiers of the one to
those of the other carry over statements, heap objects, contexts and facts. The selectors of contexts look
at no identifier, so what they choose is carried over with the rest. -/

namespace PointsTo

@[ext] structure Relabeling where
  cls : ClassId → ClassId
  field : FieldId → FieldId
  method : MethodId → MethodId
  var : VarId → VarId
  site : SiteId → SiteId
  call : CallId → CallId

namespace Relabeling

/-- Everything keeps its number. -/
protected def id : Relabeling := ⟨id, id, id, id, id, id⟩

variable (ρ : Relabeling)

def stmt : Stmt → Stmt
  | .new site => .new (ρ.site site)
  | .copy lhs rhs => .copy (ρ.var lhs) (ρ.var rhs)
  | .loadField lhs base field => .loadField (ρ.var lhs) (ρ.var base) (ρ.field field)
  | .storeField base field rhs => .storeField (ρ.var base) (ρ.field field) (ρ.var rhs)
  | .loadStatic lhs field => .loadStatic (ρ.var lhs) (ρ.field field)
  | .storeStatic field rhs => .storeStatic (ρ.field field) (ρ.var rhs)
  | .loadArray lhs base => .loadArray (ρ.var lhs) (ρ.var base)
  | .storeArray base rhs => .storeArray (ρ.var base) (ρ.var rhs)
  | .invoke call => .invoke (ρ.call call)
  | .ret v => .ret (v.map ρ.var)

def origin : Origin → Origin
  | .site site => .site (ρ.site site)
  | .merged c => .merged (ρ.cls c)

def object (o : HeapObject) : HeapObject := ⟨ρ.origin o.origin, ρ.cls o.type, o.container.map ρ.cls⟩

/-! ### Contexts -/

section Contexts

variable {O P : Type} (f : O → P)

def elem : ContextElemOf O → ContextElemOf P
  | .callSite i => .callSite (ρ.call i)
  | .object o => .object (f o)
  | .type c => .type (ρ.cls c)

/-- The context in the other program, where `f` says what its objects are there. -/
def contextBy (c : ContextOf O) : ContextOf P := ⟨c.elems.map (ρ.elem f)⟩

def receiver (r : ReceiverOf O) : ReceiverOf P := ⟨ρ.contextBy f r.context, f r.id, ρ.object r.object⟩

theorem contextBy_last (c : ContextOf O) (k : Nat) :
    ρ.contextBy f (c.last k) = (ρ.contextBy f c).last k := by
  simp [contextBy, ContextOf.last, List.map_drop]

theorem contextBy_append (c : ContextOf O) (e : ContextElemOf O) (limit : Nat) :
    ρ.contextBy f (c.append e limit) = (ρ.contextBy f c).append (ρ.elem f e) limit := by
  rw [ContextOf.append, contextBy_last]
  simp [ContextOf.append, contextBy]

theorem contextBy_heapContext (s : Selector) (c : ContextOf O) :
    ρ.contextBy f (s.heapContext c) = s.heapContext (ρ.contextBy f c) := by
  cases s with
  | insensitive => rfl
  | callString k heap => exact ρ.contextBy_last f c heap
  | object k heap => exact ρ.contextBy_last f c heap
  | type k heap => exact ρ.contextBy_last f c heap

theorem contextBy_calleeContext (s : Selector) (c : ContextOf O) (i : CallId)
    (r : Option (ReceiverOf O)) :
    ρ.contextBy f (s.calleeContext c i r) =
      s.calleeContext (ρ.contextBy f c) (ρ.call i) (r.map (ρ.receiver f)) := by
  cases s with
  | insensitive => rfl
  | callString k heap => exact ρ.contextBy_append f c (.callSite i) k
  | object k heap =>
    cases r with
    | none => rfl
    | some r => exact ρ.contextBy_append f r.context (.object r.id) k
  | type k heap =>
    cases r with
    | none => rfl
    | some r =>
      have htype : (r.object.container.map ρ.cls).getD (ρ.cls r.object.type) =
          ρ.cls (r.object.container.getD r.object.type) := Option.getD_map _ _ _
      have happend := ρ.contextBy_append f r.context (.type (r.object.container.getD r.object.type)) k
      rw [elem, ← htype] at happend
      exact happend

end Contexts

/-! ### Facts -/

def context (c : ContextOf HeapObject) : ContextOf HeapObject := ρ.contextBy ρ.object c

theorem context_heapContext (s : Selector) (c : ContextOf HeapObject) :
    ρ.context (s.heapContext c) = s.heapContext (ρ.context c) := ρ.contextBy_heapContext ρ.object s c

theorem context_calleeContext (s : Selector) (c : ContextOf HeapObject) (i : CallId)
    (r : Option (ReceiverOf HeapObject)) :
    ρ.context (s.calleeContext c i r) =
      s.calleeContext (ρ.context c) (ρ.call i) (r.map (ρ.receiver ρ.object)) :=
  ρ.contextBy_calleeContext ρ.object s c i r

/-- A thing under a context, which `f` takes to what it is in the other program. -/
def located {α β : Type} (f : α → β) (x : Located α) : Located β := ⟨ρ.context x.context, f x.item⟩

def qobject (o : Located HeapObject) : Located HeapObject := ρ.located ρ.object o

def place : Place → Place
  | .var c v => .var (ρ.context c) (ρ.var v)
  | .field o f => .field (ρ.qobject o) (ρ.field f)
  | .static f => .static (ρ.field f)
  | .elements o => .elements (ρ.qobject o)

def edge (e : LocatedEdge) : LocatedEdge :=
  ⟨e.kind, ρ.located ρ.call e.site, ρ.located ρ.method e.callee⟩

/-- The facts that are among given ones after relabeling. -/
def preimage (G : Facts) : Facts where
  reach := {x | ρ.located ρ.method x ∈ G.reach}
  calls := {e | ρ.edge e ∈ G.calls}
  flow := {f | (ρ.place f.1, ρ.place f.2) ∈ G.flow}
  pointsTo := {f | (ρ.place f.1, ρ.qobject f.2) ∈ G.pointsTo}

/-- The facts in terms of the other program. -/
def image (F : Facts) : Facts where
  reach := ρ.located ρ.method '' F.reach
  calls := ρ.edge '' F.calls
  flow := (fun f => (ρ.place f.1, ρ.place f.2)) '' F.flow
  pointsTo := (fun f => (ρ.place f.1, ρ.qobject f.2)) '' F.pointsTo

variable {ρ} {F G : Facts}

theorem le_preimage_iff : F ≤ ρ.preimage G ↔ ρ.image F ≤ G := by
  simp only [Facts.le_iff, preimage, image, Set.image_subset_iff]
  exact Iff.rfl

/-! ### Keeping all numbers -/

@[simp] theorem id_cls (c : ClassId) : Relabeling.id.cls c = c := rfl

@[simp] theorem id_field (f : FieldId) : Relabeling.id.field f = f := rfl

@[simp] theorem id_method (x : MethodId) : Relabeling.id.method x = x := rfl

@[simp] theorem id_var (v : VarId) : Relabeling.id.var v = v := rfl

@[simp] theorem id_site (i : SiteId) : Relabeling.id.site i = i := rfl

@[simp] theorem id_call (i : CallId) : Relabeling.id.call i = i := rfl

@[simp] theorem id_origin (o : Origin) : Relabeling.id.origin o = o := by cases o <;> rfl

@[simp] theorem id_object (o : HeapObject) : Relabeling.id.object o = o := by
  obtain ⟨origin, type, container⟩ := o
  have hcontainer : container.map Relabeling.id.cls = container := Option.map_id_apply
  rw [object, id_origin, hcontainer]
  rfl

@[simp] theorem id_context (c : ContextOf HeapObject) : Relabeling.id.context c = c := by
  refine congrArg ContextOf.mk (List.map_id'' (fun e => ?_) c.elems)
  cases e with
  | callSite | type => rfl
  | object o => exact congrArg ContextElemOf.object (id_object o)

@[simp] theorem id_located {α : Type} (x : Located α) : Relabeling.id.located id x = x :=
  Located.ext (id_context x.context) rfl

@[simp] theorem id_qobject (o : Located HeapObject) : Relabeling.id.qobject o = o :=
  Located.ext (id_context o.context) (id_object o.item)

@[simp] theorem id_place (x : Place) : Relabeling.id.place x = x := by
  cases x with
  | var c v => exact congrArg (CellOf.var · v) (id_context c)
  | field o f => exact congrArg (CellOf.field · f) (id_qobject o)
  | static => rfl
  | elements o => exact congrArg CellOf.elements (id_qobject o)

@[simp] theorem id_edge (e : LocatedEdge) : Relabeling.id.edge e = e := by
  obtain ⟨kind, site, callee⟩ := e
  exact congrArg₂ (CallEdge.mk kind) (id_located site) (id_located callee)

@[simp] theorem id_stmt (s : Stmt) : Relabeling.id.stmt s = s := by
  cases s with
  | ret v => exact congrArg Stmt.ret Option.map_id_apply
  | _ => rfl

theorem id_preimage (G : Facts) : Relabeling.id.preimage G = G := by
  obtain ⟨reach, calls, flow, pointsTo⟩ := G
  simp only [preimage, id_edge, id_place, id_qobject]
  refine congrArg (Facts.mk · _ _ _) (Set.ext fun x => ?_)
  show Relabeling.id.located id x ∈ reach ↔ x ∈ reach
  rw [id_located]

end Relabeling

end PointsTo
