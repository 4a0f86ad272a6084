import Mathlib.Order.Bounds.Basic
import PointsTo.Proofs.Entities.Reading
import PointsTo.Solver.Basic

/-! The rules of the analysis. Facts say which methods are reachable, which call edges and flow edges
there are and which objects places hold, all read structurally. The rules say what follows from a
reachable method, from an object at a variable, from a call edge and from a flow edge; closed facts
hold whatever follows from them. -/

namespace PointsTo

structure Facts where
  reach : Set (Located MethodId)
  calls : Set LocatedEdge
  flow : Set (Place × Place)
  pointsTo : Set (Place × Located HeapObject)

namespace Facts

instance : PartialOrder Facts where
  le F G := F.reach ⊆ G.reach ∧ F.calls ⊆ G.calls ∧ F.flow ⊆ G.flow ∧ F.pointsTo ⊆ G.pointsTo
  le_refl F := ⟨fun _ h => h, fun _ h => h, fun _ h => h, fun _ h => h⟩
  le_trans F G H h h' :=
    ⟨h.1.trans h'.1, h.2.1.trans h'.2.1, h.2.2.1.trans h'.2.2.1, h.2.2.2.trans h'.2.2.2⟩
  le_antisymm := by
    rintro ⟨reach, calls, flow, pointsTo⟩ ⟨reach', calls', flow', pointsTo'⟩ h h'
    obtain rfl : reach = reach' := h.1.antisymm h'.1
    obtain rfl : calls = calls' := h.2.1.antisymm h'.2.1
    obtain rfl : flow = flow' := h.2.2.1.antisymm h'.2.2.1
    obtain rfl : pointsTo = pointsTo' := h.2.2.2.antisymm h'.2.2.2
    rfl

theorem le_iff {F G : Facts} :
    F ≤ G ↔ F.reach ⊆ G.reach ∧ F.calls ⊆ G.calls ∧ F.flow ⊆ G.flow ∧ F.pointsTo ⊆ G.pointsTo :=
  Iff.rfl

section Order

variable {F G : Facts} (h : F ≤ G)

include h

theorem flow_subset : F.flow ⊆ G.flow := h.2.2.1

theorem pointsTo_subset : F.pointsTo ⊆ G.pointsTo := h.2.2.2

end Order

/-- The facts that both have. -/
instance : SemilatticeInf Facts where
  inf F G := ⟨F.reach ∩ G.reach, F.calls ∩ G.calls, F.flow ∩ G.flow, F.pointsTo ∩ G.pointsTo⟩
  inf_le_left _ _ := ⟨fun _ h => h.1, fun _ h => h.1, fun _ h => h.1, fun _ h => h.1⟩
  inf_le_right _ _ := ⟨fun _ h => h.2, fun _ h => h.2, fun _ h => h.2, fun _ h => h.2⟩
  le_inf _ _ _ h h' :=
    ⟨fun _ hx => ⟨h.1 hx, h'.1 hx⟩, fun _ hx => ⟨h.2.1 hx, h'.2.1 hx⟩,
      fun _ hx => ⟨h.2.2.1 hx, h'.2.2.1 hx⟩, fun _ hx => ⟨h.2.2.2 hx, h'.2.2.2 hx⟩⟩

/-! ### The entities that facts speak of -/

section Entities

variable (F : Facts)

def contexts : Set (ContextOf HeapObject) :=
  {c | (∃ x ∈ F.reach, x.context = c) ∨ ∃ p o, (p, o) ∈ F.pointsTo ∧ o.context = c}

def qobjects : Set (Located HeapObject) := {o | ∃ p, (p, o) ∈ F.pointsTo}

def objects : Set HeapObject := {o | ∃ q ∈ F.qobjects, q.item = o}

def qcalls : Set (Located CallId) := {c | ∃ e ∈ F.calls, e.site = c}

end Entities

/-- All there are. -/
def all : Facts := ⟨Set.univ, Set.univ, Set.univ, Set.univ⟩

end Facts

namespace Analysis

variable (a : Analysis)

/-- The method that holds a call site, under the context of the call site. -/
def containerOf (c : Located CallId) : Located MethodId :=
  ⟨c.context, (a.program.call c.item).container⟩

/-- The reachable methods and those that hold a call site with an edge. -/
def qmethods (F : Facts) : Set (Located MethodId) :=
  {x | x ∈ F.reach ∨ ∃ e ∈ F.calls, a.containerOf e.site = x}

/-- The places at the ends of flow edges, those that hold an object, and the results of calls. -/
def cells (F : Facts) : Set Place :=
  {p | (∃ q, (p, q) ∈ F.flow ∨ (q, p) ∈ F.flow) ∨ (∃ o, (p, o) ∈ F.pointsTo) ∨
    ∃ e ∈ F.calls, ∃ r ∈ (a.program.call e.site.item).result, .var e.site.context r = p}

/-- What a statement of a reachable method asks for under the method's context. -/
def Reads (F : Facts) (c : ContextOf HeapObject) : Stmt → Prop
  | .new site =>
    (.var c (a.program.site site).lhs,
      ⟨a.selector.heapContext c, a.heap.object a.program.toModel site⟩) ∈ F.pointsTo
  | .copy lhs rhs => (.var c rhs, .var c lhs) ∈ F.flow
  | .loadStatic lhs field => (.static field, .var c lhs) ∈ F.flow
  | .storeStatic field rhs => (.var c rhs, .static field) ∈ F.flow
  | .invoke i =>
    (a.program.call i).isStatic = true → ∀ x, a.program.callee? none (a.program.call i) = some x →
      ⟨(a.program.call i).kind, ⟨c, i⟩, ⟨a.selector.calleeContext c i none, x⟩⟩ ∈ F.calls
  | _ => True

/-- The context of what a call invokes on an object. -/
def contextOn (c : ContextOf HeapObject) (i : CallId) (o : Located HeapObject) :
    ContextOf HeapObject :=
  a.selector.calleeContext c i (some ⟨o.context, o.item, o.item⟩)

/-- What a statement asks for when it finds an object at a variable `v`. -/
def Meets (F : Facts) (c : ContextOf HeapObject) (v : VarId) (o : Located HeapObject) : Stmt → Prop
  | .storeField base field rhs => base = v → (.var c rhs, .field o field) ∈ F.flow
  | .loadField lhs base field => base = v → (.field o field, .var c lhs) ∈ F.flow
  | .storeArray base rhs => base = v → (.var c rhs, .elements o) ∈ F.flow
  | .loadArray lhs base => base = v → (.elements o, .var c lhs) ∈ F.flow
  | .invoke i =>
    (a.program.call i).receiver = some v →
      ∀ x, a.program.callee? (some o.item.type) (a.program.call i) = some x →
        ⟨(a.program.call i).kind, ⟨c, i⟩, ⟨a.contextOn c i o, x⟩⟩ ∈ F.calls ∧
          ∀ this, (a.program.method x).this = some this →
            (.var (a.contextOn c i o) this, o) ∈ F.pointsTo
  | _ => True

/-- What a call edge asks for: a reachable callee, arguments that flow into parameters, and returned
variables that flow into the result. -/
structure Wires (F : Facts) (e : LocatedEdge) : Prop where
  callee : e.callee ∈ F.reach
  argument : ∀ arg param,
    (arg, param) ∈ (a.program.call e.site.item).args.zip
      (a.program.method e.callee.item).params.toList →
    (.var e.site.context arg, .var e.callee.context param) ∈ F.flow
  result : ∀ r ∈ (a.program.call e.site.item).result,
    ∀ v ∈ (a.program.method e.callee.item).returns,
      (.var e.callee.context v, .var e.site.context r) ∈ F.flow

/-- Everything that follows from facts `F` by one rule is among the facts `G`. -/
structure Follows (F G : Facts) : Prop where
  entry : ⟨.empty, a.program.entry⟩ ∈ G.reach
  reads : ∀ x ∈ F.reach, ∀ s ∈ (a.program.method x.item).body, a.Reads G x.context s
  meets : ∀ c v o, (.var c v, o) ∈ F.pointsTo →
    ∀ s ∈ (a.program.method (a.program.var v).method).body, a.Meets G c v o s
  wires : ∀ e ∈ F.calls, a.Wires G e
  flows : ∀ p q, (p, q) ∈ F.flow → ∀ o, (p, o) ∈ F.pointsTo → (q, o) ∈ G.pointsTo

/-- The facts hold whatever follows from them. -/
def Closed (F : Facts) : Prop := a.Follows F F

variable {a} {F G : Facts}

theorem Reads.mono (h : F ≤ G) {c : ContextOf HeapObject} {s : Stmt} (hs : a.Reads F c s) :
    a.Reads G c s := by
  obtain ⟨-, hcalls, hflow, hpointsTo⟩ := Facts.le_iff.1 h
  cases s with
  | new site => exact hpointsTo hs
  | copy lhs rhs => exact hflow hs
  | loadStatic lhs field => exact hflow hs
  | storeStatic field rhs => exact hflow hs
  | invoke i => exact fun hstatic x hx => hcalls (hs hstatic x hx)
  | loadField | storeField | loadArray | storeArray | ret => trivial

theorem Meets.mono (h : F ≤ G) {c : ContextOf HeapObject} {v : VarId} {o : Located HeapObject}
    {s : Stmt} (hs : a.Meets F c v o s) : a.Meets G c v o s := by
  obtain ⟨-, hcalls, hflow, hpointsTo⟩ := Facts.le_iff.1 h
  cases s with
  | storeField base field rhs => exact fun hbase => hflow (hs hbase)
  | loadField lhs base field => exact fun hbase => hflow (hs hbase)
  | storeArray base rhs => exact fun hbase => hflow (hs hbase)
  | loadArray lhs base => exact fun hbase => hflow (hs hbase)
  | invoke i =>
    intro hreceiver x hx
    obtain ⟨hedge, hthis⟩ := hs hreceiver x hx
    exact ⟨hcalls hedge, fun this hmem => hpointsTo (hthis this hmem)⟩
  | new | copy | loadStatic | storeStatic | ret => trivial

theorem Wires.mono (h : F ≤ G) {e : LocatedEdge} (he : a.Wires F e) : a.Wires G e := by
  obtain ⟨hreach, -, hflow, -⟩ := Facts.le_iff.1 h
  exact ⟨hreach he.callee, fun arg param hmem => hflow (he.argument arg param hmem),
    fun r hr v hv => hflow (he.result r hr v hv)⟩

/-! ### What follows for two reasons -/

theorem Reads.inf {c : ContextOf HeapObject} {s : Stmt} (h : a.Reads F c s) (h' : a.Reads G c s) :
    a.Reads (F ⊓ G) c s := by
  cases s with
  | new | copy | loadStatic | storeStatic => exact ⟨h, h'⟩
  | invoke i => exact fun hstatic x hx => ⟨h hstatic x hx, h' hstatic x hx⟩
  | loadField | storeField | loadArray | storeArray | ret => trivial

theorem Meets.inf {c : ContextOf HeapObject} {v : VarId} {o : Located HeapObject} {s : Stmt}
    (h : a.Meets F c v o s) (h' : a.Meets G c v o s) : a.Meets (F ⊓ G) c v o s := by
  cases s with
  | storeField | loadField | storeArray | loadArray => exact fun hbase => ⟨h hbase, h' hbase⟩
  | invoke i =>
    intro hreceiver x hx
    obtain ⟨hedge, hthis⟩ := h hreceiver x hx
    obtain ⟨hedge', hthis'⟩ := h' hreceiver x hx
    exact ⟨⟨hedge, hedge'⟩, fun this hmem => ⟨hthis this hmem, hthis' this hmem⟩⟩
  | new | copy | loadStatic | storeStatic | ret => trivial

theorem Wires.inf {e : LocatedEdge} (h : a.Wires F e) (h' : a.Wires G e) : a.Wires (F ⊓ G) e :=
  ⟨⟨h.callee, h'.callee⟩, fun arg param hmem => ⟨h.argument arg param hmem, h'.argument arg param hmem⟩,
    fun r hr v hv => ⟨h.result r hr v hv, h'.result r hr v hv⟩⟩

theorem Follows.inf {H : Facts} (h : a.Follows F G) (h' : a.Follows F H) : a.Follows F (G ⊓ H) where
  entry := ⟨h.entry, h'.entry⟩
  reads x hx s hs := (h.reads x hx s hs).inf (h'.reads x hx s hs)
  meets c v o ho s hs := (h.meets c v o ho s hs).inf (h'.meets c v o ho s hs)
  wires e he := (h.wires e he).inf (h'.wires e he)
  flows p q hpq o ho := ⟨h.flows p q hpq o ho, h'.flows p q hpq o ho⟩

/-- Fewer facts have fewer consequences. -/
theorem Follows.anti {H : Facts} (h : a.Follows F H) (hle : G ≤ F) : a.Follows G H where
  entry := h.entry
  reads x hx := h.reads x (hle.1 hx)
  meets c v o ho := h.meets c v o (hle.2.2.2 ho)
  wires e he := h.wires e (hle.2.1 he)
  flows p q hpq o ho := h.flows p q (hle.2.2.1 hpq) o (hle.2.2.2 ho)

theorem closed_all (a : Analysis) : a.Closed .all where
  entry := trivial
  reads _ _ stmt _ := by
    cases stmt with
    | invoke i => exact fun _ _ _ => trivial
    | _ => trivial
  meets _ _ _ _ stmt _ := by
    cases stmt with
    | invoke i => exact fun _ _ _ => ⟨trivial, fun _ _ => trivial⟩
    | storeField | loadField | storeArray | loadArray => exact fun _ => trivial
    | _ => trivial
  wires _ _ := ⟨trivial, fun _ _ _ => trivial, fun _ _ _ _ => trivial⟩
  flows _ _ _ _ _ := trivial

end Analysis

end PointsTo
