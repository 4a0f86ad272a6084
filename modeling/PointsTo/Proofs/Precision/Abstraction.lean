import PointsTo.Proofs.Result.Answers

/-! Abstractions. Two analyses of a program may tell contexts and objects apart to different degrees. Maps
from what the one speaks of to what the other does that respect every choice of contexts and objects take
the least facts of the first to facts of the second: whatever the rules ask of the one they ask of the
other. -/

namespace PointsTo

/-- Maps from the objects, method contexts and heap contexts of one analysis of a program to those of
another. Objects keep their class. -/
structure Abstraction (p : Program) (σ τ : Selector) (g h : HeapModel) where
  object : HeapObject → HeapObject
  method : ContextOf HeapObject → ContextOf HeapObject
  heap : ContextOf HeapObject → ContextOf HeapObject
  type_object : ∀ o, (object o).type = o.type
  object_object : ∀ i, object (g.object p.toModel i) = h.object p.toModel i
  method_empty : method .empty = .empty
  heap_heapContext : ∀ c, heap (σ.heapContext c) = τ.heapContext (method c)
  method_calleeContext_none : ∀ c i,
    method (σ.calleeContext c i none) = τ.calleeContext (method c) i none
  method_calleeContext_some : ∀ c i d o,
    method (σ.calleeContext c i (some ⟨d, o, o⟩)) =
      τ.calleeContext (method c) i (some ⟨heap d, object o, object o⟩)

namespace Abstraction

variable {p : Program} {σ τ : Selector} {g h : HeapModel} (α : Abstraction p σ τ g h)

/-- A thing under a method context. -/
def located {β : Type} (x : Located β) : Located β := ⟨α.method x.context, x.item⟩

def qobject (o : Located HeapObject) : Located HeapObject := ⟨α.heap o.context, α.object o.item⟩

def place (x : Place) : Place := x.map α.method α.qobject

def edge (e : LocatedEdge) : LocatedEdge := ⟨e.kind, α.located e.site, α.located e.callee⟩

/-- What the first facts have, the second have in the terms of the other analysis. -/
structure Sends (F G : Facts) : Prop where
  reach : ∀ x ∈ F.reach, α.located x ∈ G.reach
  calls : ∀ e ∈ F.calls, α.edge e ∈ G.calls
  flow : ∀ x y, (x, y) ∈ F.flow → (α.place x, α.place y) ∈ G.flow
  pointsTo : ∀ x o, (x, o) ∈ F.pointsTo → (α.place x, α.qobject o) ∈ G.pointsTo
  qobjects : ∀ o ∈ F.qobjects, α.qobject o ∈ G.qobjects

/-- The facts that are among given ones in the terms of the other analysis. -/
def preimage (G : Facts) : Facts where
  reach := {x | α.located x ∈ G.reach}
  calls := {e | α.edge e ∈ G.calls}
  flow := {f | (α.place f.1, α.place f.2) ∈ G.flow}
  pointsTo := {f | (α.place f.1, α.qobject f.2) ∈ G.pointsTo}

variable {F G : Facts}

theorem sends_of_le (hle : F ≤ α.preimage G) : α.Sends F G := by
  obtain ⟨hreach, hcalls, hflow, hpointsTo⟩ := Facts.le_iff.1 hle
  refine ⟨fun x hx => hreach hx, fun e he => hcalls he, fun x y hxy => hflow hxy,
    fun x o ho => hpointsTo ho, ?_⟩
  rintro o ⟨x, hxo⟩
  exact ⟨_, hpointsTo hxo⟩

theorem closed_preimage (hG : (⟨p, τ, h⟩ : Analysis).Closed G) :
    (⟨p, σ, g⟩ : Analysis).Closed (α.preimage G) where
  entry := by
    have hentry := hG.entry
    rw [← α.method_empty] at hentry
    exact hentry
  reads x hx stmt hstmt := by
    have hreads := hG.reads _ hx stmt hstmt
    cases stmt with
    | new site =>
      show (CellOf.var (α.method x.context) _, Located.mk (α.heap (σ.heapContext x.context)) (α.object _)) ∈
        G.pointsTo
      rw [α.heap_heapContext, α.object_object]
      exact hreads
    | copy lhs rhs => exact hreads
    | loadStatic lhs field => exact hreads
    | storeStatic field rhs => exact hreads
    | invoke i =>
      intro hstatic y hy
      show CallEdge.mk _ (Located.mk (α.method x.context) i)
        (Located.mk (α.method (σ.calleeContext x.context i none)) y) ∈ G.calls
      rw [α.method_calleeContext_none]
      exact hreads hstatic y hy
    | loadField | storeField | loadArray | storeArray | ret => trivial
  meets c v o ho stmt hstmt := by
    have hmeets := hG.meets _ v _ ho stmt hstmt
    cases stmt with
    | storeField base field rhs => exact hmeets
    | loadField lhs base field => exact hmeets
    | storeArray base rhs => exact hmeets
    | loadArray lhs base => exact hmeets
    | invoke i =>
      intro hreceiver x hx
      -- dispatch looks at nothing but the class of the receiver
      rw [← α.type_object o.item] at hx
      obtain ⟨hedge, hthis⟩ := hmeets hreceiver x hx
      have hcontext := α.method_calleeContext_some c i o.context o.item
      constructor
      · show CallEdge.mk _ (Located.mk (α.method c) i) (Located.mk (α.method _) x) ∈ G.calls
        rw [Analysis.contextOn, hcontext]
        exact hedge
      · intro this hmem
        show (CellOf.var (α.method _) this, α.qobject o) ∈ G.pointsTo
        rw [Analysis.contextOn, hcontext]
        exact hthis this hmem
    | new | copy | loadStatic | storeStatic | ret => trivial
  wires e he := by
    have hwires := hG.wires _ he
    exact ⟨hwires.callee, hwires.argument, hwires.result⟩
  flows x y hxy o ho := hG.flows _ _ hxy _ ho

theorem sends_of_isLeast (hF : IsLeast {F | (⟨p, σ, g⟩ : Analysis).Closed F} F)
    (hG : (⟨p, τ, h⟩ : Analysis).Closed G) : α.Sends F G :=
  α.sends_of_le (hF.2 (α.closed_preimage hG))

end Abstraction

/-- What the first answers say, the second say of the objects that are put in the place of theirs. -/
structure Answers.MapsInto (f : HeapObject → HeapObject) (A B : Answers) : Prop where
  pointsTo : ∀ v, ∀ o ∈ A.pointsTo v, f o ∈ B.pointsTo v
  statics : ∀ x, ∀ o ∈ A.statics x, f o ∈ B.statics x
  fields : ∀ b x, ∀ o ∈ A.fields b x, f o ∈ B.fields (f b) x
  elements : ∀ b, ∀ o ∈ A.elements b, f o ∈ B.elements (f b)
  calls : A.calls ⊆ B.calls
  reachable : A.reachable ⊆ B.reachable
  entries : A.entries ⊆ B.entries

theorem Abstraction.Sends.answers {p : Program} {σ τ : Selector} {g h : HeapModel}
    {α : Abstraction p σ τ g h} {F G : Facts} (hsends : α.Sends F G) :
    ((⟨p, σ, g⟩ : Analysis).answers F).MapsInto α.object ((⟨p, τ, h⟩ : Analysis).answers G) := by
  constructor
  case pointsTo =>
    intro v o hheld
    obtain ⟨k, c, hmem⟩ := hheld
    exact ⟨_, _, hsends.pointsTo _ _ hmem⟩
  case statics =>
    intro x o hheld
    obtain ⟨c, hmem⟩ := hheld
    exact ⟨_, hsends.pointsTo _ _ hmem⟩
  case fields =>
    intro b x o hheld
    obtain ⟨d, c, hmem⟩ := hheld
    exact ⟨_, _, hsends.pointsTo _ _ hmem⟩
  case elements =>
    intro b o hheld
    obtain ⟨d, c, hmem⟩ := hheld
    exact ⟨_, _, hsends.pointsTo _ _ hmem⟩
  case calls =>
    rintro _ ⟨e, he, rfl⟩
    exact ⟨_, hsends.calls e he, rfl⟩
  case reachable =>
    intro x hreached
    obtain ⟨k, hmem⟩ := hreached
    exact ⟨_, hsends.reach _ hmem⟩
  case entries => exact Set.Subset.rfl

end PointsTo
