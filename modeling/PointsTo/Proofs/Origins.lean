import PointsTo.Proofs.Facts

/-! Where call edges and objects come from. Among the least closed facts there is no call edge that nothing
asks for: each belongs to a static call in the body of a reachable method or to an object at the receiver
of a call. Nor is there an object that no allocation site in the body of a reachable method creates. -/

namespace PointsTo

namespace Analysis

/-- What asks for a call edge. -/
inductive Originates (a : Analysis) (F : Facts) : LocatedEdge → Prop where
  | static {x : Located MethodId} {i : CallId} {y : MethodId} (hx : x ∈ F.reach)
      (hi : .invoke i ∈ (a.program.method x.item).body)
      (hstatic : (a.program.call i).isStatic = true)
      (hy : a.program.callee? none (a.program.call i) = some y) :
      Originates a F ⟨(a.program.call i).kind, ⟨x.context, i⟩,
        ⟨a.selector.calleeContext x.context i none, y⟩⟩
  | receiver {c : ContextOf HeapObject} {v : VarId} {o : Located HeapObject} {i : CallId}
      {y : MethodId} (ho : (.var c v, o) ∈ F.pointsTo)
      (hi : .invoke i ∈ (a.program.method (a.program.var v).method).body)
      (hv : (a.program.call i).receiver = some v)
      (hy : a.program.callee? (some o.item.type) (a.program.call i) = some y) :
      Originates a F ⟨(a.program.call i).kind, ⟨c, i⟩, ⟨a.contextOn c i o, y⟩⟩

variable {a : Analysis} {F : Facts}

theorem Originates.exists_mem_body {e : LocatedEdge} (he : a.Originates F e) :
    ∃ x, .invoke e.site.item ∈ (a.program.method x).body := by
  cases he with
  | static _ hi => exact ⟨_, hi⟩
  | receiver _ hi => exact ⟨_, hi⟩

/-- Call edges that nothing asks for can be left out of closed facts. -/
theorem closed_originates (hF : a.Closed F) :
    a.Closed { F with calls := {e | e ∈ F.calls ∧ a.Originates F e} } where
  entry := hF.entry
  reads x hx s hs := by
    have hreads := hF.reads x hx s hs
    cases s with
    | invoke i => exact fun hstatic y hy => ⟨hreads hstatic y hy, .static hx hs hstatic hy⟩
    | _ => exact hreads
  meets c v o ho s hs := by
    have hmeets := hF.meets c v o ho s hs
    cases s with
    | invoke i =>
      intro hv y hy
      obtain ⟨hedge, hthis⟩ := hmeets hv y hy
      exact ⟨⟨hedge, .receiver ho hs hv hy⟩, hthis⟩
    | _ => exact hmeets
  wires e he := { hF.wires e he.1 with }
  flows := hF.flows

theorem originates_of_isLeast (hF : IsLeast {F | a.Closed F} F) {e : LocatedEdge} (he : e ∈ F.calls) :
    a.Originates F e := by
  obtain ⟨-, hcalls, -⟩ := Facts.le_iff.1 (hF.2 (closed_originates hF.1))
  exact (hcalls he).2

/-- An allocation site in the body of a reachable method creates the object. -/
def Allocates (a : Analysis) (F : Facts) (o : Located HeapObject) : Prop :=
  ∃ x ∈ F.reach, ∃ i, .new i ∈ (a.program.method x.item).body ∧
    ⟨a.selector.heapContext x.context, a.heap.object a.program.toModel i⟩ = o

/-- Objects are only passed on, so those that nothing creates can be left out of closed facts. -/
theorem closed_allocates (hF : a.Closed F) :
    a.Closed { F with pointsTo := {f | f ∈ F.pointsTo ∧ a.Allocates F f.2} } where
  entry := hF.entry
  reads x hx s hs := by
    have hreads := hF.reads x hx s hs
    cases s with
    | new i => exact ⟨hreads, x, hx, i, hs, rfl⟩
    | _ => exact hreads
  meets c v o ho s hs := by
    have hmeets := hF.meets c v o ho.1 s hs
    cases s with
    | invoke i =>
      intro hv x hx
      obtain ⟨hedge, hthis⟩ := hmeets hv x hx
      exact ⟨hedge, fun this hmem => ⟨hthis this hmem, ho.2⟩⟩
    | _ => exact hmeets
  wires e he := { hF.wires e he with }
  flows x y hxy o ho := ⟨hF.flows x y hxy o ho.1, ho.2⟩

theorem allocates_of_isLeast (hF : IsLeast {F | a.Closed F} F) {o : Located HeapObject}
    (ho : o ∈ F.qobjects) : a.Allocates F o := by
  obtain ⟨x, hx⟩ := ho
  exact (Facts.pointsTo_subset (hF.2 (closed_allocates hF.1)) hx).2

end Analysis

end PointsTo
