import PointsTo.Proofs.Solver.Fixpoint

/-! Obligations. Between two work items nothing that the analysis still has to do is lost: what follows
by one rule from what is there is there as well or waits on the work list, in the solver's own numbers.
From one such state to the next nothing is taken back. -/

namespace PointsTo

namespace Entities

/-- The number of a cell. -/
def Numbers (t : Entities) (c : CellId) (x : Cell) : Prop := t.IsCell c ∧ t.cell c = x

variable {t : Entities}

theorem Scoped.numbers_of_cellAt (ht : t.Scoped) {c : CellId} (hc : t.IsCell c) {x : Cell}
    (hx : t.ScopedCell x) (h : t.cellAt c = t.placeOf x) : t.Numbers c x :=
  ⟨hc, ht.placeOf_injective (ht.cell hc) hx h⟩

end Entities

namespace State

section Obligations

variable (s : State)

def HasFlow (x y : Cell) : Prop :=
  ∃ c d, s.entities.Numbers c x ∧ s.entities.Numbers d y ∧ s.flow.hasEdge c d = true

/-- A cell holds an object, or the object waits to enter it. -/
def HasDue (x : Cell) (o : QObjectId) : Prop := ∃ c, s.entities.Numbers c x ∧ s.Due c o

/-- A call edge that is installed or waits to be, from a call site to a method under a context. -/
structure HasCall (e : QCallEdge) (kind : CallKind) (site : Qualified .call) (target : Context)
    (x : MethodId) : Prop where
  requested : s.Requested e
  kind : e.kind = kind
  isQCall : s.entities.IsQCall e.site
  site : s.entities.qcall e.site = site
  isQMethod : s.entities.IsQMethod e.callee
  context : s.entities.context (s.entities.qmethod e.callee).context = target
  method : (s.entities.qmethod e.callee).item = x

variable (a : Analysis)

/-- What a statement of a reachable method has led to. -/
def ReadsAt (k : ContextId) : Stmt → Prop
  | .new site => ∃ o, s.entities.IsQObject o ∧
      s.entities.context (s.entities.qobject o).context =
        a.selector.heapContext (s.entities.context k) ∧
      s.entities.object (s.entities.qobject o).item = a.heap.object a.program.toModel site ∧
      s.HasDue (.var k (a.program.site site).lhs) o
  | .copy lhs rhs => s.HasFlow (.var k rhs) (.var k lhs)
  | .loadStatic lhs field => s.HasFlow (.static field) (.var k lhs)
  | .storeStatic field rhs => s.HasFlow (.var k rhs) (.static field)
  | .invoke i =>
    (a.program.call i).isStatic = true → ∀ x, a.program.callee? none (a.program.call i) = some x →
      ∃ e, s.HasCall e (a.program.call i).kind ⟨k, i⟩
        (a.selector.calleeContext (s.entities.context k) i none) x
  | _ => True

/-- What a statement has led to for an object at a variable `v` that it uses as base or receiver. -/
def MeetsAt (k : ContextId) (v : VarId) (o : QObjectId) : Stmt → Prop
  | .storeField base field rhs => base = v → s.HasFlow (.var k rhs) (.field o field)
  | .loadField lhs base field => base = v → s.HasFlow (.field o field) (.var k lhs)
  | .storeArray base rhs => base = v → s.HasFlow (.var k rhs) (.elements o)
  | .loadArray lhs base => base = v → s.HasFlow (.elements o) (.var k lhs)
  | .invoke i =>
    (a.program.call i).receiver = some v → ∀ x, a.program.callee?
        (some (s.entities.object (s.entities.qobject o).item).type) (a.program.call i) = some x →
      ∃ e, s.HasCall e (a.program.call i).kind ⟨k, i⟩
          (a.selector.calleeContext (s.entities.context k) i (some (s.entities.receiver o))) x ∧
        ∀ this, (a.program.method x).this = some this →
          s.HasDue (.var (s.entities.qmethod e.callee).context this) o
  | _ => True

/-- What an installed call edge has led to. -/
structure WiresAt (e : QCallEdge) : Prop where
  callee : e.callee ∈ s.calls.reachable.toList
  argument : ∀ arg param,
    (arg, param) ∈ (a.program.call (s.entities.qcall e.site).item).args.zip
      (a.program.method (s.entities.qmethod e.callee).item).params.toList →
    s.HasFlow (.var (s.entities.qcall e.site).context arg)
      (.var (s.entities.qmethod e.callee).context param)
  result : ∀ r ∈ (a.program.call (s.entities.qcall e.site).item).result,
    ∀ v ∈ (a.program.method (s.entities.qmethod e.callee).item).returns,
      s.HasFlow (.var (s.entities.qmethod e.callee).context v)
        (.var (s.entities.qcall e.site).context r)

/-- Whatever has to be done for what is there has been done or waits. -/
structure Settled : Prop where
  flows : s.FlowSettled
  meets : ∀ c k v, s.entities.Numbers c (.var k v) → ∀ o ∈ s.entities.pointsTo c,
    ∀ x, ∀ stmt ∈ (a.program.method x).body, s.MeetsAt a k v o stmt
  reads : ∀ x ∈ s.calls.reachable.toList,
    ∀ stmt ∈ (a.program.method (s.entities.qmethod x).item).body,
      s.ReadsAt a (s.entities.qmethod x).context stmt
  wires : ∀ e ∈ s.calls.edges.toList, s.WiresAt a e

end Obligations

/-! ### Promises in numbers -/

variable {a : Analysis} {F : Facts} {s : State} (hs : s.Scoped)

include hs

theorem hasFlow_of_mem_flow {x y : Cell} (hx : s.entities.ScopedCell x) (hy : s.entities.ScopedCell y)
    (h : (s.entities.placeOf x, s.entities.placeOf y) ∈ s.promised.flow) : s.HasFlow x y := by
  obtain ⟨c, d, hedge, heq⟩ := h
  obtain ⟨hc, hd⟩ := hs.flow c d hedge
  obtain ⟨hcx, hdy⟩ := Prod.mk.inj heq
  exact ⟨c, d, hs.entities.numbers_of_cellAt hc hx hcx, hs.entities.numbers_of_cellAt hd hy hdy, hedge⟩

theorem exists_hasDue_of_mem_pointsTo {x : Cell} (hx : s.entities.ScopedCell x) {q : Located HeapObject}
    (h : (s.entities.placeOf x, q) ∈ s.promised.pointsTo) :
    ∃ o, s.entities.IsQObject o ∧ s.entities.qobjectAt o = q ∧ s.HasDue x o := by
  obtain ⟨c, o, hdue, heq⟩ := h
  obtain ⟨hc, ho⟩ := hs.due c o hdue
  obtain ⟨hcx, hoq⟩ := Prod.mk.inj heq
  exact ⟨o, ho, hoq, c, hs.entities.numbers_of_cellAt hc hx hcx, hdue⟩

theorem hasDue_of_mem_pointsTo {x : Cell} (hx : s.entities.ScopedCell x) {o : QObjectId}
    (ho : s.entities.IsQObject o)
    (h : (s.entities.placeOf x, s.entities.qobjectAt o) ∈ s.promised.pointsTo) : s.HasDue x o := by
  obtain ⟨p, hp, hread, hdue⟩ := exists_hasDue_of_mem_pointsTo hs hx h
  obtain rfl := hs.entities.qobjectAt_injective hp ho hread
  exact hdue

theorem exists_hasCall_of_mem_calls {kind : CallKind} {c : Qualified .call} {target : Context}
    {x : MethodId} (hc : s.entities.IsContext c.context) (htarget : s.entities.ScopedContext target)
    (h : ⟨kind, s.entities.qcallOf c, ⟨s.entities.contextOf target, x⟩⟩ ∈ s.promised.calls) :
    ∃ e, s.HasCall e kind c target x := by
  obtain ⟨e, he, heq⟩ := h
  obtain ⟨hsite, hcallee⟩ := hs.requested e he
  obtain ⟨hkind, hsiteAt, hcalleeAt⟩ := CallEdge.mk.inj heq
  obtain ⟨hcontext, hmethod⟩ := Located.mk.inj hcalleeAt
  obtain ⟨hsitek, hsitei⟩ := Located.mk.inj hsiteAt
  have hcall : s.entities.qcall e.site = c := by
    apply Qualified.ext _ hsitei
    exact hs.entities.contextAt_injective (hs.entities.qcall hsite) hc hsitek
  have hread : s.entities.context (s.entities.qmethod e.callee).context = target :=
    Entities.contextOf_injective (hs.entities.context (hs.entities.qmethod hcallee)) htarget hcontext
  exact ⟨e, he, hkind, hsite, hcall, hcallee, hread, hmethod⟩

section Rules

variable {k : ContextId} (hk : s.entities.IsContext k)

include hk

theorem readsAt_of_reads {stmt : Stmt} (h : a.Reads s.promised (s.entities.contextAt k) stmt) :
    s.ReadsAt a k stmt := by
  cases stmt with
  | new site =>
    have hscoped : s.entities.ScopedContext (a.selector.heapContext (s.entities.context k)) :=
      fun o ho => hs.entities.context hk o (Selector.mem_of_mem_heapContext ho)
    obtain ⟨o, ho, hread, hdue⟩ :=
      exists_hasDue_of_mem_pointsTo hs (x := .var k (a.program.site site).lhs) hk h
    obtain ⟨hcontext, hitem⟩ := Located.mk.inj hread
    refine ⟨o, ho, ?_, hitem, hdue⟩
    apply Entities.contextOf_injective (hs.entities.context (hs.entities.qobject ho).1) hscoped
    exact hcontext.trans (Selector.map_heapContext _ _ _).symm
  | copy lhs rhs => exact hasFlow_of_mem_flow hs (x := .var k rhs) (y := .var k lhs) hk hk h
  | loadStatic lhs field =>
    exact hasFlow_of_mem_flow hs (x := .static field) (y := .var k lhs) trivial hk h
  | storeStatic field rhs =>
    exact hasFlow_of_mem_flow hs (x := .var k rhs) (y := .static field) hk trivial h
  | invoke i =>
    intro hstatic x hx
    have hcall := h hstatic x hx
    have hscoped := hs.entities.calleeContext hk a.selector i (o := none) (fun _ h => by cases h)
    have hread : s.entities.contextOf (a.selector.calleeContext (s.entities.context k) i none) =
        a.selector.calleeContext (s.entities.contextAt k) i none :=
      s.entities.contextOf_calleeContext a.selector k i none
    rw [← hread] at hcall
    exact exists_hasCall_of_mem_calls hs (c := ⟨k, i⟩) hk hscoped hcall
  | loadField | storeField | loadArray | storeArray | ret => trivial

theorem meetsAt_of_meets {v : VarId} {o : QObjectId} (ho : s.entities.IsQObject o) {stmt : Stmt}
    (h : a.Meets s.promised (s.entities.contextAt k) v (s.entities.qobjectAt o) stmt) :
    s.MeetsAt a k v o stmt := by
  cases stmt with
  | storeField base field rhs =>
    exact fun hbase => hasFlow_of_mem_flow hs (x := .var k rhs) (y := .field o field) hk ho (h hbase)
  | loadField lhs base field =>
    exact fun hbase => hasFlow_of_mem_flow hs (x := .field o field) (y := .var k lhs) ho hk (h hbase)
  | storeArray base rhs =>
    exact fun hbase => hasFlow_of_mem_flow hs (x := .var k rhs) (y := .elements o) hk ho (h hbase)
  | loadArray lhs base =>
    exact fun hbase => hasFlow_of_mem_flow hs (x := .elements o) (y := .var k lhs) ho hk (h hbase)
  | invoke i =>
    intro hv x hx
    obtain ⟨hcall, hthis⟩ := h hv x hx
    have hscoped := hs.entities.calleeContext_receiver hk a.selector i ho
    have hread := s.entities.contextOf_contextOn a k i o
    rw [← hread] at hcall
    obtain ⟨e, he⟩ := exists_hasCall_of_mem_calls hs (c := ⟨k, i⟩) hk hscoped hcall
    refine ⟨e, he, fun this hmem => ?_⟩
    have hdue := hthis this hmem
    rw [← hread, ← he.context] at hdue
    exact hasDue_of_mem_pointsTo hs (x := .var _ this) (hs.entities.qmethod he.isQMethod) ho hdue
  | new | copy | loadStatic | storeStatic | ret => trivial

omit hs hk in
/-- Statements that do not use the variable have nothing to do for it. -/
theorem meetsAt_of_mem_varsOf {v : VarId} {o : QObjectId} {stmt : Stmt}
    (h : v ∈ a.program.varsOf stmt → s.MeetsAt a k v o stmt) : s.MeetsAt a k v o stmt := by
  cases stmt with
  | storeField | loadField | storeArray | loadArray =>
    intro hbase
    exact h (by simp [Model.varsOf, hbase]) hbase
  | invoke i =>
    intro hv
    exact h (by simp [Model.varsOf, hv]) hv
  | new | copy | loadStatic | storeStatic | ret => trivial

end Rules

theorem wiresAt_of_wires {e : QCallEdge} (he : e ∈ s.calls.edges.toList)
    (h : a.Wires s.promised (s.entities.edgeAt e)) : s.WiresAt a e := by
  obtain ⟨hsite, hcallee⟩ := hs.requested e (Or.inl he)
  have hk := hs.entities.qcall hsite
  have hl := hs.entities.qmethod hcallee
  refine ⟨?_, fun arg param hmem => ?_, fun r hr v hv => ?_⟩
  · obtain ⟨x, hx, hread⟩ := h.callee
    obtain rfl := hs.entities.qmethodAt_injective (hs.reachable x hx) hcallee hread
    exact hx
  · exact hasFlow_of_mem_flow hs (x := .var _ arg) (y := .var _ param) hk hl (h.argument arg param hmem)
  · exact hasFlow_of_mem_flow hs (x := .var _ v) (y := .var _ r) hl hk (h.result r hr v hv)

end State

namespace Analysis

open State

variable {a : Analysis}

theorem settled_run (hp : a.program.Accepted) (order : WorkOrder) (n : Nat) :
    (a.run n (a.start order)).Settled a := by
  have hadvances := advances_of_run hp.indexed (closed_all a) order n
  have hfollows := follows_of_run a order hp.indexed n
  have hs := hadvances.sound.scope
  generalize a.run n (a.start order) = s at *
  refine ⟨hadvances.settled (flowSettled_empty order), ?_, ?_, ?_⟩
  · intro c k v hnumbers o ho x stmt hstmt
    obtain ⟨hc, hcell⟩ := hnumbers
    have hk : s.entities.ScopedCell (.var k v) := hcell ▸ hs.entities.cell hc
    have hfact : (.var (s.entities.contextAt k) v, s.entities.qobjectAt o) ∈ s.facts.pointsTo :=
      ⟨c, o, ho, Prod.ext (congrArg s.entities.placeOf hcell) rfl⟩
    apply meetsAt_of_mem_varsOf
    intro hv
    rw [← hp.method_of_mem_varsOf hstmt hv] at hstmt
    exact meetsAt_of_meets hs hk (hs.due c o (Or.inl ho)).2 (hfollows.meets _ v _ hfact stmt hstmt)
  · intro x hx stmt hstmt
    have hread := hfollows.reads _ ⟨x, hx, rfl⟩ stmt hstmt
    exact readsAt_of_reads hs (hs.entities.qmethod (hs.reachable x hx)) hread
  · intro e he
    exact wiresAt_of_wires hs he (hfollows.wires _ ⟨e, he, rfl⟩)

/-- Before each work item and after it all that has to be done is done or waits, and the work item takes
nothing back. -/
theorem run_settled_and_grows (hp : a.program.Accepted) (order : WorkOrder) (n : Nat) :
    (a.run n (a.start order)).Settled a ∧
      ∀ u, a.step? (a.run n (a.start order)) = some u → (a.run n (a.start order)).Grows u := by
  refine ⟨settled_run hp order n, fun u hu => ?_⟩
  have hadvances := advances_of_run hp.indexed (closed_all a) order n
  exact (advances_step hp.indexed hadvances.sound (closed_all a) hu).grows

/-- In the small program a call edge waits after the first work item. -/
theorem run_settled_and_grows_identity : (identity.run 1 (identity.start .fifo)).Settled identity ∧
    ∃ u, identity.step? (identity.run 1 (identity.start .fifo)) = some u ∧
      (identity.run 1 (identity.start .fifo)).Grows u := by
  obtain ⟨hsettled, hgrows⟩ := run_settled_and_grows (a := identity) Program.accepted_identity .fifo 1
  have hstep : (identity.step? (identity.run 1 (identity.start .fifo))).isSome = true := by
    decide +kernel
  obtain ⟨u, hu⟩ := Option.isSome_iff_exists.1 hstep
  exact ⟨hsettled, u, hu, hgrows u hu⟩

end Analysis

end PointsTo
