import PointsTo.Proofs.Program.Uses
import PointsTo.Proofs.Solver.Advance

/-! The operations of the solver under closed facts. Each advances, and leaves established or promised
what the rules ask for in its place. -/

namespace PointsTo

namespace Entities

variable {t : Entities}

/-- An object as the receiver of a call, as contexts speak of it. -/
def receiver (t : Entities) (o : QObjectId) : Receiver :=
  ⟨t.context (t.qobject o).context, (t.qobject o).item, t.object (t.qobject o).item⟩

theorem contextOf_calleeContext (σ : Selector) (k : ContextId) (i : CallId) (o : Option QObjectId) :
    t.contextOf (σ.calleeContext (t.context k) i (o.map t.receiver)) =
      σ.calleeContext (t.contextAt k) i
        (o.map fun o => ⟨(t.qobjectAt o).context, (t.qobjectAt o).item, (t.qobjectAt o).item⟩) := by
  rw [contextOf, Selector.map_calleeContext, Option.map_map]
  rfl

theorem contextOf_contextOn (a : Analysis) (k : ContextId) (i : CallId) (o : QObjectId) :
    t.contextOf (a.selector.calleeContext (t.context k) i (some (t.receiver o))) =
      a.contextOn (t.contextAt k) i (t.qobjectAt o) := t.contextOf_calleeContext a.selector k i (some o)

theorem Scoped.calleeContext (ht : t.Scoped) {k : ContextId} (hk : t.IsContext k) (σ : Selector)
    (i : CallId) {o : Option QObjectId} (ho : ∀ q ∈ o, t.IsQObject q) :
    t.ScopedContext (σ.calleeContext (t.context k) i (o.map t.receiver)) := by
  intro p hp
  rcases Selector.object_mem_calleeContext hp with hp | ⟨r, hr, hp⟩
  · exact ht.context hk p hp
  · obtain ⟨q, hq, rfl⟩ := Option.mem_map.1 hr
    obtain ⟨hcontext, hobject⟩ := ht.qobject (ho q hq)
    rcases hp with hp | rfl
    · exact ht.context hcontext p hp
    · exact hobject

theorem Scoped.calleeContext_receiver (ht : t.Scoped) {k : ContextId} (hk : t.IsContext k) (σ : Selector)
    (i : CallId) {o : QObjectId} (ho : t.IsQObject o) :
    t.ScopedContext (σ.calleeContext (t.context k) i (some (t.receiver o))) := by
  apply ht.calleeContext hk σ i (o := some o)
  intro q hq
  obtain rfl := Option.some.inj hq
  exact ho

end Entities

namespace State

variable {a : Analysis} {F : Facts} {s : State}

theorem advances_give (hs : s.Sound a F) {c : Cell} {o : QObjectId} {p : Place}
    {q : Located HeapObject} (hc : s.entities.ScopedCell c) (ho : s.entities.IsQObject o)
    (hp : s.entities.placeOf c = p) (hq : s.entities.qobjectAt o = q) (hF : (p, q) ∈ F.pointsTo) :
    Advances a F s (s.give c o) ∧ (p, q) ∈ (s.give c o).promised.pointsTo := by
  subst hp hq
  have hcell : Advances a F s (s.addCell c) := advances_addCell hs hc (Or.inr (Or.inl ⟨_, hF⟩))
  have hextends := hcell.grows.entities
  have hmem := mem_addCell s c
  have hplace := Entities.cellAt_of_extends hextends hs.entities hc hmem
  have hobject := hextends.qobjectAt hs.entities ho
  have hholds : (s.addCell c).entities.HoldsIn F ((s.addCell c).entities.cellId c) o :=
    ⟨Entities.isCell_cellId hmem, hextends.isQObject ho, by rwa [hplace, hobject]⟩
  constructor
  · refine hcell.trans (advances_send hcell.sound fun p hp => ?_)
    rw [IdSet.mem_singleton.1 hp]
    exact hholds
  · refine ⟨_, o, due_send.2 (Or.inr ⟨rfl, IdSet.mem_singleton.2 rfl⟩), ?_⟩
    exact Prod.ext hplace hobject

theorem advances_connect (hs : s.Sound a F) (hF : a.Closed F) {x y : Cell}
    (hx : s.entities.ScopedCell x) (hy : s.entities.ScopedCell y)
    (hflow : (s.entities.placeOf x, s.entities.placeOf y) ∈ F.flow) :
    Advances a F s (s.connect x y) ∧
      (s.entities.placeOf x, s.entities.placeOf y) ∈ (s.connect x y).promised.flow := by
  have hsource : Advances a F s (s.addCell x) := advances_addCell hs hx (Or.inl ⟨_, Or.inl hflow⟩)
  have hextends := hsource.grows.entities
  have htarget : Advances a F (s.addCell x) ((s.addCell x).addCell y) := by
    refine advances_addCell hsource.sound (hextends.scopedCell hy) (Or.inl ⟨s.entities.placeOf x, ?_⟩)
    rw [hextends.placeOf hs.entities hy]
    exact Or.inr hflow
  have hboth := hsource.trans htarget
  have hxmem := htarget.grows.entities.cells.subset (mem_addCell s x)
  have hymem := mem_addCell (s.addCell x) y
  have hplacex := Entities.cellAt_of_extends hboth.grows.entities hs.entities hx hxmem
  have hplacey := Entities.cellAt_of_extends hboth.grows.entities hs.entities hy hymem
  have hxid := Entities.isCell_cellId hxmem
  have hyid := Entities.isCell_cellId hymem
  have hflows : ((s.addCell x).addCell y).entities.FlowsIn F _ _ :=
    ⟨hxid, hyid, by rwa [hplacex, hplacey]⟩
  obtain ⟨hadd, hedge⟩ : Advances a F ((s.addCell x).addCell y) (s.connect x y) ∧
      (s.connect x y).flow.hasEdge _ _ = true := advances_addFlow hboth.sound hF hflows
  refine ⟨hboth.trans hadd, _, _, hedge, ?_⟩
  rw [hadd.grows.entities.cellAt hboth.sound.entities hxid,
    hadd.grows.entities.cellAt hboth.sound.entities hyid, hplacex, hplacey]

theorem advances_connectAll (hs : s.Sound a F) (hF : a.Closed F) {flows : List (Cell × Cell)}
    {places : List (Place × Place)}
    (hscoped : ∀ f ∈ flows, s.entities.ScopedCell f.1 ∧ s.entities.ScopedCell f.2)
    (hplaces : flows.map (Prod.map s.entities.placeOf s.entities.placeOf) = places)
    (hflow : ∀ f ∈ places, f ∈ F.flow) :
    Advances a F s (s.connectAll flows) ∧ ∀ f ∈ places, f ∈ (s.connectAll flows).promised.flow := by
  subst hplaces
  rw [List.forall_mem_map] at hflow ⊢
  refine Advances.foldl
    (fun (f : Cell × Cell) G => (s.entities.placeOf f.1, s.entities.placeOf f.2) ∈ G.flow)
    (fun _ _ _ h hf => Facts.flow_subset h hf) hs fun u hu f hf => ?_
  obtain ⟨hx, hy⟩ := hscoped f hf
  have hextends := hu.grows.entities
  have hfF := hflow f hf
  rw [Prod.map_apply', ← hextends.placeOf hs.entities hx, ← hextends.placeOf hs.entities hy] at hfF
  rw [← hextends.placeOf hs.entities hx, ← hextends.placeOf hs.entities hy]
  exact advances_connect hu.sound hF (hextends.scopedCell hx) (hextends.scopedCell hy) hfF

/-- An edge that is there already is of the kind asked for: both are of the kind of the call. -/
theorem advances_requestEdge (hs : s.Sound a F) {e : QCallEdge} (he : s.entities.CalledIn a F e) :
    Advances a F s
        (if s.calls.hasEdge e.site e.callee then s else { s with work := s.work.addCall e }) ∧
      s.entities.edgeAt e ∈ (if s.calls.hasEdge e.site e.callee then s
        else { s with work := s.work.addCall e }).promised.calls := by
  by_cases hedge : s.calls.hasEdge e.site e.callee = true
  · rw [if_pos hedge]
    obtain ⟨f, hf, hsite, hcallee⟩ := (hs.calls.hasEdge_iff _ _).1 hedge
    obtain ⟨-, -, -, hkind⟩ := hs.requested f (Or.inl hf)
    refine ⟨.refl hs, f, Or.inl hf, ?_⟩
    rw [Entities.edgeAt, hkind, hsite, hcallee, ← he.2.2.2]
    rfl
  · rw [if_neg hedge]
    refine ⟨advances_addCall hs he, e, Or.inr ?_, rfl⟩
    simp [WorkList.addCall]

theorem advances_requestCall (hs : s.Sound a F) (hF : a.Closed F) {kind : CallKind}
    {site : Qualified .call} {y : Qualified .method} {c : Located CallId}
    {x : Located MethodId} (hsite : s.entities.IsContext site.context)
    (hcallee : s.entities.IsContext y.context) (hc : s.entities.qcallOf site = c)
    (hx : s.entities.qmethodOf y = x) (hkind : kind = (a.program.call site.item).kind)
    (hcall : ⟨kind, c, x⟩ ∈ F.calls) :
    Advances a F s (s.requestCall kind site y) ∧
      ⟨kind, c, x⟩ ∈ (s.requestCall kind site y).promised.calls := by
  subst hc hx
  have hsites : Advances a F s (s.addQCall site) := advances_addQCall hs hsite ⟨_, hcall, rfl⟩
  have hextends := hsites.grows.entities
  have hmethods : Advances a F (s.addQCall site) ((s.addQCall site).addQMethod y) := by
    refine advances_addQMethod hsites.sound (hextends.isContext hcallee) (Or.inl ?_)
    rw [hextends.qmethodOf hs.entities hcallee]
    exact (hF.wires _ hcall).callee
  have hboth := hsites.trans hmethods
  have hsitemem := hmethods.grows.entities.qcalls.subset (mem_addQCall s site)
  have hcalleemem := mem_addQMethod (s.addQCall site) y
  have hreadsite := Entities.qcallAt_of_extends hboth.grows.entities hs.entities hsite hsitemem
  have hreadcallee := Entities.qmethodAt_of_extends hboth.grows.entities hs.entities hcallee hcalleemem
  generalize hu : (s.addQCall site).addQMethod y = u at *
  have hread : u.entities.edgeAt ⟨kind, u.entities.qcallId site, u.entities.qmethodId y⟩ =
      ⟨kind, s.entities.qcallOf site, s.entities.qmethodOf y⟩ := by
    rw [Entities.edgeAt, hreadsite, hreadcallee]
  have hcalled : u.entities.CalledIn a F
      ⟨kind, u.entities.qcallId site, u.entities.qmethodId y⟩ := by
    refine ⟨Entities.isQCall_qcallId hsitemem, Entities.isQMethod_qmethodId hcalleemem, ?_, ?_⟩
    · rwa [hread]
    · rw [hreadsite]
      exact hkind
  obtain ⟨hrequest, hmem⟩ := advances_requestEdge hboth.sound hcalled
  rw [hread] at hmem
  rw [requestCall, hu]
  exact ⟨hboth.trans hrequest, hmem⟩

/-- Numbering an object under a context, and first the context and the object. -/
theorem advances_locate {u : State} (hs : s.Sound a F) {h : Context} {o : HeapObject}
    {l : Qualified .object} (hu : (s.addContext h).addObject o = u)
    (hl : l = ⟨u.entities.contextId h, u.entities.objectId o⟩) (hh : s.entities.ScopedContext h)
    (hF : ⟨s.entities.contextOf h, o⟩ ∈ F.qobjects) :
    Advances a F s (u.addQObject l) ∧
      (u.addQObject l).entities.IsQObject ((u.addQObject l).entities.qobjectId l) ∧
      (u.addQObject l).entities.qobjectAt ((u.addQObject l).entities.qobjectId l) =
        ⟨s.entities.contextOf h, o⟩ := by
  obtain ⟨p, hp⟩ := hF
  have hcontext := advances_addContext hs hh (Or.inr ⟨_, _, hp, rfl⟩)
  have hobject := advances_addObject hcontext.sound (o := o) ⟨_, ⟨_, hp⟩, rfl⟩
  have hcmem := mem_addContext s h
  have homem := mem_addObject (s.addContext h) o
  have hread := Entities.contextAt_of_extends (hcontext.trans hobject).grows.entities hh hcmem
  rw [hu] at hobject homem hread
  have hlocated : u.entities.qobjectOf l = ⟨s.entities.contextOf h, o⟩ := by
    rw [hl, Entities.qobjectOf, Entities.object_objectId homem, hread]
  have hlc : u.entities.IsContext l.context := by
    rw [hl]
    exact Entities.isContext_contextId (hobject.grows.entities.contexts.subset hcmem)
  have hlo : u.entities.IsObject l.item := by
    rw [hl]
    exact Entities.isObject_objectId homem
  have hadd := advances_addQObject hobject.sound hlc hlo (hlocated ▸ ⟨p, hp⟩)
  have hlmem := mem_addQObject u l
  refine ⟨(hcontext.trans hobject).trans hadd, Entities.isQObject_qobjectId hlmem, ?_⟩
  rw [Entities.qobjectAt_of_extends hadd.grows.entities hobject.sound.entities hlc hlo hlmem, hlocated]

/-- Numbering the context of a reachable method. -/
theorem advances_target (hs : s.Sound a F) {target : Context} (ht : s.entities.ScopedContext target)
    {x : MethodId} (hF : ⟨s.entities.contextOf target, x⟩ ∈ F.reach) :
    Advances a F s (s.addContext target) ∧
      (s.addContext target).entities.IsContext ((s.addContext target).entities.contextId target) ∧
      (s.addContext target).entities.contextAt ((s.addContext target).entities.contextId target) =
        s.entities.contextOf target := by
  have hcontext := advances_addContext hs ht (Or.inl ⟨_, hF, rfl⟩)
  have hmem := mem_addContext s target
  exact ⟨hcontext, Entities.isContext_contextId hmem,
    Entities.contextAt_of_extends hcontext.grows.entities ht hmem⟩

end State

namespace Analysis

open State

variable {a : Analysis} {F : Facts} {s : State}

theorem advances_allocate (hs : s.Sound a F) {k : ContextId} (hk : s.entities.IsContext k)
    {site : SiteId} (hF : a.Reads F (s.entities.contextAt k) (.new site)) :
    Advances a F s (a.allocate k site s) ∧
      a.Reads (a.allocate k site s).promised (s.entities.contextAt k) (.new site) := by
  have hread : s.entities.contextOf (a.selector.heapContext (s.entities.context k)) =
      a.selector.heapContext (s.entities.contextAt k) := Selector.map_heapContext _ _ _
  have hh : s.entities.ScopedContext (a.selector.heapContext (s.entities.context k)) :=
    fun o ho => hs.entities.context hk o (Selector.mem_of_mem_heapContext ho)
  have hq : ⟨s.entities.contextOf (a.selector.heapContext (s.entities.context k)),
      a.heap.object a.program.toModel site⟩ ∈ F.qobjects := by
    rw [hread]
    exact ⟨_, hF⟩
  obtain ⟨hlocate, hid, hlocated⟩ := advances_locate hs rfl rfl hh hq
  have hextends := hlocate.grows.entities
  rw [hread] at hlocated
  have hplace := hextends.placeOf hs.entities (c := .var k (a.program.site site).lhs) hk
  obtain ⟨hgive, hmem⟩ := advances_give hlocate.sound
    (c := .var k (a.program.site site).lhs) (hextends.isContext hk) hid hplace hlocated hF
  exact ⟨hlocate.trans hgive, hmem⟩

theorem advances_callStatic (hs : s.Sound a F) (hF : a.Closed F) {k : ContextId}
    (hk : s.entities.IsContext k) {i : CallId} (hstatic : (a.program.call i).isStatic = true)
    (hreads : a.Reads F (s.entities.contextAt k) (.invoke i)) :
    Advances a F s (a.callStatic k i s) ∧
      a.Reads (a.callStatic k i s).promised (s.entities.contextAt k) (.invoke i) := by
  rw [callStatic]
  split
  · rename_i hnone
    refine ⟨advances_record hs _, fun _ x hx => ?_⟩
    rw [hnone] at hx
    cases hx
  · rename_i x hx
    have hread := s.entities.contextOf_calleeContext a.selector k i none
    have hscoped := hs.entities.calleeContext hk a.selector i (o := none) (fun _ h => by cases h)
    have hcall := hreads hstatic x hx
    obtain ⟨htarget, hid, htargetAt⟩ := advances_target hs hscoped (by
      rw [hread]
      exact (hF.wires _ hcall).callee)
    have hsite := htarget.grows.entities.qcallOf hs.entities (c := ⟨k, i⟩) hk
    have hcallee := congrArg (Located.mk · x) (htargetAt.trans hread)
    obtain ⟨hrequest, hmem⟩ := advances_requestCall htarget.sound hF (y := ⟨_, x⟩)
      (htarget.grows.entities.isContext hk) hid hsite hcallee rfl hcall
    refine ⟨htarget.trans hrequest, fun _ y hy => ?_⟩
    obtain rfl := Option.some.inj (hx.symm.trans hy)
    exact hmem

theorem advances_read (hs : s.Sound a F) (hF : a.Closed F) {k : ContextId}
    (hk : s.entities.IsContext k) {stmt : Stmt} (hreads : a.Reads F (s.entities.contextAt k) stmt) :
    Advances a F s (a.read k s stmt) ∧
      a.Reads (a.read k s stmt).promised (s.entities.contextAt k) stmt := by
  cases stmt with
  | new site => exact advances_allocate hs hk hreads
  | copy lhs rhs => exact advances_connect hs hF (x := .var k rhs) (y := .var k lhs) hk hk hreads
  | loadStatic lhs field =>
    exact advances_connect hs hF (x := .static field) (y := .var k lhs) trivial hk hreads
  | storeStatic field rhs =>
    exact advances_connect hs hF (x := .var k rhs) (y := .static field) hk trivial hreads
  | invoke i =>
    by_cases hstatic : (a.program.call i).isStatic = true
    · rw [read, if_pos hstatic]
      exact advances_callStatic hs hF hk hstatic hreads
    · rw [read, if_neg hstatic]
      exact ⟨.refl hs, fun h => absurd h hstatic⟩
  | loadField | storeField | loadArray | storeArray | ret => exact ⟨.refl hs, trivial⟩

theorem advances_readAll (hs : s.Sound a F) (hF : a.Closed F) {k : ContextId}
    (hk : s.entities.IsContext k) {l : List Stmt}
    (hreads : ∀ stmt ∈ l, a.Reads F (s.entities.contextAt k) stmt) :
    Advances a F s (l.foldl (a.read k) s) ∧ ∀ stmt ∈ l,
      a.Reads (l.foldl (a.read k) s).promised (s.entities.contextAt k) stmt := by
  refine Advances.foldl (fun stmt G => a.Reads G (s.entities.contextAt k) stmt)
    (fun _ _ _ h hr => hr.mono h) hs fun u hu stmt hstmt => ?_
  have hextends := hu.grows.entities
  have hread := hreads stmt hstmt
  rw [← hextends.contextAt hs.entities hk] at hread ⊢
  exact advances_read hu.sound hF (hextends.isContext hk) hread

/-- A method that becomes reachable is read at once. -/
theorem advances_enter (hs : s.Sound a F) (hF : a.Closed F) {x : QMethodId}
    (hx : s.entities.ReachedIn F x) :
    Advances a F s (a.enter x s) ∧ x ∈ (a.enter x s).calls.reachable.toList := by
  rw [enter]
  split
  · rename_i hmem
    exact ⟨.refl hs, Numbering.contains_iff.1 hmem⟩
  · rw [← Array.foldl_toList]
    have hreachable : ∀ y, y ∈ (s.calls.addReachable x).reachable.toList ↔
        y ∈ s.calls.reachable.toList ∨ y = x := fun y => Numbering.mem_toList_insert
    have hgrows : s.Grows (({ s with calls := s.calls.addReachable x } : State).record (.reached x)) :=
      { Grows.refl s with reachable := fun y hy => (hreachable y).2 (Or.inl hy) }
    have hsound : (({ s with calls := s.calls.addReachable x } : State).record
        (.reached x)).Sound a F := by
      refine { hs with
        calls := ⟨hs.calls.hasEdge_iff, hs.calls.distinct⟩
        reachable := fun y hy => ?_ }
      rcases (hreachable y).1 hy with hold | rfl
      · exact hs.reachable y hold
      · exact hx
    obtain ⟨hbody, hreads⟩ := advances_readAll hsound hF (hs.entities.qmethod hx.1)
      (l := (a.program.method (s.entities.qmethod x).item).body.toList) fun stmt hstmt =>
        hF.reads _ hx.2 stmt (Array.mem_toList_iff.1 hstmt)
    refine ⟨⟨hgrows.trans hbody.grows, hbody.sound, hbody.settled, fun y hy => ?_, hbody.meets,
      hbody.wires⟩, hbody.grows.reachable x ((hreachable x).2 (Or.inr rfl))⟩
    rcases hbody.reads y hy with hold | hread
    · apply ((hreachable y).1 hold).imp_right
      intro hnew
      rw [hnew]
      exact read_of_reads (hbody.grows.entities.qmethodAt hs.entities hx.1)
        fun stmt hstmt => hreads stmt (Array.mem_toList_iff.2 hstmt)
    · exact Or.inr hread

theorem advances_bindThis (hs : s.Sound a F) {k : ContextId} (hk : s.entities.IsContext k)
    {o : QObjectId} (ho : s.entities.IsQObject o) {x : MethodId} {c : ContextOf HeapObject}
    {q : Located HeapObject} (hc : s.entities.contextAt k = c) (hq : s.entities.qobjectAt o = q)
    (hF : ∀ this, (a.program.method x).this = some this → (.var c this, q) ∈ F.pointsTo) {u : State}
    (hu : u = match (a.program.method x).this with
      | none => s
      | some this => s.give (.var k this) o) :
    Advances a F s u ∧
      ∀ this, (a.program.method x).this = some this → (.var c this, q) ∈ u.promised.pointsTo := by
  subst hu
  cases hthis : (a.program.method x).this with
  | none => exact ⟨.refl hs, fun this h => by cases h⟩
  | some this =>
    obtain ⟨hgive, hmem⟩ := advances_give hs (c := .var k this) hk ho
      (congrArg (CellOf.var · this) hc) hq (hF this hthis)
    refine ⟨hgive, fun w hw => ?_⟩
    cases hw
    exact hmem

theorem advances_callOn (hs : s.Sound a F) (hF : a.Closed F) {k : ContextId}
    (hk : s.entities.IsContext k) {o : QObjectId} (ho : s.entities.IsQObject o) {i : CallId}
    {v : VarId} (hv : (a.program.call i).receiver = some v)
    (hmeets : a.Meets F (s.entities.contextAt k) v (s.entities.qobjectAt o) (.invoke i)) :
    Advances a F s (a.callOn k o s i) ∧
      a.Meets (a.callOn k o s i).promised (s.entities.contextAt k) v (s.entities.qobjectAt o)
        (.invoke i) := by
  have hcallee : ∀ y, a.program.callee? (some (s.entities.qobjectAt o).item.type)
      (a.program.call i) = some y → a.program.callee?
        (some (s.entities.object (s.entities.qobject o).item).type) (a.program.call i) = some y :=
    fun _ h => h
  rw [callOn]
  split
  · rename_i hnone
    refine ⟨advances_record hs _, fun _ y hy => ?_⟩
    cases hnone.symm.trans (hcallee y hy)
  · rename_i x hx
    obtain ⟨hcall, hthis⟩ := hmeets hv x hx
    have hread := s.entities.contextOf_contextOn a k i o
    have hscoped := hs.entities.calleeContext_receiver hk a.selector i ho
    obtain ⟨htarget, hid, htargetAt⟩ := advances_target hs hscoped (by
      rw [hread]
      exact (hF.wires _ hcall).callee)
    have hextends := htarget.grows.entities
    obtain ⟨hbind, hbound⟩ := advances_bindThis htarget.sound hid (hextends.isQObject ho)
      (htargetAt.trans hread) (hextends.qobjectAt hs.entities ho) hthis rfl
    have hboth := htarget.trans hbind
    have hsite := hboth.grows.entities.qcallOf hs.entities (c := ⟨k, i⟩) hk
    have hinner := (hbind.grows.entities.contextAt htarget.sound.entities hid).trans
      (htargetAt.trans hread)
    obtain ⟨hrequest, hmem⟩ := advances_requestCall hbind.sound hF (y := ⟨_, x⟩)
      (hboth.grows.entities.isContext hk) (hbind.grows.entities.isContext hid) hsite
      (congrArg (Located.mk · x) hinner) rfl hcall
    refine ⟨hboth.trans hrequest, fun _ y hy => ?_⟩
    obtain rfl := Option.some.inj (hx.symm.trans (hcallee y hy))
    exact ⟨hmem, fun this h => Facts.pointsTo_subset (hrequest.promised_le hbind.sound) (hbound this h)⟩

/-- What the statements that use a variable ask for when they meet an object, put as flow edges. -/
theorem flows_subset_of_meets (hp : a.program.Indexed) {c : ContextOf HeapObject} {v : VarId}
    {q : Located HeapObject} {G : Facts}
    (h : ∀ stmt ∈ (a.program.method (a.program.var v).method).body, a.Meets G c v q stmt)
    {f : Place × Place} (hf : f ∈ (a.program.usesOf v).flows c q) : f ∈ G.flow := by
  rcases Uses.mem_flows.1 hf with ⟨field, rhs, hmem, rfl⟩ | ⟨lhs, field, hmem, rfl⟩ |
    ⟨rhs, hmem, rfl⟩ | ⟨lhs, hmem, rfl⟩
  · exact h _ ((hp.storeFields v field rhs).1 hmem) rfl
  · exact h _ ((hp.loadFields v lhs field).1 hmem) rfl
  · exact h _ ((hp.storeArrays v rhs).1 hmem) rfl
  · exact h _ ((hp.loadArrays v lhs).1 hmem) rfl

theorem meets_of_flows_subset (hp : a.program.Indexed) {c : ContextOf HeapObject} {v : VarId}
    {q : Located HeapObject} {G : Facts} (hflow : ∀ f ∈ (a.program.usesOf v).flows c q, f ∈ G.flow)
    (hcalls : ∀ i ∈ (a.program.usesOf v).calls, a.Meets G c v q (.invoke i)) {stmt : Stmt}
    (hstmt : stmt ∈ (a.program.method (a.program.var v).method).body) : a.Meets G c v q stmt := by
  cases stmt with
  | storeField base field rhs =>
    rintro rfl
    exact hflow _ (Uses.mem_flows.2 (Or.inl ⟨field, rhs, (hp.storeFields _ _ _).2 hstmt, rfl⟩))
  | loadField lhs base field =>
    rintro rfl
    exact hflow _
      (Uses.mem_flows.2 (Or.inr (Or.inl ⟨lhs, field, (hp.loadFields _ _ _).2 hstmt, rfl⟩)))
  | storeArray base rhs =>
    rintro rfl
    exact hflow _
      (Uses.mem_flows.2 (Or.inr (Or.inr (Or.inl ⟨rhs, (hp.storeArrays _ _).2 hstmt, rfl⟩))))
  | loadArray lhs base =>
    rintro rfl
    exact hflow _
      (Uses.mem_flows.2 (Or.inr (Or.inr (Or.inr ⟨lhs, (hp.loadArrays _ _).2 hstmt, rfl⟩))))
  | invoke i => exact fun hv => hcalls i ((hp.calls v i).2 ⟨hstmt, hv⟩) hv
  | new | copy | loadStatic | storeStatic | ret => trivial

theorem advances_meet (hp : a.program.Indexed) (hs : s.Sound a F) (hF : a.Closed F) {k : ContextId}
    (hk : s.entities.IsContext k) {v : VarId} {o : QObjectId} (ho : s.entities.IsQObject o)
    (hmeets : ∀ stmt ∈ (a.program.method (a.program.var v).method).body,
      a.Meets F (s.entities.contextAt k) v (s.entities.qobjectAt o) stmt) :
    Advances a F s (a.meet k v s o) ∧
      ∀ stmt ∈ (a.program.method (a.program.var v).method).body,
        a.Meets (a.meet k v s o).promised (s.entities.contextAt k) v (s.entities.qobjectAt o)
          stmt := by
  rw [meet, ← Array.foldl_toList]
  have hscoped : ∀ f ∈ (a.program.usesOf v).flows k o,
      s.entities.ScopedCell f.1 ∧ s.entities.ScopedCell f.2 := by
    intro f hf
    rcases Uses.mem_flows.1 hf with ⟨_, _, _, rfl⟩ | ⟨_, _, _, rfl⟩ | ⟨_, _, rfl⟩ | ⟨_, _, rfl⟩
    · exact ⟨hk, ho⟩
    · exact ⟨ho, hk⟩
    · exact ⟨hk, ho⟩
    · exact ⟨ho, hk⟩
  obtain ⟨hconnect, hflow⟩ := advances_connectAll hs hF hscoped (Uses.map_flows _ _ _ _ _)
    fun f hf => flows_subset_of_meets hp hmeets hf
  obtain ⟨hcalls, hmet⟩ := Advances.foldl
    (fun i G => a.Meets G (s.entities.contextAt k) v (s.entities.qobjectAt o) (.invoke i))
    (fun _ _ _ h hm => hm.mono h) hconnect.sound fun u hu i hi => by
      obtain ⟨hstmt, hv⟩ := (hp.calls v i).1 (Array.mem_toList_iff.1 hi)
      have hextends := (hconnect.trans hu).grows.entities
      have hm := hmeets _ hstmt
      rw [← hextends.contextAt hs.entities hk, ← hextends.qobjectAt hs.entities ho] at hm ⊢
      exact advances_callOn hu.sound hF (hextends.isContext hk) (hextends.isQObject ho) hv hm
  refine ⟨hconnect.trans hcalls, fun stmt hstmt => meets_of_flows_subset hp ?_ ?_ hstmt⟩
  · intro f hf
    exact Facts.flow_subset (hcalls.promised_le hconnect.sound) (hflow f hf)
  · intro i hi
    exact hmet i (Array.mem_toList_iff.2 hi)

/-! ### Wiring a call edge -/

section Wiring

variable {e : LocatedEdge} {k l : ContextId}

theorem advances_passArguments (hs : s.Sound a F) (hF : a.Closed F) (he : e ∈ F.calls)
    (hk : s.entities.IsContext k) (hl : s.entities.IsContext l)
    (hkAt : s.entities.contextAt k = e.site.context)
    (hlAt : s.entities.contextAt l = e.callee.context) {u : State}
    (hu : u = s.connectAll (argumentFlows (a.program.call e.site.item) k
      (a.program.method e.callee.item) l)) :
    Advances a F s u ∧ ∀ arg param, (arg, param) ∈ (a.program.call e.site.item).args.zip
        (a.program.method e.callee.item).params.toList →
      (.var e.site.context arg, .var e.callee.context param) ∈ u.promised.flow := by
  have hscoped : ∀ f ∈ argumentFlows (a.program.call e.site.item) k
      (a.program.method e.callee.item) l, s.entities.ScopedCell f.1 ∧ s.entities.ScopedCell f.2 := by
    intro f hf
    obtain ⟨arg, param, -, rfl⟩ := mem_argumentFlows.1 hf
    exact ⟨hk, hl⟩
  obtain ⟨hadvances, hflow⟩ := advances_connectAll hs hF hscoped (map_argumentFlows _ _ _ _ _ _)
    fun f hf => by
      obtain ⟨arg, param, hmem, rfl⟩ := mem_argumentFlows.1 hf
      rw [hkAt, hlAt]
      exact (hF.wires e he).argument arg param hmem
  rw [hkAt, hlAt, ← hu] at hflow
  exact ⟨hu ▸ hadvances, fun arg param hmem => hflow _ (mem_argumentFlows.2 ⟨arg, param, hmem, rfl⟩)⟩

theorem advances_returnResult (hs : s.Sound a F) (hF : a.Closed F) (he : e ∈ F.calls)
    (hk : s.entities.IsContext k) (hl : s.entities.IsContext l)
    (hkAt : s.entities.contextAt k = e.site.context)
    (hlAt : s.entities.contextAt l = e.callee.context) {u : State}
    (hu : u = returnResult (a.program.call e.site.item) k (a.program.method e.callee.item) l s) :
    Advances a F s u ∧ ∀ r ∈ (a.program.call e.site.item).result,
      .var k r ∈ u.entities.cells.toList ∧ ∀ v ∈ (a.program.method e.callee.item).returns,
        (.var e.callee.context v, .var e.site.context r) ∈ u.promised.flow := by
  rw [returnResult] at hu
  cases hresult : (a.program.call e.site.item).result with
  | none =>
    rw [hresult] at hu
    exact ⟨hu ▸ .refl hs, fun r hr => by cases hr⟩
  | some r =>
    rw [hresult] at hu
    change u = (s.addCell (.var k r)).connectAll
      (returnFlows r k (a.program.method e.callee.item) l) at hu
    have hcell : Advances a F s (s.addCell (.var k r)) := by
      refine advances_addCell hs hk (Or.inr (Or.inr ⟨e, he, r, hresult, ?_⟩))
      rw [← hkAt]
      rfl
    have hextends := hcell.grows.entities
    have hscoped : ∀ f ∈ returnFlows r k (a.program.method e.callee.item) l,
        (s.addCell (.var k r)).entities.ScopedCell f.1 ∧
          (s.addCell (.var k r)).entities.ScopedCell f.2 := by
      intro f hf
      obtain ⟨v, -, rfl⟩ := mem_returnFlows.1 hf
      exact ⟨hextends.isContext hl, hextends.isContext hk⟩
    have hkAt' := (hextends.contextAt hs.entities hk).trans hkAt
    have hlAt' := (hextends.contextAt hs.entities hl).trans hlAt
    obtain ⟨hadvances, hflow⟩ := advances_connectAll hcell.sound hF hscoped
      (map_returnFlows _ _ _ _ _ _) fun f hf => by
        obtain ⟨v, hv, rfl⟩ := mem_returnFlows.1 hf
        rw [hkAt', hlAt']
        exact (hF.wires e he).result r hresult v hv
    rw [hkAt', hlAt', ← hu] at hflow
    refine ⟨hu ▸ hcell.trans hadvances, fun r' hr' => ?_⟩
    obtain rfl := Option.some.inj hr'
    refine ⟨?_, fun v hv => hflow _ (mem_returnFlows.2 ⟨v, hv, rfl⟩)⟩
    rw [hu]
    exact hadvances.grows.entities.cells.subset (mem_addCell _ _)

end Wiring

end Analysis

end PointsTo
