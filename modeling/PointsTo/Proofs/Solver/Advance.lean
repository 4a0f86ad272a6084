import PointsTo.Proofs.Solver.Sound

/-! Advancing. A state advances to another if nothing is lost, the facts are not left, and everything
new is seen to: the bodies of new reachable methods are read, new objects are met by the statements that
use their variable, new call edges are wired. A run does nothing but advance, so what it establishes is
closed up to what it has promised. -/

namespace PointsTo

namespace State

section Seen

variable (a : Analysis) (s : State)

def Read (x : QMethodId) : Prop :=
  ∀ stmt ∈ (a.program.method (s.entities.qmethodAt x).item).body,
    a.Reads s.promised (s.entities.qmethodAt x).context stmt

def Met (c : CellId) (o : QObjectId) : Prop :=
  ∀ k v, s.entities.cellAt c = .var k v →
    ∀ stmt ∈ (a.program.method (a.program.var v).method).body,
      a.Meets s.promised k v (s.entities.qobjectAt o) stmt

/-- What a call edge asks for is there or promised, its call site has been placed in a method, and the
variable for the result is numbered. -/
structure Wired (e : QCallEdge) : Prop where
  wires : a.Wires s.promised (s.entities.edgeAt e)
  placed : ∃ x, s.calls.container? e.site = some x
  result : ∀ r ∈ (a.program.call (s.entities.qcall e.site).item).result,
    .var (s.entities.qcall e.site).context r ∈ s.entities.cells.toList

end Seen

/-- The second state comes from the first, and what is new in it is seen to. -/
structure Advances (a : Analysis) (F : Facts) (s u : State) : Prop where
  grows : s.Grows u
  sound : u.Sound a F
  settled : s.FlowSettled → u.FlowSettled
  reads : ∀ x ∈ u.calls.reachable.toList, x ∈ s.calls.reachable.toList ∨ u.Read a x
  meets : ∀ c, ∀ o ∈ u.entities.pointsTo c, o ∈ s.entities.pointsTo c ∨ u.Met a c o
  wires : ∀ e ∈ u.calls.edges.toList, e ∈ s.calls.edges.toList ∨ u.Wired a e

variable {a : Analysis} {F : Facts} {s u v : State}

/-! ### What is seen to stays so -/

theorem read_of_reads {x : QMethodId} {y : Located MethodId} (hy : s.entities.qmethodAt x = y)
    (h : ∀ stmt ∈ (a.program.method y.item).body, a.Reads s.promised y.context stmt) :
    s.Read a x := by
  subst hy
  exact h

theorem met_of_meets {c : CellId} {o : QObjectId} {k : ContextOf HeapObject} {v : VarId}
    {q : Located HeapObject} (hc : s.entities.cellAt c = .var k v) (hq : s.entities.qobjectAt o = q)
    (h : ∀ stmt ∈ (a.program.method (a.program.var v).method).body, a.Meets s.promised k v q stmt) :
    s.Met a c o := by
  intro l w hw
  obtain ⟨rfl, rfl⟩ := CellOf.var.inj (hc.symm.trans hw)
  subst hq
  exact h

theorem Read.mono {x : QMethodId} (h : s.Read a x) (hgrows : s.Grows u) (hs : s.Scoped)
    (hx : s.entities.IsQMethod x) : u.Read a x := by
  intro stmt hstmt
  rw [hgrows.entities.qmethodAt hs.entities hx] at hstmt ⊢
  exact (h stmt hstmt).mono (hgrows.promised_le hs)

theorem Met.mono {c : CellId} {o : QObjectId} (h : s.Met a c o) (hgrows : s.Grows u) (hs : s.Scoped)
    (hc : s.entities.IsCell c) (ho : s.entities.IsQObject o) : u.Met a c o := by
  intro k v hv stmt hstmt
  rw [hgrows.entities.cellAt hs.entities hc] at hv
  rw [hgrows.entities.qobjectAt hs.entities ho]
  exact (h k v hv stmt hstmt).mono (hgrows.promised_le hs)

theorem Wired.mono {e : QCallEdge} (h : s.Wired a e) (hgrows : s.Grows u) (hs : s.Scoped)
    (hsite : s.entities.IsQCall e.site) (hcallee : s.entities.IsQMethod e.callee) : u.Wired a e where
  wires := by
    rw [hgrows.entities.edgeAt hs.entities hsite hcallee]
    exact h.wires.mono (hgrows.promised_le hs)
  placed := by
    obtain ⟨x, hx⟩ := h.placed
    exact hgrows.placed _ x hx
  result := by
    rw [hgrows.entities.qcall hsite]
    intro r hr
    exact hgrows.entities.cells.subset (h.result r hr)

namespace Advances

theorem refl (hs : s.Sound a F) : Advances a F s s where
  grows := .refl s
  sound := hs
  settled h := h
  reads _ hx := Or.inl hx
  meets _ _ ho := Or.inl ho
  wires _ he := Or.inl he

theorem trans (h : Advances a F s u) (h' : Advances a F u v) : Advances a F s v where
  grows := h.grows.trans h'.grows
  sound := h'.sound
  settled hsettled := h'.settled (h.settled hsettled)
  reads x hx := by
    rcases h'.reads x hx with hx | hread
    · apply (h.reads x hx).imp_right
      intro hread
      exact hread.mono h'.grows h.sound.scope (h.sound.reachable x hx).1
    · exact Or.inr hread
  meets c o ho := by
    rcases h'.meets c o ho with ho | hmet
    · apply (h.meets c o ho).imp_right
      intro hmet
      obtain ⟨hc, hobject, -⟩ := h.sound.due c o (Or.inl ho)
      exact hmet.mono h'.grows h.sound.scope hc hobject
    · exact Or.inr hmet
  wires e he := by
    rcases h'.wires e he with he | hwired
    · apply (h.wires e he).imp_right
      intro hwired
      obtain ⟨hsite, hcallee, -⟩ := h.sound.requested e (Or.inl he)
      exact hwired.mono h'.grows h.sound.scope hsite hcallee
    · exact Or.inr hwired

theorem promised_le (h : Advances a F s u) (hs : s.Sound a F) : s.promised ≤ u.promised :=
  h.grows.promised_le hs.scope

/-- Nothing has to be seen to where no method, object or call edge is established. -/
theorem of_grows (hgrows : s.Grows u) (hsound : u.Sound a F)
    (hsettled : s.FlowSettled → u.FlowSettled) (hreachable : u.calls.reachable = s.calls.reachable)
    (hpointsTo : ∀ c, u.entities.pointsTo c = s.entities.pointsTo c)
    (hedges : u.calls.edges = s.calls.edges) : Advances a F s u where
  grows := hgrows
  sound := hsound
  settled := hsettled
  reads _ hx := Or.inl (hreachable ▸ hx)
  meets c _ ho := Or.inl (hpointsTo c ▸ ho)
  wires _ he := Or.inl (hedges ▸ he)

/-- Advancing for one element of a list after the other, where each achieves something that later ones
leave in place. -/
theorem foldl {β : Type} {op : State → β → State} {l : List β} (post : β → Facts → Prop)
    (hmono : ∀ b F G, F ≤ G → post b F → post b G) (hs : s.Sound a F)
    (hstep : ∀ u, Advances a F s u → ∀ b ∈ l, Advances a F u (op u b) ∧ post b (op u b).promised) :
    Advances a F s (l.foldl op s) ∧ ∀ b ∈ l, post b (l.foldl op s).promised := by
  suffices h : ∀ u, Advances a F s u → Advances a F u (l.foldl op u) ∧
      ∀ b ∈ l, post b (l.foldl op u).promised from h s (.refl hs)
  induction l with
  | nil => exact fun u hu => ⟨.refl hu.sound, fun b hb => absurd hb List.not_mem_nil⟩
  | cons b l ih =>
    intro u hu
    obtain ⟨hadvances, hpost⟩ := hstep u hu b List.mem_cons_self
    obtain ⟨hrest, hposts⟩ := ih (fun v hv c hc => hstep v hv c (List.mem_cons_of_mem _ hc))
      (op u b) (hu.trans hadvances)
    refine ⟨hadvances.trans hrest, fun c hc => ?_⟩
    rcases List.mem_cons.1 hc with rfl | hc
    · exact hmono _ _ _ (hrest.promised_le hadvances.sound) hpost
    · exact hposts c hc

end Advances

/-! ### Numbering entities -/

/-- Numbering more entities, of which the facts speak. -/
theorem advances_extend {t : Entities} (hs : s.Sound a F) (hextends : s.entities.Extends t)
    (hpointsTo : ∀ c, t.pointsTo c = s.entities.pointsTo c) (hscoped : t.Scoped)
    (hnamed : t.Named a F) : Advances a F s { s with entities := t } := by
  have hdue : ∀ c o, ({ s with entities := t } : State).Due c o ↔ s.Due c o := by
    intro c o
    rw [Due, hpointsTo]
    exact Iff.rfl
  refine .of_grows ?_ (hs.extend hextends hpointsTo hscoped hnamed) ?_ rfl hpointsTo rfl
  · exact { Grows.refl s with
      entities := hextends
      pointsTo := fun c o ho => (hpointsTo c).symm ▸ ho
      due := fun c o => (hdue c o).2 }
  · intro hsettled x y hxy o ho
    exact (hdue y o).2 (hsettled x y hxy o (hpointsTo x ▸ ho))

theorem advances_addContext (hs : s.Sound a F) {c : Context} (hc : s.entities.ScopedContext c)
    (hF : s.entities.contextOf c ∈ F.contexts) : Advances a F s (s.addContext c) :=
  advances_extend hs (Entities.extends_addContext _ _) (fun _ => rfl) (hs.entities.addContext hc)
    (hs.named.addContext hs.entities hF)

theorem advances_addObject (hs : s.Sound a F) {o : HeapObject} (hF : o ∈ F.objects) :
    Advances a F s (s.addObject o) :=
  advances_extend hs (Entities.extends_addObject _ _) (fun _ => rfl) (hs.entities.addObject o)
    (hs.named.addObject hs.entities hF)

theorem advances_addQObject (hs : s.Sound a F) {o : Qualified .object}
    (hc : s.entities.IsContext o.context) (ho : s.entities.IsObject o.item)
    (hF : s.entities.qobjectOf o ∈ F.qobjects) : Advances a F s (s.addQObject o) :=
  advances_extend hs (Entities.extends_addQObject _ _) (fun _ => rfl) (hs.entities.addQObject hc ho)
    (hs.named.addQObject hs.entities hF)

theorem advances_addQMethod (hs : s.Sound a F) {x : Qualified .method}
    (hx : s.entities.IsContext x.context) (hF : s.entities.qmethodOf x ∈ a.qmethods F) :
    Advances a F s (s.addQMethod x) :=
  advances_extend hs (Entities.extends_addQMethod _ _) (fun _ => rfl) (hs.entities.addQMethod hx)
    (hs.named.addQMethod hF)

theorem advances_addQCall (hs : s.Sound a F) {c : Qualified .call}
    (hc : s.entities.IsContext c.context) (hF : s.entities.qcallOf c ∈ F.qcalls) :
    Advances a F s (s.addQCall c) :=
  advances_extend hs (Entities.extends_addQCall _ _) (fun _ => rfl) (hs.entities.addQCall hc)
    (hs.named.addQCall hF)

theorem advances_addCell (hs : s.Sound a F) {c : Cell} (hc : s.entities.ScopedCell c)
    (hF : s.entities.placeOf c ∈ a.cells F) : Advances a F s (s.addCell c) :=
  advances_extend hs (Entities.extends_addCell _ _) (Entities.pointsTo_addCell _ _)
    (hs.entities.addCell hc) (hs.named.addCell hF)

/-! ### Leaving work and adding flow edges -/

theorem advances_record (hs : s.Sound a F) (e : Event) : Advances a F s (s.record e) :=
  .of_grows { Grows.refl s with } { hs with } (fun h => h) rfl (fun _ => rfl) rfl

theorem due_send {c d : CellId} {objects : IdSet (.qualified .object)} {o : QObjectId} :
    (s.send c objects).Due d o ↔ s.Due d o ∨ d = c ∧ o ∈ objects := by
  rw [Due, Due, or_assoc, send, WorkList.mem_pendingFor_addObjects]

theorem advances_send (hs : s.Sound a F) {c : CellId} {objects : IdSet (.qualified .object)}
    (hF : ∀ o ∈ objects, s.entities.HoldsIn F c o) : Advances a F s (s.send c objects) := by
  have hrequested : ∀ e, (s.send c objects).Requested e ↔ s.Requested e := fun e => by
    simp [Requested, send]
  refine .of_grows ?_ ?_ ?_ rfl (fun _ => rfl) rfl
  · exact { Grows.refl s with
      due := fun d o ho => due_send.2 (Or.inl ho)
      requested := fun e => (hrequested e).2 }
  · refine { hs with
      work := hs.work.addObjects c objects
      requested := fun e he => hs.requested e ((hrequested e).1 he)
      due := fun d o ho => ?_ }
    rcases due_send.1 ho with hold | ⟨rfl, hnew⟩
    · exact hs.due d o hold
    · exact hF o hnew
  · intro hsettled x y hxy o ho
    exact due_send.2 (Or.inl (hsettled x y hxy o ho))

/-- Facts that hold what flows along their edges are not left by the objects that a new edge carries. -/
theorem advances_addFlow (hs : s.Sound a F) (hF : a.Closed F) {x y : CellId}
    (hflow : s.entities.FlowsIn F x y) :
    Advances a F s (s.addFlow x y) ∧ (s.addFlow x y).flow.hasEdge x y = true := by
  by_cases hedge : s.flow.hasEdge x y = true
  · rw [addFlow, if_pos hedge]
    exact ⟨.refl hs, hedge⟩
  · have hsend : Advances a F s (s.send y (s.entities.pointsTo x)) := by
      apply advances_send hs
      intro o ho
      obtain ⟨-, hobject, hheld⟩ := hs.due x o (Or.inl ho)
      exact ⟨hflow.2.1, hobject, hF.flows _ _ hflow.2.2 _ hheld⟩
    rw [addFlow, if_neg hedge]
    refine ⟨.of_grows ?_ ?_ ?_ rfl (fun _ => rfl) rfl, FlowGraph.hasEdge_insert.2 (Or.inr ⟨rfl, rfl⟩)⟩
    · exact { hsend.grows with flow := fun _ _ h => FlowGraph.hasEdge_insert.2 (Or.inl h) }
    · refine { hsend.sound with flow := fun p q hpq => ?_ }
      rcases FlowGraph.hasEdge_insert.1 hpq with hpq | ⟨rfl, rfl⟩
      · exact hs.flow p q hpq
      · exact hflow
    · intro hsettled p q hpq o ho
      rcases FlowGraph.hasEdge_insert.1 hpq with hpq | ⟨rfl, rfl⟩
      · exact due_send.2 (Or.inl (hsettled p q hpq o ho))
      · exact due_send.2 (Or.inr ⟨rfl, ho⟩)

theorem advances_addCall (hs : s.Sound a F) {e : QCallEdge} (he : s.entities.CalledIn a F e) :
    Advances a F s { s with work := s.work.addCall e } := by
  have hrequested : ∀ f, ({ s with work := s.work.addCall e } : State).Requested f ↔
      s.Requested f ∨ f = e := fun f => by
    simp [Requested, WorkList.addCall, or_assoc]
  refine .of_grows ?_ ?_ (fun h => h) rfl (fun _ => rfl) rfl
  · exact { Grows.refl s with requested := fun f hf => (hrequested f).2 (Or.inl hf) }
  · refine { hs with work := hs.work.addCall e, requested := fun f hf => ?_ }
    rcases (hrequested f).1 hf with hf | rfl
    · exact hs.requested f hf
    · exact he

theorem advances_setContainer (hs : s.Sound a F) {c : QCallId} {x : QMethodId}
    (hx : s.entities.PlacedIn a c x) :
    Advances a F s { s with calls := s.calls.setContainer c x } := by
  refine .of_grows ?_ ?_ (fun h => h) rfl (fun _ => rfl) rfl
  · refine { Grows.refl s with placed := fun d y hy => ?_ }
    by_cases hd : c = d
    · exact ⟨x, CallGraph.container?_setContainer.2 (Or.inl ⟨hd, rfl⟩)⟩
    · exact ⟨y, CallGraph.container?_setContainer.2 (Or.inr ⟨hd, hy⟩)⟩
  · refine { hs with
      calls := ⟨hs.calls.hasEdge_iff, hs.calls.distinct⟩
      containers := fun d y hy => ?_ }
    rcases CallGraph.container?_setContainer.1 hy with ⟨rfl, rfl⟩ | ⟨-, hy⟩
    · exact hx
    · exact hs.containers d y hy

end State

end PointsTo
