import PointsTo.Proofs.Solver.Operations

/-! The steps of the solver. Taking a work item off the list and dealing with it advances, so a run
does. -/

namespace PointsTo

namespace State

variable {a : Analysis} {F : Facts} {s : State}

/-- Objects enter a cell and are left for the cells it flows into. -/
def spread (s : State) (c : CellId) (objects : IdSet (.qualified .object)) : State :=
  { s with
    entities := s.entities.grow c objects
    work := (s.flow.successors c).foldl (fun w d => w.addObjects d objects) s.work }

theorem spread_empty (s : State) (c : CellId) : s.spread c ∅ = s := by
  have hwork : ∀ l : List CellId, l.foldl (fun w d => w.addObjects d ∅) s.work = s.work := by
    intro l
    induction l with
    | nil => rfl
    | cons d l ih =>
      rw [List.foldl_cons, WorkList.addObjects, if_pos (IdSet.isEmpty_iff.2 rfl)]
      exact ih
  rw [spread, Entities.grow_empty, hwork]

theorem foldl_send (cells : List CellId) (objects : IdSet (.qualified .object)) (s : State) :
    cells.foldl (fun s d => s.send d objects) s =
      { s with work := cells.foldl (fun w d => w.addObjects d objects) s.work } := by
  induction cells generalizing s with
  | nil => rfl
  | cons d cells ih => exact ih (s.send d objects)

/-- Where nothing enters there is nothing to be left for other cells. -/
theorem spread_eq (s : State) (c : CellId) (objects : IdSet (.qualified .object)) :
    s.spread c objects = if objects.isEmpty then s
      else (s.flow.successors c).foldl (fun s d => s.send d objects)
        { s with entities := s.entities.grow c objects } := by
  by_cases hempty : objects.isEmpty = true
  · rw [if_pos hempty, IdSet.isEmpty_iff.1 hempty, spread_empty]
  · rw [if_neg hempty, foldl_send]
    rfl

section Spread

variable {c : CellId} {objects : IdSet (.qualified .object)}

theorem mem_pointsTo_spread (hc : s.entities.IsCell c) {d : CellId} {o : QObjectId} :
    o ∈ (s.spread c objects).entities.pointsTo d ↔
      o ∈ s.entities.pointsTo d ∨ d = c ∧ o ∈ objects := Entities.mem_pointsTo_grow _ hc

theorem mem_pendingFor_spread {d : CellId} {o : QObjectId} :
    o ∈ (s.spread c objects).work.pendingFor d ↔
      o ∈ s.work.pendingFor d ∨ s.flow.hasEdge c d = true ∧ o ∈ objects := by
  rw [spread, WorkList.mem_pendingFor_foldl_addObjects, FlowGraph.mem_successors]

theorem requested_spread {e : QCallEdge} : (s.spread c objects).Requested e ↔ s.Requested e := by
  rw [Requested, Requested, spread, WorkList.calls_foldl_addObjects]

end Spread

/-- A state without one work item, whose rest is left. -/
def without (s : State) (rest : WorkList) : State :=
  { s with work := rest, processed := s.processed + 1 }

/-! ### Taking up objects -/

/-- Something is pending for each cell that waits. -/
theorem Scoped.isCell_of_waiting (hs : s.Scoped) {c : CellId} (hc : c ∈ s.work.waiting.toList) :
    s.entities.IsCell c := by
  obtain ⟨o, ho⟩ := IdSet.exists_mem_iff.2 (hs.work.nonempty c hc)
  exact (hs.due c o (Or.inr ho)).1

section Delivery

variable {c : CellId} {objects : IdSet (.qualified .object)} {rest : WorkList}
  (hpolled : s.work.Polled (.objects c objects) rest)

include hpolled

theorem isCell_of_polled (hs : s.Scoped) : s.entities.IsCell c :=
  hs.isCell_of_waiting hpolled.of_objects.2.1

/-- What is taken off the list for a cell is in the cell now, and due wherever the cell flows into. -/
theorem grows_delivered (hs : s.Scoped) :
    s.Grows ((s.without rest).spread c (objects \ s.entities.pointsTo c)) := by
  have hc := isCell_of_polled hpolled hs
  obtain ⟨rfl, -, hcalls, hpending⟩ := hpolled.of_objects
  refine { Grows.refl s with
    entities := Entities.extends_grow _ _ _
    pointsTo := fun d o ho => (mem_pointsTo_spread hc).2 (Or.inl ho)
    due := fun d o ho => ?_
    requested := fun e he => requested_spread.2 ?_ }
  · rcases ho with ho | ho
    · exact Or.inl ((mem_pointsTo_spread hc).2 (Or.inl ho))
    · by_cases hd : d = c
      · refine Or.inl ((mem_pointsTo_spread hc).2 ?_)
        rw [hd] at ho ⊢
        by_cases hold : o ∈ s.entities.pointsTo c
        · exact Or.inl hold
        · exact Or.inr ⟨rfl, IdSet.mem_sdiff.2 ⟨ho, hold⟩⟩
      · exact Or.inr (mem_pendingFor_spread.2 (Or.inl ((hpending d o).2 ⟨ho, hd⟩)))
  · exact he.imp_right fun h => by rwa [without, hcalls]

theorem sound_delivered {a : Analysis} {F : Facts} (hs : s.Sound a F) (hF : a.Closed F) :
    ((s.without rest).spread c (objects \ s.entities.pointsTo c)).Sound a F := by
  have hc := isCell_of_polled hpolled hs.scope
  have hcoherent := hs.work.poll hpolled
  obtain ⟨rfl, -, hcalls, hpending⟩ := hpolled.of_objects
  have hnew : ∀ o ∈ s.work.pendingFor c \ s.entities.pointsTo c, s.entities.HoldsIn F c o :=
    fun o ho => hs.due c o (Or.inr (IdSet.mem_sdiff.1 ho).1)
  refine { hs with
    entities := hs.entities.grow hc fun o ho => (hnew o ho).2.1
    named := { hs.named with }
    work := hcoherent.foldl_addObjects _
    requested := fun e he => hs.requested e ?_
    due := fun d o ho => ?_ }
  · apply (requested_spread.1 he).imp_right
    intro h
    rwa [without, hcalls] at h
  · rcases ho with ho | ho
    · rcases (mem_pointsTo_spread hc).1 ho with hold | ⟨rfl, hmem⟩
      · exact hs.due d o (Or.inl hold)
      · exact hnew o hmem
    · rcases mem_pendingFor_spread.1 ho with hold | ⟨hedge, hmem⟩
      · exact hs.due d o (Or.inr ((hpending d o).1 hold).1)
      · obtain ⟨-, hd, hflow⟩ := hs.flow c d hedge
        obtain ⟨-, hobject, hheld⟩ := hnew o hmem
        exact ⟨hd, hobject, hF.flows _ _ hflow _ hheld⟩

theorem settled_delivered (hs : s.Scoped) (hsettled : s.FlowSettled) :
    ((s.without rest).spread c (objects \ s.entities.pointsTo c)).FlowSettled := by
  have hc := isCell_of_polled hpolled hs
  intro x y hxy o ho
  rcases (mem_pointsTo_spread hc).1 ho with hold | ⟨rfl, hnew⟩
  · exact (grows_delivered hpolled hs).due y o (hsettled x y hxy o hold)
  · exact Or.inr (mem_pendingFor_spread.2 (Or.inr ⟨hxy, hnew⟩))

end Delivery

/-! ### Taking up a call edge -/

section Installation

variable {a : Analysis} {F : Facts} {e : QCallEdge} {rest : WorkList}
  (hpolled : s.work.Polled (.call e) rest)

include hpolled

theorem requested_without {f : QCallEdge} :
    s.Requested f ↔ (s.without rest).Requested f ∨ f = e := by
  rw [Requested, Requested, without, hpolled.of_call.1, List.mem_cons, or_comm (a := f = e), or_assoc]

theorem due_without {c : CellId} {o : QObjectId} : (s.without rest).Due c o ↔ s.Due c o := by
  rw [Due, Due, without, hpolled.of_call.2]

/-- The edge need not be known to have been there: it is of the kind of its call, like the other. -/
theorem advances_without (hs : s.Sound a F) (hedge : s.calls.hasEdge e.site e.callee = true) :
    Advances a F s (s.without rest) := by
  refine .of_grows ?_ ?_ ?_ rfl (fun _ => rfl) rfl
  · refine { Grows.refl s with
      due := fun c o => (due_without hpolled).2
      requested := fun f hf => ?_ }
    rcases (requested_without hpolled).1 hf with hf | rfl
    · exact hf
    · obtain ⟨g, hg, hsite, hcallee⟩ := (hs.calls.hasEdge_iff _ _).1 hedge
      obtain ⟨-, -, -, hgkind⟩ := hs.requested g (Or.inl hg)
      obtain ⟨-, -, -, hfkind⟩ := hs.requested f hf
      have heq : g = f := calc
        g = ⟨g.kind, g.site, g.callee⟩ := rfl
        _ = ⟨f.kind, f.site, f.callee⟩ := by rw [hgkind, hfkind, hsite, hcallee]
      exact Or.inl (heq ▸ hg)
  · exact { hs with
      work := hs.work.poll hpolled
      requested := fun f hf => hs.requested f ((requested_without hpolled).2 (Or.inl hf))
      due := fun c o ho => hs.due c o ((due_without hpolled).1 ho) }
  · intro hsettled x y hxy o ho
    exact (due_without hpolled).2 (hsettled x y hxy o ho)

/-- A state that has taken a new call edge off its list and added it loses nothing. -/
theorem grows_addEdge (hedge : ¬ s.calls.hasEdge e.site e.callee = true) :
    s.Grows (({ s.without rest with calls := s.calls.addEdge e } : State).record (.called e)) := by
  refine { Grows.refl s with
    due := fun c o => (due_without hpolled).2
    entries := fun x hx => by rwa [record, CallGraph.entries_addEdge]
    reachable := fun x hx => by rwa [record, CallGraph.reachable_addEdge]
    edges := fun f hf => (CallGraph.mem_edges_addEdge hedge).2 (Or.inl hf)
    requested := fun f hf => ?_
    placed := fun c x hx => ⟨x, by rwa [record, CallGraph.container?_addEdge]⟩ }
  rcases (requested_without hpolled).1 hf with (hf | hf) | rfl
  · exact Or.inl ((CallGraph.mem_edges_addEdge hedge).2 (Or.inl hf))
  · exact Or.inr hf
  · exact Or.inl ((CallGraph.mem_edges_addEdge hedge).2 (Or.inr rfl))

theorem sound_addEdge (hs : s.Sound a F) (hedge : ¬ s.calls.hasEdge e.site e.callee = true) :
    (({ s.without rest with calls := s.calls.addEdge e } : State).record (.called e)).Sound a F := by
  refine { hs with
    work := hs.work.poll hpolled
    calls := hs.calls.addEdge e
    entries := fun x hx => hs.entries x (by rwa [record, CallGraph.entries_addEdge] at hx)
    reachable := fun x hx => hs.reachable x (by rwa [record, CallGraph.reachable_addEdge] at hx)
    requested := fun f hf => hs.requested f ((requested_without hpolled).2 ?_)
    due := fun c o ho => hs.due c o ((due_without hpolled).1 ho)
    containers := fun c x hx =>
      hs.containers c x (by rwa [record, CallGraph.container?_addEdge] at hx) }
  rcases hf with hf | hf
  · exact ((CallGraph.mem_edges_addEdge hedge).1 hf).imp_left Or.inl
  · exact Or.inl (Or.inr hf)

end Installation

end State

namespace Analysis

open State

variable {a : Analysis} {F : Facts} {s : State}

theorem deliver_eq (c : CellId) (objects : IdSet (.qualified .object)) (s : State) :
    a.deliver c objects s =
      match s.entities.cell c with
      | .var k v => (objects \ s.entities.pointsTo c).toList.foldl (a.meet k v)
          (s.spread c (objects \ s.entities.pointsTo c))
      | _ => s.spread c (objects \ s.entities.pointsTo c) := by
  simp only [deliver, ← spread_eq]
  rfl

section Deliver

variable (hp : a.program.Indexed) (hs : s.Sound a F) (hF : a.Closed F) {c : CellId}
  {objects : IdSet (.qualified .object)} {rest : WorkList}
  (hpolled : s.work.Polled (.objects c objects) rest)

include hp hs hF hpolled

/-- What has entered a variable is met by the statements that use it. -/
theorem advances_delivered : Advances a F ((s.without rest).spread c (objects \ s.entities.pointsTo c))
      (a.deliver c objects (s.without rest)) ∧
    ∀ o ∈ objects \ s.entities.pointsTo c, (a.deliver c objects (s.without rest)).Met a c o := by
  have hc := isCell_of_polled hpolled hs.scope
  have hgrows := grows_delivered hpolled hs.scope
  have hsound := sound_delivered hpolled hs hF
  have hdue : ∀ o ∈ objects \ s.entities.pointsTo c, s.entities.HoldsIn F c o := fun o ho =>
    hs.due c o (Or.inr (hpolled.of_objects.1 ▸ (IdSet.mem_sdiff.1 ho).1))
  rw [deliver_eq]
  split
  · rename_i k v hcell
    have hcellAt : s.entities.cellAt c = .var (s.entities.contextAt k) v :=
      congrArg s.entities.placeOf hcell
    have hk : s.entities.ScopedCell (s.entities.cell c) := hs.entities.cell hc
    rw [show s.entities.cell c = .var k v from hcell] at hk
    obtain ⟨hadvances, hmeets⟩ := Advances.foldl
      (fun o G => ∀ stmt ∈ (a.program.method (a.program.var v).method).body,
        a.Meets G (s.entities.contextAt k) v (s.entities.qobjectAt o) stmt)
      (fun _ _ _ h hm stmt hstmt => (hm stmt hstmt).mono h) hsound fun u hu o ho => by
        obtain ⟨-, hobject, hheld⟩ := hdue o (IdSet.mem_toList.1 ho)
        have hextends := (hgrows.trans hu.grows).entities
        have hm := hF.meets _ v _ (hcellAt ▸ hheld)
        rw [← hextends.contextAt hs.entities hk, ← hextends.qobjectAt hs.entities hobject] at hm ⊢
        exact advances_meet hp hu.sound hF (hextends.isContext hk) (hextends.isQObject hobject) hm
    have hextends := (hgrows.trans hadvances.grows).entities
    refine ⟨hadvances, fun o ho => ?_⟩
    obtain ⟨-, hobject, -⟩ := hdue o ho
    exact met_of_meets ((hextends.cellAt hs.entities hc).trans hcellAt)
      (hextends.qobjectAt hs.entities hobject) (hmeets o (IdSet.mem_toList.2 ho))
  · rename_i hcell
    refine ⟨.refl hsound, fun o ho k v hv => ?_⟩
    have hplace : s.entities.placeOf (s.entities.cell c) = .var k v := hv
    cases heq : s.entities.cell c with
    | var l w => exact absurd heq (hcell l w)
    | field | static | elements => rw [heq] at hplace; cases hplace

theorem advances_deliver : Advances a F s (a.deliver c objects (s.without rest)) := by
  have hc := isCell_of_polled hpolled hs.scope
  have hsettled := settled_delivered hpolled hs.scope
  obtain ⟨hdelivered, hmet⟩ := advances_delivered hp hs hF hpolled
  refine ⟨(grows_delivered hpolled hs.scope).trans hdelivered.grows, hdelivered.sound,
    fun h => hdelivered.settled (hsettled h), hdelivered.reads, fun d o ho => ?_, hdelivered.wires⟩
  rcases hdelivered.meets d o ho with hold | hmeet
  · rcases (mem_pointsTo_spread hc).1 hold with hold | ⟨rfl, hnew⟩
    · exact Or.inl hold
    · exact Or.inr (hmet o hnew)
  · exact Or.inr hmeet

theorem mem_pointsTo_deliver {o : QObjectId} (ho : o ∈ objects) :
    o ∈ (a.deliver c objects (s.without rest)).entities.pointsTo c := by
  have hc := isCell_of_polled hpolled hs.scope
  refine (advances_delivered hp hs hF hpolled).1.grows.pointsTo c o ((mem_pointsTo_spread hc).2 ?_)
  by_cases hold : o ∈ s.entities.pointsTo c
  · exact Or.inl hold
  · exact Or.inr ⟨rfl, IdSet.mem_sdiff.2 ⟨ho, hold⟩⟩

end Deliver

/-- The method that holds a call site is numbered and noted. -/
theorem advances_place (hs : s.Sound a F) {e : QCallEdge} (he : s.entities.CalledIn a F e)
    {caller : Qualified .method} (hcaller : caller = ⟨(s.entities.qcall e.site).context,
      (a.program.call (s.entities.qcall e.site).item).container⟩) {u w : State}
    (hu : u = s.addQMethod caller)
    (hw : w = { u with calls := u.calls.setContainer e.site (u.entities.qmethodId caller) }) :
    Advances a F s w ∧ w.calls.container? e.site = some (u.entities.qmethodId caller) := by
  obtain ⟨hsite, -, hcall, -⟩ := he
  have hk : s.entities.IsContext caller.context := by
    rw [hcaller]
    exact hs.entities.qcall hsite
  have hread : s.entities.qmethodOf caller = a.containerOf (s.entities.qcallAt e.site) := by
    rw [hcaller]
    rfl
  have hadd : Advances a F s u := by
    rw [hu]
    apply advances_addQMethod hs hk
    exact Or.inr ⟨_, hcall, hread.symm⟩
  have hmem : caller ∈ u.entities.qmethods.toList := by
    rw [hu]
    exact mem_addQMethod s caller
  have hextends := hadd.grows.entities
  have hset : Advances a F u w := by
    rw [hw]
    apply advances_setContainer hadd.sound
    refine ⟨hextends.isQCall hsite, Entities.isQMethod_qmethodId hmem, ?_⟩
    rw [Entities.qmethodAt_of_extends hextends hs.entities hk hmem, hread,
      hextends.qcallAt hs.entities hsite]
  refine ⟨hadd.trans hset, ?_⟩
  rw [hw]
  exact CallGraph.container?_setContainer.2 (Or.inl ⟨rfl, rfl⟩)

/-- What is done for a new call edge, step by step. -/
theorem advances_wire (hs : s.Sound a F) (hF : a.Closed F) {e : QCallEdge}
    (he : s.entities.CalledIn a F e) {site : Qualified .call} (hsite : site = s.entities.qcall e.site)
    {target : Qualified .method} (htarget : target = s.entities.qmethod e.callee)
    {caller : Qualified .method}
    (hcaller : caller = ⟨site.context, (a.program.call site.item).container⟩) {u₁ u₂ u₃ u₄ u₅ : State}
    (h₁ : u₁ = s.addQMethod caller)
    (h₂ : u₂ = { u₁ with calls := u₁.calls.setContainer e.site (u₁.entities.qmethodId caller) })
    (h₃ : u₃ = a.enter e.callee u₂)
    (h₄ : u₄ = u₃.connectAll (argumentFlows (a.program.call site.item) site.context
      (a.program.method target.item) target.context))
    (h₅ : u₅ = returnResult (a.program.call site.item) site.context (a.program.method target.item)
      target.context u₄) : Advances a F s u₅ ∧ u₅.Wired a e := by
  obtain ⟨hplace, hcontainer⟩ := advances_place hs he (hsite ▸ hcaller) h₁ h₂
  obtain ⟨hsiteid, hcalleeid, hcall, -⟩ := he
  have hk : s.entities.IsContext site.context := hsite ▸ hs.entities.qcall hsiteid
  have hl : s.entities.IsContext target.context := htarget ▸ hs.entities.qmethod hcalleeid
  have hread : s.entities.edgeAt e =
      ⟨e.kind, s.entities.qcallOf site, s.entities.qmethodOf target⟩ := by
    rw [hsite, htarget]
    rfl
  obtain ⟨henter, hreach⟩ := advances_enter hplace.sound hF
    (hplace.grows.entities.reachedIn hs.entities ⟨hcalleeid, (hF.wires _ hcall).callee⟩)
  rw [← h₃] at henter hreach
  have hentered := hplace.trans henter
  have hextends := hentered.grows.entities
  rw [hread] at hcall
  obtain ⟨hpass, harguments⟩ := advances_passArguments hentered.sound hF hcall
    (hextends.isContext hk) (hextends.isContext hl) (hextends.contextAt hs.entities hk)
    (hextends.contextAt hs.entities hl) h₄
  have hpassed := hentered.trans hpass
  have hextends := hpassed.grows.entities
  obtain ⟨hreturn, hresults⟩ := advances_returnResult hpassed.sound hF hcall
    (hextends.isContext hk) (hextends.isContext hl) (hextends.contextAt hs.entities hk)
    (hextends.contextAt hs.entities hl) h₅
  have hall := hpassed.trans hreturn
  have hextends := hall.grows.entities
  refine ⟨hall, ⟨?_, ?_, ?_⟩, ?_, ?_⟩
  · rw [hextends.edgeAt hs.entities hsiteid hcalleeid]
    refine ⟨e.callee, (hpass.trans hreturn).grows.reachable _ hreach, ?_⟩
    exact hextends.qmethodAt hs.entities hcalleeid
  · rw [hextends.edgeAt hs.entities hsiteid hcalleeid, hread]
    intro arg param h
    exact Facts.flow_subset (hreturn.promised_le hpass.sound) (harguments arg param h)
  · rw [hextends.edgeAt hs.entities hsiteid hcalleeid, hread]
    intro r hr v hv
    exact (hresults r hr).2 v hv
  · exact (henter.trans (hpass.trans hreturn)).grows.placed e.site _ hcontainer
  · rw [hextends.qcall hsiteid, ← hsite]
    intro r hr
    exact (hresults r hr).1

section Install

variable (hs : s.Sound a F) (hF : a.Closed F) {e : QCallEdge} {rest : WorkList}
  (hpolled : s.work.Polled (.call e) rest)

include hs hF hpolled

/-- A call edge that is not there yet is added before it is seen to. -/
theorem advances_installed (hedge : ¬ s.calls.hasEdge e.site e.callee = true) :
    Advances a F (({ s.without rest with calls := s.calls.addEdge e } : State).record (.called e))
        (a.install e (s.without rest)) ∧ (a.install e (s.without rest)).Wired a e := by
  have he := hs.requested e ((requested_without hpolled).2 (Or.inr rfl))
  have hnot : ¬ (s.without rest).calls.hasEdge e.site e.callee = true := hedge
  rw [install, if_neg hnot]
  exact advances_wire (sound_addEdge hpolled hs hedge) hF he rfl rfl rfl rfl rfl rfl rfl rfl

theorem advances_install : Advances a F s (a.install e (s.without rest)) := by
  by_cases hedge : s.calls.hasEdge e.site e.callee = true
  · have hinstalled : (s.without rest).calls.hasEdge e.site e.callee = true := hedge
    rw [install, if_pos hinstalled]
    exact advances_without hpolled hs hedge
  · obtain ⟨hadvances, hwired⟩ := advances_installed hs hF hpolled hedge
    refine ⟨(grows_addEdge hpolled hedge).trans hadvances.grows, hadvances.sound,
      fun hsettled => ?_, fun x hx => ?_, hadvances.meets, fun f hf => ?_⟩
    · exact hadvances.settled fun x y hxy o ho => (due_without hpolled).2 (hsettled x y hxy o ho)
    · apply (hadvances.reads x hx).imp_left
      intro h
      rwa [record, CallGraph.reachable_addEdge] at h
    · rcases hadvances.wires f hf with h | h
      · rcases (CallGraph.mem_edges_addEdge hedge).1 h with h | rfl
        · exact Or.inl h
        · exact Or.inr hwired
      · exact Or.inr h

theorem mem_edges_install (hedge : ¬ s.calls.hasEdge e.site e.callee = true) :
    e ∈ (a.install e (s.without rest)).calls.edges.toList :=
  (advances_installed hs hF hpolled hedge).1.grows.edges e
    ((CallGraph.mem_edges_addEdge hedge).2 (Or.inr rfl))

end Install

end Analysis

end PointsTo
