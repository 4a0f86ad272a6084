import Mathlib.Logic.Relation
import PointsTo.Proofs.PossibleFacts
import PointsTo.Proofs.Solver.Effects
import PointsTo.Proofs.Solver.Fixpoint

/-! Callers. Call edges are dealt with before objects, and the variables of a statement are those of the
method that holds it. So whatever the solver does, it does on behalf of a method that is reachable
already, and every reachable method is reached from the entry along call edges. -/

namespace PointsTo

namespace State

section Anchored

variable (a : Analysis) (s : State)

/-- The method under a context is reachable. -/
def Enters (y : Qualified .method) : Prop :=
  ∃ x ∈ s.calls.reachable.toList, s.entities.IsQMethod x ∧ s.entities.qmethod x = y

/-- A call edge leads from the method that holds its call site to its callee. -/
def Leads (x y : QMethodId) : Prop :=
  ∃ e ∈ s.calls.edges.toList, s.entities.IsQCall e.site ∧ s.entities.IsQMethod x ∧
    s.entities.qmethod x = a.program.holder (s.entities.qcall e.site) ∧ e.callee = y

/-- Reached from an entry along call edges. -/
def Connected (x : QMethodId) : Prop :=
  ∃ y ∈ s.calls.entries.toList, Relation.ReflTransGen (s.Leads a) y x

/-- Every variable and every call edge that waits belongs to a method that is reachable, or for
variables will be, and the reachable methods hang together. -/
structure Anchored : Prop where
  linked : s.Linked
  cells : ∀ k v, .var k v ∈ s.entities.cells.toList → s.Expects ⟨k, (a.program.var v).method⟩
  callers : ∀ e ∈ s.work.calls.toList, s.entities.IsQCall e.site ∧
    s.Enters (a.program.holder (s.entities.qcall e.site))
  connected : ∀ x ∈ s.calls.reachable.toList, s.Connected a x

end Anchored

variable {a : Analysis} {s u : State} {callers hosts : Set (Qualified .method)} {n : Nat}

theorem Enters.expects {y : Qualified .method} (h : s.Enters y) : s.Expects y := by
  obtain ⟨x, hx, hid, hread⟩ := h
  exact ⟨x, hid, hread, Or.inl hx⟩

/-- When no call edge waits, only what is reachable is expected. -/
theorem Expects.enters {y : Qualified .method} (h : s.Expects y) (hcalls : s.work.calls.toList = []) :
    s.Enters y := by
  obtain ⟨x, hid, hread, hx | ⟨e, he, -⟩⟩ := h
  · exact ⟨x, hx, hid, hread⟩
  · rw [hcalls] at he
    cases he

theorem Enters.mono {y : Qualified .method} (h : s.Enters y) (hentities : s.entities.Extends u.entities)
    (hreachable : ∀ x ∈ s.calls.reachable.toList, x ∈ u.calls.reachable.toList) : u.Enters y := by
  obtain ⟨x, hx, hid, hread⟩ := h
  exact ⟨x, hreachable x hx, hentities.isQMethod hid, (hentities.qmethod hid).trans hread⟩

theorem Connected.mono {x : QMethodId} (h : s.Connected a x)
    (hentities : s.entities.Extends u.entities)
    (hentries : ∀ y ∈ s.calls.entries.toList, y ∈ u.calls.entries.toList)
    (hedges : ∀ e ∈ s.calls.edges.toList, e ∈ u.calls.edges.toList) : u.Connected a x := by
  obtain ⟨y, hy, hpath⟩ := h
  refine ⟨y, hentries y hy, Relation.ReflTransGen.mono ?_ _ _ hpath⟩
  intro v w hleads
  obtain ⟨e, he, hsite, hv, hread, hcallee⟩ := hleads
  refine ⟨e, hedges e he, hentities.isQCall hsite, hentities.isQMethod hv, ?_, hcallee⟩
  rw [hentities.qmethod hv, hentities.qcall hsite]
  exact hread

/-- What is done on behalf of reachable methods leaves everything anchored. -/
theorem Anchored.serves (hs : s.Anchored a) (h : Serves a.program callers hosts n s u)
    (hcallers : ∀ y ∈ callers, s.Enters y) (hhosts : ∀ y ∈ hosts, s.Enters y) : u.Anchored a := by
  have henters : ∀ y, s.Enters y → u.Enters y := by
    intro y hy
    exact hy.mono h.entities fun x hx => h.reachable ▸ hx
  refine ⟨h.linked hs.linked, fun k v hv => ?_, fun e he => ?_, fun x hx => ?_⟩
  · rcases h.cells k v hv with hold | hhost | hexpected
    · exact h.expects (hs.cells k v hold)
    · exact (henters _ (hhosts _ hhost)).expects
    · exact hexpected
  · rcases h.calls e he with hold | ⟨hsite, hcaller⟩
    · obtain ⟨hsite, hcaller⟩ := hs.callers e hold
      refine ⟨h.entities.isQCall hsite, henters _ ?_⟩
      rwa [h.entities.qcall hsite]
    · exact ⟨hsite, henters _ (hcallers _ hcaller)⟩
  · rw [h.reachable] at hx
    apply (hs.connected x hx).mono h.entities
    · intro y hy
      rwa [h.entries]
    · intro e he
      rwa [h.edges]

theorem Anchored.serves_hosts (hs : s.Anchored a) (h : Serves a.program ∅ hosts n s u)
    (hhosts : ∀ y ∈ hosts, s.Enters y) : u.Anchored a :=
  hs.serves h (fun _ hy => absurd hy (Set.notMem_empty _)) hhosts

/-- What is done on behalf of one reachable method, which is caller and host alike. -/
theorem Anchored.serves_own (hs : s.Anchored a) {y : Qualified .method}
    (h : Serves a.program {y} {y} n s u) (hy : s.Enters y) : u.Anchored a := by
  have hown : ∀ z ∈ ({y} : Set (Qualified .method)), s.Enters z := by
    intro z hz
    rwa [Set.mem_singleton_iff.1 hz]
  exact hs.serves h hown hown

/-- A state without one call edge of its list, which is installed and whose callee is reachable. -/
theorem Anchored.install (hs : s.Anchored a) {e : QCallEdge} {rest : WorkList}
    (hpolled : s.work.Polled (.call e) rest) (hedge : ¬ s.calls.hasEdge e.site e.callee = true)
    (hu : u = { s.without rest with calls := (s.calls.addEdge e).addReachable e.callee }) :
    u.Anchored a := by
  subst hu
  obtain ⟨hcalls, -⟩ := hpolled.of_call
  have hreachable : ∀ x, x ∈ ((s.calls.addEdge e).addReachable e.callee).reachable.toList ↔
      x ∈ s.calls.reachable.toList ∨ x = e.callee := by
    intro x
    rw [← CallGraph.reachable_addEdge (g := s.calls) (e := e)]
    exact Numbering.mem_toList_insert
  have hedges : ∀ f, f ∈ (s.calls.addEdge e).edges.toList ↔ f ∈ s.calls.edges.toList ∨ f = e :=
    fun f => CallGraph.mem_edges_addEdge hedge
  have henters : ∀ y, s.Enters y → ({ s.without rest with
      calls := (s.calls.addEdge e).addReachable e.callee } : State).Enters y := by
    intro y hy
    exact hy.mono (.refl _) fun x hx => (hreachable x).2 (Or.inl hx)
  have hconnected : ∀ x, s.Connected a x → ({ s.without rest with
      calls := (s.calls.addEdge e).addReachable e.callee } : State).Connected a x := by
    intro x hx
    refine hx.mono ?_ (fun y hy => ?_) fun f hf => (hedges f).2 (Or.inl hf)
    · exact .refl _
    · show y ∈ (s.calls.addEdge e).entries.toList
      rwa [CallGraph.entries_addEdge]
  obtain ⟨hsite, hcaller⟩ := hs.callers e (hcalls ▸ List.mem_cons_self)
  refine ⟨fun c x hcx => (hreachable x).2 ?_, fun k v hv => ?_, fun f hf => ?_, fun x hx => ?_⟩
  · rcases CallGraph.hasEdge_addEdge.1 hcx with hold | ⟨-, rfl⟩
    · exact Or.inl (hs.linked c x hold)
    · exact Or.inr rfl
  · obtain ⟨x, hid, hread, hx | ⟨f, hf, hfx⟩⟩ := hs.cells k v hv
    · exact ⟨x, hid, hread, Or.inl ((hreachable x).2 (Or.inl hx))⟩
    · rw [hcalls] at hf
      rcases List.mem_cons.1 hf with rfl | hf
      · exact ⟨x, hid, hread, Or.inl ((hreachable x).2 (Or.inr hfx.symm))⟩
      · exact ⟨x, hid, hread, Or.inr ⟨f, hf, hfx⟩⟩
  · obtain ⟨hfsite, hfcaller⟩ := hs.callers f (hcalls ▸ List.mem_cons_of_mem e hf)
    exact ⟨hfsite, henters _ hfcaller⟩
  · rcases (hreachable x).1 hx with hold | rfl
    · exact hconnected x (hs.connected x hold)
    · obtain ⟨z, hz, hzid, hzread⟩ := hcaller
      obtain ⟨y, hy, hpath⟩ := hconnected z (hs.connected z hz)
      exact ⟨y, hy, hpath.tail ⟨e, (hedges e).2 (Or.inr rfl), hsite, hzid, hzread, rfl⟩⟩

/-- A call edge whose like is installed already can be taken off the list. -/
theorem Anchored.without (hs : s.Anchored a) {e : QCallEdge} {rest : WorkList}
    (hpolled : s.work.Polled (.call e) rest) (hedge : s.calls.hasEdge e.site e.callee = true) :
    (s.without rest).Anchored a := by
  obtain ⟨hcalls, -⟩ := hpolled.of_call
  refine ⟨hs.linked, fun k v hv => ?_, fun f hf => ?_, hs.connected⟩
  · obtain ⟨x, hid, hread, hx | ⟨f, hf, rfl⟩⟩ := hs.cells k v hv
    · exact ⟨x, hid, hread, Or.inl hx⟩
    · rw [hcalls] at hf
      rcases List.mem_cons.1 hf with rfl | hf
      · exact ⟨_, hid, hread, Or.inl (hs.linked _ _ hedge)⟩
      · exact ⟨_, hid, hread, Or.inr ⟨f, hf, rfl⟩⟩
  · exact hs.callers f (hcalls ▸ List.mem_cons_of_mem e hf)

theorem Anchored.record (hs : s.Anchored a) (e : Event) : (s.record e).Anchored a :=
  ⟨hs.linked, hs.cells, hs.callers, hs.connected⟩

/-- Objects that enter a cell call for nothing yet. -/
theorem Anchored.spread (hs : s.Anchored a) (c : CellId) (objects : IdSet (.qualified .object)) :
    (s.spread c objects).Anchored a := by
  have hwork : (s.spread c objects).work.calls = s.work.calls := by
    rw [State.spread, WorkList.calls_foldl_addObjects]
  refine ⟨hs.linked, fun k v hv => ?_, fun f hf => ?_, hs.connected⟩
  · obtain ⟨x, hid, hread, hx⟩ := hs.cells k v hv
    exact ⟨x, hid, hread, by rwa [hwork]⟩
  · exact hs.callers f (hwork ▸ hf)

end State

namespace Analysis

open State

variable {a : Analysis} {s u : State} (hp : a.program.Accepted)

include hp

theorem serves_meetAll (hs : s.Linked) (k : ContextId) (v : VarId) (objects : List QObjectId) :
    Serves a.program {⟨k, (a.program.var v).method⟩} {⟨k, (a.program.var v).method⟩}
      (objects.length * (a.program.usesOf v).weight) s (objects.foldl (a.meet k v) s) := by
  apply Serves.foldl hs
  intro u hu o _
  exact serves_meet hp hu v o

/-- No call edge waits when objects are taken up, so the method of a variable that they enter is
reachable. -/
theorem anchored_deliver (hs : s.Anchored a) {c : CellId} (hc : s.entities.IsCell c)
    {objects : IdSet (.qualified .object)} {rest : WorkList}
    (hpolled : s.work.Polled (.objects c objects) rest) :
    (a.deliver c objects (s.without rest)).Anchored a := by
  -- what is expected is reachable by now, as call edges are taken up first
  have hcalls : s.work.calls.toList = [] := by
    cases hpolled with
    | objects hcalls => exact hcalls
  have henters : ∀ y, s.Enters y → (s.without rest).Enters y := fun _ hy => hy
  have hwithout : (s.without rest).Anchored a :=
    { hs with
      cells := fun k v hv => (henters _ ((hs.cells k v hv).enters hcalls)).expects
      callers := fun e he => hs.callers e (hpolled.of_objects.2.2.1 ▸ he) }
  have hspread := hwithout.spread c (objects \ s.entities.pointsTo c)
  rw [deliver_eq]
  split
  · rename_i k v hcell
    have hmem : .var k v ∈ s.entities.cells.toList := by
      rw [← show s.entities.cell c = .var k v from hcell]
      exact Numbering.getD_mem hc _
    have hmethod : s.Enters ⟨k, (a.program.var v).method⟩ := (hs.cells k v hmem).enters hcalls
    exact hspread.serves_own (serves_meetAll hp hspread.linked k v _) hmethod
  · exact hspread

/-- A method that counts as reachable can be entered. -/
theorem anchored_enter {x : QMethodId} (hx : s.entities.IsQMethod x)
    (hs : ({ s with calls := s.calls.addReachable x } : State).Anchored a) :
    (a.enter x s).Anchored a ∧
      Leaves (a.program.method (s.entities.qmethod x).item).body.size s (a.enter x s) ∧
      ∀ y, ({ s with calls := s.calls.addReachable x } : State).Enters y → (a.enter x s).Enters y := by
  by_cases hmem : s.calls.contains x = true
  · have hsame : s.calls.addReachable x = s.calls := by
      rw [CallGraph.addReachable, Numbering.insert_of_mem (Numbering.contains_iff.1 hmem)]
    rw [hsame] at hs
    rw [hsame, enter, if_pos hmem]
    exact ⟨hs, ⟨Nat.le_add_right _ _, rfl⟩, fun _ hy => hy⟩
  · have hserves := serves_enter hp hmem hs.linked
    have henters : ({ s with calls := s.calls.addReachable x } : State).Enters (s.entities.qmethod x) :=
      ⟨x, Numbering.mem_insert_self _ _, hx, rfl⟩
    refine ⟨hs.serves_own hserves henters, { hserves.toLeaves with }, fun y hy => ?_⟩
    exact hy.mono hserves.entities fun z hz => hserves.reachable ▸ hz

/-- Arguments and results are connected between methods that are reachable. -/
theorem anchored_connect {i : Qualified .call} {y : Qualified .method} (hs : s.Anchored a)
    (hi : a.program.IsCall i.item) (hy : a.program.IsMethod y.item)
    (hcaller : s.Enters (a.program.holder i)) (hcallee : s.Enters y) {u v : State}
    (hu : u = s.connectAll (argumentFlows (a.program.call i.item) i.context
      (a.program.method y.item) y.context))
    (hv : v = returnResult (a.program.call i.item) i.context (a.program.method y.item) y.context u) :
    v.Anchored a ∧ Leaves ((a.program.call i.item).args.length +
      (a.program.method y.item).returns.size) s v := by
  have hends : ∀ z ∈ ({a.program.holder ⟨i.context, i.item⟩, ⟨y.context, y.item⟩} :
      Set (Qualified .method)), s.Enters z := by
    intro z hz
    rcases hz with rfl | rfl
    · exact hcaller
    · exact hcallee
  have hpass : Serves a.program ∅ _ _ s u := hu ▸ serves_passArguments hp hs.linked hi hy _
  have hpassed := hs.serves_hosts hpass hends
  have hreturn : Serves a.program ∅ _ _ u v := hv ▸ serves_returnResult hp hpassed.linked hi hy _
  refine ⟨hpassed.serves_hosts hreturn fun z hz => ?_, hpass.toLeaves.trans hreturn.toLeaves⟩
  exact (hends z hz).mono hpass.entities fun x hx => hpass.reachable ▸ hx

/-- What is done for a new call edge, step by step, once its callee counts as reachable. -/
theorem anchored_wire {e : QCallEdge} {i : Qualified .call} {y : Qualified .method}
    (hs : ({ s with calls := s.calls.addReachable e.callee } : State).Anchored a)
    (hi : a.program.IsCall i.item) (hy : a.program.IsMethod y.item)
    (hcallee : s.entities.IsQMethod e.callee) (hread : s.entities.qmethod e.callee = y)
    (hcaller : ({ s with calls := s.calls.addReachable e.callee } : State).Enters
      (a.program.holder i)) {u₁ u₂ u₃ u₄ u₅ : State}
    (h₁ : u₁ = s.addQMethod (a.program.holder i))
    (h₂ : u₂ = { u₁ with
      calls := u₁.calls.setContainer e.site (u₁.entities.qmethodId (a.program.holder i)) })
    (h₃ : u₃ = a.enter e.callee u₂)
    (h₄ : u₄ = u₃.connectAll (argumentFlows (a.program.call i.item) i.context
      (a.program.method y.item) y.context))
    (h₅ : u₅ = returnResult (a.program.call i.item) i.context (a.program.method y.item) y.context
      u₄) : u₅.Anchored a ∧ Leaves ((a.program.method y.item).body.size +
        (a.program.call i.item).args.length + (a.program.method y.item).returns.size) s u₅ := by
  have hextends : s.entities.Extends u₂.entities := by
    rw [h₂, h₁]
    exact Entities.extends_addQMethod _ _
  have hplace : Serves a.program ∅ ∅ 0 { s with calls := s.calls.addReachable e.callee }
      { u₂ with calls := u₂.calls.addReachable e.callee } := by
    subst h₁ h₂
    have hadd : Serves a.program ∅ ∅ 0 ({ s with calls := s.calls.addReachable e.callee } : State)
      (({ s with calls := s.calls.addReachable e.callee } : State).addQMethod (a.program.holder i)) :=
      serves_addQMethod _ _
    exact { hadd with }
  have hplaced := hs.serves_hosts hplace fun _ hy => absurd hy (Set.notMem_empty _)
  obtain ⟨hentered, hbody, henters⟩ := anchored_enter hp (hextends.isQMethod hcallee) hplaced
  rw [← h₃] at hentered hbody henters
  rw [hextends.qmethod hcallee, hread] at hbody
  have hends : ∀ z, ({ s with calls := s.calls.addReachable e.callee } : State).Enters z →
      u₃.Enters z := by
    intro z hz
    exact henters z (hz.mono hplace.entities fun x hx => hplace.reachable ▸ hx)
  have hcalled : u₃.Enters y :=
    hends y ⟨e.callee, Numbering.mem_insert_self _ _, hcallee, hread⟩
  obtain ⟨hconnected, hleaves⟩ := anchored_connect hp hentered hi hy (hends _ hcaller) hcalled h₄ h₅
  have hnumbered : Leaves 0 s u₂ := by
    subst h₁ h₂
    exact ⟨Nat.le_refl _, rfl⟩
  exact ⟨hconnected, ((hnumbered.trans hbody).trans hleaves).mono (by omega)⟩

theorem anchored_install (hs : s.Sound a a.possibleFacts) (h : s.Anchored a) {e : QCallEdge}
    {rest : WorkList} (hpolled : s.work.Polled (.call e) rest) :
    (a.install e (s.without rest)).Anchored a ∧
      Leaves ((a.program.method (s.entities.qmethod e.callee).item).body.size +
        (a.program.call (s.entities.qcall e.site).item).args.length +
          (a.program.method (s.entities.qmethod e.callee).item).returns.size)
        (s.without rest) (a.install e (s.without rest)) := by
  obtain ⟨-, hcallee, hcall, -⟩ := hs.requested e ((requested_without hpolled).2 (Or.inr rfl))
  by_cases hedge : s.calls.hasEdge e.site e.callee = true
  · have hinstalled : (s.without rest).calls.hasEdge e.site e.callee = true := hedge
    rw [install, if_pos hinstalled]
    exact ⟨h.without hpolled hedge, Nat.le_add_right _ _, rfl⟩
  · have hnot : ¬ (s.without rest).calls.hasEdge e.site e.callee = true := hedge
    obtain ⟨-, hcaller⟩ := h.callers e (hpolled.of_call.1 ▸ List.mem_cons_self)
    have hadded := h.install hpolled hedge rfl
    have henters : ({ s.without rest with
        calls := (s.calls.addEdge e).addReachable e.callee } : State).Enters
          (a.program.holder (s.entities.qcall e.site)) := by
      refine hcaller.mono (.refl _) fun x hx => Numbering.mem_toList_insert.2 (Or.inl ?_)
      rwa [CallGraph.reachable_addEdge]
    have hrecorded := hadded.record (.called e)
    obtain ⟨-, ⟨-, hsite⟩, -, hmethod⟩ := hcall
    rw [install, if_neg hnot]
    obtain ⟨hanchored, hleaves⟩ := anchored_wire hp (s := ({ s.without rest with
      calls := s.calls.addEdge e } : State).record (.called e)) hrecorded hsite hmethod hcallee rfl
        henters rfl rfl rfl rfl rfl
    exact ⟨hanchored, { hleaves with }⟩

/-! ### Steps and runs -/

theorem anchored_step (hs : s.Sound a a.possibleFacts) (h : s.Anchored a) (hstep : a.step? s = some u) :
    u.Anchored a := by
  rw [step?] at hstep
  split at hstep
  · cases hstep
  · rename_i item rest hpoll
    have hpolled := WorkList.polled_of_poll hpoll
    obtain rfl := Option.some.inj hstep
    cases item with
    | objects c objects => exact anchored_deliver hp h (isCell_of_polled hpolled hs.scope) hpolled
    | call e => exact (anchored_install hp hs h hpolled).1

theorem anchored_start (order : WorkOrder) : (a.start order).Anchored a ∧
    Leaves (a.program.method a.program.entry).body.size (.empty order) (a.start order) := by
  have hread := Entities.qmethod_qmethodId (mem_addQMethod ((State.empty order).addContext .empty)
    ⟨((State.empty order).addContext .empty).entities.contextId .empty, a.program.entry⟩)
  rw [start]
  refine (anchored_enter hp ?_ ?_).imp_right fun hentered => ?_
  · exact Entities.isQMethod_qmethodId (Entities.mem_addQMethod _ _)
  · refine ⟨fun c x hcx => absurd hcx CallGraph.hasEdge_empty, fun k v hv => ?_, fun e he => ?_,
      fun x hx => ?_⟩
    · simp [addQMethod, addContext, Entities.addQMethod, Entities.addContext, State.empty,
        Entities.empty] at hv
    · simp [addQMethod, addContext, State.empty, WorkList.empty] at he
    · rcases Numbering.mem_toList_insert.1 hx with hold | rfl
      · simp [addQMethod, addContext, State.empty, CallGraph.empty, CallGraph.addEntry] at hold
      · exact ⟨_, Numbering.mem_insert_self _ _, .refl⟩
  · have hbody := hentered.1
    rw [hread] at hbody
    exact { hbody with }

theorem anchored_run (order : WorkOrder) (n : Nat) : (a.run n (a.start order)).Anchored a := by
  have hF := closed_possibleFacts hp
  have hrun : ∀ s : State, s.Sound a a.possibleFacts → s.Anchored a → (a.run n s).Anchored a := by
    induction n with
    | zero => exact fun _ _ h => h
    | succ n ih =>
      intro s hs h
      rw [run]
      split
      · exact h
      · rename_i u hu
        exact ih u (advances_step hp.indexed hs hF hu).sound (anchored_step hp hs h hu)
  exact hrun _ (advances_start hF order).1.sound (anchored_start hp order).1

end Analysis

end PointsTo
