import Mathlib.Data.List.Nodup
import PointsTo.Proofs.Solver.Deeds
import PointsTo.Proofs.Solver.Fixpoint
import PointsTo.Proofs.Solver.Quiet

/-! Everything is done once. However often an object is sent to a cell, it is new there for one work item
only, so the statements that use a variable meet each of its objects once. A body is read when its method
becomes reachable, and a call edge is wired when it is added, once each and in the order in which they
are listed. -/

namespace PointsTo

/-! ### Readings of the record -/

namespace Deed

/-- The objects that entered a cell. -/
def entered : Deed → List (CellId × QObjectId)
  | delivered c new => new.toList.map (c, ·)
  | _ => []

def meetings : Deed → List (ContextId × VarId × QObjectId)
  | met k v o => [(k, v, o)]
  | _ => []

def readings : Deed → List QMethodId
  | read x => [x]
  | _ => []

def wirings : Deed → List QCallEdge
  | wired e => [e]
  | _ => []

theorem mem_entered {d : Deed} {c : CellId} {o : QObjectId} :
    (c, o) ∈ d.entered ↔ ∃ new, d = .delivered c new ∧ o ∈ new := by
  cases d <;> simp [entered, and_comm]

theorem mem_meetings {d : Deed} {k : ContextId} {v : VarId} {o : QObjectId} :
    (k, v, o) ∈ d.meetings ↔ d = .met k v o := by
  cases d <;> simp [meetings, eq_comm]

end Deed

/-- What each object that entered a cell was met as. -/
def Entities.meetingsAt (t : Entities) : CellId × QObjectId → List (ContextId × VarId × QObjectId)
  | (c, o) =>
    match t.cell c with
    | .var k v => [(k, v, o)]
    | _ => []

theorem Entities.mem_meetingsAt {t : Entities} {c : CellId} {k : ContextId} {v : VarId}
    {o p : QObjectId} : (k, v, o) ∈ t.meetingsAt (c, p) ↔ t.cell c = .var k v ∧ o = p := by
  rw [Entities.meetingsAt]
  cases t.cell c with
  | var l w => simp [eq_comm, and_assoc]
  | field | static | elements => simp

/-- The record of a state tallies with the state. -/
structure Noted.Tallies (t : Noted) : Prop where
  nodup : (t.deeds.flatMap Deed.entered).Nodup
  entered : ∀ c o, (c, o) ∈ t.deeds.flatMap Deed.entered ↔ o ∈ t.state.entities.pointsTo c
  meetings : t.deeds.flatMap Deed.meetings =
    (t.deeds.flatMap Deed.entered).flatMap t.state.entities.meetingsAt
  read : t.deeds.flatMap Deed.readings = t.state.calls.reachable.toList
  reached : t.state.reachedEvents = t.state.calls.reachable.toList
  wired : t.deeds.flatMap Deed.wirings = t.state.calls.edges.toList
  called : t.state.calledEvents = t.state.calls.edges.toList

theorem Entities.Extends.meetingsAt {t u : Entities} (h : t.Extends u) {c : CellId} (hc : t.IsCell c)
    (o : QObjectId) : u.meetingsAt (c, o) = t.meetingsAt (c, o) := by
  rw [Entities.meetingsAt, Entities.meetingsAt, h.cell hc]

namespace Noted.Tallies

variable {t : Noted}

theorem quiet (h : t.Tallies) {u : State} (hu : t.state.Quiet u) : Tallies ⟨u, t.deeds⟩ where
  nodup := h.nodup
  entered c o := by rw [hu.pointsTo, h.entered]
  meetings := by
    rw [h.meetings]
    refine List.flatMap_congr fun p hp => ?_
    obtain ⟨c, o⟩ := p
    have hc := Entities.isCell_of_mem_pointsTo ((h.entered c o).1 hp)
    exact (hu.entities.meetingsAt hc o).symm
  read := by rw [hu.reachable, h.read]
  reached := by rw [hu.reachable, hu.reached, h.reached]
  wired := by rw [hu.edges, h.wired]
  called := by rw [hu.edges, hu.called, h.called]

theorem map (h : t.Tallies) {op : State → State} (hop : t.state.Quiet (op t.state)) :
    (t.map op).Tallies := h.quiet hop

/-- A body that is read and a call edge that is wired go onto the end of their lists. -/
theorem append (h : t.Tallies) {u : State} {d : Deed} (hentities : u.entities = t.state.entities)
    (hentered : d.entered = []) (hmeetings : d.meetings = [])
    (hreachable : u.calls.reachable.toList = t.state.calls.reachable.toList ++ d.readings)
    (hreached : u.reachedEvents = t.state.reachedEvents ++ d.readings)
    (hedges : u.calls.edges.toList = t.state.calls.edges.toList ++ d.wirings)
    (hcalled : u.calledEvents = t.state.calledEvents ++ d.wirings) :
    Tallies ⟨u, t.deeds ++ [d]⟩ where
  nodup := by
    rw [List.flatMap_append, List.flatMap_singleton, hentered, List.append_nil]
    exact h.nodup
  entered c o := by
    rw [List.flatMap_append, List.flatMap_singleton, hentered, List.append_nil, hentities]
    exact h.entered c o
  meetings := by
    rw [List.flatMap_append, List.flatMap_append, List.flatMap_singleton, List.flatMap_singleton,
      hentered, hmeetings, List.append_nil, List.append_nil, hentities]
    exact h.meetings
  read := by rw [List.flatMap_append, List.flatMap_singleton, h.read, hreachable]
  reached := by rw [hreached, h.reached, hreachable]
  wired := by rw [List.flatMap_append, List.flatMap_singleton, h.wired, hedges]
  called := by rw [hcalled, h.called, hedges]

theorem addReachable (h : t.Tallies) {x : QMethodId} (hx : ¬ t.state.calls.contains x = true) :
    Tallies ⟨({ t.state with calls := t.state.calls.addReachable x } : State).record (.reached x),
      t.deeds ++ [.read x]⟩ := by
  have hinsert : (t.state.calls.reachable.insert x).toList = t.state.calls.reachable.toList ++ [x] :=
    Numbering.toList_insert_of_not_mem fun hmem => hx (Numbering.contains_iff.2 hmem)
  refine h.append rfl rfl rfl hinsert ?_ (List.append_nil _).symm ?_
  · simp [State.reachedEvents, State.record, Deed.readings]
  · simp [State.calledEvents, State.record, Deed.wirings]

theorem addEdge (h : t.Tallies) {e : QCallEdge} (he : ¬ t.state.calls.hasEdge e.site e.callee = true) :
    Tallies ⟨({ t.state with calls := t.state.calls.addEdge e } : State).record (.called e),
      t.deeds ++ [.wired e]⟩ := by
  refine h.append rfl rfl rfl ?_ ?_ ?_ ?_
  · simp [State.record, Deed.readings]
  · simp [State.reachedEvents, State.record, Deed.readings]
  · simp [State.record, Deed.wirings, CallGraph.edges_addEdge he]
  · simp [State.calledEvents, State.record, Deed.wirings]

/-- A work item brings what is new in its cell, and at a variable that is met besides. -/
theorem delivered (h : t.Tallies) {c : CellId} (hc : t.state.entities.IsCell c)
    {new : IdSet (.qualified .object)} (hnew : ∀ o ∈ new, o ∉ t.state.entities.pointsTo c) {u : State}
    (hu : (t.state.spread c new).Quiet u) {met : List Deed} (hentered : met.flatMap Deed.entered = [])
    (hmet : met.flatMap Deed.meetings = (new.toList.map (c, ·)).flatMap t.state.entities.meetingsAt)
    (hreadings : met.flatMap Deed.readings = []) (hwirings : met.flatMap Deed.wirings = []) :
    Tallies ⟨u, t.deeds ++ .delivered c new :: met⟩ := by
  have hall : (t.deeds ++ .delivered c new :: met).flatMap Deed.entered =
      t.deeds.flatMap Deed.entered ++ new.toList.map (c, ·) := by
    rw [List.flatMap_append, List.flatMap_cons, hentered, List.append_nil]
    rfl
  refine ⟨?_, fun d o => ?_, ?_, ?_, ?_, ?_, ?_⟩
  · rw [hall, List.nodup_append]
    refine ⟨h.nodup, new.nodup_toList.map fun _ _ heq => (Prod.mk.inj heq).2, ?_⟩
    -- what came in before is in the cell, and so not among what is new
    rintro ⟨d, o⟩ hold _ hmem rfl
    obtain ⟨o', ho', heq⟩ := List.mem_map.1 hmem
    obtain ⟨rfl, rfl⟩ := Prod.mk.inj heq
    exact hnew o' (IdSet.mem_toList.1 ho') ((h.entered c o').1 hold)
  · rw [hall, List.mem_append, h.entered, hu.pointsTo, State.mem_pointsTo_spread hc]
    simp [and_comm, eq_comm]
  · have hextends : t.state.entities.Extends u.entities :=
      (Entities.extends_grow _ _ _).trans hu.entities
    -- cells that are numbered later do not change what was met where
    have hsame : ∀ p ∈ t.deeds.flatMap Deed.entered ++ new.toList.map (c, ·),
        t.state.entities.meetingsAt p = u.entities.meetingsAt p := by
      rintro ⟨d, o⟩ hmem
      refine (hextends.meetingsAt ?_ o).symm
      rcases List.mem_append.1 hmem with hold | hmem
      · exact Entities.isCell_of_mem_pointsTo ((h.entered d o).1 hold)
      · obtain ⟨o', -, heq⟩ := List.mem_map.1 hmem
        rwa [← (Prod.mk.inj heq).1]
    rw [hall, ← List.flatMap_congr hsame, List.flatMap_append, List.flatMap_append, List.flatMap_cons,
      hmet, h.meetings]
    rfl
  · rw [List.flatMap_append, List.flatMap_cons, hreadings, h.read, hu.reachable]
    exact List.append_nil _
  · rw [hu.reached, hu.reachable]
    exact h.reached
  · rw [List.flatMap_append, List.flatMap_cons, hwirings, h.wired, hu.edges]
    exact List.append_nil _
  · rw [hu.called, hu.edges]
    exact h.called

theorem nodup_meetings (h : t.Tallies) : (t.deeds.flatMap Deed.meetings).Nodup := by
  rw [h.meetings, List.nodup_flatMap]
  constructor
  · rintro ⟨c, o⟩ -
    rw [Entities.meetingsAt]
    cases t.state.entities.cell c <;> simp
  · refine h.nodup.imp_of_mem ?_
    rintro ⟨c, o⟩ ⟨d, p⟩ hc hd hne ⟨k, v, q⟩ hq hq'
    obtain ⟨hcell, rfl⟩ := Entities.mem_meetingsAt.1 hq
    obtain ⟨hcell', rfl⟩ := Entities.mem_meetingsAt.1 hq'
    have hknown := Entities.isCell_of_mem_pointsTo ((h.entered c q).1 hc)
    have hknown' := Entities.isCell_of_mem_pointsTo ((h.entered d q).1 hd)
    obtain rfl := Id.ext (Numbering.getD_injective hknown hknown' (hcell.trans hcell'.symm))
    exact hne rfl

theorem mem_meetings (h : t.Tallies) {k : ContextId} {v : VarId} {o : QObjectId} :
    (k, v, o) ∈ t.deeds.flatMap Deed.meetings ↔
      ∃ c, t.state.entities.lookupCell? (.var k v) = some c ∧ o ∈ t.state.entities.pointsTo c := by
  simp only [h.meetings, List.mem_flatMap, Entities.lookupCell?_eq_some_iff]
  constructor
  · rintro ⟨⟨c, p⟩, hentered, hmet⟩
    obtain ⟨hcell, rfl⟩ := Entities.mem_meetingsAt.1 hmet
    have ho := (h.entered c o).1 (List.mem_flatMap.2 hentered)
    exact ⟨c, ⟨Entities.isCell_of_mem_pointsTo ho, hcell⟩, ho⟩
  · rintro ⟨c, ⟨-, hcell⟩, ho⟩
    have hentered := List.mem_flatMap.1 ((h.entered c o).2 ho)
    exact ⟨(c, o), hentered, Entities.mem_meetingsAt.2 ⟨hcell, rfl⟩⟩

end Noted.Tallies

namespace Analysis

open State

variable {a : Analysis} {F : Facts} {t : Noted} {s : State} {order : WorkOrder}

/-! ### Steps and runs -/

theorem deliverNoted_eq (c : CellId) (objects : IdSet (.qualified .object)) (t : Noted) :
    a.deliverNoted c objects t = ⟨a.deliver c objects t.state,
      t.deeds ++ .delivered c (objects \ t.state.entities.pointsTo c) ::
        match t.state.entities.cell c with
        | .var k v => (objects \ t.state.entities.pointsTo c).toList.map (.met k v)
        | _ => []⟩ := by
  simp only [deliver_eq, deliverNoted, ← spread_eq, Noted.map, Noted.note]
  show (match t.state.entities.cell c with
    | .var k v => _
    | _ => _) = _
  cases t.state.entities.cell c with
  | var k v => simp [foldl_meetNoted]
  | field | static | elements => rfl

theorem quiet_deliver (c : CellId) (objects : IdSet (.qualified .object)) (s : State) :
    (s.spread c (objects \ s.entities.pointsTo c)).Quiet (a.deliver c objects s) := by
  rw [deliver_eq]
  split
  · exact .foldl (quiet_meet _ _) _ _
  · exact .refl _

theorem tallies_deliverNoted (h : t.Tallies) {c : CellId} (hc : t.state.entities.IsCell c)
    (objects : IdSet (.qualified .object)) : (a.deliverNoted c objects t).Tallies := by
  have hnew : ∀ o ∈ objects \ t.state.entities.pointsTo c, o ∉ t.state.entities.pointsTo c :=
    fun o ho => (IdSet.mem_sdiff.1 ho).2
  have hquiet := quiet_deliver (a := a) c objects t.state
  rw [deliverNoted_eq]
  cases hcell : t.state.entities.cell c with
  | var k v =>
    refine h.delivered hc hnew hquiet ?_ ?_ ?_ ?_
    · simp [Deed.entered, List.flatMap_map]
    · simp [Deed.meetings, Entities.meetingsAt, hcell, List.flatMap_map]
    · simp [Deed.readings, List.flatMap_map]
    · simp [Deed.wirings, List.flatMap_map]
  | field | static | elements =>
    refine h.delivered hc hnew hquiet rfl ?_ rfl rfl
    simp [Entities.meetingsAt, hcell, List.flatMap_map]

theorem tallies_enterNoted (h : t.Tallies) (x : QMethodId) : (a.enterNoted x t).Tallies := by
  rw [enterNoted]
  split
  · exact h
  · rename_i hx
    exact (h.addReachable hx).quiet (quiet_readAll _ _ _)

theorem tallies_installNoted (h : t.Tallies) (e : QCallEdge) : (a.installNoted e t).Tallies := by
  rw [installNoted]
  split
  · exact h
  · rename_i he
    refine Noted.Tallies.map (tallies_enterNoted ?_ e.callee) ?_
    · exact (h.addEdge he).quiet { quiet_addQMethod _ _ with }
    · exact (quiet_connectAll _ _).trans (quiet_returnResult _ _ _ _ _)

theorem tallies_stepNoted? (hs : t.state.Scoped) (h : t.Tallies) {u : Noted}
    (hstep : a.stepNoted? t = some u) : u.Tallies := by
  rw [stepNoted?] at hstep
  split at hstep
  · cases hstep
  · rename_i item rest hpoll
    obtain rfl := Option.some.inj hstep
    have hrest : (t.map fun s => { s with work := rest, processed := s.processed + 1 }).Tallies :=
      h.map { Quiet.refl t.state with }
    cases item with
    | objects c objects =>
      have hc : t.state.entities.IsCell c := isCell_of_polled (WorkList.polled_of_poll hpoll) hs
      exact tallies_deliverNoted hrest hc objects
    | call e => exact tallies_installNoted hrest e

theorem tallies_runNoted (hp : a.program.Indexed) (hF : a.Closed F) (fuel : Nat)
    (hs : t.state.Sound a F) (h : t.Tallies) : (a.runNoted fuel t).Tallies := by
  induction fuel generalizing t with
  | zero => exact h
  | succ fuel ih =>
    rw [runNoted]
    split
    · exact h
    · rename_i u hstep
      have hu : a.step? t.state = some u.state := by
        rw [← state_stepNoted?, hstep]
        rfl
      exact ih (advances_step hp hs hF hu).sound (tallies_stepNoted? hs.scope h hstep)

theorem tallies_startNoted (order : WorkOrder) : (a.startNoted order).Tallies := by
  have hempty : Noted.Tallies ⟨.empty order, []⟩ := by
    refine ⟨List.nodup_nil, fun c o => ?_, rfl, rfl, rfl, rfl, rfl⟩
    simp [State.empty, Entities.empty, Entities.pointsTo]
  refine tallies_enterNoted (hempty.quiet ?_) _
  exact { (quiet_addContext _ _).trans (quiet_addQMethod _ _) with }

theorem tallies_finalNoted (hp : a.program.Indexed) (order : WorkOrder) (limit : Option Nat) :
    (a.finalNoted order limit).Tallies := by
  refine tallies_runNoted hp (closed_all a) _ ?_ (tallies_startNoted order)
  rw [state_startNoted]
  exact (advances_start (closed_all a) order).1.sound

end Analysis

/-! ### What has been done in the end -/

/-- Two parts of a list without repetitions are not at one place. -/
theorem existsUnique_of_nodup_flatMap {α β : Type} {f : α → List β} {l : List α}
    (h : (l.flatMap f).Nodup) {b : β} (hb : b ∈ l.flatMap f) :
    ∃! i : Nat, ∃ x, l[i]? = some x ∧ b ∈ f x := by
  obtain ⟨x, hx, hbx⟩ := List.mem_flatMap.1 hb
  obtain ⟨i, hi⟩ := List.mem_iff_getElem?.1 hx
  have hapart : ∀ {i j : Nat} {x y : α}, l[i]? = some x → l[j]? = some y → i < j →
      b ∈ f x → b ∉ f y := by
    intro i j x y hi hj hij hbx hby
    obtain ⟨hilt, rfl⟩ := List.getElem?_eq_some_iff.1 hi
    obtain ⟨hjlt, rfl⟩ := List.getElem?_eq_some_iff.1 hj
    exact List.pairwise_iff_getElem.1 (List.nodup_flatMap.1 h).2 i j hilt hjlt hij hbx hby
  refine ⟨i, ⟨x, hi, hbx⟩, ?_⟩
  rintro j ⟨y, hj, hby⟩
  rcases Nat.lt_trichotomy i j with hij | rfl | hij
  · exact absurd hby (hapart hi hj hij hbx)
  · rfl
  · exact absurd hbx (hapart hj hi hij hby)

/-- Of the deeds on record each fact of the state comes from exactly one: an object in a cell from one work
item that brought it, and at a variable it was met once. Bodies were read in the order in which reachable
methods are listed and their reaching was recorded, and call edges wired likewise. -/
structure State.DoneOnce (s : State) (deeds : List Deed) : Prop where
  delivered : ∀ c, ∀ o ∈ s.entities.pointsTo c,
    ∃! i : Nat, ∃ new, deeds[i]? = some (.delivered c new) ∧ o ∈ new
  held : ∀ c new, Deed.delivered c new ∈ deeds → ∀ o ∈ new, o ∈ s.entities.pointsTo c
  met : ∀ k v c, s.entities.lookupCell? (.var k v) = some c → ∀ o ∈ s.entities.pointsTo c,
    ∃! i : Nat, deeds[i]? = some (.met k v o)
  known : ∀ k v o, Deed.met k v o ∈ deeds →
    ∃ c, s.entities.lookupCell? (.var k v) = some c ∧ o ∈ s.entities.pointsTo c
  read : deeds.flatMap Deed.readings = s.calls.reachable.toList
  reached : s.reachedEvents = s.calls.reachable.toList
  reachable : s.calls.reachable.toList.Nodup
  wired : deeds.flatMap Deed.wirings = s.calls.edges.toList
  called : s.calledEvents = s.calls.edges.toList
  edges : s.calls.edges.toList.Nodup

theorem Noted.Tallies.doneOnce {t : Noted} (h : t.Tallies) (hcalls : t.state.calls.Coherent) :
    t.state.DoneOnce t.deeds where
  delivered c o ho := by
    obtain ⟨i, ⟨d, hd, hentered⟩, hunique⟩ :=
      existsUnique_of_nodup_flatMap h.nodup ((h.entered c o).2 ho)
    obtain ⟨new, rfl, hnew⟩ := Deed.mem_entered.1 hentered
    refine ⟨i, ⟨new, hd, hnew⟩, ?_⟩
    rintro j ⟨new', hj, hnew'⟩
    exact hunique j ⟨_, hj, Deed.mem_entered.2 ⟨new', rfl, hnew'⟩⟩
  held c new hd o ho :=
    (h.entered c o).1 (List.mem_flatMap.2 ⟨_, hd, Deed.mem_entered.2 ⟨new, rfl, ho⟩⟩)
  met k v c hc o ho := by
    obtain ⟨i, ⟨d, hd, hmet⟩, hunique⟩ :=
      existsUnique_of_nodup_flatMap h.nodup_meetings (h.mem_meetings.2 ⟨c, hc, ho⟩)
    obtain rfl := Deed.mem_meetings.1 hmet
    exact ⟨i, hd, fun j hj => hunique j ⟨_, hj, Deed.mem_meetings.2 rfl⟩⟩
  known k v o hd := h.mem_meetings.1 (List.mem_flatMap.2 ⟨_, hd, Deed.mem_meetings.2 rfl⟩)
  read := h.read
  reached := h.reached
  reachable := Numbering.nodup_toList _
  wired := h.wired
  called := h.called
  edges := hcalls.nodup_edges

namespace Analysis

variable {a : Analysis} {s : State} {order : WorkOrder}

/-- A run that ends has done everything once. -/
theorem doneOnce_of_solve (hp : a.program.Accepted) {limit : Option Nat}
    (h : a.solve order limit = .ok s) : (a.finalNoted order limit).state = s ∧
      s.DoneOnce (a.finalNoted order limit).deeds := by
  have hstate : (a.finalNoted order limit).state = s := by
    rw [state_finalNoted]
    exact (solve_eq_ok h).1
  have hcalls := (advances_of_solve hp.indexed (closed_all a) h).sound.scope.calls
  have hdone := (tallies_finalNoted hp.indexed order limit).doneOnce (hstate.symm ▸ hcalls)
  rw [hstate] at hdone
  exact ⟨hstate, hdone⟩

theorem doneOnce_of_solve_identity : ∃ s, identity.solve .lifo none = .ok s ∧
    (identity.finalNoted .lifo none).state = s ∧ s.DoneOnce (identity.finalNoted .lifo none).deeds := by
  obtain ⟨s, hs⟩ := exists_eq_ok (e := identity.solve .lifo none) (by decide +kernel)
  exact ⟨s, hs, doneOnce_of_solve Program.accepted_identity hs⟩

end Analysis

end PointsTo
