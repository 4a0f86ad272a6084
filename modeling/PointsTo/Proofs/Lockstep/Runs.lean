import PointsTo.Proofs.Lockstep.Operations
import PointsTo.Solver.Statistics

/-! Object and type sensitivity on merged objects. A merged object is known by its class and has no
class that contains its allocation site, so telling instance methods apart by their receivers is the same
as telling them apart by the classes of their receivers. The two analyses take the same steps: after the
same number of them their states differ in nothing but what contexts list. -/

namespace PointsTo

namespace Analysis

open State

/-- The analysis that tells instance methods apart by the merged objects that they are called on. -/
def byReceiver (p : Program) (k n : Nat) : Analysis := ⟨p, .object k n, .type⟩

/-- The analysis that tells them apart by the classes of those objects. -/
def byReceiverClass (p : Program) (k n : Nat) : Analysis := ⟨p, .type k n, .type⟩

theorem program_byReceiver (p : Program) (k n : Nat) : (byReceiver p k n).program = p := rfl

theorem program_byReceiverClass (p : Program) (k n : Nat) : (byReceiverClass p k n).program = p := rfl

variable {p : Program} {k n : Nat} {known : Set QObjectId} {s u : State}

/-! ### The operations of the analyses -/

/-- A request under a callee context that both states number first. -/
theorem lockstep_requestCall (h : Lockstep known s u) {c d : Context} (hc : s.entities.ListsObjects c)
    (hd : d = s.entities.typed c) (kind : CallKind) (site : Qualified .call) (x : MethodId) :
    Lockstep known
      ((s.addContext c).requestCall kind site ⟨(s.addContext c).entities.contextId c, x⟩)
      ((u.addContext d).requestCall kind site ⟨(u.addContext d).entities.contextId d, x⟩) := by
  obtain ⟨hcontext, hid⟩ := h.addContext hc hd
  rw [hid]
  exact hcontext.blind (blind_requestCall kind site _)

/-- An object for a cell, under a heap context that both states number first. -/
theorem lockstep_give (h : Lockstep known s u) {c d : Context} (hc : s.entities.ListsObjects c)
    (hd : d = s.entities.typed c) {o : HeapObject} (ho : o.merge = o) {v w : State}
    (hv : v = (s.addContext c).addObject o) (hw : w = (u.addContext d).addObject o)
    {l q : Qualified .object} (hl : l = ⟨v.entities.contextId c, v.entities.objectId o⟩)
    (hq : q = ⟨w.entities.contextId d, w.entities.objectId o⟩) (x : Cell) :
    Lockstep known ((v.addQObject l).give x ((v.addQObject l).entities.qobjectId l))
      ((w.addQObject q).give x ((w.addQObject q).entities.qobjectId q)) := by
  obtain ⟨hcontext, hid⟩ := h.addContext hc hd
  have hobject := hcontext.addObject ho
  have hmem := mem_addObject (s.addContext c) o
  have hcontextid : w.entities.contextId d = v.entities.contextId c := by
    rw [hv, hw]
    exact hid
  rw [← hv, ← hw] at hobject
  rw [← hv] at hmem
  have hknown : v.entities.IsObject l.item := by
    rw [hl]
    exact Entities.isObject_objectId hmem
  obtain ⟨m, rfl⟩ := hobject.exists_eq
  obtain rfl : q = l := by
    rw [hq, hl, hcontextid]
    rfl
  exact (hobject.addQObject hknown).blind (blind_give x ((v.addQObject q).entities.qobjectId q))

theorem lockstep_allocate (h : Lockstep known s u) (c : ContextId) (i : SiteId) :
    Lockstep known ((byReceiver p k n).allocate c i s) ((byReceiverClass p k n).allocate c i u) := by
  have hheap : (u.entities.context c).last n = s.entities.typed ((s.entities.context c).last n) := by
    rw [h.context]
    exact (ContextOf.typed_last _ _ n).symm
  exact lockstep_give h ((h.merged.listsObjects c).last n) hheap
    (o := HeapModel.type.object p.toModel i) rfl rfl rfl rfl rfl (.var c (p.site i).lhs)

theorem lockstep_callStatic (h : Lockstep known s u) (c : ContextId) (i : CallId) :
    Lockstep known ((byReceiver p k n).callStatic c i s)
      ((byReceiverClass p k n).callStatic c i u) := by
  rw [callStatic, callStatic, program_byReceiver, program_byReceiverClass]
  cases p.callee? none (p.call i) with
  | none => exact h.blind (blind_record _)
  | some x => exact lockstep_requestCall h (h.merged.listsObjects c) (h.context c) _ _ x

theorem lockstep_read (h : Lockstep known s u) (c : ContextId) (stmt : Stmt) :
    Lockstep known ((byReceiver p k n).read c s stmt) ((byReceiverClass p k n).read c u stmt) := by
  cases stmt with
  | new i => exact lockstep_allocate h c i
  | copy | loadStatic | storeStatic => exact h.blind (blind_connect _ _)
  | invoke i =>
    rw [read, read, program_byReceiver, program_byReceiverClass]
    split
    · exact lockstep_callStatic h c i
    · exact h
  | loadField | storeField | loadArray | storeArray | ret => exact h

theorem lockstep_enter (h : Lockstep known s u) (x : QMethodId) :
    Lockstep known ((byReceiver p k n).enter x s) ((byReceiverClass p k n).enter x u) := by
  have hreached : Blind fun s =>
      ({ s with calls := s.calls.addReachable x } : State).record (.reached x) :=
    ⟨fun _ _ => rfl, fun _ => rfl, fun _ => rfl, fun _ => rfl⟩
  have hstart := h.blind hreached
  obtain ⟨m, rfl⟩ := h.exists_eq
  have hcontains : (s.withContexts m).calls.contains x = s.calls.contains x := rfl
  rw [enter, enter, hcontains, ← Array.foldl_toList, ← Array.foldl_toList]
  split
  · exact h
  · exact hstart.foldl fun s u h stmt _ => lockstep_read h _ stmt

/-- A call under a context of the same number binds the same receiver. -/
theorem lockstep_callUnder (h : Lockstep known s u) {c d : ContextId} (hid : d = c) (o : QObjectId)
    (x : MethodId) (kind : CallKind) (site : Qualified .call) :
    Lockstep known
      (State.requestCall (match (p.method x).this with
        | none => s
        | some this => s.give (.var c this) o) kind site ⟨c, x⟩)
      (State.requestCall (match (p.method x).this with
        | none => u
        | some this => u.give (.var d this) o) kind site ⟨d, x⟩) := by
  subst hid
  cases (p.method x).this with
  | none => exact h.blind (blind_requestCall kind site _)
  | some this => exact (h.blind (blind_give _ o)).blind (blind_requestCall kind site _)

section CallOn

variable {a : Analysis} {o : QObjectId} {i : CallId}

theorem callOn_of_callee_eq_none (c : ContextId) (hx : a.program.callee?
    (some (s.entities.receiver o).object.type) (a.program.call i) = none) :
    a.callOn c o s i = s.record (.callWithoutTarget i (s.entities.receiver o).id) := by
  unfold callOn
  simp only [show a.program.callee? (some (s.entities.object (s.entities.qobject o).item).type)
    (a.program.call i) = none from hx]
  rfl

theorem callOn_of_callee_eq_some {c : ContextId} {x : MethodId} (hx : a.program.callee?
    (some (s.entities.receiver o).object.type) (a.program.call i) = some x) {d : Context}
    (hd : d = a.selector.calleeContext (s.entities.context c) i (some (s.entities.receiver o))) :
    a.callOn c o s i = State.requestCall (match (a.program.method x).this with
      | none => s.addContext d
      | some this => (s.addContext d).give (.var ((s.addContext d).entities.contextId d) this) o)
      (a.program.call i).kind ⟨c, i⟩ ⟨(s.addContext d).entities.contextId d, x⟩ := by
  subst hd
  unfold callOn
  simp only [show a.program.callee? (some (s.entities.object (s.entities.qobject o).item).type)
    (a.program.call i) = some x from hx]
  rfl

end CallOn

theorem receiver_eq (h : Lockstep known s u) (o : QObjectId) :
    u.entities.receiver o = ⟨s.entities.typed (s.entities.receiver o).context,
      (s.entities.receiver o).id, (s.entities.receiver o).object⟩ := by
  have hcontext := h.context (s.entities.qobject o).context
  obtain ⟨m, rfl⟩ := h.exists_eq
  exact congrArg (ReceiverOf.mk · _ _) hcontext

/-- A receiver that is known extends the two contexts alike. -/
theorem calleeContext_eq (h : Lockstep known s u) {o : QObjectId} (ho : o ∈ known) (c d : Context)
    (i : CallId) :
    (Selector.type k n).calleeContext d i (some (u.entities.receiver o)) =
      s.entities.typed
        ((Selector.object k n).calleeContext c i (some (s.entities.receiver o))) := by
  have hitem := h.merged.qobjects _ (Numbering.getD_mem (h.known o ho) default)
  -- there is no class that contains the allocation site of a merged object, so its own class counts
  have hcontainer : (s.entities.receiver o).object.container = none :=
    (congrArg HeapObject.container (h.merged.merge_object hitem)).symm
  rw [receiver_eq h]
  show (s.entities.typed (s.entities.receiver o).context).append
    (.type ((s.entities.receiver o).object.container.getD (s.entities.receiver o).object.type)) k = _
  rw [hcontainer]
  exact (ContextOf.typed_append _ _ (.object (s.entities.receiver o).id) k).symm

theorem listsObjects_calleeContext (h : Lockstep known s u) {o : QObjectId} (ho : o ∈ known)
    (c : Context) (i : CallId) : s.entities.ListsObjects
      ((Selector.object k n).calleeContext c i (some (s.entities.receiver o))) := by
  have hitem := h.merged.qobjects _ (Numbering.getD_mem (h.known o ho) default)
  exact (h.merged.listsObjects (s.entities.qobject o).context).append hitem k

theorem lockstep_callOn (h : Lockstep known s u) {o : QObjectId} (ho : o ∈ known) (c : ContextId)
    (i : CallId) :
    Lockstep known ((byReceiver p k n).callOn c o s i) ((byReceiverClass p k n).callOn c o u i) := by
  have htarget := calleeContext_eq (k := k) (n := n) h ho (s.entities.context c) (u.entities.context c) i
  have hlists := listsObjects_calleeContext (k := k) (n := n) h ho (s.entities.context c) i
  obtain ⟨hcontext, hid⟩ := h.addContext hlists htarget
  have hreceiver := receiver_eq h o
  have hcallee : p.callee? (some (u.entities.receiver o).object.type) (p.call i) =
      p.callee? (some (s.entities.receiver o).object.type) (p.call i) := by rw [hreceiver]
  cases hx : p.callee? (some (s.entities.receiver o).object.type) (p.call i) with
  | none =>
    rw [callOn_of_callee_eq_none (a := byReceiver p k n) c hx,
      callOn_of_callee_eq_none (a := byReceiverClass p k n) c (hcallee.trans hx), hreceiver]
    exact h.blind (blind_record _)
  | some x =>
    rw [callOn_of_callee_eq_some (a := byReceiver p k n) hx rfl,
      callOn_of_callee_eq_some (a := byReceiverClass p k n) (hcallee.trans hx) rfl]
    exact lockstep_callUnder hcontext hid o x (p.call i).kind ⟨c, i⟩

theorem lockstep_meet (h : Lockstep known s u) {o : QObjectId} (ho : o ∈ known) (c : ContextId)
    (v : VarId) :
    Lockstep known ((byReceiver p k n).meet c v s o) ((byReceiverClass p k n).meet c v u o) := by
  rw [meet, meet, ← Array.foldl_toList, ← Array.foldl_toList]
  apply Lockstep.foldl fun s u h i _ => lockstep_callOn h ho c i
  exact h.blind (blind_connectAll _)

/-! ### Steps and runs -/

theorem lockstep_deliver (h : Lockstep known s u) {c : CellId} {objects : IdSet (.qualified .object)}
    (hobjects : ∀ o ∈ objects, s.entities.IsQObject o) :
    Lockstep known ((byReceiver p k n).deliver c objects s)
      ((byReceiverClass p k n).deliver c objects u) := by
  -- the objects that are met have to be known all along, not only to begin with
  have hall : Lockstep {o | s.entities.IsQObject o} s u := h.know fun _ ho => ho
  suffices hdelivered : Lockstep {o | s.entities.IsQObject o}
      ((byReceiver p k n).deliver c objects s) ((byReceiverClass p k n).deliver c objects u) from
    hdelivered.know fun o ho => hdelivered.known o (h.known o ho)
  have hspread := hall.blind (blind_spread c (objects \ s.entities.pointsTo c))
  have hnew : ∀ o ∈ (objects \ s.entities.pointsTo c).toList, o ∈ {o | s.entities.IsQObject o} :=
    fun o ho => hobjects o (IdSet.mem_sdiff.1 (IdSet.mem_toList.1 ho)).1
  obtain ⟨m, rfl⟩ := h.exists_eq
  have hcell : (s.withContexts m).entities.cell c = s.entities.cell c := rfl
  have hpointsTo : (s.withContexts m).entities.pointsTo c = s.entities.pointsTo c := rfl
  rw [deliver_eq, deliver_eq, hcell, hpointsTo]
  cases s.entities.cell c with
  | var l v => exact hspread.foldl fun s u h o ho => lockstep_meet h (hnew o ho) l v
  | field | static | elements => exact hspread

theorem lockstep_returnResult (h : Lockstep known s u) (call : Call) (c : ContextId) (x : Method)
    (d : ContextId) :
    Lockstep known (returnResult call c x d s) (returnResult call c x d u) := by
  rw [returnResult, returnResult]
  cases call.result with
  | none => exact h
  | some r => exact (h.blind (blind_addCell _)).blind (blind_connectAll _)

/-- The edge is added and its call site placed in a method without regard to contexts. -/
theorem blind_place (e : QCallEdge) (caller : Qualified .method) : Blind fun s =>
    let u := (({ s with calls := s.calls.addEdge e } : State).record (.called e)).addQMethod caller
    { u with calls := u.calls.setContainer e.site (u.entities.qmethodId caller) } :=
  ⟨fun _ _ => rfl, fun _ => rfl, fun _ => rfl, fun _ => rfl⟩

theorem lockstep_install (h : Lockstep known s u) (e : QCallEdge) :
    Lockstep known ((byReceiver p k n).install e s) ((byReceiverClass p k n).install e u) := by
  have hplaced := h.blind (blind_place e ⟨(s.entities.qcall e.site).context,
    (p.call (s.entities.qcall e.site).item).container⟩)
  have hentered := lockstep_enter (p := p) (k := k) (n := n) hplaced e.callee
  have hpassed := hentered.blind (blind_connectAll (argumentFlows
    (p.call (s.entities.qcall e.site).item) (s.entities.qcall e.site).context
    (p.method (s.entities.qmethod e.callee).item) (s.entities.qmethod e.callee).context))
  have hreturned := lockstep_returnResult hpassed (p.call (s.entities.qcall e.site).item)
    (s.entities.qcall e.site).context (p.method (s.entities.qmethod e.callee).item)
    (s.entities.qmethod e.callee).context
  obtain ⟨m, rfl⟩ := h.exists_eq
  have hedge : (s.withContexts m).calls.hasEdge e.site e.callee = s.calls.hasEdge e.site e.callee := rfl
  rw [install, install, hedge]
  split
  · exact h
  · exact hreturned

/-- Both analyses take up the same work item, or neither has one left. -/
theorem lockstep_step (hs : s.Scoped) (h : Lockstep ∅ s u) :
    Option.Rel (Lockstep ∅) ((byReceiver p k n).step? s) ((byReceiverClass p k n).step? u) := by
  rw [step?, step?, h.work_eq]
  cases hpoll : s.work.poll with
  | none => exact .none
  | some next =>
    obtain ⟨item, rest⟩ := next
    have htake : Blind (·.without rest) :=
      ⟨fun _ _ => rfl, fun _ => rfl, fun _ => rfl, fun _ => rfl⟩
    have htaken := h.blind htake
    cases item with
    | call e => exact .some (lockstep_install htaken e)
    | objects c objects =>
      have hpolled := WorkList.polled_of_poll hpoll
      refine .some (lockstep_deliver htaken fun o ho => ?_)
      exact (hs.due c o (Or.inr (hpolled.of_objects.1 ▸ ho))).2

theorem lockstep_run (hp : p.Indexed) (hs : s.Sound (byReceiver p k n) .all) (h : Lockstep ∅ s u)
    (fuel : Nat) :
    Lockstep ∅ ((byReceiver p k n).run fuel s) ((byReceiverClass p k n).run fuel u) := by
  induction fuel generalizing s u with
  | zero => exact h
  | succ fuel ih =>
    have hstep := lockstep_step (p := p) (k := k) (n := n) hs.scope h
    rw [run, run]
    generalize hv : (byReceiver p k n).step? s = v at *
    generalize (byReceiverClass p k n).step? u = w at *
    cases hstep with
    | none => exact h
    | some hnext => exact ih (advances_step hp hs (closed_all _) hv).sound hnext

theorem lockstep_start (p : Program) (k n : Nat) (order : WorkOrder) :
    Lockstep ∅ ((byReceiver p k n).start order) ((byReceiverClass p k n).start order) := by
  have hempty : Lockstep ∅ (State.empty order) (State.empty order) :=
    ⟨⟨rfl, rfl⟩, Entities.Merged.empty, fun _ ho => ho.elim⟩
  have hentry : ∀ x : Qualified .method, Blind fun s =>
      { s.addQMethod x with calls := s.calls.addEntry ((s.addQMethod x).entities.qmethodId x) } :=
    fun _ => ⟨fun _ _ => rfl, fun _ => rfl, fun _ => rfl, fun _ => rfl⟩
  have hcontext := (hempty.addContext (c := .empty) Entities.listsObjects_empty rfl).1
  exact lockstep_enter (hcontext.blind (hentry _)) _

theorem lockstep_of_run (hp : p.Indexed) (k n : Nat) (order : WorkOrder) (fuel : Nat) :
    Lockstep ∅ ((byReceiver p k n).run fuel ((byReceiver p k n).start order))
      ((byReceiverClass p k n).run fuel ((byReceiverClass p k n).start order)) := by
  have hsound := (advances_start (closed_all (byReceiver p k n)) order).1.sound
  exact lockstep_run hp hsound (lockstep_start p k n order) fuel

theorem statistics_of_retyped (h : s.Retyped u) : s.statistics = u.statistics := by
  have hcontexts : u.entities.contexts.size = s.entities.contexts.size := by
    rw [Numbering.size_eq_length, Numbering.size_eq_length, h.contexts, List.length_map]
  rw [h.rest]
  unfold State.statistics
  rw [← hcontexts]
  rfl

/-- Work is left in both states or in neither. -/
theorem finished_of_retyped (h : s.Retyped u) (limit : Option Nat) :
    (s.finished limit = .ok s ∧ u.finished limit = .ok u) ∨
      ∃ e, s.finished limit = .error e ∧ u.finished limit = .error e := by
  unfold State.finished
  rw [h.work_eq]
  split
  · exact Or.inl ⟨rfl, rfl⟩
  · exact Or.inr ⟨_, rfl, rfl⟩

/-- On merged objects, object and type sensitivity take the same steps, whatever the work order. After any
number of them their states differ in contexts only, where the first lists objects and the second lists
the classes of those objects. So under any limit both analyses finish in such states, with the same
figures, or both exceed it. -/
theorem runs_in_lockstep {p : Program} (hp : p.Accepted) (k n : Nat) (order : WorkOrder) :
    (∀ fuel, Retyped
      ((⟨p, .object k n, .type⟩ : Analysis).run fuel ((⟨p, .object k n, .type⟩ : Analysis).start order))
      ((⟨p, .type k n, .type⟩ : Analysis).run fuel ((⟨p, .type k n, .type⟩ : Analysis).start order))) ∧
    ∀ limit,
      (∃ s u, (⟨p, .object k n, .type⟩ : Analysis).solve order limit = .ok s ∧
        (⟨p, .type k n, .type⟩ : Analysis).solve order limit = .ok u ∧ s.Retyped u ∧
        s.statistics = u.statistics) ∨
      ∃ e, (⟨p, .object k n, .type⟩ : Analysis).solve order limit = .error e ∧
        (⟨p, .type k n, .type⟩ : Analysis).solve order limit = .error e := by
  have hrun : ∀ fuel, Retyped
      ((byReceiver p k n).run fuel ((byReceiver p k n).start order))
      ((byReceiverClass p k n).run fuel ((byReceiverClass p k n).start order)) :=
    fun fuel => (lockstep_of_run hp.indexed k n order fuel).toRetyped
  refine ⟨hrun, fun limit => ?_⟩
  have hfinal := hrun (limit.getD itemRange)
  rcases finished_of_retyped hfinal limit with ⟨hs, hu⟩ | herror
  · exact Or.inl ⟨_, _, hs, hu, hfinal, statistics_of_retyped hfinal⟩
  · exact Or.inr herror

/-- On the small program both analyses finish. -/
theorem runs_in_lockstep_identity : ∃ s u,
    (⟨.identity, .object 1 0, .type⟩ : Analysis).solve .fifo none = .ok s ∧
      (⟨.identity, .type 1 0, .type⟩ : Analysis).solve .fifo none = .ok u ∧ s.Retyped u ∧
      s.statistics = u.statistics := by
  obtain ⟨s, hs⟩ := exists_eq_ok
    (e := (⟨.identity, .object 1 0, .type⟩ : Analysis).solve .fifo none) (by decide +kernel)
  obtain ⟨-, hsolve⟩ := runs_in_lockstep Program.accepted_identity 1 0 .fifo
  rcases hsolve none with hfinished | ⟨e, he, -⟩
  · exact hfinished
  · rw [hs] at he
    cases he

end Analysis

end PointsTo
