import PointsTo.Proofs.Lockstep.Runs
import PointsTo.Proofs.Solver.Safety
import PointsTo.Proofs.Variants.TrimmedStates

/-! Runs on a program and on a trimmed one. If every method that a run enters is kept, no step of the run
looks at a statement that is missing in the trimmed program: the run on that takes the same steps, and the
states differ in the numbers of allocation sites and call sites only. -/

namespace PointsTo

namespace Analysis

open State

/-- The methods that the facts speak of are kept. -/
structure Keeps (a : Analysis) (keep : MethodId → Bool) (F : Facts) : Prop where
  reach : ∀ x ∈ F.reach, keep x.item = true
  vars : ∀ c v, .var c v ∈ a.cells F → a.program.IsVar v ∧ keep (a.program.var v).method = true

/-- The analysis of the trimmed program. -/
def trim (a : Analysis) (keep : MethodId → Bool) : Analysis := { a with program := a.program.trim keep }

variable {a : Analysis} {keep : MethodId → Bool} {F : Facts} {s u : State}

/-- An allocation with its heap context, its object and that object under the context by name. -/
theorem allocate_eq {c : ContextId} {i : SiteId} {d : Context}
    (hd : a.selector.heapContext (s.entities.context c) = d) {o : HeapObject}
    (ho : a.heap.object a.program.toModel i = o) {v : State} (hv : (s.addContext d).addObject o = v)
    {l : Qualified .object} (hl : ⟨v.entities.contextId d, v.entities.objectId o⟩ = l) :
    a.allocate c i s = (v.addQObject l).give (.var c (a.program.site i).lhs)
      ((v.addQObject l).entities.qobjectId l) := by
  subst hd ho hv hl
  rfl

/-- The state with a call edge whose call site is in the method given. -/
def place (e : QCallEdge) (caller : Qualified .method) (s : State) : State :=
  let v := (({ s with calls := s.calls.addEdge e } : State).record (.called e)).addQMethod caller
  { v with calls := v.calls.setContainer e.site (v.entities.qmethodId caller) }

theorem install_eq {e : QCallEdge} (hedge : ¬ s.calls.hasEdge e.site e.callee = true) {call : Call}
    (hcall : a.program.call (s.entities.qcall e.site).item = call) {c : ContextId}
    (hc : (s.entities.qcall e.site).context = c) {x : Method}
    (hx : a.program.method (s.entities.qmethod e.callee).item = x) {d : ContextId}
    (hd : (s.entities.qmethod e.callee).context = d) :
    a.install e s = returnResult call c x d
      ((a.enter e.callee (place e ⟨c, call.container⟩ s)).connectAll (argumentFlows call c x d)) := by
  subst hcall hc hx hd
  rw [install, if_neg hedge]
  rfl

section Operations

variable (h : InStep a.program keep s u)

include h

theorem inStep_allocate (c : ContextId) {i : SiteId} (hi : a.program.KeepsSite keep i) :
    InStep a.program keep (a.allocate c i s)
      ((a.trim keep).allocate c ((a.program.renumber keep).site i) u) := by
  have hheap : (a.trim keep).selector.heapContext (u.entities.context c) =
      (a.program.renumber keep).numbered (a.selector.heapContext (s.entities.context c)) := by
    rw [h.context]
    exact ((a.program.renumber keep).contextBy_heapContext id a.selector _).symm
  have hobject : (a.trim keep).heap.object (a.trim keep).program.toModel
      ((a.program.renumber keep).site i) =
        (a.program.renumber keep).object (a.heap.object a.program.toModel i) :=
    Program.Accepted.object_trim a.heap hi
  have hsite : (a.trim keep).program.site ((a.program.renumber keep).site i) = a.program.site i :=
    Program.site_trim hi
  obtain ⟨hcontext, hcid⟩ := h.addContext ((h.keepsContext c).heapContext a.selector)
  obtain ⟨hadded, hoid⟩ := hcontext.addObject (Program.keepsObject_object a.heap hi)
  rw [allocate_eq rfl rfl rfl rfl, allocate_eq hheap hobject rfl (congrArg₂ Qualified.mk hcid hoid), hsite,
    (hadded.addQObject _).qobjectId]
  exact (hadded.addQObject _).oblivious (oblivious_give _ _)

theorem inStep_callStatic (c : ContextId) {i : CallId} (hi : a.program.KeepsCall keep i) :
    InStep a.program keep (a.callStatic c i s)
      ((a.trim keep).callStatic c ((a.program.renumber keep).call i) u) := by
  have hcall : (a.trim keep).program.call ((a.program.renumber keep).call i) = a.program.call i :=
    Program.call_trim hi
  have hcallee : (a.trim keep).program.callee? none (a.program.call i) =
      a.program.callee? none (a.program.call i) := Program.sameDeclarations_trim.callee? none _
  have htarget : (a.trim keep).selector.calleeContext (u.entities.context c)
      ((a.program.renumber keep).call i) none = (a.program.renumber keep).numbered
        (a.selector.calleeContext (s.entities.context c) i none) := by
    rw [h.context]
    exact ((a.program.renumber keep).contextBy_calleeContext id a.selector _ i none).symm
  obtain ⟨hcontext, hid⟩ := h.addContext
    ((h.keepsContext c).calleeContext a.selector hi (r := none) (fun _ hr => by cases hr))
  rw [callStatic, callStatic, hcall, hcallee]
  cases a.program.callee? none (a.program.call i) with
  | none => exact h.record (.staticCallWithoutTarget i) hi
  | some x =>
    simp only [htarget, hid]
    exact hcontext.requestCall _ hi _

/-- A call meets an object. -/
theorem inStep_callOn (c : ContextId) (o : QObjectId) {i : CallId} (hi : a.program.KeepsCall keep i) :
    InStep a.program keep (a.callOn c o s i)
      ((a.trim keep).callOn c o u ((a.program.renumber keep).call i)) := by
  have hcall : (a.trim keep).program.call ((a.program.renumber keep).call i) = a.program.call i :=
    Program.call_trim hi
  have hreceiver := h.receiver o
  have htype : (u.entities.receiver o).object.type = (s.entities.receiver o).object.type := by
    rw [hreceiver]
    rfl
  have hcallee : (a.trim keep).program.callee? (some (u.entities.receiver o).object.type)
      ((a.trim keep).program.call ((a.program.renumber keep).call i)) =
        a.program.callee? (some (s.entities.receiver o).object.type) (a.program.call i) := by
    rw [hcall, htype]
    exact Program.sameDeclarations_trim.callee? _ _
  have htarget : (a.program.renumber keep).numbered
      (a.selector.calleeContext (s.entities.context c) i (some (s.entities.receiver o))) =
        (a.trim keep).selector.calleeContext (u.entities.context c) ((a.program.renumber keep).call i)
          (some (u.entities.receiver o)) := by
    rw [h.context, hreceiver]
    exact (a.program.renumber keep).contextBy_calleeContext id a.selector _ i (some _)
  obtain ⟨hcontext, hid⟩ := h.addContext ((h.keepsContext c).calleeContext a.selector hi
    (r := some (s.entities.receiver o)) (fun r hr => Option.some.inj hr ▸ h.keepsContext _))
  cases hx : a.program.callee? (some (s.entities.receiver o).object.type) (a.program.call i) with
  | none =>
    rw [callOn_of_callee_eq_none c hx, callOn_of_callee_eq_none c (hcallee.trans hx), hreceiver]
    exact h.record (.callWithoutTarget i _) hi
  | some x =>
    have hthis : ((a.trim keep).program.method x).this = (a.program.method x).this :=
      Program.sameDeclarations_trim.this x
    rw [callOn_of_callee_eq_some hx rfl, callOn_of_callee_eq_some (hcallee.trans hx) htarget, hthis, hid,
      hcall]
    cases (a.program.method x).this with
    | none => exact hcontext.requestCall _ hi _
    | some this => exact (hcontext.oblivious (oblivious_give _ o)).requestCall _ hi _

variable (hp : a.program.Accepted)

include hp

/-- The statement of a method that is kept. -/
theorem inStep_read (c : ContextId) {x : MethodId} (hx : keep x = true) {stmt : Stmt}
    (hstmt : stmt ∈ (a.program.method x).body) :
    InStep a.program keep (a.read c s stmt)
      ((a.trim keep).read c u ((a.program.renumber keep).stmt stmt)) := by
  cases stmt with
  | new i => exact inStep_allocate h c (hp.keepsSite_of_mem_body hx hstmt)
  | copy | loadStatic | storeStatic => exact h.oblivious (oblivious_connect _ _)
  | invoke i =>
    have hi := hp.keepsCall_of_mem_body hx hstmt
    have hcall : (a.trim keep).program.call ((a.program.renumber keep).call i) = a.program.call i :=
      Program.call_trim hi
    rw [read, Relabeling.stmt, read, hcall]
    split
    · exact inStep_callStatic h c hi
    · exact h
  | loadField | storeField | loadArray | storeArray | ret => exact h

theorem inStep_enter {x : QMethodId} (hx : keep (s.entities.qmethod x).item = true) :
    InStep a.program keep (a.enter x s) ((a.trim keep).enter x u) := by
  have hreached : Oblivious fun s : State => { s with calls := s.calls.addReachable x } :=
    ⟨fun _ _ _ _ _ => rfl, fun _ => rfl, fun _ => rfl, fun _ => rfl, fun _ => rfl, fun _ => rfl⟩
  have hstart := (h.oblivious hreached).record (.reached x) trivial
  have hmethod : (a.trim keep).program.method (s.entities.qmethod x).item =
      { a.program.method (s.entities.qmethod x).item with
        body := (a.program.method (s.entities.qmethod x).item).body.map
          (a.program.renumber keep).stmt } := Program.method_trim_of_keep hx
  have hread := h.qmethod x
  have hcontains : u.calls.contains x = s.calls.contains x := by
    rw [h.rest]
    rfl
  rw [enter, enter, hcontains]
  split
  · exact h
  · show InStep a.program keep
      ((a.program.method (s.entities.qmethod x).item).body.foldl
        (a.read (s.entities.qmethod x).context) _)
      (((a.trim keep).program.method (u.entities.qmethod x).item).body.foldl
        ((a.trim keep).read (u.entities.qmethod x).context) _)
    rw [hread, hmethod, ← Array.foldl_toList, ← Array.foldl_toList, Array.toList_map]
    refine InStep.foldl (fun s u h stmt hstmt => ?_) hstart
    exact inStep_read h hp _ hx (Array.mem_toList_iff.1 hstmt)

variable (hq : (a.program.trim keep).Accepted)

include hq

theorem inStep_meet (c : ContextId) {v : VarId} (hisvar : a.program.IsVar v)
    (hv : keep (a.program.var v).method = true) (o : QObjectId) :
    InStep a.program keep (a.meet c v s o) ((a.trim keep).meet c v u o) := by
  have huses : (a.trim keep).program.usesOf v =
      (a.program.usesOf v).mapCalls (a.program.renumber keep).call := hp.usesOf_trim hq hisvar hv
  have hflows : ((a.program.usesOf v).mapCalls (a.program.renumber keep).call).flows c o =
      (a.program.usesOf v).flows c o := rfl
  rw [meet, meet, huses, hflows, ← Array.foldl_toList, ← Array.foldl_toList, Uses.mapCalls,
    Array.toList_map]
  refine InStep.foldl (fun s u h i hi => ?_) (h.oblivious (oblivious_connectAll _))
  have hbody := (hp.indexed.calls v i).1 (Array.mem_toList_iff.1 hi)
  exact inStep_callOn h c o (hp.keepsCall_of_mem_body hv hbody.1)

theorem inStep_deliver {c : CellId} {objects : IdSet (.qualified .object)}
    (hvar : ∀ l v, s.entities.cell c = .var l v → ∀ o ∈ objects,
      a.program.IsVar v ∧ keep (a.program.var v).method = true) :
    InStep a.program keep (a.deliver c objects s) ((a.trim keep).deliver c objects u) := by
  have hspread := h.oblivious (oblivious_spread c (objects \ s.entities.pointsTo c))
  have hcell : u.entities.cell c = s.entities.cell c := by
    rw [h.rest]
    rfl
  have hpointsTo : u.entities.pointsTo c = s.entities.pointsTo c := by
    rw [h.rest]
    rfl
  rw [deliver_eq, deliver_eq, hcell, hpointsTo]
  cases hc : s.entities.cell c with
  | var l v =>
    have hfoldl := @InStep.foldl a.program keep _ _ (a.meet l v) ((a.trim keep).meet l v) id
      (objects \ s.entities.pointsTo c).toList (fun s u h o ho => ?_) _ _ hspread
    · rwa [List.map_id] at hfoldl
    · obtain ⟨hisvar, hv⟩ := hvar l v hc o (IdSet.mem_sdiff.1 (IdSet.mem_toList.1 ho)).1
      exact inStep_meet h hp hq l hisvar hv o
  | field | static | elements => exact hspread

omit hp hq in
theorem inStep_returnResult (call : Call) (c : ContextId) (x : Method) (d : ContextId) :
    InStep a.program keep (returnResult call c x d s) (returnResult call c x d u) := by
  rw [returnResult, returnResult]
  cases call.result with
  | none => exact h
  | some r => exact (h.oblivious (oblivious_addCell _)).oblivious (oblivious_connectAll _)

omit hp hq in
theorem inStep_place (e : QCallEdge) (caller : Qualified .method) :
    InStep a.program keep (place e caller s) (place e caller u) := by
  have hadd : Oblivious fun s : State => { s with calls := s.calls.addEdge e } :=
    ⟨fun _ _ _ _ _ => rfl, fun _ => rfl, fun _ => rfl, fun _ => rfl, fun _ => rfl, fun _ => rfl⟩
  have hset : Oblivious fun s =>
      { s.addQMethod caller with
        calls := (s.addQMethod caller).calls.setContainer e.site
          ((s.addQMethod caller).entities.qmethodId caller) } :=
    ⟨fun _ _ _ _ _ => rfl, fun _ => rfl, fun _ => rfl, fun _ => rfl, fun _ => rfl, fun _ => rfl⟩
  exact ((h.oblivious hadd).record (.called e) trivial).oblivious hset

omit hq in
/-- A call edge from a call site that is kept to a method that is. -/
theorem inStep_install {e : QCallEdge} (hsite : a.program.KeepsCall keep (s.entities.qcall e.site).item)
    (hknown : s.entities.IsQMethod e.callee) (hcallee : keep (s.entities.qmethod e.callee).item = true) :
    InStep a.program keep (a.install e s) ((a.trim keep).install e u) := by
  have hqcall := h.qcall e.site
  have hcall : (a.trim keep).program.call (u.entities.qcall e.site).item =
      a.program.call (s.entities.qcall e.site).item := by
    rw [hqcall]
    exact Program.call_trim hsite
  have hcontext : (u.entities.qcall e.site).context = (s.entities.qcall e.site).context := by
    rw [hqcall]
    rfl
  have hqmethod := h.qmethod e.callee
  have hedge : u.calls.hasEdge e.site e.callee = s.calls.hasEdge e.site e.callee := by
    rw [h.rest]
    rfl
  by_cases hinstalled : s.calls.hasEdge e.site e.callee = true
  · rw [install, install, hedge, if_pos hinstalled, if_pos hinstalled]
    exact h
  · have hentered := inStep_enter (inStep_place h e ⟨(s.entities.qcall e.site).context,
      (a.program.call (s.entities.qcall e.site).item).container⟩) hp (x := e.callee) (by
        have hsame := (Entities.extends_addQMethod s.entities ⟨(s.entities.qcall e.site).context,
          (a.program.call (s.entities.qcall e.site).item).container⟩).qmethod hknown
        rw [← hsame] at hcallee
        exact hcallee)
    have hmethod : (a.trim keep).program.method (u.entities.qmethod e.callee).item =
        { a.program.method (s.entities.qmethod e.callee).item with
          body := (a.program.method (s.entities.qmethod e.callee).item).body.map
            (a.program.renumber keep).stmt } := by
      rw [hqmethod]
      exact Program.method_trim_of_keep hcallee
    rw [install_eq hinstalled rfl rfl rfl rfl, install_eq (by rwa [hedge]) hcall hcontext hmethod
      (congrArg Qualified.context hqmethod)]
    -- what is passed and returned does not depend on the statements
    exact inStep_returnResult (hentered.oblivious (oblivious_connectAll _)) _ _ _ _

end Operations

/-! ### Steps and runs -/

section Runs

variable (hp : a.program.Accepted) (hq : (a.program.trim keep).Accepted)

include hp hq

/-- Both runs take up the same work item, or neither has one left. -/
theorem inStep_step (hF : a.Closed F) (hkeeps : a.Keeps keep F) (hs : s.Sound a F)
    (h : InStep a.program keep s u) :
    Option.Rel (InStep a.program keep) (a.step? s) ((a.trim keep).step? u) := by
  rw [step?, step?, h.work_eq]
  cases hpoll : s.work.poll with
  | none => exact .none
  | some next =>
    obtain ⟨item, rest⟩ := next
    have hpolled := WorkList.polled_of_poll hpoll
    have htake : Oblivious (·.without rest) :=
      ⟨fun _ _ _ _ _ => rfl, fun _ => rfl, fun _ => rfl, fun _ => rfl, fun _ => rfl, fun _ => rfl⟩
    have htaken := h.oblivious htake
    cases item with
    | objects c objects =>
      refine .some (inStep_deliver htaken hp hq fun l v hcell o ho => ?_)
      obtain ⟨hc, -, -⟩ := hs.due c o (Or.inr (hpolled.of_objects.1 ▸ ho))
      have hplace := hs.named.cells _ (Numbering.getD_mem hc default)
      rw [show s.entities.cells.values.getD c.index default = .var l v from hcell] at hplace
      exact hkeeps.vars _ v hplace
    | call e =>
      have hrequested : s.Requested e := Or.inr (hpolled.of_call.1 ▸ List.mem_cons_self)
      obtain ⟨hsite, hcallee, hcalled, -⟩ := hs.requested e hrequested
      refine .some (inStep_install htaken hp ?_ hcallee ?_)
      · exact h.keeps.qcalls _ (Numbering.getD_mem hsite default)
      · exact hkeeps.reach _ (hF.wires _ hcalled).callee

theorem inStep_run (hF : a.Closed F) (hkeeps : a.Keeps keep F) (hs : s.Sound a F)
    (h : InStep a.program keep s u) (fuel : Nat) :
    InStep a.program keep (a.run fuel s) ((a.trim keep).run fuel u) := by
  induction fuel generalizing s u with
  | zero => exact h
  | succ fuel ih =>
    have hstep := inStep_step hp hq hF hkeeps hs h
    rw [run, run]
    generalize hv : a.step? s = v at *
    generalize (a.trim keep).step? u = w at *
    cases hstep with
    | none => exact h
    | some hnext => exact ih (advances_step hp.indexed hs hF hv).sound hnext

omit hq in
theorem inStep_start (hentry : keep a.program.entry = true) (order : WorkOrder) :
    InStep a.program keep (a.start order) ((a.trim keep).start order) := by
  have hempty : InStep a.program keep (State.empty order) (State.empty order) := by
    refine ⟨⟨rfl, rfl, rfl, Array.map_empty.symm, rfl⟩, ⟨fun _ hc => ?_, fun _ ho => ?_, fun _ hc => ?_⟩,
      fun _ he => ?_⟩
    · simp [State.empty, Entities.empty] at hc
    · simp [State.empty, Entities.empty] at ho
    · simp [State.empty, Entities.empty] at hc
    · simp [State.empty] at he
  obtain ⟨hcontext, -⟩ := hempty.addContext Program.KeepsContext.empty
  have hadd : ∀ x : Qualified .method, Oblivious fun s =>
      { s.addQMethod x with calls := s.calls.addEntry ((s.addQMethod x).entities.qmethodId x) } :=
    fun _ => ⟨fun _ _ _ _ _ => rfl, fun _ => rfl, fun _ => rfl, fun _ => rfl, fun _ => rfl, fun _ => rfl⟩
  refine inStep_enter (hcontext.oblivious (hadd _)) hp ?_
  have hread := Entities.qmethod_qmethodId (mem_addQMethod ((State.empty order).addContext .empty)
    ⟨((State.empty order).addContext .empty).entities.contextId .empty, a.program.entry⟩)
  exact (congrArg (fun x => keep x.item) hread).trans hentry

theorem inStep_of_run (hF : a.Closed F) (hkeeps : a.Keeps keep F) (order : WorkOrder) (fuel : Nat) :
    InStep a.program keep (a.run fuel (a.start order))
      ((a.trim keep).run fuel ((a.trim keep).start order)) :=
  inStep_run hp hq hF hkeeps (advances_start hF order).1.sound
    (inStep_start hp (hkeeps.reach _ hF.entry) order) fuel

omit hq in
/-- The variables that a finished run has come across are those of reachable methods. -/
theorem keeps_of_solve {order : WorkOrder} {limit : Option Nat} (h : a.solve order limit = .ok s)
    (hkeep : ∀ x ∈ s.facts.reach, keep x.item = true) : a.Keeps keep s.facts := by
  refine ⟨hkeep, fun c v hv => ?_⟩
  have hfinal := final_of_solve hp.indexed h
  rw [← hfinal.image_cellAt] at hv
  obtain ⟨cell, hcell, hplace⟩ := hv
  have hmem : s.entities.cell cell ∈ s.entities.cells.toList := Numbering.getD_mem hcell _
  have hread : s.entities.placeOf (s.entities.cell cell) = .var c v := hplace
  cases hvar : s.entities.cell cell with
  | var k w =>
    rw [hvar] at hread hmem
    obtain ⟨-, rfl⟩ := CellOf.var.inj hread
    have hpossible := (advances_of_solve hp.indexed (closed_possibleFacts hp) h).sound
    refine ⟨(cellInRange hp hpossible hmem).2, ?_⟩
    obtain ⟨x, hx, -, hmethod⟩ := (complete_of_solve hp h).vars k w hmem
    have hreach := hkeep _ ⟨x, hx, rfl⟩
    rwa [show (s.entities.qmethodAt x).item = (a.program.var w).method from
      congrArg Qualified.item hmethod] at hreach
  | field | static | elements =>
    rw [hvar] at hread
    cases hread

end Runs

end Analysis

end PointsTo
