import PointsTo.Proofs.Program.Callees
import PointsTo.Proofs.Program.Owners
import PointsTo.Proofs.Program.Uses
import PointsTo.Proofs.Solver.Operations

/-! What the operations of the solver can do besides advancing. An operation works on behalf of some
methods under a context. It leaves a bounded number of work items, requests calls of its callers only,
and a variable that it numbers belongs to one of its hosts or to a method that is entered already or
called by an edge that waits. -/

namespace PointsTo

theorem WorkList.size_addObjects_le (w : WorkList) (c : CellId)
    (objects : IdSet (.qualified .object)) : (w.addObjects c objects).size ≤ w.size + 1 := by
  unfold addObjects
  split
  · exact Nat.le_succ _
  · by_cases hc : w.pending.contains c = true
    · simp [size, hc]
    · simp only [size, hc, Bool.false_eq_true, if_false, Queue.size_eq, Queue.toList_push,
        List.length_append, List.length_singleton]
      omega

theorem WorkList.size_foldl_addObjects_le (cells : List CellId) (objects : IdSet (.qualified .object))
    (w : WorkList) :
    (cells.foldl (fun w c => w.addObjects c objects) w).size ≤ w.size + cells.length := by
  induction cells generalizing w with
  | nil => exact Nat.le_refl _
  | cons c cells ih =>
    rw [List.foldl_cons, List.length_cons]
    have hhead := w.size_addObjects_le c objects
    have hrest := ih (w.addObjects c objects)
    omega

theorem WorkList.size_addCall (w : WorkList) (e : QCallEdge) : (w.addCall e).size = w.size + 1 := by
  simp only [size, addCall, Queue.size_eq, Queue.toList_push, List.length_append, List.length_singleton]
  omega

/-- The method that holds a call site, under the context of the call site. -/
def Program.holder (p : Program) (c : Qualified .call) : Qualified .method :=
  ⟨c.context, (p.call c.item).container⟩

namespace State

/-- The method under a context is reachable, or a call edge to it waits. -/
def Expects (s : State) (y : Qualified .method) : Prop :=
  ∃ x, s.entities.IsQMethod x ∧ s.entities.qmethod x = y ∧
    (x ∈ s.calls.reachable.toList ∨ ∃ e ∈ s.work.calls.toList, e.callee = x)

/-- The callees of the call edges are reachable. -/
def Linked (s : State) : Prop :=
  ∀ c x, s.calls.hasEdge c x = true → x ∈ s.calls.reachable.toList

/-- At most `cost` more work items are left, and none has been dealt with. -/
structure Leaves (cost : Nat) (s u : State) : Prop where
  size : u.work.size ≤ s.work.size + cost
  processed : u.processed = s.processed

/-- What an operation does at most that requests calls of `callers`, numbers variables of `hosts` and
leaves `cost` work items. -/
structure Serves (p : Program) (callers hosts : Set (Qualified .method)) (cost : Nat) (s u : State) :
    Prop extends Leaves cost s u where
  entities : s.entities.Extends u.entities
  entries : u.calls.entries = s.calls.entries
  reachable : u.calls.reachable = s.calls.reachable
  edges : u.calls.edges = s.calls.edges
  callees : u.calls.calleeIndex = s.calls.calleeIndex
  waiting : ∀ e ∈ s.work.calls.toList, e ∈ u.work.calls.toList
  calls : ∀ e ∈ u.work.calls.toList, e ∈ s.work.calls.toList ∨
    u.entities.IsQCall e.site ∧ p.holder (u.entities.qcall e.site) ∈ callers
  cells : ∀ k v, .var k v ∈ u.entities.cells.toList → .var k v ∈ s.entities.cells.toList ∨
    ⟨k, (p.var v).method⟩ ∈ hosts ∨ u.Expects ⟨k, (p.var v).method⟩

variable {p : Program} {callers hosts : Set (Qualified .method)} {m n : Nat} {s u v : State}

theorem Leaves.trans (h : Leaves m s u) (h' : Leaves n u v) : Leaves (m + n) s v where
  size := calc
    v.work.size ≤ u.work.size + n := h'.size
    _ ≤ s.work.size + m + n := Nat.add_le_add_right h.size n
    _ = s.work.size + (m + n) := Nat.add_assoc _ m n
  processed := h'.processed.trans h.processed

theorem Leaves.mono (h : Leaves m s u) (hcost : m ≤ n) : Leaves n s u :=
  { h with size := Nat.le_trans h.size (Nat.add_le_add_left hcost _) }

namespace Serves

theorem refl (s : State) : Serves p callers hosts 0 s s where
  processed := rfl
  entities := .refl _
  entries := rfl
  reachable := rfl
  edges := rfl
  callees := rfl
  size := Nat.le_refl _
  waiting _ he := he
  calls _ he := Or.inl he
  cells _ _ h := Or.inl h

theorem hasEdge_eq (h : Serves p callers hosts m s u) (c : QCallId) (x : QMethodId) :
    u.calls.hasEdge c x = s.calls.hasEdge c x := by
  rw [Bool.eq_iff_iff, CallGraph.hasEdge_iff_mem_callees, CallGraph.hasEdge_iff_mem_callees,
    CallGraph.callees, CallGraph.callees, h.callees]

theorem linked (h : Serves p callers hosts m s u) (hs : s.Linked) : u.Linked := by
  intro c x hedge
  rw [h.hasEdge_eq] at hedge
  rw [h.reachable]
  exact hs c x hedge

theorem expects (h : Serves p callers hosts m s u) {y : Qualified .method} (hy : s.Expects y) :
    u.Expects y := by
  obtain ⟨x, hx, hread, hmem⟩ := hy
  refine ⟨x, h.entities.isQMethod hx, (h.entities.qmethod hx).trans hread, ?_⟩
  rcases hmem with hmem | ⟨e, he, hcallee⟩
  · exact Or.inl (h.reachable ▸ hmem)
  · exact Or.inr ⟨e, h.waiting e he, hcallee⟩

theorem trans (h : Serves p callers hosts m s u) (h' : Serves p callers hosts n u v) :
    Serves p callers hosts (m + n) s v where
  toLeaves := h.toLeaves.trans h'.toLeaves
  entities := h.entities.trans h'.entities
  entries := h'.entries.trans h.entries
  reachable := h'.reachable.trans h.reachable
  edges := h'.edges.trans h.edges
  callees := h'.callees.trans h.callees
  waiting e he := h'.waiting e (h.waiting e he)
  calls e he := by
    rcases h'.calls e he with he | hnew
    · rcases h.calls e he with hold | ⟨hsite, hcaller⟩
      · exact Or.inl hold
      · rw [← h'.entities.qcall hsite] at hcaller
        exact Or.inr ⟨h'.entities.isQCall hsite, hcaller⟩
    · exact Or.inr hnew
  cells k w hw := by
    rcases h'.cells k w hw with hw | hnew
    · rcases h.cells k w hw with hold | hhost | hexpected
      · exact Or.inl hold
      · exact Or.inr (Or.inl hhost)
      · exact Or.inr (Or.inr (h'.expects hexpected))
    · exact Or.inr hnew

theorem mono {callers' hosts' : Set (Qualified .method)} (h : Serves p callers hosts m s u)
    (hcallers : callers ⊆ callers') (hhosts : hosts ⊆ hosts') (hcost : m ≤ n) :
    Serves p callers' hosts' n s u :=
  { h with
    toLeaves := h.toLeaves.mono hcost
    calls := fun e he => (h.calls e he).imp_right fun hnew => ⟨hnew.1, hcallers hnew.2⟩
    cells := fun k w hw => (h.cells k w hw).imp_right fun hnew => hnew.imp_left (@hhosts _) }

/-- A host that is expected in the end need not be named. -/
theorem drop {y : Qualified .method} (h : Serves p callers (insert y hosts) m s u)
    (hy : u.Expects y) : Serves p callers hosts m s u :=
  { h with
    cells := fun k w hw => by
      rcases h.cells k w hw with hold | (heq | hhost) | hexpected
      · exact Or.inl hold
      · exact Or.inr (Or.inr (heq ▸ hy))
      · exact Or.inr (Or.inl hhost)
      · exact Or.inr (Or.inr hexpected) }

/-- One operation for each element of a list. -/
theorem foldl {β : Type} {op : State → β → State} {l : List β} (hs : s.Linked)
    (hstep : ∀ u : State, u.Linked → ∀ b ∈ l, Serves p callers hosts n u (op u b)) :
    Serves p callers hosts (l.length * n) s (l.foldl op s) := by
  induction l generalizing s with
  | nil => exact (refl s).mono subset_rfl subset_rfl (Nat.zero_le _)
  | cons b l ih =>
    have hhead := hstep s hs b List.mem_cons_self
    have hrest : Serves p callers hosts (l.length * n) (op s b) (l.foldl op (op s b)) := by
      apply ih (hhead.linked hs)
      intro u hu c hc
      exact hstep u hu c (List.mem_cons_of_mem b hc)
    apply (hhead.trans hrest).mono subset_rfl subset_rfl
    rw [List.length_cons, Nat.succ_mul, Nat.add_comm]

end Serves

/-! ### The operations on states -/

theorem serves_extend {t : Entities} (h : s.entities.Extends t) (hcells : ∀ k v,
    .var k v ∈ t.cells.toList → .var k v ∈ s.entities.cells.toList ∨ ⟨k, (p.var v).method⟩ ∈ hosts) :
    Serves p callers hosts 0 s { s with entities := t } :=
  { (Serves.refl s : Serves p callers hosts 0 s s) with
    entities := h
    calls := fun _ he => Or.inl he
    cells := fun k v hv => (hcells k v hv).imp_right Or.inl }

theorem serves_addContext (s : State) (c : Context) : Serves p callers hosts 0 s (s.addContext c) :=
  serves_extend (Entities.extends_addContext _ _) fun _ _ => Or.inl

theorem serves_addObject (s : State) (o : HeapObject) : Serves p callers hosts 0 s (s.addObject o) :=
  serves_extend (Entities.extends_addObject _ _) fun _ _ => Or.inl

theorem serves_addQObject (s : State) (o : Qualified .object) :
    Serves p callers hosts 0 s (s.addQObject o) :=
  serves_extend (Entities.extends_addQObject _ _) fun _ _ => Or.inl

theorem serves_addQMethod (s : State) (x : Qualified .method) :
    Serves p callers hosts 0 s (s.addQMethod x) :=
  serves_extend (Entities.extends_addQMethod _ _) fun _ _ => Or.inl

theorem serves_addQCall (s : State) (c : Qualified .call) :
    Serves p callers hosts 0 s (s.addQCall c) :=
  serves_extend (Entities.extends_addQCall _ _) fun _ _ => Or.inl

/-- A cell is no variable, or one of a host. -/
def Hosted (p : Program) (hosts : Set (Qualified .method)) (c : Cell) : Prop :=
  ∀ k v, c = .var k v → ⟨k, (p.var v).method⟩ ∈ hosts

theorem serves_addCell (s : State) {c : Cell} (hc : Hosted p hosts c) :
    Serves p callers hosts 0 s (s.addCell c) := by
  apply serves_extend (Entities.extends_addCell _ _)
  intro k v hv
  rw [Entities.cells_addCell] at hv
  rcases Numbering.mem_toList_insert.1 hv with hold | hnew
  · exact Or.inl hold
  · exact Or.inr (hc k v hnew.symm)

theorem serves_record (s : State) (e : Event) : Serves p callers hosts 0 s (s.record e) :=
  { (Serves.refl s : Serves p callers hosts 0 s s) with
    calls := fun _ he => Or.inl he
    cells := fun _ _ h => Or.inl h }

theorem serves_send (s : State) (c : CellId) (objects : IdSet (.qualified .object)) :
    Serves p callers hosts 1 s (s.send c objects) where
  processed := rfl
  entities := .refl _
  entries := rfl
  reachable := rfl
  edges := rfl
  callees := rfl
  size := WorkList.size_addObjects_le _ _ _
  waiting e he := by rwa [send, WorkList.calls_addObjects]
  calls e he := by
    rw [send, WorkList.calls_addObjects] at he
    exact Or.inl he
  cells _ _ h := Or.inl h

theorem serves_give (s : State) {c : Cell} (hc : Hosted p hosts c) (o : QObjectId) :
    Serves p callers hosts 1 s (s.give c o) :=
  (serves_addCell s hc).trans (serves_send _ _ _)

theorem serves_addFlow (s : State) (x y : CellId) : Serves p callers hosts 1 s (s.addFlow x y) := by
  unfold addFlow
  split
  · exact (Serves.refl s).mono subset_rfl subset_rfl (Nat.zero_le 1)
  · exact { serves_send s y (s.entities.pointsTo x) with }

theorem serves_connect (s : State) {x y : Cell} (hx : Hosted p hosts x) (hy : Hosted p hosts y) :
    Serves p callers hosts 1 s (s.connect x y) :=
  ((serves_addCell s hx).trans (serves_addCell _ hy)).trans (serves_addFlow _ _ _)

theorem serves_connectAll (hs : s.Linked) {flows : List (Cell × Cell)}
    (hflows : ∀ f ∈ flows, Hosted p hosts f.1 ∧ Hosted p hosts f.2) :
    Serves p callers hosts flows.length s (s.connectAll flows) := by
  rw [← Nat.mul_one flows.length]
  apply Serves.foldl hs
  intro u _ f hf
  exact serves_connect u (hflows f hf).1 (hflows f hf).2

/-- Afterwards the callee is expected: either the edge is there already or it waits. -/
theorem serves_requestCall (hs : s.Linked) {kind : CallKind} {site : Qualified .call}
    {y : Qualified .method} (hsite : p.holder site ∈ callers) :
    Serves p callers hosts 1 s (s.requestCall kind site y) ∧ (s.requestCall kind site y).Expects y := by
  have hadd : Serves p callers hosts 0 s ((s.addQCall site).addQMethod y) :=
    (serves_addQCall s site).trans (serves_addQMethod _ y)
  have hqcall : site ∈ ((s.addQCall site).addQMethod y).entities.qcalls.toList := mem_addQCall s site
  have hqmethod := mem_addQMethod (s.addQCall site) y
  have hlinked := hadd.linked hs
  rw [requestCall]
  generalize (s.addQCall site).addQMethod y = u at *
  have hid := Entities.isQMethod_qmethodId hqmethod
  have hread := Entities.qmethod_qmethodId hqmethod
  by_cases hedge : u.calls.hasEdge (u.entities.qcallId site) (u.entities.qmethodId y) = true
  · simp only [hedge, if_true]
    exact ⟨hadd.mono subset_rfl subset_rfl (Nat.zero_le 1), _, hid, hread,
      Or.inl (hlinked _ _ hedge)⟩
  · simp only [hedge, Bool.false_eq_true, if_false]
    have hcalls : ∀ e : QCallEdge, ∀ f, f ∈ (u.work.addCall e).calls.toList ↔
        f ∈ u.work.calls.toList ∨ f = e := fun e f => by simp [WorkList.addCall]
    refine ⟨?_, _, hid, hread, Or.inr ⟨_, (hcalls _ _).2 (Or.inr rfl), rfl⟩⟩
    have hpush : Serves p callers hosts 1 u { u with work := u.work.addCall ⟨kind,
        u.entities.qcallId site, u.entities.qmethodId y⟩ } := ?_
    · exact (hadd.trans hpush).mono subset_rfl subset_rfl (Nat.le_refl 1)
    refine { (Serves.refl u : Serves p callers hosts 0 u u) with
      size := Nat.le_of_eq (WorkList.size_addCall _ _)
      waiting := fun f hf => (hcalls _ f).2 (Or.inl hf)
      cells := fun _ _ h => Or.inl h
      calls := fun f hf => ?_ }
    rcases (hcalls _ f).1 hf with hold | rfl
    · exact Or.inl hold
    · refine Or.inr ⟨Entities.isQCall_qcallId hqcall, ?_⟩
      rwa [Entities.qcall_qcallId hqcall]

end State

/-- The number of work items that an object at a variable leaves at most. -/
def Uses.weight (u : Uses) : Nat :=
  u.storeFields.size + u.loadFields.size + u.storeArrays.size + u.loadArrays.size + 2 * u.calls.size

theorem Uses.length_flows {C O : Type} (u : Uses) (c : C) (o : O) :
    (u.flows c o).length + 2 * u.calls.size = u.weight := by
  simp only [flows, weight, List.length_append, List.length_map, Array.length_toList]

namespace Analysis

open State

variable {a : Analysis} {s : State} {callers hosts : Set (Qualified .method)} {k : ContextId}

/-! ### The operations of the analysis -/

theorem hosted_var {k : ContextId} {v : VarId} (h : ⟨k, (a.program.var v).method⟩ ∈ hosts) :
    Hosted a.program hosts (.var k v) := by
  intro l w heq
  obtain ⟨rfl, rfl⟩ := CellOf.var.inj heq
  exact h

theorem hosted_of_ne {c : Cell} (h : ∀ k v, c ≠ .var k v) : Hosted a.program hosts c :=
  fun k v heq => absurd heq (h k v)

theorem hosted_static (f : FieldId) : Hosted a.program hosts (.static f) :=
  hosted_of_ne fun _ _ h => by cases h

theorem hosted_field (o : QObjectId) (f : FieldId) : Hosted a.program hosts (.field o f) :=
  hosted_of_ne fun _ _ h => by cases h

theorem hosted_elements (o : QObjectId) : Hosted a.program hosts (.elements o) :=
  hosted_of_ne fun _ _ h => by cases h

theorem serves_allocate (s : State) {site : SiteId}
    (hlhs : ⟨k, (a.program.var (a.program.site site).lhs).method⟩ ∈ hosts) :
    Serves a.program callers hosts 1 s (a.allocate k site s) := by
  unfold allocate
  exact (((serves_addContext s _).trans (serves_addObject _ _)).trans (serves_addQObject _ _)).trans
    (serves_give _ (hosted_var hlhs) _)

theorem serves_callStatic (hs : s.Linked) {i : CallId} (hi : a.program.holder ⟨k, i⟩ ∈ callers) :
    Serves a.program callers hosts 1 s (a.callStatic k i s) := by
  rw [callStatic]
  split
  · exact (serves_record s _).mono subset_rfl subset_rfl (Nat.zero_le 1)
  · have hcontext : Serves a.program callers hosts 0 s
        (s.addContext (a.selector.calleeContext (s.entities.context k) i none)) :=
      serves_addContext s _
    exact (hcontext.trans (serves_requestCall (hcontext.linked hs) hi).1).mono subset_rfl subset_rfl
      (Nat.le_refl 1)

section Accepted

variable (hp : a.program.Accepted) (hs : s.Linked)

include hp

theorem hosted_of_mem_varsOf {x : MethodId} {stmt : Stmt} (hstmt : stmt ∈ (a.program.method x).body)
    {v : VarId} (hv : v ∈ a.program.varsOf stmt) : Hosted a.program {⟨k, x⟩} (.var k v) := by
  apply hosted_var
  rw [hp.method_of_mem_varsOf hstmt hv]
  rfl

/-- The variables on the other side of an access belong to the method of the variable. -/
theorem hosted_flows (v : VarId) (o : QObjectId) : ∀ f ∈ (a.program.usesOf v).flows k o,
    Hosted a.program {⟨k, (a.program.var v).method⟩} f.1 ∧
      Hosted a.program {⟨k, (a.program.var v).method⟩} f.2 := by
  intro f hf
  rcases Uses.mem_flows.1 hf with ⟨field, rhs, h, rfl⟩ | ⟨lhs, field, h, rfl⟩ | ⟨rhs, h, rfl⟩ |
    ⟨lhs, h, rfl⟩
  · have hstmt := (hp.indexed.storeFields v field rhs).1 h
    exact ⟨hosted_of_mem_varsOf hp hstmt (by simp [Model.varsOf]), hosted_field o field⟩
  · have hstmt := (hp.indexed.loadFields v lhs field).1 h
    exact ⟨hosted_field o field, hosted_of_mem_varsOf hp hstmt (by simp [Model.varsOf])⟩
  · have hstmt := (hp.indexed.storeArrays v rhs).1 h
    exact ⟨hosted_of_mem_varsOf hp hstmt (by simp [Model.varsOf]), hosted_elements o⟩
  · have hstmt := (hp.indexed.loadArrays v lhs).1 h
    exact ⟨hosted_elements o, hosted_of_mem_varsOf hp hstmt (by simp [Model.varsOf])⟩

include hs

/-- A statement is read on behalf of the method that holds it. -/
theorem serves_read {x : MethodId} {stmt : Stmt} (hstmt : stmt ∈ (a.program.method x).body) :
    Serves a.program {⟨k, x⟩} {⟨k, x⟩} 1 s (a.read k s stmt) := by
  have hvar : ∀ v ∈ a.program.varsOf stmt, Hosted a.program {⟨k, x⟩} (.var k v) :=
    fun v hv => hosted_of_mem_varsOf hp hstmt hv
  have hnothing : Serves a.program {⟨k, x⟩} {⟨k, x⟩} 1 s s :=
    (Serves.refl s).mono subset_rfl subset_rfl (Nat.zero_le 1)
  cases stmt with
  | new site => exact serves_allocate s (hvar _ List.mem_cons_self k _ rfl)
  | copy lhs rhs =>
    exact serves_connect s (hvar rhs (by simp [Model.varsOf])) (hvar lhs (by simp [Model.varsOf]))
  | loadStatic lhs field =>
    exact serves_connect s (hosted_static field) (hvar lhs (by simp [Model.varsOf]))
  | storeStatic field rhs =>
    exact serves_connect s (hvar rhs (by simp [Model.varsOf])) (hosted_static field)
  | invoke i =>
    rw [read]
    split
    · apply serves_callStatic hs
      rw [Program.holder, hp.container_of_mem_body hstmt]
      rfl
    · exact hnothing
  | loadField | storeField | loadArray | storeArray | ret => exact hnothing

theorem serves_readAll {x : MethodId} {l : List Stmt}
    (hl : ∀ stmt ∈ l, stmt ∈ (a.program.method x).body) :
    Serves a.program {⟨k, x⟩} {⟨k, x⟩} l.length s (l.foldl (a.read k) s) := by
  rw [← Nat.mul_one l.length]
  apply Serves.foldl hs
  intro u hu stmt hstmt
  exact serves_read hp hu (hl stmt hstmt)

omit hs in
/-- The receiver variable that is bound belongs to the callee. -/
theorem serves_bindThis {y : MethodId} (hy : a.program.IsMethod y) (l : ContextId) (o : QObjectId)
    {u : State} (hu : u = match (a.program.method y).this with
      | none => s
      | some this => s.give (.var l this) o) : Serves a.program callers {⟨l, y⟩} 1 s u := by
  subst hu
  cases hthis : (a.program.method y).this with
  | none => exact (Serves.refl s).mono subset_rfl subset_rfl (Nat.zero_le 1)
  | some this =>
    apply serves_give s
    apply hosted_var
    rw [hp.method_of_this hy hthis]
    rfl

/-- Once it is called, the method whose receiver variable is bound is expected. -/
theorem serves_enterOn {x y : MethodId} (hy : a.program.IsMethod y) {kind : CallKind} {i : CallId}
    (hi : .invoke i ∈ (a.program.method x).body) {l : ContextId} {o : QObjectId} {u : State}
    (hu : u = match (a.program.method y).this with
      | none => s
      | some this => s.give (.var l this) o) :
    Serves a.program {⟨k, x⟩} {⟨k, x⟩} 2 s (u.requestCall kind ⟨k, i⟩ ⟨l, y⟩) := by
  have hcaller : a.program.holder ⟨k, i⟩ ∈ ({⟨k, x⟩} : Set (Qualified .method)) := by
    rw [Program.holder, hp.container_of_mem_body hi]
    rfl
  have hbind : Serves a.program {⟨k, x⟩} {⟨l, y⟩, ⟨k, x⟩} 1 s u :=
    (serves_bindThis hp hy l o hu).mono subset_rfl (by simp) (Nat.le_refl 1)
  obtain ⟨hrequest, hexpected⟩ := serves_requestCall (hbind.linked hs) hcaller
  exact (hbind.trans hrequest).drop hexpected

theorem serves_callOn {x : MethodId} {i : CallId} (hi : .invoke i ∈ (a.program.method x).body)
    (o : QObjectId) : Serves a.program {⟨k, x⟩} {⟨k, x⟩} 2 s (a.callOn k o s i) := by
  rw [callOn]
  split
  · exact (serves_record s _).mono subset_rfl subset_rfl (Nat.zero_le 2)
  · rename_i y hy
    have hcontext : Serves a.program {⟨k, x⟩} {⟨k, x⟩} 0 s (s.addContext
        (a.selector.calleeContext (s.entities.context k) i (some (s.entities.receiver o)))) :=
      serves_addContext s _
    show Serves a.program {⟨k, x⟩} {⟨k, x⟩} (0 + 2) s _
    exact hcontext.trans (serves_enterOn hp (hcontext.linked hs)
      (Model.isMethod_of_callee? hp.scope hy) hi rfl)

/-- An object at a variable is met on behalf of the variable's method. -/
theorem serves_meet (v : VarId) (o : QObjectId) :
    Serves a.program {⟨k, (a.program.var v).method⟩} {⟨k, (a.program.var v).method⟩}
      (a.program.usesOf v).weight s (a.meet k v s o) := by
  have hconnect : Serves a.program {⟨k, (a.program.var v).method⟩} {⟨k, (a.program.var v).method⟩}
      ((a.program.usesOf v).flows k o).length s (s.connectAll ((a.program.usesOf v).flows k o)) :=
    serves_connectAll hs (hosted_flows hp v o)
  have hcalls : Serves a.program {⟨k, (a.program.var v).method⟩} {⟨k, (a.program.var v).method⟩}
      ((a.program.usesOf v).calls.toList.length * 2) (s.connectAll ((a.program.usesOf v).flows k o))
      ((a.program.usesOf v).calls.toList.foldl (a.callOn k o)
        (s.connectAll ((a.program.usesOf v).flows k o))) := by
    apply Serves.foldl (hconnect.linked hs)
    intro u hu i hi
    have hstmt := ((hp.indexed.calls v i).1 (Array.mem_toList_iff.1 hi)).1
    exact serves_callOn hp hu hstmt o
  rw [meet, ← Array.foldl_toList]
  apply (hconnect.trans hcalls).mono subset_rfl subset_rfl
  have hlength := Uses.length_flows (a.program.usesOf v) k o
  have hsize : (a.program.usesOf v).calls.toList.length = (a.program.usesOf v).calls.size :=
    Array.length_toList
  omega

omit hs in
/-- Entering a method that is not reachable yet reads its body on its own behalf. -/
theorem serves_enter {x : QMethodId} (hx : ¬ s.calls.contains x = true)
    (hs : ({ s with calls := s.calls.addReachable x } : State).Linked) :
    Serves a.program {s.entities.qmethod x} {s.entities.qmethod x}
      (a.program.method (s.entities.qmethod x).item).body.size
      { s with calls := s.calls.addReachable x } (a.enter x s) := by
  have hrecord : Serves a.program {s.entities.qmethod x} {s.entities.qmethod x} 0
      { s with calls := s.calls.addReachable x }
      (({ s with calls := s.calls.addReachable x } : State).record (.reached x)) := serves_record _ _
  rw [enter, if_neg hx, ← Array.foldl_toList, ← Array.length_toList, ← Nat.zero_add (List.length _)]
  apply hrecord.trans
  apply serves_readAll hp (hrecord.linked hs)
  intro stmt hstmt
  exact Array.mem_toList_iff.1 hstmt

/-! ### Wiring a call edge -/

section Wiring

variable {i : CallId} (hi : a.program.IsCall i) {y : MethodId} (hy : a.program.IsMethod y)
  (l : ContextId)

include hi hy

theorem serves_passArguments : Serves a.program callers {a.program.holder ⟨k, i⟩, ⟨l, y⟩}
    (a.program.call i).args.length s
    (s.connectAll (argumentFlows (a.program.call i) k (a.program.method y) l)) := by
  have hflows : ∀ f ∈ argumentFlows (a.program.call i) k (a.program.method y) l,
      Hosted a.program {a.program.holder ⟨k, i⟩, ⟨l, y⟩} f.1 ∧
        Hosted a.program {a.program.holder ⟨k, i⟩, ⟨l, y⟩} f.2 := by
    intro f hf
    obtain ⟨arg, param, hmem, rfl⟩ := mem_argumentFlows.1 hf
    obtain ⟨harg, hparam⟩ := List.of_mem_zip hmem
    constructor
    · apply hosted_var
      rw [hp.method_of_mem_varsOf_invoke hi (by simp [Model.varsOf, harg])]
      exact Or.inl rfl
    · apply hosted_var
      rw [hp.method_of_mem_params hy (Array.mem_toList_iff.1 hparam)]
      exact Or.inr rfl
  apply (serves_connectAll hs hflows).mono subset_rfl subset_rfl
  rw [argumentFlows, List.length_map, List.length_zip]
  exact Nat.min_le_left _ _

theorem serves_returnResult : Serves a.program callers {a.program.holder ⟨k, i⟩, ⟨l, y⟩}
    (a.program.method y).returns.size s
    (returnResult (a.program.call i) k (a.program.method y) l s) := by
  rw [returnResult]
  cases hresult : (a.program.call i).result with
  | none => exact (Serves.refl s).mono subset_rfl subset_rfl (Nat.zero_le _)
  | some r =>
    have hr : Hosted a.program {a.program.holder ⟨k, i⟩, ⟨l, y⟩} (.var k r) := by
      apply hosted_var
      rw [hp.method_of_mem_varsOf_invoke hi (by simp [Model.varsOf, hresult])]
      exact Or.inl rfl
    have hcell : Serves a.program callers {a.program.holder ⟨k, i⟩, ⟨l, y⟩} 0 s
        (s.addCell (.var k r)) := serves_addCell s hr
    have hflows : ∀ f ∈ returnFlows r k (a.program.method y) l,
        Hosted a.program {a.program.holder ⟨k, i⟩, ⟨l, y⟩} f.1 ∧
          Hosted a.program {a.program.holder ⟨k, i⟩, ⟨l, y⟩} f.2 := by
      intro f hf
      obtain ⟨v, hv, rfl⟩ := mem_returnFlows.1 hf
      refine ⟨?_, hr⟩
      apply hosted_var
      rw [hp.method_of_mem_returns hy hv]
      exact Or.inr rfl
    apply (hcell.trans (serves_connectAll (hcell.linked hs) hflows)).mono subset_rfl subset_rfl
    rw [returnFlows, List.length_map, Array.length_toList, Nat.zero_add]

end Wiring

end Accepted

end Analysis

end PointsTo
