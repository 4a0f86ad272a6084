import PointsTo.Proofs.Origins
import PointsTo.Proofs.PossibleFacts
import PointsTo.Proofs.Program.Instances
import PointsTo.Proofs.Solver.Final
import PointsTo.Proofs.Solver.Obligations

/-! The contexts of receivers. Under object and type sensitivity an instance method that leaves its receiver
variable alone sees there, under each context, the receivers that the context was made of. They are all
that among least facts can get there, and without them the context would not be there. When contexts have
room for one element more than heap contexts, nothing is cut off and the context determines its receiver. -/

namespace PointsTo

theorem ContextOf.elems_append {O : Type} {c : ContextOf O} {k : Nat} (h : c.elems.length < k)
    (e : ContextElemOf O) : (c.append e k).elems = c.elems ++ [e] := by
  have hlength : (c.elems ++ [e]).length - k = 0 := by
    rw [List.length_append, List.length_singleton]
    omega
  rw [append, last, hlength, List.drop_zero]

/-- The two ways to tell instance methods apart by their receivers. -/
inductive ReceiverSensitivity where
  | object
  | type
  deriving DecidableEq, Repr

namespace ReceiverSensitivity

variable {O : Type}

def selector (m : ReceiverSensitivity) (k n : Nat) : Selector :=
  match m with
  | object => .object k n
  | type => .type k n

/-- What contexts speak of a receiver by. -/
def elem (m : ReceiverSensitivity) (r : ReceiverOf O) : ContextElemOf O :=
  match m with
  | object => .object r.id
  | type => .type (r.object.container.getD r.object.type)

variable (m : ReceiverSensitivity) (k n : Nat)

theorem heapContext_selector (c : ContextOf O) : (m.selector k n).heapContext c = c.last n := by
  cases m <;> rfl

theorem calleeContext_selector (c : ContextOf O) (i : CallId) (r : ReceiverOf O) :
    (m.selector k n).calleeContext c i (some r) = r.context.append (m.elem r) k := by
  cases m <;> rfl

end ReceiverSensitivity

namespace Analysis

/-! ### Closed facts with fewer objects -/

section Restrictions

variable {a : Analysis} {F : Facts}

variable (hp : a.program.Accepted) {x : MethodId} {v : VarId} (hv : a.program.KeepsThis x v)

include hp hv

theorem place_ne_this {y : MethodId} {s : Stmt} (hs : s ∈ (a.program.method y).body) {w : VarId}
    (hw : a.program.target? s = some w) (c d : ContextOf HeapObject) : (.var d w : Place) ≠ .var c v := by
  intro heq
  obtain ⟨-, rfl⟩ := CellOf.var.inj heq
  exact hp.target?_ne hv hs hw

/-- Nothing but the binding of receivers puts objects into a receiver variable that is left alone. -/
theorem closed_this (hF : IsLeast {F | a.Closed F} F) :
    a.Closed { F with
      flow := {f | f ∈ F.flow ∧ ∀ c, f.2 ≠ .var c v}
      pointsTo := {f | f ∈ F.pointsTo ∧ ∀ c, f.1 = .var c v → ∃ d i, a.contextOn d i f.2 = c} } where
  entry := hF.1.entry
  reads y hy s hs := by
    have hreads := hF.1.reads y hy s hs
    cases s with
    | new site => exact ⟨hreads, fun c heq => absurd heq (place_ne_this hp hv hs rfl c _)⟩
    | copy lhs rhs => exact ⟨hreads, fun c => place_ne_this hp hv hs rfl c _⟩
    | loadStatic lhs field => exact ⟨hreads, fun c => place_ne_this hp hv hs rfl c _⟩
    | storeStatic field rhs => exact ⟨hreads, fun c heq => by cases heq⟩
    | invoke i => exact hreads
    | loadField | storeField | loadArray | storeArray | ret => trivial
  meets c w o ho s hs := by
    have hmeets := hF.1.meets c w o ho.1 s hs
    cases s with
    | storeField base field rhs => exact fun hbase => ⟨hmeets hbase, fun d heq => by cases heq⟩
    | storeArray base rhs => exact fun hbase => ⟨hmeets hbase, fun d heq => by cases heq⟩
    | loadField lhs base field =>
      exact fun hbase => ⟨hmeets hbase, fun d => place_ne_this hp hv hs rfl d _⟩
    | loadArray lhs base =>
      exact fun hbase => ⟨hmeets hbase, fun d => place_ne_this hp hv hs rfl d _⟩
    | invoke i =>
      intro hreceiver y hy
      obtain ⟨hedge, hthis⟩ := hmeets hreceiver y hy
      refine ⟨hedge, fun this hmem => ⟨hthis this hmem, fun d heq => ⟨c, i, ?_⟩⟩⟩
      exact (CellOf.var.inj heq).1
    | new | copy | loadStatic | storeStatic | ret => trivial
  wires e he := by
    have hwires := hF.1.wires e he
    obtain ⟨-, hcalls, -⟩ := Facts.le_iff.1 (hF.2 (closed_possibleFacts hp))
    obtain ⟨-, ⟨-, hcall⟩, -, hmethod⟩ := hcalls he
    refine ⟨hwires.callee, fun arg param hmem => ⟨hwires.argument arg param hmem, ?_⟩,
      fun r hr w hw => ⟨hwires.result r hr w hw, ?_⟩⟩
    · intro c heq
      obtain ⟨-, hparam⟩ := List.of_mem_zip hmem
      rw [(CellOf.var.inj heq).2] at hparam
      exact hp.not_mem_params hv hmethod (Array.mem_toList_iff.1 hparam)
    · intro c heq
      rw [(CellOf.var.inj heq).2] at hr
      exact hp.result_ne hv hcall hr
  flows y z hyz o ho := ⟨hF.1.flows y z hyz.1 o ho.1, fun c heq => absurd heq (hyz.2 c)⟩

/-- Neither static calls nor the start of the run enter an instance method, and whatever else does binds
its receiver. -/
theorem closed_bound (hF : a.Closed F) :
    a.Closed { F with
      reach := {y | y ∈ F.reach ∧ (y.item = x → ∃ o, (.var y.context v, o) ∈ F.pointsTo)}
      calls := {e | e ∈ F.calls ∧
        (e.callee.item = x → ∃ o, (.var e.callee.context v, o) ∈ F.pointsTo)} } where
  entry := by
    refine ⟨hF.entry, fun heq => ?_⟩
    have hthis := hp.entry_this
    rw [show a.program.entry = x from heq, hv.this] at hthis
    cases hthis
  reads y hy s hs := by
    have hreads := hF.reads y hy.1 s hs
    cases s with
    | invoke i =>
      intro hstatic z hz
      refine ⟨hreads hstatic z hz, fun heq => ?_⟩
      have hthis := hp.this_of_callee? hstatic hz
      rw [show z = x from heq, hv.this] at hthis
      cases hthis
    | _ => exact hreads
  meets c w o ho s hs := by
    have hmeets := hF.meets c w o ho s hs
    cases s with
    | invoke i =>
      intro hreceiver z hz
      obtain ⟨hedge, hthis⟩ := hmeets hreceiver z hz
      refine ⟨⟨hedge, fun heq => ⟨o, hthis v ?_⟩⟩, hthis⟩
      rw [show z = x from heq]
      exact hv.this
    | _ => exact hmeets
  wires e he := { hF.wires e he.1 with callee := ⟨(hF.wires e he.1).callee, he.2⟩ }
  flows := hF.flows

end Restrictions

/-! ### Least facts -/

section Least

variable {p : Program} {m : ReceiverSensitivity} {k n : Nat} {heap : HeapModel} {F : Facts}
  (hp : p.Accepted) (hF : IsLeast {F | (⟨p, m.selector k n, heap⟩ : Analysis).Closed F} F)
  {x : MethodId} {v : VarId} (hv : p.KeepsThis x v) {c : ContextOf HeapObject}
  {o : Located HeapObject}

include hF

theorem length_heapContext_le {q : Place} (ho : (q, o) ∈ F.pointsTo) : o.context.elems.length ≤ n := by
  obtain ⟨y, -, i, -, rfl⟩ := allocates_of_isLeast hF ⟨q, ho⟩
  show ((m.selector k n).heapContext y.context).elems.length ≤ n
  rw [m.heapContext_selector]
  exact ContextOf.length_last_le y.context n

include hp hv

theorem append_of_mem_this (ho : (.var c v, o) ∈ F.pointsTo) :
    o.context.append (m.elem ⟨o.context, o.item, o.item⟩) k = c := by
  obtain ⟨d, i, hcontext⟩ := (Facts.pointsTo_subset (hF.2 (closed_this hp hv hF)) ho).2 c rfl
  rw [← hcontext]
  exact (m.calleeContext_selector k n d i ⟨o.context, o.item, o.item⟩).symm

theorem exists_receiver (hx : ⟨c, x⟩ ∈ F.reach) : ∃ o, (.var c v, o) ∈ F.pointsTo := by
  obtain ⟨hreach, -⟩ := Facts.le_iff.1 (hF.2 (closed_bound hp hv hF.1))
  exact (hreach hx).2 rfl

end Least

/-! ### Final states -/

section Solved

open State

variable {p : Program} {m : ReceiverSensitivity} {k n : Nat} {heap : HeapModel} {order : WorkOrder}
  {limit : Option Nat} {s : State} (hp : p.Accepted)
  (h : (⟨p, m.selector k n, heap⟩ : Analysis).solve order limit = .ok s) {x : MethodId} {v : VarId}
  (hv : p.KeepsThis x v) {c : CellId} {l : ContextId} {o : QObjectId}

include hp h

theorem length_context_le (ho : o ∈ s.entities.pointsTo c) :
    (s.entities.receiver o).context.elems.length ≤ n := by
  have hlength := length_heapContext_le (isLeast_facts hp.indexed h) ⟨c, o, ho, rfl⟩
  show (s.entities.context (s.entities.qobject o).context).elems.length ≤ n
  simpa [Entities.qobjectAt, Entities.qobjectOf, Entities.contextAt, Entities.contextOf,
    ContextOf.map] using hlength

include hv

theorem append_receiver (hc : s.entities.Numbers c (.var l v)) (ho : o ∈ s.entities.pointsTo c) :
    (s.entities.receiver o).context.append (m.elem (s.entities.receiver o)) k = s.entities.context l := by
  have hs := (final_of_solve hp.indexed h).sound.scope
  obtain ⟨hcell, hvar⟩ := hc
  have hobject := (hs.due c o (Or.inl ho)).2
  have hl : s.entities.IsContext l := by
    have hscoped := hs.entities.cell hcell
    rwa [hvar] at hscoped
  have hplace : s.entities.cellAt c = .var (s.entities.contextAt l) v := congrArg s.entities.placeOf hvar
  have happend := append_of_mem_this hp (isLeast_facts hp.indexed h) hv (c := s.entities.contextAt l)
    (o := s.entities.qobjectAt o) ⟨c, o, ho, Prod.ext hplace rfl⟩
  -- the caller and the call do not count, so any will do
  have hread := s.entities.contextOf_calleeContext (m.selector k n) l default (some o)
  have hscoped := hs.entities.calleeContext_receiver hl (m.selector k n) default hobject
  rw [m.calleeContext_selector] at hscoped
  rw [Option.map_some, Option.map_some, m.calleeContext_selector, m.calleeContext_selector] at hread
  exact Entities.contextOf_injective hscoped (hs.entities.context hl) (hread.trans happend)

theorem exists_mem_this {y : QMethodId} (hy : y ∈ s.calls.reachable.toList)
    (hx : (s.entities.qmethod y).item = x) :
    ∃ c o, s.entities.Numbers c (.var (s.entities.qmethod y).context v) ∧
      o ∈ s.entities.pointsTo c := by
  have hs := (final_of_solve hp.indexed h).sound.scope
  have hk := hs.entities.qmethod (hs.reachable y hy)
  have hreach : ⟨s.entities.contextAt (s.entities.qmethod y).context, x⟩ ∈ s.facts.reach :=
    ⟨y, hy, congrArg (Located.mk _) hx⟩
  obtain ⟨q, c, o, ho, heq⟩ := exists_receiver hp (isLeast_facts hp.indexed h) hv hreach
  have hcell := (hs.due c o (Or.inl ho)).1
  exact ⟨c, o, hs.entities.numbers_of_cellAt (x := .var _ v) hcell hk (Prod.mk.inj heq).1, ho⟩

end Solved

section Object

open State

variable {p : Program} {k n : Nat} {heap : HeapModel} {order : WorkOrder}
  {limit : Option Nat} {s : State} (hp : p.Accepted)
  (h : (⟨p, .object k n, heap⟩ : Analysis).solve order limit = .ok s) {x : MethodId} {v : VarId}
  (hv : p.KeepsThis x v) (hlength : n < k) {c : CellId} {l : ContextId} {o : QObjectId}

include hp h hv hlength

/-- With room for the receiver nothing is cut off. -/
theorem elems_context (hc : s.entities.Numbers c (.var l v)) (ho : o ∈ s.entities.pointsTo c) :
    (s.entities.context l).elems =
      (s.entities.receiver o).context.elems ++ [.object (s.entities.receiver o).id] := by
  have hroom := length_context_le (m := .object) hp h ho
  rw [← append_receiver (m := .object) hp h hv hc ho]
  exact ContextOf.elems_append (Nat.lt_of_le_of_lt hroom hlength) _

theorem pointsTo_eq_singleton (hc : s.entities.Numbers c (.var l v))
    (ho : o ∈ s.entities.pointsTo c) : s.entities.pointsTo c = .singleton o := by
  have hs := (final_of_solve hp.indexed h).sound.scope
  apply IdSet.ext
  intro q
  rw [IdSet.mem_singleton]
  constructor
  · intro hq
    obtain ⟨hcontext, hitem⟩ := List.append_inj'
      ((elems_context hp h hv hlength hc hq).symm.trans (elems_context hp h hv hlength hc ho)) rfl
    have hqobject := (hs.due c q (Or.inl hq)).2
    have hobject := (hs.due c o (Or.inl ho)).2
    have hid := Numbering.getD_injective (d := default) (hs.entities.qobject hqobject).1
      (hs.entities.qobject hobject).1 (congrArg ContextOf.mk hcontext)
    refine Id.ext (Numbering.getD_injective (d := default) hqobject hobject (Qualified.ext ?_ ?_))
    · exact Id.ext hid
    · exact ContextElemOf.object.inj (List.singleton_inj.1 hitem)
  · rintro rfl
    exact ho

end Object

/-- In an instance method that leaves its receiver variable alone that variable holds, under each context,
objects that make up the context with their heap context. There is one under each context that the method
is reached with, and only one if contexts have room for it: the last element of the context, under the
elements before it. -/
theorem receivers_make_contexts {p : Program} (hp : p.Accepted) (m : ReceiverSensitivity) (k n : Nat)
    {heap : HeapModel} {order : WorkOrder} {limit : Option Nat} {s : State}
    (h : (⟨p, m.selector k n, heap⟩ : Analysis).solve order limit = .ok s) {x : MethodId} {v : VarId}
    (hv : p.KeepsThis x v) :
    (∀ c l, s.entities.Numbers c (.var l v) → ∀ o ∈ s.entities.pointsTo c,
      (s.entities.receiver o).context.append (m.elem (s.entities.receiver o)) k =
        s.entities.context l) ∧
    ∀ y ∈ s.calls.reachable.toList, (s.entities.qmethod y).item = x →
      ∃ c o, s.entities.Numbers c (.var (s.entities.qmethod y).context v) ∧
        o ∈ s.entities.pointsTo c ∧
        (m = .object → n + 1 ≤ k → s.entities.pointsTo c = .singleton o ∧
          (s.entities.receiver o).context.elems =
            (s.entities.context (s.entities.qmethod y).context).elems.dropLast ∧
          (s.entities.context (s.entities.qmethod y).context).elems.getLast? =
            some (.object (s.entities.receiver o).id)) := by
  refine ⟨fun c l hc o ho => append_receiver hp h hv hc ho, fun y hy hx => ?_⟩
  obtain ⟨c, o, hc, ho⟩ := exists_mem_this hp h hv hy hx
  refine ⟨c, o, hc, ho, ?_⟩
  rintro rfl hlength
  have helems := elems_context hp h hv hlength hc ho
  refine ⟨pointsTo_eq_singleton hp h hv hlength hc ho, ?_, ?_⟩
  · rw [helems, List.dropLast_concat]
  · rw [helems, List.getLast?_concat]

/-- The method of the small program is reached with its only receiver. -/
theorem receivers_make_contexts_identity :
    ∃ s, (⟨.identity, ReceiverSensitivity.object.selector 1 0, .allocationSite⟩ : Analysis).solve .fifo
        none = .ok s ∧
      Program.identity.KeepsThis ⟨1⟩ ⟨0⟩ ∧
      ∃ y ∈ s.calls.reachable.toList, (s.entities.qmethod y).item = ⟨1⟩ ∧
        ∃ c o, s.entities.Numbers c (.var (s.entities.qmethod y).context ⟨0⟩) ∧
          s.entities.pointsTo c = .singleton o ∧
          (s.entities.context (s.entities.qmethod y).context).elems.getLast? =
            some (.object (s.entities.receiver o).id) := by
  obtain ⟨s, hs, hreached⟩ := exists_ok_of_any
    (e := (⟨.identity, ReceiverSensitivity.object.selector 1 0, .allocationSite⟩ : Analysis).solve .fifo
      none)
    (f := fun s => s.calls.reachable.toList.any fun y => decide ((s.entities.qmethod y).item = ⟨1⟩))
    (by decide +kernel)
  have hv : Program.identity.KeepsThis ⟨1⟩ ⟨0⟩ := {
    this := by decide +kernel
    params := by decide +kernel
    targets := by decide +kernel }
  obtain ⟨y, hy, hitem⟩ := List.any_eq_true.1 hreached
  obtain ⟨-, hall⟩ := receivers_make_contexts Program.accepted_identity .object 1 0 hs hv
  obtain ⟨c, o, hc, -, hone⟩ := hall y hy (of_decide_eq_true hitem)
  obtain ⟨honly, -, hlast⟩ := hone rfl (Nat.le_refl 1)
  exact ⟨s, hs, hv, y, hy, of_decide_eq_true hitem, c, o, hc, honly, hlast⟩

end Analysis

end PointsTo
