import PointsTo.Proofs.Precision.Coarsening
import PointsTo.Proofs.Origins
import PointsTo.Proofs.Solver.Safety

/-! Call strings. Under call-site sensitivity the context of a method consists of the last call sites on any
path of call edges that leads to it from the entry method: to cut the string after every call comes to the
same as to cut the whole history once. The context of an object is the end of the context of a method that
creates it. -/

namespace PointsTo

namespace ContextOf

variable {O : Type}

/-- The context that lists call sites. -/
def ofCalls (calls : List CallId) : ContextOf O := ⟨calls.map .callSite⟩

theorem last_ofCalls (calls : List CallId) (k : Nat) :
    (ofCalls calls : ContextOf O).last k = ofCalls (calls.drop (calls.length - k)) := by
  simp [ofCalls, last, List.map_drop]

/-- One more call after a history that has been cut already. -/
theorem append_last_ofCalls (calls : List CallId) (i : CallId) (k : Nat) :
    ((ofCalls calls : ContextOf O).last k).append (.callSite i) k = (ofCalls (calls ++ [i])).last k := by
  rw [append_last, Nat.min_eq_left (Nat.le_succ k), append]
  simp [ofCalls]

end ContextOf

/-- The call sites along a path of call edges, each of which leads on from the method that its call site has
been placed in. -/
inductive State.CallPath (s : State) : QMethodId → List CallId → QMethodId → Prop where
  | nil (x : QMethodId) : CallPath s x [] x
  | snoc {x y : QMethodId} {calls : List CallId} {e : QCallEdge} (h : CallPath s x calls y)
      (he : e ∈ s.calls.edges.toList) (hy : s.calls.container? e.site = some y) :
      CallPath s x (calls ++ [(s.entities.qcall e.site).item]) e.callee

theorem State.exists_callPath {s : State} {x y : QMethodId} (h : Relation.ReflTransGen s.Calls x y) :
    ∃ calls, s.CallPath x calls y := by
  induction h with
  | refl => exact ⟨[], .nil x⟩
  | tail _ hcalls ih =>
    obtain ⟨calls, hpath⟩ := ih
    obtain ⟨e, he, hplaced, rfl⟩ := hcalls
    exact ⟨_, hpath.snoc he hplaced⟩

namespace Analysis

open State

/-! ### One call edge -/

theorem context_of_originates {p : Program} {k n : Nat} {heap : HeapModel} {F : Facts} {e : LocatedEdge}
    (he : (⟨p, .callString k n, heap⟩ : Analysis).Originates F e) :
    e.callee.context = e.site.context.append (.callSite e.site.item) k := by
  cases he with
  | static => rfl
  | receiver => rfl

section Solved

variable {p : Program} {k n : Nat} {heap : HeapModel} {order : WorkOrder} {limit : Option Nat} {s : State}
  (hp : p.Accepted) (h : (⟨p, .callString k n, heap⟩ : Analysis).solve order limit = .ok s)

include hp h

theorem context_callee {e : QCallEdge} (he : e ∈ s.calls.edges.toList) :
    s.entities.context (s.entities.qmethod e.callee).context =
      (s.entities.context (s.entities.qcall e.site).context).append
        (.callSite (s.entities.qcall e.site).item) k := by
  have hs := (final_of_solve hp.indexed h).sound.scope
  obtain ⟨hsite, hcallee⟩ := hs.requested e (Or.inl he)
  have hcaller := hs.entities.context (hs.entities.qcall hsite)
  have hread := context_of_originates
    (originates_of_isLeast (isLeast_facts hp.indexed h) (e := s.entities.edgeAt e) ⟨e, he, rfl⟩)
  apply Entities.contextOf_injective (hs.entities.context (hs.entities.qmethod hcallee))
  · intro o ho
    rcases ContextOf.mem_of_mem_append ho with hold | hnew
    · exact hcaller o hold
    · cases hnew
  · exact hread.trans (ContextOf.map_append _ _ (.callSite _) k).symm

/-! ### Paths -/

theorem context_of_startsIn {y : QMethodId}
    (hy : s.entities.StartsIn ⟨p, .callString k n, heap⟩ y) :
    s.entities.context (s.entities.qmethod y).context = .empty := by
  have hs := (final_of_solve hp.indexed h).sound.entities
  obtain ⟨hid, hread⟩ := hy
  apply Entities.contextOf_injective (hs.context (hs.qmethod hid)) (fun o ho => absurd ho List.not_mem_nil)
  exact congrArg Located.context hread

theorem context_of_callPath {x y : QMethodId} {calls : List CallId}
    (hy : s.entities.StartsIn ⟨p, .callString k n, heap⟩ y) (hpath : s.CallPath y calls x) :
    s.entities.context (s.entities.qmethod x).context = (ContextOf.ofCalls calls).last k := by
  induction hpath with
  | nil =>
    rw [context_of_startsIn hp h hy]
    exact (ContextOf.last_empty k).symm
  | @snoc z calls e _ he hplaced ih =>
    obtain ⟨w, hw, -, hholder⟩ := (complete_of_solve hp h).placed e he
    obtain rfl : w = z := Option.some.inj (hw.symm.trans hplaced)
    have hcaller : (s.entities.qmethod w).context = (s.entities.qcall e.site).context :=
      congrArg Qualified.context hholder
    rw [context_callee hp h he, ← hcaller, ih, ContextOf.append_last_ofCalls]

theorem exists_callPath_of_reachable {x : QMethodId} (hx : x ∈ s.calls.reachable.toList) :
    ∃ y ∈ s.calls.entries.toList, ∃ calls, s.entities.StartsIn ⟨p, .callString k n, heap⟩ y ∧
      s.CallPath y calls x := by
  obtain ⟨y, hentry, hy, hpath⟩ := (complete_of_solve hp h).connected x hx
  obtain ⟨calls, hcalls⟩ := State.exists_callPath hpath
  exact ⟨y, hentry, calls, hy, hcalls⟩

theorem exists_context_of_reachable {x : QMethodId} (hx : x ∈ s.calls.reachable.toList) :
    ∃ calls, s.entities.context (s.entities.qmethod x).context = .ofCalls calls ∧ calls.length ≤ k := by
  obtain ⟨y, -, calls, hy, hpath⟩ := exists_callPath_of_reachable hp h hx
  refine ⟨calls.drop (calls.length - k), ?_, ?_⟩
  · rw [context_of_callPath hp h hy hpath, ContextOf.last_ofCalls]
  · rw [List.length_drop]
    omega

/-! ### Objects -/

/-- The context of an object comes from a reachable method that creates it. -/
theorem exists_allocating {o : QObjectId} (ho : s.entities.IsQObject o) :
    ∃ x ∈ s.calls.reachable.toList,
      (∃ i, .new i ∈ (p.method (s.entities.qmethod x).item).body ∧
        heap.object p.toModel i = s.entities.object (s.entities.qobject o).item) ∧
      s.entities.context (s.entities.qobject o).context =
        (s.entities.context (s.entities.qmethod x).context).last n := by
  have hfinal := final_of_solve hp.indexed h
  have hs := hfinal.sound.entities
  have hknown : s.entities.qobjectAt o ∈ s.facts.qobjects := by
    rw [← hfinal.image_qobjectAt]
    exact ⟨o, ho, rfl⟩
  obtain ⟨_, ⟨x, hx, rfl⟩, i, hi, hread⟩ := allocates_of_isLeast (isLeast_facts hp.indexed h) hknown
  obtain ⟨hcontext, hobject⟩ := Located.mk.inj hread
  refine ⟨x, hx, ⟨i, hi, hobject⟩, ?_⟩
  have hmethod := hs.context (hs.qmethod (hfinal.sound.reachable x hx).1)
  apply Entities.contextOf_injective (hs.context (hs.qobject ho).1)
  · exact fun q hq => hmethod q (ContextOf.mem_of_mem_last hq)
  · exact hcontext.symm.trans (ContextOf.map_last _ _ n).symm

theorem exists_context_of_isQObject {o : QObjectId} (ho : s.entities.IsQObject o) :
    ∃ calls, s.entities.context (s.entities.qobject o).context = .ofCalls calls ∧
      calls.length ≤ min n k := by
  obtain ⟨x, hx, -, hcontext⟩ := exists_allocating hp h ho
  obtain ⟨calls, hcalls, hlength⟩ := exists_context_of_reachable hp h hx
  refine ⟨calls.drop (calls.length - n), ?_, ?_⟩
  · rw [hcontext, hcalls, ContextOf.last_ofCalls]
  · rw [List.length_drop]
    omega

/-- Contexts have a number only as contexts of reachable methods or of objects. -/
theorem exists_context_of_isContext {c : ContextId} (hc : s.entities.IsContext c) :
    ∃ calls, s.entities.context c = .ofCalls calls ∧ calls.length ≤ k := by
  have hfinal := final_of_solve hp.indexed h
  have hs := hfinal.sound.entities
  have hknown : s.entities.contextAt c ∈ s.facts.contexts := by
    rw [← hfinal.image_contextAt]
    exact ⟨c, hc, rfl⟩
  rcases hknown with ⟨_, ⟨x, hx, rfl⟩, hread⟩ | ⟨q, _, ⟨cell, o, ho, heq⟩, hread⟩
  · have hmethod := hs.qmethod (hfinal.sound.reachable x hx).1
    obtain rfl := hs.contextAt_injective hmethod hc hread
    exact exists_context_of_reachable hp h hx
  · obtain ⟨-, rfl⟩ := Prod.mk.inj heq
    have hobject := (hfinal.sound.due cell o (Or.inl ho)).2.1
    obtain rfl := hs.contextAt_injective (hs.qobject hobject).1 hc hread
    obtain ⟨calls, hcalls, hlength⟩ := exists_context_of_isQObject hp h hobject
    exact ⟨calls, hcalls, by omega⟩

end Solved

/-- Every path of call edges from the entry method ends under the last `k` call sites on it, and every
reachable method is at the end of such a path. Every object is under the last `n` call sites of the context
of a reachable method with an allocation that creates it. So contexts are made of call sites only, no more
than `k` of them, and of objects no more than `n` either. -/
theorem contexts_are_call_strings {p : Program} (hp : p.Accepted) (k n : Nat) {heap : HeapModel}
    {order : WorkOrder} {limit : Option Nat} {s : State}
    (h : (⟨p, .callString k n, heap⟩ : Analysis).solve order limit = .ok s) :
    (∀ y x calls, s.entities.StartsIn ⟨p, .callString k n, heap⟩ y → s.CallPath y calls x →
      s.entities.context (s.entities.qmethod x).context = (ContextOf.ofCalls calls).last k) ∧
    (∀ x ∈ s.calls.reachable.toList, ∃ y ∈ s.calls.entries.toList, ∃ calls,
      s.entities.StartsIn ⟨p, .callString k n, heap⟩ y ∧ s.CallPath y calls x) ∧
    (∀ o, s.entities.IsQObject o → ∃ x ∈ s.calls.reachable.toList,
      (∃ i, .new i ∈ (p.method (s.entities.qmethod x).item).body ∧
        heap.object p.toModel i = s.entities.object (s.entities.qobject o).item) ∧
      s.entities.context (s.entities.qobject o).context =
        (s.entities.context (s.entities.qmethod x).context).last n) ∧
    (∀ c, s.entities.IsContext c →
      ∃ calls, s.entities.context c = .ofCalls calls ∧ calls.length ≤ k) ∧
    ∀ o, s.entities.IsQObject o → ∃ calls,
      s.entities.context (s.entities.qobject o).context = .ofCalls calls ∧ calls.length ≤ min n k :=
  ⟨fun _ _ _ hy hpath => context_of_callPath hp h hy hpath,
    fun _ hx => exists_callPath_of_reachable hp h hx, fun _ ho => exists_allocating hp h ho,
    fun _ hc => exists_context_of_isContext hp h hc, fun _ ho => exists_context_of_isQObject hp h ho⟩

/-- The small program has one call, and its method is reached under that call. -/
theorem contexts_are_call_strings_identity :
    ∃ s, (⟨.identity, .callString 1 1, .allocationSite⟩ : Analysis).solve .fifo none = .ok s ∧
      ∃ x ∈ s.calls.reachable.toList, (s.entities.qmethod x).item = ⟨1⟩ ∧
        ∃ y calls, s.CallPath y calls x ∧
          s.entities.context (s.entities.qmethod x).context = (ContextOf.ofCalls calls).last 1 := by
  obtain ⟨s, hs, hreached⟩ := exists_ok_of_any
    (e := (⟨.identity, .callString 1 1, .allocationSite⟩ : Analysis).solve .fifo none)
    (f := fun s => s.calls.reachable.toList.any fun y => decide ((s.entities.qmethod y).item = ⟨1⟩))
    (by decide +kernel)
  obtain ⟨x, hx, hitem⟩ := List.any_eq_true.1 hreached
  obtain ⟨hends, hpaths, -⟩ := contexts_are_call_strings Program.accepted_identity 1 1 hs
  obtain ⟨y, -, calls, hy, hpath⟩ := hpaths x hx
  exact ⟨s, hs, x, hx, of_decide_eq_true hitem, y, calls, hpath, hends y x calls hy hpath⟩

end Analysis

end PointsTo
