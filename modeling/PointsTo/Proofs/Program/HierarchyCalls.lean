import PointsTo.HierarchyCalls
import PointsTo.Proofs.CallGraph
import PointsTo.Proofs.Closure
import PointsTo.Proofs.Program.Callees
import PointsTo.Proofs.Program.Owners

/-! The call graph of the hierarchy. Its methods are those reached from the entry method, and it records
every call in their bodies with all that the call may run. -/

namespace PointsTo

namespace Program

variable {p : Program}

theorem mem_callsIn {x : MethodId} {i : CallId} :
    i ∈ p.callsIn x ↔ .invoke i ∈ (p.method x).body := by
  rw [callsIn, List.mem_filterMap]
  constructor
  · intro h
    obtain ⟨s, hs, heq⟩ := h
    cases s with
    | invoke j =>
      obtain rfl := Option.some.inj heq
      exact Array.mem_toList_iff.1 hs
    | _ => cases heq
  · intro h
    exact ⟨_, Array.mem_toList_iff.2 h, rfl⟩

/-! ### Callees -/

/-- Calls that do not look at a receiver have the callee that they run. -/
theorem mem_hierarchyCallees_of_callee? {c : Call} {receiver : Option ClassId} {y : MethodId}
    (hvirtual : c.kind ≠ .virtual) (hinterface : c.kind ≠ .interface)
    (h : p.callee? receiver c = some y) : y ∈ p.hierarchyCallees c := by
  rw [hierarchyCallees]
  rw [Model.callee?] at h
  cases hkind : c.kind with
  | static | special =>
    simp only [hkind] at h
    simpa [Model.callee?, hkind] using h
  | virtual => exact absurd hkind hvirtual
  | interface => exact absurd hkind hinterface
  | dynamic =>
    simp only [hkind] at h
    cases h

/-- Calls on an object of a class below the one that they name run what that class runs. -/
theorem mem_hierarchyCallees_of_subtype {c : Call} (hkind : c.kind = .virtual ∨ c.kind = .interface)
    {t : ClassId} {y : MethodId} (ht : t ∈ p.subtypesOf c.cls) (hclass : (p.cls t).isInterface = false)
    (h : p.callee? (some t) c = some y) : y ∈ p.hierarchyCallees c := by
  have hdispatch : p.dispatch? t c.subsignature = some y := by
    rcases hkind with hkind | hkind <;> simpa [Model.callee?, hkind] using h
  have hmem : y ∈ (((p.subtypesOf c.cls).filter fun t => !(p.cls t).isInterface).filterMap fun t =>
      p.dispatch? t c.subsignature).eraseDups := by
    rw [List.mem_eraseDups, List.mem_filterMap]
    exact ⟨t, List.mem_filter.2 ⟨ht, by rw [hclass]; rfl⟩, hdispatch⟩
  rcases hkind with hkind | hkind <;> rwa [hierarchyCallees, hkind]

/-- A call in the body of the first method may run the second. -/
def MayCall (p : Program) (x y : MethodId) : Prop :=
  ∃ i, .invoke i ∈ (p.method x).body ∧ y ∈ p.hierarchyCallees (p.call i)

theorem mem_next_iff {x y : MethodId} :
    (y ∈ (p.callsIn x).flatMap fun c => p.hierarchyCallees (p.call c)) ↔ p.MayCall x y := by
  simp only [List.mem_flatMap, mem_callsIn, MayCall]

namespace Accepted

variable (hp : p.Accepted)

include hp

theorem isMethod_of_mem_hierarchyCallees {c : Call} {y : MethodId} (h : y ∈ p.hierarchyCallees c) :
    p.IsMethod y := by
  rw [hierarchyCallees] at h
  split at h
  · exact Model.isMethod_of_callee? hp.scope (Option.mem_toList.1 h)
  · exact Model.isMethod_of_callee? hp.scope (Option.mem_toList.1 h)
  · obtain ⟨t, -, ht⟩ := List.mem_filterMap.1 (List.mem_eraseDups.1 h)
    exact Model.isMethod_of_dispatch? hp.scope ht
  · obtain ⟨t, -, ht⟩ := List.mem_filterMap.1 (List.mem_eraseDups.1 h)
    exact Model.isMethod_of_dispatch? hp.scope ht
  · cases h

/-! ### The graph -/

/-- The search does not stop before everything is found, as only methods are reached. -/
theorem mem_hierarchyReachable_iff {x : MethodId} :
    x ∈ p.hierarchyReachable ↔ Relation.ReflTransGen p.MayCall p.entry x := by
  have hnext : (fun x y => y ∈ (p.callsIn x).flatMap fun c => p.hierarchyCallees (p.call c)) =
      p.MayCall := by
    funext x y
    exact propext mem_next_iff
  have hmethods : ∀ x ∈ p.methodIds, ∀ y ∈ (p.callsIn x).flatMap fun c =>
      p.hierarchyCallees (p.call c), y ∈ p.methodIds := by
    intro x _ y hy
    obtain ⟨i, -, hcallee⟩ := mem_next_iff.1 hy
    exact Id.mem_upTo.2 (hp.isMethod_of_mem_hierarchyCallees hcallee)
  have hlength : p.methodIds.length ≤ p.methods.size := Nat.le_of_eq (Id.length_upTo ..)
  rw [hierarchyReachable, Closure.mem_closure_iff (Id.mem_upTo.2 hp.isMethod_entry) hmethods hlength,
    Closure.Reaches, hnext]

theorem isMethod_of_mem_hierarchyReachable {x : MethodId} (hx : x ∈ p.hierarchyReachable) :
    p.IsMethod x := by
  rw [hp.mem_hierarchyReachable_iff] at hx
  cases hx with
  | refl => exact hp.isMethod_entry
  | tail _ hstep =>
    obtain ⟨i, -, hcallee⟩ := hstep
    exact hp.isMethod_of_mem_hierarchyCallees hcallee

/-- The order of the callees makes no difference to what is recorded. -/
theorem records_callees {x : MethodId} {i : CallId} (hi : i ∈ p.callsIn x) {l : List MethodId}
    (hl : ∀ y, y ∈ l ↔ y ∈ p.hierarchyCallees (p.call i)) {g : CallGraph CallId MethodId}
    {sites : Set CallId} {calls : Set (CallId × MethodId)} (h : g.Records p.toModel sites calls) :
    (l.foldl (fun g y => g.addEdge ⟨(p.call i).kind, i, y⟩) (g.setContainer i x)).Records p.toModel
      (sites ∪ {i}) (calls ∪ {c | c.1 = i ∧ c.2 ∈ p.hierarchyCallees (p.call i)}) := by
  have hplaced := h.setContainer i
  rw [hp.container_of_mem_body (mem_callsIn.1 hi)] at hplaced
  have hcallees := hplaced.foldl (l := l)
    (f := fun g y => g.addEdge ⟨(p.call i).kind, i, y⟩) (fun _ => ∅) (fun y => {(i, y)}) ?_
  · convert hcallees using 1
    · simp
    · ext ⟨j, y⟩
      simp [and_comm, hl]
  · intro y _ g sites calls h
    rw [Set.union_empty]
    exact h.addEdge i y

theorem records_addHierarchyCalls {x : MethodId} {i : CallId} (hi : i ∈ p.callsIn x)
    {g : CallGraph CallId MethodId} {sites : Set CallId} {calls : Set (CallId × MethodId)}
    (h : g.Records p.toModel sites calls) : (p.addHierarchyCalls x g i).Records p.toModel (sites ∪ {i})
      (calls ∪ {c | c.1 = i ∧ c.2 ∈ p.hierarchyCallees (p.call i)}) :=
  hp.records_callees hi (fun _ => Iff.rfl) h

theorem records_hierarchyCallGraph : p.hierarchyCallGraph.Records p.toModel
    {i | ∃ x ∈ p.hierarchyReachable, i ∈ p.callsIn x}
    {c | (∃ x ∈ p.hierarchyReachable, c.1 ∈ p.callsIn x) ∧
      c.2 ∈ p.hierarchyCallees (p.call c.1)} := by
  have hentry : (CallGraph.empty.addEntry p.entry).Records p.toModel ∅ ∅ :=
    (CallGraph.Records.empty p.toModel).withMethods _ _
  have hmethods := hentry.foldl (l := p.hierarchyReachable)
    (f := fun g x => (p.callsIn x).foldl (p.addHierarchyCalls x) (g.addReachable x))
    (fun x => {i | ∃ j ∈ p.callsIn x, i ∈ ({j} : Set CallId)})
    (fun x => {c | ∃ j ∈ p.callsIn x, c ∈
      {c : CallId × MethodId | c.1 = j ∧ c.2 ∈ p.hierarchyCallees (p.call j)}}) ?_
  · rw [hierarchyCallGraph]
    convert hmethods using 1
    · ext i
      simp
    · ext ⟨i, y⟩
      simp
      grind
  · intro x _ g sites calls h
    have hreachable : (g.addReachable x).Records p.toModel sites calls := h.withMethods _ _
    exact hreachable.foldl _ _ fun i hi _ _ _ => hp.records_addHierarchyCalls hi

omit hp in
theorem reachable_addHierarchyCalls (x : MethodId) (g : CallGraph CallId MethodId) (i : CallId) :
    (p.addHierarchyCalls x g i).reachable = g.reachable := by
  rw [addHierarchyCalls]
  exact foldl_preserves (f := CallGraph.reachable) (fun _ _ => CallGraph.reachable_addEdge) _ _

omit hp in
theorem mem_reachable_hierarchyCallGraph {x : MethodId} :
    x ∈ p.hierarchyCallGraph.reachable.toList ↔ x ∈ p.hierarchyReachable := by
  have hfold : ∀ (l : List MethodId) (g : CallGraph CallId MethodId),
      x ∈ (l.foldl (fun g y => (p.callsIn y).foldl (p.addHierarchyCalls y) (g.addReachable y))
        g).reachable.toList ↔ x ∈ g.reachable.toList ∨ x ∈ l := by
    intro l
    induction l with
    | nil => simp
    | cons y l ih =>
      intro g
      rw [List.foldl_cons, ih, foldl_preserves (reachable_addHierarchyCalls y), CallGraph.addReachable,
        Numbering.mem_toList_insert, List.mem_cons, or_assoc]
  rw [hierarchyCallGraph, hfold]
  simp [CallGraph.empty, CallGraph.addEntry]

end Accepted

end Program

end PointsTo
