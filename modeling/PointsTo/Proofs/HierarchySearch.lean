import Mathlib.Order.Bounds.Defs
import PointsTo.Proofs.FactCounts
import PointsTo.Proofs.Program.HierarchyCalls
import PointsTo.Proofs.Program.Subtypes

/-! The search behind the call graph of the hierarchy, one method at a time. A method waits in the queue once
for each edge to it, and is passed over where it is found again. The callees of a call come as a set, so
in any order. Whatever the order, the search ends, with the same methods, edges and containers. -/

namespace PointsTo

/-- The graph so far, and the methods to be visited. -/
structure HierarchySearch where
  graph : CallGraph CallId MethodId
  queue : List MethodId

namespace HierarchySearch

variable (s : HierarchySearch) (kind : CallKind) (i : CallId)

def place (x : MethodId) : HierarchySearch := { s with graph := s.graph.setContainer i x }

/-- A callee is queued if the edge to it is new. -/
def wire (y : MethodId) : HierarchySearch :=
  if s.graph.hasEdge i y then s else ⟨s.graph.addEdge ⟨kind, i, y⟩, s.queue ++ [y]⟩

/-- The method has been visited or will be. -/
def Found (x : MethodId) : Prop := x ∈ s.graph.reachable.toList ∨ x ∈ s.queue

variable {s kind i}

theorem graph_place {x : MethodId} : (s.place i x).graph = s.graph.setContainer i x := rfl

theorem wire_of_hasEdge {y : MethodId} (h : s.graph.hasEdge i y = true) : s.wire kind i y = s := if_pos h

theorem wire_of_not_hasEdge {y : MethodId} (h : ¬ s.graph.hasEdge i y = true) :
    s.wire kind i y = ⟨s.graph.addEdge ⟨kind, i, y⟩, s.queue ++ [y]⟩ := if_neg h

theorem graph_wire {y : MethodId} : (s.wire kind i y).graph = s.graph.addEdge ⟨kind, i, y⟩ := by
  by_cases h : s.graph.hasEdge i y = true
  · rw [wire_of_hasEdge h, CallGraph.addEdge_of_hasEdge h]
  · rw [wire_of_not_hasEdge h]

theorem graph_foldl_wire (l : List MethodId) : (l.foldl (wire · kind i) s).graph =
    l.foldl (fun g y => g.addEdge ⟨kind, i, y⟩) s.graph := by
  induction l generalizing s with
  | nil => rfl
  | cons y l ih => rw [List.foldl_cons, ih, graph_wire, List.foldl_cons]

end HierarchySearch

namespace Program

open HierarchySearch

/-- The list holds the possible callees of the call, each once. -/
structure Enumerates (p : Program) (c : Call) (l : List MethodId) : Prop where
  nodup : l.Nodup
  mem_iff : ∀ y, y ∈ l ↔ y ∈ p.hierarchyCallees c

/-- The calls of a list are placed in the method and wired, one after the other. -/
inductive SeesCalls (p : Program) (x : MethodId) : List CallId → HierarchySearch → HierarchySearch → Prop where
  | nil (s : HierarchySearch) : p.SeesCalls x [] s s
  | cons {i : CallId} {is : List CallId} {l : List MethodId} {s t : HierarchySearch}
      (hl : p.Enumerates (p.call i) l)
      (hrest : p.SeesCalls x is (l.foldl (wire · (p.call i).kind i) (s.place i x)) t) :
      p.SeesCalls x (i :: is) s t

/-- One turn of the search. -/
inductive Turn (p : Program) : HierarchySearch → HierarchySearch → Prop where
  | skip {g : CallGraph CallId MethodId} {x : MethodId} {queue : List MethodId}
      (hx : g.contains x = true) : p.Turn ⟨g, x :: queue⟩ ⟨g, queue⟩
  | visit {g : CallGraph CallId MethodId} {x : MethodId} {queue : List MethodId} {t : HierarchySearch}
      (hx : ¬ g.contains x = true)
      (hcalls : p.SeesCalls x (p.callsIn x) ⟨g.addReachable x, queue⟩ t) : p.Turn ⟨g, x :: queue⟩ t

/-- The search after some turns. -/
inductive Turns (p : Program) : Nat → HierarchySearch → Prop where
  | start : p.Turns 0 ⟨CallGraph.empty.addEntry p.entry, [p.entry]⟩
  | next {n : Nat} {s t : HierarchySearch} (hs : p.Turns n s) (ht : p.Turn s t) : p.Turns (n + 1) t

/-- The graph has the methods that must be reached, one edge for each possible callee of each of their
calls, and nothing else. -/
structure IsHierarchyGraph (p : Program) (g : CallGraph CallId MethodId) : Prop where
  entries : ∀ x, x ∈ g.entries.toList ↔ x = p.entry
  reachable : IsLeast {xs : Set MethodId | p.entry ∈ xs ∧
    ∀ x ∈ xs, ∀ i, .invoke i ∈ (p.method x).body → ∀ y ∈ p.hierarchyCallees (p.call i), y ∈ xs}
    {x | x ∈ g.reachable.toList}
  edges : ∀ e, e ∈ g.edges.toList ↔ e.kind = (p.call e.site).kind ∧
    (∃ x ∈ g.reachable.toList, .invoke e.site ∈ (p.method x).body) ∧
    e.callee ∈ p.hierarchyCallees (p.call e.site)
  distinct : g.edges.toList.Pairwise fun e f => ¬ (e.site = f.site ∧ e.callee = f.callee)
  containers : ∀ i x, g.container? i = some x ↔
    x ∈ g.reachable.toList ∧ .invoke i ∈ (p.method x).body

variable {p : Program}

/-! ### The queue -/

/-- How far the search has come after `n` turns. Nothing leads from the graph to where the search is not going,
and each turn takes one from the queue, to which each edge has added one. -/
structure InStep (p : Program) (n : Nat) (s : HierarchySearch) : Prop where
  entry : s.Found p.entry
  callees : ∀ i y, s.graph.hasEdge i y = true → s.Found y
  reached : ∀ x, s.Found x → Relation.ReflTransGen p.MayCall p.entry x
  turns : n + s.queue.length = 1 + s.graph.numEdges

namespace InStep

variable {n : Nat} {s t : HierarchySearch}

theorem start : p.InStep 0 ⟨CallGraph.empty.addEntry p.entry, [p.entry]⟩ where
  entry := Or.inr (List.mem_singleton.2 rfl)
  callees i y h := absurd h CallGraph.hasEdge_empty
  reached x hx := by
    rcases hx with hx | hx
    · exact absurd hx List.not_mem_nil
    · rw [List.mem_singleton.1 hx]
  turns := rfl

theorem place (h : p.InStep n s) (i : CallId) (x : MethodId) : p.InStep n (s.place i x) :=
  ⟨h.entry, h.callees, h.reached, h.turns⟩

theorem wire (h : p.InStep n s) (kind : CallKind) (i : CallId) {y : MethodId}
    (hy : Relation.ReflTransGen p.MayCall p.entry y) : p.InStep n (s.wire kind i y) := by
  by_cases hedge : s.graph.hasEdge i y = true
  · rwa [wire_of_hasEdge hedge]
  · rw [wire_of_not_hasEdge hedge]
    have hfound : ∀ x, Found ⟨s.graph.addEdge ⟨kind, i, y⟩, s.queue ++ [y]⟩ x ↔ s.Found x ∨ x = y := by
      intro x
      simp [Found, or_assoc]
    constructor
    · exact (hfound _).2 (Or.inl h.entry)
    · intro j x hx
      rw [hfound]
      rcases CallGraph.hasEdge_addEdge.1 hx with hx | ⟨-, rfl⟩
      · exact Or.inl (h.callees j x hx)
      · exact Or.inr rfl
    · intro x hx
      rcases (hfound x).1 hx with hx | rfl
      · exact h.reached x hx
      · exact hy
    · have hedges : (s.graph.addEdge ⟨kind, i, y⟩).numEdges = s.graph.numEdges + 1 := by
        rw [CallGraph.numEdges, CallGraph.edges_addEdge (e := ⟨kind, i, y⟩) hedge, Array.size_push,
          CallGraph.numEdges]
      rw [hedges, List.length_append, List.length_singleton, ← Nat.add_assoc, h.turns, Nat.add_assoc]

theorem wireAll (h : p.InStep n s) (kind : CallKind) (i : CallId) {l : List MethodId}
    (hl : ∀ y ∈ l, Relation.ReflTransGen p.MayCall p.entry y) :
    p.InStep n (l.foldl (HierarchySearch.wire · kind i) s) := by
  induction l generalizing s with
  | nil => exact h
  | cons y l ih =>
    exact ih (h.wire kind i (hl y List.mem_cons_self)) fun z hz => hl z (List.mem_cons_of_mem y hz)

theorem seesCalls {x : MethodId} {is : List CallId} (h : p.InStep n s) (hcalls : p.SeesCalls x is s t)
    (his : ∀ i ∈ is, i ∈ p.callsIn x) (hx : Relation.ReflTransGen p.MayCall p.entry x) :
    p.InStep n t := by
  induction hcalls with
  | nil => exact h
  | @cons i is l s t hl _ ih =>
    refine ih ?_ fun j hj => his j (List.mem_cons_of_mem i hj)
    apply (h.place i x).wireAll
    intro y hy
    exact hx.tail ⟨i, mem_callsIn.1 (his i List.mem_cons_self), (hl.mem_iff y).1 hy⟩

/-- The first method leaves the queue, and nothing that was found is lost by it. -/
theorem leave {g : CallGraph CallId MethodId} {x : MethodId} {queue : List MethodId}
    {reachable : Numbering MethodId} (h : p.InStep n ⟨g, x :: queue⟩)
    (hfound : ∀ y, y ∈ reachable.toList ∨ y ∈ queue ↔ y ∈ g.reachable.toList ∨ y ∈ x :: queue) :
    p.InStep (n + 1) ⟨{ g with reachable }, queue⟩ where
  entry := (hfound _).2 h.entry
  callees i y hy := (hfound y).2 (h.callees i y hy)
  reached y hy := h.reached y ((hfound y).1 hy)
  turns := by
    have hturns : n + (queue.length + 1) = 1 + g.numEdges := h.turns
    show n + 1 + queue.length = 1 + g.numEdges
    omega

theorem enter {g : CallGraph CallId MethodId} {x : MethodId} {queue : List MethodId}
    (h : p.InStep n ⟨g, x :: queue⟩) : p.InStep (n + 1) ⟨g.addReachable x, queue⟩ :=
  h.leave fun y => by simp [or_assoc]

theorem turn (h : p.InStep n s) (ht : p.Turn s t) : p.InStep (n + 1) t := by
  cases ht with
  | @skip g x queue hx =>
    have hvisited : x ∈ g.reachable.toList := Numbering.contains_iff.1 hx
    apply h.leave
    intro y
    rw [List.mem_cons]
    constructor
    · exact Or.imp_right Or.inr
    · rintro (hy | rfl | hy)
      · exact Or.inl hy
      · exact Or.inl hvisited
      · exact Or.inr hy
  | visit _ hcalls =>
    exact h.enter.seesCalls hcalls (fun i hi => hi) (h.reached _ (Or.inr List.mem_cons_self))

theorem of_turns (h : p.Turns n s) : p.InStep n s := by
  induction h with
  | start => exact start
  | next _ ht ih => exact ih.turn ht

theorem length_le (hp : p.Accepted) (h : p.InStep n s) :
    s.graph.reachable.toList.length ≤ p.methods.size := by
  apply (AtMost.setOf_lt .method p.methods.size).length_le s.graph.reachable.nodup_toList (f := id)
    fun _ _ _ _ heq => heq
  intro x hx
  exact hp.isMethod_of_mem_hierarchyReachable (hp.mem_hierarchyReachable_iff.2 (h.reached x (Or.inl hx)))

end InStep

/-! ### The graph -/

section Accepted

variable (hp : p.Accepted)

include hp

theorem records_seesCalls {x : MethodId} {is : List CallId} {s t : HierarchySearch}
    {sites : Set CallId} {calls : Set (CallId × MethodId)} (hcalls : p.SeesCalls x is s t)
    (his : ∀ i ∈ is, i ∈ p.callsIn x) (h : s.graph.Records p.toModel sites calls) :
    t.graph.Records p.toModel (sites ∪ {i | i ∈ is})
      (calls ∪ {c | c.1 ∈ is ∧ c.2 ∈ p.hierarchyCallees (p.call c.1)}) := by
  induction hcalls generalizing sites calls with
  | nil => simpa using h
  | @cons i is l s t hl _ ih =>
    have hfirst := hp.records_callees (his i List.mem_cons_self) hl.mem_iff h
    rw [← graph_place, ← graph_foldl_wire] at hfirst
    have hrest := ih (fun j hj => his j (List.mem_cons_of_mem i hj)) hfirst
    convert hrest using 1
    · ext j
      simp [or_assoc, or_left_comm]
    · ext ⟨j, y⟩
      simp
      grind

omit hp in
theorem frame_seesCalls {x : MethodId} {is : List CallId} {s t : HierarchySearch}
    (hcalls : p.SeesCalls x is s t) :
    t.graph.reachable = s.graph.reachable ∧ t.graph.entries = s.graph.entries := by
  induction hcalls with
  | nil => exact ⟨rfl, rfl⟩
  | cons _ _ ih =>
    rw [ih.1, ih.2, graph_foldl_wire]
    exact ⟨foldl_preserves (fun _ _ => CallGraph.reachable_addEdge) _ _,
      foldl_preserves (fun _ _ => CallGraph.entries_addEdge) _ _⟩

omit hp in
theorem entries_of_turns {n : Nat} {s : HierarchySearch} (h : p.Turns n s) :
    s.graph.entries = Numbering.empty.insert p.entry := by
  induction h with
  | start => rfl
  | next _ ht ih =>
    cases ht with
    | skip => exact ih
    | visit _ hcalls => exact (frame_seesCalls hcalls).2.trans ih

theorem records_of_turns {n : Nat} {s : HierarchySearch} (h : p.Turns n s) :
    s.graph.Records p.toModel {i | ∃ x ∈ s.graph.reachable.toList, i ∈ p.callsIn x}
      {c | (∃ x ∈ s.graph.reachable.toList, c.1 ∈ p.callsIn x) ∧
        c.2 ∈ p.hierarchyCallees (p.call c.1)} := by
  induction h with
  | start =>
    have hentry : (CallGraph.empty.addEntry p.entry).Records p.toModel ∅ ∅ :=
      (CallGraph.Records.empty p.toModel).withMethods _ _
    convert hentry using 1
    · simp [CallGraph.empty, CallGraph.addEntry]
    · simp [CallGraph.empty, CallGraph.addEntry]
  | next _ ht ih =>
    cases ht with
    | skip => exact ih
    | @visit g x queue t _ hcalls =>
      have hvisit : (g.addReachable x).Records p.toModel _ _ := ih.withMethods _ _
      convert records_seesCalls hp hcalls (fun i hi => hi) hvisit using 1
      all_goals
        rw [(frame_seesCalls hcalls).1]
        ext c
        simp [CallGraph.addReachable, or_and_right, exists_or]

/-- What is reached is closed when nothing waits. -/
theorem isHierarchyGraph_of_turns {n : Nat} {s : HierarchySearch} (h : p.Turns n s)
    (hqueue : s.queue = []) : p.IsHierarchyGraph s.graph := by
  have hin := InStep.of_turns h
  have hrecords := records_of_turns hp h
  have hvisited : ∀ {x}, s.Found x → x ∈ s.graph.reachable.toList := by
    intro x hx
    rw [Found, hqueue] at hx
    exact hx.resolve_right List.not_mem_nil
  have hedges : ∀ e, e ∈ s.graph.edges.toList ↔ e.kind = (p.call e.site).kind ∧
      (∃ x ∈ s.graph.reachable.toList, .invoke e.site ∈ (p.method x).body) ∧
      e.callee ∈ p.hierarchyCallees (p.call e.site) := by
    intro e
    simp only [hrecords.edges, Set.mem_ofPred_eq, mem_callsIn]
  have hclosed : ∀ x ∈ s.graph.reachable.toList, ∀ i, .invoke i ∈ (p.method x).body →
      ∀ y ∈ p.hierarchyCallees (p.call i), y ∈ s.graph.reachable.toList := by
    intro x hx i hi y hy
    apply hvisited (hin.callees i y ?_)
    exact (hrecords.coherent.hasEdge_iff i y).2
      ⟨⟨(p.call i).kind, i, y⟩, (hedges _).2 ⟨rfl, ⟨x, hx, hi⟩, hy⟩, rfl, rfl⟩
  refine {
    entries := fun x => ?_
    reachable := ⟨⟨hvisited hin.entry, hclosed⟩, ?_⟩
    edges := hedges
    distinct := hrecords.coherent.distinct
    containers := fun i x => ?_ }
  · rw [entries_of_turns h, Numbering.mem_toList_insert]
    simp
  · rintro xs ⟨hentry, hxs⟩ x hx
    have hpath := hin.reached x (Or.inl hx)
    clear hx
    induction hpath with
    | refl => exact hentry
    | tail _ hstep ih =>
      obtain ⟨i, hi, hy⟩ := hstep
      exact hxs _ ih i hi _ hy
  · rw [hrecords.containers]
    constructor
    · rintro ⟨⟨y, hy, hi⟩, rfl⟩
      rw [hp.container_of_mem_body (mem_callsIn.1 hi)]
      exact ⟨hy, mem_callsIn.1 hi⟩
    · rintro ⟨hx, hi⟩
      exact ⟨⟨x, hx, mem_callsIn.2 hi⟩, hp.container_of_mem_body hi⟩

/-! ### Termination -/

theorem numEdges_le_of_turns {n : Nat} {s : HierarchySearch} (h : p.Turns n s) :
    s.graph.numEdges ≤ p.calls.size * p.methods.size := by
  have hrecords := records_of_turns hp h
  have hpairs := (AtMost.setOf_lt .call p.calls.size).prod (AtMost.setOf_lt .method p.methods.size)
  rw [CallGraph.numEdges, ← Array.length_toList]
  apply hpairs.length_le hrecords.coherent.nodup_edges (f := fun e => (e.site, e.callee))
  · intro e he e' he' hends
    obtain ⟨hsite, hcallee⟩ := Prod.mk.inj hends
    have hkind : e.kind = e'.kind := by
      rw [((hrecords.edges e).1 he).1, ((hrecords.edges e').1 he').1, hsite]
    cases e
    cases e'
    cases hkind
    cases hsite
    cases hcallee
    rfl
  · intro e he
    obtain ⟨-, ⟨x, -, hi⟩, hcallee⟩ := (hrecords.edges e).1 he
    exact ⟨hp.isCall_of_mem_body (mem_callsIn.1 hi), hp.isMethod_of_mem_hierarchyCallees hcallee⟩

theorem le_of_turns {n : Nat} {s : HierarchySearch} (h : p.Turns n s) :
    n ≤ 1 + p.calls.size * p.methods.size := by
  have hturns := (InStep.of_turns h).turns
  have hedges := numEdges_le_of_turns hp h
  omega

end Accepted

/-! ### The order of the call graph -/

/-- The callees of a call, wired in the order in which they are listed. -/
def follow (p : Program) (x : MethodId) (s : HierarchySearch) (i : CallId) : HierarchySearch :=
  (p.hierarchyCallees (p.call i)).foldl (wire · (p.call i).kind i) (s.place i x)

theorem nodup_hierarchyCallees (c : Call) : (p.hierarchyCallees c).Nodup := by
  rw [hierarchyCallees]
  cases c.kind with
  | static | special =>
    cases p.callee? none c <;> simp
  | virtual | interface => exact Closure.nodup_eraseDups _
  | dynamic => exact List.nodup_nil

theorem seesCalls_follow (x : MethodId) (is : List CallId) (s : HierarchySearch) :
    p.SeesCalls x is s (is.foldl (p.follow x) s) := by
  induction is generalizing s with
  | nil => exact .nil s
  | cons i is ih => exact .cons ⟨nodup_hierarchyCallees _, fun _ => Iff.rfl⟩ (ih _)

theorem graph_follow {x : MethodId} {s : HierarchySearch} {i : CallId} :
    (p.follow x s i).graph = p.addHierarchyCalls x s.graph i := by
  rw [follow, graph_foldl_wire, graph_place, addHierarchyCalls]

theorem graph_foldl_follow (x : MethodId) (is : List CallId) (s : HierarchySearch) :
    (is.foldl (p.follow x) s).graph = is.foldl (p.addHierarchyCalls x) s.graph := by
  induction is generalizing s with
  | nil => rfl
  | cons i is ih => rw [List.foldl_cons, ih, graph_follow, List.foldl_cons]

/-- The search is never stuck. -/
theorem exists_turn {s : HierarchySearch} (hqueue : s.queue ≠ []) : ∃ t, p.Turn s t := by
  obtain ⟨g, queue⟩ := s
  cases queue with
  | nil => exact absurd rfl hqueue
  | cons x queue =>
    by_cases hx : g.contains x = true
    · exact ⟨_, .skip hx⟩
    · exact ⟨_, .visit hx (seesCalls_follow x _ _)⟩

/-- What waits in a queue and has not been visited, by first mention. -/
def pending (visited queue : List MethodId) : List MethodId := (queue.filter (· ∉ visited)).eraseDups

theorem mem_pending {visited queue : List MethodId} {x : MethodId} :
    x ∈ pending visited queue ↔ x ∈ queue ∧ x ∉ visited := by
  simp [pending]

theorem pending_append (visited queue more : List MethodId) : pending visited (queue ++ more) =
    pending visited queue ++ Closure.fresh (visited ++ pending visited queue) more := by
  rw [pending, List.filter_append, List.eraseDups_append, pending, Closure.fresh, List.removeAll,
    List.filter_filter]
  congr 3
  funext x
  simp
  grind

theorem pending_cons_of_mem {visited queue : List MethodId} {x : MethodId} (hx : x ∈ visited) :
    pending visited (x :: queue) = pending visited queue := by
  simp [pending, hx]

theorem pending_cons {visited queue : List MethodId} {x : MethodId} (hx : x ∉ visited) :
    pending visited (x :: queue) = x :: pending (visited ++ [x]) queue := by
  rw [pending, List.filter_cons_of_pos (by simpa using hx), List.eraseDups_cons, List.filter_filter, pending]
  congr 3
  funext y
  rw [Bool.eq_iff_iff]
  simp [and_comm]

/-- What is found already does not wait again. -/
theorem pending_append_cons_of_found {visited queue more : List MethodId} {x : MethodId}
    (hx : x ∈ visited ∨ x ∈ queue) :
    pending visited (queue ++ x :: more) = pending visited (queue ++ more) := by
  have hfound : x ∈ visited ++ pending visited queue := by
    rw [List.mem_append, mem_pending]
    tauto
  have hfresh : Closure.fresh (visited ++ pending visited queue) (x :: more) =
      Closure.fresh (visited ++ pending visited queue) more := by
    rw [Closure.fresh, List.filter_cons, if_neg (by simp only [hfound]; decide), Closure.fresh]
  rw [pending_append, pending_append, hfresh]

/-- Only edges that are there already keep a callee out of the queue, and those have been followed. -/
theorem pending_foldl_wire {n : Nat} {s : HierarchySearch} (h : p.InStep n s) (kind : CallKind) (i : CallId)
    {l : List MethodId} (hl : ∀ y ∈ l, Relation.ReflTransGen p.MayCall p.entry y) :
    pending s.graph.reachable.toList (l.foldl (wire · kind i) s).queue =
      pending s.graph.reachable.toList (s.queue ++ l) := by
  induction l generalizing s with
  | nil => rw [List.foldl_nil, List.append_nil]
  | cons y l ih =>
    have hrest := ih (h.wire kind i (hl y List.mem_cons_self)) fun z hz => hl z (List.mem_cons_of_mem y hz)
    rw [graph_wire, CallGraph.reachable_addEdge] at hrest
    rw [List.foldl_cons, hrest]
    by_cases hedge : s.graph.hasEdge i y = true
    · rw [wire_of_hasEdge hedge, pending_append_cons_of_found (h.callees i y hedge)]
    · rw [wire_of_not_hasEdge hedge, List.append_assoc, List.singleton_append]

theorem InStep.follow {n : Nat} {s : HierarchySearch} (h : p.InStep n s) {x : MethodId} {i : CallId}
    (hx : Relation.ReflTransGen p.MayCall p.entry x) (hi : i ∈ p.callsIn x) :
    p.InStep n (p.follow x s i) :=
  (h.place i x).wireAll _ i fun _ hy => hx.tail ⟨i, mem_callsIn.1 hi, hy⟩

theorem pending_foldl_follow {n : Nat} {s : HierarchySearch} (h : p.InStep n s) {x : MethodId}
    (hx : Relation.ReflTransGen p.MayCall p.entry x) (is : List CallId) (his : ∀ i ∈ is, i ∈ p.callsIn x) :
    pending s.graph.reachable.toList (is.foldl (p.follow x) s).queue = pending s.graph.reachable.toList
      (s.queue ++ is.flatMap fun i => p.hierarchyCallees (p.call i)) := by
  induction is generalizing s with
  | nil => rw [List.foldl_nil, List.flatMap_nil, List.append_nil]
  | cons i is ih =>
    have hi := his i List.mem_cons_self
    have hfirst := pending_foldl_wire (h.place i x) (p.call i).kind i (l := p.hierarchyCallees (p.call i))
      fun _ hy => hx.tail ⟨i, mem_callsIn.1 hi, hy⟩
    have hrest := ih (h.follow hx hi) fun j hj => his j (List.mem_cons_of_mem i hj)
    rw [graph_follow, Accepted.reachable_addHierarchyCalls, pending_append, follow] at hrest
    rw [List.foldl_cons, follow, hrest, List.flatMap_cons, ← List.append_assoc,
      pending_append _ (s.queue ++ _)]
    exact congrArg (fun waiting => waiting ++ Closure.fresh (s.graph.reachable.toList ++ waiting) _) hfirst

/-- The search in the order of the call graph has come as far as the closure that finds the methods. -/
structure Along (p : Program) (fuel : Nat) (s : HierarchySearch) : Prop where
  graph : s.graph = s.graph.reachable.toList.foldl
    (fun g x => (p.callsIn x).foldl (p.addHierarchyCalls x) (g.addReachable x))
    (CallGraph.empty.addEntry p.entry)
  enough : p.methods.size ≤ s.graph.reachable.toList.length + fuel
  found : Closure.expand (fun x => (p.callsIn x).flatMap fun c => p.hierarchyCallees (p.call c)) fuel
    (pending s.graph.reachable.toList s.queue)
    (s.graph.reachable.toList ++ pending s.graph.reachable.toList s.queue) = p.hierarchyReachable

namespace Along

variable {fuel n : Nat} {g : CallGraph CallId MethodId} {x : MethodId} {queue : List MethodId}

theorem start : p.Along p.methods.size ⟨CallGraph.empty.addEntry p.entry, [p.entry]⟩ where
  graph := rfl
  enough := Nat.le_add_left _ _
  found := by
    have hpending : pending [] [p.entry] = [p.entry] := by simp [pending, List.eraseDups_cons]
    rw [hierarchyReachable, closure]
    exact congrArg (fun l => Closure.expand _ _ l l) hpending

theorem graph_eq (h : p.Along fuel ⟨g, []⟩) : g = p.hierarchyCallGraph := by
  have hfound := h.found
  have hreachable : g.reachable.toList = p.hierarchyReachable := by
    cases fuel <;> simpa [pending, Closure.expand] using h.found
  rw [hierarchyCallGraph, ← hreachable]
  exact h.graph

theorem skip (h : p.Along fuel ⟨g, x :: queue⟩) (hx : g.contains x = true) : p.Along fuel ⟨g, queue⟩ where
  graph := h.graph
  enough := h.enough
  found := by
    have hfound := h.found
    rwa [pending_cons_of_mem (Numbering.contains_iff.1 hx)] at hfound

theorem visit (hp : p.Accepted) (h : p.Along fuel ⟨g, x :: queue⟩) (hin : p.InStep n ⟨g, x :: queue⟩)
    (hx : ¬ g.contains x = true) : ∃ fuel', p.Along fuel' ((p.callsIn x).foldl (p.follow x)
      ⟨g.addReachable x, queue⟩) := by
  have hnew : x ∉ g.reachable.toList := fun hmem => hx (Numbering.contains_iff.2 hmem)
  have hvisited : (g.addReachable x).reachable.toList = g.reachable.toList ++ [x] :=
    Numbering.toList_insert_of_not_mem hnew
  have hlength := hin.enter.length_le hp
  have henough : p.methods.size ≤ g.reachable.toList.length + fuel := h.enough
  cases fuel with
  | zero =>
    rw [hvisited, List.length_append, List.length_singleton] at hlength
    omega
  | succ fuel =>
    have hreachable : ((p.callsIn x).foldl (p.follow x) ⟨g.addReachable x, queue⟩).graph.reachable.toList =
        g.reachable.toList ++ [x] := by
      rw [graph_foldl_follow, foldl_preserves (Accepted.reachable_addHierarchyCalls x), hvisited]
    refine ⟨fuel, ?_, ?_, ?_⟩
    · rw [hreachable, List.foldl_append, graph_foldl_follow, ← h.graph]
      rfl
    · rw [hreachable, List.length_append, List.length_singleton]
      omega
    · have hqueue := pending_foldl_follow hin.enter (hin.reached x (Or.inr List.mem_cons_self))
        (p.callsIn x) fun i hi => hi
      rw [hvisited, pending_append] at hqueue
      have hfound := h.found
      rw [pending_cons hnew, Closure.expand] at hfound
      rw [hreachable, hqueue, ← hfound]
      simp only [List.append_assoc, List.cons_append, List.nil_append]

end Along

/-- With the callees in the order in which they are listed, the search ends with the call graph. -/
theorem exists_turns_hierarchyCallGraph (hp : p.Accepted) : ∃ n, p.Turns n ⟨p.hierarchyCallGraph, []⟩ := by
  have hrest : ∀ (k : Nat) {n fuel : Nat} {s : HierarchySearch}, p.Turns n s → p.Along fuel s →
      1 + p.calls.size * p.methods.size < n + k → ∃ n', p.Turns n' ⟨p.hierarchyCallGraph, []⟩ := by
    intro k
    induction k with
    | zero =>
      intro n fuel s hs _ hk
      have hn := le_of_turns hp hs
      omega
    | succ k ih =>
      rintro n fuel ⟨g, queue⟩ hs halong hk
      have hk' : 1 + p.calls.size * p.methods.size < n + 1 + k := by omega
      cases queue with
      | nil => exact ⟨n, halong.graph_eq ▸ hs⟩
      | cons x queue =>
        by_cases hx : g.contains x = true
        · exact ih (hs.next (.skip hx)) (halong.skip hx) hk'
        · obtain ⟨fuel', hnext⟩ := halong.visit hp (InStep.of_turns hs) hx
          exact ih (hs.next (.visit hx (seesCalls_follow x _ _))) hnext hk'
  exact hrest (2 + p.calls.size * p.methods.size) .start .start (by omega)

/-- A virtual or interface call may run what a class at or below the one that it names runs. -/
theorem mem_hierarchyCallees_iff (hp : p.Accepted) {i : CallId} (hi : p.IsCall i)
    (hkind : (p.call i).kind = .virtual ∨ (p.call i).kind = .interface) {y : MethodId} :
    y ∈ p.hierarchyCallees (p.call i) ↔ ∃ t, p.AtOrBelow t (p.call i).cls ∧
      (p.cls t).isInterface = false ∧ p.dispatch? t (p.call i).subsignature = some y := by
  have hsubtypes : ∀ t, t ∈ p.subtypesOf (p.call i).cls ↔ p.AtOrBelow t (p.call i).cls := by
    intro t
    have h := Model.mem_subtypesOf_iff_atOrBelow hp.scope (x := p.entry) (t := t) (hp.scope.call hi).cls
    rwa [← hp.eq_ofModel] at h
  rw [hierarchyCallees]
  rcases hkind with hkind | hkind
  all_goals
    simp only [hkind, List.mem_eraseDups, List.mem_filterMap, List.mem_filter, hsubtypes, Bool.not_eq_true',
      and_assoc]

/-- Whatever order callees come in, the search takes boundedly many turns, is never stuck, and ends with
exactly the graph that the hierarchy makes necessary. The call graph of the program is what one such search
ends with. A virtual or interface call may run just what the classes at or below the one that it names run,
interfaces left out. -/
theorem hierarchySearch_exact (hp : p.Accepted) :
    (∀ n s, p.Turns n s → n ≤ 1 + p.calls.size * p.methods.size ∧
      (s.queue ≠ [] → ∃ t, p.Turn s t) ∧ (s.queue = [] → p.IsHierarchyGraph s.graph)) ∧
    (∃ n, p.Turns n ⟨p.hierarchyCallGraph, []⟩) ∧ p.IsHierarchyGraph p.hierarchyCallGraph ∧
    ∀ i, p.IsCall i → (p.call i).kind = .virtual ∨ (p.call i).kind = .interface → ∀ y,
      y ∈ p.hierarchyCallees (p.call i) ↔ ∃ t, p.AtOrBelow t (p.call i).cls ∧
        (p.cls t).isInterface = false ∧ p.dispatch? t (p.call i).subsignature = some y := by
  obtain ⟨n, hn⟩ := exists_turns_hierarchyCallGraph hp
  refine ⟨fun n s hs => ⟨le_of_turns hp hs, exists_turn, isHierarchyGraph_of_turns hp hs⟩, ⟨n, hn⟩,
    isHierarchyGraph_of_turns hp hn rfl, fun i hi hkind y => mem_hierarchyCallees_iff hp hi hkind⟩

/-- The small program has one call and two methods. -/
theorem hierarchySearch_exact_identity :
    (∃ n ≤ 3, identity.Turns n ⟨identity.hierarchyCallGraph, []⟩) ∧
      identity.IsHierarchyGraph identity.hierarchyCallGraph := by
  obtain ⟨hturns, ⟨n, hn⟩, hgraph, -⟩ := hierarchySearch_exact accepted_identity
  have hsizes : 1 + identity.calls.size * identity.methods.size = 3 := by decide +kernel
  exact ⟨⟨n, hsizes ▸ (hturns n _ hn).1, hn⟩, hgraph⟩

end Program

end PointsTo
