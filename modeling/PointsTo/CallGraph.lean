import Std.Data.TreeSet
import PointsTo.Numbering
import PointsTo.Program.Basic

/-! Call graphs. A graph records entry methods, reachable methods in order of discovery, one edge for
each pair of call site and callee, and the method that each call site was last placed in. The pairs
that have an edge are kept as well, and edges are indexed from both ends. -/

namespace PointsTo

structure CallEdge (S M : Type) where
  kind : CallKind
  site : S
  callee : M
  deriving DecidableEq, Repr

/-- The ends of a call edge. -/
@[ext] structure Ends (S M : Type) where
  site : S
  callee : M
  deriving DecidableEq, Repr

def CallEdge.ends {S M : Type} (e : CallEdge S M) : Ends S M := ⟨e.site, e.callee⟩

/-- The code of the call site is told from that of the callee by its length. -/
instance endsCoded {S M : Type} [Coded S] [Coded M] : Coded (Ends S M) where
  code p := (Coded.code p.site).length :: (Coded.code p.site ++ Coded.code p.callee)
  code_injective {p q} h := by
    obtain ⟨hlength, hcodes⟩ := List.cons.inj h
    obtain ⟨hsite, hcallee⟩ := List.append_inj hcodes hlength
    exact Ends.ext (Coded.code_injective hsite) (Coded.code_injective hcallee)

structure CallGraph (S M : Type) [Coded S] [Coded M] where
  entries : Numbering M
  reachable : Numbering M
  edges : Array (CallEdge S M)
  targets : Std.TreeSet (Ends S M)
  calleeIndex : Std.TreeMap S (Array M)
  callerIndex : Std.TreeMap M (Array S)
  containers : Std.TreeMap S M
  target_iff : ∀ (s : S) (x : M), ⟨s, x⟩ ∈ targets ↔ x ∈ calleeIndex.getD s #[]

namespace CallGraph

variable {S M : Type} [Coded S] [Coded M]

def empty : CallGraph S M := ⟨.empty, .empty, #[], ∅, ∅, ∅, ∅, fun s x => by simp⟩

instance : Inhabited (CallGraph S M) := ⟨empty⟩

variable (g : CallGraph S M)

def addEntry (x : M) : CallGraph S M := { g with entries := g.entries.insert x }

def addReachable (x : M) : CallGraph S M := { g with reachable := g.reachable.insert x }

def setContainer (s : S) (x : M) : CallGraph S M := { g with containers := g.containers.insert s x }

/-- The callees of a call site, in the order of their edges. -/
def callees (s : S) : Array M := g.calleeIndex.getD s #[]

/-- The call sites with an edge to a method, in the order of those edges. -/
def callSites (x : M) : Array S := g.callerIndex.getD x #[]

def hasEdge (s : S) (x : M) : Bool := g.targets.contains ⟨s, x⟩

private theorem target_iff_insert {targets : Std.TreeSet (Ends S M)} {index : Std.TreeMap S (Array M)}
    (hiff : ∀ (s : S) (x : M), ⟨s, x⟩ ∈ targets ↔ x ∈ index.getD s #[]) (e : CallEdge S M) (s : S) (x : M) :
    ⟨s, x⟩ ∈ targets.insert e.ends ↔
      x ∈ (index.insert e.site ((index.getD e.site #[]).push e.callee)).getD s #[] := by
  rw [Std.TreeSet.mem_insert, Std.TreeMap.getD_insert, hiff]
  simp only [Std.LawfulEqOrd.compare_eq_iff_eq, CallEdge.ends, Ends.mk.injEq]
  by_cases hs : e.site = s
  · subst hs
    simp [or_comm, eq_comm]
  · simp [hs]

/-- A second edge between the same call site and callee is dropped, whatever its kind. -/
def addEdge (e : CallEdge S M) : CallGraph S M :=
  if g.hasEdge e.site e.callee then g
  else
    { g with
      edges := g.edges.push e
      targets := g.targets.insert e.ends
      calleeIndex := g.calleeIndex.insert e.site ((g.callees e.site).push e.callee)
      callerIndex := g.callerIndex.insert e.callee ((g.callSites e.callee).push e.site)
      target_iff := target_iff_insert g.target_iff e }

/-- Adds an edge and says whether there was none with the same ends. -/
def insertEdge (e : CallEdge S M) : CallGraph S M × Bool :=
  (g.addEdge e, !g.hasEdge e.site e.callee)

def contains (x : M) : Bool := g.reachable.contains x

/-- Adds a reachable method and says whether it is new. -/
def insertReachable (x : M) : CallGraph S M × Bool := (g.addReachable x, !g.contains x)

def container? (s : S) : Option M := g.containers[s]?

/-- The methods that hold the call sites calling `x`, one for each call site that has one. -/
def callers (x : M) : List M := (g.callSites x).toList.filterMap g.container?

def numReachable : Nat := g.reachable.size

def numEdges : Nat := g.edges.size

variable {g}

theorem hasEdge_iff_mem_callees {s : S} {x : M} : g.hasEdge s x = true ↔ x ∈ g.callees s := by
  rw [hasEdge, Std.TreeSet.contains_iff_mem, g.target_iff]
  rfl

@[simp] theorem hasEdge_empty {s : S} {x : M} : ¬ (empty : CallGraph S M).hasEdge s x = true := by
  simp [hasEdge, empty]

theorem addEdge_of_hasEdge {e : CallEdge S M} (h : g.hasEdge e.site e.callee = true) :
    g.addEdge e = g := if_pos h

theorem edges_addEdge {e : CallEdge S M} (h : ¬ g.hasEdge e.site e.callee = true) :
    (g.addEdge e).edges = g.edges.push e := by
  rw [addEdge, if_neg h]

theorem mem_edges_addEdge {e f : CallEdge S M} (h : ¬ g.hasEdge e.site e.callee = true) :
    f ∈ (g.addEdge e).edges.toList ↔ f ∈ g.edges.toList ∨ f = e := by
  simp [edges_addEdge h]

theorem callees_addEdge {e : CallEdge S M} (h : ¬ g.hasEdge e.site e.callee = true) (s : S)
    [Decidable (e.site = s)] :
    (g.addEdge e).callees s = if e.site = s then (g.callees s).push e.callee else g.callees s := by
  rw [addEdge, if_neg h]
  simp only [callees, Std.TreeMap.getD_insert, Std.LawfulEqOrd.compare_eq_iff_eq]
  split
  · rename_i hs
    rw [hs]
  · rfl

theorem callSites_addEdge {e : CallEdge S M} (h : ¬ g.hasEdge e.site e.callee = true) (x : M)
    [Decidable (e.callee = x)] : (g.addEdge e).callSites x =
      if e.callee = x then (g.callSites x).push e.site else g.callSites x := by
  rw [addEdge, if_neg h]
  simp only [callSites, Std.TreeMap.getD_insert, Std.LawfulEqOrd.compare_eq_iff_eq]
  split
  · rename_i hx
    rw [hx]
  · rfl

@[simp] theorem hasEdge_addEdge {e : CallEdge S M} {s : S} {x : M} :
    (g.addEdge e).hasEdge s x = true ↔ g.hasEdge s x = true ∨ s = e.site ∧ x = e.callee := by
  by_cases h : g.hasEdge e.site e.callee = true
  · rw [addEdge_of_hasEdge h, iff_self_or]
    rintro ⟨rfl, rfl⟩
    exact h
  · rw [addEdge, if_neg h]
    simp only [hasEdge, Std.TreeSet.contains_iff_mem, Std.TreeSet.mem_insert,
      Std.LawfulEqOrd.compare_eq_iff_eq, CallEdge.ends, Ends.mk.injEq]
    rw [or_comm, eq_comm, @eq_comm M]

@[simp] theorem reachable_addEdge {e : CallEdge S M} : (g.addEdge e).reachable = g.reachable := by
  rw [addEdge]
  split <;> rfl

@[simp] theorem entries_addEdge {e : CallEdge S M} : (g.addEdge e).entries = g.entries := by
  rw [addEdge]
  split <;> rfl

@[simp] theorem container?_addEdge {e : CallEdge S M} {s : S} :
    (g.addEdge e).container? s = g.container? s := by
  rw [addEdge]
  split <;> rfl

theorem container?_setContainer {s t : S} {x y : M} :
    (g.setContainer s x).container? t = some y ↔
      s = t ∧ x = y ∨ s ≠ t ∧ g.container? t = some y := by
  simp only [container?, setContainer, Std.TreeMap.getElem?_insert,
    Std.LawfulEqOrd.compare_eq_iff_eq]
  by_cases h : s = t <;> simp [h]

/-- The edges have no two with the same ends, and the index of callees knows of each. -/
structure Coherent (g : CallGraph S M) : Prop where
  hasEdge_iff : ∀ s x, g.hasEdge s x = true ↔ ∃ e ∈ g.edges.toList, e.site = s ∧ e.callee = x
  distinct : g.edges.toList.Pairwise fun e f => ¬ (e.site = f.site ∧ e.callee = f.callee)

theorem Coherent.empty : (empty : CallGraph S M).Coherent where
  hasEdge_iff s x := by simpa [CallGraph.empty] using hasEdge_empty
  distinct := List.Pairwise.nil

theorem Coherent.addEdge (h : g.Coherent) (e : CallEdge S M) : (g.addEdge e).Coherent := by
  by_cases hedge : g.hasEdge e.site e.callee = true
  · rwa [addEdge_of_hasEdge hedge]
  · constructor
    · intro s x
      rw [hasEdge_addEdge, h.hasEdge_iff, edges_addEdge hedge, Array.toList_push]
      constructor
      · rintro (⟨f, hf, hends⟩ | ⟨rfl, rfl⟩)
        · exact ⟨f, List.mem_append_left _ hf, hends⟩
        · exact ⟨e, List.mem_append_right _ (List.mem_singleton.2 rfl), rfl, rfl⟩
      · intro hexists
        obtain ⟨f, hf, hends⟩ := hexists
        rcases List.mem_append.1 hf with hf | hf
        · exact Or.inl ⟨f, hf, hends⟩
        · obtain rfl := List.mem_singleton.1 hf
          exact Or.inr ⟨hends.1.symm, hends.2.symm⟩
    · rw [edges_addEdge hedge, Array.toList_push, List.pairwise_append]
      refine ⟨h.distinct, List.pairwise_singleton _ _, ?_⟩
      intro f hf f' hf' hends
      obtain rfl := List.mem_singleton.1 hf'
      exact hedge ((h.hasEdge_iff _ _).2 ⟨f, hf, hends⟩)

theorem Coherent.nodup_edges (h : g.Coherent) : g.edges.toList.Nodup :=
  h.distinct.imp fun {e f} hne (heq : e = f) => hne (heq ▸ ⟨rfl, rfl⟩)

end CallGraph

end PointsTo
