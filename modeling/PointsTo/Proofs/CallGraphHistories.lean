import Mathlib.Data.Finset.Card
import PointsTo.Proofs.CallGraphIndex
import PointsTo.Proofs.Histories

/-! Histories of a call graph. What a call graph was told is written down with what it answered, and what
it has to show is read off the record alone: the first edge between each two ends, the method that a call
site was placed in last. After any requests the edges, the pairs that have one and the indexes from both
ends show that and nothing else. -/

namespace PointsTo

namespace CallGraph

inductive Request (S M : Type) where
  | addEntry (x : M)
  | addReachable (x : M)
  | setContainer (s : S) (x : M)
  | addEdge (e : CallEdge S M)

/-- A request that has been served, with its answer if it has one. -/
inductive Entry (S M : Type) where
  | entered (x : M)
  | reached (x : M) (isNew : Bool)
  | placed (s : S) (x : M)
  | added (e : CallEdge S M) (isNew : Bool)

/-! ### The record -/

section Record

variable {S M : Type} (h : List (Entry S M))

def enteredMethods : List M :=
  h.filterMap fun
    | .entered x => some x
    | _ => none

def reachedMethods : List M :=
  h.filterMap fun
    | .reached x _ => some x
    | _ => none

/-- The edges that were added, repeated ones as well. -/
def addedEdges : List (CallEdge S M) :=
  h.filterMap fun
    | .added e _ => some e
    | _ => none

/-- The first edge between each two ends. -/
def recordedEdges [DecidableEq S] [DecidableEq M] : List (CallEdge S M) :=
  firstsBy CallEdge.ends (addedEdges h)

/-- The methods that a call site was placed in, one after the other. -/
def placements [DecidableEq S] (s : S) : List M :=
  h.filterMap fun
    | .placed t x => if t = s then some x else none
    | _ => none

theorem enteredMethods_append (h' : List (Entry S M)) :
    enteredMethods (h ++ h') = enteredMethods h ++ enteredMethods h' := List.filterMap_append

theorem reachedMethods_append (h' : List (Entry S M)) :
    reachedMethods (h ++ h') = reachedMethods h ++ reachedMethods h' := List.filterMap_append

theorem addedEdges_append (h' : List (Entry S M)) :
    addedEdges (h ++ h') = addedEdges h ++ addedEdges h' := List.filterMap_append

theorem placements_append [DecidableEq S] (h' : List (Entry S M)) (s : S) :
    placements (h ++ h') s = placements h s ++ placements h' s := List.filterMap_append

end Record

/-! ### Requests -/

/-- A call graph with the record of all that it served, the latest last. -/
structure Served (S M : Type) [Coded S] [Coded M] where
  graph : CallGraph S M
  history : List (Entry S M)

variable {S M : Type} [Coded S] [Coded M]

def Served.serve (t : Served S M) : Request S M → Served S M
  | .addEntry x => ⟨t.graph.addEntry x, t.history ++ [.entered x]⟩
  | .addReachable x =>
    let (graph, isNew) := t.graph.insertReachable x
    ⟨graph, t.history ++ [.reached x isNew]⟩
  | .setContainer s x => ⟨t.graph.setContainer s x, t.history ++ [.placed s x]⟩
  | .addEdge e =>
    let (graph, isNew) := t.graph.insertEdge e
    ⟨graph, t.history ++ [.added e isNew]⟩

def Served.serveAll (t : Served S M) (requests : List (Request S M)) : Served S M :=
  requests.foldl serve t

/-- A new call graph that has served the requests. -/
def served (requests : List (Request S M)) : Served S M := Served.serveAll ⟨.empty, []⟩ requests

/-! ### The index of callees -/

/-- The index has for each call site the callees of its edges. -/
def ListsCallees [DecidableEq S] (g : CallGraph S M) : Prop :=
  ∀ s, (g.callees s).toList = (g.edges.toList.filter fun e => e.site = s).map CallEdge.callee

theorem ListsCallees.empty [DecidableEq S] : (empty : CallGraph S M).ListsCallees := by
  intro s
  have hnone : (∅ : Std.TreeMap S (Array M)).getD s #[] = #[] := Std.TreeMap.getD_emptyc
  simp [callees, CallGraph.empty, hnone]

theorem ListsCallees.addEdge [DecidableEq S] {g : CallGraph S M} (h : g.ListsCallees)
    (e : CallEdge S M) : (g.addEdge e).ListsCallees := by
  intro s
  by_cases hedge : g.hasEdge e.site e.callee = true
  · rw [addEdge_of_hasEdge hedge]
    exact h s
  · rw [edges_addEdge hedge, Array.toList_push, List.filter_append, List.map_append, ← h s,
      callees_addEdge hedge]
    by_cases hs : e.site = s
    · simp [hs]
    · simp [hs]

namespace Served

variable [DecidableEq S] [DecidableEq M] {t : Served S M} {g : CallGraph S M} {b : Entry S M}

/-! ### Methods -/

/-- The methods of the graph are those on record, and those answered to be new were new. -/
structure KeepsMethods (t : Served S M) : Prop where
  entries : t.graph.entries.toList = (enteredMethods t.history).eraseDups
  reachable : t.graph.reachable.toList = (reachedMethods t.history).eraseDups
  answers : ∀ before b after, t.history = before ++ b :: after →
    ∀ x isNew, b = .reached x isNew → (isNew = true ↔ x ∉ reachedMethods before)

omit [DecidableEq S] in
theorem keepsMethods_empty : KeepsMethods (⟨.empty, []⟩ : Served S M) :=
  ⟨rfl, rfl, fun _ _ _ heq => by simp at heq⟩

omit [DecidableEq S] in
/-- An entry that speaks of no method. -/
theorem KeepsMethods.concat (h : t.KeepsMethods) (hentries : g.entries = t.graph.entries)
    (hreachable : g.reachable = t.graph.reachable) (hentered : enteredMethods [b] = [])
    (hreached : reachedMethods [b] = []) : KeepsMethods ⟨g, t.history ++ [b]⟩ where
  entries := by rw [hentries, h.entries, enteredMethods_append, hentered, List.append_nil]
  reachable := by rw [hreachable, h.reachable, reachedMethods_append, hreached, List.append_nil]
  answers := by
    refine forall_split_concat.2 ⟨h.answers, ?_⟩
    rintro x isNew rfl
    cases hreached

omit [DecidableEq S] in
theorem KeepsMethods.serve (h : t.KeepsMethods) (r : Request S M) : (t.serve r).KeepsMethods := by
  cases r with
  | addEntry x =>
    refine ⟨?_, ?_, forall_split_concat.2 ⟨h.answers, fun _ _ heq => by cases heq⟩⟩
    · rw [Served.serve, enteredMethods_append]
      exact Numbering.toList_insert_eq_eraseDups h.entries x
    · exact h.reachable.trans (by simp [Served.serve, reachedMethods])
  | addReachable x =>
    refine ⟨?_, ?_, forall_split_concat.2 ⟨h.answers, ?_⟩⟩
    · exact h.entries.trans (by simp [Served.serve, enteredMethods])
    · rw [Served.serve, reachedMethods_append]
      exact Numbering.toList_insert_eq_eraseDups h.reachable x
    · intro y isNew heq
      obtain ⟨rfl, rfl⟩ := Entry.reached.inj heq
      show (!t.graph.contains x) = true ↔ x ∉ reachedMethods t.history
      rw [Bool.not_eq_true', ← Bool.not_eq_true, CallGraph.contains, Numbering.contains_iff,
        h.reachable, List.mem_eraseDups]
  | setContainer s x => exact h.concat rfl rfl rfl rfl
  | addEdge e => exact h.concat entries_addEdge reachable_addEdge rfl rfl

/-! ### Containers -/

/-- A call site is in the method that it was placed in last. -/
def KeepsContainers (t : Served S M) : Prop :=
  ∀ s, t.graph.container? s = (placements t.history s).getLast?

omit [DecidableEq M] in
theorem keepsContainers_empty : KeepsContainers (⟨.empty, []⟩ : Served S M) := by
  intro s
  simp [container?, CallGraph.empty, placements]

omit [DecidableEq M] in
/-- An entry that places no call site. -/
theorem KeepsContainers.concat (h : t.KeepsContainers)
    (hcontainer : ∀ s, g.container? s = t.graph.container? s) (hplaced : ∀ s, placements [b] s = []) :
    KeepsContainers ⟨g, t.history ++ [b]⟩ := by
  intro s
  show g.container? s = (placements (t.history ++ [b]) s).getLast?
  rw [hcontainer, h s, placements_append, hplaced, List.append_nil]

omit [DecidableEq M] in
theorem KeepsContainers.serve (h : t.KeepsContainers) (r : Request S M) :
    (t.serve r).KeepsContainers := by
  cases r with
  | addEntry x => exact h.concat (fun _ => rfl) fun _ => rfl
  | addReachable x => exact h.concat (fun _ => rfl) fun _ => rfl
  | addEdge e => exact h.concat (fun _ => container?_addEdge) fun _ => rfl
  | setContainer s x =>
    intro r
    show (t.graph.setContainer s x).container? r = (placements (t.history ++ [.placed s x]) r).getLast?
    by_cases hs : s = r
    · subst hs
      have hplaced : placements [.placed s x] s = [x] := by simp [placements]
      rw [placements_append, hplaced, List.getLast?_concat]
      exact container?_setContainer.2 (Or.inl ⟨rfl, rfl⟩)
    · have hplaced : placements [.placed s x] r = [] := by simp [placements, hs]
      rw [placements_append, hplaced, List.append_nil, ← h r]
      ext y
      rw [container?_setContainer]
      simp [hs]

/-! ### Edges -/

/-- The edges of the graph are those on record, whichever way they are looked up, and those answered to
be new were new. -/
structure KeepsEdges (t : Served S M) : Prop where
  coherent : t.graph.Coherent
  callees : t.graph.ListsCallees
  callers : t.graph.ListsCallers
  edges : t.graph.edges.toList = recordedEdges t.history
  answers : ∀ before b after, t.history = before ++ b :: after →
    ∀ e isNew, b = .added e isNew → (isNew = true ↔ ¬∃ f ∈ recordedEdges before, f.ends = e.ends)

theorem keepsEdges_empty : KeepsEdges (⟨.empty, []⟩ : Served S M) :=
  ⟨.empty, .empty, .empty, rfl, fun _ _ _ heq => by simp at heq⟩

theorem KeepsEdges.hasEdge_iff (h : t.KeepsEdges) {s : S} {x : M} :
    t.graph.hasEdge s x = true ↔ ∃ e ∈ recordedEdges t.history, e.ends = ⟨s, x⟩ := by
  rw [h.coherent.hasEdge_iff, h.edges]
  simp only [CallEdge.ends, Ends.mk.injEq]

/-- An entry that speaks of no edge. -/
theorem KeepsEdges.concat (h : t.KeepsEdges) (hcoherent : g.Coherent) (hcallees : g.ListsCallees)
    (hcallers : g.ListsCallers) (hedges : g.edges = t.graph.edges) (hadded : addedEdges [b] = []) :
    KeepsEdges ⟨g, t.history ++ [b]⟩ where
  coherent := hcoherent
  callees := hcallees
  callers := hcallers
  edges := by
    rw [hedges, h.edges, recordedEdges, recordedEdges, addedEdges_append, hadded, List.append_nil]
  answers := by
    refine forall_split_concat.2 ⟨h.answers, ?_⟩
    rintro e isNew rfl
    cases hadded

theorem KeepsEdges.addEdge (h : t.KeepsEdges) (e : CallEdge S M) :
    (t.serve (.addEdge e)).KeepsEdges where
  coherent := h.coherent.addEdge e
  callees := h.callees.addEdge e
  callers := h.callers.addEdge e
  edges := by
    have hadded : addedEdges (t.serve (.addEdge e)).history = addedEdges t.history ++ [e] :=
      addedEdges_append _ _
    have hedge : t.graph.hasEdge e.site e.callee = true ↔ ∃ f ∈ addedEdges t.history, f.ends = e.ends :=
      h.hasEdge_iff.trans (exists_mem_firstsBy CallEdge.ends)
    rw [recordedEdges, hadded, firstsBy_concat, ← recordedEdges, ← h.edges]
    show (t.graph.addEdge e).edges.toList = _
    split
    · rename_i hold
      rw [addEdge_of_hasEdge (hedge.2 hold)]
    · rename_i hnew
      rw [edges_addEdge (mt hedge.1 hnew), Array.toList_push]
  answers := by
    refine forall_split_concat.2 ⟨h.answers, fun f isNew heq => ?_⟩
    obtain ⟨rfl, rfl⟩ := Entry.added.inj heq
    show (!t.graph.hasEdge e.site e.callee) = true ↔ _
    rw [Bool.not_eq_true', ← Bool.not_eq_true, h.hasEdge_iff]
    rfl

theorem KeepsEdges.serve (h : t.KeepsEdges) (r : Request S M) : (t.serve r).KeepsEdges := by
  have hcoherent := h.coherent
  cases r with
  | addEntry x =>
    exact h.concat ⟨hcoherent.hasEdge_iff, hcoherent.distinct⟩ h.callees h.callers rfl rfl
  | addReachable x =>
    exact h.concat ⟨hcoherent.hasEdge_iff, hcoherent.distinct⟩ h.callees h.callers rfl rfl
  | setContainer s x =>
    exact h.concat ⟨hcoherent.hasEdge_iff, hcoherent.distinct⟩ h.callees
      (h.callers.setContainer s x) rfl rfl
  | addEdge e => exact h.addEdge e

/-! ### Runs -/

/-- What the graph holds is what the record says. -/
structure Keeps (t : Served S M) : Prop where
  methods : t.KeepsMethods
  containers : t.KeepsContainers
  edges : t.KeepsEdges

theorem Keeps.serve (h : t.Keeps) (r : Request S M) : (t.serve r).Keeps :=
  ⟨h.methods.serve r, h.containers.serve r, h.edges.serve r⟩

theorem Keeps.serveAll (h : t.Keeps) (requests : List (Request S M)) : (t.serveAll requests).Keeps := by
  induction requests generalizing t with
  | nil => exact h
  | cons r requests ih => exact ih (h.serve r)

theorem keeps_served (requests : List (Request S M)) : (served requests).Keeps :=
  Keeps.serveAll ⟨keepsMethods_empty, keepsContainers_empty, keepsEdges_empty⟩ requests

/-! ### What the graph shows -/

/-- Each edge has ends of its own, so there are as many as there are pairs of ends on record. -/
theorem KeepsEdges.numEdges_eq (h : t.KeepsEdges) :
    t.graph.numEdges = ((addedEdges t.history).map CallEdge.ends).toFinset.card := by
  have hdistinct : (t.graph.edges.toList.map CallEdge.ends).Nodup := by
    rw [List.Nodup, List.pairwise_map]
    exact h.coherent.distinct.imp fun hne heq => hne (Ends.mk.inj heq)
  have hsame : (t.graph.edges.toList.map CallEdge.ends).toFinset =
      ((addedEdges t.history).map CallEdge.ends).toFinset := by
    ext ends
    rw [List.mem_toFinset, List.mem_toFinset, List.mem_map, List.mem_map, h.edges]
    exact exists_mem_firstsBy CallEdge.ends
  calc
    t.graph.numEdges = (t.graph.edges.toList.map CallEdge.ends).length := by simp [numEdges]
    _ = (t.graph.edges.toList.map CallEdge.ends).toFinset.card :=
      (List.toFinset_card_of_nodup hdistinct).symm
    _ = ((addedEdges t.history).map CallEdge.ends).toFinset.card := congrArg Finset.card hsame

theorem Keeps.callers_eq (h : t.Keeps) (x : M) : t.graph.callers x =
    (t.graph.edges.toList.filter fun e => e.callee = x).filterMap fun e =>
      (placements t.history e.site).getLast? := by
  have hcontainers : t.graph.container? = fun s => (placements t.history s).getLast? :=
    funext h.containers
  rw [callers, h.edges.callers x, sitesTo, List.filterMap_map, hcontainers]
  rfl

/-- What a call graph shows is what the record says, whichever way it is asked. -/
structure Indexed (t : Served S M) : Prop where
  entries : t.graph.entries.toList = (enteredMethods t.history).eraseDups
  reachable : t.graph.reachable.toList = (reachedMethods t.history).eraseDups
  reached : ∀ before x isNew after, t.history = before ++ .reached x isNew :: after →
    (isNew = true ↔ x ∉ reachedMethods before)
  edges : t.graph.edges.toList = recordedEdges t.history
  distinct : t.graph.edges.toList.Pairwise fun e f => e.ends ≠ f.ends
  added : ∀ before e isNew after, t.history = before ++ .added e isNew :: after →
    (isNew = true ↔ ¬∃ f ∈ recordedEdges before, f.ends = e.ends)
  hasEdge : ∀ s x, t.graph.hasEdge s x = true ↔ ∃ e ∈ t.graph.edges.toList, e.ends = ⟨s, x⟩
  containers : ∀ s, t.graph.container? s = (placements t.history s).getLast?
  callees : ∀ s, (t.graph.callees s).toList =
    (t.graph.edges.toList.filter fun e => e.site = s).map CallEdge.callee
  callers : ∀ x, t.graph.callers x =
    (t.graph.edges.toList.filter fun e => e.callee = x).filterMap fun e =>
      (placements t.history e.site).getLast?
  numEdges : t.graph.numEdges = ((addedEdges t.history).map CallEdge.ends).toFinset.card

end Served

variable [DecidableEq S] [DecidableEq M]

/-- Whatever a call graph is told, and in whichever order, its indexes agree. -/
theorem served_indexed (requests : List (Request S M)) : (served requests).Indexed :=
  have h := Served.keeps_served requests
  { entries := h.methods.entries
    reachable := h.methods.reachable
    reached := fun before x isNew after heq => h.methods.answers before _ after heq x isNew rfl
    edges := h.edges.edges
    distinct := h.edges.coherent.distinct.imp fun hne heq => hne (Ends.mk.inj heq)
    added := fun before e isNew after heq => h.edges.answers before _ after heq e isNew rfl
    hasEdge := fun s x => by rw [h.edges.hasEdge_iff, h.edges.edges]
    containers := h.containers
    callees := h.edges.callees
    callers := h.callers_eq
    numEdges := h.edges.numEdges_eq }

/-- The second edge is dropped, and the container counts for the edge that came before it. -/
example : ((served [.addEdge ⟨.virtual, ⟨0⟩, ⟨1⟩⟩, .addEdge ⟨.interface, ⟨0⟩, ⟨1⟩⟩,
    .setContainer ⟨0⟩ ⟨7⟩] : Served CallId MethodId).graph.callers ⟨1⟩) = [⟨7⟩] := by decide +kernel

end CallGraph

end PointsTo
