import PointsTo.Proofs.Result.Answers
import PointsTo.Proofs.Variants.TrimmedRuns

/-! Dead code. What stands in methods that an analysis reports unreachable has no influence on the analysis.
A program assembled without the statements of these methods is accepted as well, and its analysis takes the
same steps to the same result, but for the numbers of allocation sites and call sites, which close ranks. -/

namespace PointsTo

/-! ### Call graphs -/

def Relabeling.callEdge (ρ : Relabeling) (e : CallEdge CallId MethodId) : CallEdge CallId MethodId :=
  { e with site := ρ.call e.site }

namespace CallGraph

/-- The call site stands somewhere in the graph. -/
inductive Names {S M : Type} [Coded S] [Coded M] (g : CallGraph S M) : S → Prop
  | edge {e : CallEdge S M} (he : e ∈ g.edges.toList) : g.Names e.site
  | caller {i : S} {x : M} (hx : x ∈ g.callees i) : g.Names i
  | listed {i : S} {x : M} (hi : i ∈ g.callSites x) : g.Names i
  | placed {i : S} {x : M} (hx : g.container? i = some x) : g.Names i

namespace Names

variable {S M : Type} [Coded S] [Coded M] {g : CallGraph S M} {i : S}

theorem of_setContainer {j : S} {x : M} (h : (g.setContainer j x).Names i) : g.Names i ∨ i = j := by
  cases h with
  | edge he => exact Or.inl (.edge he)
  | caller hx => exact Or.inl (.caller hx)
  | listed hi => exact Or.inl (.listed hi)
  | placed hx =>
    rcases container?_setContainer.1 hx with ⟨rfl, -⟩ | ⟨-, hx⟩
    · exact Or.inr rfl
    · exact Or.inl (.placed hx)

theorem of_addEdge {e : CallEdge S M} (h : (g.addEdge e).Names i) : g.Names i ∨ i = e.site := by
  by_cases hedge : g.hasEdge e.site e.callee = true
  · rw [addEdge_of_hasEdge hedge] at h
    exact Or.inl h
  · cases h with
    | edge hf =>
      rcases (mem_edges_addEdge hedge).1 hf with hf | rfl
      · exact Or.inl (.edge hf)
      · exact Or.inr rfl
    | caller hx =>
      rcases hasEdge_addEdge.1 (hasEdge_iff_mem_callees.2 hx) with hold | ⟨rfl, -⟩
      · exact Or.inl (.caller (hasEdge_iff_mem_callees.1 hold))
      · exact Or.inr rfl
    | listed hi =>
      classical
      rw [callSites_addEdge hedge] at hi
      split at hi
      · rcases Array.mem_push.1 hi with hi | rfl
        · exact Or.inl (.listed hi)
        · exact Or.inr rfl
      · exact Or.inl (.listed hi)
    | placed hx =>
      rw [container?_addEdge] at hx
      exact Or.inl (.placed hx)

end Names

/-- The second graph is the first one with the call sites, all of them known, in other numbers. -/
structure Renumbered (ρ : Relabeling) (known : Set CallId) (g g' : CallGraph CallId MethodId) : Prop where
  names : ∀ i, g.Names i → i ∈ known
  entries : g'.entries = g.entries
  reachable : g'.reachable = g.reachable
  edges : g'.edges = g.edges.map ρ.callEdge
  callees : ∀ i ∈ known, g'.callees (ρ.call i) = g.callees i
  callSites : ∀ x, g'.callSites x = (g.callSites x).map ρ.call
  container? : ∀ i ∈ known, g'.container? (ρ.call i) = g.container? i

namespace Renumbered

variable {ρ : Relabeling} {known : Set CallId} {g g' : CallGraph CallId MethodId}

theorem empty : (empty : CallGraph CallId MethodId).Renumbered ρ known .empty where
  names i hi := by
    cases hi with
    | edge he => simp [CallGraph.empty] at he
    | caller hx => exact absurd (hasEdge_iff_mem_callees.2 hx) hasEdge_empty
    | listed hi => simp [CallGraph.callSites, CallGraph.empty] at hi
    | placed hx => simp [CallGraph.container?, CallGraph.empty] at hx
  entries := rfl
  reachable := rfl
  edges := Array.map_empty.symm
  callees _ _ := Std.TreeMap.getD_emptyc.trans Std.TreeMap.getD_emptyc.symm
  callSites x := by simp [CallGraph.callSites, CallGraph.empty]
  container? _ _ := by simp [CallGraph.container?, CallGraph.empty]

variable (h : g.Renumbered ρ known g')

include h

theorem withMethods (entries reachable : Numbering MethodId) :
    ({ g with entries, reachable } : CallGraph CallId MethodId).Renumbered ρ known
      { g' with entries, reachable } where
  names i hi := by
    cases hi with
    | edge he => exact h.names _ (.edge he)
    | caller hx => exact h.names i (.caller hx)
    | listed hi => exact h.names i (.listed hi)
    | placed hx => exact h.names i (.placed hx)
  entries := rfl
  reachable := rfl
  edges := h.edges
  callees := h.callees
  callSites := h.callSites
  container? := h.container?

variable (hρ : Set.InjOn ρ.call known) {i : CallId} (hi : i ∈ known)

include hρ hi

theorem setContainer (x : MethodId) :
    (g.setContainer i x).Renumbered ρ known (g'.setContainer (ρ.call i) x) := by
  refine { h with names := ?names, container? := ?container }
  case names =>
    intro j hj
    rcases hj.of_setContainer with hj | rfl
    · exact h.names j hj
    · exact hi
  case container =>
    intro j hj
    have hsame : ρ.call i = ρ.call j ↔ i = j := ⟨fun heq => hρ hi hj heq, congrArg ρ.call⟩
    have hold := h.container? j hj
    rw [CallGraph.container?, CallGraph.container?] at hold
    simp only [CallGraph.container?, CallGraph.setContainer, Std.TreeMap.getElem?_insert,
      Std.LawfulEqOrd.compare_eq_iff_eq, hsame, hold]

theorem addEdge {e : CallEdge CallId MethodId} (he : e.site = i) :
    (g.addEdge e).Renumbered ρ known (g'.addEdge (ρ.callEdge e)) := by
  subst he
  have hsame : g'.hasEdge (ρ.callEdge e).site (ρ.callEdge e).callee = true ↔
      g.hasEdge e.site e.callee = true := by
    rw [hasEdge_iff_mem_callees, hasEdge_iff_mem_callees, ← h.callees _ hi]
    rfl
  by_cases hedge : g.hasEdge e.site e.callee = true
  · rwa [addEdge_of_hasEdge hedge, addEdge_of_hasEdge (hsame.2 hedge)]
  · have hedge' := mt hsame.1 hedge
    constructor
    case names =>
      intro j hj
      rcases hj.of_addEdge with hj | rfl
      · exact h.names j hj
      · exact hi
    case entries => rw [entries_addEdge, entries_addEdge, h.entries]
    case reachable => rw [reachable_addEdge, reachable_addEdge, h.reachable]
    case edges => rw [edges_addEdge hedge, edges_addEdge hedge', Array.map_push, h.edges]
    case callees =>
      intro j hj
      have hsite : (ρ.callEdge e).site = ρ.call j ↔ e.site = j :=
        ⟨fun heq => hρ hi hj heq, congrArg ρ.call⟩
      rw [callees_addEdge hedge, callees_addEdge hedge', h.callees j hj, if_congr hsite rfl rfl]
      rfl
    case callSites =>
      intro x
      rw [callSites_addEdge hedge, callSites_addEdge hedge', h.callSites, apply_ite (Array.map ρ.call),
        Array.map_push]
      rfl
    case container? =>
      intro j hj
      rw [container?_addEdge, container?_addEdge, h.container? j hj]

end Renumbered

end CallGraph

/-! ### Results -/

namespace Result

/-- The second result is the first one with allocation sites and call sites in other numbers, those of the
call graph being known. -/
structure Renumbered (ρ : Relabeling) (known : Set CallId) (r r' : Result) : Prop where
  state : r.state.Renumbered ρ r'.state
  varObjects : r'.varObjects = r.varObjects
  callGraph : r.callGraph.Renumbered ρ known r'.callGraph

variable {p : Program} {keep : MethodId → Bool} {s u : State}

theorem projectMethods_of_inStep (h : s.InStep p keep u) : projectMethods u = projectMethods s := by
  rw [h.rest]
  rfl

/-- The edge of a call site that is kept. -/
theorem renumbered_addEdge (h : s.InStep p keep u) {e : QCallEdge} (he : s.entities.IsQCall e.site)
    {g g' : CallGraph CallId MethodId}
    (hg : g.Renumbered (p.renumber keep) {i | p.KeepsCall keep i} g') :
    (addEdge p s.entities g e).Renumbered (p.renumber keep) {i | p.KeepsCall keep i}
      (addEdge (p.trim keep) u.entities g' e) := by
  have hinjective : Set.InjOn (p.renumber keep).call {i | p.KeepsCall keep i} :=
    fun i hi j hj heq => Program.call_injective hi hj heq
  have hkept : p.KeepsCall keep (s.entities.qcall e.site).item :=
    h.keeps.qcalls _ (Numbering.getD_mem he _)
  have hcall : (p.trim keep).call (u.entities.qcall e.site).item =
      p.call (s.entities.qcall e.site).item := by
    rw [h.qcall]
    exact Program.call_trim hkept
  rw [addEdge, addEdge, hcall, h.qcall, h.qmethod]
  exact (hg.setContainer hinjective hkept _).addEdge hinjective hkept rfl

theorem renumbered_projectCalls (h : s.InStep p keep u)
    (hs : ∀ e ∈ s.calls.edges.toList, s.entities.IsQCall e.site) :
    (projectCalls p s).Renumbered (p.renumber keep) {i | p.KeepsCall keep i}
      (projectCalls (p.trim keep) u) := by
  have hmethods : (projectMethods s).Renumbered (p.renumber keep) {i | p.KeepsCall keep i}
      (projectMethods u) := by
    rw [projectMethods_of_inStep h, projectMethods_eq]
    exact CallGraph.Renumbered.empty.withMethods _ _
  have hedges : u.calls.edges = s.calls.edges := by
    rw [h.rest]
    rfl
  rw [projectCalls_eq, projectCalls_eq, hedges]
  generalize projectMethods s = g, projectMethods u = g' at hmethods
  generalize s.calls.edges.toList = l at hs
  induction l generalizing g g' with
  | nil => exact hmethods
  | cons e l ih =>
    have hadded := renumbered_addEdge h (hs e List.mem_cons_self) hmethods
    exact ih _ _ hadded fun f hf => hs f (List.mem_cons_of_mem e hf)

theorem renumbered_ofState (h : s.InStep p keep u)
    (hs : ∀ e ∈ s.calls.edges.toList, s.entities.IsQCall e.site) :
    (ofState p s).Renumbered (p.renumber keep) {i | p.KeepsCall keep i} (ofState (p.trim keep) u) := by
  refine ⟨h.toRenumbered, ?_, renumbered_projectCalls h hs⟩
  show collectVars u.entities = collectVars s.entities
  rw [h.rest]
  rfl

end Result

/-! ### Sites that close ranks -/

/-- Classes, fields, methods and variables keep their numbers. The sites of the second program are those of
the first that stand in kept methods, in the same order. -/
structure Relabeling.ClosesRanks (ρ : Relabeling) (p q : Program) (keep : MethodId → Bool) : Prop where
  cls : ∀ c, ρ.cls c = c
  field : ∀ f, ρ.field f = f
  method : ∀ x, ρ.method x = x
  var : ∀ v, ρ.var v = v
  site : ∀ i, p.KeepsSite keep i → q.site (ρ.site i) = p.site i
  call : ∀ i, p.KeepsCall keep i → q.call (ρ.call i) = p.call i
  bijOn_site : Set.BijOn ρ.site {i | p.KeepsSite keep i} {i | q.IsSite i}
  bijOn_call : Set.BijOn ρ.call {i | p.KeepsCall keep i} {i | q.IsCall i}
  site_lt_site : ∀ i j, p.KeepsSite keep i → p.KeepsSite keep j → i.index < j.index →
    (ρ.site i).index < (ρ.site j).index
  call_lt_call : ∀ i j, p.KeepsCall keep i → p.KeepsCall keep j → i.index < j.index →
    (ρ.call i).index < (ρ.call j).index

theorem Program.closesRanks_trim (p : Program) (keep : MethodId → Bool) :
    (p.renumber keep).ClosesRanks p (p.trim keep) keep where
  cls _ := rfl
  field _ := rfl
  method _ := rfl
  var _ := rfl
  site _ := site_trim
  call _ := call_trim
  bijOn_site := by
    refine ⟨fun i hi => ?_, fun i hi j hj heq => site_injective hi hj heq, fun j hj => ?_⟩
    · exact (Array.getElem?_eq_some_iff.1 (getElem?_sites_trim hi)).1
    · exact exists_site_trim hj
  bijOn_call := by
    refine ⟨fun i hi => ?_, fun i hi j hj heq => call_injective hi hj heq, fun j hj => ?_⟩
    · exact (Array.getElem?_eq_some_iff.1 (getElem?_calls_trim hi)).1
    · exact exists_call_trim hj
  site_lt_site _ _ hi _ := site_lt_site hi
  call_lt_call _ _ hi _ := call_lt_call hi

theorem State.statistics_of_renumbered {ρ : Relabeling} {s u : State} (h : s.Renumbered ρ u) :
    u.statistics = s.statistics := by
  have hcontexts : u.entities.contexts.size = s.entities.contexts.size := by
    rw [Numbering.size_eq_length, Numbering.size_eq_length, h.contexts, List.length_map]
  have hobjects : u.entities.objects.size = s.entities.objects.size := by
    rw [Numbering.size_eq_length, Numbering.size_eq_length, h.objects, List.length_map]
  unfold statistics
  rw [hcontexts, hobjects, h.rest]
  rfl

namespace Analysis

variable {a : Analysis} {order : WorkOrder} {limit : Option Nat} {r : Result}

/-- The trimmed program has the same result under the same limit. -/
theorem exists_result_trim (hp : a.program.Accepted) {keep : MethodId → Bool}
    (hq : (a.program.trim keep).Accepted) (h : a.result order limit = .ok r)
    (hkeep : ∀ x ∈ r.state.facts.reach, keep x.item = true) :
    ∃ r', (a.trim keep).result order limit = .ok r' ∧ r.state.InStep a.program keep r'.state ∧
      r.Renumbered (a.program.renumber keep) {i | a.program.KeepsCall keep i} r' := by
  obtain ⟨hsolve, hr⟩ := result_eq_ok h
  have hleast := isLeast_facts hp.indexed hsolve
  have hinStep := inStep_of_run hp hq hleast.1 (keeps_of_solve hp hsolve hkeep) order
    (limit.getD itemRange)
  obtain ⟨hrun, hempty⟩ := solve_eq_ok hsolve
  rw [hrun] at hinStep
  have hsolve' : (a.trim keep).solve order limit =
      .ok ((a.trim keep).run (limit.getD itemRange) ((a.trim keep).start order)) := by
    rw [solve, final, State.finished, if_pos]
    rw [hinStep.work_eq]
    exact hempty
  refine ⟨_, by rw [result, hsolve']; rfl, hinStep, ?_⟩
  rw [hr]
  exact Result.renumbered_ofState hinStep fun e he =>
    ((final_of_solve hp.indexed hsolve).sound.requested e (Or.inl he)).1

/-- What stands in methods that an analysis reports unreachable is irrelevant to it. All sites that it speaks
of are in other methods. Without the statements of the unreachable ones the same commands assemble a program
that is accepted, and its analysis numbers the same things alike, comes to the same sets and graphs in as many
steps and knows the remaining sites under numbers that have closed ranks. -/
theorem unreachable_code_irrelevant {cs : List Builder.Command} (hcs : Builder.empty.AllAllowed cs)
    {p : Program} (hp : (Builder.empty.performAll cs).build = .ok p) {σ : Selector} {h : HeapModel}
    (hr : (⟨p, σ, h⟩ : Analysis).result order limit = .ok r) :
    Builder.empty.AllAllowed (cs.filter (·.keeps r.callGraph.contains)) ∧
      r.state.entities.Keeps p r.callGraph.contains ∧
      (∀ e ∈ r.state.events, p.KeepsEvent r.callGraph.contains e) ∧
      ∃ q r' ρ,
        (Builder.empty.performAll (cs.filter (·.keeps r.callGraph.contains))).build = .ok q ∧
        (⟨q, σ, h⟩ : Analysis).result order limit = .ok r' ∧
        ρ.ClosesRanks p q r.callGraph.contains ∧
        r.Renumbered ρ {i | p.KeepsCall r.callGraph.contains i} r' ∧
        r'.state.statistics = r.state.statistics := by
  have hempty : Builder.empty.trim r.callGraph.contains = .empty := by
    simp [Builder.trim, Model.trim, Builder.empty]
  obtain ⟨hallowed, hperform⟩ := @Builder.trim_performAll _ r.callGraph.contains .empty _ hcs
  rw [hempty] at hallowed hperform
  have hreached := Builder.Reached.performAll .empty hcs
  have haccepted : p.Accepted := ⟨_, hreached, hp⟩
  have hbuild := Builder.build_trim hreached hp r.callGraph.contains
  rw [hperform] at hbuild
  have haccepted' : (p.trim r.callGraph.contains).Accepted :=
    ⟨_, Builder.Reached.performAll .empty hallowed, hbuild⟩
  have hkeep : ∀ x ∈ r.state.facts.reach, r.callGraph.contains x.item = true := by
    rintro _ ⟨id, hid, rfl⟩
    obtain ⟨-, hstate⟩ := result_eq_ok hr
    rw [hstate]
    exact Numbering.contains_iff.2 (Result.mem_reachable_projectCalls.2 ⟨id, hid, rfl⟩)
  obtain ⟨r', hr', hinStep, hrenumbered⟩ := exists_result_trim haccepted haccepted' hr hkeep
  exact ⟨hallowed, hinStep.keeps, hinStep.keepsEvents, _, r', _, hbuild, hr', p.closesRanks_trim _,
    hrenumbered, State.statistics_of_renumbered hrenumbered.state⟩

end Analysis

/-- The small program with a method that nobody calls. -/
def Builder.Command.withDeadCode : List Builder.Command :=
  [.addClass "A" .plain none,
    .addMethod ⟨0⟩ ⟨"main()"⟩ true false [],
    .addMethod ⟨0⟩ ⟨"id(A)"⟩ false false ["p"],
    .addMethod ⟨0⟩ ⟨"unused()"⟩ true false [],
    .var ⟨2⟩ "z",
    .pushNew ⟨2⟩ ⟨2⟩ ⟨0⟩,
    .pushCall ⟨2⟩ .virtual ⟨0⟩ ⟨"id(A)"⟩ (some ⟨2⟩) [⟨2⟩] none,
    .var ⟨0⟩ "x",
    .var ⟨0⟩ "y",
    .pushNew ⟨0⟩ ⟨3⟩ ⟨0⟩,
    .pushCall ⟨0⟩ .virtual ⟨0⟩ ⟨"id(A)"⟩ (some ⟨3⟩) [⟨3⟩] (some ⟨4⟩),
    .pushReturn ⟨1⟩ (some ⟨1⟩),
    .setEntry ⟨0⟩]

namespace Analysis

/-- The second allocation site and the second call site become the first ones. -/
theorem unreachable_code_irrelevant_small : ∃ p r,
    (Builder.empty.performAll Builder.Command.withDeadCode).build = .ok p ∧
      (⟨p, .callString 1 1, .allocationSite⟩ : Analysis).result .fifo none = .ok r ∧
      r.state.entities.Keeps p r.callGraph.contains ∧
      ∃ q r' ρ, (⟨q, .callString 1 1, .allocationSite⟩ : Analysis).result .fifo none = .ok r' ∧
        ρ.ClosesRanks p q r.callGraph.contains ∧
        r.Renumbered ρ {i | p.KeepsCall r.callGraph.contains i} r' := by
  obtain ⟨p, hp, hfinishes⟩ := exists_ok_of_any
    (e := (Builder.empty.performAll Builder.Command.withDeadCode).build)
    (f := fun p => ((⟨p, .callString 1 1, .allocationSite⟩ : Analysis).result .fifo none).isOk)
    (by decide +kernel)
  obtain ⟨r, hr⟩ := exists_eq_ok hfinishes
  obtain ⟨-, hkeeps, -, q, r', ρ, -, hr', hranks, hrenumbered, -⟩ :=
    unreachable_code_irrelevant (by decide +kernel) hp hr
  exact ⟨p, r, hp, hr, hkeeps, q, r', ρ, hr', hranks, hrenumbered⟩

end Analysis

end PointsTo
