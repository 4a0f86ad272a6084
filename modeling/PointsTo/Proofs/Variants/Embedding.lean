import PointsTo.Proofs.PossibleFacts
import PointsTo.Proofs.Precision.Refinement
import PointsTo.Proofs.Variants.Relabeling

/-! Embedded programs. One program is embedded in another if what its parts say is said there as well, in
the identifiers of the other, which may say more. Whatever is a fact of the first program is then a fact of
the second: facts of the second that have a counterpart in the first are closed under the rules of the
first. -/

namespace PointsTo

namespace Relabeling

/-- The parts of the first program say nothing that those of the second do not. -/
structure Embeds (ρ : Relabeling) (p q : Program) : Prop where
  entry : ρ.method p.entry = q.entry
  var : ∀ v, p.IsVar v → (q.var (ρ.var v)).method = ρ.method (p.var v).method
  lhs : ∀ i, p.IsSite i → (q.site (ρ.site i)).lhs = ρ.var (p.site i).lhs
  object : ∀ (h : HeapModel) i, p.IsSite i →
    h.object q.toModel (ρ.site i) = ρ.object (h.object p.toModel i)
  kind : ∀ i, p.IsCall i → (q.call (ρ.call i)).kind = (p.call i).kind
  receiver : ∀ i, p.IsCall i → (q.call (ρ.call i)).receiver = (p.call i).receiver.map ρ.var
  args : ∀ i, p.IsCall i → (q.call (ρ.call i)).args = (p.call i).args.map ρ.var
  result : ∀ i, p.IsCall i → (q.call (ρ.call i)).result = (p.call i).result.map ρ.var
  callee : ∀ i, p.IsCall i → ∀ receiver : Option ClassId, (∀ c ∈ receiver, p.IsClass c) →
    ∀ x, p.callee? receiver (p.call i) = some x →
      q.callee? (receiver.map ρ.cls) (q.call (ρ.call i)) = some (ρ.method x)
  this : ∀ x, p.IsMethod x → (q.method (ρ.method x)).this = (p.method x).this.map ρ.var
  params : ∀ x, p.IsMethod x →
    (q.method (ρ.method x)).params.toList = (p.method x).params.toList.map ρ.var
  returns : ∀ x, p.IsMethod x → ∀ v ∈ (p.method x).returns, ρ.var v ∈ (q.method (ρ.method x)).returns
  body : ∀ x, p.IsMethod x → ∀ s ∈ (p.method x).body, ρ.stmt s ∈ (q.method (ρ.method x)).body

/-- What the first answers say, the second say in the identifiers of the other program. -/
structure Sends (ρ : Relabeling) (A B : Answers) : Prop where
  pointsTo : ∀ v, ∀ o ∈ A.pointsTo v, ρ.object o ∈ B.pointsTo (ρ.var v)
  statics : ∀ f, ∀ o ∈ A.statics f, ρ.object o ∈ B.statics (ρ.field f)
  fields : ∀ b f, ∀ o ∈ A.fields b f, ρ.object o ∈ B.fields (ρ.object b) (ρ.field f)
  elements : ∀ b, ∀ o ∈ A.elements b, ρ.object o ∈ B.elements (ρ.object b)
  calls : ∀ e ∈ A.calls, ⟨e.kind, ρ.call e.site, ρ.method e.callee⟩ ∈ B.calls
  reachable : ∀ x ∈ A.reachable, ρ.method x ∈ B.reachable
  entries : ∀ x ∈ A.entries, ρ.method x ∈ B.entries

theorem Sends.within {A B : Answers} (h : Relabeling.id.Sends A B) : A.Within B where
  pointsTo v o ho := by simpa using h.pointsTo v o ho
  statics f o ho := by simpa using h.statics f o ho
  fields b f o ho := by simpa using h.fields b f o ho
  elements b o ho := by simpa using h.elements b o ho
  calls := h.calls
  reachable := h.reachable
  entries := h.entries

namespace Embeds

variable {ρ : Relabeling} {p q : Program} {σ : Selector} {h : HeapModel} {F G : Facts}
  (hρ : ρ.Embeds p q) (hp : p.Accepted)

include hρ

theorem reads_preimage {c : ContextOf HeapObject} {s : Stmt} (hknows : p.KnowsStmt s)
    (hs : (⟨q, σ, h⟩ : Analysis).Reads G (ρ.context c) (ρ.stmt s)) :
    (⟨p, σ, h⟩ : Analysis).Reads (ρ.preimage G) c s := by
  cases s with
  | new site =>
    have hnew : (CellOf.var (ρ.context c) (q.site (ρ.site site)).lhs,
      Located.mk (σ.heapContext (ρ.context c)) (h.object q.toModel (ρ.site site))) ∈ G.pointsTo := hs
    rw [hρ.lhs site hknows, hρ.object h site hknows] at hnew
    show (CellOf.var (ρ.context c) _, Located.mk (ρ.context (σ.heapContext c)) (ρ.object _)) ∈ G.pointsTo
    rw [context_heapContext]
    exact hnew
  | copy | loadStatic | storeStatic => exact hs
  | invoke i =>
    intro hstatic x hx
    have hkind := hρ.kind i hknows
    have hcallee := hρ.callee i hknows none (fun c hc => by cases hc) x hx
    have hedge := hs (by rw [Call.isStatic, hkind]; exact hstatic) (ρ.method x) hcallee
    rw [hkind] at hedge
    show CallEdge.mk _ _ (Located.mk (ρ.context (σ.calleeContext c i none)) (ρ.method x)) ∈ G.calls
    rw [context_calleeContext]
    exact hedge
  | loadField | storeField | loadArray | storeArray | ret => trivial

include hp in
theorem meets_preimage {c : ContextOf HeapObject} {v : VarId} {o : Located HeapObject} {s : Stmt}
    (hknows : p.KnowsStmt s) (ho : p.IsClass o.item.type)
    (hs : (⟨q, σ, h⟩ : Analysis).Meets G (ρ.context c) (ρ.var v) (ρ.qobject o) (ρ.stmt s)) :
    (⟨p, σ, h⟩ : Analysis).Meets (ρ.preimage G) c v o s := by
  cases s with
  | storeField | loadField | storeArray | loadArray => exact fun hbase => hs (congrArg ρ.var hbase)
  | invoke i =>
    intro hreceiver x hx
    have hmethod : p.IsMethod x := Model.isMethod_of_callee? hp.scope hx
    have hcallee := hρ.callee i hknows (some o.item.type) (by rintro _ ⟨⟩; exact ho) x hx
    have hreceives : (q.call (ρ.call i)).receiver = some (ρ.var v) := by
      rw [hρ.receiver i hknows, hreceiver]
      rfl
    obtain ⟨hedge, hthis⟩ := hs hreceives (ρ.method x) hcallee
    have hcontext : (⟨q, σ, h⟩ : Analysis).contextOn (ρ.context c) (ρ.call i) (ρ.qobject o) =
        ρ.context ((⟨p, σ, h⟩ : Analysis).contextOn c i o) :=
      (ρ.context_calleeContext σ c i (some ⟨o.context, o.item, o.item⟩)).symm
    rw [hcontext, hρ.kind i hknows] at hedge
    refine ⟨hedge, fun this hmem => ?_⟩
    have hself := hthis (ρ.var this) (by rw [hρ.this x hmethod, hmem]; rfl)
    rw [hcontext] at hself
    exact hself
  | new | copy | loadStatic | storeStatic | ret => trivial

theorem wires_preimage {e : LocatedEdge} (hcall : p.IsCall e.site.item) (hmethod : p.IsMethod e.callee.item)
    (he : (⟨q, σ, h⟩ : Analysis).Wires G (ρ.edge e)) :
    (⟨p, σ, h⟩ : Analysis).Wires (ρ.preimage G) e where
  callee := he.callee
  argument arg param hmem := by
    refine he.argument (ρ.var arg) (ρ.var param) ?_
    show _ ∈ (q.call (ρ.call e.site.item)).args.zip (q.method (ρ.method e.callee.item)).params.toList
    rw [hρ.args _ hcall, hρ.params _ hmethod, List.zip_map]
    exact List.mem_map_of_mem hmem
  result r hr v hv := by
    refine he.result (ρ.var r) ?_ (ρ.var v) (hρ.returns _ hmethod v hv)
    show ρ.var r ∈ (q.call (ρ.call e.site.item)).result
    rw [hρ.result _ hcall]
    exact Option.mem_map_of_mem ρ.var hr

include hp

/-- The rules of the first program ask of facts with a counterpart no more than those of the second do. -/
theorem follows_preimage (hG : (⟨q, σ, h⟩ : Analysis).Closed G) :
    (⟨p, σ, h⟩ : Analysis).Follows ((⟨p, σ, h⟩ : Analysis).possibleFacts ⊓ ρ.preimage G)
      (ρ.preimage G) where
  entry := by
    have hentry := hG.entry
    rw [← hρ.entry] at hentry
    exact hentry
  reads x hx s hs := by
    obtain ⟨hpossible, hreach⟩ := hx
    exact hρ.reads_preimage ((hp.scope.method hpossible.2).body s hs)
      (hG.reads _ hreach _ (hρ.body x.item hpossible.2 s hs))
  meets c v o ho s hs := by
    obtain ⟨⟨⟨-, hvar⟩, -, i, hi, hitem⟩, hheld⟩ := ho
    have hmethod := hp.scope.var hvar
    have hbody := hρ.body _ hmethod s hs
    rw [← hρ.var v hvar] at hbody
    have htype : p.IsClass o.item.type := by
      rw [← hitem]
      cases h with
      | allocationSite => exact (hp.scope.site hi).cls
      | type => exact (hp.scope.site hi).cls
    exact hρ.meets_preimage hp ((hp.scope.method hmethod).body s hs) htype (hG.meets _ _ _ hheld _ hbody)
  wires e he := by
    obtain ⟨⟨-, ⟨-, hcall⟩, -, hmethod⟩, hedge⟩ := he
    exact hρ.wires_preimage hcall hmethod (hG.wires _ hedge)
  flows x y hxy o ho := hG.flows _ _ hxy.2 _ ho.2

/-- The facts of an embedded program are facts of the other. -/
theorem le_preimage (hF : IsLeast {F | (⟨p, σ, h⟩ : Analysis).Closed F} F)
    (hG : (⟨q, σ, h⟩ : Analysis).Closed G) : F ≤ ρ.preimage G := by
  have hpossible : (⟨p, σ, h⟩ : Analysis).Follows ((⟨p, σ, h⟩ : Analysis).possibleFacts ⊓ ρ.preimage G)
      (⟨p, σ, h⟩ : Analysis).possibleFacts :=
    (Analysis.closed_possibleFacts (a := ⟨p, σ, h⟩) hp).anti inf_le_left
  exact (hF.2 (hpossible.inf (hρ.follows_preimage hp hG))).trans inf_le_right

omit hp in
theorem sends (hle : F ≤ ρ.preimage G) :
    ρ.Sends ((⟨p, σ, h⟩ : Analysis).answers F) ((⟨q, σ, h⟩ : Analysis).answers G) := by
  obtain ⟨hreach, hcalls, -, hpointsTo⟩ := Facts.le_iff.1 hle
  constructor
  case pointsTo =>
    intro v o hheld
    obtain ⟨c, d, hmem⟩ := hheld
    exact ⟨_, _, hpointsTo hmem⟩
  case statics =>
    intro f o hheld
    obtain ⟨c, hmem⟩ := hheld
    exact ⟨_, hpointsTo hmem⟩
  case fields =>
    intro b f o hheld
    obtain ⟨c, d, hmem⟩ := hheld
    exact ⟨_, _, hpointsTo hmem⟩
  case elements =>
    intro b o hheld
    obtain ⟨c, d, hmem⟩ := hheld
    exact ⟨_, _, hpointsTo hmem⟩
  case calls =>
    rintro _ ⟨e, he, rfl⟩
    exact ⟨_, hcalls he, rfl⟩
  case reachable =>
    intro x hx
    obtain ⟨c, hmem⟩ := hx
    exact ⟨_, hreach hmem⟩
  case entries =>
    rintro _ rfl
    exact hρ.entry

/-- What holds after a run on the embedded program, holds after one on the other. -/
theorem finishes (hq : q.Accepted) {r r' : Result} (hr : (⟨p, σ, h⟩ : Analysis).Finishes r)
    (hr' : (⟨q, σ, h⟩ : Analysis).Finishes r') :
    r.state.facts ≤ ρ.preimage r'.state.facts ∧ ρ.Sends r.answers r'.answers := by
  have hle := hρ.le_preimage hp (hr.isLeast hp.indexed) (hr'.isLeast hq.indexed).1
  refine ⟨hle, ?_⟩
  rw [hr.answers_eq_facts hp.indexed, hr'.answers_eq_facts hq.indexed]
  exact hρ.sends hle

end Embeds

end Relabeling

end PointsTo
