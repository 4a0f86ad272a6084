import PointsTo.Proofs.Program.Callees
import PointsTo.Proofs.Variants.Relabeling

/-! Faults of relabeled programs. If the declarations of two programs agree up to a relabeling, a statement
without fault has a counterpart without fault. So a program whose statements are all counterparts of
statements of a program without fault has none either. -/

namespace PointsTo

namespace Relabeling

/-- What the validity of a statement depends on outside of bodies. -/
structure Agrees (ρ : Relabeling) (p q : Program) : Prop where
  entry : ρ.method p.entry = q.entry
  isStatic_entry : (q.method q.entry).isStatic = (p.method p.entry).isStatic
  isAbstract_entry : (q.method q.entry).isAbstract = (p.method p.entry).isAbstract
  var : ∀ v, p.IsVar v → (q.var (ρ.var v)).method = ρ.method (p.var v).method
  isStatic : ∀ f, p.IsField f → (q.field (ρ.field f)).isStatic = (p.field f).isStatic
  params : ∀ x, p.IsMethod x → (q.method (ρ.method x)).params.size = (p.method x).params.size

/-- A call with a counterpart that may enter the counterparts of what it may enter. -/
structure MatchesCall (ρ : Relabeling) (p q : Program) (i : CallId) : Prop where
  kind : (q.call (ρ.call i)).kind = (p.call i).kind
  receiver : (q.call (ρ.call i)).receiver = (p.call i).receiver.map ρ.var
  args : (q.call (ρ.call i)).args = (p.call i).args.map ρ.var
  result : (q.call (ρ.call i)).result = (p.call i).result.map ρ.var
  callee : ∀ receiver : Option ClassId, (∀ c ∈ receiver, p.IsClass c) →
    q.callee? (receiver.map ρ.cls) (q.call (ρ.call i)) = (p.callee? receiver (p.call i)).map ρ.method
  candidates : ∀ y ∈ q.virtualCandidates (q.call (ρ.call i)),
    ∃ x ∈ p.virtualCandidates (p.call i), ρ.method x = y

/-- A statement whose site, if it has one, has its counterpart there. -/
structure MatchesStmt (ρ : Relabeling) (p q : Program) (s : Stmt) : Prop where
  site : ∀ i, s = .new i → (q.site (ρ.site i)).lhs = ρ.var (p.site i).lhs
  call : ∀ i, s = .invoke i → ρ.MatchesCall p q i

theorem accessOf?_stmt (ρ : Relabeling) (s : Stmt) :
    Model.accessOf? (ρ.stmt s) = (Model.accessOf? s).map (Prod.map ρ.field id) := by
  cases s <;> rfl

variable {ρ : Relabeling} {p q : Program}

theorem MatchesStmt.varsOf {s : Stmt} (hs : ρ.MatchesStmt p q s) :
    q.varsOf (ρ.stmt s) = (p.varsOf s).map ρ.var := by
  cases s with
  | new i => exact congrArg List.singleton (hs.site i rfl)
  | invoke i =>
    have hi := hs.call i rfl
    simp only [stmt, Model.varsOf, hi.receiver, hi.args, hi.result, List.map_append, Option.toList_map]
  | ret v => exact Option.toList_map
  | _ => rfl

theorem MatchesCall.receiverFault? {i : CallId} (hi : ρ.MatchesCall p q i)
    (hfault : p.receiverFault? i = none) : q.receiverFault? (ρ.call i) = none := by
  rw [Program.receiverFault?_eq_none_iff] at hfault ⊢
  rwa [hi.kind, hi.receiver, Option.map_eq_none_iff, Option.isSome_map]

section Stmt

variable (h : ρ.Agrees p q)

include h

theorem MatchesCall.arityFault? {i : CallId} (hi : ρ.MatchesCall p q i) {x : MethodId}
    (hx : p.IsMethod x) (hfault : p.arityFault? i x = none) :
    q.arityFault? (ρ.call i) (ρ.method x) = none := by
  rw [Program.arityFault?_eq_none_iff] at hfault ⊢
  rw [h.params x hx, hi.args, List.length_map, hfault]

variable (hp : p.Accepted)

include hp

theorem MatchesCall.targetFault? {i : CallId} (hi : ρ.MatchesCall p q i)
    (hfault : p.targetFault? i = none) : q.targetFault? (ρ.call i) = none := by
  have hcallee := hi.callee none fun c hc => by cases hc
  rw [Program.targetFault?] at hfault ⊢
  rw [hi.kind]
  cases hkind : (p.call i).kind with
  | static | special =>
    simp only [hkind] at hfault
    cases hx : p.callee? none (p.call i) with
    | none =>
      rw [hx] at hfault
      cases hfault
    | some x =>
      rw [hx] at hfault hcallee
      simp only [show q.callee? none (q.call (ρ.call i)) = some (ρ.method x) from hcallee]
      exact hi.arityFault? h (Model.isMethod_of_callee? hp.scope hx) hfault
  | virtual | interface =>
    simp only [hkind] at hfault
    rw [List.findSome?_eq_none_iff] at hfault
    refine List.findSome?_eq_none_iff.2 fun y hy => ?_
    obtain ⟨x, hx, rfl⟩ := hi.candidates y hy
    exact hi.arityFault? h (Program.isMethod_of_mem_virtualCandidates hp.scope hx) (hfault x hx)
  | dynamic => rfl

theorem Agrees.stmtFault? {x : MethodId} {s : Stmt} (hbody : s ∈ (p.method x).body)
    (hs : ρ.MatchesStmt p q s) : q.stmtFault? (ρ.method x) (ρ.stmt s) = none := by
  obtain ⟨hvars, hfields, hcalls⟩ := Program.stmtFault?_eq_none_iff.1 (hp.stmtFault_eq_none hbody)
  refine Program.stmtFault?_eq_none_iff.2 ⟨?vars, ?fields, ?calls⟩
  case vars =>
    rw [hs.varsOf, List.forall_mem_map]
    intro v hv
    rw [h.var v (hp.isVar_of_mem_varsOf hbody hv), hvars v hv]
  case fields =>
    rw [accessOf?_stmt, Option.forall_mem_map]
    intro a ha
    exact (h.isStatic a.1 (hp.isField_of_mem_accessOf? hbody ha)).trans (hfields a ha)
  case calls =>
    cases s with
    | invoke i =>
      rintro _ ⟨⟩
      obtain ⟨hreceiver, htarget⟩ := hcalls i rfl
      exact ⟨(hs.call i rfl).receiverFault? hreceiver, (hs.call i rfl).targetFault? h hp htarget⟩
    | _ => exact nofun

/-- Nothing but counterparts of statements, so no fault. -/
theorem Agrees.fault?_eq_none (hbodies : ∀ y, ∀ t ∈ (q.method y).body,
    ∃ x, ∃ s ∈ (p.method x).body, ρ.method x = y ∧ ρ.stmt s = t ∧ ρ.MatchesStmt p q s) :
    q.fault? = none := by
  refine Program.fault?_eq_none_iff.2 ⟨?entry, ?bodies⟩
  case entry =>
    rw [Program.entryFault?_eq_none_iff, h.isStatic_entry, h.isAbstract_entry,
      ← Program.entryFault?_eq_none_iff]
    exact (Program.fault?_eq_none_iff.1 hp.fault_eq_none).1
  case bodies =>
    intro y t ht
    obtain ⟨x, s, hs, rfl, rfl, hmatches⟩ := hbodies y t ht
    exact h.stmtFault? hp hs hmatches

end Stmt

end Relabeling

end PointsTo
