import PointsTo.Proofs.Program.Callees
import PointsTo.Proofs.Program.Superclasses

/-! What the builder accepts, told without the checks: their order, the searches that they rely on and
the lists that these return do not show. -/

namespace PointsTo

namespace Model

variable (m : Model)

/-- The call has an argument for each parameter of the method, and no more. -/
def Suits (c : Call) (x : MethodId) : Prop := (m.method x).params.size = c.args.length

/-- Whether a call has a receiver goes by its kind. What it names must be there, where it can only run
that; otherwise all that there is, dispatched to or just declared, must take its arguments. -/
def FitsCall (c : Call) : Prop :=
  match c.kind with
  | .static => c.receiver = none ∧ ∃ x, (m.cls c.cls).declaredMethod? c.subsignature = some x ∧
      (m.method x).isStatic = true ∧ m.Suits c x
  | .special => c.receiver.isSome = true ∧ ∃ x, m.Dispatches c.subsignature c.cls x ∧ m.Suits c x
  | .virtual | .interface => c.receiver.isSome = true ∧ ∀ t, m.AtOrBelow t c.cls →
      (∀ x, m.Dispatches c.subsignature t x → m.Suits c x) ∧
      ∀ x, (m.cls t).declaredMethod? c.subsignature = some x → m.Suits c x
  | .dynamic => True

end Model

/-- A finished model without fault. -/
structure Builder.WellFormed (b : Builder) : Prop where
  entry : ∃ x, b.entry = some x ∧ (b.method x).isStatic = true ∧ (b.method x).isAbstract = false
  acyclic : ∀ c, ¬ Relation.TransGen b.Inherits c c
  vars : ∀ x, ∀ s ∈ (b.method x).body, ∀ v ∈ b.varsOf s, (b.toModel.var v).method = x
  fields : ∀ x, ∀ s ∈ (b.method x).body, ∀ a ∈ Model.accessOf? s, (b.field a.1).isStatic = a.2
  calls : ∀ x i, .invoke i ∈ (b.method x).body → b.FitsCall (b.call i)

namespace Program

/-! ### The checks of a call -/

variable {m : Model} {entry : MethodId}

section

variable (hm : m.Scoped) (hacyclic : m.endlessClass? = none)

include hm hacyclic

theorem mem_virtualCandidates_iff {c : Call} (hc : m.IsClass c.cls) {x : MethodId} :
    x ∈ (ofModel m entry).virtualCandidates c ↔ ∃ t, m.AtOrBelow t c.cls ∧
      (m.Dispatches c.subsignature t x ∨ (m.cls t).declaredMethod? c.subsignature = some x) := by
  simp only [virtualCandidates, List.mem_append, List.mem_filterMap,
    Model.mem_subtypesOf_iff_atOrBelow hm hc, ← exists_or, ← and_or_left]
  refine exists_congr fun t => and_congr_right fun ht => ?_
  exact or_congr (Model.dispatch?_eq_some_iff hacyclic (ht.isClass hc)) Iff.rfl

theorem forall_mem_virtualCandidates_iff {c : Call} (hc : m.IsClass c.cls) {P : MethodId → Prop} :
    (∀ x ∈ (ofModel m entry).virtualCandidates c, P x) ↔ ∀ t, m.AtOrBelow t c.cls →
      (∀ x, m.Dispatches c.subsignature t x → P x) ∧
      ∀ x, (m.cls t).declaredMethod? c.subsignature = some x → P x := by
  simp only [mem_virtualCandidates_iff hm hacyclic hc]
  constructor
  · intro h t ht
    exact ⟨fun x hx => h x ⟨t, ht, Or.inl hx⟩, fun x hx => h x ⟨t, ht, Or.inr hx⟩⟩
  · rintro h x ⟨t, ht, hx | hx⟩
    · exact (h t ht).1 x hx
    · exact (h t ht).2 x hx

theorem fitsCall_iff {i : CallId} (hi : m.IsClass (m.call i).cls) :
    (ofModel m entry).receiverFault? i = none ∧ (ofModel m entry).targetFault? i = none ↔
      m.FitsCall (m.call i) := by
  have harity : ∀ x, (ofModel m entry).arityFault? i x = none ↔ m.Suits (m.call i) x := fun x =>
    arityFault?_eq_none_iff
  have hcall : (ofModel m entry).call i = m.call i := rfl
  have hcallee : (ofModel m entry).callee? none (m.call i) = m.callee? none (m.call i) := rfl
  rw [receiverFault?_eq_none_iff, targetFault?, hcall, hcallee, Model.FitsCall]
  cases hkind : (m.call i).kind with
  | dynamic => simp
  | static =>
    simp only [Model.callee?, hkind]
    cases (m.cls (m.call i).cls).declaredMethod? (m.call i).subsignature with
    | none => simp
    | some x => cases hstatic : (m.method x).isStatic <;> simp [Option.filter, hstatic, harity]
  | special =>
    simp only [Model.callee?, hkind, ← Model.dispatch?_eq_some_iff hacyclic hi]
    cases m.dispatch? (m.call i).cls (m.call i).subsignature <;> simp [harity]
  | virtual | interface =>
    simp only [List.findSome?_eq_none_iff, harity, forall_mem_virtualCandidates_iff hm hacyclic hi]
    simp

end

end Program

namespace Builder

variable {b : Builder} (hb : b.Reached)

include hb

/-- The builder accepts exactly the well-formed models. -/
theorem build_isOk_iff_wellFormed : (∃ p, b.build = .ok p) ↔ b.WellFormed := by
  have hm := scoped_of_reached hb
  have hcls : ∀ {x i}, .invoke i ∈ (b.method x).body → b.IsClass (b.call i).cls := fun hi =>
    (hm.call ((hm.method (Model.isMethod_of_mem_body hi)).body _ hi)).cls
  constructor
  · rintro ⟨p, hp⟩
    obtain ⟨entry, hentry, hendless, rfl, hfault⟩ := build_eq_ok hp
    obtain ⟨hstart, hstmts⟩ := Program.fault?_eq_none_iff.1 hfault
    have hstmt := fun x s hs => Program.stmtFault?_eq_none_iff.1 (hstmts x s hs)
    exact {
      entry := ⟨entry, hentry, Program.entryFault?_eq_none_iff.1 hstart⟩
      acyclic := (Model.endlessClass?_eq_none_iff hm).1 hendless
      vars := fun x s hs => (hstmt x s hs).1
      fields := fun x s hs => (hstmt x s hs).2.1
      calls := fun x i hi => (Program.fitsCall_iff hm hendless (hcls hi)).1
        ((hstmt x _ hi).2.2 i rfl) }
  · intro h
    obtain ⟨entry, hentry, hstart⟩ := h.entry
    have hendless := (Model.endlessClass?_eq_none_iff hm).2 h.acyclic
    have hfault : (Program.ofModel b.toModel entry).fault? = none := by
      refine Program.fault?_eq_none_iff.2 ⟨Program.entryFault?_eq_none_iff.2 hstart, ?_⟩
      intro x s hs
      refine Program.stmtFault?_eq_none_iff.2 ⟨h.vars x s hs, h.fields x s hs, ?_⟩
      rintro i rfl
      exact (Program.fitsCall_iff hm hendless (hcls hs)).2 (h.calls x i hs)
    exact ⟨Program.ofModel b.toModel entry, by simp only [build, hentry, hendless, hfault]⟩

omit hb in
theorem build_isOk_iff_wellFormed_identity :
    (∃ p, Builder.identity.build = .ok p) ∧ Builder.identity.WellFormed := by
  have hreached : Builder.identity.Reached := Reached.performAll .empty (by decide +kernel)
  have hok := exists_eq_ok (e := Builder.identity.build) (by decide +kernel)
  exact ⟨hok, (build_isOk_iff_wellFormed hreached).1 hok⟩

end Builder

end PointsTo
