import PointsTo.Proofs.Program.Commands

/-! Accepted programs. They are scoped, and no statement of theirs is at fault; in particular the
variables of a statement belong to the method that holds it. -/

namespace PointsTo

/-- The variables that a statement mentions. -/
def Model.varsOf (m : Model) : Stmt → List VarId
  | .new site => [(m.site site).lhs]
  | .copy lhs rhs => [lhs, rhs]
  | .loadField lhs base _ => [lhs, base]
  | .storeField base _ rhs => [base, rhs]
  | .loadStatic lhs _ => [lhs]
  | .storeStatic _ rhs => [rhs]
  | .loadArray lhs base => [lhs, base]
  | .storeArray base rhs => [base, rhs]
  | .invoke call => (m.call call).receiver.toList ++ (m.call call).args ++ (m.call call).result.toList
  | .ret var => var.toList

/-- The field that a statement accesses, and whether it is accessed as a static one. -/
def Model.accessOf? : Stmt → Option (FieldId × Bool)
  | .loadField _ _ field | .storeField _ field _ => some (field, false)
  | .loadStatic _ field | .storeStatic field _ => some (field, true)
  | _ => none

/-- A model's statements that are in the body of a method are in that of a method it declares. -/
theorem Model.isMethod_of_mem_body {m : Model} {x : MethodId} {s : Stmt}
    (h : s ∈ (m.method x).body) : m.IsMethod x := by
  apply Classical.byContradiction
  intro hx
  rw [method_eq_default hx] at h
  exact absurd h (Array.not_mem_empty s)

/-! ### What it means to be without fault -/

namespace Program

variable {p : Program} {x : MethodId}

theorem varsFault?_eq_none_iff {vs : List VarId} :
    p.varsFault? x vs = none ↔ ∀ v ∈ vs, (p.var v).method = x := by
  simp [varsFault?, varFault?]

theorem fieldFault?_eq_none_iff {f : FieldId} {isStatic : Bool} :
    p.fieldFault? f isStatic = none ↔ (p.field f).isStatic = isStatic := by
  simp [fieldFault?]

theorem receiverFault?_eq_none_iff {i : CallId} : p.receiverFault? i = none ↔
    ((p.call i).kind = .static → (p.call i).receiver = none) ∧
      ((p.call i).kind = .special ∨ (p.call i).kind = .virtual ∨ (p.call i).kind = .interface →
        (p.call i).receiver.isSome = true) := by
  rw [receiverFault?]
  cases (p.call i).kind <;> cases (p.call i).receiver <;> simp

theorem arityFault?_eq_none_iff {i : CallId} :
    p.arityFault? i x = none ↔ (p.method x).params.size = (p.call i).args.length := by
  simp [arityFault?]

theorem stmtFault?_eq_none_iff {s : Stmt} :
    p.stmtFault? x s = none ↔ (∀ v ∈ p.varsOf s, (p.var v).method = x) ∧
      (∀ a ∈ Model.accessOf? s, (p.field a.1).isStatic = a.2) ∧
      ∀ i, s = .invoke i → p.receiverFault? i = none ∧ p.targetFault? i = none := by
  cases s <;> simp [stmtFault?, Model.varsOf, Model.accessOf?, varsFault?_eq_none_iff,
    fieldFault?_eq_none_iff]

theorem entryFault?_eq_none_iff : p.entryFault? = none ↔
    (p.method p.entry).isStatic = true ∧ (p.method p.entry).isAbstract = false := by
  simp [entryFault?]

theorem fault?_eq_none_iff :
    p.fault? = none ↔ p.entryFault? = none ∧ ∀ x, ∀ s ∈ (p.method x).body, p.stmtFault? x s = none := by
  simp only [fault?, Option.orElse_eq_orElse, Option.orElse_eq_or, Option.or_eq_none_iff,
    List.findSome?_eq_none_iff, methodFault?, Array.mem_toList_iff]
  refine and_congr_right fun _ => ⟨fun h x s hs => ?_, fun h x _ => h x⟩
  exact h x (Id.mem_upTo.2 (Model.isMethod_of_mem_body hs)) s hs

end Program

theorem Builder.build_eq_ok {b : Builder} {p : Program} (h : b.build = .ok p) :
    ∃ entry, b.entry = some entry ∧ b.endlessClass? = none ∧
      p = Program.ofModel b.toModel entry ∧ p.fault? = none := by
  rw [build] at h
  cases hentry : b.entry with
  | none =>
    rw [hentry] at h
    cases h
  | some entry =>
    cases hendless : b.endlessClass? with
    | some c =>
      simp only [hentry, hendless] at h
      cases h
    | none =>
      cases hfault : (Program.ofModel b.toModel entry).fault? with
      | some e =>
        simp only [hentry, hendless, hfault] at h
        cases h
      | none =>
        simp only [hentry, hendless, hfault, Except.ok.injEq] at h
        exact ⟨entry, rfl, rfl, h.symm, h ▸ hfault⟩

namespace Program.Accepted

variable {p : Program} (hp : p.Accepted)

include hp

/-- Nothing is kept with a program but what its model gives. -/
theorem eq_ofModel : p = .ofModel p.toModel p.entry := by
  obtain ⟨b, -, hbuild⟩ := hp
  obtain ⟨entry, -, -, rfl, -⟩ := Builder.build_eq_ok hbuild
  rfl

/-- An accepted program has what every model has that can be assembled. -/
theorem of_reached {P : Model → Prop} (h : ∀ b : Builder, b.Reached → P b.toModel) : P p.toModel := by
  obtain ⟨b, hb, hbuild⟩ := hp
  obtain ⟨entry, -, -, rfl, -⟩ := Builder.build_eq_ok hbuild
  exact h b hb

theorem scope : p.toModel.Scoped :=
  hp.of_reached fun _ => Builder.scoped_of_reached

theorem uses_eq : p.uses = p.toModel.useIndex := by
  obtain ⟨b, -, hbuild⟩ := hp
  obtain ⟨entry, -, -, rfl, -⟩ := Builder.build_eq_ok hbuild
  rfl

theorem fault_eq_none : p.fault? = none := by
  obtain ⟨b, -, hbuild⟩ := hp
  obtain ⟨entry, -, -, -, hfault⟩ := Builder.build_eq_ok hbuild
  exact hfault

theorem stmtFault_eq_none {x : MethodId} {s : Stmt} (hs : s ∈ (p.method x).body) :
    p.stmtFault? x s = none :=
  (fault?_eq_none_iff.1 hp.fault_eq_none).2 x s hs

theorem method_of_mem_varsOf {x : MethodId} {s : Stmt} (hs : s ∈ (p.method x).body) {v : VarId}
    (hv : v ∈ p.varsOf s) : (p.var v).method = x :=
  (stmtFault?_eq_none_iff.1 (hp.stmtFault_eq_none hs)).1 v hv

theorem isVar_of_mem_varsOf {x : MethodId} {s : Stmt} (hs : s ∈ (p.method x).body) {v : VarId}
    (hv : v ∈ p.varsOf s) : p.IsVar v := by
  have hknows := (hp.scope.method (Model.isMethod_of_mem_body hs)).body s hs
  cases s with
  | new site =>
    rw [List.mem_singleton.1 hv]
    exact (hp.scope.site hknows).lhs
  | invoke call =>
    have hcall := hp.scope.call hknows
    simp only [Model.varsOf, List.mem_append, Option.mem_toList] at hv
    rcases hv with (hv | hv) | hv
    · exact hcall.receiver v hv
    · exact hcall.args v hv
    · exact hcall.result v hv
  | ret var => exact hknows v (Option.mem_toList.1 hv)
  | _ =>
    simp only [Model.varsOf, List.mem_cons, List.not_mem_nil, or_false] at hv
    simp only [Model.KnowsStmt] at hknows
    grind

theorem isField_of_mem_accessOf? {x : MethodId} {s : Stmt} (hs : s ∈ (p.method x).body)
    {a : FieldId × Bool} (ha : a ∈ Model.accessOf? s) : p.IsField a.1 := by
  have hknows := (hp.scope.method (Model.isMethod_of_mem_body hs)).body s hs
  cases s with
  | loadField lhs base f =>
    obtain rfl := Option.some.inj ha
    exact hknows.2.2
  | storeField base f rhs =>
    obtain rfl := Option.some.inj ha
    exact hknows.2.1
  | loadStatic lhs f =>
    obtain rfl := Option.some.inj ha
    exact hknows.2
  | storeStatic f rhs =>
    obtain rfl := Option.some.inj ha
    exact hknows.1
  | _ => cases ha

end Program.Accepted

/-! ### A small program -/

theorem exists_eq_ok {ε α : Type} {e : Except ε α} (h : e.isOk = true) : ∃ x, e = .ok x := by
  cases e with
  | error _ => cases h
  | ok x => exact ⟨x, rfl⟩

theorem exists_ok_of_any {ε α : Type} {e : Except ε α} {f : α → Bool}
    (h : e.toOption.any f = true) : ∃ x, e = .ok x ∧ f x = true := by
  cases e with
  | error _ => cases h
  | ok x => exact ⟨x, rfl, h⟩

/-- `x = new A; y = x.id(x)`, where the method returns its parameter. -/
def Builder.identity : Builder :=
  Builder.empty.performAll
    [.addClass "A" .plain none,
      .addMethod ⟨0⟩ ⟨"main()"⟩ true false [],
      .addMethod ⟨0⟩ ⟨"id(A)"⟩ false false ["p"],
      .var ⟨0⟩ "x",
      .var ⟨0⟩ "y",
      .pushNew ⟨0⟩ ⟨2⟩ ⟨0⟩,
      .pushCall ⟨0⟩ .virtual ⟨0⟩ ⟨"id(A)"⟩ (some ⟨2⟩) [⟨2⟩] (some ⟨3⟩),
      .pushReturn ⟨1⟩ (some ⟨1⟩),
      .setEntry ⟨0⟩]

def Program.identity : Program :=
  match Builder.identity.build with
  | .ok p => p
  | .error _ => default

theorem Program.accepted_identity : Program.identity.Accepted := by
  refine ⟨Builder.identity, Builder.Reached.performAll .empty (by decide +kernel), ?_⟩
  obtain ⟨p, hp⟩ := exists_eq_ok (e := Builder.identity.build) (by decide +kernel)
  rw [Program.identity, hp]

end PointsTo
