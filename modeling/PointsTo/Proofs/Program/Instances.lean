import PointsTo.Proofs.Program.Signatures

/-! Instance methods. The instance methods are those with a receiver variable, so a static method has none,
and neither has what a static call or the start of a run enters. A receiver variable that its own method
leaves alone is assigned nowhere. -/

namespace PointsTo

namespace Model

/-- Only instance methods have a receiver variable. -/
def StaticsLackThis (m : Model) : Prop :=
  ∀ x, m.IsMethod x → (m.method x).isStatic = true → (m.method x).this = none

/-- The instance methods are those with a receiver variable. -/
def InstancesHaveThis (m : Model) : Prop :=
  ∀ x, m.IsMethod x → (m.method x).this.isSome = !(m.method x).isStatic

theorem InstancesHaveThis.of_methods_eq {m n : Model} (hm : m.InstancesHaveThis)
    (h : n.methods = m.methods) : n.InstancesHaveThis := by
  cases m
  cases n
  subst h
  exact hm

theorem InstancesHaveThis.of_sameDeclarations {m n : Model} (hm : m.InstancesHaveThis)
    (h : m.SameDeclarations n) : n.InstancesHaveThis := by
  intro x hx
  rw [IsMethod, h.size_methods] at hx
  rw [h.this, h.isStatic]
  exact hm x hx

/-- The variable that a statement assigns to. -/
def target? (m : Model) : Stmt → Option VarId
  | .new site => some (m.site site).lhs
  | .copy lhs _ | .loadField lhs _ _ | .loadStatic lhs _ | .loadArray lhs _ => some lhs
  | .invoke call => (m.call call).result
  | .storeField _ _ _ | .storeStatic _ _ | .storeArray _ _ | .ret _ => none

theorem mem_varsOf_of_target? {m : Model} {s : Stmt} {v : VarId} (h : m.target? s = some v) :
    v ∈ m.varsOf s := by
  cases s <;> simp_all [target?, varsOf]

end Model

namespace Builder

variable {b : Builder}

/-- A method gets its receiver variable, if any, when it is declared. -/
theorem instancesHaveThis_enterMethod (hb : b.InstancesHaveThis) (c : ClassId) (d : Description.Method) :
    (b.enterMethod c d).InstancesHaveThis := by
  obtain ⟨hedits, hsigns, -⟩ := signs_enterMethod b c d
  intro x hx
  by_cases hold : b.IsMethod x
  · rw [((enrolls_enterMethod b c d).methods x hold).2]
    exact hb x hold
  · have hsize : (b.enterMethod c d).methods.size = b.methods.size + 1 :=
      hedits.size_methods.trans (by simp [declare, modifyClass])
    rw [Model.IsMethod, hsize] at hx
    obtain rfl : x = ⟨b.methods.size⟩ := Id.ext (Nat.eq_of_lt_succ_of_not_lt hx hold)
    rw [isSome_of_optionRel hsigns.this, hsigns.isStatic, Description.Method.this?]
    cases d.isStatic with
    | true => rfl
    | false => rfl

theorem instancesHaveThis_perform (hb : b.InstancesHaveThis) (c : Command) :
    (c.perform b).InstancesHaveThis := by
  cases c with
  | addClass name kind superclass =>
    rw [Command.perform, Builder.addClass]
    split
    · exact hb
    · exact hb.of_methods_eq rfl
  | addField c name isStatic =>
    rw [Command.perform, Builder.addField]
    split
    · exact hb
    · exact hb.of_methods_eq rfl
  | setSuperclass | addInterface | setAbstract => exact hb.of_methods_eq rfl
  | setEntry => exact hb
  | addMethod c s isStatic isAbstract params =>
    rw [Command.perform]
    cases hadd : b.addMethod c s isStatic isAbstract params with
    | error => exact hb
    | ok added =>
      obtain ⟨-, -, hu⟩ := addMethod_eq_ok_iff (d := ⟨s.text, isStatic, isAbstract, params, []⟩).1 hadd
      rw [after, hu]
      exact instancesHaveThis_enterMethod hb c _
  | var | push | pushNew | pushCall | pushReturn => exact hb.of_sameDeclarations (grows_perform rfl).declares

theorem instancesHaveThis_of_reached (hb : b.Reached) : b.InstancesHaveThis := by
  induction hb with
  | empty => exact fun x hx => absurd hx (Nat.not_lt_zero x.index)
  | step c _ _ ih => exact instancesHaveThis_perform ih c

end Builder

namespace Program

/-- A receiver variable that is no parameter of its method and that no statement of the method assigns
to. -/
structure KeepsThis (p : Program) (x : MethodId) (v : VarId) : Prop where
  this : (p.method x).this = some v
  params : v ∉ (p.method x).params
  targets : ∀ s ∈ (p.method x).body, p.target? s ≠ some v

namespace Accepted

variable {p : Program} (hp : p.Accepted)

include hp

theorem instancesHaveThis : p.InstancesHaveThis :=
  hp.of_reached fun _ => Builder.instancesHaveThis_of_reached

theorem staticsLackThis : p.StaticsLackThis := by
  intro x hx hstatic
  have hthis := hp.instancesHaveThis x hx
  rw [hstatic] at hthis
  exact Option.isNone_iff_eq_none.1 (Option.isSome_eq_false_iff.1 hthis)

theorem entry_isStatic : (p.method p.entry).isStatic = true :=
  (entryFault?_eq_none_iff.1 (fault?_eq_none_iff.1 hp.fault_eq_none).1).1

theorem entry_this : (p.method p.entry).this = none :=
  hp.staticsLackThis _ hp.isMethod_entry hp.entry_isStatic

/-- What a static call enters has no receiver variable. -/
theorem this_of_callee? {c : Call} (hc : c.isStatic = true) {x : MethodId}
    (hx : p.callee? none c = some x) : (p.method x).this = none := by
  have hkind : c.kind = .static := by simpa [Call.isStatic] using hc
  have hmethod := Model.isMethod_of_callee? hp.scope hx
  rw [Model.callee?, hkind] at hx
  exact hp.staticsLackThis x hmethod (Option.filter_eq_some_iff.1 hx).2

section KeepsThis

variable {x : MethodId} {v : VarId} (hv : p.KeepsThis x v)

include hv

theorem method_of_keepsThis : (p.var v).method = x := by
  apply hp.method_of_this _ hv.this
  apply Classical.byContradiction
  intro hx
  have hthis := hv.this
  rw [Model.method_eq_default hx] at hthis
  cases hthis

/-- Other methods cannot assign to the variable either. -/
theorem target?_ne {y : MethodId} {s : Stmt} (hs : s ∈ (p.method y).body) : p.target? s ≠ some v := by
  intro htarget
  have hy := hp.method_of_mem_varsOf hs (Model.mem_varsOf_of_target? htarget)
  obtain rfl : x = y := (hp.method_of_keepsThis hv).symm.trans hy
  exact hv.targets s hs htarget

theorem not_mem_params {y : MethodId} (hy : p.IsMethod y) : v ∉ (p.method y).params := by
  intro hmem
  obtain rfl : x = y := (hp.method_of_keepsThis hv).symm.trans (hp.method_of_mem_params hy hmem)
  exact hv.params hmem

theorem result_ne {i : CallId} (hi : p.IsCall i) : (p.call i).result ≠ some v :=
  hp.target?_ne hv (hp.owned.calls i hi)

end KeepsThis

end Accepted

end Program

end PointsTo
