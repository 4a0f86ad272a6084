import Mathlib.Data.List.Perm.Subperm
import Mathlib.Logic.Relation
import PointsTo.Proofs.Program.Subtypes

/-! Chains of superclasses. The search for a class whose chain never ends allows as many classes as there
are, which is enough: a longer chain meets a class twice. Where no class is above itself, dispatching
follows the whole chain, and what it finds is described without it. -/

namespace PointsTo

namespace Model

/-- The second class is the superclass of the first. -/
def Inherits (m : Model) (c d : ClassId) : Prop := (m.cls c).superclass = some d

/-- The method is the first with a body that the class or one above it declares under the subsignature.
Abstract declarations on the way do not count. -/
inductive Dispatches (m : Model) (s : Subsignature) : ClassId → MethodId → Prop where
  | here {c : ClassId} {x : MethodId} (hx : (m.cls c).declaredMethod? s = some x)
      (hbody : (m.method x).isAbstract = false) : m.Dispatches s c x
  | above {c d : ClassId} {x : MethodId}
      (habstract : ∀ y, (m.cls c).declaredMethod? s = some y → (m.method y).isAbstract = true)
      (hd : m.Inherits c d) (hx : m.Dispatches s d x) : m.Dispatches s c x

variable {m : Model}

/-! ### Chains that end -/

theorem endsWithin_eq_false_of_cycle {c : ClassId} (h : Relation.TransGen m.Inherits c c) (fuel : Nat) :
    m.endsWithin fuel c = false := by
  induction fuel generalizing c with
  | zero => rfl
  | succ fuel ih =>
    obtain ⟨d, hd, hback⟩ := Relation.TransGen.head'_iff.1 h
    rw [endsWithin, hd]
    exact ih (.tail' hback hd)

theorem reflTransGen_of_mem_ancestorsWithin {fuel : Nat} {c d : ClassId}
    (h : d ∈ m.ancestorsWithin fuel c) : Relation.ReflTransGen m.Inherits c d := by
  induction fuel generalizing c with
  | zero => exact absurd h List.not_mem_nil
  | succ fuel ih =>
    rw [ancestorsWithin] at h
    rcases List.mem_cons.1 h with rfl | h
    · exact .refl
    · cases hsuper : (m.cls c).superclass with
      | none =>
        rw [hsuper] at h
        exact absurd h List.not_mem_nil
      | some e =>
        rw [hsuper] at h
        exact .head hsuper (ih h)

theorem pairwise_ancestorsWithin (fuel : Nat) (c : ClassId) :
    (m.ancestorsWithin fuel c).Pairwise (Relation.TransGen m.Inherits) := by
  induction fuel generalizing c with
  | zero => exact .nil
  | succ fuel ih =>
    rw [ancestorsWithin]
    cases hsuper : (m.cls c).superclass with
    | none => exact List.pairwise_singleton _ c
    | some d =>
      refine List.pairwise_cons.2 ⟨fun e he => ?_, ih d⟩
      exact .head' hsuper (reflTransGen_of_mem_ancestorsWithin he)

/-- A chain that goes on after that many classes has one more. -/
theorem length_ancestorsWithin_succ {fuel : Nat} {c : ClassId} (h : m.endsWithin fuel c = false) :
    (m.ancestorsWithin (fuel + 1) c).length = fuel + 1 := by
  induction fuel generalizing c with
  | zero =>
    rw [ancestorsWithin]
    cases (m.cls c).superclass <;> rfl
  | succ fuel ih =>
    rw [endsWithin] at h
    cases hsuper : (m.cls c).superclass with
    | none => simp [hsuper] at h
    | some d =>
      rw [hsuper] at h
      rw [ancestorsWithin, hsuper, List.length_cons, ih h]

/-- There are no more different classes than the model has. -/
theorem length_le_of_nodup {l : List ClassId} (hnodup : l.Nodup) (hl : ∀ c ∈ l, m.IsClass c) :
    l.length ≤ m.classes.size := by
  have hsubset : l ⊆ m.classIds := fun c hc => Id.mem_upTo.2 (hl c hc)
  have hlength := (hnodup.subperm hsubset).length_le
  rwa [classIds, Id.length_upTo] at hlength

section Scoped

variable (hm : m.Scoped)

include hm

theorem isClass_of_reflTransGen {c d : ClassId} (hc : m.IsClass c)
    (h : Relation.ReflTransGen m.Inherits c d) : m.IsClass d := by
  induction h with
  | refl => exact hc
  | tail _ hstep ih => exact (hm.cls ih).superclass _ hstep

/-- A chain that goes on after as many classes as there are has met one of them twice. -/
theorem exists_cycle_of_endless {c : ClassId} (hc : m.IsClass c)
    (hendless : m.endsWithin m.classes.size c = false) :
    ∃ d, Relation.ReflTransGen m.Inherits c d ∧ Relation.TransGen m.Inherits d d := by
  apply Classical.byContradiction
  intro hcycle
  -- the classes of the chain are different ones of the model, and there is one too many
  have hnodup : (m.ancestorsWithin (m.classes.size + 1) c).Nodup := by
    refine (pairwise_ancestorsWithin _ c).imp_of_mem ?_
    rintro d _ hd - hback rfl
    exact hcycle ⟨d, reflTransGen_of_mem_ancestorsWithin hd, hback⟩
  have hlength := length_le_of_nodup hnodup fun d hd =>
    isClass_of_reflTransGen hm hc (reflTransGen_of_mem_ancestorsWithin hd)
  rw [length_ancestorsWithin_succ hendless] at hlength
  exact Nat.not_succ_le_self _ hlength

theorem endsWithin_of_acyclic (hacyclic : ∀ c, ¬ Relation.TransGen m.Inherits c c) {c : ClassId}
    (hc : m.IsClass c) : m.endsWithin m.classes.size c = true := by
  rw [← Bool.not_eq_false]
  intro hendless
  obtain ⟨d, -, hcycle⟩ := exists_cycle_of_endless hm hc hendless
  exact hacyclic d hcycle

/-- The search finds no class exactly when no class is above itself. -/
theorem endlessClass?_eq_none_iff :
    m.endlessClass? = none ↔ ∀ c, ¬ Relation.TransGen m.Inherits c c := by
  rw [endlessClass?, List.find?_eq_none]
  constructor
  · intro h c hcycle
    obtain ⟨d, hd, -⟩ := Relation.TransGen.head'_iff.1 hcycle
    apply h c (Id.mem_upTo.2 (Below.isClass (Or.inl hd)))
    rw [endsWithin_eq_false_of_cycle hcycle]
    rfl
  · intro h c hc
    rw [endsWithin_of_acyclic hm h (Id.mem_upTo.1 hc)]
    exact Bool.false_ne_true

end Scoped

/-! ### Dispatching -/

theorem concreteMethod?_eq_some_iff {s : Subsignature} {c : ClassId} {x : MethodId} :
    m.concreteMethod? s c = some x ↔
      (m.cls c).declaredMethod? s = some x ∧ (m.method x).isAbstract = false := by
  rw [concreteMethod?, Option.filter_eq_some_iff, Bool.not_eq_true']

theorem concreteMethod?_eq_none_iff {s : Subsignature} {c : ClassId} :
    m.concreteMethod? s c = none ↔
      ∀ y, (m.cls c).declaredMethod? s = some y → (m.method y).isAbstract = true := by
  rw [concreteMethod?, Option.filter_eq_none_iff]
  simp

/-- A class is asked before the one above it. -/
theorem dispatches_iff {s : Subsignature} {c : ClassId} {x : MethodId} : m.Dispatches s c x ↔
    m.concreteMethod? s c = some x ∨
      m.concreteMethod? s c = none ∧ ∃ d, m.Inherits c d ∧ m.Dispatches s d x := by
  rw [concreteMethod?_eq_some_iff, concreteMethod?_eq_none_iff]
  constructor
  · rintro (⟨hx, hbody⟩ | ⟨habstract, hd, hx⟩)
    · exact Or.inl ⟨hx, hbody⟩
    · exact Or.inr ⟨habstract, _, hd, hx⟩
  · rintro (⟨hx, hbody⟩ | ⟨habstract, d, hd, hx⟩)
    · exact .here hx hbody
    · exact .above habstract hd hx

theorem findSome?_ancestorsWithin_iff {s : Subsignature} {fuel : Nat} {c : ClassId}
    (h : m.endsWithin fuel c = true) {x : MethodId} :
    (m.ancestorsWithin fuel c).findSome? (m.concreteMethod? s) = some x ↔ m.Dispatches s c x := by
  induction fuel generalizing c with
  | zero => cases h
  | succ fuel ih =>
    rw [endsWithin] at h
    rw [ancestorsWithin, List.findSome?_cons, dispatches_iff]
    cases m.concreteMethod? s c with
    | some y => simp
    | none =>
      cases hsuper : (m.cls c).superclass with
      | none => simp [Inherits, hsuper]
      | some d =>
        rw [hsuper] at h
        simp [Inherits, hsuper, ih h]

theorem dispatch?_eq_some_iff (hm : m.endlessClass? = none) {c : ClassId} (hc : m.IsClass c)
    {s : Subsignature} {x : MethodId} : m.dispatch? c s = some x ↔ m.Dispatches s c x := by
  have hends := List.find?_eq_none.1 hm c (Id.mem_upTo.2 hc)
  rw [Bool.not_eq_true', Bool.not_eq_false] at hends
  exact findSome?_ancestorsWithin_iff hends

end Model

end PointsTo
