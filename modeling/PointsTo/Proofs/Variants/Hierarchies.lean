import PointsTo.HierarchyCalls
import PointsTo.Proofs.Program.Callees
import PointsTo.Proofs.Program.Meanings
import PointsTo.Proofs.Program.Subtypes
import PointsTo.Proofs.Variants.Relabeling

/-! Relabeled hierarchies. If two models have the same classes with the same members in different numbers,
then names, chains of superclasses and types below a class correspond, and a call enters in the one what
corresponds to what it enters in the other. -/

namespace PointsTo

namespace Relabeling

/-- The classes of the models correspond, with their links and fields. -/
structure KeepsClasses (ρ : Relabeling) (m n : Model) : Prop where
  bijective : Function.Bijective ρ.cls
  size : n.classes.size = m.classes.size
  isClass : ∀ c, n.IsClass (ρ.cls c) ↔ m.IsClass c
  named : ∀ name c, m.Named name c → n.Named name (ρ.cls c)
  kind : ∀ c, (n.cls (ρ.cls c)).kind = (m.cls c).kind
  superclass : ∀ c, (n.cls (ρ.cls c)).superclass = (m.cls c).superclass.map ρ.cls
  interfaces : ∀ c, (n.cls (ρ.cls c)).interfaces.toList = (m.cls c).interfaces.toList.map ρ.cls
  declaredField? : ∀ c name,
    (n.cls (ρ.cls c)).declaredField? name = ((m.cls c).declaredField? name).map ρ.field

/-- The methods that they declare correspond as well. -/
structure KeepsMethods (ρ : Relabeling) (m n : Model) : Prop extends ρ.KeepsClasses m n where
  declaredMethod? : ∀ c s,
    (n.cls (ρ.cls c)).declaredMethod? s = ((m.cls c).declaredMethod? s).map ρ.method
  isStatic : ∀ x, m.IsMethod x → (n.method (ρ.method x)).isStatic = (m.method x).isStatic
  isAbstract : ∀ x, m.IsMethod x → (n.method (ρ.method x)).isAbstract = (m.method x).isAbstract

variable {ρ : Relabeling} {m n : Model}

namespace KeepsClasses

variable (h : ρ.KeepsClasses m n)

include h

/-! ### Chains of superclasses -/

theorem ancestors (c : ClassId) : n.ancestors (ρ.cls c) = (m.ancestors c).map ρ.cls := by
  have hwithin : ∀ fuel c, n.ancestorsWithin fuel (ρ.cls c) = (m.ancestorsWithin fuel c).map ρ.cls := by
    intro fuel
    induction fuel with
    | zero => exact fun _ => rfl
    | succ fuel ih =>
      intro c
      rw [Model.ancestorsWithin, Model.ancestorsWithin, h.superclass, List.map_cons]
      cases (m.cls c).superclass with
      | none => rfl
      | some d => exact congrArg (ρ.cls c :: ·) (ih d)
  rw [Model.ancestors, Model.ancestors, h.size, hwithin]

theorem endsWithin (fuel : Nat) (c : ClassId) :
    n.endsWithin fuel (ρ.cls c) = m.endsWithin fuel c := by
  induction fuel generalizing c with
  | zero => rfl
  | succ fuel ih =>
    rw [Model.endsWithin, Model.endsWithin, h.superclass]
    cases (m.cls c).superclass with
    | none => rfl
    | some d => exact ih d

/-- Relabeling does not close a chain to a cycle. -/
theorem endlessClass?_eq_none (hm : m.endlessClass? = none) : n.endlessClass? = none := by
  rw [Model.endlessClass?, List.find?_eq_none] at hm ⊢
  intro d hd
  obtain ⟨c, rfl⟩ := h.bijective.2 d
  rw [h.size, h.endsWithin]
  exact hm c (Id.mem_upTo.2 ((h.isClass c).1 (Id.mem_upTo.1 hd)))

theorem resolveField? (c : ClassId) (name : String) :
    n.resolveField? (ρ.cls c) name = (m.resolveField? c name).map ρ.field := by
  rw [Model.resolveField?, Model.resolveField?, h.ancestors, List.findSome?_map, List.map_findSome?]
  exact congrArg (List.findSome? · _) (funext fun d => h.declaredField? d name)

/-! ### References -/

theorem refersTo {text : String} {c : ClassId} {member : String} (href : m.RefersTo text c member) :
    n.RefersTo text (ρ.cls c) member := by
  obtain ⟨ref, htext, hc, rfl⟩ := href
  exact ⟨ref, htext, h.named _ _ hc, rfl⟩

theorem refersToField {text : String} {f : FieldId} (hf : m.RefersToField text f) :
    n.RefersToField text (ρ.field f) := by
  obtain ⟨c, name, href, hresolve⟩ := hf
  refine ⟨ρ.cls c, name, h.refersTo href, ?_⟩
  rw [h.resolveField?, hresolve]
  rfl

theorem resolves {s : Description.Stmt} (hs : m.Resolves s) : n.Resolves s :=
  hs.imp (fun _ _ hc => ⟨_, h.named _ _ hc⟩) (fun _ _ _ hc => ⟨_, h.refersTo hc⟩)
    fun _ _ hf => ⟨_, h.refersToField hf⟩

/-! ### Types below a class -/

theorem below_iff {t d : ClassId} : n.Below (ρ.cls t) (ρ.cls d) ↔ m.Below t d := by
  rw [Model.Below, Model.Below, h.superclass, ← Array.mem_toList_iff, h.interfaces,
    List.mem_map_of_injective h.bijective.1, Array.mem_toList_iff, Option.map_eq_some_iff]
  simp only [h.bijective.1.eq_iff, exists_eq_right]

theorem mem_subtypesOf_iff (hm : m.Scoped) (hn : n.Scoped) {x y : MethodId} {c : ClassId}
    (hc : m.IsClass c) {u : ClassId} : u ∈ (Program.ofModel n y).subtypesOf (ρ.cls c) ↔
      ∃ t ∈ (Program.ofModel m x).subtypesOf c, ρ.cls t = u := by
  simp only [Model.mem_subtypesOf_iff hm hc, Model.mem_subtypesOf_iff hn ((h.isClass c).2 hc)]
  constructor
  · intro hu
    induction hu with
    | refl => exact ⟨c, .refl, rfl⟩
    | @tail d u _ hstep ih =>
      obtain ⟨e, he, rfl⟩ := ih
      obtain ⟨t, rfl⟩ := h.bijective.2 u
      exact ⟨t, he.tail ⟨(h.isClass t).1 hstep.1, h.below_iff.1 hstep.2⟩, rfl⟩
  · rintro ⟨t, ht, rfl⟩
    exact ht.lift ρ.cls fun d t hstep => ⟨(h.isClass t).2 hstep.1, h.below_iff.2 hstep.2⟩

end KeepsClasses

namespace KeepsMethods

variable (h : ρ.KeepsMethods m n) (hm : m.Scoped)

include h hm

/-! ### Callees -/

theorem concreteMethod? (s : Subsignature) (c : ClassId) :
    n.concreteMethod? s (ρ.cls c) = (m.concreteMethod? s c).map ρ.method := by
  rw [Model.concreteMethod?, Model.concreteMethod?, h.declaredMethod?]
  cases hx : (m.cls c).declaredMethod? s with
  | none => rfl
  | some x =>
    have habstract := h.isAbstract x (Model.isMethod_of_declaredMethod? hm hx)
    rw [Option.map_some, Option.filter_some, Option.filter_some, habstract]
    split <;> rfl

theorem dispatch? (c : ClassId) (s : Subsignature) :
    n.dispatch? (ρ.cls c) s = (m.dispatch? c s).map ρ.method := by
  rw [Model.dispatch?, Model.dispatch?, h.ancestors, List.findSome?_map, List.map_findSome?]
  exact congrArg (List.findSome? · _) (funext (h.concreteMethod? hm s))

section Call

variable {c c' : Call} (hkind : c'.kind = c.kind) (hcls : c'.cls = ρ.cls c.cls)
  (hsubsignature : c'.subsignature = c.subsignature)

include hkind hcls hsubsignature

theorem callee? (receiver : Option ClassId) :
    n.callee? (receiver.map ρ.cls) c' = (m.callee? receiver c).map ρ.method := by
  have hvirtual : ((receiver.map ρ.cls).bind fun t => n.dispatch? t c.subsignature) =
      (receiver.bind fun t => m.dispatch? t c.subsignature).map ρ.method := by
    cases receiver with
    | none => rfl
    | some t => exact h.dispatch? hm t c.subsignature
  rw [Model.callee?, Model.callee?, hkind, hcls, hsubsignature]
  cases c.kind with
  | static =>
    show Option.filter _ _ = Option.map _ (Option.filter _ _)
    rw [h.declaredMethod?]
    cases hx : (m.cls c.cls).declaredMethod? c.subsignature with
    | none => rfl
    | some x =>
      have hstatic := h.isStatic x (Model.isMethod_of_declaredMethod? hm hx)
      rw [Option.map_some, Option.filter_some, Option.filter_some, hstatic]
      split <;> rfl
  | special => exact h.dispatch? hm c.cls c.subsignature
  | virtual | interface => exact hvirtual
  | dynamic => rfl

variable (hn : n.Scoped) {x y z : MethodId} (hclass : m.IsClass c.cls)

include hn hclass

omit hkind in
theorem exists_candidate (hz : z ∈ (Program.ofModel n y).virtualCandidates c') :
    ∃ w ∈ (Program.ofModel m x).virtualCandidates c, ρ.method w = z := by
  rw [Program.virtualCandidates, hcls, hsubsignature, List.mem_append, List.mem_filterMap,
    List.mem_filterMap] at hz
  simp only [Program.virtualCandidates, List.mem_append, List.mem_filterMap]
  rcases hz with ⟨u, hu, hz⟩ | ⟨u, hu, hz⟩
  · obtain ⟨t, ht, rfl⟩ := (h.mem_subtypesOf_iff hm hn (x := x) hclass).1 hu
    obtain ⟨w, hw, rfl⟩ := Option.map_eq_some_iff.1 ((h.dispatch? hm t c.subsignature).symm.trans hz)
    exact ⟨w, Or.inl ⟨t, ht, hw⟩, rfl⟩
  · obtain ⟨t, ht, rfl⟩ := (h.mem_subtypesOf_iff hm hn (x := x) hclass).1 hu
    obtain ⟨w, hw, rfl⟩ := Option.map_eq_some_iff.1 ((h.declaredMethod? t c.subsignature).symm.trans hz)
    exact ⟨w, Or.inr ⟨t, ht, hw⟩, rfl⟩

theorem mem_hierarchyCallees_iff : z ∈ (Program.ofModel n y).hierarchyCallees c' ↔
    ∃ w ∈ (Program.ofModel m x).hierarchyCallees c, ρ.method w = z := by
  have hsingle : z ∈ (n.callee? none c').toList ↔ ∃ w ∈ (m.callee? none c).toList, ρ.method w = z := by
    have hcallee := h.callee? hm hkind hcls hsubsignature none
    rw [Option.map_none] at hcallee
    rw [hcallee, Option.toList_map, List.mem_map]
  have hmany : z ∈ ((((Program.ofModel n y).subtypesOf c'.cls).filter fun t =>
        !(n.cls t).isInterface).filterMap fun t => n.dispatch? t c'.subsignature).eraseDups ↔
      ∃ w ∈ ((((Program.ofModel m x).subtypesOf c.cls).filter fun t =>
        !(m.cls t).isInterface).filterMap fun t => m.dispatch? t c.subsignature).eraseDups,
        ρ.method w = z := by
    simp only [List.mem_eraseDups, List.mem_filterMap, List.mem_filter, hcls, hsubsignature,
      h.mem_subtypesOf_iff hm hn (x := x) (y := y) hclass]
    constructor
    · rintro ⟨_, ⟨⟨t, ht, rfl⟩, hinterface⟩, hz⟩
      obtain ⟨w, hw, rfl⟩ := Option.map_eq_some_iff.1 ((h.dispatch? hm t c.subsignature).symm.trans hz)
      refine ⟨w, ⟨t, ⟨ht, ?_⟩, hw⟩, rfl⟩
      rwa [Class.isInterface, h.kind] at hinterface
    · rintro ⟨w, ⟨t, ⟨ht, hinterface⟩, hw⟩, rfl⟩
      refine ⟨_, ⟨⟨t, ht, rfl⟩, ?_⟩, ?_⟩
      · rwa [Class.isInterface, h.kind]
      · rw [h.dispatch? hm, hw]
        rfl
  rw [Program.hierarchyCallees, Program.hierarchyCallees, hkind]
  cases c.kind with
  | static | special => exact hsingle
  | virtual | interface => exact hmany
  | dynamic => simp

end Call

end KeepsMethods

end Relabeling

end PointsTo
