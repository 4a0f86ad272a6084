import PointsTo.Program.Validation

/-! Declarations. The classes and fields of a model and what its methods declare decide which method a call
enters, which types are below a class and whether the hierarchy is in order. The bodies of the methods have
no part in that. -/

namespace PointsTo

/-- The method without its body and what is collected from that. -/
def Method.declaration (x : Method) : Method := { x with returns := #[], body := #[], locals := #[] }

namespace Model

/-- The models differ in the bodies of their methods at most, and in what occurs there. -/
structure SameDeclarations (m n : Model) : Prop where
  classes : n.classes = m.classes
  fields : n.fields = m.fields
  size_methods : n.methods.size = m.methods.size
  methods : ∀ x, (n.method x).declaration = (m.method x).declaration

namespace SameDeclarations

theorem refl (m : Model) : m.SameDeclarations m := ⟨rfl, rfl, rfl, fun _ => rfl⟩

variable {m n k : Model} (h : m.SameDeclarations n)

include h

theorem trans (h' : n.SameDeclarations k) : m.SameDeclarations k where
  classes := h'.classes.trans h.classes
  fields := h'.fields.trans h.fields
  size_methods := h'.size_methods.trans h.size_methods
  methods x := (h'.methods x).trans (h.methods x)

theorem cls (c : ClassId) : n.cls c = m.cls c := by rw [Model.cls, h.classes, Model.cls]

theorem field (f : FieldId) : n.field f = m.field f := by rw [Model.field, h.fields, Model.field]

section Method

variable (x : MethodId)

theorem owner : (n.method x).owner = (m.method x).owner := (congrArg Method.owner (h.methods x) :)

theorem isStatic : (n.method x).isStatic = (m.method x).isStatic :=
  (congrArg Method.isStatic (h.methods x) :)

theorem isAbstract : (n.method x).isAbstract = (m.method x).isAbstract :=
  (congrArg Method.isAbstract (h.methods x) :)

theorem this : (n.method x).this = (m.method x).this := (congrArg Method.this (h.methods x) :)

theorem params : (n.method x).params = (m.method x).params := (congrArg Method.params (h.methods x) :)

end Method

theorem ancestors (c : ClassId) : n.ancestors c = m.ancestors c := by
  have hwithin : ∀ fuel c, n.ancestorsWithin fuel c = m.ancestorsWithin fuel c := by
    intro fuel
    induction fuel with
    | zero => exact fun _ => rfl
    | succ fuel ih =>
      intro c
      rw [ancestorsWithin, ancestorsWithin, h.cls]
      cases (m.cls c).superclass with
      | none => rfl
      | some d => exact congrArg (c :: ·) (ih d)
  rw [Model.ancestors, Model.ancestors, h.classes, hwithin]

theorem concreteMethod? (s : Subsignature) (c : ClassId) :
    n.concreteMethod? s c = m.concreteMethod? s c := by
  simp only [Model.concreteMethod?, h.cls, h.isAbstract]

theorem dispatch? (c : ClassId) (s : Subsignature) : n.dispatch? c s = m.dispatch? c s := by
  rw [Model.dispatch?, Model.dispatch?, h.ancestors, funext (h.concreteMethod? s)]

theorem classNamed? (name : String) : n.classNamed? name = m.classNamed? name := by
  rw [Model.classNamed?, h.classes, Model.classNamed?]

theorem resolveField? (c : ClassId) (name : String) : n.resolveField? c name = m.resolveField? c name := by
  simp only [Model.resolveField?, h.ancestors, h.cls]

theorem callee? (receiver : Option ClassId) (c : Call) : n.callee? receiver c = m.callee? receiver c := by
  simp only [Model.callee?, h.cls, h.isStatic, h.dispatch?]

/-! ### The hierarchy -/

theorem endlessClass? : n.endlessClass? = m.endlessClass? := by
  have hwithin : ∀ fuel c, n.endsWithin fuel c = m.endsWithin fuel c := by
    intro fuel
    induction fuel with
    | zero => exact fun _ => rfl
    | succ fuel ih =>
      intro c
      rw [endsWithin, endsWithin, h.cls]
      cases (m.cls c).superclass with
      | none => rfl
      | some d => exact ih d
  rw [Model.endlessClass?, Model.endlessClass?, classIds, classIds, h.classes]
  simp only [hwithin]

theorem subtypeLinks : n.subtypeLinks = m.subtypeLinks := by
  have hlink : n.linkClass = m.linkClass := by
    funext links c
    rw [linkClass, linkClass, h.cls]
  rw [Model.subtypeLinks, Model.subtypeLinks, hlink, classIds, classIds, h.classes]

variable (x y : MethodId)

theorem subtypesOf (c : ClassId) :
    (Program.ofModel n y).subtypesOf c = (Program.ofModel m x).subtypesOf c := by
  show closure (fun d => (n.subtypeLinks.getD d.index {}).all) n.classes.size c = _
  rw [h.subtypeLinks, h.classes]
  rfl

theorem virtualCandidates (c : Call) :
    (Program.ofModel n y).virtualCandidates c = (Program.ofModel m x).virtualCandidates c := by
  have hdispatch : ∀ t, (Program.ofModel n y).dispatch? t c.subsignature =
      (Program.ofModel m x).dispatch? t c.subsignature := fun t => h.dispatch? t c.subsignature
  have hcls : ∀ t, (Program.ofModel n y).cls t = (Program.ofModel m x).cls t := h.cls
  simp only [Program.virtualCandidates, h.subtypesOf x y, hdispatch, hcls]

end SameDeclarations

end Model

end PointsTo
