import PointsTo.Proofs.Program.Headers
import PointsTo.Proofs.Program.Writing

/-! The pass that declares methods. A method is entered in its class under its subsignature, with the
variables of its parameters and no others, and with an empty body; the bodies are noted for later. -/

namespace PointsTo

namespace Model

/-- The method has the modifiers and parameters that are described. -/
structure Signs (m : Model) (x : MethodId) (d : Description.Method) : Prop where
  isStatic : (m.method x).isStatic = d.isStatic
  isAbstract : (m.method x).isAbstract = d.isAbstract
  this : Option.Rel (m.Local x) d.this? (m.method x).this
  params : List.Forall₂ (m.Local x) d.params (m.method x).params.toList

/-- The method has no variables but those of its parameters, and no statements. -/
structure Blank (m : Model) (x : MethodId) (d : Description.Method) : Prop where
  names : ∀ name v, m.Local x name v → name ∈ d.this?.toList ++ d.params
  body : (m.method x).body = #[]

end Model

/-- The class without its methods. -/
def Class.header (c : Class) : Class := { c with methods := #[] }

namespace Model

/-- Methods may have been added to the classes, and nothing else. -/
structure Enrolls (m n : Model) : Prop where
  classes : ∀ i : Nat, n.classes[i]?.map Class.header = m.classes[i]?.map Class.header
  fields : n.fields = m.fields
  methods : ∀ x, m.IsMethod x → n.IsMethod x ∧ n.method x = m.method x

variable {x : MethodId} {m n k : Model}

namespace Enrolls

theorem refl (m : Model) : m.Enrolls m := ⟨fun _ => rfl, rfl, fun _ hx => ⟨hx, rfl⟩⟩

theorem trans (h : m.Enrolls n) (h' : n.Enrolls k) : m.Enrolls k where
  classes i := (h'.classes i).trans (h.classes i)
  fields := h'.fields.trans h.fields
  methods x hx := by
    obtain ⟨hx', heq⟩ := h.methods x hx
    obtain ⟨hx'', heq'⟩ := h'.methods x hx'
    exact ⟨hx'', heq'.trans heq⟩

/-- A method that was not there may be edited. -/
theorem editsMethod (h : m.Enrolls n) (hx : ¬ m.IsMethod x) (h' : n.EditsMethod x k) : m.Enrolls k where
  classes i := by rw [h'.classes, h.classes]
  fields := h'.fields.trans h.fields
  methods y hy := by
    obtain ⟨hy', heq⟩ := h.methods y hy
    have hne : y ≠ x := fun heq => hx (heq ▸ hy)
    refine ⟨?_, (h'.method y hne).trans heq⟩
    rw [IsMethod, h'.size_methods]
    exact hy'

variable (h : m.Enrolls n)

include h

theorem isClass_iff (c : ClassId) : n.IsClass c ↔ m.IsClass c := isClass_iff_of_map h.classes c

end Enrolls

/-- Methods have no say in what classes and fields a model declares. -/
theorem Declares.congr {d : Description} (hd : m.Declares d)
    (hclasses : ∀ i : Nat, n.classes[i]?.map Class.header = m.classes[i]?.map Class.header)
    (hfields : n.fields = m.fields) : n.Declares d := by
  have hcls : ∀ c, (n.cls c).header = (m.cls c).header := cls_of_map hclasses
  have hnamed : ∀ name c, m.Named name c → n.Named name c := by
    intro name c hc
    rw [Named, classNamed?_of_names (m := m) (fun i => ?_)]
    · exact hc
    · have hname := congrArg (Option.map Class.name) (hclasses i)
      rwa [Option.map_map, Option.map_map] at hname
  refine ⟨(size_of_map hclasses).trans hd.size, fun i c hc => ?_, fun i c hc => ?_, fun i c hc => ?_⟩
  · exact (congrArg Class.name (hcls ⟨i⟩) :).trans (hd.name i c hc)
  · exact (congrArg Class.kind (hcls ⟨i⟩) :).trans (hd.kind i c hc)
  · have hlinks := hd.links i c hc
    have hfield : ∀ f, n.field f = m.field f := fun f => by rw [field, hfields, field]
    constructor
    · rw [show (n.cls ⟨i⟩).superclass = (m.cls ⟨i⟩).superclass from
        (congrArg Class.superclass (hcls ⟨i⟩) :)]
      exact optionRel_imp hlinks.superclass hnamed
    · rw [show (n.cls ⟨i⟩).interfaces = (m.cls ⟨i⟩).interfaces from
        (congrArg Class.interfaces (hcls ⟨i⟩) :)]
      exact hlinks.interfaces.imp hnamed
    · rw [show (n.cls ⟨i⟩).fields = (m.cls ⟨i⟩).fields from (congrArg Class.fields (hcls ⟨i⟩) :)]
      simp only [IsField, hfields, hfield]
      exact hlinks.fields

end Model

namespace Builder

variable {b u : Builder} {x : MethodId}

/-! ### Parameters -/

section Params

variable (hx : b.IsMethod x)

include hx

theorem editsMethod_addThis : b.EditsMethod x (b.addThis x).toModel :=
  (introduces_var hx "this").edits.trans (.modifyMethod x _ _)

theorem editsMethod_addParam (name : String) : b.EditsMethod x (b.addParam x name).toModel :=
  (introduces_var hx name).edits.trans (.modifyMethod x _ _)

theorem editsMethod_addParams (params : List String) :
    b.EditsMethod x (params.foldl (fun b name => b.addParam x name) b).toModel := by
  induction params generalizing b with
  | nil => exact .refl x _
  | cons name params ih =>
    have hfirst := editsMethod_addParam hx name
    refine hfirst.trans (ih ?_)
    rw [Model.IsMethod, hfirst.size_methods]
    exact hx

theorem method_addParam (name : String) : (b.addParam x name).method x =
    { (b.var x name).2.method x with
      params := ((b.var x name).2.method x).params.push (b.var x name).1 } :=
  (Model.method_modify ((introduces_var hx name).keeps.fits.isMethod hx) _ x).trans (if_pos rfl)

theorem signs_addParam {d : Description.Method} (h : b.Signs x d) (hblank : b.Blank x d) (name : String) :
    (b.addParam x name).Signs x { d with params := d.params ++ [name] } ∧
      (b.addParam x name).Blank x { d with params := d.params ++ [name] } := by
  have hvar := introduces_var hx name
  have hmethod := method_addParam hx name
  have hlocal : ∀ n v, (b.addParam x name).Local x n v ↔ (b.var x name).2.Local x n v := by
    intro n v
    rw [Model.Local, hmethod]
    exact Iff.rfl
  have hkept : ∀ n v, b.Local x n v → (b.addParam x name).Local x n v := fun n v hv =>
    (hlocal n v).2 (hvar.keeps.locals x n v hv)
  constructor
  case left =>
    constructor
    · rw [hmethod, ← h.isStatic]
      exact hvar.keeps.declares.isStatic x
    · rw [hmethod, ← h.isAbstract]
      exact hvar.keeps.declares.isAbstract x
    · rw [hmethod, show ((b.var x name).2.method x).this = (b.method x).this from
        hvar.keeps.declares.this x]
      exact optionRel_imp h.this hkept
    · rw [hmethod, Array.toList_push, show ((b.var x name).2.method x).params = (b.method x).params from
        hvar.keeps.declares.params x]
      exact List.rel_append (h.params.imp hkept) (.cons ((hlocal _ _).2 (local_var hx name)) .nil)
  case right =>
    constructor
    · intro n v hv
      rw [← List.append_assoc, List.mem_append]
      rcases hvar.names n v ((hlocal n v).1 hv) with ⟨w, hw⟩ | hname
      · exact Or.inl (hblank.names n w hw)
      · exact Or.inr hname
    · rw [hmethod, ← hblank.body]
      exact hvar.body

theorem signs_addParams {d : Description.Method} (h : b.Signs x d) (hblank : b.Blank x d)
    (params : List String) :
    (params.foldl (fun b name => b.addParam x name) b).Signs x { d with params := d.params ++ params } ∧
      (params.foldl (fun b name => b.addParam x name) b).Blank x
        { d with params := d.params ++ params } := by
  induction params generalizing b d with
  | nil =>
    rw [List.append_nil]
    exact ⟨h, hblank⟩
  | cons name params ih =>
    obtain ⟨hnext, hnext'⟩ := signs_addParam hx h hblank name
    have hsize := (editsMethod_addParam hx name).size_methods
    have hrest := ih (by rw [Model.IsMethod, hsize]; exact hx) hnext hnext'
    rwa [List.append_assoc, List.singleton_append] at hrest

end Params

/-! ### Methods -/

/-- The builder with a method more, entered in its class. -/
def enterMethod (b : Builder) (c : ClassId) (d : Description.Method) : Builder :=
  let x : MethodId := ⟨b.methods.size⟩
  let u := b.declare c ⟨d.signature⟩ d.isStatic d.isAbstract
  d.params.foldl (fun b name => b.addParam x name) (if d.isStatic then u else u.addThis x)

variable {c : ClassId} {d : Description.Method}

/-- A method is refused if there is one of that subsignature. -/
theorem addMethod_eq_ok_iff : b.addMethod c ⟨d.signature⟩ d.isStatic d.isAbstract d.params = .ok (x, u) ↔
    (∀ y, (⟨d.signature⟩, y) ∉ (b.cls c).methods) ∧ x = ⟨b.methods.size⟩ ∧ u = b.enterMethod c d := by
  have hsome : ((b.cls c).declaredMethod? ⟨d.signature⟩).isSome = true ↔
      ∃ y, (⟨d.signature⟩, y) ∈ (b.cls c).methods := isSome_find?_key
  rw [addMethod]
  split
  · rename_i hdeclared
    constructor
    · intro h
      cases h
    · intro h
      obtain ⟨y, hy⟩ := hsome.1 hdeclared
      exact absurd hy (h.1 y)
  · rename_i hnew
    constructor
    · intro h
      obtain ⟨hx, hu⟩ := Prod.mk.inj (Except.ok.inj h)
      exact ⟨fun y hy => hnew (hsome.2 ⟨y, hy⟩), hx.symm, hu.symm⟩
    · rintro ⟨-, rfl, rfl⟩
      rfl

theorem method_declare (b : Builder) (c : ClassId) (s : Subsignature) (isStatic isAbstract : Bool) :
    (b.declare c s isStatic isAbstract).method ⟨b.methods.size⟩ =
      ⟨s, c, isStatic, isAbstract, none, #[], #[], #[], #[]⟩ := by
  simp [declare, Model.method]

theorem not_local_declare {s : Subsignature} {isStatic isAbstract : Bool} {name : String} {v : VarId} :
    ¬ (b.declare c s isStatic isAbstract).Local ⟨b.methods.size⟩ name v := by
  rw [Model.Local, method_declare]
  intro h
  cases h

theorem isMethod_declare (b : Builder) (c : ClassId) (s : Subsignature) (isStatic isAbstract : Bool) :
    (b.declare c s isStatic isAbstract).IsMethod ⟨b.methods.size⟩ := by
  show b.methods.size < (b.methods.push _).size
  simp

theorem signs_addThis {s : Subsignature} {isAbstract : Bool} (hd : d.isStatic = false)
    (hparams : d.params = []) (habstract : d.isAbstract = isAbstract) :
    ((b.declare c s false isAbstract).addThis ⟨b.methods.size⟩).Signs ⟨b.methods.size⟩ d ∧
      ((b.declare c s false isAbstract).addThis ⟨b.methods.size⟩).Blank ⟨b.methods.size⟩ d := by
  have hx := isMethod_declare b c s false isAbstract
  have hvar := introduces_var hx "this"
  have hdeclared := method_declare b c s false isAbstract
  have hnone := @not_local_declare b c s false isAbstract
  generalize b.declare c s false isAbstract = w at *
  generalize (⟨b.methods.size⟩ : MethodId) = x at *
  have hmethod : (w.addThis x).method x =
      { (w.var x "this").2.method x with this := some (w.var x "this").1 } :=
    (Model.method_modify (hvar.keeps.fits.isMethod hx) _ x).trans (if_pos rfl)
  have hlocal : ∀ n v, (w.addThis x).Local x n v ↔ (w.var x "this").2.Local x n v := by
    intro n v
    rw [Model.Local, hmethod]
    exact Iff.rfl
  have hthis : d.this? = some "this" := by rw [Description.Method.this?, hd]; rfl
  constructor
  case left =>
    constructor
    · rw [hmethod, hd, show ((w.var x "this").2.method x).isStatic = _ from hvar.keeps.declares.isStatic x,
        hdeclared]
    · rw [hmethod, habstract, show ((w.var x "this").2.method x).isAbstract = _ from
        hvar.keeps.declares.isAbstract x, hdeclared]
    · rw [hmethod, hthis]
      exact .some ((hlocal _ _).2 (local_var hx "this"))
    · rw [hmethod, hparams, show ((w.var x "this").2.method x).params = _ from
        hvar.keeps.declares.params x, hdeclared]
      exact .nil
  case right =>
    constructor
    · intro n v hv
      rw [hthis, hparams]
      rcases hvar.names n v ((hlocal n v).1 hv) with ⟨w, hw⟩ | hname
      · exact absurd hw hnone
      · exact hname
    · rw [hmethod]
      exact hvar.body.trans (by rw [hdeclared])

/-- A static method has no receiver variable. -/
theorem signs_declare {s : Subsignature} {isAbstract : Bool} (hd : d.isStatic = true)
    (hparams : d.params = []) (habstract : d.isAbstract = isAbstract) :
    (b.declare c s true isAbstract).Signs ⟨b.methods.size⟩ d ∧
      (b.declare c s true isAbstract).Blank ⟨b.methods.size⟩ d := by
  have hdeclared := method_declare b c s true isAbstract
  have hthis : d.this? = none := by rw [Description.Method.this?, hd]; rfl
  constructor
  case left =>
    refine ⟨by rw [hdeclared, hd], by rw [hdeclared, habstract], ?_, ?_⟩
    · rw [hdeclared, hthis]
      exact .none
    · rw [hdeclared, hparams]
      exact .nil
  case right => exact ⟨fun n v hv => absurd hv not_local_declare, by rw [hdeclared]⟩

section Enter

variable (b : Builder) (c : ClassId) (d : Description.Method)

theorem signs_enterMethod :
    (b.declare c ⟨d.signature⟩ d.isStatic d.isAbstract).EditsMethod ⟨b.methods.size⟩
        (b.enterMethod c d).toModel ∧
      (b.enterMethod c d).Signs ⟨b.methods.size⟩ d ∧ (b.enterMethod c d).Blank ⟨b.methods.size⟩ d := by
  have hx := isMethod_declare b c ⟨d.signature⟩ d.isStatic d.isAbstract
  rw [enterMethod]
  cases hd : d.isStatic with
  | true =>
    rw [hd] at hx
    obtain ⟨hsigns, hblank⟩ := signs_declare (b := b) (c := c) (d := { d with params := [] })
      (s := ⟨d.signature⟩) hd rfl rfl
    exact ⟨editsMethod_addParams hx d.params, signs_addParams hx hsigns hblank d.params⟩
  | false =>
    rw [hd] at hx
    obtain ⟨hsigns, hblank⟩ := signs_addThis (b := b) (c := c) (d := { d with params := [] })
      (s := ⟨d.signature⟩) hd rfl rfl
    have hthis := editsMethod_addThis hx
    have hx' : ((b.declare c ⟨d.signature⟩ false d.isAbstract).addThis ⟨b.methods.size⟩).IsMethod
        ⟨b.methods.size⟩ := by
      rw [Model.IsMethod, hthis.size_methods]
      exact hx
    exact ⟨hthis.trans (editsMethod_addParams hx' d.params), signs_addParams hx' hsigns hblank d.params⟩

theorem enrolls_declare (s : Subsignature) (isStatic isAbstract : Bool) :
    b.Enrolls (b.declare c s isStatic isAbstract).toModel where
  classes i := by
    show (b.classes.modify _ _)[i]?.map Class.header = _
    rw [Array.getElem?_modify]
    split
    · rw [Option.map_map]
      rfl
    · rfl
  fields := rfl
  methods x hx := by
    refine ⟨?_, b.toModel.method_push _ hx⟩
    show x.index < (b.methods.push _).size
    rw [Array.size_push]
    exact Nat.lt_succ_of_lt hx

theorem enrolls_enterMethod : b.Enrolls (b.enterMethod c d).toModel :=
  (enrolls_declare b c _ _ _).editsMethod (x := ⟨b.methods.size⟩) (Nat.lt_irrefl _)
    (signs_enterMethod b c d).1

theorem isMethod_enterMethod : (b.enterMethod c d).IsMethod ⟨b.methods.size⟩ := by
  rw [Model.IsMethod, (signs_enterMethod b c d).1.size_methods]
  exact isMethod_declare b c _ _ _

theorem methods_enterMethod (hc : b.IsClass c) (e : ClassId) : ((b.enterMethod c d).cls e).methods =
    if e = c then (b.cls c).methods.push (⟨d.signature⟩, ⟨b.methods.size⟩) else (b.cls e).methods := by
  have hclasses := (signs_enterMethod b c d).1.classes
  have hcls : (b.enterMethod c d).cls e = (b.declare c ⟨d.signature⟩ d.isStatic d.isAbstract).cls e := by
    rw [Model.cls, hclasses, Model.cls]
  rw [hcls]
  refine (congrArg Class.methods (Model.cls_modify hc _ e)).trans ?_
  split <;> rfl

end Enter

/-! ### The pass -/

/-- The methods declared so far with the bodies noted for them, and the builder that declares them. -/
abbrev Declaring := List (MethodId × List Description.Stmt) × Builder

namespace Declaring

/-- No method has two bodies noted, and none has one written. -/
structure Orderly (s : Declaring) : Prop where
  nodup : (s.1.map Prod.fst).Nodup
  unwritten : ∀ e ∈ s.1, s.2.IsMethod e.1 ∧ (s.2.method e.1).body = #[]

/-- What has been declared and noted stays so. -/
structure Gathers (s t : Declaring) : Prop where
  enrolls : s.2.Enrolls t.2.toModel
  bodies : ∀ e ∈ s.1, e ∈ t.1
  orderly : s.Orderly → t.Orderly

/-- The method is declared as described, and its body is noted. -/
structure Enters (s : Declaring) (d : Description.Method) (e : Subsignature × MethodId) : Prop where
  isMethod : s.2.IsMethod e.2
  subsignature : e.1 = ⟨d.signature⟩
  signs : s.2.Signs e.2 d
  blank : s.2.Blank e.2 d
  body : (e.2, d.body) ∈ s.1

variable {s t w : Declaring} {c : ClassId} {d : Description.Method}

theorem Gathers.refl (s : Declaring) : s.Gathers s := ⟨.refl _, fun _ h => h, fun h => h⟩

theorem Gathers.trans (h : s.Gathers t) (h' : t.Gathers w) : s.Gathers w where
  enrolls := h.enrolls.trans h'.enrolls
  bodies e he := h'.bodies e (h.bodies e he)
  orderly hs := h'.orderly (h.orderly hs)

theorem Gathers.enters (h : s.Gathers t) {e : Subsignature × MethodId} (he : s.Enters d e) :
    t.Enters d e := by
  obtain ⟨hmethod, heq⟩ := h.enrolls.methods _ he.isMethod
  have hlocal : ∀ name v, t.2.Local e.2 name v ↔ s.2.Local e.2 name v := fun name v => by
    rw [Model.Local, heq, Model.Local]
  have hkept : ∀ name v, s.2.Local e.2 name v → t.2.Local e.2 name v := fun name v => (hlocal name v).2
  refine ⟨hmethod, he.subsignature, ⟨?_, ?_, ?_, ?_⟩, ⟨?_, ?_⟩, h.bodies _ he.body⟩
  · rw [heq, he.signs.isStatic]
  · rw [heq, he.signs.isAbstract]
  · rw [heq]
    exact optionRel_imp he.signs.this hkept
  · rw [heq]
    exact he.signs.params.imp hkept
  · exact fun name v hv => he.blank.names name v ((hlocal name v).1 hv)
  · rw [heq, he.blank.body]

theorem addMethodOf_eq_ok_iff : addMethodOf c s d = .ok t ↔
    (∀ y, (⟨d.signature⟩, y) ∉ (s.2.cls c).methods) ∧
      t = ((⟨s.2.methods.size⟩, d.body) :: s.1, s.2.enterMethod c d) := by
  obtain ⟨bodies, b⟩ := s
  constructor
  · intro h
    obtain ⟨⟨x, u⟩, hadd, h⟩ := exists_of_bind_eq_ok h
    obtain ⟨hnew, rfl, rfl⟩ := addMethod_eq_ok_iff.1 hadd
    exact ⟨hnew, (Except.ok.inj h).symm⟩
  · rintro ⟨hnew, rfl⟩
    rw [addMethodOf, addMethod_eq_ok_iff.2 ⟨hnew, rfl, rfl⟩]
    rfl

theorem gathers_addMethodOf (s : Declaring) (c : ClassId) (d : Description.Method) :
    s.Gathers ((⟨s.2.methods.size⟩, d.body) :: s.1, s.2.enterMethod c d) where
  enrolls := enrolls_enterMethod s.2 c d
  bodies e he := List.mem_cons_of_mem _ he
  orderly hs := by
    have henrolls := enrolls_enterMethod s.2 c d
    constructor
    case nodup =>
      rw [List.map_cons, List.nodup_cons]
      refine ⟨fun hmem => ?_, hs.nodup⟩
      obtain ⟨e, he, heq⟩ := List.mem_map.1 hmem
      have hlt := (hs.unwritten e he).1
      rw [heq] at hlt
      exact Nat.lt_irrefl _ hlt
    case unwritten =>
      intro e he
      rcases List.mem_cons.1 he with rfl | he
      · exact ⟨isMethod_enterMethod s.2 c d, (signs_enterMethod s.2 c d).2.2.body⟩
      · obtain ⟨hmethod, hbody⟩ := hs.unwritten e he
        obtain ⟨hmethod', heq⟩ := henrolls.methods _ hmethod
        exact ⟨hmethod', by rw [heq, hbody]⟩

theorem addMethodsOf_eq_ok {methods : List Description.Method} (hc : s.2.IsClass c)
    (h : methods.foldlM (addMethodOf c) s = .ok t) :
    (s.Gathers t ∧ ∀ e, e ≠ c → (t.2.cls e).methods = (s.2.cls e).methods) ∧
    ∃ es, (t.2.cls c).methods.toList = (s.2.cls c).methods.toList ++ es ∧
      List.Forall₂ t.Enters methods es := by
  refine foldlM_pushes (E := fun s t : Declaring => s.Gathers t ∧
    ∀ e, e ≠ c → (t.2.cls e).methods = (s.2.cls e).methods) (fun s => ⟨.refl s, fun _ _ => rfl⟩) ?_
    (fun s => (s.2.cls c).methods.toList) (R := Enters) (fun h he => h.1.enters he) ?_ h
  · intro s t w h h'
    exact ⟨h.1.trans h'.1, fun e he => (h'.2 e he).trans (h.2 e he)⟩
  · intro w hw d _ v hv
    obtain ⟨-, rfl⟩ := addMethodOf_eq_ok_iff.1 hv
    have hmethods := methods_enterMethod w.2 c d ((hw.1.enrolls.isClass_iff c).2 hc)
    obtain ⟨-, hsigns, hblank⟩ := signs_enterMethod w.2 c d
    refine ⟨⟨gathers_addMethodOf w c d, fun e he => ?_⟩, (⟨d.signature⟩, ⟨w.2.methods.size⟩), ?_,
      isMethod_enterMethod w.2 c d, rfl, hsigns, hblank, List.mem_cons_self⟩
    · rw [hmethods, if_neg he]
    · rw [hmethods, if_pos rfl]
      exact Array.toList_push

theorem exists_addMethodsOf_eq_ok {methods : List Description.Method} (hc : s.2.IsClass c)
    (hnodup : (methods.map (·.signature)).Nodup)
    (hnew : ∀ d ∈ methods, ∀ x, (⟨d.signature⟩, x) ∉ (s.2.cls c).methods) :
    ∃ t, methods.foldlM (addMethodOf c) s = .ok t := by
  refine exists_foldlM_eq_ok (fun l (t : Declaring) => t.2.IsClass c ∧ (l.map (·.signature)).Nodup ∧
    ∀ d ∈ l, ∀ x, (⟨d.signature⟩, x) ∉ (t.2.cls c).methods) ?_ ⟨hc, hnodup, hnew⟩
  intro d l t hl
  obtain ⟨htc, hnodup, hnew⟩ := hl
  obtain ⟨hd, hnodup⟩ := List.nodup_cons.1 hnodup
  have hmethods := methods_enterMethod t.2 c d htc c
  refine ⟨_, addMethodOf_eq_ok_iff.2 ⟨hnew d List.mem_cons_self, rfl⟩,
    ((gathers_addMethodOf t c d).enrolls.isClass_iff c).2 htc, hnodup, fun d' hd' x hmem => ?_⟩
  rw [hmethods, if_pos rfl] at hmem
  rcases Array.mem_push.1 hmem with hold | heq
  · exact hnew d' (List.mem_cons_of_mem _ hd') x hold
  · have hsignature : d'.signature = d.signature := congrArg (fun e => e.1.text) heq
    have hlater : d'.signature ∈ l.map (·.signature) := List.mem_map_of_mem hd'
    exact hd (by rwa [hsignature] at hlater)

end Declaring

end Builder

namespace Description

open Builder

variable {d : Description} {b : Builder} (hsize : b.classes.size = d.classes.length)
  (hempty : ∀ c, (b.cls c).methods = #[])

include hsize hempty

theorem gathers_of_pass {s : Declaring}
    (h : d.numberedClasses.foldlM (fun s (c, desc) => desc.methods.foldlM (addMethodOf c) s) ([], b) =
      .ok s) :
    Declaring.Gathers ([], b) s ∧ ∀ i c, d.classes[i]? = some c →
      List.Forall₂ s.Enters c.methods (s.2.cls ⟨i⟩).methods.toList := by
  have hstep : ∀ t : Declaring, Declaring.Gathers ([], b) t → ∀ e ∈ d.numberedClasses,
      (t.2.cls e.1).methods = (b.cls e.1).methods → ∀ w : Declaring,
        e.2.methods.foldlM (addMethodOf e.1) t = .ok w →
        t.Gathers w ∧ List.Forall₂ w.Enters e.2.methods (w.2.cls e.1).methods.toList ∧
          ∀ c, c ≠ e.1 → (w.2.cls c).methods = (t.2.cls c).methods := by
    intro t ht e he hblank w hw
    obtain ⟨⟨hgathers, hothers⟩, es, hes, hall⟩ := Declaring.addMethodsOf_eq_ok
      ((ht.enrolls.isClass_iff e.1).2 (isClass_of_mem_numberedClasses hsize he)) hw
    rw [hblank, hempty] at hes
    refine ⟨hgathers, ?_, hothers⟩
    rw [hes]
    exact hall
  have hkeeps : ∀ {s t : Declaring} {c : ClassId} {desc : Class}, s.Gathers t →
      (t.2.cls c).methods = (s.2.cls c).methods →
        List.Forall₂ s.Enters desc.methods (s.2.cls c).methods.toList →
          List.Forall₂ t.Enters desc.methods (t.2.cls c).methods.toList := by
    intro s t c desc hgathers hmethods hall
    rw [hmethods]
    exact hall.imp fun _ _ => hgathers.enters
  obtain ⟨hgathers, hall, -⟩ := foldlM_settles (E := Declaring.Gathers) .refl (fun h h' => h.trans h')
    (fun s c => (s.2.cls c).methods)
    (R := fun s c desc => List.Forall₂ s.Enters desc.methods (s.2.cls c).methods.toList) hkeeps hstep
    (nodup_numberedClasses d) h
  exact ⟨hgathers, fun i c hc => hall (⟨i⟩, c) (mem_numberedClasses.2 hc)⟩

theorem exists_method_pass (hsignatures : ∀ c ∈ d.classes, (c.methods.map (·.signature)).Nodup) :
    ∃ s, d.numberedClasses.foldlM (fun s (c, desc) => desc.methods.foldlM (addMethodOf c) s) ([], b) =
      .ok s := by
  refine exists_foldlM_eq_ok (fun l (t : Declaring) => Declaring.Gathers ([], b) t ∧
    (l.map Prod.fst).Nodup ∧ ∀ e ∈ l, e ∈ d.numberedClasses ∧ (t.2.cls e.1).methods = #[]) ?_
    ⟨.refl _, nodup_numberedClasses d, fun e he => ⟨he, hempty e.1⟩⟩
  intro e l t hl
  obtain ⟨ht, hnodup, hrest⟩ := hl
  obtain ⟨hfirst, hnodup⟩ := List.nodup_cons.1 hnodup
  obtain ⟨he, hnone⟩ := hrest e List.mem_cons_self
  have hclass := (ht.enrolls.isClass_iff e.1).2 (isClass_of_mem_numberedClasses hsize he)
  obtain ⟨w, hw⟩ := Declaring.exists_addMethodsOf_eq_ok hclass
    (hsignatures _ (List.mem_of_getElem? (mem_numberedClasses.1 he))) fun d _ x hmem => by
      rw [hnone] at hmem
      exact Array.not_mem_empty _ hmem
  obtain ⟨⟨hgathers, hothers⟩, -⟩ := Declaring.addMethodsOf_eq_ok hclass hw
  refine ⟨w, hw, ht.trans hgathers, hnodup, fun e' he' => ?_⟩
  obtain ⟨hmem, hnone'⟩ := hrest e' (List.mem_cons_of_mem _ he')
  have hne : e'.1 ≠ e.1 := fun heq => hfirst (heq ▸ List.mem_map_of_mem he')
  exact ⟨hmem, (hothers _ hne).trans hnone'⟩

end Description

end PointsTo
