import PointsTo.Proofs.Program.Realization

/-! Programs that follow descriptions. A description is read in passes, and each pass looks names up in a
model that is not finished yet. Whatever is described, the finished program finds the same under the same
names, and its classes, methods and statements are the described ones in the order of the description. -/

namespace PointsTo

/-- The methods of the description with the classes that they are declared in. -/
def Description.methods (d : Description) : List (ClassId × Description.Method) :=
  d.numberedClasses.flatMap fun e => e.2.methods.map (e.1, ·)

/-! ### Abstract classes -/

namespace Model

/-- The same classes are abstract. -/
def SameAbstract (m n : Model) : Prop :=
  ∀ i : Nat, n.classes[i]?.map Class.isAbstract = m.classes[i]?.map Class.isAbstract

theorem SameAbstract.refl (m : Model) : m.SameAbstract m := fun _ => rfl

theorem SameAbstract.trans {m n k : Model} (h : m.SameAbstract n) (h' : n.SameAbstract k) :
    m.SameAbstract k := fun i => (h' i).trans (h i)

end Model

namespace Builder

variable {b u : Builder} {c : ClassId}

theorem sameAbstract_modifyClass (b : Builder) (c : ClassId) {f : Class → Class}
    (hf : ∀ x, (f x).isAbstract = x.isAbstract) : b.SameAbstract (b.modifyClass c f).toModel := by
  intro i
  show (b.classes.modify c.index f)[i]?.map _ = _
  rw [Array.getElem?_modify]
  split
  · rw [Option.map_map, show Class.isAbstract ∘ f = Class.isAbstract from funext hf]
  · rfl

theorem sameAbstract_addMembers {d : Description.Class} (h : b.addMembers c d = .ok u) :
    b.SameAbstract u.toModel := by
  obtain ⟨v, hv, hu⟩ := exists_of_bind_eq_ok h
  have hinterfaces : b.SameAbstract v.toModel := by
    refine of_foldlM_eq_ok (fun v : Builder => b.SameAbstract v.toModel)
      (fun v hb name _ v' hv' => ?_) (.refl _) hv
    obtain ⟨i, -, rfl⟩ := exists_of_map_eq_ok hv'
    exact hb.trans (sameAbstract_modifyClass v c fun _ => rfl)
  refine of_foldlM_eq_ok (fun u : Builder => b.SameAbstract u.toModel)
    (fun u hb f _ u' hu' => ?_) hinterfaces hu
  obtain ⟨-, rfl⟩ := addField_eq_ok_iff.1 hu'
  exact hb.trans (sameAbstract_modifyClass u c fun _ => rfl)

/-- Links and fields leave a class as abstract as it is. -/
theorem sameAbstract_addHeader {d : Description.Class} (h : b.addHeader c d = .ok u) :
    (b.setAbstract c (d.isAbstract || d.kind == .interface)).SameAbstract u.toModel := by
  rw [addHeader] at h
  cases hd : d.superclass with
  | none =>
    rw [hd] at h
    exact sameAbstract_addMembers h
  | some name =>
    rw [hd] at h
    obtain ⟨w, hw, h⟩ := exists_of_bind_eq_ok h
    obtain ⟨s, -, rfl⟩ := exists_of_map_eq_ok hw
    have hsuper := sameAbstract_modifyClass (b.setAbstract c (d.isAbstract || d.kind == .interface)) c
      (f := fun x => { x with superclass := some s }) fun _ => rfl
    exact hsuper.trans (sameAbstract_addMembers h)

theorem isAbstract_addHeader (hc : b.IsClass c) {d : Description.Class} (h : b.addHeader c d = .ok u)
    (e : ClassId) : (u.cls e).isAbstract =
      if e = c then d.isAbstract || d.kind == .interface else (b.cls e).isAbstract := by
  rw [Model.cls_of_map (sameAbstract_addHeader h)]
  refine (congrArg Class.isAbstract (Model.cls_modify hc _ e)).trans ?_
  split <;> rfl

theorem isClass_addHeader {d : Description.Class} (h : b.addHeader c d = .ok u) (e : ClassId) :
    u.IsClass e ↔ b.IsClass e := by
  rw [Model.isClass_iff_of_map (sameAbstract_addHeader h), Model.IsClass, Model.IsClass]
  exact iff_of_eq (congrArg (e.index < ·) Array.size_modify)

end Builder

namespace Description

open Builder

variable {d : Description} {b b' : Builder}

theorem isAbstract_of_passes (h : d.declareClasses = .ok b)
    (h' : d.numberedClasses.foldlM (fun b (c, desc) => b.addHeader c desc) b = .ok b') (i : ClassId)
    (c : Class) (hc : (i, c) ∈ d.numberedClasses) :
    (b'.cls i).isAbstract = (c.isAbstract || c.kind == .interface) := by
  obtain ⟨-, rfl⟩ := declareClasses_eq_ok_iff.1 h
  have hkeeps : ∀ {b u : Builder} {c : ClassId} {desc : Class}, (∀ c, b.IsClass c → u.IsClass c) →
      (u.cls c).isAbstract = (b.cls c).isAbstract →
        (b.cls c).isAbstract = (desc.isAbstract || desc.kind == .interface) →
          (u.cls c).isAbstract = (desc.isAbstract || desc.kind == .interface) :=
    fun _ hkept h => hkept.trans h
  have hstep : ∀ u : Builder, (∀ c, (Builder.declaring d.classes).IsClass c → u.IsClass c) →
      ∀ e ∈ d.numberedClasses,
        (u.cls e.1).isAbstract = ((Builder.declaring d.classes).cls e.1).isAbstract →
        ∀ w : Builder, u.addHeader e.1 e.2 = .ok w → (∀ c, u.IsClass c → w.IsClass c) ∧
          (w.cls e.1).isAbstract = (e.2.isAbstract || e.2.kind == .interface) ∧
          ∀ c, c ≠ e.1 → (w.cls c).isAbstract = (u.cls c).isAbstract := by
    intro u hu e he _ w hw
    have hclass := hu e.1 (isClass_of_mem_numberedClasses (size_classes_declaring d) he)
    refine ⟨fun c => (isClass_addHeader hw c).2, ?_, fun c hne => ?_⟩
    · rw [isAbstract_addHeader hclass hw, if_pos rfl]
    · rw [isAbstract_addHeader hclass hw, if_neg hne]
  obtain ⟨-, hall, -⟩ := foldlM_settles (E := fun b u : Builder => ∀ c, b.IsClass c → u.IsClass c)
    (fun b c hc => hc) (fun h h' c hc => h' c (h c hc)) (fun b c => (b.cls c).isAbstract)
    (R := fun b c desc => (b.cls c).isAbstract = (desc.isAbstract || desc.kind == .interface))
    hkeeps hstep (nodup_numberedClasses d) h'
  exact hall _ hc

end Description

/-! ### Numbers of methods -/

theorem upTo_succ {entity : Entity} (n : Nat) : Id.upTo entity (n + 1) = Id.upTo entity n ++ [⟨n⟩] := by
  rw [Id.upTo, List.range_succ, List.map_append, Id.upTo]
  rfl

theorem forall₂_upTo {α : Type} {entity : Entity} {R : α → Id entity → Prop} {l : List α} {n : Nat}
    (hn : n = l.length) (h : ∀ i a, l[i]? = some a → R a ⟨i⟩) : List.Forall₂ R l (Id.upTo entity n) := by
  subst hn
  rw [forall₂_iff_getElem?]
  intro k
  rw [Id.upTo, List.getElem?_map]
  cases hk : l[k]? with
  | none =>
    rw [List.getElem?_eq_none (by simpa using hk)]
    exact .none
  | some a =>
    rw [List.getElem?_range (List.getElem?_eq_some_iff.1 hk).1]
    exact .some (h k a hk)

namespace Builder

/-- Classes only get more methods. -/
structure Widens (b u : Builder) : Prop where
  isClass_iff : ∀ c, u.IsClass c ↔ b.IsClass c
  methods : ∀ c, ∀ e ∈ (b.cls c).methods, e ∈ (u.cls c).methods

theorem Widens.refl (b : Builder) : b.Widens b := ⟨fun _ => Iff.rfl, fun _ _ he => he⟩

theorem Widens.trans {b u w : Builder} (h : b.Widens u) (h' : u.Widens w) : b.Widens w where
  isClass_iff c := (h'.isClass_iff c).trans (h.isClass_iff c)
  methods c e he := h'.methods c e (h.methods c e he)

section Enter

variable (b : Builder) {c : ClassId} (hc : b.IsClass c) (d : Description.Method)

theorem methodIds_enterMethod : (b.enterMethod c d).methodIds = b.methodIds ++ [⟨b.methods.size⟩] := by
  have hsize : (b.enterMethod c d).methods.size = b.methods.size + 1 :=
    (signs_enterMethod b c d).1.size_methods.trans (by simp [declare, modifyClass])
  rw [Model.methodIds, hsize, upTo_succ, Model.methodIds]

include hc

theorem widens_enterMethod : b.Widens (b.enterMethod c d) := by
  refine ⟨(enrolls_enterMethod b c d).isClass_iff, fun e entry hentry => ?_⟩
  rw [methods_enterMethod b c d hc]
  split
  · rename_i heq
    exact Array.mem_push_of_mem _ (heq ▸ hentry)
  · exact hentry

theorem mem_methods_enterMethod :
    (⟨d.signature⟩, ⟨b.methods.size⟩) ∈ ((b.enterMethod c d).cls c).methods := by
  rw [methods_enterMethod b c d hc, if_pos rfl]
  exact Array.mem_push_self

end Enter

end Builder

namespace Description

open Builder

variable {d : Description} {b : Builder}

/-- Methods are numbered in the order in which they are described. -/
theorem methodIds_of_pass {s : Declaring} (hsize : b.classes.size = d.classes.length)
    (hempty : b.methods = #[])
    (h : d.numberedClasses.foldlM (fun s (c, desc) => desc.methods.foldlM (addMethodOf c) s) ([], b) =
      .ok s) :
    List.Forall₂ (fun e x => (⟨e.2.signature⟩, x) ∈ (s.2.cls e.1).methods) d.methods s.2.methodIds := by
  have hpass : d.methods.foldlM (fun s e => addMethodOf e.1 s e.2) ([], b) = .ok s := by
    rw [methods, foldlM_flatMap]
    simp only [List.foldlM_map]
    exact h
  have hclass : ∀ e ∈ d.methods, b.IsClass e.1 := by
    intro e he
    obtain ⟨c, hc, he⟩ := List.mem_flatMap.1 he
    obtain ⟨m, -, rfl⟩ := List.mem_map.1 he
    exact isClass_of_mem_numberedClasses hsize hc
  have hkeeps : ∀ {s t : Declaring} {e : ClassId × Method} {x : MethodId}, s.2.Widens t.2 →
      (⟨e.2.signature⟩, x) ∈ (s.2.cls e.1).methods → (⟨e.2.signature⟩, x) ∈ (t.2.cls e.1).methods :=
    fun hwidens hmem => hwidens.methods _ _ hmem
  have hstep : ∀ t : Declaring, b.Widens t.2 → ∀ e ∈ d.methods, ∀ w : Declaring,
      addMethodOf e.1 t e.2 = .ok w → t.2.Widens w.2 ∧ ∃ x, w.2.methodIds = t.2.methodIds ++ [x] ∧
        (⟨e.2.signature⟩, x) ∈ (w.2.cls e.1).methods := by
    intro t ht e he w hw
    obtain ⟨-, rfl⟩ := Declaring.addMethodOf_eq_ok_iff.1 hw
    have hc := (ht.isClass_iff e.1).2 (hclass e he)
    exact ⟨widens_enterMethod t.2 hc e.2, _, methodIds_enterMethod t.2 e.2,
      mem_methods_enterMethod t.2 hc e.2⟩
  obtain ⟨-, ids, hids, hall⟩ := foldlM_pushes (E := fun s t : Declaring => s.2.Widens t.2)
    (fun s => .refl s.2) (fun h h' => h.trans h') (fun s => s.2.methodIds)
    (R := fun s e x => (⟨e.2.signature⟩, x) ∈ (s.2.cls e.1).methods) hkeeps hstep hpass
  have hnone : b.methodIds = [] := by
    rw [Model.methodIds, hempty]
    rfl
  rw [show s.2.methodIds = ids by simpa [hnone] using hids]
  exact hall

theorem numbered_of_toBuilder (h : d.toBuilder = .ok b) :
    (∀ i c, (i, c) ∈ d.numberedClasses → (b.cls i).isAbstract = (c.isAbstract || c.kind == .interface)) ∧
      List.Forall₂ (fun e x => (⟨e.2.signature⟩, x) ∈ (b.cls e.1).methods) d.methods b.methodIds := by
  obtain ⟨b₁, h₁, b₂, h₂, bodies, b₃, h₃, b₄, h₄, hentry⟩ := toBuilder_eq_ok_iff.1 h
  obtain ⟨c, s, x, -, -, rfl⟩ := setEntryNamed_eq_ok_iff.1 hentry
  obtain ⟨hdeclares, hempty, hnone⟩ := declares_of_passes h₁ h₂
  obtain ⟨hgathers, -⟩ := gathers_of_pass hdeclares.size hempty h₃
  obtain ⟨hkeeps, -⟩ := writesBody_of_passes h₁ h₂ h₃ h₄
  constructor
  · intro i c hc
    show (b₄.cls i).isAbstract = _
    have hheader : (b₃.cls i).header = (b₂.cls i).header := Model.cls_of_map hgathers.enrolls.classes i
    rw [hkeeps.declares.cls, ← isAbstract_of_passes h₁ h₂ i c hc]
    exact (congrArg PointsTo.Class.isAbstract hheader :)
  · show List.Forall₂ (fun e x => (_, x) ∈ (b₄.cls e.1).methods) d.methods b₄.methodIds
    have hids : b₄.methodIds = b₃.methodIds := by
      rw [Model.methodIds, hkeeps.declares.size_methods, Model.methodIds]
    rw [hids]
    refine (methodIds_of_pass hdeclares.size hnone h₃).imp fun e x hmem => ?_
    rw [hkeeps.declares.cls]
    exact hmem

end Description

/-! ### Programs -/

namespace Program

section Follows

variable (p : Program)

/-- The class is the described one. -/
structure FollowsClass (c : Description.Class) (i : ClassId) : Prop where
  name : p.className i = c.name
  named : p.classNamed? c.name = some i
  kind : (p.cls i).kind = c.kind
  isAbstract : (p.cls i).isAbstract = (c.isAbstract || c.kind == .interface)
  superclass : Option.Rel p.Named c.superclass (p.cls i).superclass
  interfaces : List.Forall₂ p.Named c.interfaces (p.cls i).interfaces.toList
  fields : List.Forall₂ (fun f e => e.1 = f.name ∧ (p.cls i).declaredField? f.name = some e.2 ∧
    p.field e.2 = ⟨f.name, i, f.isStatic⟩) c.fields (p.cls i).fields.toList

/-- The method is the described one, in the class that describes it. -/
structure FollowsMethod (e : ClassId × Description.Method) (x : MethodId) : Prop where
  declared : (p.cls e.1).declaredMethod? ⟨e.2.signature⟩ = some x
  owner : (p.method x).owner = e.1
  subsignature : (p.method x).subsignature = ⟨e.2.signature⟩
  signs : p.Signs x e.2
  this : (p.method x).this.isSome = !e.2.isStatic
  names : ∀ name, (∃ v, p.Local x name v) ↔ name ∈ e.2.names
  body : List.Forall₂ (p.Means x) e.2.body (p.method x).body.toList

/-- The program has the classes and methods that are described, numbered in their order, and starts where
that is said. References are looked up in the program itself. -/
structure Follows (d : Description) : Prop where
  classes : List.Forall₂ p.FollowsClass d.classes p.classIds
  methods : List.Forall₂ p.FollowsMethod d.methods p.methodIds
  entry : ∃ ref, MemberRef.ofText? d.entry = some ref ∧
    p.lookupMethod? ref.owner ⟨ref.member⟩ = some p.entry
  locals : ∀ x y name other v w, p.Local x name v → p.Local y other w → (v = w ↔ x = y ∧ name = other)
  fieldRefs : ∀ text f, p.RefersToField text f ↔ p.lookupField? text = some f

end Follows

variable {p : Program} {d : Description}

theorem refersToField_iff {text : String} {f : FieldId} :
    p.RefersToField text f ↔ p.lookupField? text = some f := by
  simp only [lookupField?, Option.bind_eq_bind, Option.bind_eq_some_iff]
  constructor
  · rintro ⟨c, _, ⟨ref, htext, hc, rfl⟩, hf⟩
    exact ⟨ref, htext, c, hc, hf⟩
  · rintro ⟨ref, htext, c, hc, hf⟩
    exact ⟨c, _, ⟨ref, htext, hc, rfl⟩, hf⟩

section Realized

variable (hm : p.toModel.Registered) (h : p.toModel.Realizes d)

include hm

/-- Two names of one variable are the same name in the same method. -/
theorem local_eq_iff {x y : MethodId} {name other : String} {v w : VarId} (hv : p.Local x name v)
    (hw : p.Local y other w) : v = w ↔ x = y ∧ name = other := by
  constructor
  · rintro rfl
    obtain ⟨-, rfl, rfl⟩ := hm.local?_eq_some_iff.1 hv
    obtain ⟨-, rfl, rfl⟩ := hm.local?_eq_some_iff.1 hw
    exact ⟨rfl, rfl⟩
  · rintro ⟨rfl, rfl⟩
    exact Option.some.inj (hv.symm.trans hw)

include h

theorem followsClass {i : ClassId} {c : Description.Class} (hc : d.classes[i.index]? = some c)
    (habstract : (p.cls i).isAbstract = (c.isAbstract || c.kind == .interface)) : p.FollowsClass c i := by
  have hclass : p.IsClass i := h.isClass_iff.2 ⟨c, hc⟩
  have hlinks := h.links i.index c hc
  constructor
  case name => exact h.name i.index c hc
  case named => exact hm.classNamed?_eq_some_iff.2 ⟨hclass, h.name i.index c hc⟩
  case kind => exact h.kind i.index c hc
  case isAbstract => exact habstract
  case superclass => exact hlinks.superclass
  case interfaces => exact hlinks.interfaces
  case fields =>
    refine forall₂_imp_mem hlinks.fields fun f _ e he hf => ?_
    obtain ⟨hname, hfield, hstatic⟩ := hf
    have hkey := Model.fieldKey?_eq_some_iff.1
      ((hm.fields.mem_iff _ _ _).1 (Array.mem_toList_iff.1 he))
    rw [hname] at hkey
    refine ⟨hname, hm.declaredField?_eq_some_iff.2 hkey, ?_⟩
    obtain ⟨-, hname', howner⟩ := hkey
    rw [← hname', ← howner, ← hstatic]

theorem followsMethod {e : ClassId × Description.Method} (he : e ∈ d.methods) {x : MethodId}
    (hx : (⟨e.2.signature⟩, x) ∈ (p.cls e.1).methods) : p.FollowsMethod e x := by
  obtain ⟨⟨i, c⟩, hc, he⟩ := List.mem_flatMap.1 he
  obtain ⟨m, hmem, rfl⟩ := List.mem_map.1 he
  have hkey := Model.methodKey?_eq_some_iff.1 ((hm.methods.mem_iff _ _ _).1 hx)
  have hdeclared := hm.declaredMethod?_eq_some_iff.2 hkey
  obtain ⟨⟨s, y⟩, hy, hmeets⟩ := exists_of_forall₂
    (h.methods i.index c (Description.mem_numberedClasses.1 hc)) hmem
  -- the class has one method of that subsignature
  obtain rfl : s = ⟨m.signature⟩ := hmeets.subsignature
  have hkey' := Model.methodKey?_eq_some_iff.1 ((hm.methods.mem_iff _ _ _).1 (Array.mem_toList_iff.1 hy))
  have hsame := hdeclared.symm.trans (hm.declaredMethod?_eq_some_iff.2 hkey')
  obtain rfl : x = y := Option.some.inj hsame
  refine ⟨hdeclared, hkey.2.2, hkey.2.1, hmeets.signs, ?_, fun name => hmeets.exists_local_iff, hmeets.body⟩
  rw [isSome_of_optionRel hmeets.signs.this, Description.Method.this?]
  cases m.isStatic with
  | true => rfl
  | false => rfl

end Realized

end Program

namespace Description

variable {d : Description} {p : Program}

/-- A description that is accepted is read as it is written. -/
theorem follows_of_toProgram (h : d.toProgram = .ok p) : p.Follows d := by
  obtain ⟨b, hb, hbuild⟩ := exists_of_bind_eq_ok h
  have hm := Builder.registered_of_reached (reached_toBuilder hb)
  obtain ⟨hrealizes, x, ⟨c, s, ⟨ref, htext, hc, rfl⟩, hx⟩, hentry⟩ := realizes_of_toBuilder hb
  obtain ⟨habstract, hmethods⟩ := numbered_of_toBuilder hb
  obtain ⟨entry, hentry', -, rfl, -⟩ := Builder.build_eq_ok hbuild
  obtain rfl : x = entry := Option.some.inj (hentry.symm.trans hentry')
  constructor
  case classes =>
    refine forall₂_upTo hrealizes.size fun i c hc => ?_
    exact Program.followsClass hm hrealizes hc (habstract ⟨i⟩ c (mem_numberedClasses.2 hc))
  case methods =>
    exact forall₂_imp_mem hmethods fun e he x _ hx => Program.followsMethod hm hrealizes he hx
  case entry =>
    exact ⟨ref, htext, Option.bind_eq_some_iff.2 ⟨c, hc, hx⟩⟩
  case locals => exact fun x y name other v w => Program.local_eq_iff hm
  case fieldRefs => exact fun text f => Program.refersToField_iff

/-- A class that is named ahead, and a field that is named by a class below the one that declares it. -/
def inherited : Description where
  entry := "B.main()"
  classes :=
    [{ name := "B", superclass := some "A", interfaces := ["I"]
       methods :=
        [{ signature := "main()", isStatic := true
           body :=
            [.new "x" "B", .invoke .virtual "A.id(A)" (some "x") ["x"] (some "y"),
              .loadField "z" "y" "B.f"] }] },
     { name := "A", isAbstract := true, fields := [{ name := "f" }]
       methods :=
        [{ signature := "id(A)", params := ["p"]
           body := [.storeField "this" "A.f" "p", .ret (some "p")] }] },
     { name := "I", kind := .interface }]

theorem follows_of_toProgram_inherited : ∃ p, inherited.toProgram = .ok p ∧ p.Follows inherited := by
  obtain ⟨p, hp⟩ := exists_eq_ok (e := inherited.toProgram) (by decide +kernel)
  exact ⟨p, hp, follows_of_toProgram hp⟩

end Description

end PointsTo
