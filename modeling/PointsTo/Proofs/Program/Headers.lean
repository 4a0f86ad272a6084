import PointsTo.Proofs.Program.Meanings
import PointsTo.Proofs.Program.Registry

/-! The first passes over a description. All classes are declared by name, then each is given its
superclass, its interfaces and its fields. As every class has been declared before, a class may be named
ahead of its place. -/

namespace PointsTo

/-- A class as it is declared, without its links and members. -/
def Description.Class.blank (c : Description.Class) : PointsTo.Class :=
  { name := c.name, kind := c.kind, isAbstract := c.kind == .interface, superclass := none,
    interfaces := #[], methods := #[], fields := #[] }

/-! ### Declaring classes -/

namespace Builder

/-- The builder with those classes, and nothing else. -/
def declaring (classes : List Description.Class) : Builder :=
  { empty with classes := (classes.map Description.Class.blank).toArray }

theorem isSome_classNamed?_declaring {classes : List Description.Class} {name : String} :
    ((declaring classes).classNamed? name).isSome = true ↔ name ∈ classes.map (·.name) := by
  rw [Model.classNamed?, Option.isSome_map, Array.findIdx?_isSome, Array.any_eq_true]
  show (∃ i, ∃ h : i < (classes.map Description.Class.blank).toArray.size, _) ↔ _
  rw [List.mem_map]
  constructor
  · intro h
    obtain ⟨i, hi, hname⟩ := h
    rw [List.size_toArray, List.length_map] at hi
    refine ⟨classes[i], List.getElem_mem hi, ?_⟩
    simpa [declaring, Description.Class.blank] using hname
  · rintro ⟨c, hc, rfl⟩
    obtain ⟨i, hi, rfl⟩ := List.mem_iff_getElem.1 hc
    exact ⟨i, by simpa using hi, by simp [declaring, Description.Class.blank]⟩

theorem addClass_declaring (classes : List Description.Class) (c : Description.Class) :
    ((declaring classes).addClass c.name c.kind none).map (·.2) =
      if c.name ∈ classes.map (·.name) then .error (.duplicateClass c.name)
      else .ok (declaring (classes ++ [c])) := by
  have hsome := @isSome_classNamed?_declaring classes c.name
  rw [addClass]
  by_cases hc : c.name ∈ classes.map (·.name)
  · rw [if_pos (hsome.2 hc), if_pos hc]
    rfl
  · rw [if_neg (fun h => hc (hsome.1 h)), if_neg hc]
    simp [Except.map, declaring, Description.Class.blank]

theorem foldlM_addClass_eq_ok_iff {declared classes : List Description.Class}
    (hdeclared : (declared.map (·.name)).Nodup) {b : Builder} :
    classes.foldlM (fun b c => (b.addClass c.name c.kind none).map (·.2)) (declaring declared) = .ok b ↔
      ((declared ++ classes).map (·.name)).Nodup ∧ b = declaring (declared ++ classes) := by
  induction classes generalizing declared with
  | nil =>
    rw [List.append_nil, and_iff_right hdeclared]
    exact ⟨fun h => (Except.ok.inj h).symm, fun h => congrArg Except.ok h.symm⟩
  | cons c classes ih =>
    rw [List.foldlM_cons, addClass_declaring]
    by_cases hc : c.name ∈ declared.map (·.name)
    · rw [if_pos hc]
      constructor
      · intro h
        cases h
      · intro h
        rw [List.map_append, List.nodup_append] at h
        exact absurd rfl (h.1.2.2 _ hc _ List.mem_cons_self)
    · rw [if_neg hc]
      have hnext : ((declared ++ [c]).map (·.name)).Nodup := by
        rw [List.map_append, List.nodup_append]
        refine ⟨hdeclared, List.nodup_singleton _, fun a ha b hb heq => hc ?_⟩
        have hname : a = c.name := heq.trans (List.mem_singleton.1 hb)
        exact hname ▸ ha
      have happend : declared ++ [c] ++ classes = declared ++ c :: classes := by
        rw [List.append_assoc, List.singleton_append]
      rw [← happend]
      exact ih hnext

end Builder

theorem Description.declareClasses_eq_ok_iff {d : Description} {b : Builder} :
    d.declareClasses = .ok b ↔ (d.classes.map (·.name)).Nodup ∧ b = Builder.declaring d.classes :=
  @Builder.foldlM_addClass_eq_ok_iff [] _ List.nodup_nil _

/-! ### Links and fields -/

/-- What a class keeps when it is given its links and fields. -/
def Class.declared (c : Class) : Class :=
  { c with isAbstract := false, superclass := none, interfaces := #[], fields := #[] }

namespace Model

/-- The classes differ in their links and fields at most, and no field has been lost. -/
structure Relinks (m n : Model) : Prop where
  classes : ∀ i : Nat, n.classes[i]?.map Class.declared = m.classes[i]?.map Class.declared
  fields : ∀ f, m.IsField f → n.IsField f ∧ n.field f = m.field f
  methods : n.methods = m.methods

/-- One class, at that. -/
structure EditsClass (c : ClassId) (m n : Model) : Prop extends m.Relinks n where
  others : ∀ d, d ≠ c → n.cls d = m.cls d

variable {c : ClassId} {m n k : Model}

theorem classNamed?_of_names (h : ∀ i : Nat, n.classes[i]?.map Class.name = m.classes[i]?.map Class.name)
    (name : String) : n.classNamed? name = m.classNamed? name := by
  have hnames : n.classes.map Class.name = m.classes.map Class.name := by
    apply Array.ext_getElem?
    intro i
    rw [Array.getElem?_map, Array.getElem?_map, h]
  have hfind : ∀ k : Model, k.classNamed? name =
      ((k.classes.map Class.name).findIdx? (· == name)).map Id.mk := by
    intro k
    rw [classNamed?, Array.findIdx?_map]
    rfl
  rw [hfind, hfind, hnames]

namespace Relinks

theorem refl (m : Model) : m.Relinks m := ⟨fun _ => rfl, fun _ hf => ⟨hf, rfl⟩, rfl⟩

theorem trans (h : m.Relinks n) (h' : n.Relinks k) : m.Relinks k where
  classes i := (h'.classes i).trans (h.classes i)
  fields f hf := by
    obtain ⟨hf', heq⟩ := h.fields f hf
    obtain ⟨hf'', heq'⟩ := h'.fields f hf'
    exact ⟨hf'', heq'.trans heq⟩
  methods := h'.methods.trans h.methods

variable (h : m.Relinks n)

include h

theorem isClass_iff (c : ClassId) : n.IsClass c ↔ m.IsClass c := isClass_iff_of_map h.classes c

theorem cls (c : ClassId) : (n.cls c).declared = (m.cls c).declared := cls_of_map h.classes c

theorem named_iff {name : String} {c : ClassId} : n.Named name c ↔ m.Named name c := by
  rw [Named, Named, classNamed?_of_names (m := m) (fun i => ?_)]
  have hname := congrArg (Option.map Class.name) (h.classes i)
  rwa [Option.map_map, Option.map_map] at hname

theorem named {name : String} {c : ClassId} (hc : m.Named name c) : n.Named name c := h.named_iff.2 hc

theorem namedOption {name : Option String} {c : Option ClassId} (hrel : Option.Rel m.Named name c) :
    Option.Rel n.Named name c := optionRel_imp hrel fun _ _ => h.named

end Relinks

namespace EditsClass

theorem refl (c : ClassId) (m : Model) : m.EditsClass c m := ⟨.refl m, fun _ _ => rfl⟩

theorem trans (h : m.EditsClass c n) (h' : n.EditsClass c k) : m.EditsClass c k :=
  ⟨h.toRelinks.trans h'.toRelinks, fun d hd => (h'.others d hd).trans (h.others d hd)⟩

theorem modifyClass (c : ClassId) (m : Model) {f : Class → Class}
    (hf : ∀ x : Class, (f x).declared = x.declared) :
    m.EditsClass c { m with classes := m.classes.modify c.index f } := by
  refine ⟨⟨fun i => ?_, fun _ hf => ⟨hf, rfl⟩, rfl⟩, fun d hd => ?_⟩
  · rw [Array.getElem?_modify]
    split
    · rw [Option.map_map, show Class.declared ∘ f = Class.declared from funext hf]
    · rfl
  · have hne : c.index ≠ d.index := fun heq => hd (Id.ext heq.symm)
    simp only [Model.cls, Array.getD_eq_getD_getElem?, Array.getElem?_modify, if_neg hne]

end EditsClass

/-- The class has the links and fields that are described. -/
structure MeetsLinks (m : Model) (d : Description.Class) (c : Class) : Prop where
  superclass : Option.Rel m.Named d.superclass c.superclass
  interfaces : List.Forall₂ m.Named d.interfaces c.interfaces.toList
  fields : List.Forall₂ (fun f e => e.1 = f.name ∧ m.IsField e.2 ∧ (m.field e.2).isStatic = f.isStatic)
    d.fields c.fields.toList

theorem MeetsLinks.relinks {d : Description.Class} {x : Class} (h : m.MeetsLinks d x) (h' : m.Relinks n) :
    n.MeetsLinks d x := by
  refine ⟨h'.namedOption h.superclass, h.interfaces.imp fun _ _ => h'.named, h.fields.imp fun f e hf => ?_⟩
  obtain ⟨hname, hfield, hstatic⟩ := hf
  obtain ⟨hfield', heq⟩ := h'.fields _ hfield
  exact ⟨hname, hfield', by rw [heq, hstatic]⟩

end Model

namespace Builder

/-- The builder with a field more, entered in its class. -/
def enterField (b : Builder) (c : ClassId) (name : String) (isStatic : Bool) : Builder :=
  { b.modifyClass c fun x => { x with fields := x.fields.push (name, ⟨b.fields.size⟩) } with
    fields := b.fields.push ⟨name, c, isStatic⟩ }

variable {b u : Builder} {c : ClassId} (hc : b.IsClass c)

include hc

theorem addInterfaces_eq_ok {names : List String}
    (h : names.foldlM (fun b name => (b.findClass name).map fun i => b.addInterface c i) b = .ok u) :
    (b.EditsClass c u.toModel ∧ (u.cls c).superclass = (b.cls c).superclass ∧
      (u.cls c).fields = (b.cls c).fields) ∧
    ∃ is, (u.cls c).interfaces.toList = (b.cls c).interfaces.toList ++ is ∧
      List.Forall₂ u.Named names is := by
  refine foldlM_pushes (E := fun b u : Builder => b.EditsClass c u.toModel ∧
    (u.cls c).superclass = (b.cls c).superclass ∧ (u.cls c).fields = (b.cls c).fields)
    (fun b => ⟨.refl c _, rfl, rfl⟩) ?_ (fun b => (b.cls c).interfaces.toList)
    (R := fun b name i => b.Named name i) ?_ ?_ h
  · intro b u w h h'
    exact ⟨h.1.trans h'.1, h'.2.1.trans h.2.1, h'.2.2.trans h.2.2⟩
  · intro b u name i h hname
    exact h.1.named hname
  · intro v hv name _ w hw
    obtain ⟨i, hi, rfl⟩ := exists_of_map_eq_ok hw
    have hvc := (hv.1.isClass_iff c).2 hc
    have hcls : (v.addInterface c i).cls c =
        { v.cls c with interfaces := (v.cls c).interfaces.push i } :=
      (Model.cls_modify hvc _ c).trans (if_pos rfl)
    have hedits := Model.EditsClass.modifyClass c v.toModel
      (f := fun x => { x with interfaces := x.interfaces.push i }) fun _ => rfl
    refine ⟨⟨hedits, by rw [hcls], by rw [hcls]⟩, i, ?_, hedits.named (findClass_eq_ok_iff.1 hi)⟩
    rw [hcls]
    exact Array.toList_push

omit hc in
/-- A field is refused if there is one of that name. -/
theorem addField_eq_ok_iff {name : String} {isStatic : Bool} :
    (b.addField c name isStatic).map (·.2) = .ok u ↔
      (∀ f, (name, f) ∉ (b.cls c).fields) ∧ u = b.enterField c name isStatic := by
  have hsome : ((b.cls c).declaredField? name).isSome = true ↔ ∃ f, (name, f) ∈ (b.cls c).fields :=
    isSome_find?_key
  rw [addField]
  split
  · rename_i hdeclared
    constructor
    · intro h
      cases h
    · intro h
      obtain ⟨f, hf⟩ := hsome.1 hdeclared
      exact absurd hf (h.1 f)
  · rename_i hnew
    constructor
    · intro h
      exact ⟨fun f hf => hnew (hsome.2 ⟨f, hf⟩), (Except.ok.inj h).symm⟩
    · rintro ⟨-, rfl⟩
      rfl

omit hc in
theorem editsClass_enterField (b : Builder) (c : ClassId) (name : String) (isStatic : Bool) :
    b.EditsClass c (b.enterField c name isStatic).toModel := by
  have hmodify := Model.EditsClass.modifyClass c b.toModel
    (f := fun x => { x with fields := x.fields.push (name, ⟨b.fields.size⟩) }) fun _ => rfl
  refine ⟨⟨hmodify.classes, fun f hf => ⟨?_, ?_⟩, rfl⟩, hmodify.others⟩
  · show f.index < (b.fields.push _).size
    rw [Array.size_push]
    exact Nat.lt_succ_of_lt hf
  · show (b.fields.push _).getD f.index default = b.fields.getD f.index default
    rw [Array.getD_eq_getD_getElem?, Array.getElem?_push, if_neg (Nat.ne_of_lt hf),
      Array.getD_eq_getD_getElem?]

theorem cls_enterField (name : String) (isStatic : Bool) : (b.enterField c name isStatic).cls c =
    { b.cls c with fields := (b.cls c).fields.push (name, ⟨b.fields.size⟩) } :=
  (Model.cls_modify hc _ c).trans (if_pos rfl)

theorem addFields_eq_ok {fields : List Description.Field}
    (h : fields.foldlM (fun b f => (b.addField c f.name f.isStatic).map (·.2)) b = .ok u) :
    (b.EditsClass c u.toModel ∧ (u.cls c).superclass = (b.cls c).superclass ∧
      (u.cls c).interfaces = (b.cls c).interfaces) ∧
    ∃ es, (u.cls c).fields.toList = (b.cls c).fields.toList ++ es ∧
      List.Forall₂ (fun f e => e.1 = f.name ∧ u.IsField e.2 ∧ (u.field e.2).isStatic = f.isStatic)
        fields es := by
  refine foldlM_pushes (E := fun b u : Builder => b.EditsClass c u.toModel ∧
    (u.cls c).superclass = (b.cls c).superclass ∧ (u.cls c).interfaces = (b.cls c).interfaces)
    (fun b => ⟨.refl c _, rfl, rfl⟩) ?_ (fun b => (b.cls c).fields.toList)
    (R := fun b f e => e.1 = f.name ∧ b.IsField e.2 ∧ (b.field e.2).isStatic = f.isStatic) ?_ ?_ h
  · intro b u w h h'
    exact ⟨h.1.trans h'.1, h'.2.1.trans h.2.1, h'.2.2.trans h.2.2⟩
  · intro b u f e h hf
    obtain ⟨hfield, heq⟩ := h.1.fields _ hf.2.1
    exact ⟨hf.1, hfield, by rw [heq, hf.2.2]⟩
  · intro v hv f _ w hw
    obtain ⟨-, rfl⟩ := addField_eq_ok_iff.1 hw
    have hcls := cls_enterField ((hv.1.isClass_iff c).2 hc) f.name f.isStatic
    refine ⟨⟨editsClass_enterField v c _ _, by rw [hcls], by rw [hcls]⟩, (f.name, ⟨v.fields.size⟩),
      ?_, rfl, ?_, ?_⟩
    · rw [hcls]
      exact Array.toList_push
    · show v.fields.size < (v.fields.push _).size
      simp
    · show ((v.fields.push _).getD v.fields.size default).isStatic = f.isStatic
      simp

/-! ### Headers -/

/-- The interfaces and fields of a class, which are entered when its superclass is known. -/
def addMembers (b : Builder) (c : ClassId) (d : Description.Class) : Except ProgramError Builder :=
  d.interfaces.foldlM (fun b name => (b.findClass name).map fun i => b.addInterface c i) b >>=
    d.fields.foldlM fun b f => (b.addField c f.name f.isStatic).map (·.2)

/-- The class has got its superclass and no members yet. -/
structure LinksClass (b : Builder) (c : ClassId) (d : Description.Class) (w : Builder) : Prop where
  edits : b.EditsClass c w.toModel
  superclass : Option.Rel w.Named d.superclass (w.cls c).superclass
  interfaces : (w.cls c).interfaces = (b.cls c).interfaces
  fields : (w.cls c).fields = (b.cls c).fields

theorem exists_linksClass {d : Description.Class} (hnone : (b.cls c).superclass = none)
    (hsuperclass : ∀ name ∈ d.superclass, ∃ s, b.Named name s) :
    ∃ w, b.LinksClass c d w ∧ b.addHeader c d = w.addMembers c d := by
  have hfirst : b.EditsClass c (b.setAbstract c (d.isAbstract || d.kind == .interface)).toModel :=
    .modifyClass c b.toModel fun _ => rfl
  have hcls : (b.setAbstract c (d.isAbstract || d.kind == .interface)).cls c =
      { b.cls c with isAbstract := d.isAbstract || d.kind == .interface } :=
    (Model.cls_modify hc _ c).trans (if_pos rfl)
  cases hd : d.superclass with
  | none =>
    refine ⟨_, ⟨hfirst, ?_, by rw [hcls], by rw [hcls]⟩, ?_⟩
    · rw [hd, hcls, hnone]
      exact .none
    · rw [addHeader, hd]
      rfl
  | some name =>
    obtain ⟨s, hs⟩ := hsuperclass name hd
    have hknown : (b.setAbstract c (d.isAbstract || d.kind == .interface)).findClass name = .ok s :=
      findClass_eq_ok_iff.2 (hfirst.named hs)
    have hsecond := hfirst.trans
      (.modifyClass c _ (f := fun x => { x with superclass := some s }) fun _ => rfl)
    have hcls' : ((b.setAbstract c (d.isAbstract || d.kind == .interface)).setSuperclass c (some s)).cls c =
        { (b.setAbstract c (d.isAbstract || d.kind == .interface)).cls c with superclass := some s } :=
      (Model.cls_modify ((hfirst.isClass_iff c).2 hc) _ c).trans (if_pos rfl)
    refine ⟨_, ⟨hsecond, ?_, by rw [hcls', hcls], by rw [hcls', hcls]⟩, ?_⟩
    · rw [hd, hcls']
      exact .some (hsecond.named hs)
    · rw [addHeader, hd]
      show ((b.setAbstract c (d.isAbstract || d.kind == .interface)).findClass name).map _ >>= _ = _
      rw [hknown]
      rfl

omit hc in
/-- Without its superclass no class is given a header. -/
theorem exists_superclass {d : Description.Class} (h : b.addHeader c d = .ok u) :
    ∀ name ∈ d.superclass, ∃ s, b.Named name s := by
  intro name hname
  rw [addHeader, Option.mem_def.1 hname] at h
  obtain ⟨w, hw, -⟩ := exists_of_bind_eq_ok h
  obtain ⟨s, hs, -⟩ := exists_of_map_eq_ok hw
  have hfirst : b.EditsClass c (b.setAbstract c (d.isAbstract || d.kind == .interface)).toModel :=
    .modifyClass c b.toModel fun _ => rfl
  exact ⟨s, hfirst.named_iff.1 (findClass_eq_ok_iff.1 hs)⟩

theorem addHeader_eq_ok {d : Description.Class} (hsuperclass : (b.cls c).superclass = none)
    (hinterfaces : (b.cls c).interfaces = #[]) (hfields : (b.cls c).fields = #[])
    (h : b.addHeader c d = .ok u) : b.EditsClass c u.toModel ∧ u.MeetsLinks d (u.cls c) := by
  obtain ⟨w, hw, heq⟩ := exists_linksClass hc hsuperclass (exists_superclass h)
  rw [heq] at h
  obtain ⟨v, hadd, hadd'⟩ := exists_of_bind_eq_ok h
  have hwc := (hw.edits.isClass_iff c).2 hc
  obtain ⟨⟨hwv, hs, hf⟩, is, his, hnamed⟩ := addInterfaces_eq_ok hwc hadd
  obtain ⟨⟨hvu, hs', hi'⟩, es, hes, hentered⟩ := addFields_eq_ok ((hwv.isClass_iff c).2 hwc) hadd'
  refine ⟨(hw.edits.trans hwv).trans hvu, ?_, ?_, ?_⟩
  · rw [hs', hs]
    exact (hwv.trans hvu).namedOption hw.superclass
  · rw [hi', his, hw.interfaces, hinterfaces]
    exact hnamed.imp fun _ _ => hvu.named
  · rw [hes, hf, hw.fields, hfields]
    exact hentered

/-! ### Success -/

omit hc in
theorem exists_addInterfaces_eq_ok {names : List String} (hnames : ∀ name ∈ names, ∃ i, b.Named name i) :
    ∃ u, names.foldlM (fun b name => (b.findClass name).map fun i => b.addInterface c i) b = .ok u := by
  refine exists_foldlM_eq_ok (fun l (u : Builder) => ∀ name ∈ l, ∃ i, u.Named name i) ?_ hnames
  intro name l u hl
  obtain ⟨i, hi⟩ := hl name List.mem_cons_self
  have hedits := Model.EditsClass.modifyClass c u.toModel
    (f := fun x => { x with interfaces := x.interfaces.push i }) fun _ => rfl
  refine ⟨u.addInterface c i, by rw [findClass_eq_ok_iff.2 hi]; rfl, fun other hother => ?_⟩
  obtain ⟨j, hj⟩ := hl other (List.mem_cons_of_mem _ hother)
  exact ⟨j, hedits.named hj⟩

theorem exists_addFields_eq_ok {fields : List Description.Field} (hnodup : (fields.map (·.name)).Nodup)
    (hnew : ∀ f ∈ fields, ∀ id, (f.name, id) ∉ (b.cls c).fields) :
    ∃ u, fields.foldlM (fun b f => (b.addField c f.name f.isStatic).map (·.2)) b = .ok u := by
  refine exists_foldlM_eq_ok (fun l (u : Builder) => u.IsClass c ∧ (l.map (·.name)).Nodup ∧
    ∀ f ∈ l, ∀ id, (f.name, id) ∉ (u.cls c).fields) ?_ ⟨hc, hnodup, hnew⟩
  intro f l u hl
  obtain ⟨huc, hnodup, hnew⟩ := hl
  obtain ⟨hf, hnodup⟩ := List.nodup_cons.1 hnodup
  refine ⟨_, addField_eq_ok_iff.2 ⟨hnew f List.mem_cons_self, rfl⟩, ?_, hnodup, fun g hg id hmem => ?_⟩
  · exact ((editsClass_enterField u c _ _).isClass_iff c).2 huc
  · rw [cls_enterField huc] at hmem
    rcases Array.mem_push.1 hmem with hold | heq
    · exact hnew g (List.mem_cons_of_mem _ hg) id hold
    · have hname : g.name = f.name := congrArg Prod.fst heq
      have hlater : g.name ∈ l.map (·.name) := List.mem_map_of_mem hg
      exact hf (by rwa [hname] at hlater)

theorem exists_addHeader_eq_ok {d : Description.Class} (hnone : (b.cls c).superclass = none)
    (hsuperclass : ∀ name ∈ d.superclass, ∃ s, b.Named name s)
    (hinterfaces : ∀ name ∈ d.interfaces, ∃ i, b.Named name i)
    (hnodup : (d.fields.map (·.name)).Nodup) (hfields : (b.cls c).fields = #[]) :
    ∃ u, b.addHeader c d = .ok u := by
  obtain ⟨w, hw, heq⟩ := exists_linksClass hc hnone hsuperclass
  have hwc := (hw.edits.isClass_iff c).2 hc
  obtain ⟨v, hv⟩ := exists_addInterfaces_eq_ok (b := w) (c := c) fun name hname => by
    obtain ⟨i, hi⟩ := hinterfaces name hname
    exact ⟨i, hw.edits.named hi⟩
  obtain ⟨⟨hwv, -, hkept⟩, -⟩ := addInterfaces_eq_ok hwc hv
  rw [hw.fields, hfields] at hkept
  obtain ⟨u, hu⟩ := exists_addFields_eq_ok ((hwv.isClass_iff c).2 hwc) hnodup fun f _ id hmem => by
    rw [hkept] at hmem
    exact absurd hmem (Array.not_mem_empty _)
  refine ⟨u, ?_⟩
  rw [heq, addMembers, hv]
  exact hu

end Builder

/-! ### Both passes -/

namespace Model

/-- The classes of the model have the names, links and fields of those that are described. -/
structure Declares (m : Model) (d : Description) : Prop where
  size : m.classes.size = d.classes.length
  name : ∀ i c, d.classes[i]? = some c → m.className ⟨i⟩ = c.name
  kind : ∀ i c, d.classes[i]? = some c → (m.cls ⟨i⟩).kind = c.kind
  links : ∀ i c, d.classes[i]? = some c → m.MeetsLinks c (m.cls ⟨i⟩)

end Model

namespace Description

/-- What is required of a class to be given its links and fields. -/
structure Class.WellLinked (d : Description) (c : Class) : Prop where
  superclass : ∀ name ∈ c.superclass, name ∈ d.classes.map (·.name)
  interfaces : ∀ name ∈ c.interfaces, name ∈ d.classes.map (·.name)
  fields : (c.fields.map (·.name)).Nodup

variable {d : Description} {b b' : Builder}

theorem mem_numberedClasses {i : ClassId} {c : Class} :
    (i, c) ∈ d.numberedClasses ↔ d.classes[i.index]? = some c := by
  rw [numberedClasses, List.mem_map]
  constructor
  · intro h
    obtain ⟨⟨c', j⟩, hmem, heq⟩ := h
    obtain ⟨rfl, rfl⟩ := Prod.mk.inj heq
    exact List.mem_zipIdx_iff_getElem?.1 hmem
  · intro h
    exact ⟨(c, i.index), List.mem_zipIdx_iff_getElem?.2 h, rfl⟩

theorem nodup_numberedClasses (d : Description) : (d.numberedClasses.map Prod.fst).Nodup := by
  have hindices : (d.numberedClasses.map Prod.fst).map Id.index = d.classes.zipIdx.map Prod.snd := by
    rw [numberedClasses, List.map_map, List.map_map]
    rfl
  apply List.Nodup.of_map Id.index
  rw [hindices, List.zipIdx_map_snd]
  exact List.nodup_range'

theorem size_classes_declaring (d : Description) :
    (Builder.declaring d.classes).classes.size = d.classes.length := by simp [Builder.declaring]

theorem cls_declaring {i : Nat} {c : Class} (hc : d.classes[i]? = some c) :
    (Builder.declaring d.classes).cls ⟨i⟩ = c.blank := by
  rw [Model.cls, Array.getD_eq_getD_getElem?]
  simp [Builder.declaring, hc]

theorem declares_of_passes (h : d.declareClasses = .ok b)
    (h' : d.numberedClasses.foldlM (fun b (c, desc) => b.addHeader c desc) b = .ok b') :
    b'.Declares d ∧ (∀ c, (b'.cls c).methods = #[]) ∧ b'.methods = #[] := by
  obtain ⟨-, rfl⟩ := declareClasses_eq_ok_iff.1 h
  have hkeeps : ∀ {b u : Builder} {c : ClassId} {desc : Class}, b.Relinks u.toModel →
      u.cls c = b.cls c → b.MeetsLinks desc (b.cls c) → u.MeetsLinks desc (u.cls c) := by
    intro b u c desc hrelinks hcls hlinks
    rw [hcls]
    exact hlinks.relinks hrelinks
  have hstep : ∀ u : Builder, (Builder.declaring d.classes).Relinks u.toModel → ∀ e ∈ d.numberedClasses,
      u.cls e.1 = (Builder.declaring d.classes).cls e.1 → ∀ w, u.addHeader e.1 e.2 = .ok w →
        u.Relinks w.toModel ∧ w.MeetsLinks e.2 (w.cls e.1) ∧ ∀ c, c ≠ e.1 → w.cls c = u.cls c := by
    intro u hu e he hcls w hw
    have hblank := cls_declaring (mem_numberedClasses.1 he)
    rw [← hcls] at hblank
    obtain ⟨hedits, hlinks⟩ := Builder.addHeader_eq_ok
      ((hu.isClass_iff e.1).2 (isClass_of_mem_numberedClasses (size_classes_declaring d) he)) (by rw [hblank]; rfl)
      (by rw [hblank]; rfl) (by rw [hblank]; rfl) hw
    exact ⟨hedits.toRelinks, hlinks, hedits.others⟩
  obtain ⟨hrelinks, hlinks, -⟩ := foldlM_settles (E := fun b u : Builder => b.Relinks u.toModel)
    (fun b => .refl _) (fun h h' => h.trans h') (fun b c => b.cls c)
    (R := fun b c desc => b.MeetsLinks desc (b.cls c)) hkeeps hstep (nodup_numberedClasses d) h'
  have hclass : ∀ i c, d.classes[i]? = some c → (b'.cls ⟨i⟩).declared = c.blank.declared := by
    intro i c hc
    rw [hrelinks.cls, cls_declaring hc]
  refine ⟨⟨?_, fun i c hc => ?_, fun i c hc => ?_, fun i c hc => ?_⟩, fun c => ?_, hrelinks.methods⟩
  · exact (Model.size_of_map hrelinks.classes).trans (size_classes_declaring d)
  · exact (congrArg PointsTo.Class.name (hclass i c hc) :)
  · exact (congrArg PointsTo.Class.kind (hclass i c hc) :)
  · exact hlinks (⟨i⟩, c) (mem_numberedClasses.2 hc)
  · have hmethods : (b'.cls c).methods = ((Builder.declaring d.classes).cls c).methods :=
      (congrArg PointsTo.Class.methods (hrelinks.cls c) :)
    rw [hmethods]
    cases hc : d.classes[c.index]? with
    | none =>
      rw [Model.cls, Array.getD_eq_getD_getElem?]
      simp [Builder.declaring, hc]
      rfl
    | some desc => rw [cls_declaring hc]; rfl

/-- What the passes require, none of which looks at the order of the classes. -/
theorem exists_passes (hnames : (d.classes.map (·.name)).Nodup)
    (hlinked : ∀ c ∈ d.classes, c.WellLinked d) :
    ∃ b b', d.declareClasses = .ok b ∧
      d.numberedClasses.foldlM (fun b (c, desc) => b.addHeader c desc) b = .ok b' := by
  have hknown : ∀ name ∈ d.classes.map (·.name), ∃ c, (Builder.declaring d.classes).Named name c :=
    fun name hname => Option.isSome_iff_exists.1 (Builder.isSome_classNamed?_declaring.2 hname)
  have hpass : ∃ b', d.numberedClasses.foldlM (fun b (c, desc) => b.addHeader c desc)
      (Builder.declaring d.classes) = .ok b' := by
    refine exists_foldlM_eq_ok (fun l (u : Builder) => (Builder.declaring d.classes).Relinks u.toModel ∧
      (l.map Prod.fst).Nodup ∧ ∀ e ∈ l, e ∈ d.numberedClasses ∧
        u.cls e.1 = (Builder.declaring d.classes).cls e.1) ?_
      ⟨.refl _, nodup_numberedClasses d, fun e he => ⟨he, rfl⟩⟩
    intro e l u hl
    obtain ⟨hu, hnodup, hrest⟩ := hl
    obtain ⟨hfirst, hnodup⟩ := List.nodup_cons.1 hnodup
    obtain ⟨he, hcls⟩ := hrest e List.mem_cons_self
    have hget := mem_numberedClasses.1 he
    rw [cls_declaring hget] at hcls
    have hwell := hlinked _ (List.mem_of_getElem? hget)
    have hnamed : ∀ name ∈ d.classes.map (·.name), ∃ c, u.Named name c := fun name hname => by
      obtain ⟨c, hc⟩ := hknown name hname
      exact ⟨c, hu.named hc⟩
    have hclass := (hu.isClass_iff e.1).2 (isClass_of_mem_numberedClasses (size_classes_declaring d) he)
    obtain ⟨w, hw⟩ := Builder.exists_addHeader_eq_ok hclass (by rw [hcls]; rfl)
      (fun name hname => hnamed name (hwell.superclass name hname))
      (fun name hname => hnamed name (hwell.interfaces name hname)) hwell.fields (by rw [hcls]; rfl)
    obtain ⟨hedits, -⟩ := Builder.addHeader_eq_ok hclass (by rw [hcls]; rfl) (by rw [hcls]; rfl)
      (by rw [hcls]; rfl) hw
    refine ⟨w, hw, hu.trans hedits.toRelinks, hnodup, fun e' he' => ?_⟩
    obtain ⟨hmem, hkept⟩ := hrest e' (List.mem_cons_of_mem _ he')
    have hne : e'.1 ≠ e.1 := fun heq => hfirst (heq ▸ List.mem_map_of_mem he')
    exact ⟨hmem, (hedits.others _ hne).trans hkept⟩
  obtain ⟨b', hb'⟩ := hpass
  exact ⟨_, b', declareClasses_eq_ok_iff.2 ⟨hnames, rfl⟩, hb'⟩

end Description

namespace Model.Declares

variable {m : Model} {d : Description} (h : m.Declares d) (hm : m.Registered)

include h

theorem isClass_iff {i : Nat} : m.IsClass ⟨i⟩ ↔ ∃ c, d.classes[i]? = some c := by
  rw [IsClass, h.size, ← Option.isSome_iff_exists]
  simp

include hm

theorem named_iff {name : String} {i : Nat} :
    m.Named name ⟨i⟩ ↔ ∃ c, d.classes[i]? = some c ∧ c.name = name := by
  rw [Named, hm.classNamed?_eq_some_iff, h.isClass_iff]
  constructor
  · intro hexists
    obtain ⟨⟨c, hc⟩, rfl⟩ := hexists
    exact ⟨c, hc, (h.name i c hc).symm⟩
  · rintro ⟨c, hc, rfl⟩
    exact ⟨⟨c, hc⟩, h.name i c hc⟩

theorem nodup_names : (d.classes.map (·.name)).Nodup := by
  have hname : ∀ i, (hi : i < d.classes.length) → m.className ⟨i⟩ = d.classes[i].name := fun i hi =>
    h.name i _ (List.getElem?_eq_getElem hi)
  rw [List.Nodup, List.pairwise_map, List.pairwise_iff_getElem]
  intro i j hi hj hlt heq
  rw [← hname i hi, ← hname j hj] at heq
  rw [← h.size] at hi hj
  have hclass := hm.classes ⟨i⟩ ⟨j⟩ hi hj heq
  exact Nat.ne_of_lt hlt (congrArg Id.index hclass)

theorem wellLinked {c : Description.Class} (hc : c ∈ d.classes) : c.WellLinked d := by
  obtain ⟨i, hi⟩ := List.mem_iff_getElem?.1 hc
  have hlinks := h.links i c hi
  have hname : ∀ name s, m.Named name s → name ∈ d.classes.map (·.name) := by
    intro name s hs
    obtain ⟨c, hc, rfl⟩ := (h.named_iff hm (i := s.index)).1 hs
    exact List.mem_map_of_mem (List.mem_of_getElem? hc)
  constructor
  case superclass =>
    intro name hmem
    have hsuper := hlinks.superclass
    rw [hmem] at hsuper
    generalize (m.cls ⟨i⟩).superclass = s at hsuper
    cases hsuper with
    | some hs => exact hname _ _ hs
  case interfaces =>
    intro name hmem
    obtain ⟨s, -, hs⟩ := exists_of_forall₂ hlinks.interfaces hmem
    exact hname _ _ hs
  case fields =>
    rw [← map_eq_of_forall₂ hlinks.fields fun f e hf => hf.1]
    exact hm.fields.nodup ⟨i⟩

end Model.Declares

end PointsTo
