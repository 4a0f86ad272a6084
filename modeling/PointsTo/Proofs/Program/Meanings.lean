import PointsTo.Proofs.Program.Bodies
import PointsTo.Proofs.Program.Folds
import PointsTo.Proofs.Program.Growth

/-! What a description says of a model. A description speaks of classes, members and variables by name, a
model by identifier. A statement of the one says what a statement of the other says if the names in it
stand for the identifiers. -/

namespace PointsTo

namespace Description

/-- The names of variables in the statement. -/
def Stmt.names : Stmt → List String
  | .new lhs _ => [lhs]
  | .copy lhs rhs => [lhs, rhs]
  | .loadField lhs base _ => [lhs, base]
  | .storeField base _ rhs => [base, rhs]
  | .loadStatic lhs _ => [lhs]
  | .storeStatic _ rhs => [rhs]
  | .loadArray lhs base => [lhs, base]
  | .storeArray base rhs => [base, rhs]
  | .invoke _ _ receiver args result => receiver.toList ++ args ++ result.toList
  | .ret var => var.toList

/-- The name of the receiver. -/
def Method.this? (x : Method) : Option String := if x.isStatic then none else some "this"

/-- The names of all variables of the method. -/
def Method.names (x : Method) : List String :=
  x.this?.toList ++ x.params ++ x.body.flatMap Stmt.names

end Description

namespace Model

section Meanings

variable (m : Model)

/-- The variable has that name in the method. -/
def Local (x : MethodId) (name : String) (v : VarId) : Prop := (m.method x).local? name = some v

/-- The class has that name. -/
def Named (name : String) (c : ClassId) : Prop := m.classNamed? name = some c

/-- The text refers to something of that name in the class, whether or not it is there. -/
def RefersTo (text : String) (c : ClassId) (member : String) : Prop :=
  ∃ ref, MemberRef.ofText? text = some ref ∧ m.Named ref.owner c ∧ ref.member = member

def RefersToField (text : String) (f : FieldId) : Prop :=
  ∃ c name, m.RefersTo text c name ∧ m.resolveField? c name = some f

/-- What a statement of a description says in a method of the model. -/
inductive Means (x : MethodId) : Description.Stmt → Stmt → Prop where
  | new {lhs cls : String} {i : SiteId} (hi : m.IsSite i) (hlhs : m.Local x lhs (m.site i).lhs)
      (hcls : m.Named cls (m.site i).cls) : Means x (.new lhs cls) (.new i)
  | copy {lhs rhs : String} {v w : VarId} (hlhs : m.Local x lhs v) (hrhs : m.Local x rhs w) :
      Means x (.copy lhs rhs) (.copy v w)
  | loadField {lhs base field : String} {v w : VarId} {f : FieldId} (hlhs : m.Local x lhs v)
      (hbase : m.Local x base w) (hfield : m.RefersToField field f) :
      Means x (.loadField lhs base field) (.loadField v w f)
  | storeField {base field rhs : String} {v w : VarId} {f : FieldId} (hbase : m.Local x base v)
      (hfield : m.RefersToField field f) (hrhs : m.Local x rhs w) :
      Means x (.storeField base field rhs) (.storeField v f w)
  | loadStatic {lhs field : String} {v : VarId} {f : FieldId} (hlhs : m.Local x lhs v)
      (hfield : m.RefersToField field f) : Means x (.loadStatic lhs field) (.loadStatic v f)
  | storeStatic {field rhs : String} {v : VarId} {f : FieldId} (hfield : m.RefersToField field f)
      (hrhs : m.Local x rhs v) : Means x (.storeStatic field rhs) (.storeStatic f v)
  | loadArray {lhs base : String} {v w : VarId} (hlhs : m.Local x lhs v) (hbase : m.Local x base w) :
      Means x (.loadArray lhs base) (.loadArray v w)
  | storeArray {base rhs : String} {v w : VarId} (hbase : m.Local x base v) (hrhs : m.Local x rhs w) :
      Means x (.storeArray base rhs) (.storeArray v w)
  | invoke {kind : CallKind} {method : String} {receiver : Option String} {args : List String}
      {result : Option String} {i : CallId} (hi : m.IsCall i) (hkind : (m.call i).kind = kind)
      (hmethod : m.RefersTo method (m.call i).cls (m.call i).subsignature.text)
      (hreceiver : Option.Rel (m.Local x) receiver (m.call i).receiver)
      (hargs : List.Forall₂ (m.Local x) args (m.call i).args)
      (hresult : Option.Rel (m.Local x) result (m.call i).result) :
      Means x (.invoke kind method receiver args result) (.invoke i)
  | ret {var : Option String} {v : Option VarId} (hvar : Option.Rel (m.Local x) var v) :
      Means x (.ret var) (.ret v)

/-- The names of classes and members in the statement stand for something. -/
def Resolves : Description.Stmt → Prop
  | .new _ cls => ∃ c, m.Named cls c
  | .loadField _ _ field | .storeField _ field _ | .loadStatic _ field | .storeStatic field _ =>
    ∃ f, m.RefersToField field f
  | .invoke _ method _ _ _ => ∃ c s, m.RefersTo method c s
  | _ => True

end Meanings

variable {m n k : Model}

theorem Means.resolves {x : MethodId} {s : Description.Stmt} {t : Stmt} (h : m.Means x s t) :
    m.Resolves s := by
  cases h with
  | new _ _ hcls => exact ⟨_, hcls⟩
  | loadField _ _ hfield => exact ⟨_, hfield⟩
  | storeField _ hfield _ => exact ⟨_, hfield⟩
  | loadStatic _ hfield => exact ⟨_, hfield⟩
  | storeStatic hfield _ => exact ⟨_, hfield⟩
  | invoke _ _ hmethod _ _ _ => exact ⟨_, _, hmethod⟩
  | copy | loadArray | storeArray | ret => trivial

/-- A statement resolves in every model that has something for each name. -/
theorem Resolves.imp (hnamed : ∀ name c, m.Named name c → ∃ d, n.Named name d)
    (hmember : ∀ text c member, m.RefersTo text c member → ∃ d, n.RefersTo text d member)
    (hfield : ∀ text f, m.RefersToField text f → ∃ g, n.RefersToField text g) {s : Description.Stmt}
    (hs : m.Resolves s) : n.Resolves s := by
  cases s with
  | copy | loadArray | storeArray | ret => trivial
  | new =>
    obtain ⟨c, hc⟩ := hs
    exact hnamed _ c hc
  | loadField | storeField | loadStatic | storeStatic =>
    obtain ⟨f, hf⟩ := hs
    exact hfield _ f hf
  | invoke =>
    obtain ⟨c, member, hc⟩ := hs
    obtain ⟨d, hd⟩ := hmember _ c member hc
    exact ⟨d, member, hd⟩

theorem RefersTo.unique {text member member' : String} {c c' : ClassId} (h : m.RefersTo text c member)
    (h' : m.RefersTo text c' member') : c' = c ∧ member' = member := by
  obtain ⟨ref, htext, hc, rfl⟩ := h
  obtain ⟨ref', htext', hc', rfl⟩ := h'
  obtain rfl := Option.some.inj (htext.symm.trans htext')
  exact ⟨Option.some.inj (hc'.symm.trans hc), rfl⟩

theorem RefersToField.unique {text : String} {f g : FieldId} (h : m.RefersToField text f)
    (h' : m.RefersToField text g) : g = f := by
  obtain ⟨c, name, href, hf⟩ := h
  obtain ⟨c', name', href', hg⟩ := h'
  obtain ⟨rfl, rfl⟩ := href.unique href'
  exact Option.some.inj (hg.symm.trans hf)

theorem exists_local_of_optionRel {x : MethodId} {name : Option String} {v : Option VarId}
    (h : Option.Rel (m.Local x) name v) {other : String} (hother : other ∈ name) :
    ∃ w, m.Local x other w := by
  rw [Option.mem_def] at hother
  subst hother
  obtain ⟨w, -, hw⟩ := exists_of_optionRel h
  exact ⟨w, hw⟩

/-- The names of variables in the statement are names of variables. -/
theorem Means.exists_local {x : MethodId} {s : Description.Stmt} {t : Stmt} (h : m.Means x s t)
    {name : String} (hname : name ∈ s.names) : ∃ v, m.Local x name v := by
  cases h with
  | new _ hlhs _ =>
    obtain rfl := List.mem_singleton.1 hname
    exact ⟨_, hlhs⟩
  | loadStatic hv _ | storeStatic _ hv =>
    obtain rfl := List.mem_singleton.1 hname
    exact ⟨_, hv⟩
  | copy hv hw | loadField hv hw _ | storeField hv _ hw | loadArray hv hw | storeArray hv hw =>
    simp only [Description.Stmt.names, List.mem_cons, List.not_mem_nil, or_false] at hname
    rcases hname with rfl | rfl
    · exact ⟨_, hv⟩
    · exact ⟨_, hw⟩
  | invoke _ _ _ hreceiver hargs hresult =>
    simp only [Description.Stmt.names, List.mem_append, Option.mem_toList] at hname
    rcases hname with (hname | hname) | hname
    · exact exists_local_of_optionRel hreceiver hname
    · obtain ⟨v, -, hv⟩ := exists_of_forall₂ hargs hname
      exact ⟨v, hv⟩
    · exact exists_local_of_optionRel hresult hname
  | ret hvar => exact exists_local_of_optionRel hvar (Option.mem_toList.1 hname)

/-! ### Extensions -/

/-- The second model has longer bodies, and each name in it stands for what it stood for. -/
structure Extends (m n : Model) : Prop extends m.Grows n where
  locals : ∀ x name v, m.Local x name v → n.Local x name v

namespace Extends

theorem refl (m : Model) : m.Extends m := ⟨.refl m, fun _ _ _ h => h⟩

theorem trans (h : m.Extends n) (h' : n.Extends k) : m.Extends k :=
  ⟨h.toGrows.trans h'.toGrows, fun x name v hv => h'.locals x name v (h.locals x name v hv)⟩

variable (h : m.Extends n) {x : MethodId}

include h

theorem named {name : String} {c : ClassId} (hc : m.Named name c) : n.Named name c := by
  rwa [Named, h.declares.classNamed?]

theorem refersTo {text : String} {c : ClassId} {member : String} (href : m.RefersTo text c member) :
    n.RefersTo text c member := by
  obtain ⟨ref, htext, hc, rfl⟩ := href
  exact ⟨ref, htext, h.named hc, rfl⟩

theorem refersToField {text : String} {f : FieldId} (hf : m.RefersToField text f) :
    n.RefersToField text f := by
  obtain ⟨c, name, href, hresolve⟩ := hf
  refine ⟨c, name, h.refersTo href, ?_⟩
  rwa [h.declares.resolveField?]

theorem localOption {name : Option String} {v : Option VarId} (hrel : Option.Rel (m.Local x) name v) :
    Option.Rel (n.Local x) name v := optionRel_imp hrel (h.locals x)

theorem means {s : Description.Stmt} {t : Stmt} (hs : m.Means x s t) : n.Means x s t := by
  have hlocal : ∀ {name v}, m.Local x name v → n.Local x name v := h.locals x _ _
  cases hs with
  | @new _ _ i hi hlhs hcls =>
    rw [← h.site i hi] at hlhs hcls
    exact .new (h.fits.isSite hi) (hlocal hlhs) (h.named hcls)
  | copy hlhs hrhs => exact .copy (hlocal hlhs) (hlocal hrhs)
  | loadField hlhs hbase hf => exact .loadField (hlocal hlhs) (hlocal hbase) (h.refersToField hf)
  | storeField hbase hf hrhs => exact .storeField (hlocal hbase) (h.refersToField hf) (hlocal hrhs)
  | loadStatic hlhs hf => exact .loadStatic (hlocal hlhs) (h.refersToField hf)
  | storeStatic hf hrhs => exact .storeStatic (h.refersToField hf) (hlocal hrhs)
  | loadArray hlhs hbase => exact .loadArray (hlocal hlhs) (hlocal hbase)
  | storeArray hbase hrhs => exact .storeArray (hlocal hbase) (hlocal hrhs)
  | @invoke _ _ _ _ _ i hi hkind hmethod hreceiver hargs hresult =>
    rw [← h.call i hi] at hkind hmethod hreceiver hargs hresult
    exact .invoke (h.fits.isCall hi) hkind (h.refersTo hmethod) (h.localOption hreceiver)
      (hargs.imp fun _ _ => hlocal) (h.localOption hresult)
  | ret hv => exact .ret (h.localOption hv)

theorem resolves {s : Description.Stmt} (hs : m.Resolves s) : n.Resolves s :=
  hs.imp (fun _ c hc => ⟨c, h.named hc⟩) (fun _ c _ hc => ⟨c, h.refersTo hc⟩)
    fun _ f hf => ⟨f, h.refersToField hf⟩

end Extends

end Model

/-! ### Lookups -/

namespace Builder

variable {b : Builder}

theorem findClass_eq_ok_iff {name : String} {c : ClassId} : b.findClass name = .ok c ↔ b.Named name c := by
  rw [findClass, Model.Named]
  cases b.classNamed? name with
  | none => simp
  | some d => simp

theorem findMember_eq_ok_iff {text : String} {c : ClassId} {member : String} :
    b.findMember text = .ok (c, member) ↔ b.RefersTo text c member := by
  rw [findMember, Model.RefersTo]
  cases MemberRef.ofText? text with
  | none => simp
  | some ref =>
    constructor
    · intro h
      obtain ⟨d, hd, heq⟩ := exists_of_map_eq_ok h
      obtain ⟨rfl, rfl⟩ := Prod.mk.inj heq
      exact ⟨ref, rfl, findClass_eq_ok_iff.1 hd, rfl⟩
    · intro h
      obtain ⟨ref', hsome, hc, rfl⟩ := h
      obtain rfl := Option.some.inj hsome
      show (b.findClass ref.owner).map _ = _
      rw [findClass_eq_ok_iff.2 hc]
      rfl

theorem findField_eq_ok_iff {text : String} {f : FieldId} :
    b.findField text = .ok f ↔ b.RefersToField text f := by
  constructor
  · intro h
    obtain ⟨⟨c, name⟩, hc, h⟩ := exists_of_bind_eq_ok h
    refine ⟨c, name, findMember_eq_ok_iff.1 hc, ?_⟩
    cases hresolved : b.resolveField? c name with
    | none =>
      simp only [hresolved] at h
      cases h
    | some g =>
      simp only [hresolved] at h
      rw [Except.ok.inj h]
  · intro h
    obtain ⟨c, name, href, hresolved⟩ := h
    rw [findField, findMember_eq_ok_iff.2 href]
    simp only [bind, Except.bind, hresolved]

end Builder

end PointsTo
