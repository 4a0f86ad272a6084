import PointsTo.Program.Basic

/-! The scope of a model's identifiers. What the parts of a scoped model speak of is declared in it. A
model that is edited without losing anything stays scoped if what is new in it is. -/

namespace PointsTo

namespace Model

section Known

variable (m : Model)

def IsClass (c : ClassId) : Prop := c.index < m.classes.size

def IsField (f : FieldId) : Prop := f.index < m.fields.size

def IsMethod (x : MethodId) : Prop := x.index < m.methods.size

def IsVar (v : VarId) : Prop := v.index < m.vars.size

def IsSite (s : SiteId) : Prop := s.index < m.sites.size

def IsCall (c : CallId) : Prop := c.index < m.calls.size

def KnowsStmt : Stmt → Prop
  | .new site => m.IsSite site
  | .copy lhs rhs => m.IsVar lhs ∧ m.IsVar rhs
  | .loadField lhs base field => m.IsVar lhs ∧ m.IsVar base ∧ m.IsField field
  | .storeField base field rhs => m.IsVar base ∧ m.IsField field ∧ m.IsVar rhs
  | .loadStatic lhs field => m.IsVar lhs ∧ m.IsField field
  | .storeStatic field rhs => m.IsField field ∧ m.IsVar rhs
  | .loadArray lhs base => m.IsVar lhs ∧ m.IsVar base
  | .storeArray base rhs => m.IsVar base ∧ m.IsVar rhs
  | .invoke call => m.IsCall call
  | .ret var => ∀ v ∈ var, m.IsVar v

instance (c : ClassId) : Decidable (m.IsClass c) := inferInstanceAs (Decidable (_ < _))

instance (f : FieldId) : Decidable (m.IsField f) := inferInstanceAs (Decidable (_ < _))

instance (x : MethodId) : Decidable (m.IsMethod x) := inferInstanceAs (Decidable (_ < _))

instance (v : VarId) : Decidable (m.IsVar v) := inferInstanceAs (Decidable (_ < _))

instance (s : SiteId) : Decidable (m.IsSite s) := inferInstanceAs (Decidable (_ < _))

instance (c : CallId) : Decidable (m.IsCall c) := inferInstanceAs (Decidable (_ < _))

instance : (s : Stmt) → Decidable (m.KnowsStmt s)
  | .new site => inferInstanceAs (Decidable (m.IsSite site))
  | .copy _ _ | .loadArray _ _ | .storeArray _ _ => inferInstanceAs (Decidable (m.IsVar _ ∧ m.IsVar _))
  | .loadField _ _ _ => inferInstanceAs (Decidable (m.IsVar _ ∧ m.IsVar _ ∧ m.IsField _))
  | .storeField _ _ _ => inferInstanceAs (Decidable (m.IsVar _ ∧ m.IsField _ ∧ m.IsVar _))
  | .loadStatic _ _ => inferInstanceAs (Decidable (m.IsVar _ ∧ m.IsField _))
  | .storeStatic _ _ => inferInstanceAs (Decidable (m.IsField _ ∧ m.IsVar _))
  | .invoke call => inferInstanceAs (Decidable (m.IsCall call))
  | .ret var => inferInstanceAs (Decidable (∀ v ∈ var, m.IsVar v))

structure KnowsClass (c : Class) : Prop where
  superclass : ∀ d ∈ c.superclass, m.IsClass d
  interfaces : ∀ d ∈ c.interfaces, m.IsClass d
  methods : ∀ e ∈ c.methods, m.IsMethod e.2
  fields : ∀ e ∈ c.fields, m.IsField e.2

structure KnowsMethod (x : Method) : Prop where
  owner : m.IsClass x.owner
  this : ∀ v ∈ x.this, m.IsVar v
  params : ∀ v ∈ x.params, m.IsVar v
  returns : ∀ v ∈ x.returns, m.IsVar v
  body : ∀ s ∈ x.body, m.KnowsStmt s
  locals : ∀ e ∈ x.locals, m.IsVar e.2

structure KnowsSite (s : Site) : Prop where
  lhs : m.IsVar s.lhs
  cls : m.IsClass s.cls
  container : m.IsMethod s.container

structure KnowsCall (c : Call) : Prop where
  cls : m.IsClass c.cls
  receiver : ∀ v ∈ c.receiver, m.IsVar v
  args : ∀ v ∈ c.args, m.IsVar v
  result : ∀ v ∈ c.result, m.IsVar v
  container : m.IsMethod c.container

structure Scoped : Prop where
  classes : ∀ c ∈ m.classes, m.KnowsClass c
  fields : ∀ f ∈ m.fields, m.IsClass f.owner
  methods : ∀ x ∈ m.methods, m.KnowsMethod x
  vars : ∀ v ∈ m.vars, m.IsMethod v.method
  sites : ∀ s ∈ m.sites, m.KnowsSite s
  calls : ∀ c ∈ m.calls, m.KnowsCall c

end Known

/-- The second model declares at least as many things of each sort. -/
structure Fits (m n : Model) : Prop where
  classes : m.classes.size ≤ n.classes.size
  fields : m.fields.size ≤ n.fields.size
  methods : m.methods.size ≤ n.methods.size
  vars : m.vars.size ≤ n.vars.size
  sites : m.sites.size ≤ n.sites.size
  calls : m.calls.size ≤ n.calls.size

variable {m n k : Model}

theorem cls_eq_default {c : ClassId} (hc : ¬ m.IsClass c) : m.cls c = default := by
  rw [cls, Array.getD_eq_getD_getElem?, Array.getElem?_eq_none (Nat.le_of_not_lt hc)]
  rfl

theorem method_eq_default {x : MethodId} (hx : ¬ m.IsMethod x) : m.method x = default := by
  rw [method, Array.getD_eq_getD_getElem?, Array.getElem?_eq_none (Nat.le_of_not_lt hx)]
  rfl

namespace Fits

theorem refl (m : Model) : m.Fits m :=
  ⟨Nat.le_refl _, Nat.le_refl _, Nat.le_refl _, Nat.le_refl _, Nat.le_refl _, Nat.le_refl _⟩

theorem trans (h : m.Fits n) (h' : n.Fits k) : m.Fits k where
  classes := Nat.le_trans h.classes h'.classes
  fields := Nat.le_trans h.fields h'.fields
  methods := Nat.le_trans h.methods h'.methods
  vars := Nat.le_trans h.vars h'.vars
  sites := Nat.le_trans h.sites h'.sites
  calls := Nat.le_trans h.calls h'.calls

variable (h : m.Fits n)

include h

theorem isClass {c : ClassId} (hc : m.IsClass c) : n.IsClass c := Nat.lt_of_lt_of_le hc h.classes

theorem isField {f : FieldId} (hf : m.IsField f) : n.IsField f := Nat.lt_of_lt_of_le hf h.fields

theorem isMethod {x : MethodId} (hx : m.IsMethod x) : n.IsMethod x :=
  Nat.lt_of_lt_of_le hx h.methods

theorem isVar {v : VarId} (hv : m.IsVar v) : n.IsVar v := Nat.lt_of_lt_of_le hv h.vars

theorem isSite {s : SiteId} (hs : m.IsSite s) : n.IsSite s := Nat.lt_of_lt_of_le hs h.sites

theorem isCall {c : CallId} (hc : m.IsCall c) : n.IsCall c := Nat.lt_of_lt_of_le hc h.calls

theorem knowsStmt {s : Stmt} (hs : m.KnowsStmt s) : n.KnowsStmt s := by
  cases s with
  | new site => exact h.isSite hs
  | copy lhs rhs => exact ⟨h.isVar hs.1, h.isVar hs.2⟩
  | loadField lhs base field => exact ⟨h.isVar hs.1, h.isVar hs.2.1, h.isField hs.2.2⟩
  | storeField base field rhs => exact ⟨h.isVar hs.1, h.isField hs.2.1, h.isVar hs.2.2⟩
  | loadStatic lhs field => exact ⟨h.isVar hs.1, h.isField hs.2⟩
  | storeStatic field rhs => exact ⟨h.isField hs.1, h.isVar hs.2⟩
  | loadArray lhs base => exact ⟨h.isVar hs.1, h.isVar hs.2⟩
  | storeArray base rhs => exact ⟨h.isVar hs.1, h.isVar hs.2⟩
  | invoke call => exact h.isCall hs
  | ret var => exact fun v hv => h.isVar (hs v hv)

theorem knowsClass {c : Class} (hc : m.KnowsClass c) : n.KnowsClass c where
  superclass d hd := h.isClass (hc.superclass d hd)
  interfaces d hd := h.isClass (hc.interfaces d hd)
  methods e he := h.isMethod (hc.methods e he)
  fields e he := h.isField (hc.fields e he)

theorem knowsMethod {x : Method} (hx : m.KnowsMethod x) : n.KnowsMethod x where
  owner := h.isClass hx.owner
  this v hv := h.isVar (hx.this v hv)
  params v hv := h.isVar (hx.params v hv)
  returns v hv := h.isVar (hx.returns v hv)
  body s hs := h.knowsStmt (hx.body s hs)
  locals e he := h.isVar (hx.locals e he)

theorem knowsSite {s : Site} (hs : m.KnowsSite s) : n.KnowsSite s :=
  ⟨h.isVar hs.lhs, h.isClass hs.cls, h.isMethod hs.container⟩

theorem knowsCall {c : Call} (hc : m.KnowsCall c) : n.KnowsCall c where
  cls := h.isClass hc.cls
  receiver v hv := h.isVar (hc.receiver v hv)
  args v hv := h.isVar (hc.args v hv)
  result v hv := h.isVar (hc.result v hv)
  container := h.isMethod hc.container

end Fits

namespace Scoped

theorem empty : ({} : Model).Scoped := by
  constructor <;> simp

/-- An edited model is scoped if what is new in it is known there. -/
theorem edit (hm : m.Scoped) (h : m.Fits n)
    (hclasses : ∀ c ∈ n.classes, c ∈ m.classes ∨ n.KnowsClass c)
    (hfields : ∀ f ∈ n.fields, f ∈ m.fields ∨ n.IsClass f.owner)
    (hmethods : ∀ x ∈ n.methods, x ∈ m.methods ∨ n.KnowsMethod x)
    (hvars : ∀ v ∈ n.vars, v ∈ m.vars ∨ n.IsMethod v.method)
    (hsites : ∀ s ∈ n.sites, s ∈ m.sites ∨ n.KnowsSite s)
    (hcalls : ∀ c ∈ n.calls, c ∈ m.calls ∨ n.KnowsCall c) : n.Scoped where
  classes c hc := (hclasses c hc).elim (fun hc => h.knowsClass (hm.classes c hc)) id
  fields f hf := (hfields f hf).elim (fun hf => h.isClass (hm.fields f hf)) id
  methods x hx := (hmethods x hx).elim (fun hx => h.knowsMethod (hm.methods x hx)) id
  vars v hv := (hvars v hv).elim (fun hv => h.isMethod (hm.vars v hv)) id
  sites s hs := (hsites s hs).elim (fun hs => h.knowsSite (hm.sites s hs)) id
  calls c hc := (hcalls c hc).elim (fun hc => h.knowsCall (hm.calls c hc)) id

variable (hm : m.Scoped)

include hm

theorem cls {c : ClassId} (hc : m.IsClass c) : m.KnowsClass (m.cls c) := by
  rw [Model.cls, Array.getD_eq_getD_getElem?, Array.getElem?_eq_getElem hc]
  exact hm.classes _ (Array.getElem_mem hc)

theorem method {x : MethodId} (hx : m.IsMethod x) : m.KnowsMethod (m.method x) := by
  rw [Model.method, Array.getD_eq_getD_getElem?, Array.getElem?_eq_getElem hx]
  exact hm.methods _ (Array.getElem_mem hx)

theorem var {v : VarId} (hv : m.IsVar v) : m.IsMethod (m.var v).method := by
  rw [Model.var, Array.getD_eq_getD_getElem?, Array.getElem?_eq_getElem hv]
  exact hm.vars _ (Array.getElem_mem hv)

theorem site {s : SiteId} (hs : m.IsSite s) : m.KnowsSite (m.site s) := by
  rw [Model.site, Array.getD_eq_getD_getElem?, Array.getElem?_eq_getElem hs]
  exact hm.sites _ (Array.getElem_mem hs)

theorem call {c : CallId} (hc : m.IsCall c) : m.KnowsCall (m.call c) := by
  rw [Model.call, Array.getD_eq_getD_getElem?, Array.getElem?_eq_getElem hc]
  exact hm.calls _ (Array.getElem_mem hc)

end Scoped

/-! ### Edits -/

theorem mem_modify {α : Type} {as : Array α} {i : Nat} {f : α → α} {a : α} (h : a ∈ as.modify i f) :
    a ∈ as ∨ ∃ b ∈ as, f b = a := by
  obtain ⟨j, hj, rfl⟩ := Array.mem_iff_getElem.1 h
  rw [Array.size_modify] at hj
  rw [Array.getElem_modify]
  split
  · exact Or.inr ⟨_, Array.getElem_mem hj, rfl⟩
  · exact Or.inl (Array.getElem_mem hj)

namespace Scoped

variable (hm : m.Scoped)

include hm

theorem pushClass {c : Class} (hc : m.KnowsClass c) :
    ({ m with classes := m.classes.push c } : Model).Scoped := by
  have hfits : m.Fits { m with classes := m.classes.push c } :=
    { Fits.refl m with classes := by simp }
  refine hm.edit hfits (fun x hx => ?_) (fun _ => Or.inl) (fun _ => Or.inl) (fun _ => Or.inl)
    (fun _ => Or.inl) (fun _ => Or.inl)
  refine (Array.mem_push.1 hx).imp_right ?_
  rintro rfl
  exact hfits.knowsClass hc

theorem modifyClass (i : Nat) {f : Class → Class}
    (hf : ∀ c, m.KnowsClass c → m.KnowsClass (f c)) :
    ({ m with classes := m.classes.modify i f } : Model).Scoped := by
  have hfits : m.Fits { m with classes := m.classes.modify i f } :=
    { Fits.refl m with classes := by simp }
  refine hm.edit hfits (fun x hx => ?_) (fun _ => Or.inl) (fun _ => Or.inl) (fun _ => Or.inl)
    (fun _ => Or.inl) (fun _ => Or.inl)
  refine (mem_modify hx).imp_right ?_
  rintro ⟨y, hy, rfl⟩
  exact hfits.knowsClass (hf y (hm.classes y hy))

theorem modifyMethod (i : Nat) {f : Method → Method}
    (hf : ∀ x, m.KnowsMethod x → m.KnowsMethod (f x)) :
    ({ m with methods := m.methods.modify i f } : Model).Scoped := by
  have hfits : m.Fits { m with methods := m.methods.modify i f } :=
    { Fits.refl m with methods := by simp }
  refine hm.edit hfits (fun _ => Or.inl) (fun _ => Or.inl) (fun x hx => ?_) (fun _ => Or.inl)
    (fun _ => Or.inl) (fun _ => Or.inl)
  refine (mem_modify hx).imp_right ?_
  rintro ⟨y, hy, rfl⟩
  exact hfits.knowsMethod (hf y (hm.methods y hy))

theorem pushField {f : Field} (hf : m.IsClass f.owner) :
    ({ m with fields := m.fields.push f } : Model).Scoped := by
  have hfits : m.Fits { m with fields := m.fields.push f } :=
    { Fits.refl m with fields := by simp }
  refine hm.edit hfits (fun _ => Or.inl) (fun g hg => ?_) (fun _ => Or.inl) (fun _ => Or.inl)
    (fun _ => Or.inl) (fun _ => Or.inl)
  refine (Array.mem_push.1 hg).imp_right ?_
  rintro rfl
  exact hf

theorem pushMethod {x : Method} (hx : m.KnowsMethod x) :
    ({ m with methods := m.methods.push x } : Model).Scoped := by
  have hfits : m.Fits { m with methods := m.methods.push x } :=
    { Fits.refl m with methods := by simp }
  refine hm.edit hfits (fun _ => Or.inl) (fun _ => Or.inl) (fun y hy => ?_) (fun _ => Or.inl)
    (fun _ => Or.inl) (fun _ => Or.inl)
  refine (Array.mem_push.1 hy).imp_right ?_
  rintro rfl
  exact hfits.knowsMethod hx

theorem pushVar {v : Var} (hv : m.IsMethod v.method) :
    ({ m with vars := m.vars.push v } : Model).Scoped := by
  have hfits : m.Fits { m with vars := m.vars.push v } := { Fits.refl m with vars := by simp }
  refine hm.edit hfits (fun _ => Or.inl) (fun _ => Or.inl) (fun _ => Or.inl) (fun w hw => ?_)
    (fun _ => Or.inl) (fun _ => Or.inl)
  refine (Array.mem_push.1 hw).imp_right ?_
  rintro rfl
  exact hv

theorem pushSite {s : Site} (hs : m.KnowsSite s) :
    ({ m with sites := m.sites.push s } : Model).Scoped := by
  have hfits : m.Fits { m with sites := m.sites.push s } := { Fits.refl m with sites := by simp }
  refine hm.edit hfits (fun _ => Or.inl) (fun _ => Or.inl) (fun _ => Or.inl) (fun _ => Or.inl)
    (fun t ht => ?_) (fun _ => Or.inl)
  refine (Array.mem_push.1 ht).imp_right ?_
  rintro rfl
  exact hfits.knowsSite hs

theorem pushCall {c : Call} (hc : m.KnowsCall c) :
    ({ m with calls := m.calls.push c } : Model).Scoped := by
  have hfits : m.Fits { m with calls := m.calls.push c } := { Fits.refl m with calls := by simp }
  refine hm.edit hfits (fun _ => Or.inl) (fun _ => Or.inl) (fun _ => Or.inl) (fun _ => Or.inl)
    (fun _ => Or.inl) (fun d hd => ?_)
  refine (Array.mem_push.1 hd).imp_right ?_
  rintro rfl
  exact hfits.knowsCall hc

theorem pushStmt (i : Nat) {s : Stmt} (hs : m.KnowsStmt s) :
    ({ m with
      methods := m.methods.modify i fun x => { x with body := x.body.push s } } : Model).Scoped := by
  refine hm.modifyMethod i fun x hx => { hx with body := fun t ht => ?_ }
  rcases Array.mem_push.1 ht with ht | rfl
  · exact hx.body t ht
  · exact hs

end Scoped

end Model

end PointsTo
