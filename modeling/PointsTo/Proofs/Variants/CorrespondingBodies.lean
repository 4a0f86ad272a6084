import PointsTo.Proofs.Variants.Correspondence
import PointsTo.Proofs.Variants.Undoing

/-! Rearranged bodies. The variables of a method keep their names, so a statement that means the same as
before is the statement that it was in other numbers. What the rearrangement sends where is undone by the
rearrangement back. -/

namespace PointsTo

namespace Relabeling

/-- The second site is the first one in other numbers; its statement stands at the place that is given. -/
structure KeepsSite (ρ : Relabeling) (place : MethodId → Equiv.Perm Nat) (i j : Site) : Prop where
  lhs : j.lhs = ρ.var i.lhs
  cls : j.cls = ρ.cls i.cls
  container : j.container = ρ.method i.container
  index : j.index = place i.container i.index

/-- The same of call sites. -/
structure KeepsCall (ρ : Relabeling) (place : MethodId → Equiv.Perm Nat) (c e : Call) : Prop where
  kind : e.kind = c.kind
  cls : e.cls = ρ.cls c.cls
  subsignature : e.subsignature = c.subsignature
  receiver : e.receiver = c.receiver.map ρ.var
  args : e.args = c.args.map ρ.var
  result : e.result = c.result.map ρ.var
  container : e.container = ρ.method c.container
  index : e.index = place c.container c.index

/-- The models correspond in all that their statements speak of. A statement at some place of a body stands
at the place in the other body that is given. -/
structure KeepsBodies (ρ : Relabeling) (place : MethodId → Equiv.Perm Nat) (m n : Model) : Prop
    extends ρ.KeepsMethods m n where
  field : ∀ f, m.IsField f → n.IsField (ρ.field f) ∧ (n.field (ρ.field f)).isStatic = (m.field f).isStatic
  method : ∀ x, m.IsMethod x →
    n.IsMethod (ρ.method x) ∧ (n.method (ρ.method x)).owner = ρ.cls (m.method x).owner
  var : ∀ v, m.IsVar v → n.IsVar (ρ.var v) ∧ (n.var (ρ.var v)).method = ρ.method (m.var v).method
  this : ∀ x, m.IsMethod x → (n.method (ρ.method x)).this = (m.method x).this.map ρ.var
  params : ∀ x, m.IsMethod x →
    (n.method (ρ.method x)).params.toList = (m.method x).params.toList.map ρ.var
  body : ∀ x, m.IsMethod x → ∀ k : Nat,
    (n.method (ρ.method x)).body[place x k]? = ((m.method x).body[k]?).map ρ.stmt
  site : ∀ i, m.IsSite i → n.IsSite (ρ.site i) ∧ ρ.KeepsSite place (m.site i) (n.site (ρ.site i))
  call : ∀ i, m.IsCall i → n.IsCall (ρ.call i) ∧ ρ.KeepsCall place (m.call i) (n.call (ρ.call i))

end Relabeling

namespace Model.Placed

variable {m : Model} (hm : m.Placed) {x : MethodId} {k : Nat}

include hm

theorem site_of_body {i : SiteId} (h : (m.method x).body[k]? = some (.new i)) :
    m.IsSite i ∧ (m.site i).container = x ∧ (m.site i).index = k := by
  have hplace := (hm.sites i.index x k).1 h
  rw [sitePlace?] at hplace
  obtain ⟨s, hs, heq⟩ := Option.map_eq_some_iff.1 hplace
  obtain ⟨rfl, rfl⟩ := Prod.mk.inj heq
  rw [site, Array.getD_eq_getD_getElem?, hs]
  exact ⟨(Array.getElem?_eq_some_iff.1 hs).1, rfl, rfl⟩

theorem body_of_site {i : SiteId} (hi : m.IsSite i) :
    (m.method (m.site i).container).body[(m.site i).index]? = some (.new i) := by
  apply (hm.sites i.index _ _).2
  rw [sitePlace?, site, Array.getD_eq_getD_getElem?, Array.getElem?_eq_getElem hi]
  rfl

theorem call_of_body {i : CallId} (h : (m.method x).body[k]? = some (.invoke i)) :
    m.IsCall i ∧ (m.call i).container = x ∧ (m.call i).index = k := by
  have hplace := (hm.calls i.index x k).1 h
  rw [callPlace?] at hplace
  obtain ⟨c, hc, heq⟩ := Option.map_eq_some_iff.1 hplace
  obtain ⟨rfl, rfl⟩ := Prod.mk.inj heq
  rw [call, Array.getD_eq_getD_getElem?, hc]
  exact ⟨(Array.getElem?_eq_some_iff.1 hc).1, rfl, rfl⟩

theorem body_of_call {i : CallId} (hi : m.IsCall i) :
    (m.method (m.call i).container).body[(m.call i).index]? = some (.invoke i) := by
  apply (hm.calls i.index _ _).2
  rw [callPlace?, call, Array.getD_eq_getD_getElem?, Array.getElem?_eq_getElem hi]
  rfl

end Model.Placed

namespace Description

namespace Rearranged

variable {π : Rearrangement} {d d' : Description} (h : d.Rearranged π d') {m n : Model}
  (hd : m.Realizes d) (hd' : n.Realizes d') (hm : m.Registered) (hn : n.Registered)

include h hd hd' hm hn

/-! ### Fields -/

/-- A field is described on both sides, and it stands at the place that its description gets. -/
theorem exists_field {c : ClassId} {k : Nat} {e : String × FieldId} (he : (m.cls c).fields[k]? = some e) :
    (n.cls (π.classId c)).fields[(π.members c.index).field k]? = some (e.1, π.fieldId m n e.2) ∧
      (n.field (π.fieldId m n e.2)).isStatic = (m.field e.2).isStatic := by
  rcases h.cls_cases hd.toDeclares hd'.toDeclares c with ⟨hc, -⟩ | ⟨desc, desc', hdesc, hdesc', hclass⟩
  · rw [hc] at he
    cases he
  · have hrel := forall₂_iff_getElem?.1 (hd.links _ _ hdesc).fields k
    rw [Array.getElem?_toList, he] at hrel
    obtain ⟨f, hf, hname, -, hstatic⟩ := exists_of_optionRel (optionRel_symm hrel fun _ _ => id)
    obtain ⟨_, hf', rfl⟩ := hclass.fields.exists_get hf
    have hrel' := forall₂_iff_getElem?.1 (hd'.links _ _ hdesc').fields ((π.members c.index).field k)
    rw [hf', Array.getElem?_toList] at hrel'
    obtain ⟨e', he', hname', -, hstatic'⟩ := exists_of_optionRel hrel'
    have hkey : e'.1 = e.1 := hname'.trans hname.symm
    have hmem := (hm.fields.mem_iff c e.1 e.2).1 (Array.mem_of_getElem? he)
    have hmem' := (hn.fields.mem_iff (π.classId c) e'.1 e'.2).1 (Array.mem_of_getElem? he')
    obtain ⟨-, hown, howner⟩ := Model.fieldKey?_eq_some_iff.1 hmem
    have hdeclared : (n.cls (π.classId c)).declaredField? e.1 = some e'.2 := by
      rw [hn.declaredField?_eq_some_iff, ← hkey]
      exact Model.fieldKey?_eq_some_iff.1 hmem'
    have hid : π.fieldId m n e.2 = e'.2 := by
      rw [Rearrangement.fieldId, howner, hown, hdeclared]
      rfl
    have heq : (e.1, π.fieldId m n e.2) = e' := by rw [hid, ← hkey]
    rw [heq, hid]
    exact ⟨he', hstatic'.trans hstatic.symm⟩

theorem isField_fieldId {f : FieldId} (hf : m.IsField f) : n.IsField (π.fieldId m n f) ∧
    (n.field (π.fieldId m n f)).name = (m.field f).name ∧
      (n.field (π.fieldId m n f)).owner = π.classId (m.field f).owner := by
  have hdeclared := h.declaredField? hd.toDeclares hd'.toDeclares hm (m.field f).owner (m.field f).name
  rw [hm.declaredField?_eq_some_iff.2 ⟨hf, rfl, rfl⟩] at hdeclared
  exact hn.declaredField?_eq_some_iff.1 hdeclared

theorem isStatic_fieldId {f : FieldId} (hf : m.IsField f) :
    (n.field (π.fieldId m n f)).isStatic = (m.field f).isStatic := by
  have hentry := (hm.fields.mem_iff (m.field f).owner (m.field f).name f).2
    (Model.fieldKey?_eq_some_iff.2 ⟨hf, rfl, rfl⟩)
  obtain ⟨k, hk⟩ := Array.mem_iff_getElem?.1 hentry
  exact (h.exists_field hd hd' hm hn hk).2

theorem isMethod_methodId {x : MethodId} (hx : m.IsMethod x) : n.IsMethod (π.methodId m n x) ∧
    (n.method (π.methodId m n x)).subsignature = (m.method x).subsignature ∧
      (n.method (π.methodId m n x)).owner = π.classId (m.method x).owner := by
  have hdeclared := h.declaredMethod? hd hd' hm (m.method x).owner (m.method x).subsignature
  rw [hm.declaredMethod?_eq_some_iff.2 ⟨hx, rfl, rfl⟩] at hdeclared
  exact hn.declaredMethod?_eq_some_iff.1 hdeclared

theorem eq_fieldId (text : String) (f g : FieldId) (hf : m.RefersToField text f)
    (hg : n.RefersToField text g) : g = π.fieldId m n f :=
  ((h.keepsClasses hd.toDeclares hd'.toDeclares hm hn).refersToField hf).unique hg

theorem eq_member {text member member' : String} {c c' : ClassId} (hc : m.RefersTo text c member)
    (hc' : n.RefersTo text c' member') : c' = π.classId c ∧ member' = member :=
  ((h.keepsClasses hd.toDeclares hd'.toDeclares hm hn).refersTo hc).unique hc'

/-! ### Variables -/

section Method

variable {x : MethodId} (hx : m.IsMethod x)

include hx

theorem local?_methodId (name : String) : (n.method (π.methodId m n x)).local? name =
    ((m.method x).local? name).map (π.varId m n) := by
  obtain ⟨y, y', hmethod, hmeets, hmeets'⟩ := h.exists_method hd hd' hm hn hx
  apply eq_map_of_isSome
  case hsome =>
    have hnames : (∃ v, n.Local (π.methodId m n x) name v) ↔ ∃ v, m.Local x name v :=
      (hmeets'.exists_local_iff.trans hmethod.mem_names_iff).trans hmeets.exists_local_iff.symm
    rw [Bool.eq_iff_iff, Option.isSome_iff_exists, Option.isSome_iff_exists]
    exact hnames
  case hf =>
    intro v hv w hw
    obtain ⟨-, rfl, rfl⟩ := hm.local?_eq_some_iff.1 hv
    rw [Rearrangement.varId, Option.mem_def.1 hw]
    rfl

theorem eq_varId (name : String) (v w : VarId) (hv : m.Local x name v)
    (hw : n.Local (π.methodId m n x) name w) : w = π.varId m n v := by
  rw [Model.Local, h.local?_methodId hd hd' hm hn hx, show (m.method x).local? name = some v from hv] at hw
  exact (Option.some.inj hw).symm

end Method

theorem isVar_varId {v : VarId} (hv : m.IsVar v) (hmethod : m.IsMethod (m.var v).method) :
    n.IsVar (π.varId m n v) ∧ (n.var (π.varId m n v)).name = (m.var v).name ∧
      (n.var (π.varId m n v)).method = π.methodId m n (m.var v).method := by
  have hlocal := h.local?_methodId hd hd' hm hn hmethod (m.var v).name
  rw [hm.local?_eq_some_iff.2 ⟨hv, rfl, rfl⟩] at hlocal
  exact hn.local?_eq_some_iff.1 hlocal

/-! ### Statements -/

variable (hplaced : m.Placed)

include hplaced

/-- A statement that means the same at the place that it gets is the same in other numbers. -/
theorem eq_stmt {x : MethodId} (hx : m.IsMethod x) {k : Nat} {s : Stmt} {t t' : PointsTo.Stmt}
    (ht : (m.method x).body[k]? = some t)
    (ht' : (n.method (π.methodId m n x)).body[π.stmtsOf m x k]? = some t') (hs : m.Means x s t)
    (hs' : n.Means (π.methodId m n x) s t') : t' = (π.relabeling m n).stmt t := by
  have hvar := h.eq_varId hd hd' hm hn hx
  have hfield := h.eq_fieldId hd hd' hm hn
  cases hs with
  | @new _ _ i =>
    obtain ⟨-, hcontainer, hindex⟩ := hplaced.site_of_body ht
    cases hs' with
    | @new _ _ j =>
      show PointsTo.Stmt.new j = .new (π.siteId m n i)
      rw [Rearrangement.siteId, hcontainer, hindex, Rearrangement.stmtAt?, ht']
  | @invoke _ _ _ _ _ i =>
    obtain ⟨-, hcontainer, hindex⟩ := hplaced.call_of_body ht
    cases hs' with
    | @invoke _ _ _ _ _ j =>
      show PointsTo.Stmt.invoke j = .invoke (π.callId m n i)
      rw [Rearrangement.callId, hcontainer, hindex, Rearrangement.stmtAt?, ht']
  | copy hv hw => cases hs' with
    | copy hv' hw' => exact congrArg₂ PointsTo.Stmt.copy (hvar _ _ _ hv hv') (hvar _ _ _ hw hw')
  | loadField hv hw hf => cases hs' with
    | loadField hv' hw' hf' =>
      rw [hvar _ _ _ hv hv', hvar _ _ _ hw hw', hfield _ _ _ hf hf']
      rfl
  | storeField hv hf hw => cases hs' with
    | storeField hv' hf' hw' =>
      rw [hvar _ _ _ hv hv', hvar _ _ _ hw hw', hfield _ _ _ hf hf']
      rfl
  | loadStatic hv hf => cases hs' with
    | loadStatic hv' hf' =>
      exact congrArg₂ PointsTo.Stmt.loadStatic (hvar _ _ _ hv hv') (hfield _ _ _ hf hf')
  | storeStatic hf hv => cases hs' with
    | storeStatic hf' hv' =>
      exact congrArg₂ PointsTo.Stmt.storeStatic (hfield _ _ _ hf hf') (hvar _ _ _ hv hv')
  | loadArray hv hw => cases hs' with
    | loadArray hv' hw' => exact congrArg₂ PointsTo.Stmt.loadArray (hvar _ _ _ hv hv') (hvar _ _ _ hw hw')
  | storeArray hv hw => cases hs' with
    | storeArray hv' hw' => exact congrArg₂ PointsTo.Stmt.storeArray (hvar _ _ _ hv hv') (hvar _ _ _ hw hw')
  | ret hv => cases hs' with
    | ret hv' => exact congrArg PointsTo.Stmt.ret (eq_map_of_optionRel hvar hv hv')

theorem exists_stmt {x : MethodId} (hx : m.IsMethod x) {k : Nat} {t : PointsTo.Stmt}
    (ht : (m.method x).body[k]? = some t) :
    (n.method (π.methodId m n x)).body[π.stmtsOf m x k]? = some ((π.relabeling m n).stmt t) ∧
      ∃ s, m.Means x s t ∧ n.Means (π.methodId m n x) s ((π.relabeling m n).stmt t) := by
  obtain ⟨y, y', hmethod, hmeets, hmeets'⟩ := h.exists_method hd hd' hm hn hx
  have hrel := forall₂_iff_getElem?.1 hmeets.body k
  rw [Array.getElem?_toList, ht] at hrel
  obtain ⟨s, hs, hmeans⟩ := exists_of_optionRel (optionRel_symm hrel fun _ _ => id)
  obtain ⟨_, hs', rfl⟩ := hmethod.body.exists_get hs
  have hrel' := forall₂_iff_getElem?.1 hmeets'.body (π.stmtsOf m x k)
  rw [hs', Array.getElem?_toList] at hrel'
  obtain ⟨t', ht', hmeans'⟩ := exists_of_optionRel hrel'
  obtain rfl := h.eq_stmt hd hd' hm hn hplaced hx ht ht' hmeans hmeans'
  exact ⟨ht', s, hmeans, hmeans'⟩

theorem getElem?_body {x : MethodId} (hx : m.IsMethod x) (k : Nat) :
    (n.method (π.methodId m n x)).body[π.stmtsOf m x k]? =
      ((m.method x).body[k]?).map (π.relabeling m n).stmt := by
  cases ht : (m.method x).body[k]? with
  | some t => exact (h.exists_stmt hd hd' hm hn hplaced hx ht).1
  | none =>
    obtain ⟨y, y', hmethod, hmeets, hmeets'⟩ := h.exists_method hd hd' hm hn hx
    have hsome := isSome_of_optionRel (forall₂_iff_getElem?.1 hmeets.body k)
    have hsome' := isSome_of_optionRel (forall₂_iff_getElem?.1 hmeets'.body (π.stmtsOf m x k))
    rw [isSome_of_optionRel (hmethod.body k), ← hsome, Array.getElem?_toList, Array.getElem?_toList, ht,
      Option.isSome_none, Option.isSome_eq_false_iff, Option.isNone_iff_eq_none] at hsome'
    exact hsome'

end Rearranged

end Description

/-! ### Models that are assembled -/

namespace Description.Rearranged

variable {π : Rearrangement} {d d' : Description} (h : d.Rearranged π d') {b b' : Builder}
  (hb : b.Reached) (hb' : b'.Reached) (hd : b.Realizes d) (hd' : b'.Realizes d')

include h hb hb' hd hd'

theorem keepsSite {i : SiteId} (hi : b.IsSite i) : b'.IsSite (π.siteId b.toModel b'.toModel i) ∧
    (π.relabeling b.toModel b'.toModel).KeepsSite (π.stmtsOf b.toModel) (b.site i)
      (b'.site (π.siteId b.toModel b'.toModel i)) := by
  have hm := Builder.registered_of_reached hb
  have hn := Builder.registered_of_reached hb'
  have hplaced := Builder.placed_of_reached hb
  have hbody := hplaced.body_of_site hi
  have hx := Model.isMethod_of_mem_body (Array.mem_of_getElem? hbody)
  obtain ⟨hbody', s, hmeans, hmeans'⟩ := h.exists_stmt hd hd' hm hn hplaced hx hbody
  obtain ⟨hsite, hcontainer, hindex⟩ := (Builder.placed_of_reached hb').site_of_body hbody'
  cases hmeans with
  | new _ hlhs hcls => cases hmeans' with
    | new _ hlhs' hcls' =>
      have hvar := h.eq_varId hd hd' hm hn hx _ _ _ hlhs hlhs'
      have hclass := h.eq_classId hd.toDeclares hd'.toDeclares hm hn _ _ _ hcls hcls'
      exact ⟨hsite, hvar, hclass, hcontainer, hindex⟩

theorem keepsCall {i : CallId} (hi : b.IsCall i) : b'.IsCall (π.callId b.toModel b'.toModel i) ∧
    (π.relabeling b.toModel b'.toModel).KeepsCall (π.stmtsOf b.toModel) (b.call i)
      (b'.call (π.callId b.toModel b'.toModel i)) := by
  have hm := Builder.registered_of_reached hb
  have hn := Builder.registered_of_reached hb'
  have hplaced := Builder.placed_of_reached hb
  have hbody := hplaced.body_of_call hi
  have hx := Model.isMethod_of_mem_body (Array.mem_of_getElem? hbody)
  obtain ⟨hbody', s, hmeans, hmeans'⟩ := h.exists_stmt hd hd' hm hn hplaced hx hbody
  obtain ⟨hcall, hcontainer, hindex⟩ := (Builder.placed_of_reached hb').call_of_body hbody'
  have hvar := h.eq_varId hd hd' hm hn hx
  cases hmeans with
  | invoke _ hkind hmethod hreceiver hargs hresult => cases hmeans' with
    | invoke _ hkind' hmethod' hreceiver' hargs' hresult' =>
      obtain ⟨hclass, htext⟩ := h.eq_member hd hd' hm hn hmethod hmethod'
      exact ⟨hcall, hkind'.trans hkind.symm, hclass, congrArg Subsignature.mk htext,
        eq_map_of_optionRel hvar hreceiver hreceiver', eq_map_of_forall₂ hvar hargs hargs',
        eq_map_of_optionRel hvar hresult hresult', hcontainer, hindex⟩

theorem keepsBodies : (π.relabeling b.toModel b'.toModel).KeepsBodies (π.stmtsOf b.toModel) b.toModel
    b'.toModel := by
  have hm := Builder.registered_of_reached hb
  have hn := Builder.registered_of_reached hb'
  have hscoped := Builder.scoped_of_reached hb
  constructor
  case toKeepsMethods => exact h.keepsMethods hd hd' hm hn
  case field =>
    exact fun f hf => ⟨(h.isField_fieldId hd hd' hm hn hf).1, h.isStatic_fieldId hd hd' hm hn hf⟩
  case method =>
    intro x hx
    obtain ⟨hmethod, -, howner⟩ := h.isMethod_methodId hd hd' hm hn hx
    exact ⟨hmethod, howner⟩
  case var =>
    intro v hv
    obtain ⟨hvar, -, hmethod⟩ := h.isVar_varId hd hd' hm hn hv (hscoped.var hv)
    exact ⟨hvar, hmethod⟩
  case this =>
    intro x hx
    obtain ⟨y, y', hmethod, hmeets, hmeets'⟩ := h.exists_method hd hd' hm hn hx
    have hthis : y'.this? = y.this? := by
      rw [Description.Method.this?, hmethod.isStatic]
      rfl
    exact eq_map_of_optionRel (h.eq_varId hd hd' hm hn hx) hmeets.signs.this (hthis ▸ hmeets'.signs.this)
  case params =>
    intro x hx
    obtain ⟨y, y', hmethod, hmeets, hmeets'⟩ := h.exists_method hd hd' hm hn hx
    exact eq_map_of_forall₂ (h.eq_varId hd hd' hm hn hx) hmeets.signs.params
      (hmethod.params ▸ hmeets'.signs.params)
  case body => exact fun x hx => h.getElem?_body hd hd' hm hn (Builder.placed_of_reached hb) hx
  case site => exact fun i hi => h.keepsSite hb hb' hd hd' hi
  case call => exact fun i hi => h.keepsCall hb hb' hd hd' hi

/-! ### The way back -/

omit h hb hb' hd hd' in
theorem classId_symm (π : Rearrangement) (c : ClassId) : π.symm.classId (π.classId c) = c :=
  Id.ext (π.cls.symm_apply_apply c.index)

theorem methodId_symm {x : MethodId} (hx : b.IsMethod x) :
    π.symm.methodId b'.toModel b.toModel (π.methodId b.toModel b'.toModel x) = x := by
  have hm := Builder.registered_of_reached hb
  have hn := Builder.registered_of_reached hb'
  obtain ⟨-, hsubsignature, howner⟩ := h.isMethod_methodId hd hd' hm hn hx
  rw [Rearrangement.methodId, hsubsignature, howner, classId_symm,
    hm.declaredMethod?_eq_some_iff.2 ⟨hx, rfl, rfl⟩]
  rfl

theorem stmtsOf_symm {x : MethodId} (hx : b.IsMethod x) :
    π.symm.stmtsOf b'.toModel (π.methodId b.toModel b'.toModel x) = (π.stmtsOf b.toModel x).symm := by
  have hm := Builder.registered_of_reached hb
  have hn := Builder.registered_of_reached hb'
  obtain ⟨-, -, howner⟩ := h.isMethod_methodId hd hd' hm hn hx
  have hentry := (hm.methods.mem_iff (b.method x).owner (b.method x).subsignature x).2
    (Model.methodKey?_eq_some_iff.2 ⟨hx, rfl, rfl⟩)
  obtain ⟨k, hk⟩ := Array.mem_iff_getElem?.1 hentry
  have hplace := hn.placeOf_eq (h.exists_entry hd hd' hm hn hk).1
  rw [Rearrangement.stmtsOf, Rearrangement.stmtsOf, howner, hplace, hm.placeOf_eq hk]
  show ((π.members (π.cls.symm (π.cls (b.method x).owner.index))).stmt
    ((π.members (π.cls.symm (π.cls (b.method x).owner.index))).method.symm _)).symm = _
  rw [Equiv.symm_apply_apply, Equiv.symm_apply_apply]

theorem stmtAt?_symm {x : MethodId} (hx : b.IsMethod x) (k : Nat) :
    π.symm.stmtAt? b'.toModel b.toModel (π.methodId b.toModel b'.toModel x) (π.stmtsOf b.toModel x k) =
      (b.method x).body[k]? := by
  rw [Rearrangement.stmtAt?, h.methodId_symm hb hb' hd hd' hx, h.stmtsOf_symm hb hb' hd hd' hx,
    Equiv.symm_apply_apply]

theorem undoneBy : (π.relabeling b.toModel b'.toModel).UndoneBy
    (π.symm.relabeling b'.toModel b.toModel) b.toModel := by
  have hm := Builder.registered_of_reached hb
  have hn := Builder.registered_of_reached hb'
  have hplaced := Builder.placed_of_reached hb
  have hscoped := Builder.scoped_of_reached hb
  constructor
  case cls => exact classId_symm π
  case field =>
    intro f hf
    obtain ⟨-, hname, howner⟩ := h.isField_fieldId hd hd' hm hn hf
    show π.symm.fieldId b'.toModel b.toModel (π.fieldId b.toModel b'.toModel f) = f
    rw [Rearrangement.fieldId, hname, howner, classId_symm,
      hm.declaredField?_eq_some_iff.2 ⟨hf, rfl, rfl⟩]
    rfl
  case method => exact fun x hx => h.methodId_symm hb hb' hd hd' hx
  case var =>
    intro v hv
    have hx := hscoped.var hv
    obtain ⟨-, hname, hmethod⟩ := h.isVar_varId hd hd' hm hn hv hx
    show π.symm.varId b'.toModel b.toModel (π.varId b.toModel b'.toModel v) = v
    rw [Rearrangement.varId, hname, hmethod, h.methodId_symm hb hb' hd hd' hx,
      hm.local?_eq_some_iff.2 ⟨hv, rfl, rfl⟩]
    rfl
  case site =>
    intro i hi
    obtain ⟨-, -, -, hcontainer, hindex⟩ := h.keepsSite hb hb' hd hd' hi
    have hstmt := h.stmtAt?_symm hb hb' hd hd' (hscoped.site hi).container (b.site i).index
    rw [hplaced.body_of_site hi] at hstmt
    show π.symm.siteId b'.toModel b.toModel (π.siteId b.toModel b'.toModel i) = i
    rw [Rearrangement.siteId, hcontainer, hindex]
    exact hstmt ▸ rfl
  case call =>
    intro i hi
    obtain ⟨-, -, -, -, -, -, -, hcontainer, hindex⟩ := h.keepsCall hb hb' hd hd' hi
    have hstmt := h.stmtAt?_symm hb hb' hd hd' (hscoped.call hi).container (b.call i).index
    rw [hplaced.body_of_call hi] at hstmt
    show π.symm.callId b'.toModel b.toModel (π.callId b.toModel b'.toModel i) = i
    rw [Rearrangement.callId, hcontainer, hindex]
    exact hstmt ▸ rfl

theorem undoes : (π.symm.relabeling b'.toModel b.toModel).UndoneBy
    (π.relabeling b.toModel b'.toModel) b'.toModel := by
  have hundone := h.symm.undoneBy hb' hb hd' hd
  rwa [Rearrangement.symm_symm] at hundone

end Description.Rearranged

end PointsTo
