import PointsTo.Program.Text
import PointsTo.Proofs.Program.Callees

/-! Described programs. Each pass over a description asks a builder for what it allows only: a name is
looked up before it is spoken of, and a builder keeps whatever it has declared. A program that is read
from a description is therefore accepted like one that is assembled step by step. -/

namespace PointsTo

section Except

variable {ε α β : Type} {e : Except ε α}

theorem bind_eq_ok_iff {f : α → Except ε β} {y : β} :
    e >>= f = .ok y ↔ ∃ x, e = .ok x ∧ f x = .ok y := by
  cases e <;> simp [bind, Except.bind]

theorem exists_of_bind_eq_ok {f : α → Except ε β} {y : β} (h : e >>= f = .ok y) :
    ∃ x, e = .ok x ∧ f x = .ok y := bind_eq_ok_iff.1 h

theorem exists_of_map_eq_ok {f : α → β} {y : β} (h : e.map f = .ok y) : ∃ x, e = .ok x ∧ f x = y := by
  cases e with
  | error _ => cases h
  | ok x => exact ⟨x, rfl, Except.ok.inj h⟩

/-- What each step of a fold keeps, a fold that succeeds keeps. -/
theorem of_foldlM_eq_ok {f : β → α → Except ε β} {l : List α} (motive : β → Prop)
    (hstep : ∀ b, motive b → ∀ a ∈ l, ∀ c, f b a = .ok c → motive c) {b c : β} (hb : motive b)
    (h : l.foldlM f b = .ok c) : motive c := by
  induction l generalizing b with
  | nil =>
    obtain rfl := Except.ok.inj h
    exact hb
  | cons a l ih =>
    obtain ⟨d, hd, hrest⟩ := exists_of_bind_eq_ok h
    apply ih (fun b hb a ha => hstep b hb a (List.mem_cons_of_mem _ ha)) _ hrest
    exact hstep b hb a List.mem_cons_self d hd

end Except

namespace Builder

/-- The second builder is reached, and declares all that the first does. -/
structure Leads (b u : Builder) : Prop where
  reached : u.Reached
  fits : b.Fits u.toModel

variable {b u w : Builder}

namespace Leads

theorem refl (hb : b.Reached) : b.Leads b := ⟨hb, .refl _⟩

theorem trans (h : b.Leads u) (h' : u.Leads w) : b.Leads w := ⟨h'.reached, h.fits.trans h'.fits⟩

end Leads

/-! ### Commands -/

theorem fits_modifyClass (b : Builder) (c : ClassId) (change : Class → Class) :
    b.Fits (b.modifyClass c change).toModel :=
  { Model.Fits.refl b.toModel with classes := Nat.le_of_eq Array.size_modify.symm }

theorem fits_modifyMethod (b : Builder) (x : MethodId) (change : Method → Method) :
    b.Fits (b.modifyMethod x change).toModel :=
  { Model.Fits.refl b.toModel with methods := Nat.le_of_eq Array.size_modify.symm }

theorem fits_addParams (hb : b.Scoped) {x : MethodId} (hx : b.IsMethod x) (params : List String) :
    b.Fits (params.foldl (fun b name => b.addParam x name) b).toModel := by
  induction params generalizing b with
  | nil => exact .refl _
  | cons name params ih =>
    obtain ⟨hfits, hscoped⟩ := scoped_addParam hb hx name
    exact hfits.trans (ih hscoped (hfits.isMethod hx))

theorem fits_addMethod (hb : b.Scoped) {c : ClassId} (hc : b.IsClass c) {s : Subsignature}
    {isStatic isAbstract : Bool} {params : List String} {x : MethodId}
    (h : b.addMethod c s isStatic isAbstract params = .ok (x, u)) :
    b.Fits u.toModel ∧ u.IsMethod x := by
  rw [addMethod] at h
  split at h
  · cases h
  · obtain ⟨rfl, rfl⟩ := Prod.mk.inj (Except.ok.inj h)
    obtain ⟨hdeclared, hid⟩ := scoped_declare hb hc s isStatic isAbstract
    have hfits : b.Fits (b.declare c s isStatic isAbstract).toModel :=
      (fits_modifyClass b c _).trans
        { Model.Fits.refl _ with methods := by simp [declare, modifyClass] }
    cases isStatic with
    | true =>
      have hparams := fits_addParams hdeclared hid params
      exact ⟨hfits.trans hparams, hparams.isMethod hid⟩
    | false =>
      obtain ⟨hthis, hscoped⟩ := scoped_addThis hdeclared hid
      have hparams := hthis.trans (fits_addParams hscoped (hthis.isMethod hid) params)
      exact ⟨hfits.trans hparams, hparams.isMethod hid⟩

theorem fits_perform (hb : b.Scoped) {c : Command} (hc : c.Allowed b) :
    b.Fits (c.perform b).toModel := by
  cases c with
  | addClass name kind superclass =>
    rw [Command.perform, Builder.addClass]
    split
    · exact .refl _
    · exact { Model.Fits.refl b.toModel with classes := by simp [after] }
  | setSuperclass | addInterface | setAbstract => exact fits_modifyClass _ _ _
  | addField c name isStatic =>
    rw [Command.perform, Builder.addField]
    split
    · exact .refl _
    · exact (fits_modifyClass b c _).trans
        { Model.Fits.refl _ with fields := by simp [after, modifyClass] }
  | addMethod c s isStatic isAbstract params =>
    rw [Command.perform]
    cases h : b.addMethod c s isStatic isAbstract params with
    | error e => exact .refl _
    | ok next => exact (fits_addMethod hb hc h).1
  | var x name => exact (scoped_var hb hc name).1
  | push x s => exact fits_modifyMethod _ _ _
  | pushNew x lhs c =>
    have hsite : b.Fits { b.toModel with sites := b.sites.push ⟨lhs, c, x, (b.method x).body.size⟩ } :=
      { Model.Fits.refl b.toModel with sites := by simp }
    exact hsite.trans (fits_modifyMethod { b with sites := _ } _ _)
  | pushCall x kind cls s receiver args result =>
    have hcall : b.Fits { b.toModel with
        calls := b.calls.push ⟨kind, cls, s, receiver, args, result, x, (b.method x).body.size⟩ } :=
      { Model.Fits.refl b.toModel with calls := by simp }
    exact hcall.trans (fits_modifyMethod { b with calls := _ } _ _)
  | pushReturn x returned =>
    cases returned with
    | none => exact fits_modifyMethod _ _ _
    | some v =>
      rw [Command.perform, pushReturn, push]
      exact (fits_modifyMethod b x _).trans (fits_modifyMethod _ _ _)
  | setEntry x => exact .refl _

theorem leads_perform (hb : b.Reached) (c : Command) (hc : c.Allowed b) : b.Leads (c.perform b) :=
  ⟨hb.step c hc, fits_perform (scoped_of_reached hb) hc⟩

/-- A command that is not refused. -/
theorem leads_of_eq_ok {α : Type} (hb : b.Reached) (c : Command) (hc : c.Allowed b)
    {e : Except ProgramError (α × Builder)} (hperform : c.perform b = b.after e) {x : α}
    (h : e = .ok (x, u)) : b.Leads u := by
  have hleads := leads_perform hb c hc
  rwa [hperform, h] at hleads

/-! ### Lookups -/

theorem isClass_of_findClass {name : String} {c : ClassId} (h : b.findClass name = .ok c) :
    b.IsClass c := by
  rw [findClass, Model.classNamed?] at h
  cases hfound : b.classes.findIdx? (·.name == name) with
  | none =>
    rw [hfound] at h
    cases h
  | some i =>
    rw [hfound] at h
    obtain rfl := Except.ok.inj h
    exact (Array.findIdx?_eq_some_iff_getElem.1 hfound).1

theorem isClass_of_findMember {text : String} {c : ClassId} {member : String}
    (h : b.findMember text = .ok (c, member)) : b.IsClass c := by
  rw [findMember] at h
  split at h
  · cases h
  · obtain ⟨d, hd, heq⟩ := exists_of_map_eq_ok h
    obtain ⟨rfl, -⟩ := Prod.mk.inj heq
    exact isClass_of_findClass hd

theorem isField_of_findField (hb : b.Scoped) {text : String} {f : FieldId}
    (h : b.findField text = .ok f) : b.IsField f := by
  obtain ⟨⟨c, name⟩, -, h⟩ := exists_of_bind_eq_ok h
  cases hresolved : b.resolveField? c name with
  | none =>
    simp only [hresolved] at h
    cases h
  | some g =>
    simp only [hresolved] at h
    obtain rfl := Except.ok.inj h
    obtain ⟨d, -, hd⟩ := List.exists_of_findSome?_eq_some hresolved
    obtain ⟨e, he, rfl⟩ := Option.map_eq_some_iff.1 hd
    have hmem := Array.mem_of_find?_eq_some he
    by_cases hclass : b.IsClass d
    · exact (hb.cls hclass).fields e hmem
    · rw [Model.cls_eq_default hclass] at hmem
      exact absurd hmem (Array.not_mem_empty e)

/-! ### Bodies -/

section Bodies

variable (hb : b.Reached) {x : MethodId} (hx : b.IsMethod x)

include hb hx

theorem leads_var (name : String) :
    b.Leads (b.var x name).2 ∧ (b.var x name).2.IsVar (b.var x name).1 :=
  ⟨leads_perform hb (.var x name) hx, (scoped_var (scoped_of_reached hb) hx name).2.2⟩

theorem leads_vars? (name : Option String) :
    b.Leads (b.vars? x name).2 ∧ ∀ v ∈ (b.vars? x name).1, (b.vars? x name).2.IsVar v := by
  cases name with
  | none => exact ⟨.refl hb, fun v hv => by cases hv⟩
  | some name =>
    obtain ⟨hleads, hv⟩ := leads_var hb hx name
    refine ⟨hleads, fun w hw => ?_⟩
    obtain rfl := Option.some.inj hw
    exact hv

theorem leads_varList (names : List String) :
    b.Leads (varList x names b).2 ∧ ∀ v ∈ (varList x names b).1, (varList x names b).2.IsVar v := by
  induction names generalizing b with
  | nil => exact ⟨.refl hb, fun v hv => absurd hv List.not_mem_nil⟩
  | cons name names ih =>
    obtain ⟨hleads, hv⟩ := leads_var hb hx name
    obtain ⟨hrest, hvs⟩ := ih hleads.reached (hleads.fits.isMethod hx)
    refine ⟨hleads.trans hrest, fun w hw => ?_⟩
    rcases List.mem_cons.1 hw with rfl | hw
    · exact hrest.fits.isVar hv
    · exact hvs w hw

/-- Two variables, and a statement that moves references between them. -/
theorem leads_move {first second : String} {s : VarId → VarId → Stmt}
    (hmove : ∀ v w, (s v w).isMove = true)
    (hknows : ∀ m : Model, b.Fits m → ∀ v w, m.IsVar v → m.IsVar w → m.KnowsStmt (s v w)) :
    b.Leads ((((b.var x first).2.var x second).2).push x
      (s (b.var x first).1 ((b.var x first).2.var x second).1)) := by
  obtain ⟨hfirst, hv⟩ := leads_var hb hx first
  obtain ⟨hsecond, hw⟩ := leads_var hfirst.reached (hfirst.fits.isMethod hx) second
  have hboth := hfirst.trans hsecond
  refine hboth.trans (leads_perform hboth.reached (.push x _) ⟨hboth.fits.isMethod hx, hmove _ _, ?_⟩)
  exact hknows _ hboth.fits _ _ (hsecond.fits.isVar hv) hw

/-- The same with one variable. -/
theorem leads_access {name : String} {s : VarId → Stmt} (hmove : ∀ v, (s v).isMove = true)
    (hknows : ∀ m : Model, b.Fits m → ∀ v, m.IsVar v → m.KnowsStmt (s v)) :
    b.Leads ((b.var x name).2.push x (s (b.var x name).1)) := by
  obtain ⟨hvar, hv⟩ := leads_var hb hx name
  refine hvar.trans (leads_perform hvar.reached (.push x _) ⟨hvar.fits.isMethod hx, hmove _, ?_⟩)
  exact hknows _ hvar.fits _ hv

theorem leads_addStmt {s : Description.Stmt} (h : b.addStmt x s = .ok u) : b.Leads u := by
  have hfield : ∀ {text f}, b.findField text = .ok f → b.IsField f :=
    isField_of_findField (scoped_of_reached hb)
  cases s with
  | new lhs cls =>
    obtain ⟨c, hc, h⟩ := exists_of_bind_eq_ok h
    simp only [pure, Except.pure, Except.ok.injEq] at h
    subst h
    obtain ⟨hvar, hv⟩ := leads_var hb hx lhs
    exact hvar.trans (leads_perform hvar.reached (.pushNew x _ c)
      ⟨hvar.fits.isMethod hx, hv, hvar.fits.isClass (isClass_of_findClass hc)⟩)
  | copy lhs rhs =>
    simp only [addStmt, pure, Except.pure, Except.ok.injEq] at h
    subst h
    exact leads_move hb hx (s := fun v w => .copy v w) (fun _ _ => rfl) fun _ _ _ _ hv hw => ⟨hv, hw⟩
  | loadArray lhs base =>
    simp only [addStmt, pure, Except.pure, Except.ok.injEq] at h
    subst h
    exact leads_move hb hx (s := fun v w => .loadArray v w) (fun _ _ => rfl)
      fun _ _ _ _ hv hw => ⟨hv, hw⟩
  | storeArray base rhs =>
    simp only [addStmt, pure, Except.pure, Except.ok.injEq] at h
    subst h
    exact leads_move hb hx (s := fun v w => .storeArray v w) (fun _ _ => rfl)
      fun _ _ _ _ hv hw => ⟨hv, hw⟩
  | loadField lhs base field =>
    obtain ⟨f, hf, h⟩ := exists_of_bind_eq_ok h
    simp only [pure, Except.pure, Except.ok.injEq] at h
    subst h
    exact leads_move hb hx (s := fun v w => .loadField v w f) (fun _ _ => rfl)
      fun _ hfits _ _ hv hw => ⟨hv, hw, hfits.isField (hfield hf)⟩
  | storeField base field rhs =>
    obtain ⟨f, hf, h⟩ := exists_of_bind_eq_ok h
    simp only [pure, Except.pure, Except.ok.injEq] at h
    subst h
    exact leads_move hb hx (s := fun v w => .storeField v f w) (fun _ _ => rfl)
      fun _ hfits _ _ hv hw => ⟨hv, hfits.isField (hfield hf), hw⟩
  | loadStatic lhs field =>
    obtain ⟨f, hf, h⟩ := exists_of_bind_eq_ok h
    simp only [pure, Except.pure, Except.ok.injEq] at h
    subst h
    exact leads_access hb hx (s := fun v => .loadStatic v f) (fun _ => rfl)
      fun _ hfits _ hv => ⟨hv, hfits.isField (hfield hf)⟩
  | storeStatic field rhs =>
    obtain ⟨f, hf, h⟩ := exists_of_bind_eq_ok h
    simp only [pure, Except.pure, Except.ok.injEq] at h
    subst h
    exact leads_access hb hx (s := fun v => .storeStatic f v) (fun _ => rfl)
      fun _ hfits _ hv => ⟨hfits.isField (hfield hf), hv⟩
  | invoke kind method receiver args result =>
    obtain ⟨⟨c, s⟩, hc, h⟩ := exists_of_bind_eq_ok h
    simp only [pure, Except.pure, Except.ok.injEq] at h
    subst h
    have hclass := isClass_of_findMember hc
    obtain ⟨hreceiver, hv⟩ := leads_vars? hb hx receiver
    obtain ⟨hargs, hvs⟩ := leads_varList hreceiver.reached (hreceiver.fits.isMethod hx) args
    have hboth := hreceiver.trans hargs
    obtain ⟨hresult, hr⟩ := leads_vars? hboth.reached (hboth.fits.isMethod hx) result
    have hall := hboth.trans hresult
    refine hall.trans (leads_perform hall.reached (.pushCall x kind c ⟨s⟩ _ _ _)
      ⟨hall.fits.isMethod hx, hall.fits.isClass hclass, fun v hmem => ?_, fun v hmem => ?_, hr⟩)
    · exact (hargs.trans hresult).fits.isVar (hv v hmem)
    · exact hresult.fits.isVar (hvs v hmem)
  | ret var =>
    simp only [addStmt, pure, Except.pure, Except.ok.injEq] at h
    subst h
    obtain ⟨hvar, hv⟩ := leads_vars? hb hx var
    exact hvar.trans (leads_perform hvar.reached (.pushReturn x _) ⟨hvar.fits.isMethod hx, hv⟩)

theorem leads_addBody {body : List Description.Stmt}
    (h : body.foldlM (fun b s => b.addStmt x s) b = .ok u) : b.Leads u := by
  refine of_foldlM_eq_ok b.Leads (fun w hw s _ v hv => ?_) (.refl hb) h
  exact hw.trans (leads_addStmt hw.reached (hw.fits.isMethod hx) hv)

end Bodies

/-- The pass that writes bodies to methods. -/
def writeBodies (b : Builder) (bodies : List (MethodId × List Description.Stmt)) :
    Except ProgramError Builder :=
  bodies.foldlM (fun b (x, body) => body.foldlM (fun b s => b.addStmt x s) b) b

/-! ### Declarations -/

section Declarations

variable (hb : b.Reached) {c : ClassId} (hc : b.IsClass c)

include hb hc

theorem leads_addHeader {d : Description.Class} (h : b.addHeader c d = .ok u) : b.Leads u := by
  have hfirst := leads_perform hb (.setAbstract c (d.isAbstract || d.kind == .interface)) hc
  -- interfaces and fields come after the superclass, if there is one
  have hrest : ∀ w, b.Leads w →
      (d.interfaces.foldlM (fun b name => (b.findClass name).map fun i => b.addInterface c i) w >>=
        d.fields.foldlM fun b f => (b.addField c f.name f.isStatic).map (·.2)) = .ok u →
      b.Leads u := by
    intro w hw h
    obtain ⟨v, hinterfaces, hfields⟩ := exists_of_bind_eq_ok h
    have hv : b.Leads v := by
      refine of_foldlM_eq_ok b.Leads (fun w hw name _ v hv => ?_) hw hinterfaces
      obtain ⟨i, hi, rfl⟩ := exists_of_map_eq_ok hv
      exact hw.trans (leads_perform hw.reached (.addInterface c i)
        ⟨hw.fits.isClass hc, isClass_of_findClass hi⟩)
    refine of_foldlM_eq_ok b.Leads (fun w hw f _ v hv => ?_) hv hfields
    obtain ⟨⟨id, _⟩, hadd, rfl⟩ := exists_of_map_eq_ok hv
    exact hw.trans
      (leads_of_eq_ok hw.reached (.addField c f.name f.isStatic) (hw.fits.isClass hc) rfl hadd)
  rw [addHeader] at h
  split at h
  · exact hrest _ hfirst h
  · obtain ⟨w, hw, h⟩ := exists_of_bind_eq_ok h
    obtain ⟨s, hs, rfl⟩ := exists_of_map_eq_ok hw
    refine hrest _ (hfirst.trans (leads_perform hfirst.reached (.setSuperclass c (some s))
      ⟨hfirst.fits.isClass hc, fun t ht => ?_⟩)) h
    obtain rfl := Option.some.inj ht
    exact isClass_of_findClass hs

end Declarations

/-- The builder after some methods have been declared, whose bodies wait. -/
structure LeadsWith (b : Builder) (state : List (MethodId × List Description.Stmt) × Builder) :
    Prop extends Leads b state.2 where
  methods : ∀ e ∈ state.1, state.2.IsMethod e.1

theorem LeadsWith.addMethodOf {state next : List (MethodId × List Description.Stmt) × Builder}
    (hs : b.LeadsWith state) {c : ClassId} (hc : b.IsClass c) {d : Description.Method}
    (h : addMethodOf c state d = .ok next) : b.LeadsWith next := by
  obtain ⟨⟨x, u⟩, hadd, h⟩ := exists_of_bind_eq_ok h
  obtain rfl := Except.ok.inj h
  have hclass := hs.fits.isClass hc
  obtain ⟨hfits, hx⟩ := fits_addMethod (scoped_of_reached hs.reached) hclass hadd
  have hleads := leads_of_eq_ok hs.reached (.addMethod c ⟨d.signature⟩ d.isStatic d.isAbstract d.params)
    hclass rfl hadd
  refine ⟨hs.toLeads.trans hleads, fun e he => ?_⟩
  rcases List.mem_cons.1 he with rfl | he
  · exact hx
  · exact hfits.isMethod (hs.methods e he)

theorem reached_setEntryNamed (hb : b.Reached) {text : String} (h : b.setEntryNamed text = .ok u) :
    u.Reached := by
  obtain ⟨⟨c, s⟩, -, h⟩ := exists_of_bind_eq_ok h
  cases hdeclared : (b.cls c).declaredMethod? ⟨s⟩ with
  | none =>
    simp only [hdeclared] at h
    cases h
  | some x =>
    simp only [hdeclared] at h
    obtain rfl := Except.ok.inj h
    exact hb.step (.setEntry x) (Model.isMethod_of_declaredMethod? (scoped_of_reached hb) hdeclared)

end Builder

namespace Description

open Builder

variable {d : Description} {b : Builder}

/-- A class is added for each class that is described. -/
theorem reached_declareClasses (h : d.declareClasses = .ok b) :
    b.Reached ∧ b.classes.size = d.classes.length := by
  suffices hfold : ∀ (l : List Class) (u : Builder), u.Reached →
      l.foldlM (fun b c => (b.addClass c.name c.kind none).map (·.2)) u = .ok b →
      b.Reached ∧ b.classes.size = u.classes.size + l.length by
    simpa [empty] using hfold d.classes .empty .empty h
  intro l
  induction l with
  | nil =>
    intro u hu h
    obtain rfl := Except.ok.inj h
    exact ⟨hu, rfl⟩
  | cons c l ih =>
    intro u hu h
    obtain ⟨w, hw, hrest⟩ := exists_of_bind_eq_ok h
    obtain ⟨⟨id, _⟩, hadd, rfl⟩ := exists_of_map_eq_ok hw
    have hleads := leads_of_eq_ok hu (.addClass c.name c.kind none) (fun _ hd => by cases hd) rfl hadd
    obtain ⟨hreached, hsize⟩ := ih _ hleads.reached hrest
    refine ⟨hreached, ?_⟩
    rw [addClass] at hadd
    split at hadd
    · cases hadd
    · obtain ⟨-, rfl⟩ := Prod.mk.inj (Except.ok.inj hadd)
      rw [hsize, Array.size_push, List.length_cons]
      omega

theorem isClass_of_mem_numberedClasses (hb : b.classes.size = d.classes.length) {e : ClassId × Class}
    (he : e ∈ d.numberedClasses) : b.IsClass e.1 := by
  obtain ⟨⟨c, i⟩, hmem, rfl⟩ := List.mem_map.1 he
  have hlt := List.snd_lt_of_mem_zipIdx hmem
  show i < b.classes.size
  omega

/-- The passes that declare classes and methods. -/
theorem leadsWith_of_passes {b₁ b₂ : Builder} {state : List (MethodId × List Stmt) × Builder}
    (h₁ : d.declareClasses = .ok b₁)
    (h₂ : d.numberedClasses.foldlM (fun b (c, desc) => b.addHeader c desc) b₁ = .ok b₂)
    (h₃ : d.numberedClasses.foldlM (fun s (c, desc) => desc.methods.foldlM (addMethodOf c) s) ([], b₂) =
      .ok state) : b₁.Leads b₂ ∧ b₁.LeadsWith state := by
  obtain ⟨hdeclared, hsize⟩ := reached_declareClasses h₁
  have hclass : ∀ e ∈ d.numberedClasses, b₁.IsClass e.1 := fun _ =>
    isClass_of_mem_numberedClasses hsize
  have hheaders : b₁.Leads b₂ := by
    refine of_foldlM_eq_ok b₁.Leads (fun u hu e he w hw => ?_) (.refl hdeclared) h₂
    exact hu.trans (leads_addHeader hu.reached (hu.fits.isClass (hclass e he)) hw)
  refine ⟨hheaders, ?_⟩
  refine of_foldlM_eq_ok b₁.LeadsWith (fun state hs e he next hnext => ?_)
    ⟨hheaders, fun _ he => absurd he List.not_mem_nil⟩ h₃
  refine of_foldlM_eq_ok b₁.LeadsWith (fun state hs m _ next hnext => ?_) hs hnext
  exact hs.addMethodOf (hclass e he) hnext

theorem leads_of_body_pass {b₁ b₃ b₄ : Builder} {bodies : List (MethodId × List Stmt)}
    (hmethods : b₁.LeadsWith (bodies, b₃))
    (h₄ : b₃.writeBodies bodies.reverse = .ok b₄) : b₃.Leads b₄ := by
  refine of_foldlM_eq_ok b₃.Leads (fun u hu e he w hw => ?_) (.refl hmethods.reached) h₄
  have hx := hmethods.methods e (List.mem_reverse.1 he)
  exact hu.trans (leads_addBody hu.reached (hu.fits.isMethod hx) hw)

/-- The passes one after the other, with the bodies in the order of their methods. -/
theorem toBuilder_eq_ok_iff : d.toBuilder = .ok b ↔
    ∃ b₁, d.declareClasses = .ok b₁ ∧
    ∃ b₂, d.numberedClasses.foldlM (fun b (c, desc) => b.addHeader c desc) b₁ = .ok b₂ ∧
    ∃ bodies b₃, d.numberedClasses.foldlM
      (fun s (c, desc) => desc.methods.foldlM (addMethodOf c) s) ([], b₂) = .ok (bodies, b₃) ∧
    ∃ b₄, b₃.writeBodies bodies.reverse = .ok b₄ ∧ b₄.setEntryNamed d.entry = .ok b := by
  simp only [toBuilder, bind_eq_ok_iff, Prod.exists, writeBodies]

theorem reached_toBuilder (h : d.toBuilder = .ok b) : b.Reached := by
  obtain ⟨b₁, h₁, b₂, h₂, bodies, b₃, h₃, b₄, h₄, hentry⟩ := toBuilder_eq_ok_iff.1 h
  obtain ⟨-, hmethods⟩ := leadsWith_of_passes h₁ h₂ h₃
  exact reached_setEntryNamed (leads_of_body_pass hmethods h₄).reached hentry

theorem accepted_toProgram {p : Program} (h : d.toProgram = .ok p) : p.Accepted := by
  obtain ⟨b, hb, hbuild⟩ := exists_of_bind_eq_ok h
  exact ⟨b, reached_toBuilder hb, hbuild⟩

end Description

/-- A program that is read from text is accepted. -/
theorem Program.accepted_ofBytes {bytes : List UInt8} {p : Program} (h : Program.ofBytes bytes = .ok p) :
    p.Accepted := by
  rw [ofBytes] at h
  split at h
  · cases h
  · split at h
    · cases h
    · rename_i q hq
      obtain rfl := Except.ok.inj h
      exact Description.accepted_toProgram hq

end PointsTo
