import PointsTo.Proofs.Program.Signatures

/-! Programs that realize descriptions. A description that is read gives a model with just the classes,
members and bodies that are described, under the names that they have there. Whether it is read depends on
its names only: none is declared twice, and what is named is declared. -/

namespace PointsTo

namespace Model

/-- The method is as it is described. -/
structure MeetsMethod (m : Model) (d : Description.Method) (e : Subsignature × MethodId) : Prop where
  isMethod : m.IsMethod e.2
  subsignature : e.1 = ⟨d.signature⟩
  signs : m.Signs e.2 d
  names : ∀ name v, m.Local e.2 name v → name ∈ d.names
  body : List.Forall₂ (m.Means e.2) d.body (m.method e.2).body.toList

/-- The names of the method are those of its variables. -/
theorem MeetsMethod.exists_local_iff {m : Model} {d : Description.Method} {e : Subsignature × MethodId}
    (h : m.MeetsMethod d e) {name : String} : (∃ v, m.Local e.2 name v) ↔ name ∈ d.names := by
  constructor
  · intro hexists
    obtain ⟨v, hv⟩ := hexists
    exact h.names name v hv
  · intro hname
    rw [Description.Method.names, List.mem_append, List.mem_append, Option.mem_toList,
      List.mem_flatMap] at hname
    rcases hname with (hname | hname) | ⟨s, hs, hname⟩
    · exact exists_local_of_optionRel h.signs.this hname
    · obtain ⟨v, -, hv⟩ := exists_of_forall₂ h.signs.params hname
      exact ⟨v, hv⟩
    · obtain ⟨t, -, hmeans⟩ := exists_of_forall₂ h.body hs
      exact hmeans.exists_local hname

/-- The model has what is described, in the same order. -/
structure Realizes (m : Model) (d : Description) : Prop extends m.Declares d where
  methods : ∀ i c, d.classes[i]? = some c →
    List.Forall₂ m.MeetsMethod c.methods (m.cls ⟨i⟩).methods.toList

namespace Realizes

variable {m : Model} {d : Description} (h : m.Realizes d) {c : Description.Class} (hc : c ∈ d.classes)

include h hc

theorem nodup_signatures (hm : m.Registered) : (c.methods.map (·.signature)).Nodup := by
  obtain ⟨i, hi⟩ := List.mem_iff_getElem?.1 hc
  have hkeys := map_eq_of_forall₂ (h.methods i c hi) (f := fun x => Subsignature.mk x.signature)
    (g := Prod.fst) fun _ _ he => he.subsignature
  apply List.Nodup.of_map Subsignature.mk
  rw [List.map_map]
  exact hkeys ▸ hm.methods.nodup ⟨i⟩

theorem resolves {x : Description.Method} (hx : x ∈ c.methods) {s : Description.Stmt} (hs : s ∈ x.body) :
    m.Resolves s := by
  obtain ⟨i, hi⟩ := List.mem_iff_getElem?.1 hc
  obtain ⟨e, -, hmeets⟩ := exists_of_forall₂ (h.methods i c hi) hx
  obtain ⟨t, -, hmeans⟩ := exists_of_forall₂ hmeets.body hs
  exact hmeans.resolves

end Realizes

end Model

namespace Builder

variable {b u : Builder} {x : MethodId}

/-! ### Bodies -/

/-- Statements of the body have been added to the method, and the variables in them. -/
structure Continues (x : MethodId) (body : List Description.Stmt) (b u : Builder) : Prop where
  keeps : b.Extends u.toModel
  edits : b.EditsMethod x u.toModel
  names : ∀ name v, u.Local x name v → (∃ w, b.Local x name w) ∨ ∃ s ∈ body, name ∈ s.names

namespace Continues

variable {body : List Description.Stmt}

theorem refl (b : Builder) : Continues x body b b :=
  ⟨.refl _, .refl x _, fun _ v hv => Or.inl ⟨v, hv⟩⟩

theorem trans {w : Builder} (h : Continues x body b u) (h' : Continues x body u w) :
    Continues x body b w where
  keeps := h.keeps.trans h'.keeps
  edits := h.edits.trans h'.edits
  names name v hv := by
    rcases h'.names name v hv with ⟨w, hw⟩ | hname
    · exact h.names name w hw
    · exact Or.inr hname

end Continues

/-- What of a method comes with the body that is written to it. -/
structure WritesBody (b u : Builder) (x : MethodId) (body : List Description.Stmt) : Prop where
  means : List.Forall₂ (u.Means x) body (u.method x).body.toList
  names : ∀ name v, u.Local x name v → (∃ w, b.Local x name w) ∨ ∃ s ∈ body, name ∈ s.names

theorem writesBody_of_eq_ok {body : List Description.Stmt} (hx : b.IsMethod x)
    (hempty : (b.method x).body = #[]) (h : body.foldlM (fun b s => b.addStmt x s) b = .ok u) :
    Continues x body b u ∧ b.WritesBody u x body := by
  have hstep : ∀ w : Builder, Continues x body b w → ∀ s ∈ body, ∀ v : Builder, w.addStmt x s = .ok v →
      Continues x body w v ∧ ∃ t, (v.method x).body.toList = (w.method x).body.toList ++ [t] ∧
        v.Means x s t := by
    intro w hw s hs v hv
    obtain ⟨hkeeps, hedits, ⟨t, hbody, hmeans⟩, hnames⟩ := writes_addStmt (hw.keeps.fits.isMethod hx) hv
    refine ⟨⟨hkeeps, hedits, fun name y hy => ?_⟩, t, ?_, hmeans⟩
    · exact (hnames name y hy).imp_right fun hname => ⟨s, hs, hname⟩
    · rw [hbody]
      exact Array.toList_push
  obtain ⟨hall, ts, hts, hmeans⟩ := foldlM_pushes (E := Continues x body) .refl (fun h h' => h.trans h')
    (fun b => (b.method x).body.toList) (R := fun b s t => b.Means x s t)
    (fun h ht => h.keeps.means ht) hstep h
  rw [hempty] at hts
  refine ⟨hall, ?_, hall.names⟩
  rw [hts]
  exact hmeans

theorem writesBody_of_pass {bodies : List (MethodId × List Description.Stmt)}
    (hnodup : (bodies.map Prod.fst).Nodup)
    (hunwritten : ∀ e ∈ bodies, b.IsMethod e.1 ∧ (b.method e.1).body = #[])
    (h : b.writeBodies bodies = .ok u) :
    b.Extends u.toModel ∧ ∀ e ∈ bodies, b.WritesBody u e.1 e.2 := by
  have hkeeps : ∀ {v w : Builder} {x : MethodId} {body : List Description.Stmt}, v.Extends w.toModel →
      w.method x = v.method x → b.WritesBody v x body → b.WritesBody w x body := by
    intro v w x body hext hmethod hwrites
    constructor
    case means =>
      rw [hmethod]
      exact hwrites.means.imp fun _ _ => hext.means
    case names =>
      intro name y hy
      rw [Model.Local, hmethod] at hy
      exact hwrites.names name y hy
  have hstep : ∀ v : Builder, b.Extends v.toModel → ∀ e ∈ bodies, v.method e.1 = b.method e.1 →
      ∀ w : Builder, e.2.foldlM (fun (b : Builder) s => b.addStmt e.1 s) v = .ok w →
        v.Extends w.toModel ∧ b.WritesBody w e.1 e.2 ∧ ∀ y, y ≠ e.1 → w.method y = v.method y := by
    intro v hv e he hmethod w hw
    obtain ⟨hx, hempty⟩ := hunwritten e he
    obtain ⟨hall, hwrites⟩ := writesBody_of_eq_ok (hv.fits.isMethod hx) (by rw [hmethod, hempty]) hw
    refine ⟨hall.keeps, ⟨hwrites.means, fun name y hy => ?_⟩, hall.edits.method⟩
    have hnames := hwrites.names name y hy
    rwa [show (fun z => v.Local e.1 name z) = fun z => b.Local e.1 name z by
      funext z; rw [Model.Local, hmethod, Model.Local]] at hnames
  obtain ⟨hext, hall, -⟩ := foldlM_settles (E := fun b u : Builder => b.Extends u.toModel)
    (fun b => .refl _) (fun h h' => h.trans h') (fun b x => b.method x)
    (R := fun u x body => b.WritesBody u x body) hkeeps hstep hnodup h
  exact ⟨hext, hall⟩

theorem exists_body_pass {bodies : List (MethodId × List Description.Stmt)}
    (hmethods : ∀ e ∈ bodies, b.IsMethod e.1) (hresolves : ∀ e ∈ bodies, ∀ s ∈ e.2, b.Resolves s) :
    ∃ u, b.writeBodies bodies = .ok u := by
  refine exists_foldlM_eq_ok (fun l (u : Builder) => b.Extends u.toModel ∧
    ∀ e ∈ l, b.IsMethod e.1 ∧ ∀ s ∈ e.2, b.Resolves s) ?_
    ⟨.refl _, fun e he => ⟨hmethods e he, hresolves e he⟩⟩
  intro e l u hl
  obtain ⟨hu, hrest⟩ := hl
  obtain ⟨hx, he⟩ := hrest e List.mem_cons_self
  have hbody : ∃ w, e.2.foldlM (fun (b : Builder) s => b.addStmt e.1 s) u = .ok w := by
    refine exists_foldlM_eq_ok (fun l (u : Builder) => b.Extends u.toModel ∧ ∀ s ∈ l, b.Resolves s) ?_
      ⟨hu, he⟩
    intro s l u hl
    obtain ⟨w, hw⟩ := exists_addStmt_eq_ok (hl.1.resolves (hl.2 s List.mem_cons_self))
    have hwrites := writes_addStmt (hl.1.fits.isMethod hx) hw
    exact ⟨w, hw, hl.1.trans hwrites.keeps, fun s hs => hl.2 s (List.mem_cons_of_mem _ hs)⟩
  obtain ⟨w, hw⟩ := hbody
  refine ⟨w, hw, ?_, fun e he => hrest e (List.mem_cons_of_mem _ he)⟩
  refine of_foldlM_eq_ok (fun w : Builder => b.Extends w.toModel) (fun v hv s _ w hw => ?_) hu hw
  exact hv.trans (writes_addStmt (hv.fits.isMethod hx) hw).keeps

theorem Declaring.Enters.meetsMethod {s : Declaring} {d : Description.Method}
    {e : Subsignature × MethodId} (h : s.Enters d e) (hkeeps : s.2.Extends u.toModel)
    (hwrites : s.2.WritesBody u e.2 d.body) : u.MeetsMethod d e where
  isMethod := hkeeps.fits.isMethod h.isMethod
  subsignature := h.subsignature
  signs := by
    constructor
    · rw [hkeeps.declares.isStatic, h.signs.isStatic]
    · rw [hkeeps.declares.isAbstract, h.signs.isAbstract]
    · rw [hkeeps.declares.this]
      exact hkeeps.localOption h.signs.this
    · rw [hkeeps.declares.params]
      exact h.signs.params.imp (hkeeps.locals e.2)
  names name v hv := by
    rw [Description.Method.names, List.mem_append, List.mem_flatMap]
    rcases hwrites.names name v hv with ⟨w, hw⟩ | hname
    · exact Or.inl (h.blank.names name w hw)
    · exact Or.inr hname
  body := hwrites.means

/-! ### The entry method -/

theorem setEntryNamed_eq_ok_iff {text : String} : b.setEntryNamed text = .ok u ↔
    ∃ c s x, b.RefersTo text c s ∧ (b.cls c).declaredMethod? ⟨s⟩ = some x ∧ u = b.setEntry x := by
  constructor
  · intro h
    obtain ⟨⟨c, s⟩, hc, h⟩ := exists_of_bind_eq_ok h
    cases hx : (b.cls c).declaredMethod? ⟨s⟩ with
    | none =>
      simp only [hx] at h
      cases h
    | some x =>
      simp only [hx] at h
      exact ⟨c, s, x, findMember_eq_ok_iff.1 hc, hx, (Except.ok.inj h).symm⟩
  · rintro ⟨c, s, x, hc, hx, rfl⟩
    rw [setEntryNamed, findMember_eq_ok_iff.2 hc]
    simp only [bind, Except.bind, hx]

end Builder

namespace Description

open Builder

variable {d : Description} {b : Builder}

/-- The entry method is the one that is named. -/
def IsEntry (d : Description) (m : Model) (x : MethodId) : Prop :=
  ∃ c s, m.RefersTo d.entry c s ∧ (m.cls c).declaredMethod? ⟨s⟩ = some x

section Passes

variable {b₁ b₂ b₃ b₄ : Builder} {bodies : List (MethodId × List Stmt)}
  (h₁ : d.declareClasses = .ok b₁)
  (h₂ : d.numberedClasses.foldlM (fun b (c, desc) => b.addHeader c desc) b₁ = .ok b₂)
  (h₃ : d.numberedClasses.foldlM (fun s (c, desc) => desc.methods.foldlM (addMethodOf c) s) ([], b₂) =
    .ok (bodies, b₃))

include h₁ h₂ h₃

theorem orderly_of_passes : Declaring.Orderly (bodies, b₃) := by
  obtain ⟨hdeclares, hempty, -⟩ := declares_of_passes h₁ h₂
  exact (gathers_of_pass hdeclares.size hempty h₃).1.orderly
    ⟨List.nodup_nil, fun e he => absurd he List.not_mem_nil⟩

theorem writesBody_of_passes (h₄ : b₃.writeBodies bodies.reverse = .ok b₄) :
    b₃.Extends b₄.toModel ∧ ∀ e ∈ bodies, b₃.WritesBody b₄ e.1 e.2 := by
  have horderly := orderly_of_passes h₁ h₂ h₃
  obtain ⟨hkeeps, hwrites⟩ := writesBody_of_pass
    (by rw [List.map_reverse, List.nodup_reverse]; exact horderly.nodup)
    (fun e he => horderly.unwritten e (List.mem_reverse.1 he)) h₄
  exact ⟨hkeeps, fun e he => hwrites e (List.mem_reverse.2 he)⟩

theorem realizes_of_passes (h₄ : b₃.writeBodies bodies.reverse = .ok b₄) : b₄.Realizes d := by
  obtain ⟨hdeclares, hempty, -⟩ := declares_of_passes h₁ h₂
  obtain ⟨hgathers, henters⟩ := gathers_of_pass hdeclares.size hempty h₃
  obtain ⟨hkeeps, hwrites⟩ := writesBody_of_passes h₁ h₂ h₃ h₄
  refine ⟨?_, fun i c hc => ?_⟩
  · exact (hdeclares.congr hgathers.enrolls.classes hgathers.enrolls.fields).congr
      (fun i => by rw [hkeeps.declares.classes]) hkeeps.declares.fields
  · rw [hkeeps.declares.cls]
    exact (henters i c hc).imp fun x e he => he.meetsMethod hkeeps (hwrites (e.2, x.body) he.body)

omit h₁ h₂ in
theorem exists_of_mem_bodies {e : MethodId × List Stmt} (he : e ∈ bodies) :
    ∃ c ∈ d.classes, ∃ x ∈ c.methods, x.body = e.2 := by
  have hall : ∀ e ∈ bodies, ∃ c ∈ d.classes, ∃ x ∈ c.methods, x.body = e.2 := by
    refine of_foldlM_eq_ok (fun s : Declaring => ∀ e ∈ s.1, ∃ c ∈ d.classes, ∃ x ∈ c.methods, x.body = e.2)
      (fun s hs e he t ht => ?_) (fun e he => absurd he List.not_mem_nil) h₃
    refine of_foldlM_eq_ok (fun s : Declaring => ∀ e ∈ s.1, ∃ c ∈ d.classes, ∃ x ∈ c.methods, x.body = e.2)
      (fun s hs x hx t ht => ?_) hs ht
    obtain ⟨-, rfl⟩ := Declaring.addMethodOf_eq_ok_iff.1 ht
    intro e' he'
    rcases List.mem_cons.1 he' with rfl | he'
    · exact ⟨e.2, List.mem_of_getElem? (mem_numberedClasses.1 he), x, hx, rfl⟩
    · exact hs e' he'
  exact hall e he

end Passes

theorem realizes_of_toBuilder (h : d.toBuilder = .ok b) :
    b.Realizes d ∧ ∃ x, d.IsEntry b.toModel x ∧ b.entry = some x := by
  obtain ⟨b₁, h₁, b₂, h₂, bodies, b₃, h₃, b₄, h₄, hentry⟩ := toBuilder_eq_ok_iff.1 h
  have hrealizes := realizes_of_passes h₁ h₂ h₃ h₄
  obtain ⟨c, s, x, hc, hx, rfl⟩ := setEntryNamed_eq_ok_iff.1 hentry
  exact ⟨hrealizes, x, ⟨c, s, hc, hx⟩, rfl⟩

/-- What the passes require. References are looked up in models that have what is described, as far as that
has been read. -/
theorem exists_toBuilder (hnames : (d.classes.map (·.name)).Nodup)
    (hlinked : ∀ c ∈ d.classes, c.WellLinked d)
    (hsignatures : ∀ c ∈ d.classes, (c.methods.map (·.signature)).Nodup)
    (hresolves : ∀ m : Model, m.Registered → m.Declares d →
      ∀ c ∈ d.classes, ∀ x ∈ c.methods, ∀ s ∈ x.body, m.Resolves s)
    (hentry : ∀ m : Model, m.Registered → m.Realizes d → ∃ x, d.IsEntry m x) :
    ∃ b, d.toBuilder = .ok b := by
  obtain ⟨b₁, b₂, h₁, h₂⟩ := exists_passes hnames hlinked
  obtain ⟨hdeclares, hempty, -⟩ := declares_of_passes h₁ h₂
  obtain ⟨⟨bodies, b₃⟩, h₃⟩ := exists_method_pass hdeclares.size hempty hsignatures
  obtain ⟨hgathers, -⟩ := gathers_of_pass hdeclares.size hempty h₃
  obtain ⟨-, hleads⟩ := leadsWith_of_passes h₁ h₂ h₃
  have hdeclares' := hdeclares.congr hgathers.enrolls.classes hgathers.enrolls.fields
  obtain ⟨b₄, h₄⟩ := @exists_body_pass b₃ bodies.reverse
    (fun e he => hleads.methods e (List.mem_reverse.1 he)) fun e he s hs => by
      obtain ⟨c, hc, x, hx, hbody⟩ := exists_of_mem_bodies h₃ (List.mem_reverse.1 he)
      exact hresolves b₃.toModel (registered_of_reached hleads.reached) hdeclares' c hc x hx s
        (hbody ▸ hs)
  have hreached := (leads_of_body_pass hleads h₄).reached
  obtain ⟨x, c, s, hc, hx⟩ := hentry b₄.toModel (registered_of_reached hreached)
    (realizes_of_passes h₁ h₂ h₃ h₄)
  have hlast : b₄.setEntryNamed d.entry = .ok (b₄.setEntry x) :=
    setEntryNamed_eq_ok_iff.2 ⟨c, s, x, hc, hx, rfl⟩
  exact ⟨_, toBuilder_eq_ok_iff.2 ⟨b₁, h₁, b₂, h₂, bodies, b₃, h₃, b₄, h₄, hlast⟩⟩

end Description

end PointsTo
