import PointsTo.Proofs.Program.Meanings

/-! Writing bodies. To add a described statement introduces the variables that it names, unless they are
there, and ends the body with a statement that means the same. It succeeds if the classes and members that
it speaks of are there, whatever bodies have been written. -/

namespace PointsTo

namespace Model

/-- The models differ in one method at most, and in what occurs in bodies. -/
structure EditsMethod (x : MethodId) (m n : Model) : Prop where
  classes : n.classes = m.classes
  fields : n.fields = m.fields
  size_methods : n.methods.size = m.methods.size
  method : ∀ y, y ≠ x → n.method y = m.method y

variable {x : MethodId} {m n k : Model}

namespace EditsMethod

theorem refl (x : MethodId) (m : Model) : m.EditsMethod x m := ⟨rfl, rfl, rfl, fun _ _ => rfl⟩

theorem trans (h : m.EditsMethod x n) (h' : n.EditsMethod x k) : m.EditsMethod x k where
  classes := h'.classes.trans h.classes
  fields := h'.fields.trans h.fields
  size_methods := h'.size_methods.trans h.size_methods
  method y hy := (h'.method y hy).trans (h.method y hy)

theorem modifyMethod (x : MethodId) (m : Model) (f : Method → Method) :
    m.EditsMethod x { m with methods := m.methods.modify x.index f } := by
  refine ⟨rfl, rfl, Array.size_modify, fun y hy => ?_⟩
  have hne : x.index ≠ y.index := fun heq => hy (Id.ext heq.symm)
  simp only [Model.method, Array.getD_eq_getD_getElem?, Array.getElem?_modify, if_neg hne]

end EditsMethod

/-- Variables of those names, as far as they are not there, are all that is new. -/
structure Introduces (m n : Model) (x : MethodId) (names : List String) : Prop where
  keeps : m.Extends n
  edits : m.EditsMethod x n
  body : (n.method x).body = (m.method x).body
  names : ∀ name v, n.Local x name v → (∃ w, m.Local x name w) ∨ name ∈ names

namespace Introduces

theorem refl (m : Model) (x : MethodId) : m.Introduces m x [] :=
  ⟨.refl m, .refl x m, rfl, fun _ v hv => Or.inl ⟨v, hv⟩⟩

theorem trans {names names' : List String} (h : m.Introduces n x names) (h' : n.Introduces k x names') :
    m.Introduces k x (names ++ names') where
  keeps := h.keeps.trans h'.keeps
  edits := h.edits.trans h'.edits
  body := h'.body.trans h.body
  names name v hv := by
    rw [List.mem_append]
    rcases h'.names name v hv with ⟨w, hw⟩ | hname
    · rcases h.names name w hw with hold | hname
      · exact Or.inl hold
      · exact Or.inr (Or.inl hname)
    · exact Or.inr (Or.inr hname)

end Introduces

/-- A statement at the end of a body is all that is new. -/
structure Appends (m n : Model) (x : MethodId) (t : Stmt) : Prop where
  keeps : m.Extends n
  edits : m.EditsMethod x n
  body : (n.method x).body = (m.method x).body.push t
  locals : (n.method x).locals = (m.method x).locals

theorem Grows.appends (h : m.Grows n) (hx : m.IsMethod x) {t : Stmt} {f : Method → Method}
    (hmethods : n.methods = m.methods.modify x.index f) (hbody : ∀ y, (f y).body = y.body.push t)
    (hlocals : ∀ y, (f y).locals = y.locals) : m.Appends n x t := by
  have hmethod : ∀ y, n.method y = if y = x then f (m.method x) else m.method y := by
    intro y
    rw [← method_modify hx f y, Model.method, hmethods, Model.method]
  refine ⟨⟨h, fun y name v hv => ?_⟩, ⟨h.declares.classes, h.declares.fields, h.declares.size_methods,
    fun y hy => by rw [hmethod, if_neg hy]⟩, ?_, ?_⟩
  · rw [Local, hmethod]
    split
    · rename_i heq
      rw [Method.local?, hlocals, ← heq]
      exact hv
    · exact hv
  · rw [hmethod, if_pos rfl, hbody]
  · rw [hmethod, if_pos rfl, hlocals]

/-- A described statement has been added. -/
structure Writes (m n : Model) (x : MethodId) (s : Description.Stmt) : Prop where
  keeps : m.Extends n
  edits : m.EditsMethod x n
  body : ∃ t, (n.method x).body = (m.method x).body.push t ∧ n.Means x s t
  names : ∀ name v, n.Local x name v → (∃ w, m.Local x name w) ∨ name ∈ s.names

theorem Introduces.writes {s : Description.Stmt} {t : Stmt} (h : m.Introduces n x s.names)
    (h' : n.Appends k x t) (hmeans : k.Means x s t) : m.Writes k x s where
  keeps := h.keeps.trans h'.keeps
  edits := h.edits.trans h'.edits
  body := ⟨t, by rw [h'.body, h.body], hmeans⟩
  names name v hv := by
    rw [Local, Method.local?, h'.locals] at hv
    exact h.names name v hv

end Model

namespace Builder

variable {b u : Builder} {x : MethodId}

/-! ### Variables -/

theorem local?_push (y : Method) (name other : String) (v : VarId) :
    ({ y with locals := y.locals.push (name, v) } : Method).local? other =
      (y.local? other).or (if name = other then some v else none) := by
  rw [Method.local?, Method.local?, Array.find?_push]
  cases y.locals.find? (·.1 == other) with
  | some e => rfl
  | none =>
    by_cases hname : name = other
    · simp [hname]
    · simp [hname]

theorem introduces_var (hx : b.IsMethod x) (name : String) :
    b.Introduces (b.var x name).2.toModel x [name] := by
  have hgrows := grows_var b x name
  have hbody := (sameBodies_var b x name).body x
  revert hgrows hbody
  rw [var]
  split
  · intro _ _
    exact ⟨.refl _, .refl _ _, rfl, fun other v hv => Or.inl ⟨v, hv⟩⟩
  · intro hgrows hbody
    have hmethod := Model.method_modify hx fun y =>
      { y with locals := y.locals.push (name, (⟨b.vars.size⟩ : VarId)) }
    have hedits := Model.EditsMethod.modifyMethod x b.toModel
      fun y => { y with locals := y.locals.push (name, (⟨b.vars.size⟩ : VarId)) }
    refine ⟨⟨hgrows, fun y other v hv => ?_⟩, { hedits with }, hbody, fun other v hv => ?_⟩
    · show (Model.method _ y).local? other = some v
      refine (congrArg (Method.local? · other) (hmethod y)).trans ?_
      split
      · rename_i heq
        rw [local?_push, ← heq, show (b.method y).local? other = some v from hv]
        rfl
      · exact hv
    · have hlocal := (congrArg (Method.local? · other) (hmethod x)).symm.trans hv
      rw [if_pos rfl, local?_push, Option.or_eq_some_iff] at hlocal
      rcases hlocal with hold | ⟨-, hnew⟩
      · exact Or.inl ⟨v, hold⟩
      · split at hnew
        · rename_i heq
          exact Or.inr (List.mem_singleton.2 heq.symm)
        · cases hnew

theorem local_var (hx : b.IsMethod x) (name : String) :
    (b.var x name).2.Local x name (b.var x name).1 := by
  rw [var]
  split
  · rename_i v hv
    exact hv
  · rename_i hnone
    have hmethod := Model.method_modify hx fun y =>
      { y with locals := y.locals.push (name, (⟨b.vars.size⟩ : VarId)) }
    refine (congrArg (Method.local? · name) (hmethod x)).trans ?_
    rw [if_pos rfl, local?_push, hnone, if_pos rfl]
    rfl

theorem introduces_vars? (hx : b.IsMethod x) (name : Option String) :
    b.Introduces (b.vars? x name).2.toModel x name.toList ∧
      Option.Rel ((b.vars? x name).2.Local x) name (b.vars? x name).1 := by
  cases name with
  | none => exact ⟨.refl _ _, .none⟩
  | some name => exact ⟨introduces_var hx name, .some (local_var hx name)⟩

theorem introduces_varList (hx : b.IsMethod x) (names : List String) :
    b.Introduces (varList x names b).2.toModel x names ∧
      List.Forall₂ ((varList x names b).2.Local x) names (varList x names b).1 := by
  induction names generalizing b with
  | nil => exact ⟨.refl _ _, .nil⟩
  | cons name names ih =>
    have hvar := introduces_var hx name
    obtain ⟨hrest, hvs⟩ := ih (hvar.keeps.fits.isMethod hx)
    exact ⟨hvar.trans hrest, .cons (hrest.keeps.locals _ _ _ (local_var hx name)) hvs⟩

/-! ### Statements -/

theorem appends_push (hx : b.IsMethod x) (t : Stmt) : b.Appends (b.push x t).toModel x t :=
  (grows_push b x t).appends hx (f := fun y => { y with body := y.body.push t }) rfl (fun _ => rfl)
    fun _ => rfl

section Statements

variable (hx : b.IsMethod x) {s : Description.Stmt}

include hx

/-- Two variables, and a statement that moves references between them. -/
theorem writes_move {first second : String} {t : VarId → VarId → Stmt} (hnames : s.names = [first, second])
    (hmeans : ∀ m : Model, b.Extends m → ∀ v w, m.Local x first v → m.Local x second w →
      m.Means x s (t v w)) :
    b.Writes ((((b.var x first).2.var x second).2).push x
      (t (b.var x first).1 ((b.var x first).2.var x second).1)).toModel x s := by
  have hfirst := introduces_var hx first
  have hx' := hfirst.keeps.fits.isMethod hx
  have hsecond := introduces_var hx' second
  have happends := appends_push (hsecond.keeps.fits.isMethod hx')
    (t (b.var x first).1 ((b.var x first).2.var x second).1)
  have hboth := hfirst.trans hsecond
  refine Model.Introduces.writes (hnames ▸ hboth) happends ?_
  apply hmeans _ (hboth.keeps.trans happends.keeps)
  · exact (hsecond.keeps.trans happends.keeps).locals _ _ _ (local_var hx first)
  · exact happends.keeps.locals _ _ _ (local_var hx' second)

/-- The same with one variable. -/
theorem writes_access {name : String} {t : VarId → Stmt} (hnames : s.names = [name])
    (hmeans : ∀ m : Model, b.Extends m → ∀ v, m.Local x name v → m.Means x s (t v)) :
    b.Writes ((b.var x name).2.push x (t (b.var x name).1)).toModel x s := by
  have hvar := introduces_var hx name
  have happends := appends_push (hvar.keeps.fits.isMethod hx) (t (b.var x name).1)
  refine Model.Introduces.writes (hnames ▸ hvar) happends ?_
  exact hmeans _ (hvar.keeps.trans happends.keeps) _ (happends.keeps.locals _ _ _ (local_var hx name))

theorem writes_new {lhs cls : String} {c : ClassId} (hc : b.Named cls c) :
    b.Writes ((b.var x lhs).2.pushNew x (b.var x lhs).1 c).2.toModel x (.new lhs cls) := by
  have hvar := introduces_var hx lhs
  have hlocal := local_var hx lhs
  have hx' := hvar.keeps.fits.isMethod hx
  generalize b.var x lhs = r at hvar hlocal hx' ⊢
  obtain ⟨v, w⟩ := r
  have hgrows : w.Grows (w.pushNew x v c).2.toModel :=
    (Model.Grows.pushSite w.toModel _).trans (grows_push { w with sites := _ } x _)
  have happends := hgrows.appends hx' (t := .new ⟨w.sites.size⟩)
    (f := fun y => { y with body := y.body.push (.new ⟨w.sites.size⟩) }) rfl (fun _ => rfl) fun _ => rfl
  have hsite : (w.pushNew x v c).2.site ⟨w.sites.size⟩ = ⟨v, c, x, (w.method x).body.size⟩ := by
    simp [pushNew, push, modifyMethod, Model.site]
  refine hvar.writes happends (.new ?_ ?_ ?_)
  · simp [pushNew, push, modifyMethod, Model.IsSite]
  · rw [hsite]
    exact happends.keeps.locals _ _ _ hlocal
  · rw [hsite]
    exact (hvar.keeps.trans happends.keeps).named hc

theorem writes_invoke {kind : CallKind} {method : String} {receiver : Option String} {args : List String}
    {result : Option String} {c : ClassId} {member : String} (href : b.RefersTo method c member)
    {r a z : Builder} {v : Option VarId} {vs : List VarId} {w : Option VarId}
    (hr : b.vars? x receiver = (v, r)) (ha : varList x args r = (vs, a)) (hz : a.vars? x result = (w, z)) :
    b.Writes (z.pushCall x ⟨kind, c, ⟨member⟩, v, vs, w, x, 0⟩).2.toModel x
      (.invoke kind method receiver args result) := by
  obtain ⟨hreceiver, hv⟩ := introduces_vars? hx receiver
  rw [hr] at hreceiver hv
  have hxr := hreceiver.keeps.fits.isMethod hx
  obtain ⟨hargs, hvs⟩ := introduces_varList hxr args
  rw [ha] at hargs hvs
  have hxa := hargs.keeps.fits.isMethod hxr
  obtain ⟨hresult, hw⟩ := introduces_vars? hxa result
  rw [hz] at hresult hw
  have hxz := hresult.keeps.fits.isMethod hxa
  have hgrows : z.Grows (z.pushCall x ⟨kind, c, ⟨member⟩, v, vs, w, x, 0⟩).2.toModel :=
    (Model.Grows.pushCall z.toModel _).trans (grows_push { z with calls := _ } x _)
  have happends := hgrows.appends hxz (t := .invoke ⟨z.calls.size⟩)
    (f := fun y => { y with body := y.body.push (.invoke ⟨z.calls.size⟩) }) rfl (fun _ => rfl) fun _ => rfl
  have hcall : (z.pushCall x ⟨kind, c, ⟨member⟩, v, vs, w, x, 0⟩).2.call ⟨z.calls.size⟩ =
      ⟨kind, c, ⟨member⟩, v, vs, w, x, (z.method x).body.size⟩ := by
    simp [pushCall, push, modifyMethod, Model.call]
  have hall := (hreceiver.trans hargs).trans hresult
  refine hall.writes happends (.invoke ?_ ?_ ?_ ?_ ?_ ?_)
  · simp [pushCall, push, modifyMethod, Model.IsCall]
  · rw [hcall]
  · rw [hcall]
    exact (hall.keeps.trans happends.keeps).refersTo href
  · rw [hcall]
    exact ((hargs.keeps.trans hresult.keeps).trans happends.keeps).localOption hv
  · rw [hcall]
    exact hvs.imp ((hresult.keeps.trans happends.keeps).locals x)
  · rw [hcall]
    exact happends.keeps.localOption hw

theorem appends_pushReturn (returned : Option VarId) :
    b.Appends (b.pushReturn x returned).toModel x (.ret returned) := by
  have hgrows := grows_perform (b := b) (c := .pushReturn x returned) rfl
  cases returned with
  | none => exact appends_push hx (.ret none)
  | some v =>
    rw [Command.perform] at hgrows
    rw [pushReturn_some] at hgrows ⊢
    refine hgrows.appends hx (f := fun y =>
      { (if y.returns.contains v then y else { y with returns := y.returns.push v }) with
        body := y.body.push (.ret (some v)) }) rfl (fun _ => rfl) fun y => ?_
    show (if y.returns.contains v then y else _).locals = y.locals
    split <;> rfl

theorem writes_addStmt (h : b.addStmt x s = .ok u) : b.Writes u.toModel x s := by
  cases s with
  | new lhs cls =>
    obtain ⟨c, hc, h⟩ := exists_of_bind_eq_ok h
    simp only [pure, Except.pure, Except.ok.injEq] at h
    subst h
    exact writes_new hx (findClass_eq_ok_iff.1 hc)
  | copy lhs rhs =>
    simp only [addStmt, pure, Except.pure, Except.ok.injEq] at h
    subst h
    exact writes_move hx (t := .copy) rfl fun _ _ _ _ hv hw => .copy hv hw
  | loadArray lhs base =>
    simp only [addStmt, pure, Except.pure, Except.ok.injEq] at h
    subst h
    exact writes_move hx (t := .loadArray) rfl fun _ _ _ _ hv hw => .loadArray hv hw
  | storeArray base rhs =>
    simp only [addStmt, pure, Except.pure, Except.ok.injEq] at h
    subst h
    exact writes_move hx (t := .storeArray) rfl fun _ _ _ _ hv hw => .storeArray hv hw
  | loadField lhs base field =>
    obtain ⟨f, hf, h⟩ := exists_of_bind_eq_ok h
    simp only [pure, Except.pure, Except.ok.injEq] at h
    subst h
    exact writes_move hx (t := fun v w => .loadField v w f) rfl fun _ hkeeps _ _ hv hw =>
      .loadField hv hw (hkeeps.refersToField (findField_eq_ok_iff.1 hf))
  | storeField base field rhs =>
    obtain ⟨f, hf, h⟩ := exists_of_bind_eq_ok h
    simp only [pure, Except.pure, Except.ok.injEq] at h
    subst h
    exact writes_move hx (t := fun v w => .storeField v f w) rfl fun _ hkeeps _ _ hv hw =>
      .storeField hv (hkeeps.refersToField (findField_eq_ok_iff.1 hf)) hw
  | loadStatic lhs field =>
    obtain ⟨f, hf, h⟩ := exists_of_bind_eq_ok h
    simp only [pure, Except.pure, Except.ok.injEq] at h
    subst h
    exact writes_access hx (t := fun v => .loadStatic v f) rfl fun _ hkeeps _ hv =>
      .loadStatic hv (hkeeps.refersToField (findField_eq_ok_iff.1 hf))
  | storeStatic field rhs =>
    obtain ⟨f, hf, h⟩ := exists_of_bind_eq_ok h
    simp only [pure, Except.pure, Except.ok.injEq] at h
    subst h
    exact writes_access hx (t := fun v => .storeStatic f v) rfl fun _ hkeeps _ hv =>
      .storeStatic (hkeeps.refersToField (findField_eq_ok_iff.1 hf)) hv
  | invoke kind method receiver args result =>
    obtain ⟨⟨c, member⟩, hc, h⟩ := exists_of_bind_eq_ok h
    simp only [pure, Except.pure, Except.ok.injEq] at h
    subst h
    exact writes_invoke hx (findMember_eq_ok_iff.1 hc) rfl rfl rfl
  | ret var =>
    simp only [addStmt, pure, Except.pure, Except.ok.injEq] at h
    subst h
    obtain ⟨hvar, hv⟩ := introduces_vars? hx var
    have happends := appends_pushReturn (hvar.keeps.fits.isMethod hx) (b.vars? x var).1
    exact hvar.writes happends (.ret (happends.keeps.localOption hv))

omit hx in
theorem exists_addStmt_eq_ok (h : b.Resolves s) : ∃ u, b.addStmt x s = .ok u := by
  cases s with
  | copy | loadArray | storeArray | ret => exact ⟨_, rfl⟩
  | new =>
    obtain ⟨c, hc⟩ := h
    rw [addStmt, findClass_eq_ok_iff.2 hc]
    exact ⟨_, rfl⟩
  | loadField | storeField | loadStatic | storeStatic =>
    obtain ⟨f, hf⟩ := h
    rw [addStmt, findField_eq_ok_iff.2 hf]
    exact ⟨_, rfl⟩
  | invoke =>
    obtain ⟨c, member, hc⟩ := h
    rw [addStmt, findMember_eq_ok_iff.2 hc]
    exact ⟨_, rfl⟩

end Statements

end Builder

end PointsTo
