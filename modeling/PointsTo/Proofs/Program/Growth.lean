import PointsTo.Proofs.Program.Declarations
import PointsTo.Proofs.Program.Owners

/-! Growth. To mention a variable or to add a statement takes nothing away: bodies and lists of returned
variables only get longer, what has a number keeps it, and no declaration changes. -/

namespace PointsTo

/-- The second method is the first with a longer body. -/
structure Method.Grows (y z : Method) : Prop where
  declaration : z.declaration = y.declaration
  returns : ∀ v ∈ y.returns, v ∈ z.returns
  body : ∀ s ∈ y.body, s ∈ z.body

theorem Method.Grows.refl (y : Method) : y.Grows y := ⟨rfl, fun _ h => h, fun _ h => h⟩

namespace Model

/-- The second model is the first with longer bodies and what occurs in them. -/
structure Grows (m n : Model) : Prop where
  declares : m.SameDeclarations n
  fits : m.Fits n
  returns : ∀ x, ∀ v ∈ (m.method x).returns, v ∈ (n.method x).returns
  body : ∀ x, ∀ s ∈ (m.method x).body, s ∈ (n.method x).body
  var : ∀ v, m.IsVar v → n.var v = m.var v
  site : ∀ i, m.IsSite i → n.site i = m.site i
  call : ∀ i, m.IsCall i → n.call i = m.call i

namespace Grows

theorem refl (m : Model) : m.Grows m where
  declares := .refl m
  fits := .refl m
  returns _ _ h := h
  body _ _ h := h
  var _ _ := rfl
  site _ _ := rfl
  call _ _ := rfl

theorem trans {m n k : Model} (h : m.Grows n) (h' : n.Grows k) : m.Grows k where
  declares := h.declares.trans h'.declares
  fits := h.fits.trans h'.fits
  returns x v hv := h'.returns x v (h.returns x v hv)
  body x s hs := h'.body x s (h.body x s hs)
  var v hv := (h'.var v (h.fits.isVar hv)).trans (h.var v hv)
  site i hi := (h'.site i (h.fits.isSite hi)).trans (h.site i hi)
  call i hi := (h'.call i (h.fits.isCall hi)).trans (h.call i hi)

theorem modifyMethod (m : Model) (x : MethodId) {f : Method → Method} (hf : ∀ y : Method, y.Grows (f y)) :
    m.Grows { m with methods := m.methods.modify x.index f } := by
  have hgrows : ∀ z, (m.method z).Grows
      (({ m with methods := m.methods.modify x.index f } : Model).method z) := by
    intro z
    simp only [method, Array.getD_eq_getD_getElem?, Array.getElem?_modify]
    split
    · cases m.methods[z.index]? with
      | none => exact .refl _
      | some y => exact hf y
    · exact .refl _
  constructor
  case declares => exact ⟨rfl, rfl, Array.size_modify, fun z => (hgrows z).declaration⟩
  case fits => exact { Fits.refl m with methods := Nat.le_of_eq Array.size_modify.symm }
  case returns => exact fun z => (hgrows z).returns
  case body => exact fun z => (hgrows z).body
  case var => exact fun _ _ => rfl
  case site => exact fun _ _ => rfl
  case call => exact fun _ _ => rfl

section Push

variable (m : Model)

theorem pushVar (v : Var) : m.Grows { m with vars := m.vars.push v } := by
  refine ⟨⟨rfl, rfl, rfl, fun _ => rfl⟩, { Fits.refl m with vars := by simp }, fun _ _ h => h,
    fun _ _ h => h, fun w hw => ?_, fun _ _ => rfl, fun _ _ => rfl⟩
  simp only [Model.var, Array.getD_eq_getD_getElem?, Array.getElem?_push, Nat.ne_of_lt hw, if_false]

theorem pushSite (s : Site) : m.Grows { m with sites := m.sites.push s } := by
  refine ⟨⟨rfl, rfl, rfl, fun _ => rfl⟩, { Fits.refl m with sites := by simp }, fun _ _ h => h,
    fun _ _ h => h, fun _ _ => rfl, fun i hi => ?_, fun _ _ => rfl⟩
  simp only [Model.site, Array.getD_eq_getD_getElem?, Array.getElem?_push, Nat.ne_of_lt hi, if_false]

theorem pushCall (c : Call) : m.Grows { m with calls := m.calls.push c } := by
  refine ⟨⟨rfl, rfl, rfl, fun _ => rfl⟩, { Fits.refl m with calls := by simp }, fun _ _ h => h,
    fun _ _ h => h, fun _ _ => rfl, fun _ _ => rfl, fun i hi => ?_⟩
  simp only [Model.call, Array.getD_eq_getD_getElem?, Array.getElem?_push, Nat.ne_of_lt hi, if_false]

end Push

end Grows

end Model

namespace Builder

/-- Whether a command mentions a variable or adds a statement. -/
def Command.isWrite : Command → Bool
  | .var _ _ | .push _ _ | .pushNew _ _ _ | .pushCall _ _ _ _ _ _ _ | .pushReturn _ _ => true
  | _ => false

variable {b : Builder}

theorem grows_push (b : Builder) (x : MethodId) (s : Stmt) : b.Grows (b.push x s).toModel :=
  .modifyMethod b.toModel x fun _ => ⟨rfl, fun _ h => h, fun _ h => Array.mem_push_of_mem _ h⟩

theorem grows_var (b : Builder) (x : MethodId) (name : String) : b.Grows (b.var x name).2.toModel := by
  rw [var]
  split
  · exact .refl _
  · exact (Model.Grows.pushVar b.toModel ⟨name, x⟩).trans
      (.modifyMethod _ x (f := fun y => { y with locals := y.locals.push (name, ⟨b.vars.size⟩) })
        fun _ => ⟨rfl, fun _ h => h, fun _ h => h⟩)

theorem grows_perform {c : Command} (hc : c.isWrite = true) : b.Grows (c.perform b).toModel := by
  cases c with
  | var x name => exact grows_var b x name
  | push x s => exact grows_push b x s
  | pushNew x lhs c => exact (Model.Grows.pushSite b.toModel _).trans (grows_push { b with sites := _ } x _)
  | pushCall x kind cls s receiver args result =>
    exact (Model.Grows.pushCall b.toModel _).trans (grows_push { b with calls := _ } x _)
  | pushReturn x returned =>
    cases returned with
    | none => exact grows_push b x (.ret none)
    | some v =>
      rw [Command.perform, pushReturn_some]
      refine .modifyMethod b.toModel x fun y => ?_
      have hbody : ∀ s ∈ y.body, s ∈ y.body.push (.ret (some v)) := fun _ h => Array.mem_push_of_mem _ h
      split
      · exact ⟨rfl, fun _ h => h, hbody⟩
      · exact ⟨rfl, fun _ h => Array.mem_push_of_mem _ h, hbody⟩
  | _ => cases hc

theorem grows_performAll {cs : List Command} (hcs : ∀ c ∈ cs, c.isWrite = true) :
    b.Grows (b.performAll cs).toModel := by
  induction cs generalizing b with
  | nil => exact .refl _
  | cons c cs ih =>
    exact (grows_perform (hcs c List.mem_cons_self)).trans
      (ih fun d hd => hcs d (List.mem_cons_of_mem _ hd))

end Builder

end PointsTo
