import PointsTo.Proofs.Program.Owners

/-! Where statements stand. An allocation site and a call site know the method that holds them and their
place in its body; there they stand, and nowhere else. Commands that write nothing leave all bodies
alone. -/

namespace PointsTo

namespace Model

/-- The numbered statements are just where they are said to be placed. -/
def Stands (m : Model) (place : Nat → Option (MethodId × Nat)) (stmt : Nat → Stmt) : Prop :=
  ∀ i x k, (m.method x).body[k]? = some (stmt i) ↔ place i = some (x, k)

def sitePlace? (m : Model) (i : Nat) : Option (MethodId × Nat) :=
  m.sites[i]?.map fun s => (s.container, s.index)

def callPlace? (m : Model) (i : Nat) : Option (MethodId × Nat) :=
  m.calls[i]?.map fun c => (c.container, c.index)

structure Placed (m : Model) : Prop where
  sites : m.Stands m.sitePlace? fun i => .new ⟨i⟩
  calls : m.Stands m.callPlace? fun i => .invoke ⟨i⟩

variable {m n k : Model}

theorem sitePlace?_eq_some_iff {i : SiteId} {x : MethodId} {k : Nat} : m.sitePlace? i.index = some (x, k) ↔
    m.IsSite i ∧ (m.site i).container = x ∧ (m.site i).index = k := by
  rw [sitePlace?, IsSite, site, Array.getD_eq_getD_getElem?]
  by_cases hi : i.index < m.sites.size
  · simp [hi]
  · simp [hi]

theorem callPlace?_eq_some_iff {i : CallId} {x : MethodId} {k : Nat} : m.callPlace? i.index = some (x, k) ↔
    m.IsCall i ∧ (m.call i).container = x ∧ (m.call i).index = k := by
  rw [callPlace?, IsCall, call, Array.getD_eq_getD_getElem?]
  by_cases hi : i.index < m.calls.size
  · simp [hi]
  · simp [hi]

/-! ### Bodies that stay the same -/

/-- Neither the bodies nor the sites in them differ. -/
structure SameBodies (m n : Model) : Prop where
  body : ∀ x, (n.method x).body = (m.method x).body
  sites : n.sites = m.sites
  calls : n.calls = m.calls

namespace SameBodies

theorem refl (m : Model) : m.SameBodies m := ⟨fun _ => rfl, rfl, rfl⟩

theorem trans (h : m.SameBodies n) (h' : n.SameBodies k) : m.SameBodies k :=
  ⟨fun x => (h'.body x).trans (h.body x), h'.sites.trans h.sites, h'.calls.trans h.calls⟩

theorem modifyMethod (m : Model) (x : MethodId) {f : Method → Method} (hf : ∀ y, (f y).body = y.body) :
    m.SameBodies { m with methods := m.methods.modify x.index f } := by
  refine ⟨fun z => ?_, rfl, rfl⟩
  simp only [method, Array.getD_eq_getD_getElem?, Array.getElem?_modify]
  split
  · cases m.methods[z.index]? with
    | none => rfl
    | some y => exact hf y
  · rfl

/-- A new method has no statements, as if it were not there. -/
theorem pushMethod (m : Model) {y : Method} (hy : y.body = #[]) :
    m.SameBodies { m with methods := m.methods.push y } := by
  refine ⟨fun z => ?_, rfl, rfl⟩
  simp only [method, Array.getD_eq_getD_getElem?, Array.getElem?_push]
  split
  · rename_i heq
    rw [heq, Array.getElem?_eq_none (Nat.le_refl _)]
    exact hy
  · rfl

theorem placed (h : m.SameBodies n) (hm : m.Placed) : n.Placed where
  sites i x k := by
    rw [h.body, sitePlace?, h.sites]
    exact hm.sites i x k
  calls i x k := by
    rw [h.body, callPlace?, h.calls]
    exact hm.calls i x k

end SameBodies

/-- Classes, fields and variables have no say in where statements stand. -/
theorem Placed.of_eq (hm : m.Placed) (hmethods : n.methods = m.methods) (hsites : n.sites = m.sites)
    (hcalls : n.calls = m.calls) : n.Placed := by
  apply SameBodies.placed _ hm
  exact ⟨fun x => by rw [method, hmethods, method], hsites, hcalls⟩

/-! ### A statement more -/

section Push

variable {x : MethodId} {s : Stmt} {place place' : Nat → Option (MethodId × Nat)} {stmt : Nat → Stmt}

/-- The body of one method gets longer by a statement. -/
def Pushes (m n : Model) (x : MethodId) (s : Stmt) : Prop :=
  ∀ z, (n.method z).body = if z = x then (m.method x).body.push s else (m.method z).body

theorem Pushes.getElem?_body (h : m.Pushes n x s) {z : MethodId} {k : Nat} {t : Stmt} :
    (n.method z).body[k]? = some t ↔
      (m.method z).body[k]? = some t ∨ z = x ∧ k = (m.method x).body.size ∧ t = s := by
  rw [h z]
  by_cases hz : z = x
  · subst hz
    rw [if_pos rfl, Array.getElem?_push]
    by_cases hk : k = (m.method z).body.size
    · subst hk
      simp [eq_comm]
    · simp [hk]
  · simp [hz]

theorem Stands.push (hm : m.Stands place stmt) (h : m.Pushes n x s)
    (hplace : ∀ i, place' i = if stmt i = s then some (x, (m.method x).body.size) else place i)
    (hnew : ∀ i, stmt i = s → place i = none) : n.Stands place' stmt := by
  intro i z k
  rw [h.getElem?_body, hm i z k, hplace i]
  by_cases hs : stmt i = s
  · rw [if_pos hs, hnew i hs]
    simp [hs, eq_comm]
  · simp [hs]

/-- A statement of another sort. -/
theorem Stands.push_of_ne (hm : m.Stands place stmt) (h : m.Pushes n x s) (hs : ∀ i, stmt i ≠ s) :
    n.Stands place stmt :=
  hm.push h (fun i => (if_neg (hs i)).symm) fun i heq => absurd heq (hs i)

theorem Placed.push_of_ne (hm : m.Placed) (h : m.Pushes n x s) (hsites : n.sites = m.sites)
    (hcalls : n.calls = m.calls) (hnew : ∀ i, .new i ≠ s) (hinvoke : ∀ i, .invoke i ≠ s) : n.Placed := by
  constructor
  case sites =>
    rw [funext fun i => show n.sitePlace? i = m.sitePlace? i by rw [sitePlace?, hsites, sitePlace?]]
    exact hm.sites.push_of_ne h fun i => hnew ⟨i⟩
  case calls =>
    rw [funext fun i => show n.callPlace? i = m.callPlace? i by rw [callPlace?, hcalls, callPlace?]]
    exact hm.calls.push_of_ne h fun i => hinvoke ⟨i⟩

theorem pushes_modify (m : Model) (hx : m.IsMethod x) (s : Stmt) {f : Method → Method}
    (hf : ∀ y, (f y).body = y.body.push s) :
    m.Pushes { m with methods := m.methods.modify x.index f } x s := by
  intro z
  rw [method_modify hx]
  split
  · exact hf _
  · rfl

end Push

end Model

namespace Builder

variable {b : Builder} {x : MethodId}

/-! ### Commands that write nothing -/

theorem sameBodies_var (b : Builder) (x : MethodId) (name : String) :
    b.SameBodies (b.var x name).2.toModel := by
  rw [var]
  split
  · exact .refl _
  · have hmodify := Model.SameBodies.modifyMethod b.toModel x
      (f := fun y => { y with locals := y.locals.push (name, ⟨b.vars.size⟩) }) fun _ => rfl
    exact ⟨hmodify.body, rfl, rfl⟩

theorem sameBodies_addThis (b : Builder) (x : MethodId) : b.SameBodies (b.addThis x).toModel :=
  (sameBodies_var b x "this").trans (.modifyMethod _ x fun _ => rfl)

theorem sameBodies_addParams (b : Builder) (x : MethodId) (params : List String) :
    b.SameBodies (params.foldl (fun b name => b.addParam x name) b).toModel := by
  induction params generalizing b with
  | nil => exact .refl _
  | cons name params ih =>
    have hparam : b.SameBodies (b.addParam x name).toModel := (sameBodies_var b x name).trans
      (.modifyMethod _ x (f := fun y => { y with params := y.params.push (b.var x name).1 }) fun _ => rfl)
    exact hparam.trans (ih (b.addParam x name))

theorem sameBodies_addMethod (b : Builder) (c : ClassId) (s : Subsignature) (isStatic isAbstract : Bool)
    (params : List String) :
    b.SameBodies (b.after (b.addMethod c s isStatic isAbstract params)).toModel := by
  rw [addMethod]
  split
  · exact .refl _
  · have hdeclared : b.SameBodies (b.declare c s isStatic isAbstract).toModel :=
      ⟨(Model.SameBodies.pushMethod b.toModel rfl).body, rfl, rfl⟩
    cases isStatic with
    | true => exact hdeclared.trans (sameBodies_addParams _ _ params)
    | false =>
      exact hdeclared.trans ((sameBodies_addThis _ _).trans (sameBodies_addParams _ _ params))

/-! ### Placing -/

theorem pushes_pushReturn (hx : b.IsMethod x) (returned : Option VarId) :
    b.Pushes (b.pushReturn x returned).toModel x (.ret returned) := by
  cases returned with
  | none => exact b.toModel.pushes_modify hx _ fun _ => rfl
  | some v =>
    rw [pushReturn_some]
    exact b.toModel.pushes_modify hx _ fun _ => rfl

theorem placed_perform (hb : b.Placed) {c : Command} (hc : c.Allowed b) : (c.perform b).Placed := by
  cases c with
  | addClass name kind superclass =>
    rw [Command.perform, addClass]
    split
    · exact hb
    · exact hb.of_eq rfl rfl rfl
  | addField c name isStatic =>
    rw [Command.perform, addField]
    split
    · exact hb
    · exact hb.of_eq rfl rfl rfl
  | setSuperclass | addInterface | setAbstract | setEntry =>
    exact hb.of_eq rfl rfl rfl
  | addMethod c s isStatic isAbstract params =>
    exact (sameBodies_addMethod b c s isStatic isAbstract params).placed hb
  | var x name => exact (sameBodies_var b x name).placed hb
  | push x s =>
    have hpush : b.Pushes (b.push x s).toModel x s := b.toModel.pushes_modify hc.1 _ fun _ => rfl
    have hmove := hc.2.1
    apply hb.push_of_ne hpush rfl rfl
    · rintro i rfl
      cases hmove
    · rintro i rfl
      cases hmove
  | pushNew x lhs c =>
    have hpush : b.Pushes (b.pushNew x lhs c).2.toModel x (.new ⟨b.sites.size⟩) :=
      b.toModel.pushes_modify hc.1 _ fun _ => rfl
    refine ⟨hb.sites.push hpush (fun i => ?_) fun i hi => ?_, hb.calls.push_of_ne hpush fun i hi => ?_⟩
    · show (b.sites.push _)[i]?.map _ = _
      rw [Array.getElem?_push]
      by_cases hi : i = b.sites.size
      · simp [hi]
      · simp [hi, Model.sitePlace?]
    · obtain rfl : i = b.sites.size := congrArg Id.index (Stmt.new.inj hi)
      simp [Model.sitePlace?]
    · cases hi
  | pushCall x kind cls s receiver args result =>
    have hpush : b.Pushes (Command.perform b (.pushCall x kind cls s receiver args result)).toModel x
        (.invoke ⟨b.calls.size⟩) := b.toModel.pushes_modify hc.1 _ fun _ => rfl
    refine ⟨hb.sites.push_of_ne hpush fun i hi => ?_, hb.calls.push hpush (fun i => ?_) fun i hi => ?_⟩
    · cases hi
    · show (b.calls.push _)[i]?.map _ = _
      rw [Array.getElem?_push]
      by_cases hi : i = b.calls.size
      · simp [hi]
      · simp [hi, Model.callPlace?]
    · obtain rfl : i = b.calls.size := congrArg Id.index (Stmt.invoke.inj hi)
      simp [Model.callPlace?]
  | pushReturn x returned =>
    have hsites : (b.pushReturn x returned).sites = b.sites := by cases returned <;> rfl
    have hcalls : (b.pushReturn x returned).calls = b.calls := by cases returned <;> rfl
    apply hb.push_of_ne (pushes_pushReturn hc.1 returned) hsites hcalls
    · exact fun i hi => by cases hi
    · exact fun i hi => by cases hi

theorem placed_of_reached (hb : b.Reached) : b.Placed := by
  induction hb with
  | empty =>
    have hbody : ∀ x, (Builder.empty.method x).body = #[] := fun x => rfl
    constructor
    · intro i x k
      rw [hbody]
      simp [Model.sitePlace?, empty]
    · intro i x k
      rw [hbody]
      simp [Model.callPlace?, empty]
  | step c _ hc ih => exact placed_perform ih hc

end Builder

namespace Program.Accepted

variable {p : Program} (hp : p.Accepted)

include hp

theorem placed : p.toModel.Placed :=
  hp.of_reached fun _ => Builder.placed_of_reached

theorem container_of_new_mem_body {x : MethodId} {i : SiteId} (h : .new i ∈ (p.method x).body) :
    (p.site i).container = x := by
  obtain ⟨k, hk⟩ := Array.mem_iff_getElem?.1 h
  obtain ⟨s, hs, heq⟩ := Option.map_eq_some_iff.1 ((hp.placed.sites i.index x k).1 hk)
  obtain ⟨rfl, -⟩ := Prod.mk.inj heq
  rw [Model.site, Array.getD_eq_getD_getElem?, hs]
  rfl

end Program.Accepted

end PointsTo
