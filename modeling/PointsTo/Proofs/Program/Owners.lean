import PointsTo.Proofs.Program.Returns

/-! Owners. The variables that a method lists are its own, it returns what its return statements return,
and a call site stands in the body of the one method that holds it. -/

namespace PointsTo

namespace Model

/-- What a method lists belongs to it. -/
structure Owns (m : Model) (x : MethodId) (y : Method) : Prop where
  locals : ∀ e ∈ y.locals, (m.var e.2).method = x
  this : ∀ v ∈ y.this, (m.var v).method = x
  params : ∀ v ∈ y.params, (m.var v).method = x
  returns : ∀ v ∈ y.returns, .ret (some v) ∈ y.body
  calls : ∀ i, .invoke i ∈ y.body → (m.call i).container = x

structure Owned (m : Model) : Prop where
  methods : ∀ x, m.IsMethod x → m.Owns x (m.method x)
  calls : ∀ i, m.IsCall i → .invoke i ∈ (m.method (m.call i).container).body

variable {m n : Model} {x : MethodId} {y : Method}

theorem Owns.push (hy : m.Owns x y) {s : Stmt} (hs : ∀ i, s = .invoke i → (m.call i).container = x) :
    m.Owns x { y with body := y.body.push s } where
  locals := hy.locals
  this := hy.this
  params := hy.params
  returns v hv := Array.mem_push_of_mem _ (hy.returns v hv)
  calls i hi := by
    rcases Array.mem_push.1 hi with hi | hi
    · exact hy.calls i hi
    · exact hs i hi.symm

/-- Known variables and call sites are the same in a larger model. -/
theorem Owns.of_eq (hy : m.Owns x y) (hknows : m.KnowsMethod y)
    (hvars : ∀ v, m.IsVar v → n.var v = m.var v) (hcalls : ∀ i, m.IsCall i → n.call i = m.call i) :
    n.Owns x y where
  locals e he := by
    rw [hvars _ (hknows.locals e he)]
    exact hy.locals e he
  this v hv := by
    rw [hvars v (hknows.this v hv)]
    exact hy.this v hv
  params v hv := by
    rw [hvars v (hknows.params v hv)]
    exact hy.params v hv
  returns := hy.returns
  calls i hi := by
    rw [hcalls i (hknows.body _ hi)]
    exact hy.calls i hi

theorem method_modify (hx : m.IsMethod x) (f : Method → Method) (z : MethodId) :
    ({ m with methods := m.methods.modify x.index f } : Model).method z =
      if z = x then f (m.method x) else m.method z := by
  simp only [method, Array.getD_eq_getD_getElem?, Array.getElem?_modify]
  by_cases hz : z = x
  · subst hz
    simp [Array.getElem?_eq_getElem hx]
  · have hne : x.index ≠ z.index := fun heq => hz (Id.ext heq.symm)
    simp [hz, hne]

theorem method_push (m : Model) (y : Method) {z : MethodId} (hz : m.IsMethod z) :
    ({ m with methods := m.methods.push y } : Model).method z = m.method z := by
  simp only [method, Array.getD_eq_getD_getElem?, Array.getElem?_push, Nat.ne_of_lt hz, if_false]

namespace Owned

theorem empty : ({} : Model).Owned :=
  ⟨fun x hx => absurd hx (Nat.not_lt_zero x.index), fun i hi => absurd hi (Nat.not_lt_zero i.index)⟩

variable (hm : m.Owned)

include hm

/-- Classes, fields and allocation sites have no say in what belongs to whom. -/
theorem of_eq (hmethods : n.methods = m.methods) (hvars : n.vars = m.vars)
    (hcalls : n.calls = m.calls) : n.Owned := by
  cases m
  cases n
  subst hmethods hvars hcalls
  exact ⟨fun x hx => { hm.methods x hx with }, hm.calls⟩

theorem modifyMethod (hx : m.IsMethod x) {f : Method → Method}
    (hf : ∀ y, m.Owns x y → m.Owns x (f y)) (hbody : ∀ y : Method, ∀ s ∈ y.body, s ∈ (f y).body) :
    ({ m with methods := m.methods.modify x.index f } : Model).Owned where
  methods z hz := by
    have hz : m.IsMethod z := by simpa [IsMethod] using hz
    rw [method_modify hx f z]
    split
    · rename_i heq
      rw [heq]
      exact { hf _ (hm.methods x hx) with }
    · exact { hm.methods z hz with }
  calls i hi := by
    have hcall := hm.calls i hi
    rw [method_modify hx f]
    split
    · rename_i heq
      exact hbody _ _ (heq ▸ hcall)
    · exact hcall

variable (hs : m.Scoped)

include hs

theorem pushVar (v : Var) : ({ m with vars := m.vars.push v } : Model).Owned where
  methods z hz := by
    refine (hm.methods z hz).of_eq (hs.method hz) (fun w hw => ?_) (fun _ _ => rfl)
    simp only [var, Array.getD_eq_getD_getElem?, Array.getElem?_push, Nat.ne_of_lt hw, if_false]
  calls := hm.calls

theorem pushMethod {y : Method} (hy : ({ m with methods := m.methods.push y } : Model).Owns
    ⟨m.methods.size⟩ y) : ({ m with methods := m.methods.push y } : Model).Owned where
  methods z hz := by
    by_cases hold : m.IsMethod z
    · rw [method_push m y hold]
      exact { hm.methods z hold with }
    · rw [IsMethod, Array.size_push] at hz
      obtain rfl : z = ⟨m.methods.size⟩ := Id.ext (Nat.eq_of_lt_succ_of_not_lt hz hold)
      simpa [method] using hy
  calls i hi := by
    show .invoke i ∈ (Model.method _ (m.call i).container).body
    rw [method_push m y (hs.call hi).container]
    exact hm.calls i hi

/-- A new call site goes into the body of the method that it names as its container. -/
theorem pushCall {c : Call} (hx : m.IsMethod c.container) :
    ({ m with
      calls := m.calls.push c
      methods := m.methods.modify c.container.index fun y =>
        { y with body := y.body.push (.invoke ⟨m.calls.size⟩) } } : Model).Owned := by
  have hcalls : ∀ i, m.IsCall i → ({ m with calls := m.calls.push c } : Model).call i = m.call i := by
    intro i hi
    simp only [call, Array.getD_eq_getD_getElem?, Array.getElem?_push, Nat.ne_of_lt hi, if_false]
  have hnew : ({ m with calls := m.calls.push c } : Model).call ⟨m.calls.size⟩ = c := by simp [call]
  constructor
  case methods =>
    intro z hz
    have hz : m.IsMethod z := by simpa [IsMethod] using hz
    have hold : ({ m with calls := m.calls.push c } : Model).Owns z (m.method z) :=
      (hm.methods z hz).of_eq (hs.method hz) (fun _ _ => rfl) hcalls
    have hmethod := method_modify (m := { m with calls := m.calls.push c }) hx
      (fun y => { y with body := y.body.push (.invoke ⟨m.calls.size⟩) }) z
    rw [hmethod]
    split
    · rename_i heq
      subst heq
      refine { hold.push (s := .invoke ⟨m.calls.size⟩) ?_ with }
      intro i hi
      obtain rfl := Stmt.invoke.inj hi
      rw [hnew]
    · exact { hold with }
  case calls =>
    intro i hi
    have hmethod := method_modify (m := { m with calls := m.calls.push c }) hx
      (fun y => { y with body := y.body.push (.invoke ⟨m.calls.size⟩) })
    show .invoke i ∈
      (Model.method _ (({ m with calls := m.calls.push c } : Model).call i).container).body
    rw [hmethod]
    by_cases hold : m.IsCall i
    · rw [hcalls i hold]
      have hcall := hm.calls i hold
      split
      · rename_i heq
        exact Array.mem_push_of_mem _ (heq ▸ hcall)
      · exact hcall
    · rw [IsCall, Array.size_push] at hi
      obtain rfl : i = ⟨m.calls.size⟩ := Id.ext (Nat.eq_of_lt_succ_of_not_lt hi hold)
      rw [hnew, if_pos rfl]
      exact Array.mem_push_self

end Owned

end Model

namespace Builder

variable {b : Builder} {x : MethodId}

/-- The local variable of a name belongs to its method, whether it is introduced by the mention or
not. -/
theorem owned_var (hb : b.Owned) (hs : b.Scoped) (hx : b.IsMethod x) (name : String) :
    (b.var x name).2.Owned ∧ ((b.var x name).2.toModel.var (b.var x name).1).method = x := by
  rw [Builder.var]
  split
  · rename_i v hv
    obtain ⟨e, he, rfl⟩ := Option.map_eq_some_iff.1 hv
    exact ⟨hb, (hb.methods x hx).locals e (Array.mem_of_find?_eq_some he)⟩
  · have hpush := hb.pushVar hs ⟨name, x⟩
    have hnew : ({ b.toModel with vars := b.vars.push ⟨name, x⟩ } : Model).var ⟨b.vars.size⟩ =
        ⟨name, x⟩ := by simp [Model.var]
    refine ⟨hpush.modifyMethod (x := x) hx (f := fun y =>
      { y with locals := y.locals.push (name, ⟨b.vars.size⟩) }) ?_ (fun _ _ h => h), ?_⟩
    · refine fun y hy => { hy with locals := fun e he => ?_ }
      rcases Array.mem_push.1 he with he | rfl
      · exact hy.locals e he
      · rw [hnew]
    · exact congrArg Var.method hnew

theorem owned_addThis (hb : b.Owned) (hs : b.Scoped) (hx : b.IsMethod x) : (b.addThis x).Owned := by
  obtain ⟨hvar, hmethod⟩ := owned_var hb hs hx "this"
  refine hvar.modifyMethod ((scoped_var hs hx "this").1.isMethod hx) (fun y hy => ?_) (fun _ _ h => h)
  refine { hy with this := fun v hv => ?_ }
  cases hv
  exact hmethod

theorem owned_addParam (hb : b.Owned) (hs : b.Scoped) (hx : b.IsMethod x) (name : String) :
    (b.addParam x name).Owned := by
  obtain ⟨hvar, hmethod⟩ := owned_var hb hs hx name
  refine hvar.modifyMethod ((scoped_var hs hx name).1.isMethod hx) (fun y hy => ?_) (fun _ _ h => h)
  refine { hy with params := fun v hv => ?_ }
  rcases Array.mem_push.1 hv with hv | rfl
  · exact hy.params v hv
  · exact hmethod

theorem owned_addParams (hb : b.Owned) (hs : b.Scoped) (hx : b.IsMethod x) (params : List String) :
    (params.foldl (fun b name => b.addParam x name) b).Owned := by
  induction params generalizing b with
  | nil => exact hb
  | cons name params ih =>
    obtain ⟨hfits, hscoped⟩ := scoped_addParam hs hx name
    exact ih (owned_addParam hb hs hx name) hscoped (hfits.isMethod hx)

theorem owned_addMethod (hb : b.Owned) (hs : b.Scoped) {c : ClassId} (hc : b.IsClass c)
    {s : Subsignature} {isStatic isAbstract : Bool} {params : List String} :
    (b.after (b.addMethod c s isStatic isAbstract params)).Owned := by
  rw [addMethod]
  split
  · exact hb
  · obtain ⟨hdeclared, hid⟩ := scoped_declare hs hc s isStatic isAbstract
    have howned : (b.declare c s isStatic isAbstract).Owned :=
      (hb.pushMethod hs (y := ⟨s, c, isStatic, isAbstract, none, #[], #[], #[], #[]⟩)
        (by constructor <;> simp)).of_eq rfl rfl rfl
    cases isStatic with
    | true => exact owned_addParams howned hdeclared hid params
    | false =>
      obtain ⟨hfits, hscoped⟩ := scoped_addThis hdeclared hid
      exact owned_addParams (owned_addThis howned hdeclared hid) hscoped (hfits.isMethod hid) params

theorem owned_push (hb : b.Owned) (hx : b.IsMethod x) {s : Stmt}
    (hs : ∀ i, s = .invoke i → (b.toModel.call i).container = x) : (b.push x s).Owned :=
  hb.modifyMethod hx (fun _ hy => hy.push hs) fun _ _ h => Array.mem_push_of_mem _ h

theorem owned_pushReturn (hb : b.Owned) (hx : b.IsMethod x) (returned : Option VarId) :
    (b.pushReturn x returned).Owned := by
  cases returned with
  | none => exact owned_push hb hx (fun i hi => by cases hi)
  | some v =>
    rw [pushReturn_some]
    refine hb.modifyMethod hx (fun y hy => ?_) fun y s hs => ?_
    · have hpush := hy.push (s := .ret (some v)) fun i hi => by cases hi
      split
      · exact hpush
      · refine { hpush with returns := fun w hw => ?_ }
        rcases Array.mem_push.1 hw with hw | rfl
        · exact hpush.returns w hw
        · exact Array.mem_push_self
    · split
      · exact Array.mem_push_of_mem _ hs
      · exact Array.mem_push_of_mem _ hs

theorem owned_perform (hb : b.Owned) (hs : b.Scoped) {c : Command} (hc : c.Allowed b) :
    (c.perform b).Owned := by
  cases c with
  | addClass name kind superclass =>
    rw [Command.perform, Builder.addClass]
    split
    · exact hb
    · exact hb.of_eq rfl rfl rfl
  | addField c name isStatic =>
    rw [Command.perform, Builder.addField]
    split
    · exact hb
    · exact hb.of_eq rfl rfl rfl
  | setSuperclass | addInterface | setAbstract => exact hb.of_eq rfl rfl rfl
  | addMethod c s isStatic isAbstract params => exact owned_addMethod hb hs hc
  | var x name => exact (owned_var hb hs hc name).1
  | push x s =>
    apply owned_push hb hc.1
    rintro i rfl
    cases hc.2.1
  | pushNew x lhs c =>
    have hsites : ({ b.toModel with sites := b.sites.push ⟨lhs, c, x, (b.method x).body.size⟩ } :
        Model).Owned := hb.of_eq rfl rfl rfl
    exact hsites.modifyMethod hc.1 (fun _ hy => hy.push fun i hi => by cases hi)
      fun _ _ h => Array.mem_push_of_mem _ h
  | pushCall x kind cls s receiver args result =>
    exact hb.pushCall hs (c := ⟨kind, cls, s, receiver, args, result, x, (b.method x).body.size⟩) hc.1
  | pushReturn x returned => exact owned_pushReturn hb hc.1 returned
  | setEntry x => exact hb

theorem owned_of_reached (hb : b.Reached) : b.Owned := by
  induction hb with
  | empty => exact Model.Owned.empty
  | step c hb hc ih => exact owned_perform ih (scoped_of_reached hb) hc

end Builder

namespace Program.Accepted

variable {p : Program} (hp : p.Accepted)

include hp

theorem owned : p.toModel.Owned :=
  hp.of_reached fun _ => Builder.owned_of_reached

/-- A call site stands in the body of its container and in no other. -/
theorem mem_body_iff {x : MethodId} {i : CallId} (hi : p.IsCall i) :
    .invoke i ∈ (p.method x).body ↔ (p.call i).container = x := by
  constructor
  · intro h
    exact (hp.owned.methods x (Model.isMethod_of_mem_body h)).calls i h
  · rintro rfl
    exact hp.owned.calls i hi

theorem isCall_of_mem_body {x : MethodId} {i : CallId} (h : .invoke i ∈ (p.method x).body) :
    p.IsCall i := (hp.scope.method (Model.isMethod_of_mem_body h)).body _ h

theorem container_of_mem_body {x : MethodId} {i : CallId} (h : .invoke i ∈ (p.method x).body) :
    (p.call i).container = x := (hp.mem_body_iff (hp.isCall_of_mem_body h)).1 h

/-- The receiver, arguments and result of a call belong to the method that holds it. -/
theorem method_of_mem_varsOf_invoke {i : CallId} (hi : p.IsCall i) {v : VarId}
    (hv : v ∈ p.varsOf (.invoke i)) : (p.var v).method = (p.call i).container :=
  hp.method_of_mem_varsOf (hp.owned.calls i hi) hv

variable {x : MethodId} (hx : p.IsMethod x) {v : VarId}

include hx

theorem method_of_this (hv : (p.method x).this = some v) : (p.var v).method = x :=
  (hp.owned.methods x hx).this v hv

theorem method_of_mem_params (hv : v ∈ (p.method x).params) : (p.var v).method = x :=
  (hp.owned.methods x hx).params v hv

theorem method_of_mem_returns (hv : v ∈ (p.method x).returns) : (p.var v).method = x := by
  apply hp.method_of_mem_varsOf ((hp.owned.methods x hx).returns v hv)
  simp [Model.varsOf]

end Program.Accepted

end PointsTo
