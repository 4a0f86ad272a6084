import PointsTo.Proofs.Histories
import PointsTo.Proofs.Program.Accepted

/-! The returned variables of a method. The list that a method carries has the variable of each return
statement in its body, once, and in the order of the first statements that return them. -/

namespace PointsTo

/-- The variable that a statement returns. -/
def Stmt.returned? : Stmt → Option VarId
  | .ret var => var
  | _ => none

/-- The variables that the body returns, each at its first return. -/
def Method.ReturnsInOrder (x : Method) : Prop :=
  x.returns.toList = (x.body.toList.filterMap Stmt.returned?).eraseDups

def Model.ReturnsInOrder (m : Model) : Prop := ∀ x ∈ m.methods, x.ReturnsInOrder

namespace Method.ReturnsInOrder

variable {x : Method} (hx : x.ReturnsInOrder)

include hx

theorem mem_returns_iff {v : VarId} : v ∈ x.returns ↔ Stmt.ret (some v) ∈ x.body := by
  rw [← Array.mem_toList_iff, hx, List.mem_eraseDups, List.mem_filterMap]
  constructor
  · rintro ⟨s, hs, heq⟩
    cases s with
    | ret =>
      obtain rfl := heq
      exact Array.mem_toList_iff.1 hs
    | _ => cases heq
  · exact fun h => ⟨_, Array.mem_toList_iff.2 h, rfl⟩

/-- A statement that returns nothing, or what has been returned before. -/
theorem push {s : Stmt} (hs : ∀ v, s.returned? = some v → v ∈ x.returns) :
    ReturnsInOrder { x with body := x.body.push s } := by
  show x.returns.toList = _
  rw [Array.toList_push, List.filterMap_append]
  cases hreturned : s.returned? with
  | none => simpa [hreturned] using show x.returns.toList = _ from hx
  | some v =>
    have hmem := Array.mem_toList_iff.2 (hs v hreturned)
    rw [hx, List.mem_eraseDups] at hmem
    have hlist : [s].filterMap Stmt.returned? = [v] := by simp [hreturned]
    rw [hlist, eraseDups_concat, if_pos hmem]
    exact hx

theorem pushReturned {v : VarId} (hv : v ∉ x.returns) :
    ReturnsInOrder { x with returns := x.returns.push v, body := x.body.push (.ret (some v)) } := by
  show (x.returns.push v).toList = _
  rw [← Array.mem_toList_iff, hx, List.mem_eraseDups] at hv
  rw [Array.toList_push, Array.toList_push, List.filterMap_append, hx]
  exact (eraseDups_concat _ v).symm ▸ (if_neg hv).symm

end Method.ReturnsInOrder

namespace Builder

/-- The variable is listed before its statement is added, to the same method. -/
theorem pushReturn_some (b : Builder) (x : MethodId) (v : VarId) :
    b.pushReturn x (some v) = b.modifyMethod x fun y =>
      { (if y.returns.contains v then y else { y with returns := y.returns.push v }) with
        body := y.body.push (.ret (some v)) } := by
  have hmodify : ∀ (ms : Array Method) (f g : Method → Method),
      (ms.modify x.index f).modify x.index g = ms.modify x.index (g ∘ f) := by
    intro ms f g
    apply Array.ext (by simp)
    intro i _ _
    simp only [Array.getElem_modify]
    split <;> rfl
  rw [pushReturn, push, modifyMethod, modifyMethod, hmodify]
  have hchange : ((fun y : Method => { y with body := y.body.push (.ret (some v)) }) ∘ fun y =>
      if y.returns.contains v then y else { y with returns := y.returns.push v }) = fun y =>
        { (if y.returns.contains v then y else { y with returns := y.returns.push v }) with
          body := y.body.push (.ret (some v)) } := by
    funext y
    rw [Function.comp_apply]
    split <;> rfl
  rw [hchange]
  rfl

variable {b : Builder} (hb : b.ReturnsInOrder)

include hb

theorem returnsInOrder_modifyMethod {x : MethodId} {f : Method → Method}
    (hf : ∀ y : Method, y.ReturnsInOrder → (f y).ReturnsInOrder) : (b.modifyMethod x f).ReturnsInOrder := by
  intro y hy
  rcases Model.mem_modify hy with hy | ⟨z, hz, rfl⟩
  · exact hb y hy
  · exact hf z (hb z hz)

theorem returnsInOrder_var (x : MethodId) (name : String) : (b.var x name).2.ReturnsInOrder := by
  rw [var]
  split
  · exact hb
  · exact returnsInOrder_modifyMethod hb (f := fun y =>
      { y with locals := y.locals.push (name, ⟨b.vars.size⟩) }) fun _ hy => hy

theorem returnsInOrder_addThis (x : MethodId) : (b.addThis x).ReturnsInOrder :=
  returnsInOrder_modifyMethod (returnsInOrder_var hb x "this")
    (f := fun y => { y with this := some (b.var x "this").1 }) fun _ hy => hy

theorem returnsInOrder_addParam (x : MethodId) (name : String) : (b.addParam x name).ReturnsInOrder :=
  returnsInOrder_modifyMethod (returnsInOrder_var hb x name)
    (f := fun y => { y with params := y.params.push (b.var x name).1 }) fun _ hy => hy

theorem returnsInOrder_addParams (x : MethodId) (params : List String) :
    (params.foldl (fun b name => b.addParam x name) b).ReturnsInOrder := by
  induction params generalizing b with
  | nil => exact hb
  | cons name params ih =>
    exact ih (returnsInOrder_addParam hb x name)

theorem returnsInOrder_addMethod {c : ClassId} {s : Subsignature} {isStatic isAbstract : Bool}
    {params : List String} : (b.after (b.addMethod c s isStatic isAbstract params)).ReturnsInOrder := by
  rw [addMethod]
  split
  · exact hb
  · have hdeclared : (b.declare c s isStatic isAbstract).ReturnsInOrder := by
      intro x hx
      rcases Array.mem_push.1 hx with hx | rfl
      · exact hb x hx
      · rfl
    cases isStatic with
    | true => exact returnsInOrder_addParams hdeclared _ params
    | false => exact returnsInOrder_addParams (returnsInOrder_addThis hdeclared _) _ params

theorem returnsInOrder_push {x : MethodId} {s : Stmt} (hs : ∀ v, s.returned? ≠ some v) :
    (b.push x s).ReturnsInOrder :=
  returnsInOrder_modifyMethod hb fun _ hy => hy.push fun v hv => absurd hv (hs v)

theorem returnsInOrder_pushReturn (x : MethodId) (returned : Option VarId) :
    (b.pushReturn x returned).ReturnsInOrder := by
  cases returned with
  | none => exact returnsInOrder_push hb (fun v hv => by cases hv)
  | some v =>
    rw [pushReturn_some]
    refine returnsInOrder_modifyMethod hb fun y hy => ?_
    split
    · rename_i hlisted
      exact hy.push fun w hw => by
        obtain rfl := Option.some.inj hw
        exact Array.contains_iff_mem.1 hlisted
    · rename_i hnew
      exact hy.pushReturned fun hmem => hnew (Array.contains_iff_mem.2 hmem)

theorem returnsInOrder_perform (c : Command) (hc : c.Allowed b) : (c.perform b).ReturnsInOrder := by
  cases c with
  | addClass name kind superclass =>
    rw [Command.perform, Builder.addClass]
    split <;> exact hb
  | addField c name isStatic =>
    rw [Command.perform, Builder.addField]
    split <;> exact hb
  | addMethod => exact returnsInOrder_addMethod hb
  | var x name => exact returnsInOrder_var hb x name
  | push x s =>
    apply returnsInOrder_push hb
    intro v hv
    have hmove := hc.2.1
    cases s with
    | ret => cases hmove
    | _ => cases hv
  | pushNew x lhs c =>
    exact returnsInOrder_push (b := { b with sites := b.sites.push _ }) hb (fun v hv => by cases hv)
  | pushCall x kind cls s receiver args result =>
    exact returnsInOrder_push (b := { b with calls := b.calls.push _ }) hb (fun v hv => by cases hv)
  | pushReturn x returned => exact returnsInOrder_pushReturn hb x returned
  | setSuperclass | addInterface | setAbstract | setEntry => exact hb

omit hb in
theorem returnsInOrder_of_reached (h : b.Reached) : b.ReturnsInOrder := by
  induction h with
  | empty => exact fun x hx => absurd hx (Array.not_mem_empty x)
  | step c _ hc ih => exact returnsInOrder_perform ih c hc

end Builder

namespace Program.Accepted

variable {p : Program} (hp : p.Accepted)

include hp

theorem returnsInOrder (x : MethodId) : (p.method x).ReturnsInOrder := by
  by_cases hx : p.IsMethod x
  · have hmem : p.method x ∈ p.methods := by
      rw [Model.method, Array.getD_eq_getD_getElem?, Array.getElem?_eq_getElem hx]
      exact Array.getElem_mem _
    exact hp.of_reached (fun _ => Builder.returnsInOrder_of_reached) _ hmem
  · rw [Model.method_eq_default hx]
    rfl

theorem mem_returns {x : MethodId} {v : VarId} (hv : Stmt.ret (some v) ∈ (p.method x).body) :
    v ∈ (p.method x).returns := (hp.returnsInOrder x).mem_returns_iff.2 hv

end Program.Accepted

end PointsTo
