import PointsTo.Program.Builder
import PointsTo.Proofs.Program.Scope

/-! What can be asked of a builder. A builder is reached from the empty one by commands whose
identifiers come from that builder; a command that is refused leaves it as it was. Builders so reached
are scoped, and with them the programs they finish. -/

namespace PointsTo

namespace Stmt

/-- Whether a statement only moves references; the others have commands of their own. -/
def isMove : Stmt → Bool
  | .new _ | .invoke _ | .ret _ => false
  | _ => true

end Stmt

namespace Builder

inductive Command where
  | addClass (name : String) (kind : ClassKind) (superclass : Option ClassId)
  | setSuperclass (c : ClassId) (superclass : Option ClassId)
  | addInterface (c interface : ClassId)
  | setAbstract (c : ClassId) (isAbstract : Bool)
  | addField (c : ClassId) (name : String) (isStatic : Bool)
  | addMethod (c : ClassId) (s : Subsignature) (isStatic isAbstract : Bool) (params : List String)
  | var (x : MethodId) (name : String)
  | push (x : MethodId) (s : Stmt)
  | pushNew (x : MethodId) (lhs : VarId) (c : ClassId)
  | pushCall (x : MethodId) (kind : CallKind) (cls : ClassId) (s : Subsignature)
      (receiver : Option VarId) (args : List VarId) (result : Option VarId)
  | pushReturn (x : MethodId) (returned : Option VarId)
  | setEntry (x : MethodId)

/-- The builder after a step that may be refused. -/
def after {α : Type} (b : Builder) : Except ProgramError (α × Builder) → Builder
  | .ok (_, next) => next
  | .error _ => b

namespace Command

/-- The identifiers in the command come from the builder. -/
def Allowed (b : Builder) : Command → Prop
  | addClass _ _ superclass => ∀ d ∈ superclass, b.IsClass d
  | setSuperclass c superclass => b.IsClass c ∧ ∀ d ∈ superclass, b.IsClass d
  | addInterface c interface => b.IsClass c ∧ b.IsClass interface
  | setAbstract c _ => b.IsClass c
  | addField c _ _ => b.IsClass c
  | addMethod c _ _ _ _ => b.IsClass c
  | var x _ => b.IsMethod x
  | push x s => b.IsMethod x ∧ s.isMove = true ∧ b.KnowsStmt s
  | pushNew x lhs c => b.IsMethod x ∧ b.IsVar lhs ∧ b.IsClass c
  | pushCall x _ cls _ receiver args result =>
    b.IsMethod x ∧ b.IsClass cls ∧ (∀ v ∈ receiver, b.IsVar v) ∧ (∀ v ∈ args, b.IsVar v) ∧
      ∀ v ∈ result, b.IsVar v
  | pushReturn x returned => b.IsMethod x ∧ ∀ v ∈ returned, b.IsVar v
  | setEntry x => b.IsMethod x

def perform (b : Builder) : Command → Builder
  | addClass name kind superclass => b.after (b.addClass name kind superclass)
  | setSuperclass c superclass => b.setSuperclass c superclass
  | addInterface c interface => b.addInterface c interface
  | setAbstract c isAbstract => b.setAbstract c isAbstract
  | addField c name isStatic => b.after (b.addField c name isStatic)
  | addMethod c s isStatic isAbstract params => b.after (b.addMethod c s isStatic isAbstract params)
  | var x name => (b.var x name).2
  | push x s => b.push x s
  | pushNew x lhs c => (b.pushNew x lhs c).2
  | pushCall x kind cls s receiver args result =>
    (b.pushCall x { kind, cls, subsignature := s, receiver, args, result, container := x, index := 0 }).2
  | pushReturn x returned => b.pushReturn x returned
  | setEntry x => b.setEntry x

instance (b : Builder) : (c : Command) → Decidable (c.Allowed b)
  | addClass _ _ superclass => inferInstanceAs (Decidable (∀ d ∈ superclass, b.IsClass d))
  | setSuperclass _ superclass =>
    inferInstanceAs (Decidable (b.IsClass _ ∧ ∀ d ∈ superclass, b.IsClass d))
  | addInterface _ _ => inferInstanceAs (Decidable (b.IsClass _ ∧ b.IsClass _))
  | setAbstract _ _ | addField _ _ _ | addMethod _ _ _ _ _ => inferInstanceAs (Decidable (b.IsClass _))
  | var _ _ | setEntry _ => inferInstanceAs (Decidable (b.IsMethod _))
  | push _ s => inferInstanceAs (Decidable (b.IsMethod _ ∧ s.isMove = true ∧ b.KnowsStmt s))
  | pushNew _ _ _ => inferInstanceAs (Decidable (b.IsMethod _ ∧ b.IsVar _ ∧ b.IsClass _))
  | pushCall _ _ _ _ receiver args result => inferInstanceAs (Decidable (b.IsMethod _ ∧ b.IsClass _ ∧
      (∀ v ∈ receiver, b.IsVar v) ∧ (∀ v ∈ args, b.IsVar v) ∧ ∀ v ∈ result, b.IsVar v))
  | pushReturn _ returned => inferInstanceAs (Decidable (b.IsMethod _ ∧ ∀ v ∈ returned, b.IsVar v))

end Command

/-- The builder comes from the empty one by allowed commands. -/
inductive Reached : Builder → Prop where
  | empty : Reached .empty
  | step {b : Builder} (c : Command) (hb : Reached b) (hc : c.Allowed b) : Reached (c.perform b)

/-- Each command of a list is allowed once those before it have been performed. -/
def AllAllowed : Builder → List Command → Prop
  | _, [] => True
  | b, c :: cs => c.Allowed b ∧ AllAllowed (c.perform b) cs

instance decidableAllAllowed : (b : Builder) → (cs : List Command) → Decidable (b.AllAllowed cs)
  | _, [] => inferInstanceAs (Decidable True)
  | b, c :: cs =>
    have := decidableAllAllowed (c.perform b) cs
    inferInstanceAs (Decidable (c.Allowed b ∧ AllAllowed (c.perform b) cs))

def performAll (b : Builder) (cs : List Command) : Builder :=
  cs.foldl (fun b c => c.perform b) b

theorem Reached.performAll {b : Builder} (hb : b.Reached) {cs : List Command}
    (hcs : b.AllAllowed cs) : (b.performAll cs).Reached := by
  induction cs generalizing b with
  | nil => exact hb
  | cons c cs ih => exact ih (hb.step c hcs.1) hcs.2

end Builder

/-- A builder whose identifiers are its own has accepted the program. -/
def Program.Accepted (p : Program) : Prop := ∃ b : Builder, b.Reached ∧ b.build = .ok p

namespace Builder

/-! ### Commands keep a builder scoped -/

variable {b : Builder}

/-- The local variable of a name is known, whether it is introduced by the mention or not. -/
theorem scoped_var (hb : b.Scoped) {x : MethodId} (hx : b.IsMethod x) (name : String) :
    b.Fits (b.var x name).2.toModel ∧ (b.var x name).2.Scoped ∧
      (b.var x name).2.IsVar (b.var x name).1 := by
  rw [var]
  split
  · rename_i v hv
    refine ⟨.refl _, hb, ?_⟩
    obtain ⟨e, he, rfl⟩ := Option.map_eq_some_iff.1 hv
    exact (hb.method hx).locals e (Array.mem_of_find?_eq_some he)
  · refine ⟨?_, ?_, ?_⟩
    · exact { Model.Fits.refl b.toModel with
        methods := Nat.le_of_eq Array.size_modify.symm
        vars := by simp [modifyMethod] }
    · refine (hb.pushVar (v := ⟨name, x⟩) hx).modifyMethod x.index
        (f := fun y => { y with locals := y.locals.push (name, ⟨b.vars.size⟩) }) ?_
      refine fun y hy => { hy with locals := fun e he => ?_ }
      rcases Array.mem_push.1 he with he | rfl
      · exact hy.locals e he
      · show b.vars.size < (b.vars.push _).size
        simp
    · show b.vars.size < (b.vars.push _).size
      simp

theorem scoped_addThis (hb : b.Scoped) {x : MethodId} (hx : b.IsMethod x) :
    b.Fits (b.addThis x).toModel ∧ (b.addThis x).Scoped := by
  obtain ⟨hfits, hscoped, hv⟩ := scoped_var hb hx "this"
  refine ⟨hfits.trans { Model.Fits.refl _ with methods := Nat.le_of_eq Array.size_modify.symm }, ?_⟩
  refine hscoped.modifyMethod x.index fun y hy => { hy with this := fun v hmem => ?_ }
  cases hmem
  exact hv

theorem scoped_addParam (hb : b.Scoped) {x : MethodId} (hx : b.IsMethod x) (name : String) :
    b.Fits (b.addParam x name).toModel ∧ (b.addParam x name).Scoped := by
  obtain ⟨hfits, hscoped, hv⟩ := scoped_var hb hx name
  refine ⟨hfits.trans { Model.Fits.refl _ with methods := Nat.le_of_eq Array.size_modify.symm }, ?_⟩
  refine hscoped.modifyMethod x.index fun y hy => { hy with params := fun v hmem => ?_ }
  rcases Array.mem_push.1 hmem with hmem | rfl
  · exact hy.params v hmem
  · exact hv

theorem scoped_addParams (hb : b.Scoped) {x : MethodId} (hx : b.IsMethod x) (params : List String) :
    (params.foldl (fun b name => b.addParam x name) b).Scoped := by
  induction params generalizing b with
  | nil => exact hb
  | cons name params ih =>
    obtain ⟨hfits, hscoped⟩ := scoped_addParam hb hx name
    exact ih hscoped (hfits.isMethod hx)

/-- The builder with a new method, which has no variables or statements yet, entered in its class. -/
def declare (b : Builder) (c : ClassId) (s : Subsignature) (isStatic isAbstract : Bool) : Builder :=
  { b.modifyClass c fun x => { x with methods := x.methods.push (s, (⟨b.methods.size⟩ : MethodId)) } with
    methods := b.methods.push ⟨s, c, isStatic, isAbstract, none, #[], #[], #[], #[]⟩ }

theorem scoped_declare (hb : b.Scoped) {c : ClassId} (hc : b.IsClass c) (s : Subsignature)
    (isStatic isAbstract : Bool) : (b.declare c s isStatic isAbstract).Scoped ∧
      (b.declare c s isStatic isAbstract).IsMethod ⟨b.methods.size⟩ := by
  have hid : (b.declare c s isStatic isAbstract).IsMethod ⟨b.methods.size⟩ := by
    show b.methods.size < (b.methods.push _).size
    simp
  refine ⟨?_, hid⟩
  refine (hb.pushMethod (x := ⟨s, c, isStatic, isAbstract, none, #[], #[], #[], #[]⟩) ?_).modifyClass
    c.index (f := fun x => { x with methods := x.methods.push (s, ⟨b.methods.size⟩) }) ?_
  · exact ⟨hc, by simp, by simp, by simp, by simp, by simp⟩
  · refine fun x hx => { hx with methods := fun e he => ?_ }
    rcases Array.mem_push.1 he with he | rfl
    · exact hx.methods e he
    · exact hid

theorem scoped_addMethod (hb : b.Scoped) {c : ClassId} (hc : b.IsClass c) {s : Subsignature}
    {isStatic isAbstract : Bool} {params : List String} :
    (b.after (b.addMethod c s isStatic isAbstract params)).Scoped := by
  rw [addMethod]
  split
  · exact hb
  · obtain ⟨hdeclared, hid⟩ := scoped_declare hb hc s isStatic isAbstract
    cases isStatic with
    | true => exact scoped_addParams hdeclared hid params
    | false =>
      obtain ⟨hfits, hscoped⟩ := scoped_addThis hdeclared hid
      exact scoped_addParams hscoped (hfits.isMethod hid) params

/-- Each command makes a few edits. A name is entered after what it stands for has been added, whatever
the order in which the builder does the two. -/
theorem scoped_perform (hb : b.Scoped) {c : Command} (hc : c.Allowed b) : (c.perform b).Scoped := by
  cases c with
  | addClass name kind superclass =>
    rw [Command.perform, Builder.addClass]
    split
    · exact hb
    · exact hb.pushClass ⟨hc, by simp, by simp, by simp⟩
  | setSuperclass c superclass =>
    exact hb.modifyClass c.index fun x hx => { hx with superclass := hc.2 }
  | addInterface c interface =>
    refine hb.modifyClass c.index fun x hx => { hx with interfaces := fun d hd => ?_ }
    rcases Array.mem_push.1 hd with hd | rfl
    · exact hx.interfaces d hd
    · exact hc.2
  | setAbstract c isAbstract => exact hb.modifyClass c.index fun x hx => { hx with }
  | addField c name isStatic =>
    rw [Command.perform, Builder.addField]
    split
    · exact hb
    · refine (hb.pushField (f := ⟨name, c, isStatic⟩) hc).modifyClass c.index
        (f := fun x => { x with fields := x.fields.push (name, ⟨b.fields.size⟩) }) ?_
      refine fun x hx => { hx with fields := fun e he => ?_ }
      rcases Array.mem_push.1 he with he | rfl
      · exact hx.fields e he
      · show b.fields.size < (b.fields.push _).size
        simp
  | addMethod c s isStatic isAbstract params => exact scoped_addMethod hb hc
  | var x name => exact (scoped_var hb hc name).2.1
  | push x s => exact hb.pushStmt x.index hc.2.2
  | pushNew x lhs c =>
    refine (hb.pushSite (s := ⟨lhs, c, x, (b.method x).body.size⟩) ⟨hc.2.1, hc.2.2, hc.1⟩).pushStmt
      x.index (s := .new ⟨b.sites.size⟩) ?_
    show b.sites.size < (b.sites.push _).size
    simp
  | pushCall x kind cls s receiver args result =>
    refine (hb.pushCall (c := ⟨kind, cls, s, receiver, args, result, x, (b.method x).body.size⟩)
      ⟨hc.2.1, hc.2.2.1, hc.2.2.2.1, hc.2.2.2.2, hc.1⟩).pushStmt x.index (s := .invoke ⟨b.calls.size⟩) ?_
    show b.calls.size < (b.calls.push _).size
    simp
  | pushReturn x returned =>
    cases returned with
    | none => exact hb.pushStmt x.index (s := .ret none) (fun v hv => by cases hv)
    | some w =>
      have hreturns : (b.modifyMethod x fun y =>
          if y.returns.contains w then y else { y with returns := y.returns.push w }).Scoped := by
        apply hb.modifyMethod x.index
        intro y hy
        split
        · exact hy
        · refine { hy with returns := fun v hv => ?_ }
          rcases Array.mem_push.1 hv with hv | rfl
          · exact hy.returns v hv
          · exact hc.2 v rfl
      exact hreturns.pushStmt x.index (s := .ret (some w)) hc.2
  | setEntry x => exact hb

theorem scoped_of_reached (hb : b.Reached) : b.Scoped := by
  induction hb with
  | empty => exact Model.Scoped.empty
  | step c _ hc ih => exact scoped_perform ih hc

end Builder

end PointsTo
