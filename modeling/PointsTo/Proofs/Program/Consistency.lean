import PointsTo.Proofs.Program.Bodies
import PointsTo.Proofs.Program.Instances
import PointsTo.Proofs.Program.Listings

/-! Consistent programs. A program refers from statements to sites and calls and back, from names to
variables and back, and from classes and variables to what has been said about them elsewhere. Whatever the
commands that a program is assembled by, the two directions agree. Refused commands are as if they had not
been given. -/

namespace PointsTo

namespace Builder

namespace Command

/-- What a command answers: the number of what it introduces or mentions, or an error. -/
def answer (b : Builder) : Command → Except ProgramError (Option Nat)
  | addClass name kind superclass => (b.addClass name kind superclass).map fun r => some r.1.index
  | addField c name isStatic => (b.addField c name isStatic).map fun r => some r.1.index
  | addMethod c s isStatic isAbstract params =>
    (b.addMethod c s isStatic isAbstract params).map fun r => some r.1.index
  | var x name => .ok (some (b.var x name).1.index)
  | pushNew x lhs c => .ok (some (b.pushNew x lhs c).1.index)
  | pushCall x kind cls s receiver args result =>
    .ok (some (b.pushCall x
      { kind, cls, subsignature := s, receiver, args, result, container := x, index := 0 }).1.index)
  | _ => .ok none

/-- Only declarations can be refused. -/
theorem perform_of_refused {b : Builder} {c : Command} (hc : (c.answer b).isOk = false) :
    c.perform b = b := by
  have hafter : ∀ {α : Type} (e : Except ProgramError (α × Builder)) (f : α × Builder → Option Nat),
      (e.map f).isOk = false → b.after e = b := by
    intro α e f he
    cases e with
    | error => rfl
    | ok => cases he
  cases c with
  | addClass | addField | addMethod => exact hafter _ _ hc
  | _ => cases hc

end Command

/-- The answers to commands that are given one after the other. -/
def answers : Builder → List Command → List (Except ProgramError (Option Nat))
  | _, [] => []
  | b, c :: cs => c.answer b :: answers (c.perform b) cs

/-- The commands that are not refused. -/
def granted : Builder → List Command → List Command
  | _, [] => []
  | b, c :: cs => if (c.answer b).isOk then c :: granted (c.perform b) cs else granted b cs

theorem performAll_granted (b : Builder) (cs : List Command) :
    b.performAll (b.granted cs) = b.performAll cs := by
  induction cs generalizing b with
  | nil => rfl
  | cons c cs ih =>
    rw [granted]
    split
    · exact ih (c.perform b)
    · rename_i hc
      have hsame : b.performAll (c :: cs) = b.performAll cs :=
        congrArg (performAll · cs) (Command.perform_of_refused (Bool.not_eq_true _ ▸ hc))
      rw [ih, hsame]

/-- Refused commands make no difference to what the others are answered. -/
theorem answers_granted (b : Builder) (cs : List Command) :
    b.answers (b.granted cs) = (b.answers cs).filter (·.isOk) := by
  induction cs generalizing b with
  | nil => rfl
  | cons c cs ih =>
    rw [granted, answers, List.filter_cons]
    split
    · rw [answers, ih]
    · rename_i hc
      rw [ih, Command.perform_of_refused (Bool.not_eq_true _ ▸ hc)]

theorem AllAllowed.granted {b : Builder} {cs : List Command} (hcs : b.AllAllowed cs) :
    b.AllAllowed (b.granted cs) := by
  induction cs generalizing b with
  | nil => trivial
  | cons c cs ih =>
    obtain ⟨hc, hcs⟩ := hcs
    rw [Builder.granted]
    split
    · exact ⟨hc, ih hcs⟩
    · rename_i hrefused
      rw [Command.perform_of_refused (Bool.not_eq_true _ ▸ hrefused)] at hcs
      exact ih hcs

end Builder

namespace Program

/-- What a program says in two places agrees. -/
structure Consistent (p : Program) : Prop where
  sites : ∀ i x k, (p.method x).body[k]? = some (.new i) ↔
    p.IsSite i ∧ (p.site i).container = x ∧ (p.site i).index = k
  calls : ∀ i x k, (p.method x).body[k]? = some (.invoke i) ↔
    p.IsCall i ∧ (p.call i).container = x ∧ (p.call i).index = k
  locals : ∀ v, p.IsVar v → (p.method (p.var v).method).local? (p.var v).name = some v
  names : ∀ v w, p.IsVar v → p.IsVar w → (p.var v).method = (p.var w).method →
    (p.var v).name = (p.var w).name → v = w
  this : ∀ x, p.IsMethod x → (p.method x).this.isSome = !(p.method x).isStatic
  returns : ∀ x, (p.method x).returns.toList =
    ((p.method x).body.toList.filterMap Stmt.returned?).eraseDups
  returns_nodup : ∀ x, (p.method x).returns.toList.Nodup
  subclasses : ∀ d, p.IsClass d → (p.directSubtypes d).subclasses.toList =
    p.classIds.filter fun c => (p.cls c).superclass = some d
  implementors : ∀ d, p.IsClass d → (p.directSubtypes d).implementors.toList =
    p.classIds.flatMap fun c =>
      if (p.cls c).isInterface then [] else List.replicate ((p.cls c).interfaces.count d) c
  subinterfaces : ∀ d, p.IsClass d → (p.directSubtypes d).subinterfaces.toList =
    p.classIds.flatMap fun c =>
      if (p.cls c).isInterface then List.replicate ((p.cls c).interfaces.count d) c else []
  storeFields : ∀ v, p.IsVar v → (p.usesOf v).storeFields.toList =
    (p.method (p.var v).method).body.toList.filterMap (Stmt.fieldStored? v)
  loadFields : ∀ v, p.IsVar v → (p.usesOf v).loadFields.toList =
    (p.method (p.var v).method).body.toList.filterMap (Stmt.fieldLoaded? v)
  storeArrays : ∀ v, p.IsVar v → (p.usesOf v).storeArrays.toList =
    (p.method (p.var v).method).body.toList.filterMap (Stmt.elementStored? v)
  loadArrays : ∀ v, p.IsVar v → (p.usesOf v).loadArrays.toList =
    (p.method (p.var v).method).body.toList.filterMap (Stmt.elementLoaded? v)
  receiverCalls : ∀ v, p.IsVar v → (p.usesOf v).calls.toList =
    (p.method (p.var v).method).body.toList.filterMap (p.called? v)

theorem Accepted.registered {p : Program} (hp : p.Accepted) : p.toModel.Registered :=
  hp.of_reached fun _ => Builder.registered_of_reached

theorem Accepted.consistent {p : Program} (hp : p.Accepted) : p.Consistent where
  sites i x k := (hp.placed.sites i.index x k).trans Model.sitePlace?_eq_some_iff
  calls i x k := (hp.placed.calls i.index x k).trans Model.callPlace?_eq_some_iff
  locals v hv := hp.registered.local?_eq_some_iff.2 ⟨hv, rfl, rfl⟩
  names v w hv hw hmethod hname := by
    have hlocal := hp.registered.local?_eq_some_iff.2 ⟨hw, hname.symm, hmethod.symm⟩
    rw [hp.registered.local?_eq_some_iff.2 ⟨hv, rfl, rfl⟩] at hlocal
    exact Option.some.inj hlocal
  this x hx := hp.instancesHaveThis x hx
  returns x := hp.returnsInOrder x
  returns_nodup x := by
    rw [hp.returnsInOrder x]
    exact Closure.nodup_eraseDups _
  subclasses d hd := hp.subclasses_eq hd
  implementors d hd := hp.implementors_eq hd
  subinterfaces d hd := hp.subinterfaces_eq hd
  storeFields v hv := hp.toList_usesOf hv (fun u => u.storeFields.toList) rfl Model.storeFields_useFor
  loadFields v hv := hp.toList_usesOf hv (fun u => u.loadFields.toList) rfl Model.loadFields_useFor
  storeArrays v hv := hp.toList_usesOf hv (fun u => u.storeArrays.toList) rfl Model.storeArrays_useFor
  loadArrays v hv := hp.toList_usesOf hv (fun u => u.loadArrays.toList) rfl Model.loadArrays_useFor
  receiverCalls v hv := hp.toList_usesOf hv (fun u => u.calls.toList) rfl Model.calls_useFor

end Program

namespace Builder

/-- What is assembled from commands is consistent, and without the refused ones the same program is
assembled and the same is answered. -/
theorem consistent_of_build {cs : List Command} (hcs : empty.AllAllowed cs) {p : Program}
    (h : (empty.performAll cs).build = .ok p) : p.Consistent ∧
      empty.AllAllowed (empty.granted cs) ∧ empty.performAll (empty.granted cs) = empty.performAll cs ∧
      empty.answers (empty.granted cs) = (empty.answers cs).filter (·.isOk) := by
  have hp : p.Accepted := ⟨_, Reached.performAll .empty hcs, h⟩
  exact ⟨hp.consistent, hcs.granted, performAll_granted _ cs, answers_granted _ cs⟩

/-- `x = new A; x.f = x; return x; return x` in a class that names its interface twice. The second `A` is
refused. -/
def twice : List Command :=
  [.addClass "I" .interface none,
    .addClass "A" .plain none,
    .addClass "A" .plain (some ⟨1⟩),
    .addInterface ⟨1⟩ ⟨0⟩,
    .addInterface ⟨1⟩ ⟨0⟩,
    .addField ⟨1⟩ "f" false,
    .addMethod ⟨1⟩ ⟨"main()"⟩ true false [],
    .addMethod ⟨1⟩ ⟨"id(A)"⟩ false false ["this"],
    .var ⟨0⟩ "x",
    .pushNew ⟨0⟩ ⟨1⟩ ⟨1⟩,
    .push ⟨0⟩ (.storeField ⟨1⟩ ⟨0⟩ ⟨1⟩),
    .pushReturn ⟨0⟩ (some ⟨1⟩),
    .pushReturn ⟨0⟩ (some ⟨1⟩),
    .setEntry ⟨0⟩]

theorem consistent_of_build_twice : ∃ p, (empty.performAll twice).build = .ok p ∧ p.Consistent ∧
    (empty.granted twice).length + 1 = twice.length := by
  have hcs : empty.AllAllowed twice := by decide +kernel
  obtain ⟨p, hp⟩ := exists_eq_ok (e := (empty.performAll twice).build) (by decide +kernel)
  exact ⟨p, hp, (consistent_of_build hcs hp).1, by decide +kernel⟩

end Builder

end PointsTo
