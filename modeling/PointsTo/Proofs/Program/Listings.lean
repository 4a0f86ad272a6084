import PointsTo.Proofs.Program.Subtypes
import PointsTo.Proofs.Program.Uses

/-! Listings. The types directly below a class are collected when a program is finished, by walking through
its classes. Each list has what is met on that walk, in order, and as often as it is met. -/

namespace PointsTo

theorem flatMap_ite_eq_filter {α : Type} (P : α → Prop) [DecidablePred P] (l : List α) :
    (l.flatMap fun a => if P a then [a] else []) = l.filter P := by
  induction l with
  | nil => rfl
  | cons a l ih =>
    rw [List.flatMap_cons, ih]
    by_cases ha : P a
    · simp [ha]
    · simp [ha]

theorem flatMap_ite_eq_replicate {α β : Type} [DecidableEq α] (a : α) (b : β) (l : List α) :
    (l.flatMap fun e => if e = a then [b] else []) = List.replicate (l.count a) b := by
  induction l with
  | nil => rfl
  | cons e l ih =>
    rw [List.flatMap_cons, ih]
    by_cases he : e = a
    · simp [he, List.replicate_succ]
    · simp [he]

/-- What one cell holds after changes that are each to a cell of their own. -/
theorem getD_foldl_modify {α β : Type} (cell : β → Nat) (change : α → α) {j : Nat} (a : α) (l : List β)
    {as : Array α} (hj : j < as.size) :
    (l.foldl (fun as e => as.modify (cell e) change) as).getD j a =
      l.foldl (fun x e => if cell e = j then change x else x) (as.getD j a) := by
  induction l generalizing as with
  | nil => rfl
  | cons e l ih =>
    rw [List.foldl_cons, List.foldl_cons, ih (by rwa [Array.size_modify])]
    simp only [Array.getD_eq_getD_getElem?, Array.getElem?_modify, Array.getElem?_eq_getElem hj]
    split <;> rfl

/-! ### Types below a class -/

namespace Model

variable (m : Model)

/-- What is listed directly below one class after one more class has been entered. -/
def linkFor (d : ClassId) (s : Subtypes) (c : ClassId) : Subtypes :=
  let s := if (m.cls c).superclass = some d then s.addSubclass c else s
  let add := if (m.cls c).isInterface then Subtypes.addSubinterface c else Subtypes.addImplementor c
  (m.cls c).interfaces.toList.foldl (fun s e => if e = d then add s else s) s

variable {m} {d : ClassId} {links : Array Subtypes}

theorem size_linkClass (links : Array Subtypes) (c : ClassId) :
    (m.linkClass links c).size = links.size := by
  rw [linkClass, ← Array.foldl_toList]
  refine List.foldlRecOn (motive := fun as : Array Subtypes => as.size = links.size) _ _ ?_
    fun _ h _ _ => Array.size_modify.trans h
  split
  · rfl
  · exact Array.size_modify

theorem getD_linkClass (hd : d.index < links.size) (c : ClassId) :
    (m.linkClass links c).getD d.index {} = m.linkFor d (links.getD d.index {}) c := by
  have hid : ∀ e : ClassId, e.index = d.index ↔ e = d := fun e => Id.ext_iff.symm
  rw [linkClass, linkFor, ← Array.foldl_toList]
  cases (m.cls c).superclass with
  | none =>
    rw [getD_foldl_modify Id.index _ _ _ hd]
    simp only [hid, reduceCtorEq, if_false]
  | some e =>
    have hsize : d.index < (links.modify e.index (Subtypes.addSubclass c)).size := by
      rwa [Array.size_modify]
    have hfirst := getD_foldl_modify Id.index (Subtypes.addSubclass c) {} [e] hd
    simp only [List.foldl_cons, List.foldl_nil] at hfirst
    rw [getD_foldl_modify Id.index _ _ _ hsize, hfirst]
    simp only [hid, Option.some.injEq]

theorem getD_subtypeLinks (hd : m.IsClass d) :
    m.subtypeLinks.getD d.index {} = m.classIds.foldl (m.linkFor d) {} := by
  have hfold : ∀ (cs : List ClassId) (links : Array Subtypes), d.index < links.size →
      (cs.foldl m.linkClass links).getD d.index {} = cs.foldl (m.linkFor d) (links.getD d.index {}) := by
    intro cs
    induction cs with
    | nil => exact fun _ _ => rfl
    | cons c cs ih =>
      intro links hlt
      rw [List.foldl_cons, List.foldl_cons, ih _ (by rwa [size_linkClass]), getD_linkClass hlt]
  have hlt : d.index < (Array.replicate m.classes.size ({} : Subtypes)).size := by
    rwa [Array.size_replicate]
  rw [subtypeLinks, hfold _ _ hlt, Array.getD_eq_getD_getElem?, Array.getElem?_eq_getElem hlt,
    Array.getElem_replicate]
  rfl

/-- What one class adds to one of the lists of a class: `sub` below its superclass, and `inter` or `impl`
below its interfaces. -/
def addsBelow (m : Model) (d : ClassId) (sub inter impl : ClassId → List ClassId) (c : ClassId) :
    List ClassId :=
  (if (m.cls c).superclass = some d then sub c else []) ++
    (m.cls c).interfaces.toList.flatMap fun e =>
      if e = d then if (m.cls c).isInterface then inter c else impl c else []

theorem toList_linkFor (list : Subtypes → List ClassId) {sub inter impl : ClassId → List ClassId}
    (hsub : ∀ c s, list (s.addSubclass c) = list s ++ sub c)
    (hinter : ∀ c s, list (s.addSubinterface c) = list s ++ inter c)
    (himpl : ∀ c s, list (s.addImplementor c) = list s ++ impl c) (s : Subtypes) (c : ClassId) :
    list (m.linkFor d s c) = list s ++ m.addsBelow d sub inter impl c := by
  have hfirst : list (if (m.cls c).superclass = some d then s.addSubclass c else s) =
      list s ++ if (m.cls c).superclass = some d then sub c else [] := by
    split
    · exact hsub c s
    · exact (List.append_nil _).symm
  have hadd : ∀ s, list ((if (m.cls c).isInterface then Subtypes.addSubinterface c
      else Subtypes.addImplementor c) s) = list s ++ if (m.cls c).isInterface then inter c else impl c := by
    intro s
    split
    · exact hinter c s
    · exact himpl c s
  rw [linkFor, addsBelow, foldl_appends list, hfirst, List.append_assoc]
  intro s e
  split
  · exact hadd s
  · exact (List.append_nil _).symm

end Model

namespace Program.Accepted

variable {p : Program} (hp : p.Accepted) {d : ClassId} (hd : p.IsClass d)

include hp hd

theorem toList_directSubtypes (list : Subtypes → List ClassId) (sub inter impl : ClassId → List ClassId)
    (hempty : list {} = [])
    (hsub : ∀ c s, list (s.addSubclass c) = list s ++ sub c)
    (hinter : ∀ c s, list (s.addSubinterface c) = list s ++ inter c)
    (himpl : ∀ c s, list (s.addImplementor c) = list s ++ impl c) :
    list (p.directSubtypes d) = p.classIds.flatMap (p.addsBelow d sub inter impl) := by
  have hlinks : p.subtypes = p.toModel.subtypeLinks := congrArg Program.subtypes hp.eq_ofModel
  rw [Program.directSubtypes, hlinks, Model.getD_subtypeLinks hd,
    foldl_appends _ (Model.toList_linkFor list hsub hinter himpl), hempty, List.nil_append]

theorem subclasses_eq : (p.directSubtypes d).subclasses.toList =
    p.classIds.filter fun c => (p.cls c).superclass = some d := by
  rw [hp.toList_directSubtypes hd (fun s => s.subclasses.toList) (fun c => [c]) (fun _ => []) (fun _ => [])
    rfl (fun _ _ => Array.toList_push) (fun _ _ => (List.append_nil _).symm)
    fun _ _ => (List.append_nil _).symm]
  have hadds : p.addsBelow d (fun c => [c]) (fun _ => []) (fun _ => []) =
      fun c => if (p.cls c).superclass = some d then [c] else [] := by
    funext c
    simp [Model.addsBelow]
  rw [hadds, flatMap_ite_eq_filter]

theorem implementors_eq : (p.directSubtypes d).implementors.toList = p.classIds.flatMap fun c =>
    if (p.cls c).isInterface then [] else List.replicate ((p.cls c).interfaces.count d) c := by
  rw [hp.toList_directSubtypes hd (fun s => s.implementors.toList) (fun _ => []) (fun _ => []) (fun c => [c])
    rfl (fun _ _ => (List.append_nil _).symm) (fun _ _ => (List.append_nil _).symm)
    fun _ _ => Array.toList_push]
  refine congrArg (List.flatMap · _) (funext fun c => ?_)
  rw [Model.addsBelow, ite_self, List.nil_append]
  cases (p.cls c).isInterface with
  | true => simp
  | false => simpa using flatMap_ite_eq_replicate d c (p.cls c).interfaces.toList

theorem subinterfaces_eq : (p.directSubtypes d).subinterfaces.toList = p.classIds.flatMap fun c =>
    if (p.cls c).isInterface then List.replicate ((p.cls c).interfaces.count d) c else [] := by
  rw [hp.toList_directSubtypes hd (fun s => s.subinterfaces.toList) (fun _ => []) (fun c => [c]) (fun _ => [])
    rfl (fun _ _ => (List.append_nil _).symm) (fun _ _ => Array.toList_push)
    fun _ _ => (List.append_nil _).symm]
  refine congrArg (List.flatMap · _) (funext fun c => ?_)
  rw [Model.addsBelow, ite_self, List.nil_append]
  cases (p.cls c).isInterface with
  | true => simpa using flatMap_ite_eq_replicate d c (p.cls c).interfaces.toList
  | false => simp

end Program.Accepted

end PointsTo
