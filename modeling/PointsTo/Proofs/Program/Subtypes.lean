import PointsTo.Proofs.Closure
import PointsTo.Proofs.Program.Scope
import PointsTo.Program.Hierarchy

/-! Subtypes. The links of a hierarchy lead from a class to what names it as its superclass or as one of its
interfaces, and the types below a class are those reached along links. -/

namespace PointsTo

/-- What the links have directly below a class. -/
def linked (links : Array Subtypes) (d : ClassId) : List ClassId := (links.getD d.index {}).all

/-- In the second links the type is below some further classes, which is the only difference. -/
structure Enters (t : ClassId) (above : ClassId → Prop) (links links' : Array Subtypes) : Prop where
  size : links'.size = links.size
  mem_iff : ∀ u d, u ∈ linked links' d ↔ u ∈ linked links d ∨ u = t ∧ above d

namespace Enters

variable {t d : ClassId} {links links' links'' : Array Subtypes} {above above' : ClassId → Prop}

theorem refl (t : ClassId) (links : Array Subtypes) : Enters t (fun _ => False) links links :=
  ⟨rfl, fun u d => by simp⟩

theorem trans (h : Enters t above links links') (h' : Enters t above' links' links'') :
    Enters t (fun d => above d ∨ above' d) links links'' where
  size := h'.size.trans h.size
  mem_iff u d := by
    rw [h'.mem_iff, h.mem_iff]
    tauto

theorem modify {add : Subtypes → Subtypes} (hadd : ∀ s u, u ∈ (add s).all ↔ u ∈ s.all ∨ u = t)
    (hd : d.index < links.size) : Enters t (· = d) links (links.modify d.index add) where
  size := Array.size_modify
  mem_iff u e := by
    rw [linked, linked, Array.getD_eq_getD_getElem?, Array.getD_eq_getD_getElem?, Array.getElem?_modify]
    by_cases he : e = d
    · subst he
      simp [hd, hadd]
    · have hne : d.index ≠ e.index := fun heq => he (Id.ext heq.symm)
      simp [hne, he]

theorem foldl {add : Subtypes → Subtypes} (hadd : ∀ s u, u ∈ (add s).all ↔ u ∈ s.all ∨ u = t)
    (ds : List ClassId) (hds : ∀ d ∈ ds, d.index < links.size) :
    Enters t (· ∈ ds) links (ds.foldl (fun links d => links.modify d.index add) links) := by
  induction ds generalizing links with
  | nil => simpa using refl t links
  | cons d ds ih =>
    have hfirst := modify hadd (hds d List.mem_cons_self)
    have hrest := hfirst.trans (ih fun e he => by
      rw [hfirst.size]
      exact hds e (List.mem_cons_of_mem d he))
    simpa using hrest

end Enters

namespace Model

/-- The first type names the second as its superclass or as one of its interfaces. -/
def Below (m : Model) (t d : ClassId) : Prop :=
  (m.cls t).superclass = some d ∨ d ∈ (m.cls t).interfaces

/-- A type at or below the other, along superclasses and interfaces. -/
def AtOrBelow (m : Model) (t c : ClassId) : Prop := Relation.ReflTransGen m.Below t c

variable {m : Model}

/-- Only classes of the model name others. -/
theorem Below.isClass {t d : ClassId} (h : m.Below t d) : m.IsClass t := by
  apply Classical.byContradiction
  intro ht
  rw [Below, cls_eq_default ht] at h
  rcases h with hsuper | hinterface
  · cases hsuper
  · exact absurd hinterface (Array.not_mem_empty d)

theorem AtOrBelow.isClass {t c : ClassId} (h : m.AtOrBelow t c) (hc : m.IsClass c) : m.IsClass t := by
  rcases Relation.ReflTransGen.cases_head h with rfl | ⟨d, hd, -⟩
  · exact hc
  · exact hd.isClass

variable (hm : m.Scoped)

include hm

theorem enters_linkClass {t : ClassId} (ht : m.IsClass t) {links : Array Subtypes}
    (hsize : links.size = m.classes.size) : Enters t (m.Below t) links (m.linkClass links t) := by
  obtain ⟨hsuperclass, hinterfaces, -, -⟩ := hm.cls ht
  have hsecond : ∀ links : Array Subtypes, links.size = m.classes.size →
      Enters t (· ∈ (m.cls t).interfaces) links ((m.cls t).interfaces.foldl (fun links d =>
        links.modify d.index (if (m.cls t).isInterface then Subtypes.addSubinterface t
          else Subtypes.addImplementor t)) links) := by
    intro links hsize
    have hadd : ∀ s u, u ∈ ((if (m.cls t).isInterface then Subtypes.addSubinterface t
        else Subtypes.addImplementor t) s).all ↔ u ∈ s.all ∨ u = t := by
      intro s u
      split <;> simp [Subtypes.addSubinterface, Subtypes.addImplementor, Subtypes.all] <;> tauto
    have hfold : Enters t _ links _ := Enters.foldl hadd (m.cls t).interfaces.toList fun d hd => by
      rw [hsize]
      exact hinterfaces d (Array.mem_toList_iff.1 hd)
    simpa using hfold
  have hsubclass : ∀ s u, u ∈ (Subtypes.addSubclass t s).all ↔ u ∈ s.all ∨ u = t := by
    intro s u
    simp [Subtypes.addSubclass, Subtypes.all]
    tauto
  unfold linkClass Below
  cases hsuper : (m.cls t).superclass with
  | none => simpa using hsecond links hsize
  | some d =>
    have hfirst : Enters t (· = d) links _ := Enters.modify hsubclass (by
      rw [hsize]
      exact hsuperclass d hsuper)
    obtain ⟨hlast, hmem⟩ := hfirst.trans (hsecond _ (hfirst.size.trans hsize))
    refine ⟨hlast, fun u e => (hmem u e).trans ?_⟩
    rw [Option.some.injEq, eq_comm (a := d)]

theorem mem_linked_subtypeLinks {t d : ClassId} :
    t ∈ linked m.subtypeLinks d ↔ m.IsClass t ∧ m.Below t d := by
  have hfold : ∀ (l : List ClassId) (links : Array Subtypes), (∀ c ∈ l, m.IsClass c) →
      links.size = m.classes.size →
      (t ∈ linked (l.foldl m.linkClass links) d ↔ t ∈ linked links d ∨ t ∈ l ∧ m.Below t d) := by
    intro l
    induction l with
    | nil => simp
    | cons c l ih =>
      intro links hl hsize
      have hfirst := enters_linkClass hm (hl c List.mem_cons_self) hsize
      rw [List.foldl_cons, ih _ (fun e he => hl e (List.mem_cons_of_mem c he)) (hfirst.size.trans hsize),
        hfirst.mem_iff, List.mem_cons]
      constructor
      · rintro ((hold | ⟨rfl, hbelow⟩) | hrest)
        · exact Or.inl hold
        · exact Or.inr ⟨Or.inl rfl, hbelow⟩
        · exact Or.inr ⟨Or.inr hrest.1, hrest.2⟩
      · rintro (hold | ⟨rfl | hmem, hbelow⟩)
        · exact Or.inl (Or.inl hold)
        · exact Or.inl (Or.inr ⟨rfl, hbelow⟩)
        · exact Or.inr ⟨hmem, hbelow⟩
  have hnone : t ∉ linked (Array.replicate m.classes.size {}) d := by
    rw [linked, Array.getD_eq_getD_getElem?, Array.getElem?_replicate]
    split <;> exact List.not_mem_nil
  rw [subtypeLinks, hfold _ _ (fun c (hc : c ∈ m.classIds) => Id.mem_upTo.1 hc) Array.size_replicate,
    or_iff_right hnone, classIds, Id.mem_upTo]
  exact Iff.rfl

/-- The search for subtypes comes to its end, in time for all of them. -/
theorem searches_subtypesOf {x : MethodId} {c : ClassId} (hc : m.IsClass c) :
    Closure.Searches (linked m.subtypeLinks) [] [c] ((Program.ofModel m x).subtypesOf c) := by
  have hclasses : ∀ d ∈ m.classIds, ∀ u ∈ linked m.subtypeLinks d, u ∈ m.classIds := by
    intro d _ u hu
    exact Id.mem_upTo.2 ((mem_linked_subtypeLinks hm).1 hu).1
  have hlength : m.classIds.length ≤ m.classes.size := Nat.le_of_eq (Id.length_upTo ..)
  exact Closure.searches_closure (Id.mem_upTo.2 hc) hclasses hlength

theorem mem_subtypesOf_iff {x : MethodId} {c t : ClassId} (hc : m.IsClass c) :
    t ∈ (Program.ofModel m x).subtypesOf c ↔
      Relation.ReflTransGen (fun d u => m.IsClass u ∧ m.Below u d) c t := by
  have hnext : (fun d u => u ∈ linked m.subtypeLinks d) = fun d u => m.IsClass u ∧ m.Below u d := by
    funext d u
    exact propext (mem_linked_subtypeLinks hm)
  rw [← hnext]
  exact (searches_subtypesOf hm hc).mem_iff

theorem mem_subtypesOf_iff_atOrBelow {x : MethodId} {c t : ClassId} (hc : m.IsClass c) :
    t ∈ (Program.ofModel m x).subtypesOf c ↔ m.AtOrBelow t c := by
  have hlink : (fun d u => m.IsClass u ∧ m.Below u d) = Function.swap m.Below := by
    funext d u
    exact propext (and_iff_right_of_imp Below.isClass)
  rw [mem_subtypesOf_iff hm hc, hlink, Relation.reflTransGen_swap, AtOrBelow]

end Model

end PointsTo
