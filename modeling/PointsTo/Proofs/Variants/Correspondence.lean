import PointsTo.Proofs.Program.Bodies
import PointsTo.Proofs.Program.Realization
import PointsTo.Proofs.Variants.Hierarchies
import PointsTo.Proofs.Variants.Rearrangement

/-! What a rearrangement does to numbers. Classes are numbered as they are described, and other things as
they are met. So a rearrangement sends a class to the place that it gets, a member or variable to the one of
its name, and an allocation site or call site to the one in the statement that its statement becomes. -/

namespace PointsTo

/-- A name that is looked up where the same names are entered. -/
theorem find?_key_eq_map {N α : Type} [DecidableEq N] {entries entries' : Array (N × α)} {f : α → α} {k : N}
    (hkeys : k ∈ entries'.toList.map Prod.fst ↔ k ∈ entries.toList.map Prod.fst)
    (hf : ∀ a, (entries.find? (·.1 == k)).map (·.2) = some a → ∀ b,
      (entries'.find? (·.1 == k)).map (·.2) = some b → f a = b) :
    (entries'.find? (·.1 == k)).map (·.2) = ((entries.find? (·.1 == k)).map (·.2)).map f := by
  refine eq_map_of_isSome ?_ hf
  rw [Bool.eq_iff_iff, isSome_find?_key, isSome_find?_key]
  simpa using hkeys

namespace Model

/-- The place of a method in its class. -/
def placeOf (m : Model) (x : MethodId) : Nat :=
  ((m.cls (m.method x).owner).methods.toList.map Prod.fst).idxOf (m.method x).subsignature

namespace Registered

variable {m : Model} (hm : m.Registered)

include hm

theorem key_of_mem_methods {c : ClassId} {e : Subsignature × MethodId} (he : e ∈ (m.cls c).methods) :
    m.IsMethod e.2 ∧ (m.method e.2).subsignature = e.1 ∧ (m.method e.2).owner = c :=
  methodKey?_eq_some_iff.1 ((hm.methods.mem_iff c e.1 e.2).1 he)

theorem placeOf_eq {c : ClassId} {k : Nat} {e : Subsignature × MethodId}
    (he : (m.cls c).methods[k]? = some e) : m.placeOf e.2 = k := by
  obtain ⟨-, hsubsignature, howner⟩ := hm.key_of_mem_methods (Array.mem_of_getElem? he)
  have hget : ((m.cls c).methods.toList.map Prod.fst)[k]? = some e.1 := by
    rw [List.getElem?_map, Array.getElem?_toList, he]
    rfl
  obtain ⟨hk, hkey⟩ := List.getElem?_eq_some_iff.1 hget
  rw [placeOf, howner, hsubsignature, ← hkey]
  exact (hm.methods.nodup c).idxOf_getElem k hk

end Registered

end Model

namespace Description

namespace Rearrangement

section Maps

variable (π : Rearrangement) (m n : Model)

def classId (c : ClassId) : ClassId := ⟨π.cls c.index⟩

def fieldId (f : FieldId) : FieldId :=
  ((n.cls (π.classId (m.field f).owner)).declaredField? (m.field f).name).getD f

def methodId (x : MethodId) : MethodId :=
  ((n.cls (π.classId (m.method x).owner)).declaredMethod? (m.method x).subsignature).getD x

def varId (v : VarId) : VarId :=
  ((n.method (π.methodId m n (m.var v).method)).local? (m.var v).name).getD v

/-- Where the statements of a method go. -/
def stmtsOf (x : MethodId) : Equiv.Perm Nat :=
  (π.members (m.method x).owner.index).stmt (m.placeOf x)

/-- What a statement of a method becomes. -/
def stmtAt? (x : MethodId) (k : Nat) : Option PointsTo.Stmt :=
  (n.method (π.methodId m n x)).body[π.stmtsOf m x k]?

def siteId (i : SiteId) : SiteId :=
  match π.stmtAt? m n (m.site i).container (m.site i).index with
  | some (.new j) => j
  | _ => i

def callId (i : CallId) : CallId :=
  match π.stmtAt? m n (m.call i).container (m.call i).index with
  | some (.invoke j) => j
  | _ => i

/-- What becomes of all numbers. -/
def relabeling : Relabeling :=
  ⟨π.classId, π.fieldId m n, π.methodId m n, π.varId m n, π.siteId m n, π.callId m n⟩

end Maps

theorem bijective_classId (π : Rearrangement) : Function.Bijective π.classId := by
  constructor
  · intro c d h
    exact Id.ext (π.cls.injective (congrArg Id.index h))
  · intro d
    obtain ⟨i, hi⟩ := π.cls.surjective d.index
    exact ⟨⟨i⟩, Id.ext hi⟩

end Rearrangement

namespace Rearranged

variable {π : Rearrangement} {d d' : Description} (h : d.Rearranged π d') {m n : Model}

include h

/-! ### Classes -/

section Declares

variable (hd : m.Declares d) (hd' : n.Declares d')

include hd hd'

/-- A class is described on both sides or on none. -/
theorem cls_cases (c : ClassId) : (m.cls c = default ∧ n.cls (π.classId c) = default) ∨
    ∃ desc desc', d.classes[c.index]? = some desc ∧ d'.classes[(π.classId c).index]? = some desc' ∧
      desc.Rearranged (π.members c.index) desc' := by
  cases hc : d.classes[c.index]? with
  | none =>
    have hnone : d'.classes[π.cls c.index]? = none := by
      have hsome := isSome_of_optionRel (h.classes c.index)
      rwa [hc, Option.isSome_none, Option.isSome_eq_false_iff, Option.isNone_iff_eq_none] at hsome
    refine Or.inl ⟨Model.cls_eq_default fun hclass => ?_, Model.cls_eq_default fun hclass => ?_⟩
    · obtain ⟨desc, hdesc⟩ := hd.isClass_iff.1 hclass
      rw [hc] at hdesc
      cases hdesc
    · obtain ⟨desc, hdesc⟩ := hd'.isClass_iff.1 hclass
      rw [hnone] at hdesc
      cases hdesc
  | some desc =>
    obtain ⟨desc', hdesc', hrearranged⟩ := h.classes.exists_get hc
    exact Or.inr ⟨desc, desc', rfl, hdesc', hrearranged⟩

variable (hm : m.Registered) (hn : n.Registered)

include hm hn

theorem named {name : String} {c : ClassId} (hc : m.Named name c) : n.Named name (π.classId c) := by
  obtain ⟨desc, hdesc, rfl⟩ := (hd.named_iff hm).1 hc
  obtain ⟨desc', hdesc', hrearranged⟩ := h.classes.exists_get hdesc
  exact (hd'.named_iff hn).2 ⟨desc', hdesc', hrearranged.name⟩

theorem eq_classId (name : String) (c c' : ClassId) (hc : m.Named name c) (hc' : n.Named name c') :
    c' = π.classId c := by
  have hnamed := h.named hd hd' hm hn hc
  rw [Model.Named, hc'] at hnamed
  exact Option.some.inj hnamed

omit hn in
theorem declaredField? (c : ClassId) (name : String) : (n.cls (π.classId c)).declaredField? name =
    ((m.cls c).declaredField? name).map (π.fieldId m n) := by
  have hkeys : name ∈ (n.cls (π.classId c)).fields.toList.map Prod.fst ↔
      name ∈ (m.cls c).fields.toList.map Prod.fst := by
    rcases h.cls_cases hd hd' c with ⟨hc, hc'⟩ | ⟨desc, desc', hdesc, hdesc', hrearranged⟩
    · rw [hc, hc']
    · rw [map_eq_of_forall₂ (hd.links _ _ hdesc).fields fun f e he => he.1,
        map_eq_of_forall₂ (hd'.links _ _ hdesc').fields fun f e he => he.1]
      exact hrearranged.fields.mem_map_iff fun _ _ _ hf => by rw [hf]
  refine find?_key_eq_map hkeys fun f hf g hg => ?_
  obtain ⟨-, rfl, rfl⟩ := hm.declaredField?_eq_some_iff.1 hf
  rw [Rearrangement.fieldId, Class.declaredField?, hg]
  rfl

theorem keepsClasses : (π.relabeling m n).KeepsClasses m n where
  bijective := π.bijective_classId
  size := by rw [hd.size, hd'.size, h.classes.length_eq]
  isClass c := by
    show π.cls c.index < n.classes.size ↔ c.index < m.classes.size
    rw [hd.size, hd'.size, h.classes.lt_length_iff]
  named _ _ := h.named hd hd' hm hn
  kind c := by
    show (n.cls (π.classId c)).kind = _
    rcases h.cls_cases hd hd' c with ⟨hc, hc'⟩ | ⟨desc, desc', hdesc, hdesc', hrearranged⟩
    · rw [hc, hc']
    · exact (hd'.kind _ _ hdesc').trans (hrearranged.kind.trans (hd.kind _ _ hdesc).symm)
  superclass c := by
    show (n.cls (π.classId c)).superclass = _
    rcases h.cls_cases hd hd' c with ⟨hc, hc'⟩ | ⟨desc, desc', hdesc, hdesc', hrearranged⟩
    · rw [hc, hc']
      rfl
    · have hsuper := (hd'.links _ _ hdesc').superclass
      rw [hrearranged.superclass] at hsuper
      exact eq_map_of_optionRel (h.eq_classId hd hd' hm hn) (hd.links _ _ hdesc).superclass hsuper
  interfaces c := by
    show (n.cls (π.classId c)).interfaces.toList = _
    rcases h.cls_cases hd hd' c with ⟨hc, hc'⟩ | ⟨desc, desc', hdesc, hdesc', hrearranged⟩
    · rw [hc, hc']
      rfl
    · have hinterfaces := (hd'.links _ _ hdesc').interfaces
      rw [hrearranged.interfaces] at hinterfaces
      exact eq_map_of_forall₂ (h.eq_classId hd hd' hm hn) (hd.links _ _ hdesc).interfaces hinterfaces
  declaredField? := h.declaredField? hd hd' hm

end Declares

/-! ### Methods -/

section Realizes

variable (hd : m.Realizes d) (hd' : n.Realizes d')

include hd hd'

theorem mem_subsignatures_iff {c : ClassId} {s : Subsignature} :
    s ∈ (n.cls (π.classId c)).methods.toList.map Prod.fst ↔ s ∈ (m.cls c).methods.toList.map Prod.fst := by
  rcases h.cls_cases hd.toDeclares hd'.toDeclares c with ⟨hc, hc'⟩ | ⟨desc, desc', hdesc, hdesc', hclass⟩
  · rw [hc, hc']
  · rw [map_eq_of_forall₂ (g := Prod.fst) (hd.methods _ _ hdesc) fun _ _ he => he.subsignature,
      map_eq_of_forall₂ (g := Prod.fst) (hd'.methods _ _ hdesc') fun _ _ he => he.subsignature]
    exact hclass.methods.mem_map_iff fun _ _ _ hx => by rw [hx.signature]

variable (hm : m.Registered)

include hm

theorem declaredMethod? (c : ClassId) (s : Subsignature) : (n.cls (π.classId c)).declaredMethod? s =
    ((m.cls c).declaredMethod? s).map (π.methodId m n) := by
  refine find?_key_eq_map (h.mem_subsignatures_iff hd hd') fun x hx y hy => ?_
  obtain ⟨-, rfl, rfl⟩ := hm.declaredMethod?_eq_some_iff.1 hx
  rw [Rearrangement.methodId, Class.declaredMethod?, hy]
  rfl

variable (hn : n.Registered)

include hn

/-- A method is described on both sides, and it stands at the place that its description gets. -/
theorem exists_entry {c : ClassId} {k : Nat} {e : Subsignature × MethodId}
    (he : (m.cls c).methods[k]? = some e) :
    (n.cls (π.classId c)).methods[(π.members c.index).method k]? = some (e.1, π.methodId m n e.2) ∧
      ∃ y y', Method.Rearranged (π.stmtsOf m e.2) y y' ∧ m.MeetsMethod y e ∧
        n.MeetsMethod y' (e.1, π.methodId m n e.2) := by
  rcases h.cls_cases hd.toDeclares hd'.toDeclares c with ⟨hc, -⟩ | ⟨desc, desc', hdesc, hdesc', hclass⟩
  · rw [hc] at he
    cases he
  · have hrel := forall₂_iff_getElem?.1 (hd.methods _ _ hdesc) k
    rw [Array.getElem?_toList, he] at hrel
    obtain ⟨y, hy, hmeets⟩ := exists_of_optionRel (optionRel_symm hrel fun _ _ => id)
    obtain ⟨y', hy', hmethod⟩ := hclass.methods.exists_get hy
    have hrel' := forall₂_iff_getElem?.1 (hd'.methods _ _ hdesc') ((π.members c.index).method k)
    rw [hy', Array.getElem?_toList] at hrel'
    obtain ⟨e', he', hmeets'⟩ := exists_of_optionRel hrel'
    obtain ⟨-, hsubsignature, howner⟩ := hm.key_of_mem_methods (Array.mem_of_getElem? he)
    have hkey : e'.1 = e.1 := by
      rw [hmeets'.subsignature, hmethod.signature, hmeets.subsignature]
    have hdeclared : (n.cls (π.classId c)).declaredMethod? e.1 = some e'.2 := by
      rw [hn.declaredMethod?_eq_some_iff, ← hkey]
      exact hn.key_of_mem_methods (Array.mem_of_getElem? he')
    have hid : π.methodId m n e.2 = e'.2 := by
      rw [Rearrangement.methodId, howner, hsubsignature, hdeclared]
      rfl
    have heq : (e.1, π.methodId m n e.2) = e' := by rw [hid, ← hkey]
    rw [heq]
    refine ⟨he', y, y', ?_, hmeets, hmeets'⟩
    rw [Rearrangement.stmtsOf, howner, hm.placeOf_eq he]
    exact hmethod

theorem exists_method {x : MethodId} (hx : m.IsMethod x) :
    ∃ y y', Method.Rearranged (π.stmtsOf m x) y y' ∧ m.MeetsMethod y ((m.method x).subsignature, x) ∧
      n.MeetsMethod y' ((m.method x).subsignature, π.methodId m n x) := by
  have hentry := (hm.methods.mem_iff (m.method x).owner (m.method x).subsignature x).2
    (Model.methodKey?_eq_some_iff.2 ⟨hx, rfl, rfl⟩)
  obtain ⟨k, hk⟩ := Array.mem_iff_getElem?.1 hentry
  exact (h.exists_entry hd hd' hm hn hk).2

theorem keepsMethods : (π.relabeling m n).KeepsMethods m n where
  toKeepsClasses := h.keepsClasses hd.toDeclares hd'.toDeclares hm hn
  declaredMethod? := h.declaredMethod? hd hd' hm
  isStatic x hx := by
    obtain ⟨y, y', hmethod, hmeets, hmeets'⟩ := h.exists_method hd hd' hm hn hx
    exact hmeets'.signs.isStatic.trans (hmethod.isStatic.trans hmeets.signs.isStatic.symm)
  isAbstract x hx := by
    obtain ⟨y, y', hmethod, hmeets, hmeets'⟩ := h.exists_method hd hd' hm hn hx
    exact hmeets'.signs.isAbstract.trans (hmethod.isAbstract.trans hmeets.signs.isAbstract.symm)

end Realizes

end Rearranged

end Description

end PointsTo
