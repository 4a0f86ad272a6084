import Mathlib.Data.Finset.Card
import Mathlib.Data.Finset.Image
import Mathlib.Logic.Equiv.Basic
import PointsTo.Proofs.Program.Headers

/-! Rearranged descriptions. The classes of a description are put in another order, and so are the fields and
methods in each class and the statements in each body. Whatever goes by name is unaffected. -/

namespace PointsTo

section Lists

variable {α κ : Type}

/-- The second list has at permuted places what is related to the elements of the first. -/
def Permuted (π : Equiv.Perm Nat) (R : Nat → α → α → Prop) (l l' : List α) : Prop :=
  ∀ k : Nat, Option.Rel (R k) l[k]? l'[π k]?

namespace Permuted

theorem nil (π : Equiv.Perm Nat) (R : Nat → α → α → Prop) : Permuted π R [] [] := fun _ => .none

theorem refl (l : List α) : Permuted (Equiv.refl Nat) (fun _ => Eq) l l := by
  intro k
  rw [Equiv.refl_apply]
  cases l[k]? with
  | none => exact .none
  | some => exact .some rfl

theorem swap {R : Nat → α → α → Prop} {a b a' b' : α} (ha : R 0 a a') (hb : R 1 b b') :
    Permuted (Equiv.swap 0 1) R [a, b] [b', a'] := by
  intro k
  match k with
  | 0 =>
    rw [Equiv.swap_apply_left]
    exact .some ha
  | 1 =>
    rw [Equiv.swap_apply_right]
    exact .some hb
  | k + 2 =>
    rw [Equiv.swap_apply_of_ne_of_ne (by omega) (by omega)]
    exact .none

variable {π : Equiv.Perm Nat} {R S : Nat → α → α → Prop} {l l' : List α} (h : Permuted π R l l')

include h

theorem symm (hR : ∀ k a b, R k a b → S (π k) b a) : Permuted π.symm S l' l := by
  intro k
  obtain ⟨j, rfl⟩ := π.surjective k
  rw [Equiv.symm_apply_apply]
  exact optionRel_symm (h j) (hR j)

theorem exists_get {k : Nat} {a : α} (ha : l[k]? = some a) : ∃ b, l'[π k]? = some b ∧ R k a b :=
  exists_of_optionRel (ha ▸ h k)

theorem exists_of_mem {b : α} (hb : b ∈ l') : ∃ k a, l[k]? = some a ∧ R k a b := by
  obtain ⟨j, hj⟩ := List.mem_iff_getElem?.1 hb
  obtain ⟨k, rfl⟩ := π.surjective j
  have hrel : Option.Rel (fun b a => R k a b) l'[π k]? l[k]? := optionRel_symm (h k) fun _ _ => id
  obtain ⟨a, ha, hab⟩ := exists_of_optionRel (hj ▸ hrel)
  exact ⟨k, a, ha, hab⟩

theorem lt_length_iff {k : Nat} : π k < l'.length ↔ k < l.length := by
  rw [← Nat.not_le, ← Nat.not_le, ← List.getElem?_eq_none_iff, ← List.getElem?_eq_none_iff,
    ← Option.not_isSome_iff_eq_none, ← Option.not_isSome_iff_eq_none, isSome_of_optionRel (h k)]

theorem length_eq : l'.length = l.length := by
  have himage : (Finset.range l.length).image π = Finset.range l'.length := by
    ext j
    obtain ⟨k, rfl⟩ := π.surjective j
    simp only [Finset.mem_image, Finset.mem_range, π.injective.eq_iff, exists_eq_right, h.lt_length_iff]
  have hcard := Finset.card_image_of_injective (Finset.range l.length) π.injective
  rw [himage, Finset.card_range, Finset.card_range] at hcard
  exact hcard

variable {f : α → κ} (hf : ∀ k a b, R k a b → f b = f a)

include hf

theorem getElem?_map (k : Nat) : (l'.map f)[π k]? = (l.map f)[k]? := by
  rw [List.getElem?_map, List.getElem?_map]
  exact map_eq_of_optionRel (h k) (hf k)

theorem mem_map_iff {a : κ} : a ∈ l'.map f ↔ a ∈ l.map f := by
  rw [List.mem_iff_getElem?, List.mem_iff_getElem?]
  constructor
  · intro hexists
    obtain ⟨j, hj⟩ := hexists
    obtain ⟨k, rfl⟩ := π.surjective j
    exact ⟨k, (h.getElem?_map hf k).symm.trans hj⟩
  · intro hexists
    obtain ⟨k, hk⟩ := hexists
    exact ⟨π k, (h.getElem?_map hf k).trans hk⟩

theorem nodup_map (hl : (l.map f).Nodup) : (l'.map f).Nodup := by
  rw [List.nodup_iff_getElem?_ne_getElem?]
  intro i j hij hj heq
  obtain ⟨i, rfl⟩ := π.surjective i
  obtain ⟨j, rfl⟩ := π.surjective j
  rw [List.length_map, h.lt_length_iff] at hj
  rw [h.getElem?_map hf, h.getElem?_map hf] at heq
  have hsame := (List.getElem?_inj (by rwa [List.length_map]) hl).1 heq.symm
  rw [hsame] at hij
  exact Nat.lt_irrefl _ hij

end Permuted

end Lists

namespace Description

/-! ### Rearrangements -/

/-- Where the fields, the methods and the statements of each method go. -/
structure Class.Rearrangement where
  field : Equiv.Perm Nat
  method : Equiv.Perm Nat
  stmt : Nat → Equiv.Perm Nat

/-- Where the classes go, and what is in each. -/
structure Rearrangement where
  cls : Equiv.Perm Nat
  members : Nat → Class.Rearrangement

structure Method.Rearranged (π : Equiv.Perm Nat) (x x' : Method) : Prop where
  signature : x'.signature = x.signature
  isStatic : x'.isStatic = x.isStatic
  isAbstract : x'.isAbstract = x.isAbstract
  params : x'.params = x.params
  body : Permuted π (fun _ => Eq) x.body x'.body

structure Class.Rearranged (π : Class.Rearrangement) (c c' : Class) : Prop where
  name : c'.name = c.name
  kind : c'.kind = c.kind
  isAbstract : c'.isAbstract = c.isAbstract
  superclass : c'.superclass = c.superclass
  interfaces : c'.interfaces = c.interfaces
  fields : Permuted π.field (fun _ => Eq) c.fields c'.fields
  methods : Permuted π.method (fun k => Method.Rearranged (π.stmt k)) c.methods c'.methods

/-- The second description is the first one with its classes, members and statements in another order. -/
structure Rearranged (π : Rearrangement) (d d' : Description) : Prop where
  entry : d'.entry = d.entry
  classes : Permuted π.cls (fun i => Class.Rearranged (π.members i)) d.classes d'.classes

/-! ### The way back -/

def Class.Rearrangement.symm (π : Class.Rearrangement) : Class.Rearrangement where
  field := π.field.symm
  method := π.method.symm
  stmt k := (π.stmt (π.method.symm k)).symm

def Rearrangement.symm (π : Rearrangement) : Rearrangement where
  cls := π.cls.symm
  members i := (π.members (π.cls.symm i)).symm

theorem Class.Rearrangement.symm_symm (π : Class.Rearrangement) : π.symm.symm = π := by
  obtain ⟨field, method, stmt⟩ := π
  have hstmt : (fun k => (stmt (method.symm (method k))).symm.symm) = stmt := by
    funext k
    rw [Equiv.symm_apply_apply, Equiv.symm_symm]
  exact congrArg (Class.Rearrangement.mk field method) hstmt

theorem Rearrangement.symm_symm (π : Rearrangement) : π.symm.symm = π := by
  obtain ⟨cls, members⟩ := π
  have hmembers : (fun i => (members (cls.symm (cls i))).symm.symm) = members := by
    funext i
    rw [Equiv.symm_apply_apply, Class.Rearrangement.symm_symm]
  exact congrArg (Rearrangement.mk cls) hmembers

theorem Method.Rearranged.symm {π : Equiv.Perm Nat} {x x' : Method} (h : x.Rearranged π x') :
    x'.Rearranged π.symm x where
  signature := h.signature.symm
  isStatic := h.isStatic.symm
  isAbstract := h.isAbstract.symm
  params := h.params.symm
  body := h.body.symm fun _ _ _ => Eq.symm

theorem Class.Rearranged.symm {π : Class.Rearrangement} {c c' : Class} (h : c.Rearranged π c') :
    c'.Rearranged π.symm c where
  name := h.name.symm
  kind := h.kind.symm
  isAbstract := h.isAbstract.symm
  superclass := h.superclass.symm
  interfaces := h.interfaces.symm
  fields := h.fields.symm fun _ _ _ => Eq.symm
  methods := h.methods.symm fun k x x' hx => by
    show x'.Rearranged (π.stmt (π.method.symm (π.method k))).symm x
    rw [Equiv.symm_apply_apply]
    exact hx.symm

theorem Rearranged.symm {π : Rearrangement} {d d' : Description} (h : d.Rearranged π d') :
    d'.Rearranged π.symm d where
  entry := h.entry.symm
  classes := h.classes.symm fun i c c' hc => by
    show c'.Rearranged (π.members (π.cls.symm (π.cls i))).symm c
    rw [Equiv.symm_apply_apply]
    exact hc.symm

/-! ### Names -/

/-- Bodies in another order mention the same variables. -/
theorem Method.Rearranged.mem_names_iff {π : Equiv.Perm Nat} {x x' : Method} (h : x.Rearranged π x')
    {name : String} : name ∈ x'.names ↔ name ∈ x.names := by
  have hbody : ∀ s, s ∈ x'.body ↔ s ∈ x.body := by
    intro s
    have hmem := h.body.mem_map_iff (f := id) (a := s) fun _ _ _ => Eq.symm
    rwa [List.map_id, List.map_id] at hmem
  have hthis : x'.this? = x.this? := by rw [Method.this?, Method.this?, h.isStatic]
  simp only [Method.names, List.mem_append, List.mem_flatMap, hthis, h.params, hbody]

namespace Rearranged

variable {π : Rearrangement} {d d' : Description} (h : d.Rearranged π d')

include h

theorem nodup_names (hd : (d.classes.map (·.name)).Nodup) : (d'.classes.map (·.name)).Nodup :=
  h.classes.nodup_map (fun _ _ _ hc => hc.name) hd

theorem wellLinked (hd : ∀ c ∈ d.classes, c.WellLinked d) {c' : Class} (hc' : c' ∈ d'.classes) :
    c'.WellLinked d' := by
  obtain ⟨k, c, hget, hc⟩ := h.classes.exists_of_mem hc'
  obtain ⟨hsuperclass, hinterfaces, hfields⟩ := hd c (List.mem_of_getElem? hget)
  have hname : ∀ name, name ∈ d'.classes.map (·.name) ↔ name ∈ d.classes.map (·.name) := fun name =>
    h.classes.mem_map_iff fun _ _ _ hc => hc.name
  refine ⟨fun name hmem => ?_, fun name hmem => ?_, ?_⟩
  · rw [hname]
    exact hsuperclass name (hc.superclass ▸ hmem)
  · rw [hname]
    exact hinterfaces name (hc.interfaces ▸ hmem)
  · exact hc.fields.nodup_map (fun _ _ _ hf => by rw [hf]) hfields

theorem nodup_signatures (hd : ∀ c ∈ d.classes, (c.methods.map (·.signature)).Nodup) {c' : Class}
    (hc' : c' ∈ d'.classes) : (c'.methods.map (·.signature)).Nodup := by
  obtain ⟨k, c, hget, hc⟩ := h.classes.exists_of_mem hc'
  exact hc.methods.nodup_map (fun _ _ _ hx => hx.signature) (hd c (List.mem_of_getElem? hget))

theorem exists_of_mem_body {c' : Class} (hc' : c' ∈ d'.classes) {x' : Method} (hx' : x' ∈ c'.methods)
    {s : Stmt} (hs : s ∈ x'.body) : ∃ c ∈ d.classes, ∃ x ∈ c.methods, s ∈ x.body := by
  obtain ⟨i, c, hc, hclass⟩ := h.classes.exists_of_mem hc'
  obtain ⟨k, x, hx, hmethod⟩ := hclass.methods.exists_of_mem hx'
  obtain ⟨j, t, ht, rfl⟩ := hmethod.body.exists_of_mem hs
  exact ⟨c, List.mem_of_getElem? hc, x, List.mem_of_getElem? hx, List.mem_of_getElem? ht⟩

end Rearranged

end Description

end PointsTo
