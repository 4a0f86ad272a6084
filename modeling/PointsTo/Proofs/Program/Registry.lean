import Mathlib.Data.List.Nodup
import PointsTo.Proofs.Program.Owners

/-! Names. In a model that is assembled by commands a name stands for one thing: the name of a class in the
model, the names of fields and the subsignatures of methods in their class, and the names of variables in
their method. Each thing is entered under its name where it belongs, and there only. -/

namespace PointsTo

theorem isSome_find?_key {α β : Type} [DecidableEq α] {entries : Array (α × β)} {k : α} :
    ((entries.find? (·.1 == k)).map (·.2)).isSome = true ↔ ∃ v, (k, v) ∈ entries := by
  rw [Option.isSome_map, Array.find?_isSome]
  constructor
  · intro h
    obtain ⟨⟨a, v⟩, he, hkey⟩ := h
    obtain rfl : a = k := by simpa using hkey
    exact ⟨v, he⟩
  · intro h
    obtain ⟨v, hv⟩ := h
    exact ⟨_, hv, by simp⟩

/-- A name that is entered once is looked up with what it is entered for. -/
theorem find?_key_eq_some_iff {α β : Type} [DecidableEq α] {entries : Array (α × β)}
    (hnodup : (entries.toList.map Prod.fst).Nodup) {k : α} {v : β} :
    (entries.find? (·.1 == k)).map (·.2) = some v ↔ (k, v) ∈ entries := by
  have hmem : ∀ w, (entries.find? (·.1 == k)).map (·.2) = some w → (k, w) ∈ entries := by
    intro w hw
    obtain ⟨e, he, rfl⟩ := Option.map_eq_some_iff.1 hw
    have hkey : e.1 = k := by simpa using Array.find?_some he
    rw [← hkey]
    exact Array.mem_of_find?_eq_some he
  constructor
  · exact hmem v
  · intro h
    obtain ⟨w, hw⟩ := Option.isSome_iff_exists.1 (isSome_find?_key.2 ⟨v, h⟩)
    have heq := List.inj_on_of_nodup_map hnodup (Array.mem_toList_iff.2 (hmem w hw))
      (Array.mem_toList_iff.2 h) rfl
    rw [hw, (Prod.mk.inj heq).2]

/-- Just the things that have a key are entered, each under its name where it belongs. -/
structure Entered {N K : Type} {s : Entity} (entries : K → Array (N × Id s))
    (key : Id s → Option (N × K)) : Prop where
  nodup : ∀ k, ((entries k).toList.map Prod.fst).Nodup
  mem_iff : ∀ k name i, (name, i) ∈ entries k ↔ key i = some (name, k)

namespace Entered

variable {N K : Type} [DecidableEq K] {s : Entity} {entries entries' : K → Array (N × Id s)}
  {key key' : Id s → Option (N × K)}

omit [DecidableEq K] in
theorem empty (hentries : ∀ k, entries k = #[]) (hkey : ∀ i, key i = none) : Entered entries key where
  nodup k := by
    rw [hentries]
    exact List.nodup_nil
  mem_iff k name i := by
    rw [hentries, hkey]
    simp

omit [DecidableEq K] in
theorem congr (h : Entered entries key) (hentries : ∀ k, entries' k = entries k)
    (hkey : ∀ i, key' i = key i) : Entered entries' key' := by
  obtain rfl := funext hentries
  obtain rfl := funext hkey
  exact h

theorem push (h : Entered entries key) {k : K} {name : N} {i : Id s} (hi : key i = none)
    (hname : ∀ j, (name, j) ∉ entries k)
    (hentries : ∀ l, entries' l = if l = k then (entries k).push (name, i) else entries l)
    (hkey : ∀ j, key' j = if j = i then some (name, k) else key j) : Entered entries' key' where
  nodup l := by
    rw [hentries]
    split
    · rw [Array.toList_push, List.map_append, List.nodup_append]
      refine ⟨h.nodup k, List.nodup_singleton _, fun a ha b hb heq => ?_⟩
      obtain ⟨⟨a, j⟩, hj, rfl⟩ := List.mem_map.1 ha
      have hname' : a = name := heq.trans (List.mem_singleton.1 hb)
      exact hname j (hname' ▸ Array.mem_toList_iff.1 hj)
    · exact h.nodup l
  mem_iff l n j := by
    rw [hentries, hkey]
    by_cases hj : j = i
    · subst hj
      have hold : ∀ l, (n, j) ∉ entries l := fun l hmem => by
        rw [h.mem_iff, hi] at hmem
        cases hmem
      by_cases hl : l = k
      · subst hl
        simp [hold l, eq_comm]
      · simp [hl, hold l, Ne.symm hl]
    · by_cases hl : l = k
      · subst hl
        simp [hj, h.mem_iff]
      · simp [hl, hj, h.mem_iff]

end Entered

/-- The class without what has no name of its own in it. -/
def Class.registry (c : Class) : Class :=
  { c with kind := .plain, isAbstract := false, superclass := none, interfaces := #[] }

/-- The method without what has no name of its own in it. -/
def Method.registry (x : Method) : Method :=
  { x with isStatic := false, isAbstract := false, this := none, params := #[], returns := #[], body := #[] }

namespace Model

def fieldKey? (m : Model) (f : FieldId) : Option (String × ClassId) :=
  m.fields[f.index]?.map fun x => (x.name, x.owner)

def methodKey? (m : Model) (x : MethodId) : Option (Subsignature × ClassId) :=
  m.methods[x.index]?.map fun y => (y.subsignature, y.owner)

def varKey? (m : Model) (v : VarId) : Option (String × MethodId) :=
  m.vars[v.index]?.map fun x => (x.name, x.method)

/-- A name stands for one thing, and each thing is entered under its name. -/
structure Registered (m : Model) : Prop where
  classes : ∀ c d, m.IsClass c → m.IsClass d → m.className c = m.className d → c = d
  fields : Entered (fun c => (m.cls c).fields) m.fieldKey?
  methods : Entered (fun c => (m.cls c).methods) m.methodKey?
  locals : Entered (fun x => (m.method x).locals) m.varKey?

variable {m n k : Model}

/-! ### Lookups -/

theorem fieldKey?_eq_some_iff {f : FieldId} {name : String} {c : ClassId} :
    m.fieldKey? f = some (name, c) ↔ m.IsField f ∧ (m.field f).name = name ∧ (m.field f).owner = c := by
  rw [fieldKey?, IsField, field, Array.getD_eq_getD_getElem?]
  by_cases hf : f.index < m.fields.size
  · simp [hf]
  · simp [hf]

theorem methodKey?_eq_some_iff {x : MethodId} {s : Subsignature} {c : ClassId} :
    m.methodKey? x = some (s, c) ↔
      m.IsMethod x ∧ (m.method x).subsignature = s ∧ (m.method x).owner = c := by
  rw [methodKey?, IsMethod, method, Array.getD_eq_getD_getElem?]
  by_cases hx : x.index < m.methods.size
  · simp [hx]
  · simp [hx]

theorem varKey?_eq_some_iff {v : VarId} {name : String} {x : MethodId} :
    m.varKey? v = some (name, x) ↔ m.IsVar v ∧ (m.var v).name = name ∧ (m.var v).method = x := by
  rw [varKey?, IsVar, var, Array.getD_eq_getD_getElem?]
  by_cases hv : v.index < m.vars.size
  · simp [hv]
  · simp [hv]

namespace Registered

variable (hm : m.Registered)

include hm

theorem classNamed?_eq_some_iff {name : String} {c : ClassId} :
    m.classNamed? name = some c ↔ m.IsClass c ∧ m.className c = name := by
  have hname : ∀ i, (hi : i < m.classes.size) → m.classes[i].name = m.className ⟨i⟩ := by
    intro i hi
    rw [className, cls, Array.getD_eq_getD_getElem?, Array.getElem?_eq_getElem hi]
    rfl
  constructor
  · intro h
    obtain ⟨i, hi, rfl⟩ := Option.map_eq_some_iff.1 h
    obtain ⟨hlt, htest, -⟩ := Array.findIdx?_eq_some_iff_getElem.1 hi
    rw [hname i hlt, beq_iff_eq] at htest
    exact ⟨hlt, htest⟩
  · rintro ⟨hc, rfl⟩
    have hsome : (m.classes.findIdx? (·.name == m.className c)).isSome = true := by
      rw [Array.findIdx?_isSome, Array.any_eq_true]
      exact ⟨c.index, hc, by rw [hname _ hc, beq_iff_eq]⟩
    obtain ⟨i, hi⟩ := Option.isSome_iff_exists.1 hsome
    obtain ⟨hlt, htest, -⟩ := Array.findIdx?_eq_some_iff_getElem.1 hi
    rw [hname i hlt, beq_iff_eq] at htest
    obtain rfl := hm.classes ⟨i⟩ c hlt hc htest
    rw [classNamed?, hi]
    rfl

theorem declaredField?_eq_some_iff {c : ClassId} {name : String} {f : FieldId} :
    (m.cls c).declaredField? name = some f ↔
      m.IsField f ∧ (m.field f).name = name ∧ (m.field f).owner = c := by
  rw [← fieldKey?_eq_some_iff, ← hm.fields.mem_iff]
  exact find?_key_eq_some_iff (hm.fields.nodup c)

theorem declaredMethod?_eq_some_iff {c : ClassId} {s : Subsignature} {x : MethodId} :
    (m.cls c).declaredMethod? s = some x ↔
      m.IsMethod x ∧ (m.method x).subsignature = s ∧ (m.method x).owner = c := by
  rw [← methodKey?_eq_some_iff, ← hm.methods.mem_iff]
  exact find?_key_eq_some_iff (hm.methods.nodup c)

theorem local?_eq_some_iff {x : MethodId} {name : String} {v : VarId} :
    (m.method x).local? name = some v ↔ m.IsVar v ∧ (m.var v).name = name ∧ (m.var v).method = x := by
  rw [← varKey?_eq_some_iff, ← hm.locals.mem_iff]
  exact find?_key_eq_some_iff (hm.locals.nodup x)

end Registered

/-! ### Edits that enter no name -/

section Classes

variable {α : Type} {g : Class → α}
  (h : ∀ i : Nat, n.classes[i]?.map g = m.classes[i]?.map g) (c : ClassId)

include h

omit c in
theorem size_of_map : n.classes.size = m.classes.size := by
  have hmap : n.classes.map g = m.classes.map g := by
    apply Array.ext_getElem?
    intro i
    rw [Array.getElem?_map, Array.getElem?_map, h]
  simpa using congrArg Array.size hmap

theorem isClass_iff_of_map : n.IsClass c ↔ m.IsClass c := by
  rw [IsClass, IsClass, size_of_map h]

theorem cls_of_map : g (n.cls c) = g (m.cls c) := by
  have hgetD := congrArg (Option.getD · (g default)) (h c.index)
  rwa [Option.getD_map, Option.getD_map, ← Array.getD_eq_getD_getElem?,
    ← Array.getD_eq_getD_getElem?] at hgetD

end Classes

/-- The same things are entered under the same names. -/
structure SameRegistry (m n : Model) : Prop where
  classes : ∀ i : Nat, n.classes[i]?.map Class.registry = m.classes[i]?.map Class.registry
  fields : n.fields = m.fields
  methods : ∀ i : Nat, n.methods[i]?.map Method.registry = m.methods[i]?.map Method.registry
  vars : n.vars = m.vars

namespace SameRegistry

theorem isClass_iff (h : m.SameRegistry n) (c : ClassId) : n.IsClass c ↔ m.IsClass c :=
  isClass_iff_of_map h.classes c

theorem cls (h : m.SameRegistry n) (c : ClassId) : (n.cls c).registry = (m.cls c).registry :=
  cls_of_map h.classes c

theorem method (h : m.SameRegistry n) (x : MethodId) :
    (n.method x).registry = (m.method x).registry := by
  have hgetD := congrArg (Option.getD · (default : Method).registry) (h.methods x.index)
  rwa [Option.getD_map, Option.getD_map, ← Array.getD_eq_getD_getElem?,
    ← Array.getD_eq_getD_getElem?] at hgetD

theorem registered (h : m.SameRegistry n) (hm : m.Registered) : n.Registered := by
  constructor
  case classes =>
    intro c d hc hd heq
    have hname : ∀ c, (n.cls c).name = (m.cls c).name := fun c => (congrArg Class.name (h.cls c) :)
    rw [h.isClass_iff] at hc hd
    rw [className, className, hname, hname] at heq
    exact hm.classes c d hc hd heq
  case fields =>
    refine hm.fields.congr (fun c => (congrArg Class.fields (h.cls c) :)) fun f => ?_
    rw [fieldKey?, h.fields, fieldKey?]
  case methods =>
    refine hm.methods.congr (fun c => (congrArg Class.methods (h.cls c) :)) fun x => ?_
    have hkey := congrArg (Option.map fun y : Method => (y.subsignature, y.owner)) (h.methods x.index)
    rwa [Option.map_map, Option.map_map] at hkey
  case locals =>
    refine hm.locals.congr (fun x => (congrArg Method.locals (h.method x) :)) fun v => ?_
    rw [varKey?, h.vars, varKey?]

theorem modifyClass (m : Model) (c : ClassId) {f : Class → Class}
    (hf : ∀ d : Class, (f d).registry = d.registry) :
    m.SameRegistry { m with classes := m.classes.modify c.index f } := by
  refine ⟨fun i => ?_, rfl, fun _ => rfl, rfl⟩
  rw [Array.getElem?_modify]
  split
  · rw [Option.map_map, show Class.registry ∘ f = Class.registry from funext hf]
  · rfl

theorem modifyMethod (m : Model) (x : MethodId) {f : Method → Method}
    (hf : ∀ y : Method, (f y).registry = y.registry) :
    m.SameRegistry { m with methods := m.methods.modify x.index f } := by
  refine ⟨fun _ => rfl, rfl, fun i => ?_, rfl⟩
  rw [Array.getElem?_modify]
  split
  · rw [Option.map_map, show Method.registry ∘ f = Method.registry from funext hf]
  · rfl

end SameRegistry

/-! ### Edits that enter a name -/

theorem cls_modify {c : ClassId} (hc : m.IsClass c) (f : Class → Class) (d : ClassId) :
    ({ m with classes := m.classes.modify c.index f } : Model).cls d =
      if d = c then f (m.cls c) else m.cls d := by
  simp only [cls, Array.getD_eq_getD_getElem?, Array.getElem?_modify]
  by_cases hd : d = c
  · subst hd
    simp [Array.getElem?_eq_getElem hc]
  · have hne : c.index ≠ d.index := fun heq => hd (Id.ext heq.symm)
    simp [hd, hne]

/-- To modify a class in its members changes no name of a class. -/
theorem Registered.classes_modify (hm : m.Registered) {c : ClassId} {f : Class → Class}
    (hf : ∀ x, (f x).name = x.name) : ∀ d e : ClassId,
      d.index < (m.classes.modify c.index f).size → e.index < (m.classes.modify c.index f).size →
        ({ m with classes := m.classes.modify c.index f } : Model).className d =
          ({ m with classes := m.classes.modify c.index f } : Model).className e → d = e := by
  have hname : ∀ d, ({ m with classes := m.classes.modify c.index f } : Model).className d =
      m.className d := by
    intro d
    simp only [className, cls, Array.getD_eq_getD_getElem?, Array.getElem?_modify]
    split
    · cases m.classes[d.index]? with
      | none => rfl
      | some x => exact hf x
    · rfl
  intro d e hd he heq
  rw [hname, hname] at heq
  rw [Array.size_modify] at hd he
  exact hm.classes d e hd he heq

namespace Registered

variable (hm : m.Registered)

include hm

theorem pushClass {c : Class} (hname : ∀ d, m.IsClass d → m.className d ≠ c.name)
    (hfields : c.fields = #[]) (hmethods : c.methods = #[]) :
    ({ m with classes := m.classes.push c } : Model).Registered := by
  have hcls : ∀ d : ClassId, ({ m with classes := m.classes.push c } : Model).cls d =
      if d.index = m.classes.size then c else m.cls d := by
    intro d
    simp only [Model.cls, Array.getD_eq_getD_getElem?, Array.getElem?_push]
    split <;> rfl
  have hnone : ∀ d : ClassId, d.index = m.classes.size → m.cls d = default := by
    intro d hd
    rw [Model.cls, Array.getD_eq_getD_getElem?, Array.getElem?_eq_none (Nat.le_of_eq hd.symm)]
    rfl
  constructor
  case classes =>
    intro d e hd he heq
    rw [IsClass, Array.size_push] at hd he
    rw [className, className, hcls, hcls] at heq
    by_cases hd' : d.index = m.classes.size
    · by_cases he' : e.index = m.classes.size
      · exact Id.ext (hd'.trans he'.symm)
      · rw [if_pos hd', if_neg he'] at heq
        exact absurd heq.symm (hname e (by rw [IsClass]; omega))
    · by_cases he' : e.index = m.classes.size
      · rw [if_neg hd', if_pos he'] at heq
        exact absurd heq (hname d (by rw [IsClass]; omega))
      · rw [if_neg hd', if_neg he'] at heq
        exact hm.classes d e (by rw [IsClass]; omega) (by rw [IsClass]; omega) heq
  case fields =>
    refine hm.fields.congr (fun d => ?_) fun _ => rfl
    rw [hcls]
    split
    · rename_i hd
      rw [hfields, hnone d hd]
      rfl
    · rfl
  case methods =>
    refine hm.methods.congr (fun d => ?_) fun _ => rfl
    rw [hcls]
    split
    · rename_i hd
      rw [hmethods, hnone d hd]
      rfl
    · rfl
  case locals => exact hm.locals

theorem addField {c : ClassId} (hc : m.IsClass c) {name : String}
    (hname : ∀ f, (name, f) ∉ (m.cls c).fields) (isStatic : Bool) :
    ({ m with
      classes := m.classes.modify c.index fun x => { x with fields := x.fields.push (name, ⟨m.fields.size⟩) }
      fields := m.fields.push ⟨name, c, isStatic⟩ } : Model).Registered := by
  have hcls := cls_modify hc fun x => { x with fields := x.fields.push (name, (⟨m.fields.size⟩ : FieldId)) }
  constructor
  case classes => exact hm.classes_modify fun _ => rfl
  case fields =>
    refine hm.fields.push (i := ⟨m.fields.size⟩) ?_ hname (fun d => ?_) fun f => ?_
    · simp [fieldKey?]
    · refine (congrArg Class.fields (hcls d)).trans ?_
      split <;> rfl
    · simp only [fieldKey?, Array.getElem?_push, Id.ext_iff]
      split <;> rfl
  case methods =>
    refine hm.methods.congr (fun d => (congrArg Class.methods (hcls d)).trans ?_) fun _ => rfl
    split
    · rename_i hd
      rw [hd]
    · rfl
  case locals => exact hm.locals

theorem declare {c : ClassId} (hc : m.IsClass c) {s : Subsignature}
    (hs : ∀ x, (s, x) ∉ (m.cls c).methods) {y : Method} (hsubsignature : y.subsignature = s)
    (howner : y.owner = c) (hlocals : y.locals = #[]) :
    ({ m with
      classes := m.classes.modify c.index fun x => { x with methods := x.methods.push (s, ⟨m.methods.size⟩) }
      methods := m.methods.push y } : Model).Registered := by
  have hcls := cls_modify hc fun x =>
    { x with methods := x.methods.push (s, (⟨m.methods.size⟩ : MethodId)) }
  constructor
  case classes => exact hm.classes_modify fun _ => rfl
  case fields =>
    refine hm.fields.congr (fun d => (congrArg Class.fields (hcls d)).trans ?_) fun _ => rfl
    split
    · rename_i hd
      rw [hd]
    · rfl
  case methods =>
    refine hm.methods.push (i := ⟨m.methods.size⟩) ?_ hs (fun d => ?_) fun x => ?_
    · simp [methodKey?]
    · refine (congrArg Class.methods (hcls d)).trans ?_
      split <;> rfl
    · simp only [methodKey?, Array.getElem?_push, Id.ext_iff]
      split
      · rw [Option.map_some, hsubsignature, howner]
      · rfl
  case locals =>
    refine hm.locals.congr (fun x => ?_) fun _ => rfl
    simp only [Model.method, Array.getD_eq_getD_getElem?, Array.getElem?_push]
    split
    · rename_i hx
      rw [hx, Array.getElem?_eq_none (Nat.le_refl _)]
      exact hlocals
    · rfl

theorem addLocal {x : MethodId} (hx : m.IsMethod x) {name : String}
    (hname : ∀ v, (name, v) ∉ (m.method x).locals) :
    ({ m with
      methods := m.methods.modify x.index fun y => { y with locals := y.locals.push (name, ⟨m.vars.size⟩) }
      vars := m.vars.push ⟨name, x⟩ } : Model).Registered := by
  have hmethod := method_modify hx fun y =>
    { y with locals := y.locals.push (name, (⟨m.vars.size⟩ : VarId)) }
  constructor
  case classes => exact hm.classes
  case fields => exact hm.fields
  case methods =>
    refine hm.methods.congr (fun _ => rfl) fun z => ?_
    rw [methodKey?, methodKey?, Array.getElem?_modify]
    split
    · exact Option.map_map _ _ _
    · rfl
  case locals =>
    refine hm.locals.push (i := ⟨m.vars.size⟩) ?_ hname (fun z => ?_) fun v => ?_
    · simp [varKey?]
    · refine (congrArg Method.locals (hmethod z)).trans ?_
      split <;> rfl
    · simp only [varKey?, Array.getElem?_push, Id.ext_iff]
      split <;> rfl

end Registered

end Model

namespace Builder

variable {b : Builder}

theorem registered_var (hb : b.Registered) {x : MethodId} (hx : b.IsMethod x) (name : String) :
    (b.var x name).2.Registered := by
  rw [var]
  split
  · exact hb
  · rename_i hnone
    refine hb.addLocal hx fun v hv => ?_
    have hsome := isSome_find?_key.2 ⟨v, hv⟩
    rw [← Method.local?, hnone] at hsome
    cases hsome

theorem registered_addThis (hb : b.Registered) {x : MethodId} (hx : b.IsMethod x) :
    (b.addThis x).Registered := by
  refine (Model.SameRegistry.modifyMethod _ x ?_).registered (registered_var hb hx "this")
  exact fun _ => rfl

theorem registered_addParams (hb : b.Registered) (hs : b.Scoped) {x : MethodId} (hx : b.IsMethod x)
    (params : List String) : (params.foldl (fun b name => b.addParam x name) b).Registered := by
  induction params generalizing b with
  | nil => exact hb
  | cons name params ih =>
    obtain ⟨hfits, hscoped⟩ := scoped_addParam hs hx name
    have hparam : (b.addParam x name).Registered :=
      (Model.SameRegistry.modifyMethod _ x
        (f := fun y => { y with params := y.params.push (b.var x name).1 }) fun _ => rfl).registered
        (registered_var hb hx name)
    exact ih hparam hscoped (hfits.isMethod hx)

theorem registered_addMethod (hb : b.Registered) (hs : b.Scoped) {c : ClassId} (hc : b.IsClass c)
    {s : Subsignature} {isStatic isAbstract : Bool} {params : List String} :
    (b.after (b.addMethod c s isStatic isAbstract params)).Registered := by
  rw [addMethod]
  split
  · exact hb
  · rename_i hnew
    have hdeclared : (b.declare c s isStatic isAbstract).Registered :=
      hb.declare hc (fun x hx => hnew (isSome_find?_key.2 ⟨x, hx⟩)) rfl rfl rfl
    obtain ⟨hscoped, hid⟩ := scoped_declare hs hc s isStatic isAbstract
    cases isStatic with
    | true => exact registered_addParams hdeclared hscoped hid params
    | false =>
      obtain ⟨hfits, hscoped'⟩ := scoped_addThis hscoped hid
      exact registered_addParams (registered_addThis hdeclared hid) hscoped'
        (hfits.isMethod hid) params

theorem registered_perform (hb : b.Registered) (hs : b.Scoped) {c : Command} (hc : c.Allowed b) :
    (c.perform b).Registered := by
  cases c with
  | addClass name kind superclass =>
    rw [Command.perform, addClass]
    split
    · exact hb
    · rename_i hnew
      refine hb.pushClass (fun d hd hname => hnew ?_) rfl rfl
      rw [hb.classNamed?_eq_some_iff.2 ⟨hd, hname⟩]
      rfl
  | addField c name isStatic =>
    rw [Command.perform, addField]
    split
    · exact hb
    · rename_i hnew
      exact hb.addField hc (fun f hf => hnew (isSome_find?_key.2 ⟨f, hf⟩)) isStatic
  | setSuperclass c | addInterface c | setAbstract c =>
    refine (Model.SameRegistry.modifyClass b.toModel c ?_).registered hb
    exact fun _ => rfl
  | addMethod c s isStatic isAbstract params => exact registered_addMethod hb hs hc
  | var x name => exact registered_var hb hc name
  | push x s =>
    refine (Model.SameRegistry.modifyMethod b.toModel x ?_).registered hb
    exact fun _ => rfl
  | pushNew x lhs c =>
    have hpush := (Model.SameRegistry.modifyMethod b.toModel x
      (f := fun y => { y with body := y.body.push (.new ⟨b.sites.size⟩) }) fun _ => rfl).registered hb
    exact { hpush with }
  | pushCall x kind cls s receiver args result =>
    have hpush := (Model.SameRegistry.modifyMethod b.toModel x
      (f := fun y => { y with body := y.body.push (.invoke ⟨b.calls.size⟩) }) fun _ => rfl).registered hb
    exact { hpush with }
  | pushReturn x returned =>
    cases returned with
    | none =>
      refine (Model.SameRegistry.modifyMethod b.toModel x ?_).registered hb
      exact fun _ => rfl
    | some v =>
      rw [Command.perform, pushReturn_some]
      refine (Model.SameRegistry.modifyMethod b.toModel x fun y => ?_).registered hb
      split <;> rfl
  | setEntry x => exact hb

theorem registered_of_reached (hb : b.Reached) : b.Registered := by
  induction hb with
  | empty =>
    constructor
    case classes => exact fun c _ hc => absurd hc (Nat.not_lt_zero c.index)
    case fields => exact .empty (fun _ => rfl) fun _ => rfl
    case methods => exact .empty (fun _ => rfl) fun _ => rfl
    case locals => exact .empty (fun _ => rfl) fun _ => rfl
  | step c hb hc ih => exact registered_perform ih (scoped_of_reached hb) hc

end Builder

end PointsTo
