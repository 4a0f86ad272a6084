import PointsTo.Proofs.PossibleFacts
import PointsTo.Proofs.Result.Answers
import PointsTo.Proofs.Variants.Relabeling

/-! Relabelings that are undone. If everything that a program has comes back to its number, then so do the
contexts, objects and places that its analysis can speak of. Facts that are carried over and back are
therefore the facts that they were. -/

namespace PointsTo

namespace Relabeling

/-- The second relabeling takes the numbers of the model back from where the first one takes them. -/
structure UndoneBy (ρ ρ' : Relabeling) (m : Model) : Prop where
  cls : ∀ c, ρ'.cls (ρ.cls c) = c
  field : ∀ f, m.IsField f → ρ'.field (ρ.field f) = f
  method : ∀ x, m.IsMethod x → ρ'.method (ρ.method x) = x
  var : ∀ v, m.IsVar v → ρ'.var (ρ.var v) = v
  site : ∀ i, m.IsSite i → ρ'.site (ρ.site i) = i
  call : ∀ i, m.IsCall i → ρ'.call (ρ.call i) = i

namespace UndoneBy

variable {ρ ρ' : Relabeling} {a : Analysis} (hρ : ρ.UndoneBy ρ' a.program.toModel)

include hρ

theorem object {i : SiteId} (hi : a.program.IsSite i) :
    ρ'.object (ρ.object (a.heap.object a.program.toModel i)) = a.heap.object a.program.toModel i := by
  cases a.heap with
  | allocationSite =>
    simp only [HeapModel.object, Relabeling.object, origin, hρ.site i hi, hρ.cls, Option.map_some]
  | type => simp only [HeapModel.object, Relabeling.object, origin, hρ.cls, Option.map_none]

theorem elem {e : ContextElemOf HeapObject} (he : e ∈ a.contextElems) :
    ρ'.elem ρ'.object (ρ.elem ρ.object e) = e := by
  obtain (⟨i, hi, rfl⟩ | ⟨i, hi, rfl⟩) | ⟨i, hi, rfl⟩ := he
  · exact congrArg ContextElemOf.callSite (hρ.call i hi)
  · exact congrArg ContextElemOf.object (hρ.object hi)
  · exact congrArg ContextElemOf.type (hρ.cls _)

theorem context {c : ContextOf HeapObject} (hc : c ∈ a.possibleContexts) :
    ρ'.context (ρ.context c) = c := by
  have helems : (c.elems.map (ρ.elem ρ.object)).map (ρ'.elem ρ'.object) = c.elems := by
    rw [List.map_map]
    exact (List.map_congr_left fun e he => hρ.elem (hc.2 e he)).trans (List.map_id c.elems)
  exact congrArg ContextOf.mk helems

theorem qobject {o : Located HeapObject} (ho : o ∈ a.possibleObjects) : ρ'.qobject (ρ.qobject o) = o := by
  obtain ⟨hcontext, i, hi, hitem⟩ := ho
  refine Located.ext (hρ.context hcontext) ?_
  show ρ'.object (ρ.object o.item) = o.item
  rw [← hitem, hρ.object hi]

theorem place {x : Place} (hx : x ∈ a.possiblePlaces) : ρ'.place (ρ.place x) = x := by
  cases x with
  | var c v => exact congrArg₂ CellOf.var (hρ.context hx.1) (hρ.var v hx.2)
  | field o f => exact congrArg₂ CellOf.field (hρ.qobject hx.1) (hρ.field f hx.2)
  | static f => exact congrArg CellOf.static (hρ.field f hx)
  | elements o => exact congrArg CellOf.elements (hρ.qobject hx)

/-- Of possible facts nothing is lost on the way there and back. -/
theorem le_image {F G : Facts} (hF : F ≤ a.possibleFacts) (hle : F ≤ ρ.preimage G) : F ≤ ρ'.image G := by
  obtain ⟨hreach, hcalls, hflow, hpointsTo⟩ := Facts.le_iff.1 hF
  obtain ⟨hreach', hcalls', hflow', hpointsTo'⟩ := Facts.le_iff.1 hle
  refine Facts.le_iff.2 ⟨fun x hx => ?_, fun e he => ?_, fun f hf => ?_, fun f hf => ?_⟩
  · obtain ⟨hcontext, hmethod⟩ := hreach hx
    exact ⟨_, hreach' hx, Located.ext (hρ.context hcontext) (hρ.method _ hmethod)⟩
  · obtain ⟨-, ⟨hsite, hcall⟩, hcallee, hmethod⟩ := hcalls he
    refine ⟨_, hcalls' he, ?_⟩
    obtain ⟨kind, site, callee⟩ := e
    exact congrArg₂ (CallEdge.mk kind) (Located.ext (hρ.context hsite) (hρ.call _ hcall))
      (Located.ext (hρ.context hcallee) (hρ.method _ hmethod))
  · obtain ⟨hsource, htarget⟩ := hflow hf
    exact ⟨_, hflow' hf, Prod.ext (hρ.place hsource) (hρ.place htarget)⟩
  · obtain ⟨hplace, hobject⟩ := hpointsTo hf
    exact ⟨_, hpointsTo' hf, Prod.ext (hρ.place hplace) (hρ.qobject hobject)⟩

end UndoneBy

/-! ### Answers -/

/-- A call edge without contexts. -/
def plainEdge (ρ : Relabeling) (e : CallEdge CallId MethodId) : CallEdge CallId MethodId :=
  ⟨e.kind, ρ.call e.site, ρ.method e.callee⟩

/-- The second answers are the first ones in the numbers of the other program. -/
structure Carries (ρ : Relabeling) (a : Analysis) (A B : Answers) : Prop where
  pointsTo : ∀ v, a.program.IsVar v → B.pointsTo (ρ.var v) = ρ.object '' A.pointsTo v
  statics : ∀ f, a.program.IsField f → B.statics (ρ.field f) = ρ.object '' A.statics f
  fields : ∀ i f, a.program.IsSite i → a.program.IsField f →
    B.fields (ρ.object (a.heap.object a.program.toModel i)) (ρ.field f) =
      ρ.object '' A.fields (a.heap.object a.program.toModel i) f
  elements : ∀ i, a.program.IsSite i → B.elements (ρ.object (a.heap.object a.program.toModel i)) =
    ρ.object '' A.elements (a.heap.object a.program.toModel i)
  calls : B.calls = ρ.plainEdge '' A.calls
  reachable : B.reachable = ρ.method '' A.reachable
  entries : B.entries = ρ.method '' A.entries

namespace UndoneBy

variable {ρ ρ' : Relabeling} {a : Analysis} (hρ : ρ.UndoneBy ρ' a.program.toModel)

theorem exists_held {F : Facts} (hF : F ≤ a.possibleFacts) {y : Place} {c : ContextOf HeapObject}
    {o : HeapObject} (h : (y, ⟨c, o⟩) ∈ (ρ.image F).pointsTo) :
    ∃ x o', (x, o') ∈ F.pointsTo ∧ x ∈ a.possiblePlaces ∧ ρ.place x = y ∧ ρ.object o'.item = o := by
  obtain ⟨-, -, -, hpossible⟩ := Facts.le_iff.1 hF
  obtain ⟨⟨x, o'⟩, hmem, heq⟩ := h
  obtain ⟨hplace, hobject⟩ := Prod.mk.inj heq
  exact ⟨x, o', hmem, (hpossible hmem).1, hplace, congrArg Located.item hobject⟩

include hρ

theorem item_eq {o : Located HeapObject} {i : SiteId} (ho : o ∈ a.possibleObjects)
    (hi : a.program.IsSite i) (h : ρ.object o.item = ρ.object (a.heap.object a.program.toModel i)) :
    o.item = a.heap.object a.program.toModel i := by
  obtain ⟨-, j, hj, hitem⟩ := ho
  rw [← hρ.object hi, ← h, ← hitem, hρ.object hj]

variable {q : Program} {F : Facts} (hF : F ≤ a.possibleFacts)

include hF

theorem pointsTo_image {v : VarId} (hv : a.program.IsVar v) :
    ((⟨q, a.selector, a.heap⟩ : Analysis).answers (ρ.image F)).pointsTo (ρ.var v) =
      ρ.object '' (a.answers F).pointsTo v := by
  ext o
  constructor
  · intro h
    obtain ⟨k, c, ho⟩ := h
    obtain ⟨x, o', hmem, hx, hplace, rfl⟩ := exists_held hF ho
    cases x with
    | var k' w =>
      obtain ⟨-, hw⟩ := CellOf.var.inj hplace
      have hwv : w = v := by rw [← hρ.var v hv, ← hw, hρ.var w hx.2]
      exact ⟨o'.item, ⟨k', o'.context, hwv ▸ hmem⟩, rfl⟩
    | field | static | elements => cases hplace
  · intro h
    obtain ⟨o, ⟨k, c, hmem⟩, rfl⟩ := h
    exact ⟨_, _, _, hmem, rfl⟩

theorem statics_image {f : FieldId} (hf : a.program.IsField f) :
    ((⟨q, a.selector, a.heap⟩ : Analysis).answers (ρ.image F)).statics (ρ.field f) =
      ρ.object '' (a.answers F).statics f := by
  ext o
  constructor
  · intro h
    obtain ⟨c, ho⟩ := h
    obtain ⟨x, o', hmem, hx, hplace, rfl⟩ := exists_held hF ho
    cases x with
    | static g =>
      have hg := CellOf.static.inj hplace
      have hgf : g = f := by rw [← hρ.field f hf, ← hg, hρ.field g hx]
      exact ⟨o'.item, ⟨o'.context, hgf ▸ hmem⟩, rfl⟩
    | var | field | elements => cases hplace
  · intro h
    obtain ⟨o, ⟨c, hmem⟩, rfl⟩ := h
    exact ⟨_, _, hmem, rfl⟩

theorem fields_image {i : SiteId} {f : FieldId} (hi : a.program.IsSite i) (hf : a.program.IsField f) :
    ((⟨q, a.selector, a.heap⟩ : Analysis).answers (ρ.image F)).fields
        (ρ.object (a.heap.object a.program.toModel i)) (ρ.field f) =
      ρ.object '' (a.answers F).fields (a.heap.object a.program.toModel i) f := by
  ext o
  constructor
  · intro h
    obtain ⟨d, c, ho⟩ := h
    obtain ⟨x, o', hmem, hx, hplace, rfl⟩ := exists_held hF ho
    cases x with
    | field b g =>
      obtain ⟨hb, hg⟩ := CellOf.field.inj hplace
      have hgf : g = f := by rw [← hρ.field f hf, ← hg, hρ.field g hx.2]
      have hbase := hρ.item_eq hx.1 hi (congrArg Located.item hb)
      exact ⟨o'.item, ⟨b.context, o'.context, by rw [← hbase, ← hgf]; exact hmem⟩, rfl⟩
    | var | static | elements => cases hplace
  · intro h
    obtain ⟨o, ⟨d, c, hmem⟩, rfl⟩ := h
    exact ⟨_, _, _, hmem, rfl⟩

theorem elements_image {i : SiteId} (hi : a.program.IsSite i) :
    ((⟨q, a.selector, a.heap⟩ : Analysis).answers (ρ.image F)).elements
        (ρ.object (a.heap.object a.program.toModel i)) =
      ρ.object '' (a.answers F).elements (a.heap.object a.program.toModel i) := by
  ext o
  constructor
  · intro h
    obtain ⟨d, c, ho⟩ := h
    obtain ⟨x, o', hmem, hx, hplace, rfl⟩ := exists_held hF ho
    cases x with
    | elements b =>
      have hbase := hρ.item_eq hx hi (congrArg Located.item (CellOf.elements.inj hplace))
      exact ⟨o'.item, ⟨b.context, o'.context, by rw [← hbase]; exact hmem⟩, rfl⟩
    | var | static | field => cases hplace
  · intro h
    obtain ⟨o, ⟨d, c, hmem⟩, rfl⟩ := h
    exact ⟨_, _, _, hmem, rfl⟩

/-- As different things stay different, no answer is mixed up with another. -/
theorem carries (hentry : ρ.method a.program.entry = q.entry) :
    ρ.Carries a (a.answers F) ((⟨q, a.selector, a.heap⟩ : Analysis).answers (ρ.image F)) where
  pointsTo _ hv := hρ.pointsTo_image hF hv
  statics _ hf := hρ.statics_image hF hf
  fields _ _ hi hf := hρ.fields_image hF hi hf
  elements _ hi := hρ.elements_image hF hi
  calls := by
    ext e
    constructor
    · intro h
      obtain ⟨_, ⟨f, hf, rfl⟩, rfl⟩ := h
      exact ⟨_, ⟨f, hf, rfl⟩, rfl⟩
    · intro h
      obtain ⟨_, ⟨f, hf, rfl⟩, rfl⟩ := h
      exact ⟨_, ⟨f, hf, rfl⟩, rfl⟩
  reachable := by
    ext y
    constructor
    · intro h
      obtain ⟨k, x, hx, heq⟩ := h
      exact ⟨x.item, ⟨x.context, hx⟩, congrArg Located.item heq⟩
    · intro h
      obtain ⟨x, ⟨k, hx⟩, rfl⟩ := h
      exact ⟨_, _, hx, rfl⟩
  entries := by
    show {q.entry} = ρ.method '' {a.program.entry}
    rw [Set.image_singleton, hentry]

end UndoneBy

end Relabeling

end PointsTo
