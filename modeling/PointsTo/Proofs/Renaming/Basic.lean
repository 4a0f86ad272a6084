import Mathlib.Data.Set.Function
import PointsTo.Proofs.Solver.Final

/-! Renamings. Two collections of entities that number the same things in different orders differ by a
renaming of identifiers. It respects what the identifiers stand for, the objects in contexts renamed
along. -/

namespace PointsTo

/-- A bijection between the identifiers of two collections, for each sort, that respects values. -/
structure Renaming (t u : Entities) where
  context : ContextId → ContextId
  object : ObjectId → ObjectId
  qobject : QObjectId → QObjectId
  qmethod : QMethodId → QMethodId
  qcall : QCallId → QCallId
  cell : CellId → CellId
  bijOn_context : Set.BijOn context {c | t.IsContext c} {c | u.IsContext c}
  bijOn_object : Set.BijOn object {o | t.IsObject o} {o | u.IsObject o}
  bijOn_qobject : Set.BijOn qobject {o | t.IsQObject o} {o | u.IsQObject o}
  bijOn_qmethod : Set.BijOn qmethod {x | t.IsQMethod x} {x | u.IsQMethod x}
  bijOn_qcall : Set.BijOn qcall {c | t.IsQCall c} {c | u.IsQCall c}
  bijOn_cell : Set.BijOn cell {c | t.IsCell c} {c | u.IsCell c}
  context_eq : ∀ c, t.IsContext c → u.context (context c) = (t.context c).map object
  object_eq : ∀ o, t.IsObject o → u.object (object o) = t.object o
  qobject_eq : ∀ o, t.IsQObject o →
    u.qobject (qobject o) = ⟨context (t.qobject o).context, object (t.qobject o).item⟩
  qmethod_eq : ∀ x, t.IsQMethod x →
    u.qmethod (qmethod x) = ⟨context (t.qmethod x).context, (t.qmethod x).item⟩
  qcall_eq : ∀ c, t.IsQCall c → u.qcall (qcall c) = ⟨context (t.qcall c).context, (t.qcall c).item⟩
  cell_eq : ∀ c, t.IsCell c → u.cell (cell c) = (t.cell c).map context qobject

namespace Renaming

variable {t u : Entities}

def edge (ρ : Renaming t u) (e : QCallEdge) : QCallEdge := ⟨e.kind, ρ.qcall e.site, ρ.qmethod e.callee⟩

/-! ### Reading under other names -/

section Reading

variable {f : ContextId → ContextId} {g : ObjectId → ObjectId} {h : QObjectId → QObjectId}

theorem contextOf_map (hg : ∀ o, t.IsObject o → u.object (g o) = t.object o) {c : Context}
    (hc : t.ScopedContext c) : u.contextOf (c.map g) = t.contextOf c := by
  rw [Entities.contextOf, Entities.contextOf, ContextOf.map, ContextOf.map, ContextOf.map,
    List.map_map]
  refine congrArg ContextOf.mk (List.map_congr_left fun e he => ?_)
  cases e with
  | callSite call => rfl
  | object o => exact congrArg ContextElemOf.object (hg o (hc o he))
  | type cls => rfl

theorem scopedContext_map (hg : Set.MapsTo g {o | t.IsObject o} {o | u.IsObject o}) {c : Context}
    (hc : t.ScopedContext c) : u.ScopedContext (c.map g) := by
  intro o ho
  obtain ⟨e, he, heq⟩ := List.mem_map.1 ho
  cases e with
  | callSite call => cases heq
  | object p =>
    obtain rfl := ContextElemOf.object.inj heq
    exact hg (hc p he)
  | type cls => cases heq

theorem placeOf_map (hf : ∀ c, t.IsContext c → u.contextAt (f c) = t.contextAt c)
    (hh : ∀ o, t.IsQObject o → u.qobjectAt (h o) = t.qobjectAt o) {c : Cell} (hc : t.ScopedCell c) :
    u.placeOf (c.map f h) = t.placeOf c := by
  cases c with
  | var context v => exact congrArg (CellOf.var · v) (hf context hc)
  | field base x => exact congrArg (CellOf.field · x) (hh base hc)
  | static x => rfl
  | elements base => exact congrArg CellOf.elements (hh base hc)

theorem scopedCell_map (hf : Set.MapsTo f {c | t.IsContext c} {c | u.IsContext c})
    (hh : Set.MapsTo h {o | t.IsQObject o} {o | u.IsQObject o}) {c : Cell} (hc : t.ScopedCell c) :
    u.ScopedCell (c.map f h) := by
  cases c with
  | var context v => exact hf hc
  | field base x => exact hh hc
  | static x => trivial
  | elements base => exact hh hc

variable (ρ : Renaming t u) (ht : t.Scoped)

include ht

theorem contextAt {c : ContextId} (hc : t.IsContext c) :
    u.contextAt (ρ.context c) = t.contextAt c := by
  rw [Entities.contextAt, ρ.context_eq c hc]
  exact contextOf_map ρ.object_eq (ht.context hc)

theorem qobjectAt {o : QObjectId} (ho : t.IsQObject o) :
    u.qobjectAt (ρ.qobject o) = t.qobjectAt o := by
  obtain ⟨hcontext, hobject⟩ := ht.qobject ho
  rw [Entities.qobjectAt, ρ.qobject_eq o ho, Entities.qobjectOf, ρ.contextAt ht hcontext,
    ρ.object_eq _ hobject]
  rfl

theorem qmethodAt {x : QMethodId} (hx : t.IsQMethod x) :
    u.qmethodAt (ρ.qmethod x) = t.qmethodAt x := by
  rw [Entities.qmethodAt, ρ.qmethod_eq x hx, Entities.qmethodOf, ρ.contextAt ht (ht.qmethod hx)]
  rfl

theorem qcallAt {c : QCallId} (hc : t.IsQCall c) : u.qcallAt (ρ.qcall c) = t.qcallAt c := by
  rw [Entities.qcallAt, ρ.qcall_eq c hc, Entities.qcallOf, ρ.contextAt ht (ht.qcall hc)]
  rfl

theorem cellAt {c : CellId} (hc : t.IsCell c) : u.cellAt (ρ.cell c) = t.cellAt c := by
  rw [Entities.cellAt, ρ.cell_eq c hc]
  exact placeOf_map (fun _ => ρ.contextAt ht) (fun _ => ρ.qobjectAt ht) (ht.cell hc)

theorem edgeAt {e : QCallEdge} (hsite : t.IsQCall e.site) (hcallee : t.IsQMethod e.callee) :
    u.edgeAt (ρ.edge e) = t.edgeAt e := by
  rw [Entities.edgeAt, edge, ρ.qcallAt ht hsite, ρ.qmethodAt ht hcallee]
  rfl

end Reading

/-! ### Renamings from readings -/

/-- Two ways to read the same things, each without repetition, differ by a bijection. -/
theorem exists_bijOn {α β γ : Type} [Nonempty β] {A : Set α} {B : Set β} {f : α → γ} {g : β → γ}
    (hf : Set.InjOn f A) (hg : Set.InjOn g B) (h : f '' A = g '' B) :
    ∃ e : α → β, Set.BijOn e A B ∧ ∀ x ∈ A, g (e x) = f x := by
  have hfA : Set.BijOn f A (g '' B) := h ▸ hf.bijOn_image
  have hgB : Set.BijOn g B (g '' B) := hg.bijOn_image
  refine ⟨Function.invFunOn g B ∘ f, ?_, ?_⟩
  · exact (hgB.invOn_invFunOn.symm.bijOn (Set.surjOn_image g B).mapsTo_invFunOn hgB.mapsTo).comp hfA
  · intro x hx
    exact Function.invFunOn_eq (hfA.mapsTo hx)

/-- Collections whose identifiers read as the same things differ by a renaming. -/
theorem exists_of_images (ht : t.Scoped) (hu : u.Scoped)
    (hcontext : t.contextAt '' {c | t.IsContext c} = u.contextAt '' {c | u.IsContext c})
    (hobject : t.object '' {o | t.IsObject o} = u.object '' {o | u.IsObject o})
    (hqobject : t.qobjectAt '' {o | t.IsQObject o} = u.qobjectAt '' {o | u.IsQObject o})
    (hqmethod : t.qmethodAt '' {x | t.IsQMethod x} = u.qmethodAt '' {x | u.IsQMethod x})
    (hqcall : t.qcallAt '' {c | t.IsQCall c} = u.qcallAt '' {c | u.IsQCall c})
    (hcell : t.cellAt '' {c | t.IsCell c} = u.cellAt '' {c | u.IsCell c}) :
    Nonempty (Renaming t u) := by
  obtain ⟨context, bijContext, readContext⟩ := exists_bijOn
    (fun _ hc _ hd h => ht.contextAt_injective hc hd h)
    (fun _ hc _ hd h => hu.contextAt_injective hc hd h) hcontext
  obtain ⟨object, bijObject, readObject⟩ := exists_bijOn
    (fun _ ho _ hp h => Entities.object_injective ho hp h)
    (fun _ ho _ hp h => Entities.object_injective ho hp h) hobject
  obtain ⟨qobject, bijQObject, readQObject⟩ := exists_bijOn
    (fun _ ho _ hp h => ht.qobjectAt_injective ho hp h)
    (fun _ ho _ hp h => hu.qobjectAt_injective ho hp h) hqobject
  obtain ⟨qmethod, bijQMethod, readQMethod⟩ := exists_bijOn
    (fun _ hx _ hy h => ht.qmethodAt_injective hx hy h)
    (fun _ hx _ hy h => hu.qmethodAt_injective hx hy h) hqmethod
  obtain ⟨qcall, bijQCall, readQCall⟩ := exists_bijOn
    (fun _ hc _ hd h => ht.qcallAt_injective hc hd h)
    (fun _ hc _ hd h => hu.qcallAt_injective hc hd h) hqcall
  obtain ⟨cell, bijCell, readCell⟩ := exists_bijOn
    (fun _ hc _ hd h => ht.cellAt_injective hc hd h)
    (fun _ hc _ hd h => hu.cellAt_injective hc hd h) hcell
  -- what a renamed identifier stands for reads like the renamed value
  have hcontextOf : ∀ {c d}, t.IsContext c → u.IsContext d → u.contextAt d = t.contextAt c →
      d = context c := fun hc hd h =>
    hu.contextAt_injective hd (bijContext.mapsTo hc) (h.trans (readContext _ hc).symm)
  refine ⟨⟨context, object, qobject, qmethod, qcall, cell, bijContext, bijObject, bijQObject,
    bijQMethod, bijQCall, bijCell, ?_, readObject, ?_, ?_, ?_, ?_⟩⟩
  · intro c hc
    apply Entities.contextOf_injective (hu.context (bijContext.mapsTo hc))
      (scopedContext_map bijObject.mapsTo (ht.context hc))
    rw [contextOf_map readObject (ht.context hc)]
    exact readContext c hc
  · intro o ho
    obtain ⟨htcontext, htobject⟩ := ht.qobject ho
    obtain ⟨hucontext, huobject⟩ := hu.qobject (bijQObject.mapsTo ho)
    obtain ⟨hreadContext, hreadItem⟩ := Located.mk.inj (readQObject o ho)
    refine Qualified.ext (hcontextOf htcontext hucontext hreadContext) ?_
    exact Entities.object_injective huobject (bijObject.mapsTo htobject)
      (hreadItem.trans (readObject _ htobject).symm)
  · intro x hx
    obtain ⟨hreadContext, hreadItem⟩ := Located.mk.inj (readQMethod x hx)
    exact Qualified.ext
      (hcontextOf (ht.qmethod hx) (hu.qmethod (bijQMethod.mapsTo hx)) hreadContext) hreadItem
  · intro c hc
    obtain ⟨hreadContext, hreadItem⟩ := Located.mk.inj (readQCall c hc)
    exact Qualified.ext
      (hcontextOf (ht.qcall hc) (hu.qcall (bijQCall.mapsTo hc)) hreadContext) hreadItem
  · intro c hc
    apply hu.placeOf_injective (hu.cell (bijCell.mapsTo hc))
      (scopedCell_map bijContext.mapsTo bijQObject.mapsTo (ht.cell hc))
    rw [placeOf_map readContext readQObject (ht.cell hc)]
    exact readCell c hc

end Renaming

end PointsTo
