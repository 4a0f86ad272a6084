import PointsTo.Proofs.Execution.Semantics
import PointsTo.Proofs.Facts
import PointsTo.Proofs.Program.Returns

/-! The view of a world under facts: every object has a heap context and every frame a context, so that
what variables, fields and array elements hold, which methods the frames run and how they were entered
are among the facts. Closed facts have a view of every world that an execution comes to. -/

namespace PointsTo

/-- Contexts for the frames of a world, and its objects as the analysis sees them. -/
structure View where
  objects : List (Located HeapObject)
  contexts : List (ContextOf HeapObject)

namespace View

variable (a : Analysis) (F : Facts) (σ : View)

/-- Whatever the value is, the place may hold it. -/
def Holds (p : Place) (value : Option Ref) : Prop :=
  ∀ r, value = some r → ∃ o, σ.objects[r]? = some o ∧ (p, o) ∈ F.pointsTo

/-- A frame with its context. -/
structure Sees (c : ContextOf HeapObject) (f : Frame) : Prop where
  reach : ⟨c, f.method⟩ ∈ F.reach
  locals : ∀ v, σ.Holds F (.var c v) (f.locals v)
  caller : ∀ (i : Nat) call, f.caller = some (i, call) → ∃ d, σ.contexts[i]? = some d ∧
    ⟨(a.program.call call).kind, ⟨d, call⟩, ⟨c, f.method⟩⟩ ∈ F.calls

structure Abstracts (w : World) : Prop where
  objects : σ.objects.map Located.item = w.sites.map (a.heap.object a.program.toModel)
  contexts : σ.contexts.length = w.frames.length
  frame : ∀ (i : Nat) f, w.frames[i]? = some f → ∃ c, σ.contexts[i]? = some c ∧ σ.Sees a F c f
  statics : ∀ f, σ.Holds F (.static f) (w.statics f)
  fields : ∀ (r : Ref) f x, w.fields (r, f) = some x →
    ∃ o, σ.objects[r]? = some o ∧ σ.Holds F (.field o f) (some x)
  elements : ∀ (r : Ref) n x, w.elements (r, n) = some x →
    ∃ o, σ.objects[r]? = some o ∧ σ.Holds F (.elements o) (some x)

def pushObject (o : Located HeapObject) : View := { σ with objects := σ.objects ++ [o] }

def pushContext (c : ContextOf HeapObject) : View := { σ with contexts := σ.contexts ++ [c] }

variable {a F σ} {w : World} {p q : Place} {value : Option Ref}

theorem getElem?_append_of_eq_some {α : Type} {l : List α} {i : Nat} {x : α} (h : l[i]? = some x)
    (m : List α) : (l ++ m)[i]? = some x := by
  rw [List.getElem?_append_left (List.getElem?_eq_some_iff.1 h).1, h]

namespace Holds

theorem none : σ.Holds F p none := by
  intro r hr
  cases hr

theorem pushObject (h : σ.Holds F p value) (o : Located HeapObject) :
    (σ.pushObject o).Holds F p value := by
  intro r hr
  obtain ⟨o', ho', hp⟩ := h r hr
  exact ⟨o', getElem?_append_of_eq_some ho' _, hp⟩

theorem flow (hF : a.Closed F) (h : σ.Holds F p value) (hflow : (p, q) ∈ F.flow) :
    σ.Holds F q value := by
  intro r hr
  obtain ⟨o, ho, hp⟩ := h r hr
  exact ⟨o, ho, hF.flows p q hflow o hp⟩

end Holds

namespace Sees

variable {c : ContextOf HeapObject} {f : Frame}

theorem pushObject (h : σ.Sees a F c f) (o : Located HeapObject) : (σ.pushObject o).Sees a F c f where
  reach := h.reach
  locals v := (h.locals v).pushObject o
  caller := h.caller

theorem pushContext (h : σ.Sees a F c f) (d : ContextOf HeapObject) :
    (σ.pushContext d).Sees a F c f where
  reach := h.reach
  locals := h.locals
  caller i call hcaller := by
    obtain ⟨e, he, hcalls⟩ := h.caller i call hcaller
    exact ⟨e, getElem?_append_of_eq_some he _, hcalls⟩

theorem assign (h : σ.Sees a F c f) {v : VarId} (hvalue : σ.Holds F (.var c v) value) :
    σ.Sees a F c (f.assign v value) where
  reach := h.reach
  locals w := by
    rw [Frame.assign]
    by_cases hw : w = v
    · subst hw
      simpa only [Function.update_self] using hvalue
    · simpa only [Function.update_of_ne hw] using h.locals w
  caller := h.caller

theorem pass (h : σ.Sees a F c f) {caller : Frame} {bindings : List (VarId × VarId)}
    (hvalues : ∀ arg param, (arg, param) ∈ bindings →
      σ.Holds F (.var c param) (caller.locals arg)) : σ.Sees a F c (f.pass caller bindings) := by
  induction bindings generalizing f with
  | nil => exact h
  | cons b bindings ih =>
    have hhead := h.assign (hvalues b.1 b.2 List.mem_cons_self)
    exact ih hhead fun arg param hmem => hvalues arg param (List.mem_cons_of_mem b hmem)

end Sees

namespace Abstracts

theorem initial (hF : a.Closed F) : View.Abstracts a F ⟨[], [.empty]⟩ (.initial a.program) where
  objects := rfl
  contexts := rfl
  frame i f hf := by
    obtain ⟨rfl, rfl⟩ : i = 0 ∧ f = ⟨a.program.entry, fun _ => Option.none, Option.none⟩ := by
      cases i with
      | zero => exact ⟨rfl, (Option.some.inj hf).symm⟩
      | succ i => cases hf
    exact ⟨.empty, rfl, hF.entry, fun _ => Holds.none, by rintro i call ⟨⟩⟩
  statics _ := Holds.none
  fields _ _ _ hx := by cases hx
  elements _ _ _ hx := by cases hx

variable (h : σ.Abstracts a F w)

include h

/-- An object is seen as the one of its allocation site. -/
theorem site {r : Ref} {o : Located HeapObject} (ho : σ.objects[r]? = some o) :
    ∃ s, w.sites[r]? = some s ∧ a.heap.object a.program.toModel s = o.item := by
  have hget := congrArg (·[r]?) h.objects
  simp only [List.getElem?_map, ho, Option.map_some] at hget
  exact Option.map_eq_some_iff.1 hget.symm

theorem site_of_holds {r : Ref} (hvalue : σ.Holds F p value) (hr : value = some r) :
    ∃ s k, w.sites[r]? = some s ∧ (p, ⟨k, a.heap.object a.program.toModel s⟩) ∈ F.pointsTo := by
  obtain ⟨o, ho, hpointsTo⟩ := hvalue r hr
  obtain ⟨s, hs, hobject⟩ := h.site ho
  refine ⟨s, o.context, hs, ?_⟩
  rw [hobject]
  exact hpointsTo

theorem length_objects : σ.objects.length = w.sites.length := by
  simpa using congrArg List.length h.objects

theorem assign {i : Nat} {c : ContextOf HeapObject} {v : VarId}
    (hc : σ.contexts[i]? = some c) (hvalue : σ.Holds F (.var c v) value) :
    σ.Abstracts a F (w.assign i v value) where
  objects := h.objects
  contexts := by rw [h.contexts, World.assign, List.length_modify]
  frame j g hg := by
    rw [World.assign, List.getElem?_modify] at hg
    obtain ⟨g', hg', rfl⟩ := Option.map_eq_some_iff.1 hg
    obtain ⟨d, hd, hsees⟩ := h.frame j g' hg'
    refine ⟨d, hd, ?_⟩
    split
    · subst i
      obtain rfl := Option.some.inj (hc.symm.trans hd)
      exact hsees.assign hvalue
    · exact hsees
  statics := h.statics
  fields := h.fields
  elements := h.elements

theorem allocate {s : SiteId} {c : ContextOf HeapObject} :
    (σ.pushObject ⟨c, a.heap.object a.program.toModel s⟩).Abstracts a F (w.allocate s) where
  objects := by simp [pushObject, World.allocate, h.objects]
  contexts := h.contexts
  frame i f hf := by
    obtain ⟨d, hd, hsees⟩ := h.frame i f hf
    exact ⟨d, hd, hsees.pushObject _⟩
  statics f := (h.statics f).pushObject _
  fields r f x hx := by
    obtain ⟨o, ho, hholds⟩ := h.fields r f x hx
    exact ⟨o, getElem?_append_of_eq_some ho _, hholds.pushObject _⟩
  elements r n x hx := by
    obtain ⟨o, ho, hholds⟩ := h.elements r n x hx
    exact ⟨o, getElem?_append_of_eq_some ho _, hholds.pushObject _⟩

theorem setStatic {f : FieldId} (hvalue : σ.Holds F (.static f) value) :
    σ.Abstracts a F (w.setStatic f value) where
  objects := h.objects
  contexts := h.contexts
  frame := h.frame
  statics g := by
    rw [World.setStatic]
    by_cases hg : g = f
    · subst hg
      simpa only [Function.update_self] using hvalue
    · simpa only [Function.update_of_ne hg] using h.statics g
  fields := h.fields
  elements := h.elements

theorem setField {r : Ref} {f : FieldId} {o : Located HeapObject} (ho : σ.objects[r]? = some o)
    (hvalue : σ.Holds F (.field o f) value) : σ.Abstracts a F (w.setField r f value) where
  objects := h.objects
  contexts := h.contexts
  frame := h.frame
  statics := h.statics
  fields s g x hx := by
    have hx : Function.update w.fields (r, f) value (s, g) = some x := hx
    by_cases hg : (s, g) = (r, f)
    · obtain ⟨rfl, rfl⟩ := Prod.mk.inj hg
      rw [Function.update_self] at hx
      exact ⟨o, ho, hx ▸ hvalue⟩
    · exact h.fields s g x ((Function.update_of_ne hg _ _).symm.trans hx)
  elements := h.elements

theorem setElement {r : Ref} {n : Nat} {o : Located HeapObject} (ho : σ.objects[r]? = some o)
    (hvalue : σ.Holds F (.elements o) value) : σ.Abstracts a F (w.setElement r n value) where
  objects := h.objects
  contexts := h.contexts
  frame := h.frame
  statics := h.statics
  fields := h.fields
  elements s m x hx := by
    have hx : Function.update w.elements (r, n) value (s, m) = some x := hx
    by_cases hm : (s, m) = (r, n)
    · obtain ⟨rfl, rfl⟩ := Prod.mk.inj hm
      rw [Function.update_self] at hx
      exact ⟨o, ho, hx ▸ hvalue⟩
    · exact h.elements s m x ((Function.update_of_ne hm _ _).symm.trans hx)

theorem push {f : Frame} {c : ContextOf HeapObject} (hf : σ.Sees a F c f) :
    (σ.pushContext c).Abstracts a F (w.push f) where
  objects := h.objects
  contexts := by simp [pushContext, World.push, h.contexts]
  frame i g hg := by
    rw [World.push, List.getElem?_append] at hg
    split at hg
    · obtain ⟨d, hd, hsees⟩ := h.frame i g hg
      exact ⟨d, getElem?_append_of_eq_some hd _, hsees.pushContext c⟩
    · have hi : i = σ.contexts.length := by
        have hlt := (List.getElem?_eq_some_iff.1 hg).1
        rw [h.contexts]
        rw [List.length_singleton] at hlt
        omega
      subst hi
      rw [h.contexts, Nat.sub_self] at hg
      obtain rfl := Option.some.inj hg
      exact ⟨c, List.getElem?_concat_length, hf.pushContext c⟩
  statics := h.statics
  fields := h.fields
  elements := h.elements

end Abstracts

end View

end PointsTo
