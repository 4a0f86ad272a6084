import PointsTo.Proofs.Precision.HeapModels

/-! Receivers and their classes in contexts. Where each object stands for all of its class, a context that
lists objects says no more than the list of their classes. Shortening and appending commute with the change
from one to the other, and numberings of such contexts number alike. -/

namespace PointsTo

namespace Numbering

variable {α β : Type} [Coded α] [Coded β]

/-- The values of the first numbering are those of the second under `f`, number by number. -/
def IsImage (n : Numbering β) (f : α → β) (m : Numbering α) : Prop := n.toList = m.toList.map f

namespace IsImage

variable {n : Numbering β} {f g : α → β} {m : Numbering α} (h : n.IsImage f m)

include h

theorem congr (hfg : ∀ a ∈ m.toList, f a = g a) : n.IsImage g m := h.trans (List.map_congr_left hfg)

theorem getElem?_values (i : Nat) : n.values[i]? = m.values[i]?.map f := by
  have hlist : n.toList[i]? = m.toList[i]?.map f := by rw [h, List.getElem?_map]
  rwa [toList, toList, Array.getElem?_toList, Array.getElem?_toList] at hlist

theorem getD_values {a : α} {b : β} (hab : f a = b) (i : Nat) :
    n.values.getD i b = f (m.values.getD i a) := by
  rw [Array.getD_eq_getD_getElem?, Array.getD_eq_getD_getElem?, h.getElem?_values]
  cases m.values[i]? with
  | none => exact hab.symm
  | some c => rfl

theorem indexOf {a : α} (ha : a ∈ m.toList) : n.indexOf (f a) = m.indexOf a := by
  have hvalue : n.values[m.indexOf a]? = some (f a) := by
    rw [h.getElem?_values, values_indexOf ha]
    rfl
  rw [Numbering.indexOf, indexOf?_eq_some_iff.2 hvalue]
  rfl

/-- A value that the map tells apart from those that have a number gets one, or has one, on both sides. -/
theorem insert {a : α} (ha : ∀ b ∈ m.toList, f b = f a → b = a) :
    (n.insert (f a)).IsImage f (m.insert a) := by
  by_cases hmem : a ∈ m.toList
  · have himage : f a ∈ n.toList := by
      rw [h]
      exact List.mem_map_of_mem hmem
    rw [insert_of_mem hmem, insert_of_mem himage]
    exact h
  · have hnew : f a ∉ n.toList := by
      rw [h, List.mem_map]
      rintro ⟨b, hb, heq⟩
      exact hmem (ha b hb heq ▸ hb)
    rw [IsImage, toList_insert_of_not_mem hmem, toList_insert_of_not_mem hnew, List.map_append, h]
    rfl

end IsImage

end Numbering

section Typed

variable {O : Type}

/-- The element with an object spoken of by its class. -/
def ContextElemOf.typed (f : O → ClassId) : ContextElemOf O → ContextElemOf O
  | .callSite call => .callSite call
  | .object o => .type (f o)
  | .type cls => .type cls

/-- The context with its objects spoken of by their classes. -/
def ContextOf.typed (f : O → ClassId) (c : ContextOf O) : ContextOf O := ⟨c.elems.map (·.typed f)⟩

theorem ContextOf.typed_last (f : O → ClassId) (c : ContextOf O) (k : Nat) :
    (c.last k).typed f = (c.typed f).last k := by
  simp [typed, last, List.map_drop]

theorem ContextOf.typed_append (f : O → ClassId) (c : ContextOf O) (e : ContextElemOf O) (k : Nat) :
    (c.append e k).typed f = (c.typed f).append (e.typed f) k := by
  rw [append, typed_last]
  simp [append, typed]

end Typed

namespace Entities

/-- A context with the objects in it spoken of by their classes. -/
def typed (t : Entities) (c : Context) : Context := c.typed fun o => (t.object o).type

/-- Nothing but known objects makes up the context. -/
def ListsObjects (t : Entities) (c : Context) : Prop :=
  ∀ e ∈ c.elems, ∃ o, t.IsObject o ∧ e = .object o

/-- Each object stands for all of its class, and objects are all that contexts speak of. -/
structure Merged (t : Entities) : Prop where
  objects : ∀ o ∈ t.objects.toList, o.merge = o
  contexts : ∀ c ∈ t.contexts.toList, t.ListsObjects c
  qobjects : ∀ o ∈ t.qobjects.toList, t.IsObject o.item

variable {t u : Entities}

theorem typed_of_objects_eq (h : u.objects = t.objects) : u.typed = t.typed := by
  funext c
  unfold typed object
  rw [h]

theorem listsObjects_empty : t.ListsObjects .empty := fun _ he => absurd he List.not_mem_nil

namespace ListsObjects

variable {c d : Context}

theorem last (hc : t.ListsObjects c) (k : Nat) : t.ListsObjects (c.last k) :=
  fun e he => hc e (ContextOf.mem_of_mem_last he)

theorem append (hc : t.ListsObjects c) {o : ObjectId} (ho : t.IsObject o) (k : Nat) :
    t.ListsObjects (c.append (.object o) k) := by
  intro e he
  rcases ContextOf.mem_of_mem_append he with he | rfl
  · exact hc e he
  · exact ⟨o, ho, rfl⟩

theorem mono (hc : t.ListsObjects c) (h : ∀ o, t.IsObject o → u.IsObject o) : u.ListsObjects c := by
  intro e he
  obtain ⟨o, ho, rfl⟩ := hc e he
  exact ⟨o, h o ho, rfl⟩

end ListsObjects

/-- Objects keep their classes as a collection grows. -/
theorem Extends.typed (h : t.Extends u) {c : Context} (hc : t.ListsObjects c) :
    u.typed c = t.typed c := by
  refine congrArg ContextOf.mk (List.map_congr_left fun e he => ?_)
  obtain ⟨o, ho, rfl⟩ := hc e he
  simp only [ContextElemOf.typed, h.object ho]

namespace Merged

theorem empty : Entities.empty.Merged where
  objects o h := by simp [Entities.empty] at h
  contexts c h := by simp [Entities.empty] at h
  qobjects o h := by simp [Entities.empty] at h

variable (h : t.Merged)

include h

theorem of_eq (hobjects : u.objects = t.objects) (hcontexts : u.contexts = t.contexts)
    (hqobjects : u.qobjects = t.qobjects) : u.Merged := by
  have hknown : ∀ o, t.IsObject o → u.IsObject o := fun o ho => by rwa [IsObject, hobjects]
  refine ⟨?_, fun c hc => ?_, fun o ho => ?_⟩
  · rw [hobjects]
    exact h.objects
  · rw [hcontexts] at hc
    exact (h.contexts c hc).mono hknown
  · rw [hqobjects] at ho
    exact hknown _ (h.qobjects o ho)

theorem merge_object {o : ObjectId} (ho : t.IsObject o) : (t.object o).merge = t.object o :=
  h.objects _ (Numbering.getD_mem ho _)

theorem listsObjects (c : ContextId) : t.ListsObjects (t.context c) := by
  by_cases hc : t.IsContext c
  · exact h.contexts _ (Numbering.getD_mem hc _)
  · have hdefault : t.context c = .empty := by
      rw [context, Array.getD_eq_getD_getElem?, Array.getElem?_eq_none (Nat.le_of_not_lt hc)]
      rfl
    rw [hdefault]
    exact listsObjects_empty

/-- Objects of one class are one object. -/
theorem object_of_type {o q : ObjectId} (ho : t.IsObject o) (hq : t.IsObject q)
    (htype : (t.object o).type = (t.object q).type) : o = q := by
  apply object_injective ho hq
  calc
    t.object o = (t.object o).merge := (h.merge_object ho).symm
    _ = (t.object q).merge := by rw [HeapObject.merge, HeapObject.merge, htype]
    _ = t.object q := h.merge_object hq

theorem typed_injective {c d : Context} (hc : t.ListsObjects c) (hd : t.ListsObjects d)
    (heq : t.typed c = t.typed d) : c = d := by
  have helems := congrArg ContextOf.elems heq
  have hlength : c.elems.length = d.elems.length := by
    simpa [typed, ContextOf.typed] using congrArg List.length helems
  refine congrArg ContextOf.mk (List.ext_getElem hlength fun i hi hj => ?_)
  obtain ⟨o, ho, hco⟩ := hc _ (List.getElem_mem hi)
  obtain ⟨q, hq, hdq⟩ := hd _ (List.getElem_mem hj)
  have htypes : (c.elems[i].typed fun o => (t.object o).type) =
      d.elems[i].typed fun o => (t.object o).type := by
    have hget := congrArg (·[i]?) helems
    simpa [typed, ContextOf.typed, hi, hj] using hget
  rw [hco, hdq] at htypes ⊢
  rw [h.object_of_type ho hq (ContextElemOf.type.inj htypes)]

theorem addContext {c : Context} (hc : t.ListsObjects c) : (t.addContext c).Merged where
  objects := h.objects
  contexts := Numbering.forall_mem_insert h.contexts hc
  qobjects := h.qobjects

theorem addObject {o : HeapObject} (ho : o.merge = o) : (t.addObject o).Merged where
  objects := Numbering.forall_mem_insert h.objects ho
  contexts c hc := (h.contexts c hc).mono fun _ => (extends_addObject t o).isObject
  qobjects q hq := (extends_addObject t o).isObject (h.qobjects q hq)

theorem addQObject {o : Qualified .object} (ho : t.IsObject o.item) : (t.addQObject o).Merged where
  objects := h.objects
  contexts := h.contexts
  qobjects := Numbering.forall_mem_insert h.qobjects ho

end Merged

end Entities

end PointsTo
