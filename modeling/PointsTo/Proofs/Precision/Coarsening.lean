import PointsTo.Proofs.Facts

/-! Coarser selectors. A coarsening takes the contexts that one selector chooses to those that another
one does, with maps of their own for method contexts and heap contexts. A selector with shorter contexts
is coarser than one of its family with longer contexts: under call strings method contexts are cut to the
shorter length; under object and type sensitivity they never get longer than a heap context and the
receiver, and are cut to that. -/

namespace PointsTo

namespace ContextOf

variable {O : Type}

@[simp] theorem last_empty (k : Nat) : (empty : ContextOf O).last k = empty := by
  simp [last, empty]

theorem last_last (c : ContextOf O) (m k : Nat) : (c.last m).last k = c.last (min k m) := by
  have hdrop : c.elems.length - m + (c.elems.length - (c.elems.length - m) - k) =
      c.elems.length - min k m := by omega
  simp only [last, List.length_drop, List.drop_drop, hdrop]

theorem append_last (c : ContextOf O) (e : ContextElemOf O) (m k : Nat) :
    (c.last m).append e k = c.append e (min k (m + 1)) := by
  have hlast : (⟨(c.last m).elems ++ [e]⟩ : ContextOf O) = last ⟨c.elems ++ [e]⟩ (m + 1) := by
    have hlen : (c.elems ++ [e]).length - (m + 1) = c.elems.length - m := by simp
    rw [last, last, hlen, List.drop_append_of_le_length (Nat.sub_le _ _)]
  rw [append, hlast, last_last, append]

theorem last_append (c : ContextOf O) (e : ContextElemOf O) (m k : Nat) :
    (c.append e m).last k = c.append e (min k m) := last_last _ m k

end ContextOf

/-- Maps that take the contexts of the first selector to those of the second. -/
structure Selector.Coarsening (s t : Selector) where
  method : ContextOf HeapObject → ContextOf HeapObject
  heap : ContextOf HeapObject → ContextOf HeapObject
  method_empty : method .empty = .empty
  heap_heapContext : ∀ c, heap (s.heapContext c) = t.heapContext (method c)
  method_calleeContext_none : ∀ c i,
    method (s.calleeContext c i none) = t.calleeContext (method c) i none
  method_calleeContext_some : ∀ c i d (o : HeapObject),
    method (s.calleeContext c i (some ⟨d, o, o⟩)) =
      t.calleeContext (method c) i (some ⟨heap d, o, o⟩)

namespace Selector.Coarsening

/-- Contexts are dropped. -/
def toInsensitive (s : Selector) : Coarsening s .insensitive where
  method _ := .empty
  heap _ := .empty
  method_empty := rfl
  heap_heapContext _ := rfl
  method_calleeContext_none _ _ := rfl
  method_calleeContext_some _ _ _ _ := rfl

/-- Without elements in method contexts there are none in heap contexts either. -/
def ofInsensitive (s : Sensitivity) (h : Nat) : Coarsening .insensitive (s.selectorWithHeap 0 h) where
  method _ := .empty
  heap _ := .empty
  method_empty := rfl
  heap_heapContext _ := by cases s <;> simp [Sensitivity.selectorWithHeap, heapContext]
  method_calleeContext_none _ _ := by cases s <;> simp [Sensitivity.selectorWithHeap, calleeContext]
  method_calleeContext_some _ _ _ _ := by
    cases s <;> simp [Sensitivity.selectorWithHeap, calleeContext]

section Shorter

variable {k h k' h' : Nat} (hk : k ≤ k') (hh : h ≤ h')

include hk in
theorem last_append_caller (c : ContextOf HeapObject) (e : ContextElemOf HeapObject) :
    (c.append e k').last k = (c.last k).append e k := by
  rw [ContextOf.last_append, ContextOf.append_last, Nat.min_eq_left hk,
    Nat.min_eq_left (Nat.le_succ k)]

def callString : Coarsening (.callString k' h') (.callString k h) where
  method c := c.last k
  heap c := c.last (min k h)
  method_empty := ContextOf.last_empty k
  heap_heapContext c := by
    rw [heapContext, heapContext, ContextOf.last_last, ContextOf.last_last,
      Nat.min_eq_left (Nat.le_trans (Nat.min_le_right k h) hh), Nat.min_comm k h]
  method_calleeContext_none c i := last_append_caller hk c (.callSite i)
  method_calleeContext_some c i _ _ := last_append_caller hk c (.callSite i)

include hh in
theorem last_last_heap (c : ContextOf HeapObject) :
    (c.last h').last (min h k) = (c.last (min k (h + 1))).last h := by
  have hmin : min (min h k) h' = min h (min k (h + 1)) := by omega
  rw [ContextOf.last_last, ContextOf.last_last, hmin]

include hk in
/-- The context of a callee is that of the receiver with one more element. -/
theorem last_append_receiver (d : ContextOf HeapObject) (e : ContextElemOf HeapObject) :
    (d.append e k').last (min k (h + 1)) = (d.last (min h k)).append e k := by
  have hleft : min (min k (h + 1)) k' = min k (h + 1) := by omega
  have hright : min k (min h k + 1) = min k (h + 1) := by omega
  rw [ContextOf.last_append, ContextOf.append_last, hleft, hright]

def object : Coarsening (.object k' h') (.object k h) where
  method c := c.last (min k (h + 1))
  heap c := c.last (min h k)
  method_empty := ContextOf.last_empty _
  heap_heapContext := last_last_heap hh
  method_calleeContext_none _ _ := rfl
  method_calleeContext_some _ _ d o := last_append_receiver hk d (.object o)

def type : Coarsening (.type k' h') (.type k h) where
  method c := c.last (min k (h + 1))
  heap c := c.last (min h k)
  method_empty := ContextOf.last_empty _
  heap_heapContext := last_last_heap hh
  method_calleeContext_none _ _ := rfl
  method_calleeContext_some _ _ d o := last_append_receiver hk d (.type (o.container.getD o.type))

/-- Shorter contexts are coarser. -/
def shorter (s : Sensitivity) :
    Coarsening (s.selectorWithHeap k' h') (s.selectorWithHeap k h) :=
  match s with
  | .insensitive => toInsensitive .insensitive
  | .callSite => callString hk hh
  | .object => object hk hh
  | .type => type hk hh

end Shorter

end Selector.Coarsening

end PointsTo
