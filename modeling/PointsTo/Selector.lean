import PointsTo.Context
import PointsTo.Heap

/-! Context sensitivity. A selector gives each callee its context and each object its heap context. A
call string lists the last call sites; under object and type sensitivity an instance method is told
apart by its receiver, and a static method runs in the context of its caller. -/

namespace PointsTo

/-- A receiver object with its heap context; `id` is what contexts speak of it by. -/
structure ReceiverOf (O : Type) where
  context : ContextOf O
  id : O
  object : HeapObject

abbrev Receiver := ReceiverOf ObjectId

def ReceiverOf.map {O P : Type} (f : O → P) (r : ReceiverOf O) : ReceiverOf P :=
  ⟨r.context.map f, f r.id, r.object⟩

inductive Selector where
  | insensitive
  | callString (k heap : Nat)
  | object (k heap : Nat)
  | type (k heap : Nat)
  deriving DecidableEq, Repr, Inhabited

namespace Selector

variable {O P : Type}

/-- The context of the objects that a method allocates when it runs under `method`. -/
def heapContext (s : Selector) (method : ContextOf O) : ContextOf O :=
  match s with
  | insensitive => .empty
  | callString _ heap | object _ heap | type _ heap => method.last heap

/-- The context of what `call` invokes from a method under `caller`. -/
def calleeContext (s : Selector) (caller : ContextOf O) (call : CallId)
    (receiver : Option (ReceiverOf O)) : ContextOf O :=
  match s with
  | insensitive => .empty
  | callString k _ => caller.append (.callSite call) k
  | object k _ =>
    match receiver with
    | none => caller
    | some r => r.context.append (.object r.id) k
  | type k _ =>
    match receiver with
    | none => caller
    | some r => r.context.append (.type (r.object.container.getD r.object.type)) k

theorem map_heapContext (f : O → P) (s : Selector) (method : ContextOf O) :
    (s.heapContext method).map f = s.heapContext (method.map f) := by
  cases s with
  | insensitive => rfl
  | callString k heap => exact ContextOf.map_last f method heap
  | object k heap => exact ContextOf.map_last f method heap
  | type k heap => exact ContextOf.map_last f method heap

/-- The selectors do not look into objects: it makes no difference how they are spoken of. -/
theorem map_calleeContext (f : O → P) (s : Selector) (caller : ContextOf O) (call : CallId)
    (receiver : Option (ReceiverOf O)) :
    (s.calleeContext caller call receiver).map f =
      s.calleeContext (caller.map f) call (receiver.map (·.map f)) := by
  cases s with
  | insensitive => rfl
  | callString k heap => exact ContextOf.map_append f caller (.callSite call) k
  | object k heap =>
    cases receiver with
    | none => rfl
    | some r => exact ContextOf.map_append f r.context (.object r.id) k
  | type k heap =>
    cases receiver with
    | none => rfl
    | some r => exact ContextOf.map_append f r.context (.type (r.object.container.getD r.object.type)) k

theorem mem_of_mem_heapContext {s : Selector} {method : ContextOf O} {e : ContextElemOf O}
    (h : e ∈ (s.heapContext method).elems) : e ∈ method.elems := by
  cases s with
  | insensitive => simp [heapContext, ContextOf.empty] at h
  | callString k heap => exact ContextOf.mem_of_mem_last h
  | object k heap => exact ContextOf.mem_of_mem_last h
  | type k heap => exact ContextOf.mem_of_mem_last h

/-- The objects in the context of a callee come from the caller or from the receiver. -/
theorem object_mem_calleeContext {s : Selector} {caller : ContextOf O} {call : CallId}
    {receiver : Option (ReceiverOf O)} {o : O}
    (h : .object o ∈ (s.calleeContext caller call receiver).elems) :
    .object o ∈ caller.elems ∨ ∃ r ∈ receiver, .object o ∈ r.context.elems ∨ o = r.id := by
  cases s with
  | insensitive => simp [calleeContext, ContextOf.empty] at h
  | callString k heap =>
    rcases ContextOf.mem_of_mem_append h with h | h
    · exact Or.inl h
    · cases h
  | object k heap =>
    cases receiver with
    | none => exact Or.inl h
    | some r =>
      rcases ContextOf.mem_of_mem_append h with h | h
      · exact Or.inr ⟨r, rfl, Or.inl h⟩
      · exact Or.inr ⟨r, rfl, Or.inr (by simpa using h)⟩
  | type k heap =>
    cases receiver with
    | none => exact Or.inl h
    | some r =>
      rcases ContextOf.mem_of_mem_append h with h | h
      · exact Or.inr ⟨r, rfl, Or.inl h⟩
      · cases h

/-- The selector with its lengths, as the log shows it. -/
def logText : Selector → String
  | insensitive => "ContextInsensitiveSelector"
  | callString k heap =>
    s!"CallStringSelector \x7b call_string_length: {k}, heap_length: {heap} \x7d"
  | object k heap => s!"ObjectSelector \x7b k: {k}, heap_length: {heap} \x7d"
  | type k heap => s!"TypeSelector \x7b k: {k}, heap_length: {heap} \x7d"

end Selector

inductive Sensitivity where
  | insensitive
  | callSite
  | object
  | type
  deriving DecidableEq, Repr, Inhabited

namespace Sensitivity

def text : Sensitivity → String
  | insensitive => "insensitive"
  | callSite => "call-site"
  | object => "object"
  | type => "type"

def selectorWithHeap (s : Sensitivity) (k heap : Nat) : Selector :=
  match s with
  | insensitive => .insensitive
  | callSite => .callString k heap
  | object => .object k heap
  | type => .type k heap

/-- Heap contexts are one element shorter than method contexts. -/
def selector (s : Sensitivity) (k : Nat) : Selector := s.selectorWithHeap k (k - 1)

end Sensitivity

end PointsTo
