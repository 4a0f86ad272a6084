import PointsTo.Id

/-! Contexts. A context is a sequence of call sites, objects or types, the most recent last. Both ways
of shortening a context keep its most recent elements. The objects in a context may be spoken of by
number, as a run does, or by what they are. -/

namespace PointsTo

inductive ContextElemOf (O : Type) where
  | callSite (call : CallId)
  | object (object : O)
  | type (cls : ClassId)
  deriving DecidableEq, Repr

abbrev ContextElem := ContextElemOf ObjectId

namespace ContextElemOf

variable {O P : Type}

/-- The element with its object, if it is one, spoken of in another way. -/
def map (f : O → P) : ContextElemOf O → ContextElemOf P
  | .callSite call => .callSite call
  | .object o => .object (f o)
  | .type cls => .type cls

end ContextElemOf

namespace ContextElem

def text : ContextElem → String
  | .callSite call => s!"cs{call.index}"
  | .object id => s!"o{id.index}"
  | .type cls => s!"t{cls.index}"

def code : ContextElem → List Nat
  | .callSite call => [0, call.index]
  | .object id => [1, id.index]
  | .type cls => [2, cls.index]

theorem code_injective {a b : ContextElem} (h : a.code = b.code) : a = b := by
  cases a <;> cases b <;> simp [code] at h <;> exact congrArg _ (Id.ext h)

theorem length_code (a : ContextElem) : a.code.length = 2 := by cases a <;> rfl

end ContextElem

structure ContextOf (O : Type) where
  elems : List (ContextElemOf O)
  deriving DecidableEq, Repr

abbrev Context := ContextOf ObjectId

namespace ContextOf

variable {O P : Type}

def empty : ContextOf O := ⟨[]⟩

instance : Inhabited (ContextOf O) := ⟨empty⟩

def isEmpty (c : ContextOf O) : Bool := c.elems.isEmpty

/-- The last `k` elements. -/
def last (c : ContextOf O) (k : Nat) : ContextOf O := ⟨c.elems.drop (c.elems.length - k)⟩

/-- Adds an element and keeps the last `limit` ones. -/
def append (c : ContextOf O) (e : ContextElemOf O) (limit : Nat) : ContextOf O :=
  last ⟨c.elems ++ [e]⟩ limit

/-- The context with its objects spoken of in another way. -/
def map (f : O → P) (c : ContextOf O) : ContextOf P := ⟨c.elems.map (·.map f)⟩

@[simp] theorem last_zero (c : ContextOf O) : c.last 0 = empty := by simp [last, empty]

@[simp] theorem append_zero (c : ContextOf O) (e : ContextElemOf O) : c.append e 0 = empty :=
  last_zero _

theorem length_last_le (c : ContextOf O) (k : Nat) : (c.last k).elems.length ≤ k := by
  simp only [last, List.length_drop]; omega

@[simp] theorem map_empty (f : O → P) : (empty : ContextOf O).map f = empty := rfl

theorem map_last (f : O → P) (c : ContextOf O) (k : Nat) : (c.last k).map f = (c.map f).last k := by
  simp [map, last, List.map_drop]

theorem map_append (f : O → P) (c : ContextOf O) (e : ContextElemOf O) (limit : Nat) :
    (c.append e limit).map f = (c.map f).append (e.map f) limit := by
  rw [append, map_last]
  simp [append, map]

def text (c : Context) : String := "[" ++ ", ".intercalate (c.elems.map ContextElem.text) ++ "]"

theorem mem_of_mem_last {c : ContextOf O} {k : Nat} {e : ContextElemOf O}
    (h : e ∈ (c.last k).elems) : e ∈ c.elems := List.mem_of_mem_drop h

theorem mem_of_mem_append {c : ContextOf O} {d e : ContextElemOf O} {limit : Nat}
    (h : e ∈ (c.append d limit).elems) : e ∈ c.elems ∨ e = d := by
  simpa using mem_of_mem_last h

end ContextOf

namespace Context

abbrev empty : Context := ContextOf.empty

abbrev text (c : Context) : String := ContextOf.text c

private theorem flatMap_code_injective :
    ∀ {as bs : List ContextElem}, as.flatMap ContextElem.code = bs.flatMap ContextElem.code → as = bs
  | [], [], _ => rfl
  | [], b :: bs, h => by
    have hlen := congrArg List.length h
    simp only [List.flatMap_nil, List.flatMap_cons, List.length_append, ContextElem.length_code,
      List.length_nil] at hlen
    omega
  | a :: as, [], h => by
    have hlen := congrArg List.length h
    simp only [List.flatMap_nil, List.flatMap_cons, List.length_append, ContextElem.length_code,
      List.length_nil] at hlen
    omega
  | a :: as, b :: bs, h => by
    simp only [List.flatMap_cons] at h
    obtain ⟨hhead, htail⟩ := List.append_inj h
      (by rw [ContextElem.length_code, ContextElem.length_code])
    rw [ContextElem.code_injective hhead, flatMap_code_injective htail]

instance contextCoded : Coded Context where
  code c := c.elems.flatMap ContextElem.code
  code_injective {a b} h := by
    cases a; cases b
    exact congrArg ContextOf.mk (flatMap_code_injective h)

end Context

end PointsTo
