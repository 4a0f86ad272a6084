/-! Double-ended queues. Values enter at the back and leave at either end. -/

namespace PointsTo

/-- A queue from front to back: `front` in order, then `back` in reverse. -/
structure Queue (α : Type) where
  front : List α
  back : List α

namespace Queue

variable {α : Type}

def empty : Queue α := ⟨[], []⟩

instance : Inhabited (Queue α) := ⟨empty⟩

def toList (q : Queue α) : List α := q.front ++ q.back.reverse

def size (q : Queue α) : Nat := q.front.length + q.back.length

def isEmpty (q : Queue α) : Bool := q.front.isEmpty && q.back.isEmpty

def push (q : Queue α) (a : α) : Queue α := ⟨q.front, a :: q.back⟩

def popFront? (q : Queue α) : Option (α × Queue α) :=
  match q.front with
  | a :: rest => some (a, ⟨rest, q.back⟩)
  | [] =>
    match q.back.reverse with
    | a :: rest => some (a, ⟨rest, []⟩)
    | [] => none

def popBack? (q : Queue α) : Option (α × Queue α) :=
  match q.back with
  | a :: rest => some (a, ⟨q.front, rest⟩)
  | [] =>
    match q.front.reverse with
    | a :: rest => some (a, ⟨[], rest⟩)
    | [] => none

@[simp] theorem toList_empty : (empty : Queue α).toList = [] := rfl

@[simp] theorem toList_push (q : Queue α) (a : α) : (q.push a).toList = q.toList ++ [a] := by
  simp [push, toList]

theorem size_eq (q : Queue α) : q.size = q.toList.length := by simp [size, toList]

theorem isEmpty_iff {q : Queue α} : q.isEmpty = true ↔ q.toList = [] := by
  simp [isEmpty, toList]

theorem toList_of_popFront? {q r : Queue α} {a : α} (h : q.popFront? = some (a, r)) :
    q.toList = a :: r.toList := by
  obtain ⟨front, back⟩ := q
  cases front with
  | cons b rest => simp [popFront?] at h; obtain ⟨rfl, rfl⟩ := h; simp [toList]
  | nil =>
    cases hb : back.reverse with
    | nil => simp [popFront?, hb] at h
    | cons b rest =>
      simp [popFront?, hb] at h
      obtain ⟨rfl, rfl⟩ := h
      simp [toList, hb]

theorem toList_of_popBack? {q r : Queue α} {a : α} (h : q.popBack? = some (a, r)) :
    q.toList = r.toList ++ [a] := by
  obtain ⟨front, back⟩ := q
  cases back with
  | cons b rest => simp [popBack?] at h; obtain ⟨rfl, rfl⟩ := h; simp [toList]
  | nil =>
    cases hf : front.reverse with
    | nil => simp [popBack?, hf] at h
    | cons b rest =>
      simp [popBack?, hf] at h
      obtain ⟨rfl, rfl⟩ := h
      have hfront : front = rest.reverse ++ [b] := by
        rw [← List.reverse_reverse front, hf, List.reverse_cons]
      simp [toList, hfront]

theorem popFront?_eq_none_iff {q : Queue α} : q.popFront? = none ↔ q.toList = [] := by
  obtain ⟨front, back⟩ := q
  cases front with
  | cons b rest => simp [popFront?, toList]
  | nil =>
    cases hb : back.reverse with
    | nil => simp [popFront?, toList, hb]
    | cons b rest => simp [popFront?, toList, hb]

theorem popBack?_eq_none_iff {q : Queue α} : q.popBack? = none ↔ q.toList = [] := by
  obtain ⟨front, back⟩ := q
  cases back with
  | cons b rest => simp [popBack?, toList]
  | nil =>
    cases hf : front.reverse with
    | nil => simpa [popBack?, toList, hf] using List.reverse_eq_nil_iff.1 hf
    | cons b rest =>
      have hne : front ≠ [] := by rintro rfl; simp at hf
      simp [popBack?, toList, hf, hne]

end Queue

end PointsTo
