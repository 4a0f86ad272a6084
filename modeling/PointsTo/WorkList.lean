import PointsTo.CallGraph
import PointsTo.IdSet
import PointsTo.Queue

/-! The work list of the solver. Call edges wait in order of arrival and go before everything else.
Objects wait at the cell they are to enter; what arrives for a cell that already waits joins it, and
cells leave in order of arrival or in reverse. -/

namespace PointsTo

inductive WorkOrder where
  | fifo
  | lifo
  deriving DecidableEq, Repr, Inhabited

def WorkOrder.text : WorkOrder → String
  | fifo => "fifo"
  | lifo => "lifo"

/-- A call edge between a call site and a method under their contexts. -/
abbrev QCallEdge := CallEdge QCallId QMethodId

inductive WorkItem where
  | objects (cell : CellId) (objects : IdSet (.qualified .object))
  | call (edge : QCallEdge)
  deriving DecidableEq

structure WorkList where
  order : WorkOrder
  waiting : Queue CellId
  pending : Std.TreeMap CellId (IdSet (.qualified .object))
  calls : Queue QCallEdge
  deriving Inhabited

namespace WorkList

def empty (order : WorkOrder) : WorkList := ⟨order, .empty, ∅, .empty⟩

variable (w : WorkList)

/-- What waits to enter a cell. -/
def pendingFor (cell : CellId) : IdSet (.qualified .object) := w.pending.getD cell ∅

def addObjects (cell : CellId) (objects : IdSet (.qualified .object)) : WorkList :=
  if objects.isEmpty then w
  else
    let waiting := if w.pending.contains cell then w.waiting else w.waiting.push cell
    { w with waiting, pending := w.pending.insert cell (w.pendingFor cell ∪ objects) }

def addCall (edge : QCallEdge) : WorkList := { w with calls := w.calls.push edge }

def popCell? : Option (CellId × Queue CellId) :=
  match w.order with
  | .fifo => w.waiting.popFront?
  | .lifo => w.waiting.popBack?

def poll : Option (WorkItem × WorkList) :=
  match w.calls.popFront? with
  | some (edge, calls) => some (.call edge, { w with calls })
  | none =>
    match w.popCell? with
    | some (cell, waiting) =>
      some (.objects cell (w.pendingFor cell), { w with waiting, pending := w.pending.erase cell })
    | none => none

def isEmpty : Bool := w.waiting.isEmpty && w.calls.isEmpty

def size : Nat := w.waiting.size + w.calls.size

variable {w}

@[simp] theorem pendingFor_empty {order : WorkOrder} {c : CellId} :
    (empty order).pendingFor c = ∅ := Std.TreeMap.getD_emptyc

@[simp] theorem mem_pendingFor_addObjects {c d : CellId} {objects : IdSet (.qualified .object)}
    {o : QObjectId} :
    o ∈ (w.addObjects c objects).pendingFor d ↔ o ∈ w.pendingFor d ∨ d = c ∧ o ∈ objects := by
  unfold addObjects
  by_cases h : objects.isEmpty = true
  · rw [if_pos h, IdSet.isEmpty_iff.1 h]
    simp
  · rw [if_neg h]
    simp only [pendingFor, Std.TreeMap.getD_insert, Std.LawfulEqOrd.compare_eq_iff_eq]
    by_cases hc : c = d
    · subst hc
      simp
    · simp [hc, Ne.symm hc]

@[simp] theorem calls_addObjects {c : CellId} {objects : IdSet (.qualified .object)} :
    (w.addObjects c objects).calls = w.calls := by
  unfold addObjects
  split <;> rfl

@[simp] theorem pendingFor_addCall {edge : QCallEdge} {c : CellId} :
    (w.addCall edge).pendingFor c = w.pendingFor c := rfl

/-- The cells that wait are those with objects pending, each once, and something is pending for each. -/
structure Coherent (w : WorkList) : Prop where
  nodup : w.waiting.toList.Nodup
  mem_waiting : ∀ c, c ∈ w.waiting.toList ↔ w.pending.contains c = true
  nonempty : ∀ c ∈ w.waiting.toList, w.pendingFor c ≠ ∅

theorem Coherent.empty (order : WorkOrder) : (empty order).Coherent where
  nodup := List.nodup_nil
  mem_waiting c := by simp [WorkList.empty]
  nonempty c h := by simp [WorkList.empty] at h

theorem Coherent.addCall (h : w.Coherent) (edge : QCallEdge) : (w.addCall edge).Coherent :=
  ⟨h.nodup, h.mem_waiting, h.nonempty⟩

theorem pendingFor_eq_empty (h : w.Coherent) {c : CellId} (hc : c ∉ w.waiting.toList) :
    w.pendingFor c = ∅ := by
  have hnot : w.pending.contains c = false := by
    rw [← Bool.not_eq_true, ← h.mem_waiting]
    exact hc
  exact Std.TreeMap.getD_eq_fallback_of_contains_eq_false hnot

theorem Coherent.addObjects (h : w.Coherent) (c : CellId) (objects : IdSet (.qualified .object)) :
    (w.addObjects c objects).Coherent := by
  by_cases hempty : objects.isEmpty = true
  · rw [WorkList.addObjects, if_pos hempty]
    exact h
  · have hne : ∃ o, o ∈ objects := IdSet.exists_mem_iff.2 fun heq => hempty (IdSet.isEmpty_iff.2 heq)
    have hwaiting : ∀ d, d ∈ (w.addObjects c objects).waiting.toList ↔
        d ∈ w.waiting.toList ∨ d = c := by
      intro d
      rw [WorkList.addObjects, if_neg hempty]
      by_cases hc : w.pending.contains c = true
      · simp only [hc, if_true, iff_self_or]
        rintro rfl
        exact (h.mem_waiting _).2 hc
      · simp [hc]
    refine ⟨?_, fun d => ?_, fun d hd => ?_⟩
    · rw [WorkList.addObjects, if_neg hempty]
      by_cases hc : w.pending.contains c = true
      · simpa [hc] using h.nodup
      · have hnot : c ∉ w.waiting.toList := fun hmem => hc ((h.mem_waiting c).1 hmem)
        simp only [hc, Bool.false_eq_true, if_false, Queue.toList_push]
        rw [List.nodup_append]
        refine ⟨h.nodup, List.pairwise_singleton _ _, ?_⟩
        rintro a ha b hb rfl
        exact hnot (List.mem_singleton.1 hb ▸ ha)
    · rw [hwaiting, h.mem_waiting, WorkList.addObjects, if_neg hempty]
      show _ ↔ (w.pending.insert c _).contains d = true
      rw [Std.TreeMap.contains_insert, Bool.or_eq_true, beq_iff_eq,
        Std.LawfulEqOrd.compare_eq_iff_eq, or_comm, eq_comm]
    · intro hnone
      have hempty' : ∀ o, o ∉ (w.addObjects c objects).pendingFor d := by simp [hnone]
      simp only [mem_pendingFor_addObjects, not_or, not_and] at hempty'
      rcases (hwaiting d).1 hd with hd | rfl
      · exact h.nonempty d hd (IdSet.ext fun o => by simpa using (hempty' o).1)
      · obtain ⟨o, ho⟩ := hne
        exact (hempty' o).2 rfl ho

/-! Objects sent to several cells, one after the other. -/

section Foldl

variable {objects : IdSet (.qualified .object)}

theorem mem_pendingFor_foldl_addObjects {d : CellId} {o : QObjectId} (cells : List CellId)
    (w : WorkList) :
    o ∈ (cells.foldl (fun w c => w.addObjects c objects) w).pendingFor d ↔
      o ∈ w.pendingFor d ∨ d ∈ cells ∧ o ∈ objects := by
  induction cells generalizing w with
  | nil => simp
  | cons c cells ih =>
    rw [List.foldl_cons, ih, mem_pendingFor_addObjects, List.mem_cons, or_assoc, ← or_and_right]

theorem calls_foldl_addObjects (cells : List CellId) (w : WorkList) :
    (cells.foldl (fun w c => w.addObjects c objects) w).calls = w.calls := by
  induction cells generalizing w with
  | nil => rfl
  | cons c cells ih => rw [List.foldl_cons, ih, calls_addObjects]

theorem Coherent.foldl_addObjects (cells : List CellId) {w : WorkList} (h : w.Coherent) :
    (cells.foldl (fun w c => w.addObjects c objects) w).Coherent := by
  induction cells generalizing w with
  | nil => exact h
  | cons c cells ih => exact ih (h.addObjects c objects)

end Foldl

theorem toList_waiting_addObjects {c : CellId} {objects : IdSet (.qualified .object)} :
    (w.addObjects c objects).waiting.toList =
      if objects.isEmpty = true ∨ w.pending.contains c = true then w.waiting.toList
      else w.waiting.toList ++ [c] := by
  unfold addObjects
  by_cases hempty : objects.isEmpty = true
  · simp [hempty]
  · by_cases hc : w.pending.contains c = true <;> simp [hempty, hc]

/-- The end of the queue at which a cell leaves is a matter of the order. -/
theorem toList_of_popCell? {c : CellId} {waiting : Queue CellId}
    (h : w.popCell? = some (c, waiting)) :
    w.order = .fifo ∧ w.waiting.toList = c :: waiting.toList ∨
      w.order = .lifo ∧ w.waiting.toList = waiting.toList ++ [c] := by
  unfold popCell? at h
  split at h
  · rename_i horder
    exact Or.inl ⟨horder, Queue.toList_of_popFront? h⟩
  · rename_i horder
    exact Or.inr ⟨horder, Queue.toList_of_popBack? h⟩

theorem perm_of_popCell? {c : CellId} {waiting : Queue CellId} (h : w.popCell? = some (c, waiting)) :
    w.waiting.toList.Perm (c :: waiting.toList) := by
  rcases toList_of_popCell? h with ⟨-, heq⟩ | ⟨-, heq⟩
  · rw [heq]
  · rw [heq]
    exact List.perm_append_comm

/-- A cell that is taken off the queue has objects pending. -/
theorem Coherent.contains_of_popCell? (hw : w.Coherent) {c : CellId} {waiting : Queue CellId}
    (h : w.popCell? = some (c, waiting)) : w.pending.contains c = true :=
  (hw.mem_waiting c).1 ((perm_of_popCell? h).mem_iff.2 List.mem_cons_self)

theorem poll_eq_none_iff : w.poll = none ↔ w.isEmpty = true := by
  have hcells : w.popCell? = none ↔ w.waiting.toList = [] := by
    unfold popCell?
    split
    · exact Queue.popFront?_eq_none_iff
    · exact Queue.popBack?_eq_none_iff
  rw [isEmpty, Bool.and_eq_true, Queue.isEmpty_iff, Queue.isEmpty_iff, ← hcells,
    ← Queue.popFront?_eq_none_iff, poll]
  cases w.calls.popFront? with
  | some next => simp
  | none => cases w.popCell? <;> simp

theorem size_eq_zero_iff : w.size = 0 ↔ w.isEmpty = true := by
  rw [size, isEmpty, Bool.and_eq_true, Queue.isEmpty_iff, Queue.isEmpty_iff, Nat.add_eq_zero_iff,
    Queue.size_eq, Queue.size_eq, List.length_eq_zero_iff, List.length_eq_zero_iff]

/-- What is handed out: the first call edge, or else all that is pending for one of the cells that
wait. -/
inductive Polled (w : WorkList) : WorkItem → WorkList → Prop where
  | call {edge : QCallEdge} {calls : Queue QCallEdge} (hcalls : w.calls.toList = edge :: calls.toList) :
      Polled w (.call edge) { w with calls }
  | objects {c : CellId} {waiting : Queue CellId} (hcalls : w.calls.toList = [])
      (hwaiting : w.waiting.toList.Perm (c :: waiting.toList)) :
      Polled w (.objects c (w.pendingFor c)) { w with waiting, pending := w.pending.erase c }

theorem polled_of_poll {item : WorkItem} {rest : WorkList} (h : w.poll = some (item, rest)) :
    w.Polled item rest := by
  unfold poll at h
  split at h
  · rename_i edge calls heq
    simp only [Option.some.injEq, Prod.mk.injEq] at h
    obtain ⟨rfl, rfl⟩ := h
    exact .call (Queue.toList_of_popFront? heq)
  · rename_i hnone
    split at h
    · rename_i c waiting heq
      simp only [Option.some.injEq, Prod.mk.injEq] at h
      obtain ⟨rfl, rfl⟩ := h
      exact .objects (Queue.popFront?_eq_none_iff.1 hnone) (perm_of_popCell? heq)
    · cases h

theorem popCell?_of_poll {c : CellId} {objects : IdSet (.qualified .object)} {rest : WorkList}
    (h : w.poll = some (.objects c objects, rest)) : w.popCell? = some (c, rest.waiting) := by
  unfold poll at h
  split at h
  · cases h
  · split at h
    · rename_i heq
      simp only [Option.some.injEq, Prod.mk.injEq, WorkItem.objects.injEq] at h
      obtain ⟨⟨rfl, -⟩, rfl⟩ := h
      exact heq
    · cases h

theorem Polled.size_eq {item : WorkItem} {rest : WorkList} (h : w.Polled item rest) :
    w.size = rest.size + 1 := by
  cases h with
  | call hcalls =>
    have hlen := congrArg List.length hcalls
    simp only [List.length_cons] at hlen
    simp only [size, Queue.size_eq]
    omega
  | objects _ hwaiting =>
    have hlen := hwaiting.length_eq
    simp only [List.length_cons] at hlen
    simp only [size, Queue.size_eq]
    omega

theorem mem_pendingFor_erase {c d : CellId} {waiting : Queue CellId} {o : QObjectId} :
    o ∈ ({ w with waiting, pending := w.pending.erase c } : WorkList).pendingFor d ↔
      o ∈ w.pendingFor d ∧ d ≠ c := by
  simp only [pendingFor, Std.TreeMap.getD_erase, Std.LawfulEqOrd.compare_eq_iff_eq]
  by_cases h : c = d
  · simp [h]
  · simp [h, Ne.symm h]

theorem Polled.of_objects {c : CellId} {objects : IdSet (.qualified .object)} {rest : WorkList}
    (h : w.Polled (.objects c objects) rest) :
    objects = w.pendingFor c ∧ c ∈ w.waiting.toList ∧ rest.calls = w.calls ∧
      ∀ d o, o ∈ rest.pendingFor d ↔ o ∈ w.pendingFor d ∧ d ≠ c := by
  cases h with
  | objects _ hwaiting =>
    refine ⟨rfl, ?_, rfl, fun d o => mem_pendingFor_erase⟩
    exact hwaiting.mem_iff.2 List.mem_cons_self

theorem Polled.of_call {e : QCallEdge} {rest : WorkList} (h : w.Polled (.call e) rest) :
    w.calls.toList = e :: rest.calls.toList ∧ ∀ d, rest.pendingFor d = w.pendingFor d := by
  cases h with
  | call hcalls => exact ⟨hcalls, fun _ => rfl⟩

theorem Coherent.poll (h : w.Coherent) {item : WorkItem} {rest : WorkList}
    (hpoll : w.Polled item rest) : rest.Coherent := by
  cases hpoll with
  | call => exact ⟨h.nodup, h.mem_waiting, h.nonempty⟩
  | @objects c waiting _ hwaiting =>
    have hnodup := hwaiting.nodup_iff.1 h.nodup
    rw [List.nodup_cons] at hnodup
    have hmem : ∀ d, d ∈ waiting.toList ↔ d ∈ w.waiting.toList ∧ d ≠ c := by
      intro d
      rw [hwaiting.mem_iff, List.mem_cons]
      constructor
      · intro hd
        exact ⟨Or.inr hd, fun heq => hnodup.1 (heq ▸ hd)⟩
      · rintro ⟨rfl | hd, hne⟩
        · exact absurd rfl hne
        · exact hd
    refine ⟨hnodup.2, fun d => ?_, fun d hd => ?_⟩
    · rw [hmem, h.mem_waiting]
      show _ ↔ (w.pending.erase c).contains d = true
      rw [Std.TreeMap.contains_erase, Bool.and_eq_true, bne_iff_ne,
        ne_eq (compare c d), Std.LawfulEqOrd.compare_eq_iff_eq, and_comm, ne_comm]
    · obtain ⟨hd, hne⟩ := (hmem d).1 hd
      intro hnone
      refine h.nonempty d hd (IdSet.ext fun o => ?_)
      have ho : o ∉ ({ w with waiting, pending := w.pending.erase c } : WorkList).pendingFor d := by
        rw [hnone]
        exact IdSet.not_mem_empty
      rw [mem_pendingFor_erase] at ho
      simpa [hne] using ho

end WorkList

end PointsTo
