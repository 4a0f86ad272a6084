import Mathlib.Data.List.Basic
import Mathlib.Data.List.Induction
import PointsTo.WorkList

/-! Histories of a work list. What was put into a work list and what it handed out are written down, and
what it owes is read off the record alone: the objects sent to a cell since the cell was last handed
out, the moment from which a cell has waited, the call edges not handed out yet. After any requests the
list holds what it owes, and hands it out in the order it owes it. -/

namespace PointsTo

/-- Which of two cells goes first, by the numbers of the requests that left them waiting. -/
def WorkOrder.Precedes : WorkOrder → Nat → Nat → Prop
  | fifo, m, n => m < n
  | lifo, m, n => n < m

namespace WorkList

inductive Request where
  | addObjects (cell : CellId) (objects : IdSet (.qualified .object))
  | addCall (edge : QCallEdge)
  | poll

/-- A request that has been served. -/
inductive Entry where
  | sent (cell : CellId) (objects : IdSet (.qualified .object))
  | requested (edge : QCallEdge)
  | polled (answer : Option WorkItem)

/-- A work list with the record of all that it served, the latest last. -/
structure Served where
  work : WorkList
  history : List Entry

def Served.serve (t : Served) : Request → Served
  | .addObjects c objects => ⟨t.work.addObjects c objects, t.history ++ [.sent c objects]⟩
  | .addCall e => ⟨t.work.addCall e, t.history ++ [.requested e]⟩
  | .poll =>
    match t.work.poll with
    | none => ⟨t.work, t.history ++ [.polled none]⟩
    | some (item, rest) => ⟨rest, t.history ++ [.polled (some item)]⟩

def Served.serveAll (t : Served) (requests : List Request) : Served := requests.foldl serve t

/-- A new work list that has served the requests. -/
def served (order : WorkOrder) (requests : List Request) : Served :=
  Served.serveAll ⟨.empty order, []⟩ requests

/-! ### What is owed -/

section Owed

variable (h : List Entry) (c : CellId)

/-- The object was sent to the cell, and the cell has not been handed out since. -/
def Awaits (o : QObjectId) : Prop :=
  ∃ before objects after, h = before ++ .sent c objects :: after ∧ o ∈ objects ∧
    ∀ handed, .polled (some (.objects c handed)) ∉ after

def Waits : Prop := ∃ o, Awaits h c o

/-- The cell did not wait before the request with this number, and has waited ever since. -/
def WaitsSince (n : Nat) : Prop :=
  n < h.length ∧ ¬Waits (h.take n) c ∧ ∀ m, n < m → m ≤ h.length → Waits (h.take m) c

/-- The call edges put in, in order. -/
def requestedCalls : List QCallEdge :=
  h.filterMap fun
    | .requested e => some e
    | _ => none

/-- The call edges handed out, in order. -/
def handedCalls : List QCallEdge :=
  h.filterMap fun
    | .polled (some (.call e)) => some e
    | _ => none

end Owed

section Concat

variable {h : List Entry} {e : Entry} {c d : CellId} {o : QObjectId} {m n : Nat}

theorem not_waits_nil : ¬Waits [] c := by
  rintro ⟨o, before, objects, after, heq, -⟩
  simp at heq

theorem awaits_concat : Awaits (h ++ [e]) c o ↔
    (∃ objects, e = .sent c objects ∧ o ∈ objects) ∨
      Awaits h c o ∧ ∀ handed, e ≠ .polled (some (.objects c handed)) := by
  constructor
  · rintro ⟨before, objects, after, heq, ho, hafter⟩
    rcases List.eq_nil_or_concat' after with rfl | ⟨after, last, rfl⟩
    · obtain ⟨-, hlast⟩ := List.append_inj' heq rfl
      exact Or.inl ⟨objects, List.singleton_inj.1 hlast, ho⟩
    · rw [← List.cons_append, ← List.append_assoc] at heq
      obtain ⟨hinit, hlast⟩ := List.append_inj' heq rfl
      obtain rfl := List.singleton_inj.1 hlast
      refine Or.inr ⟨⟨before, objects, after, hinit, ho, fun handed hmem => ?_⟩, fun handed heq => ?_⟩
      · exact hafter handed (List.mem_append_left _ hmem)
      · exact hafter handed (List.mem_append_right _ (List.mem_singleton.2 heq.symm))
  · rintro (⟨objects, rfl, ho⟩ | ⟨⟨before, objects, after, rfl, ho, hafter⟩, hlast⟩)
    · exact ⟨h, objects, [], rfl, ho, fun _ => List.not_mem_nil⟩
    · refine ⟨before, objects, after ++ [e], by simp, ho, fun handed hmem => ?_⟩
      rcases List.mem_append.1 hmem with hmem | hmem
      · exact hafter handed hmem
      · exact hlast handed (List.mem_singleton.1 hmem).symm

theorem waits_of_waitsSince (hn : WaitsSince h c n) : Waits h c := by
  obtain ⟨hlt, -, hsince⟩ := hn
  have := hsince h.length hlt (Nat.le_refl _)
  rwa [List.take_length] at this

theorem waitsSince_concat : WaitsSince (h ++ [e]) c n ↔
    Waits (h ++ [e]) c ∧ (WaitsSince h c n ∨ n = h.length ∧ ¬Waits h c) := by
  have htake : ∀ m, m ≤ h.length → (h ++ [e]).take m = h.take m :=
    fun m hm => List.take_append_of_le_length hm
  constructor
  · intro hn
    refine ⟨waits_of_waitsSince hn, ?_⟩
    obtain ⟨hlt, hnot, hsince⟩ := hn
    simp only [List.length_append, List.length_singleton] at hlt hsince
    rw [htake n (by omega)] at hnot
    rcases Nat.lt_succ_iff_lt_or_eq.1 hlt with hlt | rfl
    · refine Or.inl ⟨hlt, hnot, fun m hm hle => ?_⟩
      rw [← htake m hle]
      exact hsince m hm (by omega)
    · rw [List.take_length] at hnot
      exact Or.inr ⟨rfl, hnot⟩
  · rintro ⟨hwaits, hold⟩
    have hlast : ∀ m, h.length < m → m ≤ (h ++ [e]).length → Waits ((h ++ [e]).take m) c := by
      intro m hlt hle
      simp only [List.length_append, List.length_singleton] at hle
      rwa [List.take_of_length_le (by simp; omega)]
    rcases hold with ⟨hlt, hnot, hsince⟩ | ⟨rfl, hnot⟩
    · refine ⟨by simp; omega, by rwa [htake n (Nat.le_of_lt hlt)], fun m hm hle => ?_⟩
      by_cases hmem : m ≤ h.length
      · rw [htake m hmem]
        exact hsince m hm hmem
      · exact hlast m (by omega) hle
    · refine ⟨by simp, ?_, hlast⟩
      rwa [htake _ (Nat.le_refl _), List.take_length]

theorem exists_waitsSince (hc : Waits h c) : ∃ n, WaitsSince h c n := by
  induction h using List.reverseRecOn with
  | nil => exact absurd hc not_waits_nil
  | append_singleton h e ih =>
    by_cases hbefore : Waits h c
    · obtain ⟨n, hn⟩ := ih hbefore
      exact ⟨n, waitsSince_concat.2 ⟨hc, Or.inl hn⟩⟩
    · exact ⟨h.length, waitsSince_concat.2 ⟨hc, Or.inr ⟨rfl, hbefore⟩⟩⟩

/-- The first cell has waited for longer. -/
def Earlier (h : List Entry) (c d : CellId) : Prop :=
  ∀ m n, WaitsSince h c m → WaitsSince h d n → m < n

theorem Earlier.concat (hcd : Earlier h c d) (hc : Waits h c) (hd : Waits h d) :
    Earlier (h ++ [e]) c d := by
  intro m n hm hn
  rcases (waitsSince_concat.1 hm).2 with hm | ⟨-, hnot⟩
  · rcases (waitsSince_concat.1 hn).2 with hn | ⟨-, hnot⟩
    · exact hcd m n hm hn
    · exact absurd hd hnot
  · exact absurd hc hnot

/-- A cell that starts to wait has waited for less time than any that waits already. -/
theorem earlier_concat_of_not_waits (hc : Waits h c) (hd : ¬Waits h d) : Earlier (h ++ [e]) c d := by
  intro m n hm hn
  rcases (waitsSince_concat.1 hn).2 with hn | ⟨rfl, -⟩
  · exact absurd (waits_of_waitsSince hn) hd
  · rcases (waitsSince_concat.1 hm).2 with ⟨hlt, -⟩ | ⟨-, hnot⟩
    · exact hlt
    · exact absurd hc hnot

end Concat

/-! ### Serving -/

/-- What the list holds is what it owes by the record. -/
structure Served.Keeps (order : WorkOrder) (t : Served) : Prop where
  order : t.work.order = order
  coherent : t.work.Coherent
  pending : ∀ c o, o ∈ t.work.pendingFor c ↔ Awaits t.history c o
  calls : requestedCalls t.history = handedCalls t.history ++ t.work.calls.toList
  waiting : t.work.waiting.toList.Pairwise (Earlier t.history)

namespace Served

variable {order : WorkOrder} {t : Served} {c : CellId}

theorem Keeps.mem_waiting (h : t.Keeps order) : c ∈ t.work.waiting.toList ↔ Waits t.history c := by
  constructor
  · intro hc
    obtain ⟨o, ho⟩ := IdSet.exists_mem_iff.2 (h.coherent.nonempty c hc)
    exact ⟨o, (h.pending c o).1 ho⟩
  · rintro ⟨o, ho⟩
    refine Classical.byContradiction fun hc => ?_
    have hmem := (h.pending c o).2 ho
    rw [pendingFor_eq_empty h.coherent hc] at hmem
    exact IdSet.not_mem_empty hmem

/-- The order among cells that wait stays as it is, whatever is asked for next. -/
theorem Keeps.pairwise_concat (h : t.Keeps order) {cells : List CellId}
    (hcells : cells.Sublist t.work.waiting.toList) (e : Entry) :
    cells.Pairwise (Earlier (t.history ++ [e])) := by
  refine List.Pairwise.imp_of_mem (fun {c d} hc hd hcd => ?_) (h.waiting.sublist hcells)
  exact hcd.concat (h.mem_waiting.1 (hcells.subset hc)) (h.mem_waiting.1 (hcells.subset hd))

theorem keeps_empty (order : WorkOrder) : Keeps order ⟨.empty order, []⟩ where
  order := rfl
  coherent := .empty order
  pending c o := by
    simp only [pendingFor_empty, IdSet.not_mem_empty, false_iff]
    exact fun ho => not_waits_nil ⟨o, ho⟩
  calls := rfl
  waiting := List.Pairwise.nil

theorem Keeps.addObjects (h : t.Keeps order) (c : CellId) (objects : IdSet (.qualified .object)) :
    Keeps order ⟨t.work.addObjects c objects, t.history ++ [.sent c objects]⟩ where
  order := by
    rw [← h.order]
    show (t.work.addObjects c objects).order = _
    unfold WorkList.addObjects
    split <;> rfl
  coherent := h.coherent.addObjects c objects
  pending d o := by
    rw [mem_pendingFor_addObjects, awaits_concat, h.pending]
    constructor
    · rintro (ho | ⟨rfl, ho⟩)
      · exact Or.inr ⟨ho, fun _ heq => by cases heq⟩
      · exact Or.inl ⟨objects, rfl, ho⟩
    · rintro (⟨_, heq, ho⟩ | ⟨ho, -⟩)
      · obtain ⟨rfl, rfl⟩ := Entry.sent.inj heq
        exact Or.inr ⟨rfl, ho⟩
      · exact Or.inl ho
  calls := by simpa [requestedCalls, handedCalls] using h.calls
  waiting := by
    have hsame := h.pairwise_concat (List.Sublist.refl _) (.sent c objects)
    show (t.work.addObjects c objects).waiting.toList.Pairwise _
    rw [toList_waiting_addObjects]
    split
    · exact hsame
    · rename_i hnew
      have hnot : ¬Waits t.history c := by
        rw [← h.mem_waiting, h.coherent.mem_waiting]
        exact fun hc => hnew (Or.inr hc)
      refine List.pairwise_append.2 ⟨hsame, List.pairwise_singleton _ _, fun d hd e he => ?_⟩
      obtain rfl := List.mem_singleton.1 he
      exact earlier_concat_of_not_waits (h.mem_waiting.1 hd) hnot

theorem Keeps.addCall (h : t.Keeps order) (e : QCallEdge) :
    Keeps order ⟨t.work.addCall e, t.history ++ [.requested e]⟩ where
  order := h.order
  coherent := h.coherent.addCall e
  pending d o := by
    rw [pendingFor_addCall, h.pending, awaits_concat]
    simp
  calls := by
    have hcalls := h.calls
    simp only [requestedCalls, handedCalls] at hcalls
    simp [requestedCalls, handedCalls, WorkList.addCall, hcalls]
  waiting := h.pairwise_concat (List.Sublist.refl _) _

theorem Keeps.handOut (h : t.Keeps order) {item : WorkItem} {rest : WorkList}
    (hpoll : t.work.poll = some (item, rest)) :
    Keeps order ⟨rest, t.history ++ [.polled (some item)]⟩ := by
  have hpolled := polled_of_poll hpoll
  have hcoherent := h.coherent.poll hpolled
  cases hpolled with
  | @call e calls hcalls =>
    refine ⟨h.order, hcoherent, fun d o => ?_, ?_, h.pairwise_concat (List.Sublist.refl _) _⟩
    · rw [awaits_concat, ← h.pending]
      simp [pendingFor]
    · have hold := h.calls
      simp only [requestedCalls, handedCalls] at hold
      simp [requestedCalls, handedCalls, hold, hcalls]
  | @objects c waiting hcalls hwaiting =>
    refine ⟨h.order, hcoherent, fun d o => ?_, ?_, h.pairwise_concat ?_ _⟩
    · rw [mem_pendingFor_erase, awaits_concat, ← h.pending]
      simp [eq_comm]
    · simpa [requestedCalls, handedCalls] using h.calls
    · rcases toList_of_popCell? (popCell?_of_poll hpoll) with ⟨-, heq⟩ | ⟨-, heq⟩
      · rw [heq]
        exact List.sublist_cons_self _ _
      · rw [heq]
        exact List.sublist_append_left _ _

theorem Keeps.serve (h : t.Keeps order) (r : Request) : (t.serve r).Keeps order := by
  cases r with
  | addObjects c objects => exact h.addObjects c objects
  | addCall e => exact h.addCall e
  | poll =>
    rw [Served.serve]
    split
    · refine ⟨h.order, h.coherent, fun d o => ?_, ?_, h.pairwise_concat (List.Sublist.refl _) _⟩
      · rw [awaits_concat, h.pending]
        simp
      · simpa [requestedCalls, handedCalls] using h.calls
    · rename_i hpoll
      exact h.handOut hpoll

theorem Keeps.serveAll (h : t.Keeps order) (requests : List Request) :
    (t.serveAll requests).Keeps order := by
  induction requests generalizing t with
  | nil => exact h
  | cons r requests ih => exact ih (h.serve r)

theorem keeps_served (order : WorkOrder) (requests : List Request) :
    (served order requests).Keeps order :=
  (keeps_empty order).serveAll requests

/-! ### Handing out -/

theorem Keeps.mem_iff_of_poll (h : t.Keeps order) {objects : IdSet (.qualified .object)}
    {rest : WorkList} (hpoll : t.work.poll = some (.objects c objects, rest)) :
    objects ≠ ∅ ∧ ∀ o, o ∈ objects ↔ Awaits t.history c o := by
  obtain ⟨rfl, hc, -⟩ := (polled_of_poll hpoll).of_objects
  exact ⟨h.coherent.nonempty c hc, h.pending c⟩

theorem Keeps.calls_of_poll (h : t.Keeps order) {e : QCallEdge} {rest : WorkList}
    (hpoll : t.work.poll = some (.call e, rest)) :
    requestedCalls t.history = handedCalls t.history ++ e :: rest.calls.toList := by
  rw [h.calls, (polled_of_poll hpoll).of_call.1]

theorem Keeps.calls_of_poll_objects (h : t.Keeps order) {objects : IdSet (.qualified .object)}
    {rest : WorkList} (hpoll : t.work.poll = some (.objects c objects, rest)) :
    handedCalls t.history = requestedCalls t.history := by
  cases polled_of_poll hpoll with
  | objects hcalls => rw [h.calls, hcalls, List.append_nil]

/-- The cell that is handed out has waited for longest, or for the least time. -/
theorem Keeps.precedes_of_poll (h : t.Keeps order) {objects : IdSet (.qualified .object)}
    {rest : WorkList} (hpoll : t.work.poll = some (.objects c objects, rest)) :
    ∃ m, WaitsSince t.history c m ∧
      ∀ d n, d ≠ c → WaitsSince t.history d n → order.Precedes m n := by
  have hc := h.mem_waiting.1 (polled_of_poll hpoll).of_objects.2.1
  obtain ⟨m, hm⟩ := exists_waitsSince hc
  refine ⟨m, hm, fun d n hne hn => ?_⟩
  have hd := h.mem_waiting.2 (waits_of_waitsSince hn)
  have hwaiting := h.waiting
  rcases toList_of_popCell? (popCell?_of_poll hpoll) with ⟨horder, heq⟩ | ⟨horder, heq⟩
  · rw [heq] at hd hwaiting
    rw [← h.order, horder]
    have hrest := (List.mem_cons.1 hd).resolve_left hne
    exact (List.pairwise_cons.1 hwaiting).1 d hrest m n hm hn
  · rw [heq] at hd hwaiting
    rw [← h.order, horder]
    have hrest := (List.mem_append.1 hd).resolve_right fun hd => hne (List.mem_singleton.1 hd)
    exact (List.pairwise_append.1 hwaiting).2.2 d hrest c List.mem_cons_self n m hn hm

theorem Keeps.settled_of_poll (h : t.Keeps order) (hpoll : t.work.poll = none) :
    handedCalls t.history = requestedCalls t.history ∧ ∀ c, ¬Waits t.history c := by
  have hempty := poll_eq_none_iff.1 hpoll
  rw [isEmpty, Bool.and_eq_true, Queue.isEmpty_iff, Queue.isEmpty_iff] at hempty
  refine ⟨by rw [h.calls, hempty.2, List.append_nil], fun c hc => ?_⟩
  have := h.mem_waiting.2 hc
  rw [hempty.1] at this
  exact absurd this List.not_mem_nil

theorem size_serve_poll (t : Served) : (t.serve .poll).work.size = t.work.size - 1 := by
  rw [serve]
  split
  · rename_i hpoll
    rw [size_eq_zero_iff.2 (poll_eq_none_iff.1 hpoll)]
  · rename_i hpoll
    rw [(polled_of_poll hpoll).size_eq, Nat.add_sub_cancel]

/-- So many polls hand something out as the list is long, if nothing is put in meanwhile. -/
theorem poll_serveAll_polls (t : Served) (n : Nat) :
    (t.serveAll (List.replicate n .poll)).work.poll = none ↔ t.work.size ≤ n := by
  induction n generalizing t with
  | zero =>
    rw [List.replicate_zero, Nat.le_zero, size_eq_zero_iff]
    exact poll_eq_none_iff
  | succ n ih =>
    have hnext := ih (t.serve .poll)
    rw [size_serve_poll, Nat.sub_le_iff_le_add] at hnext
    exact hnext

/-- What a work list does next is what it owes by the record. Every poll on record was next once, after
the requests before it. -/
structure Faithful (order : WorkOrder) (t : Served) : Prop where
  coherent : t.work.Coherent
  popped : ∀ c waiting, t.work.popCell? = some (c, waiting) → t.work.pending.contains c = true
  waiting : ∀ c, c ∈ t.work.waiting.toList ↔ Waits t.history c
  objects : ∀ c objects rest, t.work.poll = some (.objects c objects, rest) →
    objects ≠ ∅ ∧ ∀ o, o ∈ objects ↔ Awaits t.history c o
  turn : ∀ c objects rest, t.work.poll = some (.objects c objects, rest) →
    ∃ m, WaitsSince t.history c m ∧ ∀ d n, d ≠ c → WaitsSince t.history d n → order.Precedes m n
  calls : requestedCalls t.history = handedCalls t.history ++ t.work.calls.toList
  call : ∀ e rest, t.work.poll = some (.call e, rest) →
    requestedCalls t.history = handedCalls t.history ++ e :: rest.calls.toList
  callsFirst : ∀ c objects rest, t.work.poll = some (.objects c objects, rest) →
    handedCalls t.history = requestedCalls t.history
  isEmpty : t.work.isEmpty = true ↔ t.work.poll = none
  settled : t.work.poll = none →
    handedCalls t.history = requestedCalls t.history ∧ ∀ c, ¬Waits t.history c
  size : ∀ n, (t.serveAll (List.replicate n .poll)).work.poll = none ↔ t.work.size ≤ n

end Served

/-- A work list loses nothing and hands nothing out twice. -/
theorem served_faithful (order : WorkOrder) (requests : List Request) :
    (served order requests).Faithful order :=
  have h := Served.keeps_served order requests
  { coherent := h.coherent
    popped := fun _ _ hpop => h.coherent.contains_of_popCell? hpop
    waiting := fun _ => h.mem_waiting
    objects := fun _ _ _ hpoll => h.mem_iff_of_poll hpoll
    turn := fun _ _ _ hpoll => h.precedes_of_poll hpoll
    calls := h.calls
    call := fun _ _ hpoll => h.calls_of_poll hpoll
    callsFirst := fun _ _ _ hpoll => h.calls_of_poll_objects hpoll
    isEmpty := poll_eq_none_iff.symm
    settled := fun hpoll => h.settled_of_poll hpoll
    size := Served.poll_serveAll_polls _ }

end WorkList

end PointsTo
