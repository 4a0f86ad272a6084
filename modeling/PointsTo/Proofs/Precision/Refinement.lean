import PointsTo.Proofs.Precision.Abstraction
import PointsTo.Proofs.Precision.Coarsening

/-! Precision. A coarser selector is an abstraction that leaves objects as they are, so the least facts of
the finer analysis go over to facts of the coarser one. Contexts apart they are the same facts: longer
contexts never lose precision. -/

namespace PointsTo

def Selector.Coarsening.abstraction {s t : Selector} (κ : s.Coarsening t) (p : Program)
    (heap : HeapModel) : Abstraction p s t heap heap where
  object o := o
  method := κ.method
  heap := κ.heap
  type_object _ := rfl
  object_object _ := rfl
  method_empty := κ.method_empty
  heap_heapContext := κ.heap_heapContext
  method_calleeContext_none := κ.method_calleeContext_none
  method_calleeContext_some := κ.method_calleeContext_some

/-- Answers that say the same of the same objects. -/
theorem Answers.MapsInto.within {A B : Answers} (h : A.MapsInto (fun o => o) B) : A.Within B :=
  ⟨h.pointsTo, h.statics, h.fields, h.elements, h.calls, h.reachable, h.entries⟩

namespace Analysis

variable {p : Program} {heap : HeapModel} {s t : Selector} {F G : Facts}

/-- What the finer analysis answers, the coarser one does. -/
theorem answers_within (κ : s.Coarsening t) (hF : (⟨p, t, heap⟩ : Analysis).Closed F)
    (hG : IsLeast {G | (⟨p, s, heap⟩ : Analysis).Closed G} G) :
    ((⟨p, s, heap⟩ : Analysis).answers G).Within ((⟨p, t, heap⟩ : Analysis).answers F) :=
  ((κ.abstraction p heap).sends_of_isLeast hG hF).answers.within

/-- The result of a finished run, in whatever order it has worked. -/
def Finishes (a : Analysis) (r : Result) : Prop := ∃ order limit, a.result order limit = .ok r

theorem Finishes.answers_eq {a : Analysis} {r : Result} (hp : a.program.Indexed)
    (h : a.Finishes r) : ∃ F, IsLeast {F | a.Closed F} F ∧ r.answers = a.answers F := by
  obtain ⟨order, limit, hr⟩ := h
  exact answers_of_result hp hr

theorem Finishes.isLeast {a : Analysis} {r : Result} (hp : a.program.Indexed) (h : a.Finishes r) :
    IsLeast {F | a.Closed F} r.state.facts := by
  obtain ⟨order, limit, hr⟩ := h
  exact isLeast_facts hp (result_eq_ok hr).1

theorem Finishes.answers_eq_facts {a : Analysis} {r : Result} (hp : a.program.Indexed)
    (h : a.Finishes r) : r.answers = a.answers r.state.facts := by
  obtain ⟨F, hF, hanswers⟩ := h.answers_eq hp
  rw [hanswers, hF.unique (h.isLeast hp)]

theorem Finishes.within (hp : p.Indexed) (κ : s.Coarsening t) {r r' : Result}
    (h : (⟨p, s, heap⟩ : Analysis).Finishes r) (h' : (⟨p, t, heap⟩ : Analysis).Finishes r') :
    r.answers.Within r'.answers := by
  obtain ⟨F, hF, hr⟩ := h.answers_eq hp
  obtain ⟨F', hF', hr'⟩ := h'.answers_eq hp
  rw [hr, hr']
  exact answers_within κ hF'.1 hF

/-- Longer contexts answer no more than shorter ones of the same sort, no method contexts at all answer
what the insensitive analysis does, and no selector answers more than that. -/
theorem finishes_refines (hp : p.Accepted) (heap : HeapModel) (s : Sensitivity) :
    (∀ k k' h h' r r', k ≤ k' → h ≤ h' →
      (⟨p, s.selectorWithHeap k h, heap⟩ : Analysis).Finishes r →
      (⟨p, s.selectorWithHeap k' h', heap⟩ : Analysis).Finishes r' →
      r'.answers.Within r.answers) ∧
    (∀ h r r', (⟨p, s.selectorWithHeap 0 h, heap⟩ : Analysis).Finishes r →
      (⟨p, .insensitive, heap⟩ : Analysis).Finishes r' → r.answers = r'.answers) ∧
    ∀ k h r r', (⟨p, s.selectorWithHeap k h, heap⟩ : Analysis).Finishes r →
      (⟨p, .insensitive, heap⟩ : Analysis).Finishes r' → r.answers.Within r'.answers := by
  refine ⟨?_, ?_, ?_⟩
  · intro k k' h h' r r' hk hh hr hr'
    exact hr'.within hp.indexed (.shorter hk hh s) hr
  · intro h r r' hr hr'
    apply Answers.Within.antisymm
    · exact hr.within hp.indexed (.toInsensitive _) hr'
    · exact hr'.within hp.indexed (.ofInsensitive s h) hr
  · intro k h r r' hr hr'
    exact hr.within hp.indexed (.toInsensitive _) hr'

/-- The small program under the receivers of its methods, without contexts and with them. -/
theorem finishes_refines_identity :
    ∃ r r', (⟨.identity, .object 0 0, .type⟩ : Analysis).Finishes r ∧
      (⟨.identity, .object 2 1, .type⟩ : Analysis).Finishes r' ∧ r'.answers.Within r.answers := by
  obtain ⟨r, hr⟩ := exists_eq_ok
    (e := (⟨.identity, .object 0 0, .type⟩ : Analysis).result .fifo none) (by decide +kernel)
  obtain ⟨r', hr'⟩ := exists_eq_ok
    (e := (⟨.identity, .object 2 1, .type⟩ : Analysis).result .lifo none) (by decide +kernel)
  have hshort : (⟨.identity, .object 0 0, .type⟩ : Analysis).Finishes r := ⟨_, _, hr⟩
  have hlong : (⟨.identity, .object 2 1, .type⟩ : Analysis).Finishes r' := ⟨_, _, hr'⟩
  have hrefines := (finishes_refines Program.accepted_identity .type .object).1
  exact ⟨r, r', hshort, hlong, hrefines 0 2 0 1 r r' (by decide) (by decide) hshort hlong⟩

end Analysis

end PointsTo
