import Mathlib.Data.List.Perm.Subperm
import Mathlib.Logic.Relation
import PointsTo.Closure

/-! Breadth-first closure. The values found are those already expanded, followed by the queue. Each is
found once and is reached from the start, and what is expanded leads to nothing that is not found. So a
search ends if there are finitely many values, with everything that is reached, and the bound on the
expansions does not cut it off. -/

namespace PointsTo

namespace Closure

variable {α : Type} {next : α → List α} {start : α} {done queue values : List α}

/-- `b` is reached from `a` in steps of `next`. -/
def Reaches (next : α → List α) : α → α → Prop := Relation.ReflTransGen fun a b => b ∈ next a

/-- How far a search has come. -/
structure Progress (next : α → List α) (start : α) (done queue : List α) : Prop where
  begins : start ∈ done ++ queue
  nodup : (done ++ queue).Nodup
  reached : ∀ a ∈ done ++ queue, Reaches next start a
  expanded : ∀ a ∈ done, ∀ b ∈ next a, b ∈ done ++ queue

namespace Progress

theorem init (next : α → List α) (start : α) : Progress next start [] [start] where
  begins := List.mem_singleton.2 rfl
  nodup := List.pairwise_singleton _ start
  reached a ha := by
    rw [List.mem_singleton.1 ha]
    exact .refl
  expanded a ha := absurd ha List.not_mem_nil

/-- With an empty queue everything that is reached is found. -/
theorem mem_iff (h : Progress next start done []) {a : α} : a ∈ done ↔ Reaches next start a := by
  constructor
  · intro ha
    exact h.reached a (List.mem_append_left _ ha)
  · intro ha
    induction ha with
    | refl => exact (List.mem_append.1 h.begins).resolve_right List.not_mem_nil
    | tail _ hstep ih =>
      exact (List.mem_append.1 (h.expanded _ ih _ hstep)).resolve_right List.not_mem_nil

end Progress

theorem mem_values_of_reaches (hstart : start ∈ values)
    (hnext : ∀ a ∈ values, ∀ b ∈ next a, b ∈ values) {a : α} (h : Reaches next start a) :
    a ∈ values := by
  induction h with
  | refl => exact hstart
  | tail _ hstep ih => exact hnext _ ih _ hstep

variable [DecidableEq α]

theorem nodup_eraseDups : ∀ l : List α, l.eraseDups.Nodup
  | [] => List.nodup_nil
  | a :: l => by
    rw [List.eraseDups_cons, List.nodup_cons, List.mem_eraseDups, List.mem_filter]
    refine ⟨fun h => ?_, nodup_eraseDups _⟩
    simp at h
termination_by l => l.length
decreasing_by exact Nat.lt_succ_of_le (List.length_filter_le _ l)

theorem mem_fresh {found successors : List α} {a : α} :
    a ∈ fresh found successors ↔ a ∈ successors ∧ a ∉ found := by
  simp [fresh]

/-- The first value of the queue is expanded. -/
theorem Progress.step {a : α} (h : Progress next start done (a :: queue)) :
    Progress next start (done ++ [a]) (queue ++ fresh (done ++ a :: queue) (next a)) := by
  have hfound : done ++ [a] ++ (queue ++ fresh (done ++ a :: queue) (next a)) =
      done ++ a :: queue ++ fresh (done ++ a :: queue) (next a) := by simp
  have ha : a ∈ done ++ a :: queue := List.mem_append_right _ List.mem_cons_self
  refine ⟨?_, ?_, ?_, ?_⟩
  · rw [hfound]
    exact List.mem_append_left _ h.begins
  · rw [hfound, List.nodup_append]
    refine ⟨h.nodup, nodup_eraseDups _, ?_⟩
    intro b hb d hd heq
    exact (mem_fresh.1 hd).2 (heq ▸ hb)
  · rw [hfound]
    intro b hb
    rcases List.mem_append.1 hb with hold | hnew
    · exact h.reached b hold
    · exact (h.reached a ha).tail (mem_fresh.1 hnew).1
  · rw [hfound]
    intro b hb d hd
    rcases List.mem_append.1 hb with hb | hb
    · exact List.mem_append_left _ (h.expanded b hb d hd)
    · obtain rfl := List.mem_singleton.1 hb
      by_cases hold : d ∈ done ++ b :: queue
      · exact List.mem_append_left _ hold
      · exact List.mem_append_right _ (mem_fresh.2 ⟨hd, hold⟩)

/-- The search without a bound on the expansions: it goes on until nothing is left in the queue, from the
values expanded so far to those found in the end. -/
inductive Searches (next : α → List α) : List α → List α → List α → Prop where
  | ends (done : List α) : Searches next done [] done
  | expand {done queue found : List α} {a : α}
      (h : Searches next (done ++ [a]) (queue ++ fresh (done ++ a :: queue) (next a)) found) :
      Searches next done (a :: queue) found

theorem Progress.of_searches {found : List α} (h : Progress next start done queue)
    (hsearch : Searches next done queue found) : Progress next start found [] := by
  induction hsearch with
  | ends done => exact h
  | expand _ ih => exact ih h.step

theorem Searches.nodup {found : List α} (h : Searches next [] [start] found) : found.Nodup := by
  have hnodup := ((Progress.init next start).of_searches h).nodup
  rwa [List.append_nil] at hnodup

/-- A search that ends has found exactly what is reached. -/
theorem Searches.mem_iff {found : List α} (h : Searches next [] [start] found) {a : α} :
    a ∈ found ↔ Reaches next start a :=
  ((Progress.init next start).of_searches h).mem_iff

section Values

variable (hstart : start ∈ values) (hnext : ∀ a ∈ values, ∀ b ∈ next a, b ∈ values)

include hstart hnext

/-- With as many expansions allowed as there are values, the search comes to its end. -/
theorem Progress.searches (fuel : Nat) (h : Progress next start done queue)
    (hfuel : values.length ≤ done.length + fuel) :
    Searches next done queue (Closure.expand next fuel queue (done ++ queue)) := by
  induction fuel generalizing done queue with
  | zero =>
    -- as many values as there are have been expanded, and what waits would come on top of them
    have hlength : (done ++ queue).length ≤ values.length := by
      apply (h.nodup.subperm _).length_le
      intro a ha
      exact mem_values_of_reaches hstart hnext (h.reached a ha)
    rw [List.length_append] at hlength
    obtain rfl : queue = [] := List.eq_nil_of_length_eq_zero (by omega)
    rw [Closure.expand, List.append_nil]
    exact .ends done
  | succ fuel ih =>
    cases queue with
    | nil =>
      rw [Closure.expand, List.append_nil]
      exact .ends done
    | cons a queue =>
      have hrest := ih h.step (by simp only [List.length_append, List.length_singleton]; omega)
      rw [Closure.expand]
      exact .expand (by simpa using hrest)

variable {bound : Nat} (hbound : values.length ≤ bound)

include hbound

theorem searches_closure : Searches next [] [start] (closure next bound start) :=
  (Progress.init next start).searches hstart hnext bound (by simpa using hbound)

theorem mem_closure_iff {a : α} : a ∈ closure next bound start ↔ Reaches next start a :=
  (searches_closure hstart hnext hbound).mem_iff

end Values

end Closure

end PointsTo
