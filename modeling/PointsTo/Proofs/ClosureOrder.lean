import Mathlib.Order.Lattice.Nat
import PointsTo.Proofs.Closure

/-! The order of a breadth-first closure. What is nearer to the start is found first: the values found so
far come by their depth, and those of the queue are no deeper than one step below its first. -/

namespace PointsTo

namespace Closure

variable {α : Type} {next : α → List α} {start a b : α} {done queue found : List α} {n : Nat}

/-! ### Depth -/

/-- The value is reached from the start in so many steps. -/
inductive Steps (next : α → List α) (start : α) : Nat → α → Prop where
  | zero : Steps next start 0 start
  | succ {n : Nat} {a b : α} (ha : Steps next start n a) (hb : b ∈ next a) : Steps next start (n + 1) b

theorem Reaches.exists_steps (h : Reaches next start a) : ∃ n, Steps next start n a := by
  induction h with
  | refl => exact ⟨0, .zero⟩
  | tail _ hstep ih =>
    obtain ⟨n, hn⟩ := ih
    exact ⟨n + 1, hn.succ hstep⟩

theorem Steps.reaches (h : Steps next start n a) : Reaches next start a := by
  induction h with
  | zero => exact .refl
  | succ _ hstep ih => exact ih.tail hstep

/-- The fewest steps in which a value is reached. -/
noncomputable def depth (next : α → List α) (start a : α) : Nat := sInf {n | Steps next start n a}

theorem depth_le (h : Steps next start n a) : depth next start a ≤ n := Nat.sInf_le h

theorem steps_depth (h : Reaches next start a) : Steps next start (depth next start a) a :=
  Nat.sInf_mem h.exists_steps

theorem depth_start : depth next start start = 0 := Nat.le_zero.1 (depth_le .zero)

theorem depth_le_succ (ha : Reaches next start a) (hb : b ∈ next a) :
    depth next start b ≤ depth next start a + 1 := depth_le ((steps_depth ha).succ hb)

/-- Below the start a value is reached from one that is nearer by a step. -/
theorem exists_depth_succ (hb : Reaches next start b) (hne : b ≠ start) :
    ∃ a, Reaches next start a ∧ b ∈ next a ∧ depth next start b = depth next start a + 1 := by
  have hsteps := steps_depth hb
  generalize hn : depth next start b = n at hsteps
  cases hsteps with
  | zero => exact absurd rfl hne
  | @succ n a _ ha hstep =>
    have hle := depth_le_succ ha.reaches hstep
    have hge := depth_le ha
    exact ⟨a, ha.reaches, hstep, by omega⟩

/-! ### The search -/

/-- How far a search has come, with the values in order. -/
structure Layered (next : α → List α) (start : α) (done queue : List α) : Prop where
  progress : Progress next start done queue
  sorted : (done ++ queue).Pairwise fun a b => depth next start a ≤ depth next start b
  spread : ∀ a ∈ queue.head?, ∀ b ∈ done ++ queue, depth next start b ≤ depth next start a + 1

namespace Layered

theorem init (next : α → List α) (start : α) : Layered next start [] [start] where
  progress := .init next start
  sorted := List.pairwise_singleton _ start
  spread a ha b hb := by
    rw [List.mem_singleton.1 hb, depth_start]
    exact Nat.zero_le _

/-- What is nearer than the first of the queue has been expanded. -/
theorem mem_done (h : Layered next start done (a :: queue)) (hb : Reaches next start b)
    (hlt : depth next start b < depth next start a) : b ∈ done := by
  -- nothing in the queue is nearer than its first
  have hqueue : ∀ c ∈ a :: queue, depth next start a ≤ depth next start c := by
    intro c hc
    have hsorted := (List.pairwise_append.1 h.sorted).2.1
    rcases List.mem_cons.1 hc with rfl | hc
    · exact Nat.le_refl _
    · exact (List.pairwise_cons.1 hsorted).1 c hc
  have hfound : ∀ c ∈ done ++ a :: queue, depth next start c < depth next start a → c ∈ done := by
    intro c hc hc'
    refine (List.mem_append.1 hc).resolve_right fun hmem => ?_
    exact Nat.not_lt.2 (hqueue c hmem) hc'
  generalize hn : depth next start b = n at hlt
  induction n generalizing b with
  | zero =>
    obtain rfl : b = start := by
      have hsteps := steps_depth hb
      rw [hn] at hsteps
      cases hsteps
      rfl
    exact hfound b h.progress.begins (hn ▸ hlt)
  | succ n ih =>
    have hne : b ≠ start := by
      rintro rfl
      rw [depth_start] at hn
      omega
    obtain ⟨c, hc, hstep, hdepth⟩ := exists_depth_succ hb hne
    have hdone := ih hc (by omega) (by omega)
    exact hfound b (h.progress.expanded c hdone b hstep) (by omega)

variable [DecidableEq α]

/-- What is new when the first of the queue is expanded is one step below it. -/
theorem depth_fresh (h : Layered next start done (a :: queue))
    (hb : b ∈ fresh (done ++ a :: queue) (next a)) :
    depth next start b = depth next start a + 1 := by
  obtain ⟨hstep, hnew⟩ := mem_fresh.1 hb
  have ha := h.progress.reached a (List.mem_append_right _ List.mem_cons_self)
  have hne : b ≠ start := by
    rintro rfl
    exact hnew h.progress.begins
  obtain ⟨c, hc, hfrom, hdepth⟩ := exists_depth_succ (ha.tail hstep) hne
  have hle := depth_le_succ ha hstep
  -- otherwise it comes from a value that has been expanded, and is not new
  have hge : ¬ depth next start c < depth next start a := fun hlt =>
    hnew (h.progress.expanded c (h.mem_done hc hlt) b hfrom)
  omega

theorem step (h : Layered next start done (a :: queue)) :
    Layered next start (done ++ [a]) (queue ++ fresh (done ++ a :: queue) (next a)) := by
  have hfound : done ++ [a] ++ (queue ++ fresh (done ++ a :: queue) (next a)) =
      done ++ a :: queue ++ fresh (done ++ a :: queue) (next a) := by simp
  have hspread := h.spread a rfl
  refine ⟨h.progress.step, ?_, fun c hc b hb => ?_⟩
  · rw [hfound, List.pairwise_append]
    refine ⟨h.sorted, List.pairwise_of_forall_mem_list fun b hb c hc => ?_, fun b hb c hc => ?_⟩
    · rw [h.depth_fresh hb, h.depth_fresh hc]
    · rw [h.depth_fresh hc]
      exact hspread b hb
  · have hbelow : depth next start a ≤ depth next start c := by
      rcases List.mem_append.1 (List.mem_of_mem_head? hc) with hold | hnew
      · exact (List.pairwise_cons.1 (List.pairwise_append.1 h.sorted).2.1).1 c hold
      · rw [h.depth_fresh hnew]
        exact Nat.le_succ _
    rw [hfound] at hb
    rcases List.mem_append.1 hb with hold | hnew
    · have := hspread b hold
      omega
    · rw [h.depth_fresh hnew]
      omega

theorem of_searches (h : Layered next start done queue) (hsearch : Searches next done queue found) :
    Layered next start found [] := by
  induction hsearch with
  | ends done => exact h
  | expand _ ih => exact ih h.step

end Layered

variable [DecidableEq α]

/-- A search that ends has found the values by their depth. -/
theorem Searches.pairwise_depth (h : Searches next [] [start] found) :
    found.Pairwise fun a b => depth next start a ≤ depth next start b := by
  have hsorted := ((Layered.init next start).of_searches h).sorted
  rwa [List.append_nil] at hsorted

theorem Searches.prefix_found (h : Searches next done queue found) : done ++ queue <+: found := by
  induction h with
  | ends done => rw [List.append_nil]
  | expand _ ih =>
    refine List.IsPrefix.trans ?_ ih
    simp

theorem Searches.head?_eq (h : Searches next [] [start] found) : found.head? = some start := by
  obtain ⟨rest, rfl⟩ := h.prefix_found
  rfl

end Closure

end PointsTo
