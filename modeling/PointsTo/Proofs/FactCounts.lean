import Mathlib.Data.Set.Card
import PointsTo.Proofs.PossibleFacts

/-! How many facts are possible. The counts depend on the numbers of things in the program and on the
length of contexts alone, not on the selector, the heap model or a run. -/

namespace PointsTo

/-- A finite set of at most `n` elements. -/
def AtMost {α : Type} (n : Nat) (S : Set α) : Prop := S.Finite ∧ S.ncard ≤ n

/-- How many lists of length at most `n` there are over `e` elements. -/
def listCount (e : Nat) : Nat → Nat
  | 0 => 1
  | n + 1 => 1 + e * listCount e n

namespace AtMost

variable {α β : Type} {m n : Nat} {S T : Set α}

theorem subset (h : AtMost n S) (hT : T ⊆ S) : AtMost n T :=
  ⟨h.1.subset hT, (Set.ncard_le_ncard hT h.1).trans h.2⟩

theorem image (h : AtMost n S) (f : α → β) : AtMost n (f '' S) :=
  ⟨h.1.image f, (Set.ncard_image_le h.1).trans h.2⟩

theorem prod {T : Set β} (h : AtMost m S) (h' : AtMost n T) : AtMost (m * n) (S ×ˢ T) := by
  refine ⟨h.1.prod h'.1, ?_⟩
  rw [Set.ncard_prod]
  exact Nat.mul_le_mul h.2 h'.2

theorem union (h : AtMost m S) (h' : AtMost n T) : AtMost (m + n) (S ∪ T) :=
  ⟨h.1.union h'.1, (Set.ncard_union_le S T).trans (Nat.add_le_add h.2 h'.2)⟩

theorem singleton (x : α) : AtMost 1 {x} :=
  ⟨Set.finite_singleton x, Nat.le_of_eq (Set.ncard_singleton x)⟩

theorem setOf_mem (l : List α) : AtMost l.length {x | x ∈ l} := by
  classical
  refine ⟨l.finite_toSet, ?_⟩
  rw [← List.coe_toFinset, Set.ncard_coe_finset]
  exact l.toFinset_card_le

/-- A list without repetition whose elements are told apart by something in the set. -/
theorem length_le {l : List β} (h : AtMost n S) (hl : l.Nodup) {f : β → α}
    (hf : ∀ x ∈ l, ∀ y ∈ l, f x = f y → x = y) (hmem : ∀ x ∈ l, f x ∈ S) : l.length ≤ n := by
  classical
  have hnodup : (l.map f).Nodup := hl.map_on hf
  have hsubset : {y | y ∈ l.map f} ⊆ S := by
    intro y hy
    obtain ⟨x, hx, rfl⟩ := List.mem_map.1 hy
    exact hmem x hx
  calc
    l.length = (l.map f).toFinset.card := by
      rw [List.toFinset_card_of_nodup hnodup, List.length_map]
    _ = {y | y ∈ l.map f}.ncard := by rw [← List.coe_toFinset, Set.ncard_coe_finset]
    _ ≤ S.ncard := Set.ncard_le_ncard hsubset h.1
    _ ≤ n := h.2

theorem setOf_lt (entity : Entity) (n : Nat) : AtMost n {c : Id entity | c.index < n} := by
  have hmem := setOf_mem (Id.upTo entity n)
  rw [Id.length_upTo] at hmem
  apply hmem.subset
  intro c hc
  exact Id.mem_upTo.2 hc

theorem lists (h : AtMost m S) (n : Nat) :
    AtMost (listCount m n) {l : List α | l.length ≤ n ∧ ∀ x ∈ l, x ∈ S} := by
  induction n with
  | zero =>
    apply (singleton []).subset
    intro l hl
    obtain ⟨hlength, -⟩ := hl
    exact List.length_eq_zero_iff.1 (Nat.le_zero.1 hlength)
  | succ n ih =>
    apply ((singleton []).union ((h.prod ih).image fun x => x.1 :: x.2)).subset
    intro l hlist
    obtain ⟨hlength, hl⟩ := hlist
    cases l with
    | nil => exact Or.inl rfl
    | cons x l =>
      refine Or.inr ⟨(x, l), ⟨hl x List.mem_cons_self, Nat.le_of_succ_le_succ hlength, ?_⟩, rfl⟩
      intro y hy
      exact hl y (List.mem_cons_of_mem x hy)

end AtMost

namespace Program

variable (p : Program) (depth : Nat)

def contextCount : Nat := listCount (p.calls.size + p.sites.size + p.sites.size) depth

def objectCount : Nat := p.contextCount depth * p.sites.size

def placeCount : Nat :=
  p.contextCount depth * p.vars.size + p.objectCount depth * p.fields.size + p.fields.size +
    p.objectCount depth

def callEdgeCount : Nat :=
  p.contextCount depth * p.calls.size * (p.contextCount depth * p.methods.size)

end Program

namespace Analysis

variable (a : Analysis)

theorem atMost_contextElems :
    AtMost (a.program.calls.size + a.program.sites.size + a.program.sites.size) a.contextElems :=
  (((AtMost.setOf_lt .call _).image _).union ((AtMost.setOf_lt .site _).image _)).union
    ((AtMost.setOf_lt .site _).image _)

section Depth

variable {a} {depth : Nat} (hdepth : a.contextBound ≤ depth)

include hdepth

theorem atMost_possibleContexts : AtMost (a.program.contextCount depth) a.possibleContexts := by
  apply ((a.atMost_contextElems.lists depth).image ContextOf.mk).subset
  rintro ⟨elems⟩ ⟨hlength, helems⟩
  exact ⟨elems, ⟨Nat.le_trans hlength hdepth, helems⟩, rfl⟩

theorem atMost_possibleObjects : AtMost (a.program.objectCount depth) a.possibleObjects := by
  apply (((atMost_possibleContexts hdepth).prod (AtMost.setOf_lt .site a.program.sites.size)).image
    fun x => ⟨x.1, a.heap.object a.program.toModel x.2⟩).subset
  rintro ⟨c, _⟩ ⟨hc, s, hs, rfl⟩
  exact ⟨(c, s), ⟨hc, hs⟩, rfl⟩

theorem atMost_possiblePlaces : AtMost (a.program.placeCount depth) a.possiblePlaces := by
  have hcontexts := atMost_possibleContexts hdepth
  have hobjects := atMost_possibleObjects hdepth
  have hvars := AtMost.setOf_lt .var a.program.vars.size
  have hfields := AtMost.setOf_lt .field a.program.fields.size
  apply (((((hcontexts.prod hvars).image fun x => .var x.1 x.2).union
    ((hobjects.prod hfields).image fun x => .field x.1 x.2)).union (hfields.image .static)).union
      (hobjects.image .elements)).subset
  intro p hp
  cases p with
  | var c v => exact Or.inl (Or.inl (Or.inl ⟨(c, v), hp, rfl⟩))
  | field o f => exact Or.inl (Or.inl (Or.inr ⟨(o, f), hp, rfl⟩))
  | static f => exact Or.inl (Or.inr ⟨f, hp, rfl⟩)
  | elements o => exact Or.inr ⟨o, hp, rfl⟩

theorem atMost_possibleReach :
    AtMost (a.program.contextCount depth * a.program.methods.size) a.possibleFacts.reach := by
  apply (((atMost_possibleContexts hdepth).prod
    (AtMost.setOf_lt .method a.program.methods.size)).image fun x => ⟨x.1, x.2⟩).subset
  rintro ⟨c, x⟩ hx
  exact ⟨(c, x), hx, rfl⟩

/-- The kind of a call edge is that of its call. -/
theorem atMost_possibleCalls : AtMost (a.program.callEdgeCount depth) a.possibleFacts.calls := by
  have hcontexts := atMost_possibleContexts hdepth
  have hsites := hcontexts.prod (AtMost.setOf_lt .call a.program.calls.size)
  have hcallees := hcontexts.prod (AtMost.setOf_lt .method a.program.methods.size)
  apply ((hsites.prod hcallees).image fun x =>
    ⟨(a.program.call x.1.2).kind, ⟨x.1.1, x.1.2⟩, ⟨x.2.1, x.2.2⟩⟩).subset
  rintro ⟨kind, ⟨c, i⟩, ⟨d, x⟩⟩ ⟨hkind, hsite, hcallee⟩
  exact ⟨((c, i), (d, x)), ⟨hsite, hcallee⟩, congrArg (CallEdge.mk · _ _) hkind.symm⟩

theorem atMost_possibleFlow :
    AtMost (a.program.placeCount depth * a.program.placeCount depth) a.possibleFacts.flow :=
  ((atMost_possiblePlaces hdepth).prod (atMost_possiblePlaces hdepth)).subset fun _ hf => hf

theorem atMost_possiblePointsTo :
    AtMost (a.program.placeCount depth * a.program.objectCount depth) a.possibleFacts.pointsTo :=
  ((atMost_possiblePlaces hdepth).prod (atMost_possibleObjects hdepth)).subset fun _ hf => hf

end Depth

end Analysis

structure Facts.Finite (F : Facts) : Prop where
  reach : F.reach.Finite
  calls : F.calls.Finite
  flow : F.flow.Finite
  pointsTo : F.pointsTo.Finite

theorem Analysis.finite_possibleFacts (a : Analysis) : a.possibleFacts.Finite where
  reach := (atMost_possibleReach (Nat.le_refl _)).1
  calls := (atMost_possibleCalls (Nat.le_refl _)).1
  flow := (atMost_possibleFlow (Nat.le_refl _)).1
  pointsTo := (atMost_possiblePointsTo (Nat.le_refl _)).1

end PointsTo
