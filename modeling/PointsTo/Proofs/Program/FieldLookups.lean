import PointsTo.Proofs.Program.Walks

/-! Looking up fields before and after a program is finished. While it is assembled, superclass links may
run in a circle, and a walk along them is cut off after as many classes as there are. The cut hides no
declaration: up to the first class that declares the field, no class is met twice. In a finished program
the walk without a cut gives the same answer. -/

namespace PointsTo

namespace Model

/-- The class that many superclass links up, if the chain goes so far. It may run in a circle. -/
def above? (m : Model) : Nat → ClassId → Option ClassId
  | 0, c => some c
  | k + 1, c => (m.cls c).superclass.bind (m.above? k)

/-- The first class met on the way up that has such a member has this one. -/
def FirstAbove {α : Type} (m : Model) (member? : ClassId → Option α) (c : ClassId) (x : α) : Prop :=
  ∃ k d, m.above? k c = some d ∧ member? d = some x ∧
    ∀ j < k, ∀ e, m.above? j c = some e → member? e = none

variable {m : Model} {α : Type} {member? : ClassId → Option α}

theorem firstAbove_of_eq_some {c : ClassId} {x : α} (hx : member? c = some x) :
    m.FirstAbove member? c x :=
  ⟨0, c, rfl, hx, fun _ hj => absurd hj (Nat.not_lt_zero _)⟩

/-- Where the class itself has no such member, it is the first above it that counts. -/
theorem firstAbove_iff_of_inherits {c d : ClassId} {x : α} (hc : member? c = none) (hd : m.Inherits c d) :
    m.FirstAbove member? c x ↔ m.FirstAbove member? d x := by
  have hup : ∀ k, m.above? (k + 1) c = m.above? k d := fun k => by rw [above?, hd, Option.bind_some]
  constructor
  · rintro ⟨k, e, he, hx, hbefore⟩
    cases k with
    | zero =>
      obtain rfl := Option.some.inj he
      exact absurd (hx.symm.trans hc) nofun
    | succ k =>
      exact ⟨k, e, hup k ▸ he, hx, fun j hj e' he' => hbefore (j + 1) (Nat.succ_lt_succ hj) e' (hup j ▸ he')⟩
  · rintro ⟨k, e, he, hx, hbefore⟩
    refine ⟨k + 1, e, (hup k).trans he, hx, fun j hj e' he' => ?_⟩
    cases j with
    | zero =>
      obtain rfl := Option.some.inj he'
      exact hc
    | succ j => exact hbefore j (Nat.lt_of_succ_lt_succ hj) e' ((hup j).symm.trans he')

/-! ### The search without a cut -/

namespace Seeks

/-- From a class that it visits, the search goes on as it would have started there. -/
theorem exists_suffix {c d : ClassId} {visited : List ClassId} {answer : Option α}
    (h : m.Seeks member? c visited answer) (hd : d ∈ visited) :
    ∃ rest, rest <:+ visited ∧ m.Seeks member? d rest answer := by
  induction h with
  | found hx =>
    obtain rfl := List.mem_singleton.1 hd
    exact ⟨_, List.suffix_rfl, .found hx⟩
  | ends hc hsuper =>
    obtain rfl := List.mem_singleton.1 hd
    exact ⟨_, List.suffix_rfl, .ends hc hsuper⟩
  | up hc hup h ih =>
    rcases List.mem_cons.1 hd with rfl | hd
    · exact ⟨_, List.suffix_rfl, .up hc hup h⟩
    · obtain ⟨rest, hrest, hseeks⟩ := ih hd
      exact ⟨rest, hrest.trans (List.suffix_cons _ _), hseeks⟩

/-- A search that ends meets no class twice: the second time it would go on as the first time, for ever. -/
theorem nodup {c : ClassId} {visited : List ClassId} {answer : Option α}
    (h : m.Seeks member? c visited answer) : visited.Nodup := by
  induction h with
  | found | ends => exact List.pairwise_singleton _ _
  | @up c d visited answer hc hd h ih =>
    refine List.nodup_cons.2 ⟨fun hmem => ?_, ih⟩
    obtain ⟨rest, hrest, hseeks⟩ := h.exists_suffix hmem
    obtain ⟨rfl, -⟩ := hseeks.unique (.up hc hd h)
    have hlength := hrest.length_le
    rw [List.length_cons] at hlength
    exact Nat.not_succ_le_self _ hlength

theorem isClass_of_mem (hm : m.Scoped) {c : ClassId} (hc : m.IsClass c) {visited : List ClassId}
    {answer : Option α} (h : m.Seeks member? c visited answer) : ∀ d ∈ visited, m.IsClass d := by
  induction h with
  | found | ends => simpa using hc
  | up _ hd _ ih => exact List.forall_mem_cons.2 ⟨hc, ih ((hm.cls hc).superclass _ hd)⟩

theorem length_le (hm : m.Scoped) {c : ClassId} (hc : m.IsClass c) {visited : List ClassId}
    {answer : Option α} (h : m.Seeks member? c visited answer) : visited.length ≤ m.classes.size :=
  length_le_of_nodup h.nodup (h.isClass_of_mem hm hc)

/-- The search with a cut gives the same answer if it may visit as many classes. -/
theorem findSome?_ancestorsWithin {c : ClassId} {visited : List ClassId} {answer : Option α}
    (h : m.Seeks member? c visited answer) {fuel : Nat} (hfuel : visited.length ≤ fuel) :
    (m.ancestorsWithin fuel c).findSome? member? = answer := by
  induction h generalizing fuel with
  | found hx =>
    obtain ⟨fuel, rfl⟩ := Nat.exists_eq_add_of_le' hfuel
    simp [ancestorsWithin, hx]
  | ends hc hsuper =>
    obtain ⟨fuel, rfl⟩ := Nat.exists_eq_add_of_le' hfuel
    simp [ancestorsWithin, hc, hsuper]
  | @up c d visited answer hc hd _ ih =>
    cases fuel with
    | zero => exact absurd hfuel (Nat.not_succ_le_zero _)
    | succ fuel =>
      rw [ancestorsWithin, List.findSome?_cons, hc, hd]
      exact ih (Nat.le_of_succ_le_succ hfuel)

end Seeks

theorem exists_seeks_of_firstAbove {c : ClassId} {x : α} (h : m.FirstAbove member? c x) :
    ∃ visited, m.Seeks member? c visited (some x) := by
  obtain ⟨k, d, hd, hx, hbefore⟩ := h
  induction k generalizing c with
  | zero =>
    obtain rfl := Option.some.inj hd
    exact ⟨[c], .found hx⟩
  | succ k ih =>
    obtain ⟨e, he, hd⟩ := Option.bind_eq_some_iff.1 hd
    obtain ⟨visited, hseeks⟩ := ih hd fun j hj e' he' =>
      hbefore (j + 1) (Nat.succ_lt_succ hj) e' (Option.bind_eq_some_iff.2 ⟨e, he, he'⟩)
    exact ⟨c :: visited, .up (hbefore 0 (Nat.succ_pos k) c rfl) he hseeks⟩

theorem exists_seeks_of_reflTransGen {c d : ClassId} {x : α}
    (hd : Relation.ReflTransGen m.Inherits c d) (hx : member? d = some x) :
    ∃ y visited, m.Seeks member? c visited (some y) := by
  induction hd using Relation.ReflTransGen.head_induction_on with
  | refl => exact ⟨x, [d], .found hx⟩
  | @head c e hstep _ ih =>
    cases hc : member? c with
    | some y => exact ⟨y, [c], .found hc⟩
    | none =>
      obtain ⟨y, visited, hseeks⟩ := ih
      exact ⟨y, c :: visited, .up hc hstep hseeks⟩

/-! ### The search with a cut -/

theorem firstAbove_of_findSome? {fuel : Nat} {c : ClassId} {x : α}
    (h : (m.ancestorsWithin fuel c).findSome? member? = some x) : m.FirstAbove member? c x := by
  induction fuel generalizing c with
  | zero => cases h
  | succ fuel ih =>
    rw [ancestorsWithin, List.findSome?_cons] at h
    cases hc : member? c with
    | some y =>
      rw [hc] at h
      exact firstAbove_of_eq_some (hc.trans h)
    | none =>
      cases hsuper : (m.cls c).superclass with
      | none => simp [hc, hsuper] at h
      | some d =>
        rw [hc, hsuper] at h
        exact (firstAbove_iff_of_inherits hc hsuper).2 (ih h)

section Scoped

variable (hm : m.Scoped) {c : ClassId} (hc : m.IsClass c)

include hm hc

theorem findSome?_ancestors_eq_some_iff {x : α} :
    (m.ancestors c).findSome? member? = some x ↔ m.FirstAbove member? c x := by
  refine ⟨firstAbove_of_findSome?, fun h => ?_⟩
  obtain ⟨visited, hseeks⟩ := exists_seeks_of_firstAbove h
  exact hseeks.findSome?_ancestorsWithin (hseeks.length_le hm hc)

theorem findSome?_ancestors_eq_none_iff :
    (m.ancestors c).findSome? member? = none ↔
      ∀ d, Relation.ReflTransGen m.Inherits c d → member? d = none := by
  constructor
  · intro hnone d hd
    rw [Option.eq_none_iff_forall_ne_some]
    intro x hx
    obtain ⟨y, visited, hseeks⟩ := exists_seeks_of_reflTransGen hd hx
    have hfound := hseeks.findSome?_ancestorsWithin (hseeks.length_le hm hc)
    exact absurd (hnone.symm.trans hfound) nofun
  · intro h
    rw [List.findSome?_eq_none_iff]
    exact fun d hd => h d (reflTransGen_of_mem_ancestorsWithin hd)

end Scoped

/-- Fields are looked up along the superclasses, which may run in a circle: the first class that declares one
counts, and there is none only if no class met does. -/
structure FindsFields (m : Model) : Prop where
  eq_some_iff : ∀ c name f, m.IsClass c → (m.resolveField? c name = some f ↔
    m.FirstAbove (fun d => (m.cls d).declaredField? name) c f)
  eq_none_iff : ∀ c name, m.IsClass c → (m.resolveField? c name = none ↔
    ∀ d, Relation.ReflTransGen m.Inherits c d → (m.cls d).declaredField? name = none)

theorem findsFields (hm : m.Scoped) : m.FindsFields where
  eq_some_iff _ _ _ hc := findSome?_ancestors_eq_some_iff hm hc
  eq_none_iff _ _ hc := findSome?_ancestors_eq_none_iff hm hc

end Model

namespace Builder

variable {b : Builder}

/-- A builder finds the fields whatever its superclass links. Once it finishes a program, the search there,
which has no cut, ends with the same answers. -/
theorem fieldLookups_agree (hb : b.Reached) : b.FindsFields ∧
    ∀ p, b.build = .ok p → ∀ c name, p.IsClass c →
      p.resolveField? c name = b.resolveField? c name ∧
      p.Settles (fun d => (p.cls d).declaredField? name) c (b.resolveField? c name) := by
  have hm := scoped_of_reached hb
  refine ⟨Model.findsFields hm, fun p hp c name hc => ?_⟩
  obtain ⟨entry, -, hendless, rfl, -⟩ := build_eq_ok hp
  exact ⟨rfl, (Model.nearestFirst hm hendless).field_settles c name hc⟩

/-- `A`, `B` and `C`, each below the next, and a field that only `C` declares. -/
def chained : Builder :=
  empty.performAll
    [.addClass "A" .plain none,
      .addClass "B" .plain none,
      .addClass "C" .plain none,
      .setSuperclass ⟨0⟩ (some ⟨1⟩),
      .setSuperclass ⟨1⟩ (some ⟨2⟩),
      .addField ⟨2⟩ "f" false,
      .addMethod ⟨0⟩ ⟨"main()"⟩ true false [],
      .setEntry ⟨0⟩]

/-- The field is found from `A`, through every class, and also after the chain has been made a circle. -/
theorem fieldLookups_agree_chained :
    (∃ p, chained.build = .ok p ∧
      p.Settles (fun d => (p.cls d).declaredField? "f") ⟨0⟩ (chained.resolveField? ⟨0⟩ "f")) ∧
    chained.resolveField? ⟨0⟩ "f" = some ⟨0⟩ ∧
    (chained.performAll [.setSuperclass ⟨2⟩ (some ⟨0⟩)]).Reached ∧
    (chained.performAll [.setSuperclass ⟨2⟩ (some ⟨0⟩)]).FindsFields ∧
    (chained.performAll [.setSuperclass ⟨2⟩ (some ⟨0⟩)]).resolveField? ⟨0⟩ "f" = some ⟨0⟩ := by
  have hreached : chained.Reached := Reached.performAll .empty (by decide +kernel)
  have hcircle : (chained.performAll [.setSuperclass ⟨2⟩ (some ⟨0⟩)]).Reached :=
    hreached.performAll (by decide +kernel)
  obtain ⟨p, hp, hc⟩ := exists_ok_of_any (e := chained.build) (f := fun p => decide (p.IsClass ⟨0⟩))
    (by decide +kernel)
  have hagree := (fieldLookups_agree hreached).2 p hp ⟨0⟩ "f" (of_decide_eq_true hc)
  exact ⟨⟨p, hp, hagree.2⟩, by decide +kernel, hcircle, (fieldLookups_agree hcircle).1, by decide +kernel⟩

end Builder

end PointsTo
