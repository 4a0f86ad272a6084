import PointsTo.Proofs.Program.Registry
import PointsTo.Proofs.Program.Walks

/-! Which class is refused for a cycle. A chain of superclasses that never ends leads into a cycle, though
the class it starts at need not be on it. The scan takes the classes in order and names the one whose chain
it was following: the first whose chain leads into a cycle. -/

namespace PointsTo

theorem Id.find?_upTo_eq_some_iff {entity : Entity} {n : Nat} {p : Id entity → Bool} {c : Id entity} :
    (Id.upTo entity n).find? p = some c ↔
      c.index < n ∧ p c = true ∧ ∀ d : Id entity, d.index < c.index → p d = false := by
  rw [Id.upTo, List.find?_map, Option.map_eq_some_iff]
  constructor
  · rintro ⟨i, hi, rfl⟩
    obtain ⟨hp, hmem, hbefore⟩ := List.find?_range_eq_some.1 hi
    exact ⟨List.mem_range.1 hmem, hp, fun d hd => Bool.not_eq_true' _ ▸ hbefore d.index hd⟩
  · rintro ⟨hn, hp, hbefore⟩
    refine ⟨c.index, List.find?_range_eq_some.2 ⟨hp, List.mem_range.2 hn, fun j hj => ?_⟩, rfl⟩
    rw [Bool.not_eq_true']
    exact hbefore ⟨j⟩ hj

namespace Model

/-- The class or one above it is above itself. -/
def EntersCycle (m : Model) (c : ClassId) : Prop :=
  ∃ d, Relation.ReflTransGen m.Inherits c d ∧ Relation.TransGen m.Inherits d d

variable {m : Model}

theorem EntersCycle.isClass {c : ClassId} (h : m.EntersCycle c) : m.IsClass c := by
  obtain ⟨d, hd, hcycle⟩ := h
  obtain ⟨e, he, -⟩ := Relation.TransGen.head'_iff.1 (Relation.TransGen.trans_right hd hcycle)
  exact Below.isClass (Or.inl he)

theorem endsWithin_eq_false_of_entersCycle {c : ClassId} (h : m.EntersCycle c) (fuel : Nat) :
    m.endsWithin fuel c = false := by
  obtain ⟨d, hd, hcycle⟩ := h
  induction hd using Relation.ReflTransGen.head_induction_on generalizing fuel with
  | refl => exact endsWithin_eq_false_of_cycle hcycle fuel
  | head hstep _ ih =>
    cases fuel with
    | zero => rfl
    | succ fuel =>
      rw [endsWithin, hstep]
      exact ih fuel

theorem endsWithin_eq_false_iff (hm : m.Scoped) {c : ClassId} (hc : m.IsClass c) :
    m.endsWithin m.classes.size c = false ↔ m.EntersCycle c :=
  ⟨exists_cycle_of_endless hm hc, fun h => endsWithin_eq_false_of_entersCycle h _⟩

/-- The search finds the first class whose chain leads into a cycle. -/
theorem endlessClass?_eq_some_iff (hm : m.Scoped) {c : ClassId} :
    m.endlessClass? = some c ↔ m.EntersCycle c ∧ ∀ d, m.EntersCycle d → c.index ≤ d.index := by
  have hendless : ∀ {d}, m.IsClass d → ((!m.endsWithin m.classes.size d) = true ↔ m.EntersCycle d) :=
    fun hd => by rw [Bool.not_eq_true', endsWithin_eq_false_iff hm hd]
  rw [endlessClass?, classIds, Id.find?_upTo_eq_some_iff]
  constructor
  · rintro ⟨hc, hfound, hbefore⟩
    refine ⟨(hendless hc).1 hfound, fun d hd => Nat.not_lt.1 fun hlt => ?_⟩
    exact absurd ((hendless hd.isClass).2 hd) (Bool.not_eq_true _ ▸ hbefore d hlt)
  · rintro ⟨hc, hfirst⟩
    refine ⟨hc.isClass, (hendless hc.isClass).2 hc, fun d hlt => ?_⟩
    rw [← Bool.not_eq_true, hendless (Nat.lt_trans hlt hc.isClass)]
    exact fun hd => Nat.not_le_of_lt hlt (hfirst d hd)

end Model

namespace Builder

variable {b : Builder}

/-- The class that a refusal for a cycle names is the first whose chain of superclasses leads into a cycle. -/
theorem hierarchyCycle_names_first (hb : b.Reached) {name : String} :
    b.build = .error (.hierarchyCycle name) ↔ b.entry.isSome = true ∧
      ∃ c, b.classNamed? name = some c ∧ b.EntersCycle c ∧ ∀ d, b.EntersCycle d → c.index ≤ d.index := by
  have hnamed : ∀ c, b.classNamed? name = some c ↔ b.IsClass c ∧ b.className c = name :=
    fun c => (registered_of_reached hb).classNamed?_eq_some_iff
  rw [build_eq_hierarchyCycle_iff]
  simp only [Model.endlessClass?_eq_some_iff (scoped_of_reached hb), hnamed]
  refine and_congr_right fun _ => exists_congr fun c => ⟨?_, ?_⟩
  · rintro ⟨⟨hcycle, hfirst⟩, hname⟩
    exact ⟨⟨hcycle.isClass, hname⟩, hcycle, hfirst⟩
  · rintro ⟨⟨-, hname⟩, hcycle, hfirst⟩
    exact ⟨⟨hcycle, hfirst⟩, hname⟩

/-- `C` is below `A`, which is its own superclass. -/
def leading : Builder :=
  empty.performAll
    [.addClass "C" .plain none,
      .addClass "A" .plain none,
      .addClass "M" .plain none,
      .setSuperclass ⟨0⟩ (some ⟨1⟩),
      .setSuperclass ⟨1⟩ (some ⟨1⟩),
      .addMethod ⟨2⟩ ⟨"main()"⟩ true false [],
      .setEntry ⟨0⟩]

theorem superclass_leading :
    (leading.cls ⟨0⟩).superclass = some ⟨1⟩ ∧ (leading.cls ⟨1⟩).superclass = some ⟨1⟩ := by
  decide +kernel

theorem hierarchyCycle_names_first_leading : leading.Reached ∧
    leading.build = .error (.hierarchyCycle "C") ∧
    ∃ c, leading.classNamed? "C" = some c ∧ leading.EntersCycle c ∧
      ∀ d, leading.EntersCycle d → c.index ≤ d.index := by
  have hreached : leading.Reached := Reached.performAll .empty (by decide +kernel)
  have hbuild : leading.build = .error (.hierarchyCycle "C") :=
    build_eq_hierarchyCycle_iff.2 ⟨by decide +kernel, ⟨0⟩, by decide +kernel, by decide +kernel⟩
  exact ⟨hreached, hbuild, ((hierarchyCycle_names_first hreached).1 hbuild).2⟩

/-- The class named is not on the cycle that its chain leads into. -/
theorem exists_class_named_off_cycle : leading.Reached ∧
    leading.build = .error (.hierarchyCycle "C") ∧ leading.classNamed? "C" = some ⟨0⟩ ∧
    ¬ Relation.TransGen leading.Inherits ⟨0⟩ ⟨0⟩ := by
  have hbuild : leading.build = .error (.hierarchyCycle "C") :=
    build_eq_hierarchyCycle_iff.2 ⟨by decide +kernel, ⟨0⟩, by decide +kernel, by decide +kernel⟩
  refine ⟨Reached.performAll .empty (by decide +kernel), hbuild, by decide +kernel, fun hback => ?_⟩
  -- all that is above `C` is `A`
  have habove : ∀ d, Relation.TransGen leading.Inherits ⟨0⟩ d → d = ⟨1⟩ := by
    intro d hd
    induction hd with
    | single h => exact Option.some.inj (h.symm.trans superclass_leading.1)
    | tail _ h ih =>
      subst ih
      exact Option.some.inj (h.symm.trans superclass_leading.2)
  exact absurd (habove ⟨0⟩ hback) (by decide)

end Builder

end PointsTo
