import Mathlib.Order.Bounds.Basic
import PointsTo.Proofs.ClosureOrder
import PointsTo.Proofs.Program.Accepted
import PointsTo.Proofs.Program.Subtypes

/-! The listing of subtypes. Superclasses of an accepted program make no cycle, but interfaces may name each
other, themselves, or one interface twice. The search for subtypes comes to its end all the same, and lists
each type once, by the links that it takes to climb from there to the class. -/

namespace PointsTo

namespace Model

/-- Along so many superclass and interface links one climbs from the type to the class. -/
inductive Climbs (m : Model) (c : ClassId) : Nat → ClassId → Prop where
  | arrived : m.Climbs c 0 c
  | up {n : Nat} {t d : ClassId} (hd : m.Below t d) (h : m.Climbs c n d) : m.Climbs c (n + 1) t

/-- The fewest links are so many. -/
def ClimbsAtLeast (m : Model) (c : ClassId) (n : Nat) (t : ClassId) : Prop := IsLeast {n | m.Climbs c n t} n

/-- The search goes down by the same links. -/
theorem steps_linked_iff {m : Model} (hm : m.Scoped) {c t : ClassId} {n : Nat} :
    Closure.Steps (linked m.subtypeLinks) c n t ↔ m.Climbs c n t := by
  have hlink : ∀ t d, t ∈ linked m.subtypeLinks d ↔ m.Below t d := fun t d =>
    (mem_linked_subtypeLinks hm).trans (and_iff_right_of_imp Below.isClass)
  constructor
  · intro h
    induction h with
    | zero => exact .arrived
    | succ _ hstep ih => exact .up ((hlink _ _).1 hstep) ih
  · intro h
    induction h with
    | arrived => exact .zero
    | up hd _ ih => exact ih.succ ((hlink _ _).2 hd)

end Model

namespace Program

/-- All types at or below a class, as the unbounded search finds them: the class first, none twice, and
none before one that is fewer links away. -/
structure ListsSubtypes (p : Program) (c : ClassId) (types : List ClassId) : Prop where
  searched : Closure.Searches (fun d => (p.directSubtypes d).all) [] [c] types
  first : types.head? = some c
  nodup : types.Nodup
  mem_iff : ∀ t, t ∈ types ↔ p.AtOrBelow t c
  nearest : ∃ distance : ClassId → Nat, (∀ t ∈ types, p.ClimbsAtLeast c (distance t) t) ∧
    types.Pairwise fun t u => distance t ≤ distance u

theorem listsSubtypes_subtypesOf {p : Program} (hp : p.Accepted) {c : ClassId} (hc : p.IsClass c) :
    p.ListsSubtypes c (p.subtypesOf c) := by
  have hlinks : p.subtypes = p.toModel.subtypeLinks := congrArg Program.subtypes hp.eq_ofModel
  have hsearch := Model.searches_subtypesOf hp.scope (x := p.entry) hc
  rw [← hp.eq_ofModel] at hsearch
  refine ⟨?_, hsearch.head?_eq, hsearch.nodup, fun t => ?_, ?_⟩
  · rw [← hlinks] at hsearch
    exact hsearch
  · rw [hp.eq_ofModel]
    exact Model.mem_subtypesOf_iff_atOrBelow hp.scope hc
  · refine ⟨Closure.depth (linked p.toModel.subtypeLinks) c, fun t ht => ?_, hsearch.pairwise_depth⟩
    have hreach := (Closure.Searches.mem_iff hsearch).1 ht
    refine ⟨(Model.steps_linked_iff hp.scope).1 (Closure.steps_depth hreach), fun n hn => ?_⟩
    exact Closure.depth_le ((Model.steps_linked_iff hp.scope).2 hn)

end Program

/-- Interfaces `I` and `J` name each other, `K` names itself and `I`, the class `A` names `I` twice, and its
subclass `B` names `J`. -/
def Builder.tangled : Builder :=
  Builder.empty.performAll
    [.addClass "I" .interface none,
      .addClass "J" .interface none,
      .addClass "K" .interface none,
      .addClass "A" .plain none,
      .addClass "B" .plain (some ⟨3⟩),
      .addInterface ⟨0⟩ ⟨1⟩,
      .addInterface ⟨1⟩ ⟨0⟩,
      .addInterface ⟨2⟩ ⟨2⟩,
      .addInterface ⟨2⟩ ⟨0⟩,
      .addInterface ⟨3⟩ ⟨0⟩,
      .addInterface ⟨3⟩ ⟨0⟩,
      .addInterface ⟨4⟩ ⟨1⟩,
      .addMethod ⟨3⟩ ⟨"main()"⟩ true false [],
      .setEntry ⟨0⟩]

theorem Program.listsSubtypes_tangled : ∃ p, Builder.tangled.build = .ok p ∧ p.Accepted ∧ p.IsClass ⟨0⟩ ∧
    p.subtypesOf ⟨0⟩ = [⟨0⟩, ⟨3⟩, ⟨1⟩, ⟨2⟩, ⟨4⟩] ∧
    p.ListsSubtypes ⟨0⟩ [⟨0⟩, ⟨3⟩, ⟨1⟩, ⟨2⟩, ⟨4⟩] := by
  obtain ⟨p, hbuild, hp⟩ := exists_ok_of_any (e := Builder.tangled.build)
    (f := fun p => decide (p.IsClass ⟨0⟩ ∧ p.subtypesOf ⟨0⟩ = [⟨0⟩, ⟨3⟩, ⟨1⟩, ⟨2⟩, ⟨4⟩]))
    (by decide +kernel)
  obtain ⟨hc, htypes⟩ := of_decide_eq_true hp
  have haccepted : p.Accepted := ⟨_, Builder.Reached.performAll .empty (by decide +kernel), hbuild⟩
  have hlists := listsSubtypes_subtypesOf haccepted hc
  rw [htypes] at hlists
  exact ⟨p, hbuild, haccepted, hc, htypes, hlists⟩

end PointsTo
