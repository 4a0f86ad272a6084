import PointsTo.Proofs.Program.Accepted
import PointsTo.Proofs.Program.Superclasses

/-! Walks up a chain of superclasses. Neither the scan for a cycle nor the search of a chain for a member has
a bound of its own. The scan stops at a class it has seen, so it ends, and it finds the cycle of a chain
wherever the chain enters it; without cycles a search ends after no more classes than there are. -/

namespace PointsTo

namespace Model

/-- The scan of a chain, with the classes seen before. The answer is whether the chain comes to its end. -/
inductive Scans (m : Model) : List ClassId → ClassId → Bool → Prop where
  | seen {seen : List ClassId} {c : ClassId} (hc : c ∈ seen) : m.Scans seen c false
  | ends {seen : List ClassId} {c : ClassId} (hc : c ∉ seen) (hsuper : (m.cls c).superclass = none) :
      m.Scans seen c true
  | up {seen : List ClassId} {c d : ClassId} {answer : Bool} (hc : c ∉ seen) (hd : m.Inherits c d)
      (h : m.Scans (c :: seen) d answer) : m.Scans seen c answer

/-- The search of a chain, with the classes visited: it ends where the member is found or no superclass is
left. -/
inductive Seeks {α : Type} (m : Model) (member? : ClassId → Option α) :
    ClassId → List ClassId → Option α → Prop where
  | found {c : ClassId} {x : α} (hx : member? c = some x) : m.Seeks member? c [c] (some x)
  | ends {c : ClassId} (hc : member? c = none) (hsuper : (m.cls c).superclass = none) :
      m.Seeks member? c [c] none
  | up {c d : ClassId} {visited : List ClassId} {answer : Option α} (hc : member? c = none)
      (hd : m.Inherits c d) (h : m.Seeks member? d visited answer) : m.Seeks member? c (c :: visited) answer

/-- The search ends in one way, with that answer, and visits no more classes than there are. -/
def Settles {α : Type} (m : Model) (member? : ClassId → Option α) (c : ClassId) (answer : Option α) : Prop :=
  ∃ visited, visited.length ≤ m.classes.size ∧
    ∀ visited' answer', m.Seeks member? c visited' answer' ↔ visited' = visited ∧ answer' = answer

variable {m : Model}

theorem Inherits.unique {c d e : ClassId} (hd : m.Inherits c d) (he : m.Inherits c e) : d = e :=
  Option.some.inj (hd.symm.trans he)

/-! ### The scan -/

/-- The number of classes not seen yet is bound enough. -/
theorem scans_endsWithin (hm : m.Scoped) {seen : List ClassId} {c : ClassId} {fuel : Nat}
    (hnodup : seen.Nodup) (hseen : ∀ d ∈ seen, m.IsClass d ∧ Relation.TransGen m.Inherits d c)
    (hc : m.IsClass c) (hfuel : m.classes.size = seen.length + fuel) :
    m.Scans seen c (m.endsWithin fuel c) := by
  induction fuel generalizing seen c with
  | zero =>
    -- all classes have been seen
    refine .seen (Classical.byContradiction fun hnew => ?_)
    have hlength := length_le_of_nodup (List.nodup_cons.2 ⟨hnew, hnodup⟩)
      (List.forall_mem_cons.2 ⟨hc, fun d hd => (hseen d hd).1⟩)
    rw [List.length_cons] at hlength
    omega
  | succ fuel ih =>
    by_cases hc' : c ∈ seen
    · rw [endsWithin_eq_false_of_cycle (hseen c hc').2]
      exact .seen hc'
    rw [endsWithin]
    cases hsuper : (m.cls c).superclass with
    | none => exact .ends hc' hsuper
    | some d =>
      refine .up hc' hsuper (ih (List.nodup_cons.2 ⟨hc', hnodup⟩) ?_ ((hm.cls hc).superclass d hsuper) ?_)
      · intro e he
        rcases List.mem_cons.1 he with rfl | he
        · exact ⟨hc, .single hsuper⟩
        · exact ⟨(hseen e he).1, (hseen e he).2.tail hsuper⟩
      · rw [List.length_cons]
        omega

theorem Scans.unique {seen : List ClassId} {c : ClassId} {answer answer' : Bool} (h : m.Scans seen c answer)
    (h' : m.Scans seen c answer') : answer = answer' := by
  induction h generalizing answer' with
  | seen hc =>
    cases h' with
    | seen => rfl
    | ends hnew | up hnew => exact absurd hc hnew
  | ends hc hsuper =>
    cases h' with
    | seen hold => exact absurd hold hc
    | ends => rfl
    | up _ hd => exact absurd (hsuper.symm.trans hd) nofun
  | up hc hd _ ih =>
    cases h' with
    | seen hold => exact absurd hold hc
    | ends _ hsuper => exact absurd (hsuper.symm.trans hd) nofun
    | up _ he hrest => exact ih (hd.unique he ▸ hrest)

/-! ### The search -/

theorem Seeks.unique {α : Type} {member? : ClassId → Option α} {c : ClassId}
    {visited visited' : List ClassId} {answer answer' : Option α} (h : m.Seeks member? c visited answer)
    (h' : m.Seeks member? c visited' answer') : visited = visited' ∧ answer = answer' := by
  induction h generalizing visited' answer' with
  | found hx =>
    cases h' with
    | found hx' => exact ⟨rfl, hx.symm.trans hx'⟩
    | ends hc | up hc => exact absurd (hx.symm.trans hc) nofun
  | ends hc hsuper =>
    cases h' with
    | found hx => exact absurd (hx.symm.trans hc) nofun
    | ends => exact ⟨rfl, rfl⟩
    | up _ hd => exact absurd (hsuper.symm.trans hd) nofun
  | up hc hd _ ih =>
    cases h' with
    | found hx => exact absurd (hx.symm.trans hc) nofun
    | ends _ hsuper => exact absurd (hsuper.symm.trans hd) nofun
    | up _ he hrest =>
      obtain ⟨rfl, rfl⟩ := ih (hd.unique he ▸ hrest)
      exact ⟨rfl, rfl⟩

theorem seeks_ancestorsWithin {α : Type} (member? : ClassId → Option α) {fuel : Nat} {c : ClassId}
    (h : m.endsWithin fuel c = true) : ∃ visited, visited.length ≤ fuel ∧
      m.Seeks member? c visited ((m.ancestorsWithin fuel c).findSome? member?) := by
  induction fuel generalizing c with
  | zero => cases h
  | succ fuel ih =>
    rw [endsWithin] at h
    rw [ancestorsWithin, List.findSome?_cons]
    cases hc : member? c with
    | some x => exact ⟨[c], Nat.le_add_left 1 fuel, .found hc⟩
    | none =>
      cases hsuper : (m.cls c).superclass with
      | none => exact ⟨[c], Nat.le_add_left 1 fuel, .ends hc hsuper⟩
      | some d =>
        rw [hsuper] at h
        obtain ⟨visited, hlength, hseeks⟩ := ih h
        exact ⟨c :: visited, Nat.succ_le_succ hlength, .up hc hsuper hseeks⟩

theorem settles_of_endsWithin {α : Type} (member? : ClassId → Option α) {c : ClassId}
    (h : m.endsWithin m.classes.size c = true) :
    m.Settles member? c ((m.ancestors c).findSome? member?) := by
  obtain ⟨visited, hlength, hseeks⟩ := seeks_ancestorsWithin member? h
  refine ⟨visited, hlength, fun visited' answer' => ⟨fun hseeks' => hseeks'.unique hseeks, ?_⟩⟩
  rintro ⟨rfl, rfl⟩
  exact hseeks

/-! ### What is dispatched to -/

/-- The method has a body and is declared under the subsignature by a class on the chain, before which no
class of the chain declares one with a body. -/
def Nearest (m : Model) (s : Subsignature) (c : ClassId) (x : MethodId) : Prop :=
  ∃ a, Relation.ReflTransGen m.Inherits c a ∧ (m.cls a).declaredMethod? s = some x ∧
    (m.method x).isAbstract = false ∧
    ∀ b, Relation.ReflTransGen m.Inherits c b → Relation.TransGen m.Inherits b a →
      ∀ y, (m.cls b).declaredMethod? s = some y → (m.method y).isAbstract = true

theorem dispatches_iff_nearest (hacyclic : ∀ c, ¬ Relation.TransGen m.Inherits c c) {s : Subsignature}
    {c : ClassId} {x : MethodId} : m.Dispatches s c x ↔ m.Nearest s c x := by
  constructor
  · intro h
    induction h with
    | @here c x hx hbody =>
      refine ⟨c, .refl, hx, hbody, fun b hb hback => ?_⟩
      exact absurd (Relation.TransGen.trans_right hb hback) (hacyclic c)
    | above habstract hd _ ih =>
      obtain ⟨a, ha, hx, hbody, hbefore⟩ := ih
      refine ⟨a, .head hd ha, hx, hbody, fun b hb hba => ?_⟩
      rcases Relation.ReflTransGen.cases_head hb with rfl | ⟨e, he, hb⟩
      · exact habstract
      · exact hbefore b (hd.unique he ▸ hb) hba
  · rintro ⟨a, ha, hx, hbody, hbefore⟩
    induction ha using Relation.ReflTransGen.head_induction_on with
    | refl => exact .here hx hbody
    | head hd ha ih =>
      refine .above (hbefore _ .refl (.head' hd ha)) hd (ih fun b hb hba => ?_)
      exact hbefore b (.head hd hb) hba

theorem exists_dispatches {s : Subsignature} {c a : ClassId} {y : MethodId}
    (ha : Relation.ReflTransGen m.Inherits c a) (hy : (m.cls a).declaredMethod? s = some y)
    (hbody : (m.method y).isAbstract = false) : ∃ x, m.Dispatches s c x := by
  induction ha using Relation.ReflTransGen.head_induction_on with
  | refl => exact ⟨y, .here hy hbody⟩
  | @head c d hd _ ih =>
    cases hc : m.concreteMethod? s c with
    | some x => exact ⟨x, dispatches_iff.2 (Or.inl hc)⟩
    | none =>
      obtain ⟨x, hx⟩ := ih
      exact ⟨x, dispatches_iff.2 (Or.inr ⟨hc, d, hd, hx⟩)⟩

theorem dispatch?_eq_none_iff (hm : m.Scoped) (hendless : m.endlessClass? = none) {c : ClassId}
    (hc : m.IsClass c) {s : Subsignature} : m.dispatch? c s = none ↔
      ∀ a, Relation.ReflTransGen m.Inherits c a →
        ∀ y, (m.cls a).declaredMethod? s = some y → (m.method y).isAbstract = true := by
  have hacyclic := (endlessClass?_eq_none_iff hm).1 hendless
  rw [Option.eq_none_iff_forall_ne_some]
  simp only [ne_eq, dispatch?_eq_some_iff hendless hc]
  constructor
  · intro h a ha y hy
    apply Classical.byContradiction
    intro hbody
    obtain ⟨x, hx⟩ := exists_dispatches ha hy (Bool.not_eq_true _ ▸ hbody)
    exact h x hx
  · intro h x hx
    obtain ⟨a, ha, hdeclared, hbody, -⟩ := (dispatches_iff_nearest hacyclic).1 hx
    exact absurd (h a ha x hdeclared) (by simp [hbody])

/-- A class that adds nothing runs what the one above it runs. -/
theorem dispatch?_eq_of_inherits (hm : m.Scoped) (hendless : m.endlessClass? = none) {c d : ClassId}
    {s : Subsignature} (hd : m.Inherits c d)
    (habstract : ∀ y, (m.cls c).declaredMethod? s = some y → (m.method y).isAbstract = true) :
    m.dispatch? c s = m.dispatch? d s := by
  have hc : m.IsClass c := Below.isClass (Or.inl hd)
  ext x
  rw [dispatch?_eq_some_iff hendless hc, dispatch?_eq_some_iff hendless ((hm.cls hc).superclass d hd),
    dispatches_iff, concreteMethod?_eq_none_iff.2 habstract]
  constructor
  · rintro (h | ⟨-, e, he, hx⟩)
    · cases h
    · exact hd.unique he ▸ hx
  · exact fun hx => Or.inr ⟨rfl, d, hd, hx⟩

/-- Members are sought along the superclasses, and the nearest is found. -/
structure NearestFirst (m : Model) : Prop where
  dispatch_settles : ∀ c s, m.IsClass c → m.Settles (m.concreteMethod? s) c (m.dispatch? c s)
  field_settles : ∀ c name, m.IsClass c →
    m.Settles (fun d => (m.cls d).declaredField? name) c (m.resolveField? c name)
  dispatch_eq_some_iff : ∀ c s x, m.IsClass c → (m.dispatch? c s = some x ↔ m.Nearest s c x)
  dispatch_eq_none_iff : ∀ c s, m.IsClass c → (m.dispatch? c s = none ↔
    ∀ a, Relation.ReflTransGen m.Inherits c a →
      ∀ y, (m.cls a).declaredMethod? s = some y → (m.method y).isAbstract = true)
  dispatch_eq_above : ∀ c d s, m.Inherits c d →
    (∀ y, (m.cls c).declaredMethod? s = some y → (m.method y).isAbstract = true) →
    m.dispatch? c s = m.dispatch? d s

theorem nearestFirst (hm : m.Scoped) (hendless : m.endlessClass? = none) : m.NearestFirst := by
  have hacyclic := (endlessClass?_eq_none_iff hm).1 hendless
  have hends : ∀ {c}, m.IsClass c → m.endsWithin m.classes.size c = true := fun hc =>
    endsWithin_of_acyclic hm hacyclic hc
  exact {
    dispatch_settles := fun c s hc => settles_of_endsWithin _ (hends hc)
    field_settles := fun c name hc => settles_of_endsWithin _ (hends hc)
    dispatch_eq_some_iff := fun c s x hc => by
      rw [dispatch?_eq_some_iff hendless hc, dispatches_iff_nearest hacyclic]
    dispatch_eq_none_iff := fun c s hc => dispatch?_eq_none_iff hm hendless hc
    dispatch_eq_above := fun c d s hd habstract => dispatch?_eq_of_inherits hm hendless hd habstract }

end Model

/-! ### What is refused as a cycle -/

theorem findSome?_ne_some {α β : Type} {f : α → Option β} {e : β} (h : ∀ a, f a ≠ some e) (l : List α) :
    l.findSome? f ≠ some e := by
  intro hsome
  obtain ⟨a, -, ha⟩ := List.exists_of_findSome?_eq_some hsome
  exact h a ha

namespace Program

variable {p : Program} {x : MethodId} {cls : String}

theorem varsFault?_ne_hierarchyCycle {vs : List VarId} :
    p.varsFault? x vs ≠ some (.hierarchyCycle cls) := by
  refine findSome?_ne_some (fun v => ?_) vs
  rw [varFault?]
  split <;> simp

theorem fieldFault?_ne_hierarchyCycle {f : FieldId} {isStatic : Bool} :
    p.fieldFault? f isStatic ≠ some (.hierarchyCycle cls) := by
  rw [fieldFault?]
  split <;> simp

theorem arityFault?_ne_hierarchyCycle {i : CallId} : p.arityFault? i x ≠ some (.hierarchyCycle cls) := by
  simp only [arityFault?]
  split <;> simp

theorem receiverFault?_ne_hierarchyCycle {i : CallId} :
    p.receiverFault? i ≠ some (.hierarchyCycle cls) := by
  rw [receiverFault?]
  split <;> simp

theorem targetFault?_ne_hierarchyCycle {i : CallId} : p.targetFault? i ≠ some (.hierarchyCycle cls) := by
  have hcandidates := findSome?_ne_some (f := p.arityFault? i) (e := .hierarchyCycle cls)
    (fun callee => arityFault?_ne_hierarchyCycle) (p.virtualCandidates (p.call i))
  rw [targetFault?]
  cases (p.call i).kind with
  | static | special =>
    cases p.callee? none (p.call i) with
    | none => simp
    | some callee => exact arityFault?_ne_hierarchyCycle
  | virtual | interface => exact hcandidates
  | dynamic => exact nofun

theorem stmtFault?_ne_hierarchyCycle {s : Stmt} : p.stmtFault? x s ≠ some (.hierarchyCycle cls) := by
  cases s <;> simp [stmtFault?, varsFault?_ne_hierarchyCycle, fieldFault?_ne_hierarchyCycle,
    receiverFault?_ne_hierarchyCycle, targetFault?_ne_hierarchyCycle]

theorem fault?_ne_hierarchyCycle : p.fault? ≠ some (.hierarchyCycle cls) := by
  have hentry : p.entryFault? ≠ some (.hierarchyCycle cls) := by
    rw [entryFault?]
    split <;> simp
  have hmethods := findSome?_ne_some (f := p.methodFault?) (e := .hierarchyCycle cls)
    (fun x => findSome?_ne_some (fun s => stmtFault?_ne_hierarchyCycle) _) p.methodIds
  simp [fault?, hentry, hmethods]

end Program

namespace Builder

variable {b : Builder}

theorem build_eq_hierarchyCycle_iff {name : String} :
    b.build = .error (.hierarchyCycle name) ↔
      b.entry.isSome = true ∧ ∃ c, b.endlessClass? = some c ∧ b.className c = name := by
  rw [build]
  cases b.entry with
  | none => simp
  | some entry =>
    cases b.endlessClass? with
    | some c => simp
    | none =>
      cases hfault : (Program.ofModel b.toModel entry).fault? with
      | none => simp [hfault]
      | some e =>
        simp only [hfault, Except.error.injEq, reduceCtorEq, false_and, exists_false, and_false, iff_false]
        rintro rfl
        exact Program.fault?_ne_hierarchyCycle hfault

theorem refused_for_cycle_iff (hentry : b.entry.isSome = true) :
    (∃ cls, b.build = .error (.hierarchyCycle cls)) ↔ b.endlessClass? ≠ none := by
  simp only [build_eq_hierarchyCycle_iff, hentry, true_and, Option.ne_none_iff_exists']
  constructor
  · rintro ⟨_, c, hc, -⟩
    exact ⟨c, hc⟩
  · rintro ⟨c, hc⟩
    exact ⟨_, c, hc, rfl⟩

/-- The scan of every chain ends. A cycle is the reason of a refusal just where a class is above itself, and
in a finished program the nearest members are found by searches that end. -/
theorem cycles_refused_nearestFirst (hb : b.Reached) (hentry : b.entry.isSome = true) :
    (∀ c, b.IsClass c → ∀ answer, b.Scans [] c answer ↔ answer = b.endsWithin b.classes.size c) ∧
    ((∃ cls, b.build = .error (.hierarchyCycle cls)) ↔ ∃ c, Relation.TransGen b.Inherits c c) ∧
    ∀ p, b.build = .ok p → p.NearestFirst := by
  have hm := scoped_of_reached hb
  refine ⟨fun c hc answer => ?_, ?_, ?_⟩
  · have hscans := Model.scans_endsWithin hm List.nodup_nil (by simp) hc (Nat.zero_add _).symm
    refine ⟨fun h => h.unique hscans, ?_⟩
    rintro rfl
    exact hscans
  · rw [refused_for_cycle_iff hentry, ne_eq, Model.endlessClass?_eq_none_iff hm]
    simp
  · intro p hp
    obtain ⟨entry, -, hendless, rfl, -⟩ := build_eq_ok hp
    exact Model.nearestFirst hm hendless

/-- `A` has a body for `m()`, `B` below it declares `m()` without one, and `C` below `B` declares nothing. -/
def redeclaring : Builder :=
  empty.performAll
    [.addClass "A" .plain none,
      .addClass "B" .plain (some ⟨0⟩),
      .addClass "C" .plain (some ⟨1⟩),
      .addMethod ⟨0⟩ ⟨"main()"⟩ true false [],
      .addMethod ⟨0⟩ ⟨"m()"⟩ false false [],
      .addMethod ⟨1⟩ ⟨"m()"⟩ false true [],
      .setEntry ⟨0⟩]

/-- `C` runs the method of `A`. With `A` below `B` its chain enters a cycle that it is not on itself. -/
theorem cycles_refused_redeclaring :
    (∃ p, redeclaring.build = .ok p ∧ p.NearestFirst ∧ p.dispatch? ⟨2⟩ ⟨"m()"⟩ = some ⟨1⟩ ∧
      p.Nearest ⟨"m()"⟩ ⟨2⟩ ⟨1⟩) ∧
    (redeclaring.performAll [.setSuperclass ⟨0⟩ (some ⟨1⟩)]).Scans [] ⟨2⟩ false ∧
    ∃ cls, (redeclaring.performAll [.setSuperclass ⟨0⟩ (some ⟨1⟩)]).build =
      .error (.hierarchyCycle cls) := by
  have hreached : redeclaring.Reached := Reached.performAll .empty (by decide +kernel)
  obtain ⟨p, hbuild, hp⟩ := exists_ok_of_any (e := redeclaring.build)
    (f := fun p => decide (p.IsClass ⟨2⟩ ∧ p.dispatch? ⟨2⟩ ⟨"m()"⟩ = some ⟨1⟩)) (by decide +kernel)
  obtain ⟨hc, hdispatch⟩ := of_decide_eq_true hp
  have hnearest := (cycles_refused_nearestFirst hreached (by decide +kernel)).2.2 p hbuild
  have hcyclic : (redeclaring.performAll [.setSuperclass ⟨0⟩ (some ⟨1⟩)]).Reached :=
    hreached.performAll (by decide +kernel)
  obtain ⟨hscans, hrefused, -⟩ := cycles_refused_nearestFirst hcyclic (by decide +kernel)
  refine ⟨⟨p, hbuild, hnearest, hdispatch, (hnearest.dispatch_eq_some_iff _ _ _ hc).1 hdispatch⟩, ?_, ?_⟩
  · exact (hscans ⟨2⟩ (by decide +kernel) false).2 (by decide +kernel)
  · refine hrefused.2 ⟨⟨0⟩, .head (b := ⟨1⟩) ?_ (.single ?_)⟩
    · show ((redeclaring.performAll [.setSuperclass ⟨0⟩ (some ⟨1⟩)]).cls ⟨0⟩).superclass = some ⟨1⟩
      decide +kernel
    · show ((redeclaring.performAll [.setSuperclass ⟨0⟩ (some ⟨1⟩)]).cls ⟨1⟩).superclass = some ⟨0⟩
      decide +kernel

end Builder

end PointsTo
