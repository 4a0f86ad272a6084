import PointsTo.Proofs.Variants.CorrespondingPrograms

/-! Order of declaration. A description is read whatever order it is in, or in no order at all, and what is
found out about the programs differs in the numbers of things only. -/

namespace PointsTo

/-! ### Bijections -/

theorem bijOn_of_undone {α : Type} {S T : α → Prop} {f g : α → α} (hf : ∀ i, S i → T (f i))
    (hg : ∀ j, T j → S (g j)) (hgf : ∀ i, S i → g (f i) = i) (hfg : ∀ j, T j → f (g j) = j) :
    Set.BijOn f {i | S i} {j | T j} := by
  have hinv : Set.InvOn g f {i | S i} {j | T j} := ⟨hgf, hfg⟩
  exact hinv.bijOn hf hg

/-- Each thing of the first model becomes a thing of the second, and none is left over. -/
structure Relabeling.Bijective (ρ : Relabeling) (m n : Model) : Prop where
  cls : Set.BijOn ρ.cls {c | m.IsClass c} {c | n.IsClass c}
  field : Set.BijOn ρ.field {f | m.IsField f} {f | n.IsField f}
  method : Set.BijOn ρ.method {x | m.IsMethod x} {x | n.IsMethod x}
  var : Set.BijOn ρ.var {v | m.IsVar v} {v | n.IsVar v}
  site : Set.BijOn ρ.site {i | m.IsSite i} {i | n.IsSite i}
  call : Set.BijOn ρ.call {i | m.IsCall i} {i | n.IsCall i}

namespace Description

/-- Things go where the rearrangement sends them. A class, a member of a class and a statement of a method
get the places that their descriptions get, a variable is the one of the same name in the method. -/
structure Rearrangement.Induces (π : Rearrangement) (ρ : Relabeling) (m n : Model) : Prop
    extends ρ.Bijective m n where
  place : ∀ c, m.IsClass c → (ρ.cls c).index = π.cls c.index
  fields : ∀ c k e, (m.cls c).fields[k]? = some e →
    (n.cls (ρ.cls c)).fields[(π.members c.index).field k]? = some (e.1, ρ.field e.2)
  methods : ∀ c k e, (m.cls c).methods[k]? = some e →
    (n.cls (ρ.cls c)).methods[(π.members c.index).method k]? = some (e.1, ρ.method e.2) ∧
      ∀ j, (n.method (ρ.method e.2)).body[(π.members c.index).stmt k j]? =
        ((m.method e.2).body[j]?).map ρ.stmt
  vars : ∀ v, m.IsVar v → (n.var (ρ.var v)).name = (m.var v).name ∧
    (n.var (ρ.var v)).method = ρ.method (m.var v).method

namespace Rearranged

variable {π : Rearrangement} {d d' : Description} (h : d.Rearranged π d')

include h

theorem induces {b b' : Builder} (hb : b.Reached) (hb' : b'.Reached) (hd : b.Realizes d)
    (hd' : b'.Realizes d') : π.Induces (π.relabeling b.toModel b'.toModel) b.toModel b'.toModel := by
  have hm := Builder.registered_of_reached hb
  have hn := Builder.registered_of_reached hb'
  have hkeeps := h.keepsBodies hb hb' hd hd'
  have hback := h.symm.keepsBodies hb' hb hd' hd
  have hundone := h.undoneBy hb hb' hd hd'
  have hundone' := h.undoes hb hb' hd hd'
  constructor
  case toBijective =>
    constructor
    · exact bijOn_of_undone (fun c => (hkeeps.isClass c).2) (fun c => (hback.isClass c).2)
        (fun c _ => hundone.cls c) fun c _ => hundone'.cls c
    · exact bijOn_of_undone (fun f hf => (hkeeps.field f hf).1) (fun f hf => (hback.field f hf).1)
        hundone.field hundone'.field
    · exact bijOn_of_undone (fun x hx => (hkeeps.method x hx).1) (fun x hx => (hback.method x hx).1)
        hundone.method hundone'.method
    · exact bijOn_of_undone (fun v hv => (hkeeps.var v hv).1) (fun v hv => (hback.var v hv).1)
        hundone.var hundone'.var
    · exact bijOn_of_undone (fun i hi => (hkeeps.site i hi).1) (fun i hi => (hback.site i hi).1)
        hundone.site hundone'.site
    · exact bijOn_of_undone (fun i hi => (hkeeps.call i hi).1) (fun i hi => (hback.call i hi).1)
        hundone.call hundone'.call
  case place => exact fun _ _ => rfl
  case fields => exact fun c k e he => (h.exists_field hd hd' hm hn he).1
  case methods =>
    intro c k e he
    refine ⟨(h.exists_entry hd hd' hm hn he).1, fun j => ?_⟩
    obtain ⟨hmethod, -, howner⟩ := hm.key_of_mem_methods (Array.mem_of_getElem? he)
    have hstmts : π.stmtsOf b.toModel e.2 = (π.members c.index).stmt k := by
      rw [Rearrangement.stmtsOf, howner, hm.placeOf_eq he]
    rw [← hstmts]
    exact hkeeps.body e.2 hmethod j
  case vars =>
    intro v hv
    exact (h.isVar_varId hd hd' hm hn hv ((Builder.scoped_of_reached hb).var hv)).2

/-! ### Reading -/

theorem isEntry {m n : Model} (hd : m.Realizes d) (hd' : n.Realizes d') (hm : m.Registered)
    (hn : n.Registered) {x : MethodId} (hx : d.IsEntry m x) : d'.IsEntry n (π.methodId m n x) := by
  obtain ⟨c, s, href, hx⟩ := hx
  refine ⟨π.classId c, s, ?_, ?_⟩
  · rw [h.entry]
    exact (h.keepsClasses hd.toDeclares hd'.toDeclares hm hn).refersTo href
  · rw [h.declaredMethod? hd hd' hm, hx]
    rfl

theorem exists_toBuilder {b : Builder} (hb : d.toBuilder = .ok b) : ∃ b', d'.toBuilder = .ok b' := by
  obtain ⟨hd, x, hentry, -⟩ := realizes_of_toBuilder hb
  have hm := Builder.registered_of_reached (reached_toBuilder hb)
  apply Description.exists_toBuilder
  case hnames => exact h.nodup_names (hd.nodup_names hm)
  case hlinked => exact fun c hc => h.wellLinked (fun c hc => hd.wellLinked hm hc) hc
  case hsignatures => exact fun c hc => h.nodup_signatures (fun c hc => hd.nodup_signatures hc hm) hc
  case hresolves =>
    intro n hn hd' c' hc' x' hx' s hs
    obtain ⟨c, hc, x, hx, hs⟩ := h.exists_of_mem_body hc' hx' hs
    exact (h.keepsClasses hd.toDeclares hd' hm hn).resolves (hd.resolves hc hx hs)
  case hentry => exact fun n hn hd' => ⟨_, h.isEntry hd hd' hm hn hentry⟩

end Rearranged

theorem IsEntry.unique {d : Description} {m : Model} {x y : MethodId} (hx : d.IsEntry m x)
    (hy : d.IsEntry m y) : y = x := by
  obtain ⟨c, s, href, hx⟩ := hx
  obtain ⟨c', s', href', hy⟩ := hy
  obtain ⟨rfl, rfl⟩ := href.unique href'
  exact Option.some.inj (hy.symm.trans hx)

/-- A description that is read as a program, with the builder in between. -/
structure Reads (d : Description) (p : Program) (b : Builder) : Prop where
  reached : b.Reached
  realizes : b.Realizes d
  isEntry : d.IsEntry b.toModel p.entry
  program : p = Program.ofModel b.toModel p.entry
  endless : b.endlessClass? = none

theorem exists_reads {d : Description} {p : Program} (hp : d.toProgram = .ok p) :
    ∃ b, d.toBuilder = .ok b ∧ d.Reads p b := by
  obtain ⟨b, hb, hbuild⟩ := exists_of_bind_eq_ok hp
  obtain ⟨x, hx, hendless, rfl, -⟩ := Builder.build_eq_ok hbuild
  obtain ⟨hrealizes, y, hentry, hy⟩ := realizes_of_toBuilder hb
  obtain rfl := Option.some.inj (hx.symm.trans hy)
  exact ⟨b, hb, reached_toBuilder hb, hrealizes, hentry, rfl, hendless⟩

namespace Rearranged

variable {π : Rearrangement} {d d' : Description} (h : d.Rearranged π d')

include h

/-- What is found to be at fault in a program is so in any order. -/
theorem exists_toProgram {p : Program} (hp : d.toProgram = .ok p) : ∃ q, d'.toProgram = .ok q := by
  obtain ⟨b, hb, hreached, hd, hentry, hprogram, hendless⟩ := exists_reads hp
  obtain ⟨b', hb'⟩ := h.exists_toBuilder hb
  obtain ⟨hd', y, hentry', hy⟩ := realizes_of_toBuilder hb'
  have hreached' := reached_toBuilder hb'
  have hm := Builder.registered_of_reached hreached
  have hn := Builder.registered_of_reached hreached'
  have hkeeps := h.keepsBodies hreached hreached' hd hd'
  have hback := h.symm.keepsBodies hreached' hreached hd' hd
  have hundone := h.undoes hreached hreached' hd hd'
  obtain rfl := (h.isEntry hd hd' hm hn hentry).unique hentry'
  have haccepted : (Program.ofModel b.toModel p.entry).Accepted := by
    rw [← hprogram]
    exact accepted_toProgram hp
  have hfault := hkeeps.fault?_eq_none (Builder.scoped_of_reached hreached)
    (Builder.scoped_of_reached hreached') haccepted fun y hy =>
      ⟨_, (hback.method y hy).1, hundone.method y hy⟩
  have hendless' := hkeeps.endlessClass?_eq_none hendless
  refine ⟨Program.ofModel b'.toModel (π.methodId b.toModel b'.toModel p.entry), ?_⟩
  have hbuild : b'.build =
      .ok (Program.ofModel b'.toModel (π.methodId b.toModel b'.toModel p.entry)) := by
    have hnone : (Program.ofModel b'.toModel (π.methodId b.toModel b'.toModel p.entry)).fault? = none :=
      hfault
    simp only [Builder.build, hy, hendless', hnone]
  rw [toProgram, hb']
  exact hbuild

end Rearranged

/-- The order in which things are declared and in which the statements of a method stand is of no account.
In any order the description is accepted or in none. The programs have the same things in other numbers, and
in these numbers an analysis of the one comes to what the same analysis of the other comes to, whatever the
orders of work are; the call graphs of the hierarchy correspond as well. -/
theorem order_irrelevant {π : Rearrangement} {d d' : Description} (h : d.Rearranged π d') :
    ((∃ p, d.toProgram = .ok p) ↔ ∃ q, d'.toProgram = .ok q) ∧
      ∀ p q, d.toProgram = .ok p → d'.toProgram = .ok q →
        ∃ ρ, π.Induces ρ p.toModel q.toModel ∧
          ρ.CarriesGraph p.hierarchyCallGraph q.hierarchyCallGraph ∧
          ∀ σ heap r r', (⟨p, σ, heap⟩ : Analysis).Finishes r → (⟨q, σ, heap⟩ : Analysis).Finishes r' →
            r'.state.facts = ρ.image r.state.facts ∧ ρ.Carries ⟨p, σ, heap⟩ r.answers r'.answers ∧
              ∀ y, y ∈ r'.unreachableMethods ↔ ∃ x ∈ r.unreachableMethods, ρ.method x = y := by
  refine ⟨⟨?_, ?_⟩, ?_⟩
  · intro hexists
    obtain ⟨p, hp⟩ := hexists
    exact h.exists_toProgram hp
  · intro hexists
    obtain ⟨q, hq⟩ := hexists
    exact h.symm.exists_toProgram hq
  · intro p q hp hq
    have haccepted := accepted_toProgram hp
    have haccepted' := accepted_toProgram hq
    obtain ⟨b, -, hb, hd, hx, hprogram, -⟩ := exists_reads hp
    obtain ⟨b', -, hb', hd', hx', hprogram', -⟩ := exists_reads hq
    have hmodel : p.toModel = b.toModel := congrArg Program.toModel hprogram
    have hmodel' : q.toModel = b'.toModel := congrArg Program.toModel hprogram'
    have hinduces := h.induces hb hb' hd hd'
    have hkeeps := h.keepsBodies hb hb' hd hd'
    have hback := h.symm.keepsBodies hb' hb hd' hd
    have hundone := h.undoneBy hb hb' hd hd'
    have hundoes := h.undoes hb hb' hd hd'
    have hentry : π.methodId b.toModel b'.toModel p.entry = q.entry :=
      hx'.unique (h.isEntry hd hd' (Builder.registered_of_reached hb) (Builder.registered_of_reached hb') hx)
    rw [← hmodel, ← hmodel'] at hinduces hkeeps hback hundone hundoes hentry
    refine ⟨π.relabeling p.toModel q.toModel, hinduces, ?_, fun σ heap r r' hr hr' => ⟨?_, ?_, fun y => ?_⟩⟩
    · exact hkeeps.carriesGraph hentry haccepted haccepted'
    · exact Relabeling.facts_eq_image hkeeps hback hundone hundoes hentry haccepted haccepted' hr hr'
    · exact Relabeling.carries_answers hkeeps hback hundone hundoes hentry haccepted haccepted' hr hr'
    · exact Relabeling.mem_unreachableMethods_iff hkeeps hback hundone hundoes hentry haccepted haccepted'
        hr hr'

/-! ### A small rearrangement -/

/-- `x = new B; y = x.id(x)`, where the method returns its parameter. -/
def small : Description where
  entry := "A.main()"
  classes :=
    [{ name := "A"
       fields := [{ name := "f" }, { name := "g", isStatic := true }]
       methods :=
        [{ signature := "main()", isStatic := true
           body := [.new "x" "B", .invoke .virtual "A.id(A)" (some "x") ["x"] (some "y")] },
         { signature := "id(A)", params := ["p"], body := [.ret (some "p")] }] },
     { name := "B", superclass := some "A" }]

/-- The same with each pair the other way round. -/
def smallReversed : Description where
  entry := "A.main()"
  classes :=
    [{ name := "B", superclass := some "A" },
     { name := "A"
       fields := [{ name := "g", isStatic := true }, { name := "f" }]
       methods :=
        [{ signature := "id(A)", params := ["p"], body := [.ret (some "p")] },
         { signature := "main()", isStatic := true
           body := [.invoke .virtual "A.id(A)" (some "x") ["x"] (some "y"), .new "x" "B"] }] }]

def Rearrangement.reversal : Rearrangement where
  cls := Equiv.swap 0 1
  members _ :=
    { field := Equiv.swap 0 1
      method := Equiv.swap 0 1
      stmt := fun k => if k = 0 then Equiv.swap 0 1 else Equiv.refl _ }

theorem rearranged_small : small.Rearranged .reversal smallReversed := by
  refine ⟨rfl, .swap ⟨rfl, rfl, rfl, rfl, rfl, ?_, ?_⟩ ⟨rfl, rfl, rfl, rfl, rfl, .nil _ _, .nil _ _⟩⟩
  · exact .swap rfl rfl
  · exact .swap ⟨rfl, rfl, rfl, rfl, .swap rfl rfl⟩ ⟨rfl, rfl, rfl, rfl, .refl _⟩

/-- The method that is called comes before its caller then, and the call before the allocation. -/
theorem order_irrelevant_small : ∃ p q r r', small.toProgram = .ok p ∧ smallReversed.toProgram = .ok q ∧
    (⟨p, .object 1 1, .allocationSite⟩ : Analysis).Finishes r ∧
      (⟨q, .object 1 1, .allocationSite⟩ : Analysis).Finishes r' ∧
      ∃ ρ, Rearrangement.reversal.Induces ρ p.toModel q.toModel ∧
        ρ.CarriesGraph p.hierarchyCallGraph q.hierarchyCallGraph ∧
        r'.state.facts = ρ.image r.state.facts := by
  obtain ⟨p, hp, hfinishes⟩ := exists_ok_of_any (e := small.toProgram)
    (f := fun p => ((⟨p, .object 1 1, .allocationSite⟩ : Analysis).result .fifo none).isOk)
    (by decide +kernel)
  obtain ⟨q, hq, hfinishes'⟩ := exists_ok_of_any (e := smallReversed.toProgram)
    (f := fun q => ((⟨q, .object 1 1, .allocationSite⟩ : Analysis).result .lifo none).isOk)
    (by decide +kernel)
  obtain ⟨r, hr⟩ := exists_eq_ok hfinishes
  obtain ⟨r', hr'⟩ := exists_eq_ok hfinishes'
  obtain ⟨ρ, hinduces, hgraph, hresults⟩ := (order_irrelevant rearranged_small).2 p q hp hq
  obtain ⟨hfacts, -⟩ := hresults _ _ r r' ⟨_, _, hr⟩ ⟨_, _, hr'⟩
  exact ⟨p, q, r, r', hp, hq, ⟨_, _, hr⟩, ⟨_, _, hr'⟩, ρ, hinduces, hgraph, hfacts⟩

end Description

end PointsTo
