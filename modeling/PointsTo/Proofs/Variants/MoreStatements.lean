import PointsTo.Proofs.Program.Growth
import PointsTo.Proofs.Variants.Embedding

/-! More statements. A program that is written on keeps the numbers of what it has, and with them whatever
its statements ask for. So its facts stay facts, wherever the new statements are and whatever they do. -/

namespace PointsTo

theorem Model.Grows.embeds {p q : Program} (h : p.Grows q.toModel) (hentry : p.entry = q.entry) :
    Relabeling.id.Embeds p q where
  entry := hentry
  var v hv := congrArg Var.method (h.var v hv)
  lhs i hi := congrArg Site.lhs (h.site i hi)
  object heap i hi := by
    have hsite : q.site i = p.site i := h.site i hi
    have howner := h.declares.owner (p.site i).container
    rw [Relabeling.id_object]
    cases heap with
    | allocationSite =>
      show HeapObject.mk (.site i) (q.site i).cls (some (q.method (q.site i).container).owner) = _
      rw [hsite, howner]
      rfl
    | type =>
      show HeapObject.mk (.merged (q.site i).cls) (q.site i).cls none = _
      rw [hsite]
      rfl
  kind i hi := congrArg Call.kind (h.call i hi)
  receiver i hi := (congrArg Call.receiver (h.call i hi)).trans Option.map_id_apply.symm
  args i hi := (congrArg Call.args (h.call i hi)).trans (List.map_id _).symm
  result i hi := (congrArg Call.result (h.call i hi)).trans Option.map_id_apply.symm
  callee i hi receiver _ x hx := by
    have hreceiver : receiver.map Relabeling.id.cls = receiver := Option.map_id_apply
    have hcall : q.call (Relabeling.id.call i) = p.call i := h.call i hi
    rw [hreceiver, hcall, h.declares.callee?]
    exact hx
  this x _ := (h.declares.this x).trans Option.map_id_apply.symm
  params x _ := (congrArg Array.toList (h.declares.params x)).trans (List.map_id _).symm
  returns x _ v hv := h.returns x v hv
  body x _ s hs := by
    rw [Relabeling.id_stmt]
    exact h.body x s hs

namespace Analysis

/-- Whatever is added to the bodies of its methods, the facts about a program stay facts about it, and it is
answered no less than before. -/
theorem facts_le_of_more_statements {b : Builder} (hb : b.Reached) {cs : List Builder.Command}
    (hcs : b.AllAllowed cs) (hwrites : ∀ c ∈ cs, c.isWrite = true) {entry : MethodId}
    (hentry : b.IsMethod entry) {p q : Program} (hp : (b.setEntry entry).build = .ok p)
    (hq : ((b.performAll cs).setEntry entry).build = .ok q) {σ : Selector} {h : HeapModel}
    {r r' : Result} (hr : (⟨p, σ, h⟩ : Analysis).Finishes r)
    (hr' : (⟨q, σ, h⟩ : Analysis).Finishes r') :
    r.state.facts ≤ r'.state.facts ∧ r.answers.Within r'.answers := by
  have hgrows := Builder.grows_performAll (b := b) hwrites
  have haccepted : p.Accepted := ⟨_, hb.step (.setEntry entry) hentry, hp⟩
  have haccepted' : q.Accepted :=
    ⟨_, (hb.performAll hcs).step (.setEntry entry) (hgrows.fits.isMethod hentry), hq⟩
  obtain ⟨x, hx, -, rfl, -⟩ := Builder.build_eq_ok hp
  obtain ⟨y, hy, -, rfl, -⟩ := Builder.build_eq_ok hq
  obtain rfl := Option.some.inj hx
  obtain rfl := Option.some.inj hy
  have hembeds : Relabeling.id.Embeds (Program.ofModel b.toModel entry)
      (Program.ofModel (b.performAll cs).toModel entry) := hgrows.embeds rfl
  obtain ⟨hle, hsends⟩ := hembeds.finishes haccepted haccepted' hr hr'
  rw [Relabeling.id_preimage] at hle
  exact ⟨hle, hsends.within⟩

/-- The method of the small program overwrites its parameter before it returns it. -/
theorem facts_le_of_more_statements_identity :
    ∃ p q r r', (Builder.identity.setEntry ⟨0⟩).build = .ok p ∧
      ((Builder.identity.performAll [.pushNew ⟨1⟩ ⟨1⟩ ⟨0⟩]).setEntry ⟨0⟩).build = .ok q ∧
      (⟨p, .object 1 0, .allocationSite⟩ : Analysis).Finishes r ∧
      (⟨q, .object 1 0, .allocationSite⟩ : Analysis).Finishes r' ∧
      r.state.facts ≤ r'.state.facts ∧ r.answers.Within r'.answers := by
  have hreached : Builder.identity.Reached := Builder.Reached.performAll .empty (by decide +kernel)
  obtain ⟨p, hp, hfinishes⟩ := exists_ok_of_any (e := (Builder.identity.setEntry ⟨0⟩).build)
    (f := fun p => ((⟨p, .object 1 0, .allocationSite⟩ : Analysis).result .fifo none).isOk)
    (by decide +kernel)
  obtain ⟨q, hq, hfinishes'⟩ := exists_ok_of_any
    (e := ((Builder.identity.performAll [.pushNew ⟨1⟩ ⟨1⟩ ⟨0⟩]).setEntry ⟨0⟩).build)
    (f := fun q => ((⟨q, .object 1 0, .allocationSite⟩ : Analysis).result .lifo none).isOk)
    (by decide +kernel)
  obtain ⟨r, hr⟩ := exists_eq_ok hfinishes
  obtain ⟨r', hr'⟩ := exists_eq_ok hfinishes'
  have hfirst : (⟨p, .object 1 0, .allocationSite⟩ : Analysis).Finishes r := ⟨_, _, hr⟩
  have hsecond : (⟨q, .object 1 0, .allocationSite⟩ : Analysis).Finishes r' := ⟨_, _, hr'⟩
  exact ⟨p, q, r, r', hp, hq, hfirst, hsecond, facts_le_of_more_statements hreached (by decide +kernel)
    (by decide) (by decide +kernel) hp hq hfirst hsecond⟩

end Analysis

end PointsTo
