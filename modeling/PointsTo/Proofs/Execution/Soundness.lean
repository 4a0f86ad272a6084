import PointsTo.Proofs.Execution.View
import PointsTo.Proofs.Result.Answers

/-! Soundness. Whatever an execution does, each of its steps is seen by closed facts, and so by the
result of a finished analysis: the methods that run, the calls that are made, what variables, fields and
array elements hold, and which variables hold one object. -/

namespace PointsTo

/-- A method is entered under the context of the call edge. -/
theorem View.Sees.entered {a : Analysis} {F : Facts} {σ : View} (hF : a.Closed F) {i : Nat}
    {f : Frame} {c : CallId} {x : MethodId} {receiver : Option Ref}
    {d e : ContextOf HeapObject} (hd : σ.contexts[i]? = some d) (hsees : σ.Sees a F d f)
    (hedge : ⟨(a.program.call c).kind, ⟨d, c⟩, ⟨e, x⟩⟩ ∈ F.calls)
    (hthis : ∀ this, (a.program.method x).this = some this → σ.Holds F (.var e this) receiver) :
    σ.Sees a F e (World.entered a.program i f c x receiver) := by
  have hwires := hF.wires _ hedge
  have hstart : σ.Sees a F e ⟨x, fun _ => none, some (i, c)⟩ := by
    refine ⟨hwires.callee, fun _ => View.Holds.none, ?_⟩
    rintro _ _ ⟨⟩
    exact ⟨d, hd, hedge⟩
  have hpass : ∀ arg param,
      (arg, param) ∈ (a.program.call c).args.zip (a.program.method x).params.toList →
      σ.Holds F (.var e param) (f.locals arg) := by
    intro arg param hmem
    exact (hsees.locals arg).flow hF (hwires.argument arg param hmem)
  rw [World.entered]
  cases hmem : (a.program.method x).this with
  | none => exact hstart.pass hpass
  | some this => exact (hstart.assign (hthis this hmem)).pass hpass

namespace View.Abstracts

variable {a : Analysis} {F : Facts} {σ : View} {w w' : World}

section Step

variable (hp : a.program.Accepted) (hF : a.Closed F) (h : σ.Abstracts a F w)

include hp hF h

/-- A statement that finds an object at a variable of its frame. -/
theorem meets {i : Nat} {f : Frame} {s : Stmt} {v : VarId} {r : Ref}
    (hexec : w.Executes a.program i f s) (hv : v ∈ a.program.varsOf s) (hvalue : f.locals v = some r) :
    ∃ c o, σ.contexts[i]? = some c ∧ σ.Sees a F c f ∧ σ.objects[r]? = some o ∧
      (.var c v, o) ∈ F.pointsTo ∧ a.Meets F c v o s := by
  obtain ⟨c, hc, hsees⟩ := h.frame i f hexec.frame
  obtain ⟨o, ho, hpointsTo⟩ := hsees.locals v r hvalue
  refine ⟨c, o, hc, hsees, ho, hpointsTo, hF.meets c v o hpointsTo s ?_⟩
  rw [hp.method_of_mem_varsOf hexec.stmt hv]
  exact hexec.stmt

/-- The edge of a call that enters a method, and the object that it passes as the receiver. -/
theorem invokes {i : Nat} {f : Frame} {c : CallId} {x : MethodId} {receiver : Option Ref}
    (hexec : w.Executes a.program i f (.invoke c))
    (hx : w.Invokes a.program f (a.program.call c) x receiver) :
    ∃ d e, σ.contexts[i]? = some d ∧ σ.Sees a F d f ∧
      ⟨(a.program.call c).kind, ⟨d, c⟩, ⟨e, x⟩⟩ ∈ F.calls ∧
      ∀ this, (a.program.method x).this = some this → σ.Holds F (.var e this) receiver := by
  have hreceives : ∀ {v r}, (a.program.call c).receiver = some v → f.locals v = some r →
      (∀ s, w.sites[r]? = some s →
        a.program.callee? (some (a.program.site s).cls) (a.program.call c) = some x) →
      ∃ d e, σ.contexts[i]? = some d ∧ σ.Sees a F d f ∧
        ⟨(a.program.call c).kind, ⟨d, c⟩, ⟨e, x⟩⟩ ∈ F.calls ∧
        ∀ this, (a.program.method x).this = some this → σ.Holds F (.var e this) (some r) := by
    intro v r hreceiver hvalue hcallee
    have hv : v ∈ a.program.varsOf (.invoke c) := by
      simp only [Model.varsOf, List.mem_append, Option.mem_toList]
      exact Or.inl (Or.inl hreceiver)
    obtain ⟨d, o, hd, hsees, ho, -, hmeets⟩ := h.meets hp hF hexec hv hvalue
    obtain ⟨s, hs, hobject⟩ := h.site ho
    have htype : o.item.type = (a.program.site s).cls := by
      rw [← hobject]
      cases hheap : a.heap <;> rfl
    obtain ⟨hedge, hthis⟩ := hmeets hreceiver x (htype ▸ hcallee s hs)
    refine ⟨d, _, hd, hsees, hedge, fun this hmem => ?_⟩
    rintro _ ⟨⟩
    exact ⟨o, ho, hthis this hmem⟩
  cases hx with
  | static hkind hcallee =>
    obtain ⟨d, hd, hsees⟩ := h.frame i f hexec.frame
    have hreads := hF.reads ⟨d, f.method⟩ hsees.reach (.invoke c) hexec.stmt
    refine ⟨d, _, hd, hsees, hreads ?_ x hcallee, fun _ _ => View.Holds.none⟩
    rw [Call.isStatic, hkind]
    rfl
  | special hkind hreceiver hvalue hcallee =>
    apply hreceives hreceiver hvalue
    intro s _
    -- the class of the receiver does not count
    simpa only [Model.callee?, hkind] using hcallee
  | dispatched hkind hreceiver hvalue hsite hcallee =>
    apply hreceives hreceiver hvalue
    intro s hs
    obtain rfl := Option.some.inj (hsite.symm.trans hs)
    rw [Model.callee?]
    rcases hkind with hkind | hkind
    · rw [hkind]
      exact hcallee
    · rw [hkind]
      exact hcallee

theorem step (hstep : w.Step a.program w') : ∃ σ' : View, σ'.Abstracts a F w' := by
  cases hstep with
  | @new i f s hexec =>
    obtain ⟨c, hc, hsees⟩ := h.frame i f hexec.frame
    have hreads := hF.reads ⟨c, f.method⟩ hsees.reach _ hexec.stmt
    have hallocate := h.allocate (s := s) (c := a.selector.heapContext c)
    refine ⟨_, hallocate.assign hc fun r hr => ?_⟩
    obtain rfl := Option.some.inj hr
    rw [← h.length_objects]
    exact ⟨_, List.getElem?_concat_length, hreads⟩
  | @copy i f lhs rhs hexec =>
    obtain ⟨c, hc, hsees⟩ := h.frame i f hexec.frame
    have hreads := hF.reads ⟨c, f.method⟩ hsees.reach _ hexec.stmt
    exact ⟨σ, h.assign hc ((hsees.locals rhs).flow hF hreads)⟩
  | @loadStatic i f lhs field hexec =>
    obtain ⟨c, hc, hsees⟩ := h.frame i f hexec.frame
    have hreads := hF.reads ⟨c, f.method⟩ hsees.reach _ hexec.stmt
    exact ⟨σ, h.assign hc ((h.statics field).flow hF hreads)⟩
  | @storeStatic i f field rhs hexec =>
    obtain ⟨c, -, hsees⟩ := h.frame i f hexec.frame
    have hreads := hF.reads ⟨c, f.method⟩ hsees.reach _ hexec.stmt
    exact ⟨σ, h.setStatic ((hsees.locals rhs).flow hF hreads)⟩
  | @loadField i f lhs base field r hexec hbase =>
    obtain ⟨c, o, hc, -, ho, -, hmeets⟩ := h.meets hp hF hexec (by simp [Model.varsOf]) hbase
    refine ⟨σ, h.assign hc fun x hx => ?_⟩
    obtain ⟨o', ho', hholds⟩ := h.fields r field x hx
    obtain rfl := Option.some.inj (ho.symm.trans ho')
    exact hholds.flow hF (hmeets rfl) x rfl
  | @storeField i f base field rhs r hexec hbase =>
    obtain ⟨c, o, -, hsees, ho, -, hmeets⟩ := h.meets hp hF hexec (by simp [Model.varsOf]) hbase
    exact ⟨σ, h.setField ho ((hsees.locals rhs).flow hF (hmeets rfl))⟩
  | @loadArray i f lhs base r n hexec hbase =>
    obtain ⟨c, o, hc, -, ho, -, hmeets⟩ := h.meets hp hF hexec (by simp [Model.varsOf]) hbase
    refine ⟨σ, h.assign hc fun x hx => ?_⟩
    obtain ⟨o', ho', hholds⟩ := h.elements r n x hx
    obtain rfl := Option.some.inj (ho.symm.trans ho')
    exact hholds.flow hF (hmeets rfl) x rfl
  | @storeArray i f base rhs r n hexec hbase =>
    obtain ⟨c, o, -, hsees, ho, -, hmeets⟩ := h.meets hp hF hexec (by simp [Model.varsOf]) hbase
    exact ⟨σ, h.setElement ho ((hsees.locals rhs).flow hF (hmeets rfl))⟩
  | @enter i f c x receiver hexec hx =>
    obtain ⟨d, e, hd, hsees, hedge, hthis⟩ := h.invokes hp hF hexec hx
    exact ⟨_, h.push (hsees.entered hF hd hedge hthis)⟩
  | @ret i j f c v result hexec hcaller hresult =>
    obtain ⟨e, -, hsees⟩ := h.frame j f hexec.frame
    obtain ⟨d, hd, hedge⟩ := hsees.caller i c hcaller
    have hreturns := hp.mem_returns hexec.stmt
    have hflow := (hF.wires _ hedge).result result hresult v hreturns
    exact ⟨σ, h.assign hd ((hsees.locals v).flow hF hflow)⟩

end Step

section Answers

variable (h : σ.Abstracts a F w)

include h

theorem exists_sees {f : Frame} (hf : f ∈ w.frames) : ∃ c, σ.Sees a F c f := by
  obtain ⟨i, hi⟩ := List.mem_iff_getElem?.1 hf
  obtain ⟨c, -, hsees⟩ := h.frame i f hi
  exact ⟨c, hsees⟩

theorem mem_answers_reachable {f : Frame} (hf : f ∈ w.frames) :
    f.method ∈ (a.answers F).reachable := by
  obtain ⟨c, hsees⟩ := h.exists_sees hf
  exact ⟨c, hsees.reach⟩

theorem mem_answers_calls {f : Frame} (hf : f ∈ w.frames) {i : Nat} {c : CallId}
    (hcaller : f.caller = some (i, c)) :
    ⟨(a.program.call c).kind, c, f.method⟩ ∈ (a.answers F).calls := by
  obtain ⟨e, hsees⟩ := h.exists_sees hf
  obtain ⟨d, -, hedge⟩ := hsees.caller i c hcaller
  exact ⟨_, hedge, rfl⟩

variable {x : Ref}

theorem mem_answers_pointsTo {f : Frame} (hf : f ∈ w.frames) {v : VarId} (hx : f.locals v = some x) :
    ∃ s, w.sites[x]? = some s ∧
      a.heap.object a.program.toModel s ∈ (a.answers F).pointsTo v := by
  obtain ⟨c, hsees⟩ := h.exists_sees hf
  obtain ⟨s, k, hs, hpointsTo⟩ := h.site_of_holds (hsees.locals v) hx
  exact ⟨s, hs, c, k, hpointsTo⟩

theorem mem_answers_statics {f : FieldId} (hx : w.statics f = some x) :
    ∃ s, w.sites[x]? = some s ∧ a.heap.object a.program.toModel s ∈ (a.answers F).statics f := by
  obtain ⟨s, k, hs, hpointsTo⟩ := h.site_of_holds (h.statics f) hx
  exact ⟨s, hs, k, hpointsTo⟩

/-- What is held by an object stands in the facts between what is allocated at the two sites. -/
theorem sites_of_holds (place : Located HeapObject → Place) {b : Ref}
    (hbase : ∃ o, σ.objects[b]? = some o ∧ σ.Holds F (place o) (some x)) :
    ∃ t s, w.sites[b]? = some t ∧ w.sites[x]? = some s ∧ ∃ j k,
      (place ⟨j, a.heap.object a.program.toModel t⟩, ⟨k, a.heap.object a.program.toModel s⟩) ∈
        F.pointsTo := by
  obtain ⟨o, ho, hholds⟩ := hbase
  obtain ⟨t, ht, hobject⟩ := h.site ho
  obtain ⟨s, k, hs, hpointsTo⟩ := h.site_of_holds hholds rfl
  refine ⟨t, s, ht, hs, o.context, k, ?_⟩
  rw [hobject]
  exact hpointsTo

theorem mem_answers_fields {b : Ref} {f : FieldId} (hx : w.fields (b, f) = some x) :
    ∃ t s, w.sites[b]? = some t ∧ w.sites[x]? = some s ∧ a.heap.object a.program.toModel s ∈
      (a.answers F).fields (a.heap.object a.program.toModel t) f :=
  h.sites_of_holds (.field · f) (h.fields b f x hx)

theorem mem_answers_elements {b : Ref} {n : Nat} (hx : w.elements (b, n) = some x) :
    ∃ t s, w.sites[b]? = some t ∧ w.sites[x]? = some s ∧ a.heap.object a.program.toModel s ∈
      (a.answers F).elements (a.heap.object a.program.toModel t) :=
  h.sites_of_holds .elements (h.elements b n x hx)

end Answers

end View.Abstracts

theorem Analysis.Closed.abstracts {a : Analysis} {F : Facts} {w : World} (hF : a.Closed F)
    (hp : a.program.Accepted) (hw : w.Reachable a.program) : ∃ σ : View, σ.Abstracts a F w := by
  induction hw with
  | refl => exact ⟨_, View.Abstracts.initial hF⟩
  | tail _ hstep ih =>
    obtain ⟨σ, hσ⟩ := ih
    exact hσ.step hp hF hstep

/-! ### An execution of the small program -/

/-- The frame of the entry method after `x = new A`. -/
def Frame.identityMain : Frame := Frame.assign ⟨⟨0⟩, fun _ => none, none⟩ ⟨2⟩ (some 0)

/-- The frame that `y = x.id(x)` enters. -/
def Frame.identityCallee : Frame := World.entered .identity 0 .identityMain ⟨0⟩ ⟨1⟩ (some 0)

namespace World

def identityAllocated : World := ((initial .identity).allocate ⟨0⟩).assign 0 ⟨2⟩ (some 0)

def identityCalled : World := identityAllocated.push .identityCallee

def identityReturned : World := identityCalled.assign 0 ⟨3⟩ (Frame.identityCallee.locals ⟨1⟩)

theorem reachable_identityReturned : identityReturned.Reachable .identity := by
  have hentry : Program.identity.entry = ⟨0⟩ := by decide +kernel
  have hlhs : (Program.identity.site ⟨0⟩).lhs = ⟨2⟩ := by decide +kernel
  have hnew : (initial .identity).Step .identity identityAllocated := by
    have hstep := Step.new (w := initial .identity) (p := .identity) (i := 0) (s := ⟨0⟩)
      ⟨rfl, by decide +kernel⟩
    rw [hlhs] at hstep
    exact hstep
  have henter : identityAllocated.Step .identity identityCalled := by
    refine .enter (f := .identityMain) ⟨?_, by decide +kernel⟩ ?_
    · show some (Frame.assign ⟨Program.identity.entry, _, _⟩ _ _) = _
      rw [hentry]
      rfl
    · exact .dispatched (v := ⟨2⟩) (s := ⟨0⟩) (.inl (by decide +kernel)) (by decide +kernel)
        (by decide +kernel) rfl (by decide +kernel)
  have hret : identityCalled.Step .identity identityReturned :=
    .ret (j := 1) (c := ⟨0⟩) ⟨rfl, by decide +kernel⟩ (by decide +kernel) (by decide +kernel)
  exact ((Relation.ReflTransGen.refl.tail hnew).tail henter).tail hret

end World

namespace Analysis

/-- Whatever a world shows, the result answers. -/
structure Covers (a : Analysis) (r : Result) (w : World) : Prop where
  reachable : ∀ f ∈ w.frames, f.method ∈ r.answers.reachable
  calls : ∀ f ∈ w.frames, ∀ i c, f.caller = some (i, c) →
    ⟨(a.program.call c).kind, c, f.method⟩ ∈ r.answers.calls
  locals : ∀ f ∈ w.frames, ∀ v x, f.locals v = some x → ∃ s, w.sites[x]? = some s ∧
    a.heap.object a.program.toModel s ∈ r.answers.pointsTo v
  statics : ∀ f x, w.statics f = some x → ∃ s, w.sites[x]? = some s ∧
    a.heap.object a.program.toModel s ∈ r.answers.statics f
  fields : ∀ b f x, w.fields (b, f) = some x → ∃ t s, w.sites[b]? = some t ∧ w.sites[x]? = some s ∧
    a.heap.object a.program.toModel s ∈ r.answers.fields (a.heap.object a.program.toModel t) f
  elements : ∀ b n x, w.elements (b, n) = some x → ∃ t s, w.sites[b]? = some t ∧
    w.sites[x]? = some s ∧
      a.heap.object a.program.toModel s ∈ r.answers.elements (a.heap.object a.program.toModel t)
  aliases : ∀ f ∈ w.frames, ∀ g ∈ w.frames, ∀ u v x, f.locals u = some x → g.locals v = some x →
    r.mayAlias u v = true

variable {a : Analysis} {order : WorkOrder} {limit : Option Nat} {r : Result} {w : World}

/-- A finished analysis covers every execution of an accepted program. -/
theorem result_covers_reachable (hp : a.program.Accepted) (h : a.result order limit = .ok r)
    (hw : w.Reachable a.program) : a.Covers r w := by
  obtain ⟨F, hF, hanswers⟩ := answers_of_result hp.indexed h
  obtain ⟨σ, hσ⟩ := hF.1.abstracts hp hw
  have haliases : ∀ f ∈ w.frames, ∀ g ∈ w.frames, ∀ u v x, f.locals u = some x →
      g.locals v = some x → r.mayAlias u v = true := by
    intro f hf g hg u v x hu hv
    obtain ⟨s, hs, hus⟩ := hσ.mem_answers_pointsTo hf hu
    obtain ⟨t, ht, hvt⟩ := hσ.mem_answers_pointsTo hg hv
    obtain rfl := Option.some.inj (hs.symm.trans ht)
    rw [mayAlias_iff hp.indexed h, hanswers]
    exact ⟨_, hus, hvt⟩
  constructor
  case reachable =>
    rw [hanswers]
    intro f hf
    exact hσ.mem_answers_reachable hf
  case calls =>
    rw [hanswers]
    intro f hf i c hcaller
    exact hσ.mem_answers_calls hf hcaller
  case locals =>
    rw [hanswers]
    intro f hf v x hx
    exact hσ.mem_answers_pointsTo hf hx
  case statics =>
    rw [hanswers]
    intro f x hx
    exact hσ.mem_answers_statics hx
  case fields =>
    rw [hanswers]
    intro b f x hx
    exact hσ.mem_answers_fields hx
  case elements =>
    rw [hanswers]
    intro b n x hx
    exact hσ.mem_answers_elements hx
  case aliases => exact haliases

/-- The small program has allocated, called and returned. -/
theorem result_covers_reachable_identity :
    ∃ r, (⟨.identity, .object 1 0, .allocationSite⟩ : Analysis).result .fifo none = .ok r ∧
      (⟨.identity, .object 1 0, .allocationSite⟩ : Analysis).Covers r World.identityReturned := by
  obtain ⟨r, hr⟩ := exists_eq_ok
    (e := (⟨.identity, .object 1 0, .allocationSite⟩ : Analysis).result .fifo none)
    (by decide +kernel)
  exact ⟨r, hr, result_covers_reachable Program.accepted_identity hr World.reachable_identityReturned⟩

end Analysis

end PointsTo
