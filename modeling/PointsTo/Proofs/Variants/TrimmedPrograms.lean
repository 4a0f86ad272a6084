import PointsTo.Proofs.Program.Bodies
import PointsTo.Proofs.Program.Uses
import PointsTo.Proofs.Variants.Trimming
import PointsTo.Proofs.Variants.Validity

/-! What a trimmed program says. Of the methods that are kept, a trimmed program says what the program itself
does, in numbers that have closed ranks; it is therefore as valid. -/

namespace PointsTo

/-- The uses of a variable with other numbers for the calls on it. -/
def Uses.mapCalls (f : CallId → CallId) (u : Uses) : Uses := { u with calls := u.calls.map f }

namespace Program

/-- The program with empty bodies for the methods that are not kept. -/
def trim (p : Program) (keep : MethodId → Bool) : Program := .ofModel (p.toModel.trim keep) p.entry

section Kept

variable (p : Program) (keep : MethodId → Bool)

def KeepsSite (i : SiteId) : Prop := p.IsSite i ∧ keep (p.site i).container = true

def KeepsCall (i : CallId) : Prop := p.IsCall i ∧ keep (p.call i).container = true

end Kept

variable {p : Program} {keep : MethodId → Bool}

theorem sameDeclarations_trim : p.SameDeclarations (p.trim keep).toModel := Model.sameDeclarations_trim

theorem method_trim_of_keep {x : MethodId} (hx : keep x = true) : (p.trim keep).method x =
    { p.method x with body := (p.method x).body.map (p.renumber keep).stmt } :=
  (Model.method_trim x).trans (Model.trimMethod_of_keep hx _)

theorem body_trim_of_drop {x : MethodId} (hx : keep x = false) : ((p.trim keep).method x).body = #[] :=
  congrArg Method.body ((Model.method_trim x).trans (Model.trimMethod_of_drop hx _))

/-! ### Sites -/

section Sites

variable {i : SiteId}

theorem getElem?_sites (hi : p.KeepsSite keep i) : p.sites.toList[i.index]? = some (p.site i) := by
  rw [Array.getElem?_toList, Model.site, Array.getD_eq_getD_getElem?, Array.getElem?_eq_getElem hi.1]
  rfl

theorem getElem?_sites_trim (hi : p.KeepsSite keep i) :
    (p.trim keep).sites[((p.renumber keep).site i).index]? = some (p.site i) := by
  have hrank := @getElem?_filter_rank _ (fun s : Site => keep s.container) _ _ _ (getElem?_sites hi) hi.2
  rwa [← Array.toList_filter, Array.getElem?_toList] at hrank

theorem site_trim (hi : p.KeepsSite keep i) :
    (p.trim keep).site ((p.renumber keep).site i) = p.site i := by
  rw [Model.site, Array.getD_eq_getD_getElem?, getElem?_sites_trim hi]
  rfl

theorem site_lt_site {j : SiteId} (hi : p.KeepsSite keep i) (hij : i.index < j.index) :
    ((p.renumber keep).site i).index < ((p.renumber keep).site j).index :=
  @rank_lt_rank _ (fun s : Site => keep s.container) _ _ _ hij _ (getElem?_sites hi) hi.2

theorem exists_site_trim {j : SiteId} (hj : (p.trim keep).IsSite j) :
    ∃ i, p.KeepsSite keep i ∧ (p.renumber keep).site i = j := by
  have hlt : j.index < (p.sites.toList.filter fun s : Site => keep s.container).length := by
    rwa [← Array.toList_filter, Array.length_toList]
  obtain ⟨n, s, hn, hs, hrank⟩ := exists_rank_eq hlt
  rw [Array.getElem?_toList] at hn
  have hsite : p.site ⟨n⟩ = s := by
    rw [Model.site, Array.getD_eq_getD_getElem?, hn]
    rfl
  refine ⟨⟨n⟩, ⟨(Array.getElem?_eq_some_iff.1 hn).1, ?_⟩, Id.ext hrank⟩
  rw [hsite]
  exact hs

end Sites

section Calls

variable {i : CallId}

theorem getElem?_calls (hi : p.KeepsCall keep i) : p.calls.toList[i.index]? = some (p.call i) := by
  rw [Array.getElem?_toList, Model.call, Array.getD_eq_getD_getElem?, Array.getElem?_eq_getElem hi.1]
  rfl

theorem getElem?_calls_trim (hi : p.KeepsCall keep i) :
    (p.trim keep).calls[((p.renumber keep).call i).index]? = some (p.call i) := by
  have hrank := @getElem?_filter_rank _ (fun c : Call => keep c.container) _ _ _ (getElem?_calls hi) hi.2
  rwa [← Array.toList_filter, Array.getElem?_toList] at hrank

theorem call_trim (hi : p.KeepsCall keep i) :
    (p.trim keep).call ((p.renumber keep).call i) = p.call i := by
  rw [Model.call, Array.getD_eq_getD_getElem?, getElem?_calls_trim hi]
  rfl

theorem call_lt_call {j : CallId} (hi : p.KeepsCall keep i) (hij : i.index < j.index) :
    ((p.renumber keep).call i).index < ((p.renumber keep).call j).index :=
  @rank_lt_rank _ (fun c : Call => keep c.container) _ _ _ hij _ (getElem?_calls hi) hi.2

theorem exists_call_trim {j : CallId} (hj : (p.trim keep).IsCall j) :
    ∃ i, p.KeepsCall keep i ∧ (p.renumber keep).call i = j := by
  have hlt : j.index < (p.calls.toList.filter fun c : Call => keep c.container).length := by
    rwa [← Array.toList_filter, Array.length_toList]
  obtain ⟨n, c, hn, hc, hrank⟩ := exists_rank_eq hlt
  rw [Array.getElem?_toList] at hn
  have hcall : p.call ⟨n⟩ = c := by
    rw [Model.call, Array.getD_eq_getD_getElem?, hn]
    rfl
  refine ⟨⟨n⟩, ⟨(Array.getElem?_eq_some_iff.1 hn).1, ?_⟩, Id.ext hrank⟩
  rw [hcall]
  exact hc

end Calls

namespace Accepted

variable (hp : p.Accepted)

include hp

theorem keepsSite_of_mem_body {x : MethodId} (hx : keep x = true) {i : SiteId}
    (h : .new i ∈ (p.method x).body) : p.KeepsSite keep i := by
  refine ⟨(hp.scope.method (Model.isMethod_of_mem_body h)).body _ h, ?_⟩
  rwa [hp.container_of_new_mem_body h]

theorem keepsCall_of_mem_body {x : MethodId} (hx : keep x = true) {i : CallId}
    (h : .invoke i ∈ (p.method x).body) : p.KeepsCall keep i := by
  refine ⟨hp.isCall_of_mem_body h, ?_⟩
  rwa [hp.container_of_mem_body h]

/-! ### Validity -/

omit hp in
theorem agrees_trim : (p.renumber keep).Agrees p (p.trim keep) where
  entry := rfl
  isStatic_entry := sameDeclarations_trim.isStatic p.entry
  isAbstract_entry := sameDeclarations_trim.isAbstract p.entry
  var _ _ := rfl
  isStatic f _ := congrArg Field.isStatic (sameDeclarations_trim.field f)
  params x _ := congrArg Array.size (sameDeclarations_trim.params x)

theorem matchesCall_trim {i : CallId} (hi : p.KeepsCall keep i) :
    (p.renumber keep).MatchesCall p (p.trim keep) i := by
  have hcall := call_trim hi
  constructor
  case kind => rw [hcall]
  case receiver => rw [hcall]; exact Option.map_id_apply.symm
  case args => rw [hcall]; exact (List.map_id _).symm
  case result => rw [hcall]; exact Option.map_id_apply.symm
  case callee =>
    intro receiver _
    have hreceiver : receiver.map (p.renumber keep).cls = receiver := Option.map_id_apply
    rw [hcall, hreceiver, sameDeclarations_trim.callee?]
    exact Option.map_id_apply.symm
  case candidates =>
    intro y hy
    have hcandidates : (p.trim keep).virtualCandidates (p.call i) =
        (Program.ofModel p.toModel p.entry).virtualCandidates (p.call i) :=
      sameDeclarations_trim.virtualCandidates p.entry p.entry (p.call i)
    rw [hcall, hcandidates, ← hp.eq_ofModel] at hy
    exact ⟨y, hy, rfl⟩

theorem fault?_trim : (p.trim keep).fault? = none := by
  refine agrees_trim.fault?_eq_none hp fun x t ht => ?_
  cases hx : keep x with
  | false =>
    rw [body_trim_of_drop hx] at ht
    exact absurd ht (Array.not_mem_empty t)
  | true =>
    rw [method_trim_of_keep hx] at ht
    obtain ⟨s, hs, rfl⟩ := Array.mem_map.1 ht
    refine ⟨x, s, hs, rfl, rfl, fun i hi => ?_, fun i hi => ?_⟩
    · subst hi
      exact congrArg Site.lhs (site_trim (hp.keepsSite_of_mem_body hx hs))
    · subst hi
      exact hp.matchesCall_trim (hp.keepsCall_of_mem_body hx hs)

/-! ### Uses and objects -/

theorem useFor_trim {v : VarId} (hv : keep (p.var v).method = true) {s : Stmt}
    (hs : s ∈ (p.method (p.var v).method).body) (u : Uses) :
    (p.trim keep).useFor v (u.mapCalls (p.renumber keep).call) ((p.renumber keep).stmt s) =
      (p.useFor v u s).mapCalls (p.renumber keep).call := by
  cases s with
  | invoke i =>
    have hcall := call_trim (hp.keepsCall_of_mem_body hv hs)
    rw [Model.useFor_invoke, Relabeling.stmt, Model.useFor_invoke, hcall]
    split
    · simp [Uses.mapCalls]
    · rfl
  | storeField base | loadField _ base | storeArray base | loadArray _ base =>
    by_cases hbase : base = v
    · simp [Model.useFor, Model.useOf?, Relabeling.stmt, Model.renumber, Uses.mapCalls, hbase]
    · simp [Model.useFor, Model.useOf?, Relabeling.stmt, Model.renumber, Uses.mapCalls, hbase]
  | new | copy | loadStatic | storeStatic | ret => rfl

theorem foldl_useFor_trim {v : VarId} (hv : keep (p.var v).method = true) {stmts : List Stmt}
    (hstmts : ∀ s ∈ stmts, s ∈ (p.method (p.var v).method).body) (u : Uses) :
    (stmts.map (p.renumber keep).stmt).foldl ((p.trim keep).useFor v)
        (u.mapCalls (p.renumber keep).call) =
      (stmts.foldl (p.useFor v) u).mapCalls (p.renumber keep).call := by
  induction stmts generalizing u with
  | nil => rfl
  | cons s stmts ih =>
    rw [List.map_cons, List.foldl_cons, List.foldl_cons, hp.useFor_trim hv (hstmts s List.mem_cons_self)]
    exact ih (fun t ht => hstmts t (List.mem_cons_of_mem s ht)) _

/-- The uses of a variable in a method that is kept. -/
theorem usesOf_trim (hq : (p.trim keep).Accepted) {v : VarId} (hisvar : p.IsVar v)
    (hv : keep (p.var v).method = true) :
    (p.trim keep).usesOf v = (p.usesOf v).mapCalls (p.renumber keep).call := by
  have hbody : ((p.trim keep).method (p.var v).method).body.toList =
      (p.method (p.var v).method).body.toList.map (p.renumber keep).stmt := by
    rw [method_trim_of_keep hv, Array.toList_map]
  have htrim : (p.trim keep).usesOf v =
      ((p.trim keep).method (p.var v).method).body.toList.foldl ((p.trim keep).useFor v) {} :=
    hq.usesOf_eq_foldl hisvar
  have hempty : Uses.mapCalls (p.renumber keep).call {} = {} := by simp [Uses.mapCalls]
  have hfoldl := hp.foldl_useFor_trim hv (fun s hs => Array.mem_toList_iff.1 hs) {}
  rwa [hempty, ← hbody, ← htrim, ← hp.usesOf_eq_foldl hisvar] at hfoldl

omit hp in
theorem object_trim (h : HeapModel) {i : SiteId} (hi : p.KeepsSite keep i) :
    h.object (p.trim keep).toModel ((p.renumber keep).site i) =
      (p.renumber keep).object (h.object p.toModel i) := by
  have howner := (@sameDeclarations_trim p keep).owner (p.site i).container
  cases h with
  | allocationSite =>
    simp only [HeapModel.object, site_trim hi, howner]
    rfl
  | type =>
    simp only [HeapModel.object, site_trim hi]
    rfl

end Accepted

end Program

/-- What a builder accepts, it accepts with the bodies of some methods left empty. -/
theorem Builder.build_trim {b : Builder} (hb : b.Reached) {p : Program} (h : b.build = .ok p)
    (keep : MethodId → Bool) : (b.trim keep).build = .ok (p.trim keep) := by
  have haccepted : p.Accepted := ⟨b, hb, h⟩
  obtain ⟨entry, hentry, hendless, rfl, -⟩ := build_eq_ok h
  have hentry' : (b.trim keep).entry = some entry := hentry
  have hendless' : (b.trim keep).endlessClass? = none :=
    (Model.sameDeclarations_trim (m := b.toModel)).endlessClass?.trans hendless
  have hfault : (Program.ofModel (b.trim keep).toModel entry).fault? = none := haccepted.fault?_trim
  simp only [build, hentry', hendless', hfault]
  rfl

end PointsTo
