import PointsTo.Proofs.Program.Accepted

/-! Callees. What calls can enter, and where a run begins, are methods of the program. -/

namespace PointsTo

namespace Model

variable {m : Model} (hm : m.Scoped)

include hm

theorem isMethod_of_declaredMethod? {c : ClassId} {s : Subsignature} {x : MethodId}
    (h : (m.cls c).declaredMethod? s = some x) : m.IsMethod x := by
  obtain ⟨e, he, rfl⟩ := Option.map_eq_some_iff.1 h
  have hmem := Array.mem_of_find?_eq_some he
  by_cases hc : m.IsClass c
  · exact (hm.cls hc).methods e hmem
  · rw [cls_eq_default hc] at hmem
    exact absurd hmem (Array.not_mem_empty e)

theorem isMethod_of_dispatch? {c : ClassId} {s : Subsignature} {x : MethodId}
    (h : m.dispatch? c s = some x) : m.IsMethod x := by
  obtain ⟨d, -, hd⟩ := List.exists_of_findSome?_eq_some h
  exact isMethod_of_declaredMethod? hm (Option.filter_eq_some_iff.1 hd).1

theorem isMethod_of_callee? {receiver : Option ClassId} {c : Call} {x : MethodId}
    (h : m.callee? receiver c = some x) : m.IsMethod x := by
  rw [callee?] at h
  split at h
  · exact isMethod_of_declaredMethod? hm (Option.filter_eq_some_iff.1 h).1
  · exact isMethod_of_dispatch? hm h
  · obtain ⟨t, -, ht⟩ := Option.bind_eq_some_iff.1 h
    exact isMethod_of_dispatch? hm ht
  · obtain ⟨t, -, ht⟩ := Option.bind_eq_some_iff.1 h
    exact isMethod_of_dispatch? hm ht
  · cases h

end Model

theorem Program.isMethod_of_mem_virtualCandidates {p : Program} (hp : p.toModel.Scoped) {c : Call}
    {x : MethodId} (hx : x ∈ p.virtualCandidates c) : p.IsMethod x := by
  rw [virtualCandidates, List.mem_append, List.mem_filterMap, List.mem_filterMap] at hx
  rcases hx with ⟨t, -, hx⟩ | ⟨t, -, hx⟩
  · exact Model.isMethod_of_dispatch? hp hx
  · exact Model.isMethod_of_declaredMethod? hp hx

/-- The entry method is static, as only a declared method can be. -/
theorem Program.Accepted.isMethod_entry {p : Program} (hp : p.Accepted) : p.IsMethod p.entry := by
  apply Classical.byContradiction
  intro hentry
  have hstatic := (entryFault?_eq_none_iff.1 (fault?_eq_none_iff.1 hp.fault_eq_none).1).1
  rw [Model.method_eq_default hentry] at hstatic
  cases hstatic

end PointsTo
