import Mathlib.Data.List.Basic
import PointsTo.Proofs.Program.Accepted

/-! Accepted programs. The variables of a statement belong to the method that holds it, so the index of
uses, which is filled from all bodies, lists for each variable the statements of its own method. -/

namespace PointsTo

/-- A list that only ever gets longer at its end. -/
theorem foldl_appends {α β γ : Type} {f : β → α → β} (list : β → List γ) {adds : α → List γ}
    (hstep : ∀ b a, list (f b a) = list b ++ adds a) (l : List α) (b : β) :
    list (l.foldl f b) = list b ++ l.flatMap adds := by
  induction l generalizing b with
  | nil => exact (List.append_nil _).symm
  | cons a l ih => rw [List.foldl_cons, ih, hstep, List.append_assoc, List.flatMap_cons]

/-! ### Filling the index -/

/-- The store that a statement does to a field of the variable's object. -/
def Stmt.fieldStored? (v : VarId) : Stmt → Option (FieldId × VarId)
  | .storeField base field rhs => if base = v then some (field, rhs) else none
  | _ => none

def Stmt.fieldLoaded? (v : VarId) : Stmt → Option (VarId × FieldId)
  | .loadField lhs base field => if base = v then some (lhs, field) else none
  | _ => none

def Stmt.elementStored? (v : VarId) : Stmt → Option VarId
  | .storeArray base rhs => if base = v then some rhs else none
  | _ => none

def Stmt.elementLoaded? (v : VarId) : Stmt → Option VarId
  | .loadArray lhs base => if base = v then some lhs else none
  | _ => none

/-- The call that a statement makes on the variable's object. -/
def Model.called? (m : Model) (v : VarId) : Stmt → Option CallId
  | .invoke call => if (m.call call).receiver = some v then some call else none
  | _ => none

section Added

variable {s : Stmt} {v : VarId}

theorem Stmt.fieldStored?_eq_some_iff {b : FieldId × VarId} :
    s.fieldStored? v = some b ↔ s = .storeField v b.1 b.2 := by
  cases s <;> grind [fieldStored?]

theorem Stmt.fieldLoaded?_eq_some_iff {b : VarId × FieldId} :
    s.fieldLoaded? v = some b ↔ s = .loadField b.1 v b.2 := by
  cases s <;> grind [fieldLoaded?]

theorem Stmt.elementStored?_eq_some_iff {b : VarId} :
    s.elementStored? v = some b ↔ s = .storeArray v b := by
  cases s <;> grind [elementStored?]

theorem Stmt.elementLoaded?_eq_some_iff {b : VarId} :
    s.elementLoaded? v = some b ↔ s = .loadArray b v := by
  cases s <;> grind [elementLoaded?]

theorem Model.called?_eq_some_iff {m : Model} {b : CallId} :
    m.called? v s = some b ↔ (m.call b).receiver = some v ∧ s = .invoke b := by
  cases s <;> grind [called?]

end Added

namespace Model

variable (m : Model)

def stmts : List Stmt := m.methods.toList.flatMap fun x => x.body.toList

/-- What is listed for one variable after one more statement. -/
def useFor (v : VarId) (u : Uses) (s : Stmt) : Uses :=
  match m.useOf? s with
  | none => u
  | some (w, add) => if w = v then add u else u

variable {m} {v : VarId} {uses : Array Uses}

theorem size_indexUse (uses : Array Uses) (s : Stmt) : (m.indexUse uses s).size = uses.size := by
  rw [indexUse]
  split
  · rfl
  · exact Array.size_modify

theorem getD_indexUse (hv : v.index < uses.size) (s : Stmt) :
    (m.indexUse uses s).getD v.index {} = m.useFor v (uses.getD v.index {}) s := by
  rw [indexUse, useFor]
  cases m.useOf? s with
  | none => rfl
  | some use =>
    obtain ⟨w, add⟩ := use
    simp only [Array.getD_eq_getD_getElem?, Array.getElem?_modify]
    by_cases hw : w.index = v.index
    · obtain rfl := Id.ext hw
      simp [Array.getElem?_eq_getElem hv]
    · have hne : w ≠ v := fun heq => hw (heq ▸ rfl)
      simp [hw, hne]

theorem getD_foldl_indexUse (stmts : List Stmt) (hv : v.index < uses.size) :
    (stmts.foldl m.indexUse uses).getD v.index {} =
      stmts.foldl (m.useFor v) (uses.getD v.index {}) := by
  induction stmts generalizing uses with
  | nil => rfl
  | cons s stmts ih =>
    rw [List.foldl_cons, List.foldl_cons, ih (by rwa [size_indexUse]), getD_indexUse hv]

theorem useIndex_eq (m : Model) :
    m.useIndex = m.stmts.foldl m.indexUse (Array.replicate m.vars.size {}) := by
  rw [useIndex, stmts, List.foldl_flatMap, ← Array.foldl_toList]
  simp only [Array.foldl_toList]

theorem size_useIndex (m : Model) : m.useIndex.size = m.vars.size := by
  have hsize : ∀ (stmts : List Stmt) (uses : Array Uses),
      (stmts.foldl m.indexUse uses).size = uses.size := by
    intro stmts
    induction stmts with
    | nil => exact fun _ => rfl
    | cons s stmts ih => exact fun uses => (ih _).trans (size_indexUse uses s)
  rw [useIndex_eq, hsize, Array.size_replicate]

theorem getD_useIndex (hv : m.IsVar v) :
    m.useIndex.getD v.index {} = m.stmts.foldl (m.useFor v) {} := by
  have hsize : v.index < (Array.replicate m.vars.size ({} : Uses)).size := by
    rwa [Array.size_replicate]
  rw [useIndex_eq, getD_foldl_indexUse m.stmts hsize, Array.getD_eq_getD_getElem?,
    Array.getElem?_eq_getElem hsize, Array.getElem_replicate]
  rfl

section Adds

variable (u : Uses) (s : Stmt)

theorem useFor_invoke (call : CallId) :
    m.useFor v u (.invoke call) =
      if (m.call call).receiver = some v then { u with calls := u.calls.push call } else u := by
  rw [useFor, useOf?]
  cases (m.call call).receiver with
  | none => rfl
  | some w => simp

theorem storeFields_useFor :
    (m.useFor v u s).storeFields.toList = u.storeFields.toList ++ (s.fieldStored? v).toList := by
  cases s with
  | invoke call => grind [useFor_invoke, Stmt.fieldStored?]
  | _ => grind [useFor, useOf?, Stmt.fieldStored?]

theorem loadFields_useFor :
    (m.useFor v u s).loadFields.toList = u.loadFields.toList ++ (s.fieldLoaded? v).toList := by
  cases s with
  | invoke call => grind [useFor_invoke, Stmt.fieldLoaded?]
  | _ => grind [useFor, useOf?, Stmt.fieldLoaded?]

theorem storeArrays_useFor :
    (m.useFor v u s).storeArrays.toList = u.storeArrays.toList ++ (s.elementStored? v).toList := by
  cases s with
  | invoke call => grind [useFor_invoke, Stmt.elementStored?]
  | _ => grind [useFor, useOf?, Stmt.elementStored?]

theorem loadArrays_useFor :
    (m.useFor v u s).loadArrays.toList = u.loadArrays.toList ++ (s.elementLoaded? v).toList := by
  cases s with
  | invoke call => grind [useFor_invoke, Stmt.elementLoaded?]
  | _ => grind [useFor, useOf?, Stmt.elementLoaded?]

theorem calls_useFor : (m.useFor v u s).calls.toList = u.calls.toList ++ (m.called? v s).toList := by
  cases s with
  | invoke call => grind [useFor_invoke, called?]
  | _ => grind [useFor, useOf?, called?]

end Adds

theorem useFor_of_not_mem_varsOf {s : Stmt} (hv : v ∉ m.varsOf s) (u : Uses) :
    m.useFor v u s = u := by
  cases s with
  | invoke call =>
    rw [useFor_invoke]
    split
    · rename_i hreceiver
      exact absurd (by simp [varsOf, hreceiver]) hv
    · rfl
  | storeField | loadField | storeArray | loadArray => grind [useFor, useOf?, varsOf]
  | new | copy | loadStatic | storeStatic | ret => rfl

theorem foldl_useFor_of_not_mem {stmts : List Stmt}
    (h : ∀ s ∈ stmts, v ∉ m.varsOf s) (u : Uses) : stmts.foldl (m.useFor v) u = u := by
  induction stmts with
  | nil => rfl
  | cons s stmts ih =>
    rw [List.foldl_cons, useFor_of_not_mem_varsOf (h s List.mem_cons_self),
      ih fun t ht => h t (List.mem_cons_of_mem _ ht)]

end Model

namespace Program

/-- The index lists for each variable the statements of its method that use it as base or receiver. -/
structure Indexed (p : Program) : Prop where
  storeFields : ∀ v field rhs, (field, rhs) ∈ (p.usesOf v).storeFields ↔
    .storeField v field rhs ∈ (p.method (p.var v).method).body
  loadFields : ∀ v lhs field, (lhs, field) ∈ (p.usesOf v).loadFields ↔
    .loadField lhs v field ∈ (p.method (p.var v).method).body
  storeArrays : ∀ v rhs, rhs ∈ (p.usesOf v).storeArrays ↔
    .storeArray v rhs ∈ (p.method (p.var v).method).body
  loadArrays : ∀ v lhs, lhs ∈ (p.usesOf v).loadArrays ↔
    .loadArray lhs v ∈ (p.method (p.var v).method).body
  calls : ∀ v i, i ∈ (p.usesOf v).calls ↔
    .invoke i ∈ (p.method (p.var v).method).body ∧ (p.call i).receiver = some v

namespace Accepted

variable {p : Program} (hp : p.Accepted)

include hp

/-- The statements of other methods add nothing to the uses of a variable. -/
theorem usesOf_eq_foldl {v : VarId} (hv : p.IsVar v) :
    p.usesOf v = (p.method (p.var v).method).body.toList.foldl (p.useFor v) {} := by
  have hx : (p.var v).method.index < p.methods.toList.length := by
    rw [Array.length_toList]
    exact hp.scope.var hv
  have hmethod : ∀ j, (hj : j < p.methods.toList.length) → p.methods.toList[j] = p.method ⟨j⟩ := by
    intro j hj
    rw [Array.length_toList] at hj
    rw [Model.method, Array.getD_eq_getD_getElem?, Array.getElem?_eq_getElem hj, Array.getElem_toList]
    rfl
  have hother : ∀ j, (hj : j < p.methods.toList.length) → j ≠ (p.var v).method.index →
      ∀ s ∈ p.methods.toList[j].body.toList, v ∉ p.varsOf s := by
    intro j hj hne s hs hmem
    rw [hmethod j hj, Array.mem_toList_iff] at hs
    exact hne (congrArg Id.index (hp.method_of_mem_varsOf hs hmem)).symm
  have hbefore : ∀ s ∈ (p.methods.toList.take (p.var v).method.index).flatMap fun x => x.body.toList,
      v ∉ p.varsOf s := by
    intro s hs
    obtain ⟨x, hx, hs⟩ := List.mem_flatMap.1 hs
    obtain ⟨j, hj, rfl⟩ := List.mem_take_iff_getElem.1 hx
    exact hother j (by omega) (by omega) s hs
  have hafter : ∀ s ∈ (p.methods.toList.drop ((p.var v).method.index + 1)).flatMap fun x => x.body.toList,
      v ∉ p.varsOf s := by
    intro s hs
    obtain ⟨x, hx, hs⟩ := List.mem_flatMap.1 hs
    obtain ⟨j, hj, rfl⟩ := List.mem_drop_iff_getElem.1 hx
    exact hother _ (by omega) (by omega) s hs
  have hstmts : p.stmts = (p.methods.toList.take (p.var v).method.index).flatMap (·.body.toList) ++
      ((p.method (p.var v).method).body.toList ++
        (p.methods.toList.drop ((p.var v).method.index + 1)).flatMap (·.body.toList)) := by
    have hsplit := congrArg (·.flatMap fun x : Method => x.body.toList)
      (List.take_append_drop (p.var v).method.index p.methods.toList).symm
    rwa [List.drop_eq_getElem_cons hx, List.flatMap_append, List.flatMap_cons, hmethod] at hsplit
  rw [usesOf, hp.uses_eq, Model.getD_useIndex hv, hstmts, List.foldl_append, List.foldl_append,
    Model.foldl_useFor_of_not_mem hbefore, Model.foldl_useFor_of_not_mem hafter]

/-- One list of the uses of a variable, from what single statements add to it. -/
theorem toList_usesOf {v : VarId} (hv : p.IsVar v) {β : Type} (list : Uses → List β)
    (hempty : list {} = []) {adds : Stmt → Option β}
    (hadds : ∀ u s, list (p.useFor v u s) = list u ++ (adds s).toList) :
    list (p.usesOf v) = (p.method (p.var v).method).body.toList.filterMap adds := by
  rw [hp.usesOf_eq_foldl hv, foldl_appends _ hadds, hempty, List.nil_append,
    List.filterMap_eq_flatMap_toList]

theorem usesOf_of_not_isVar {v : VarId} (hv : ¬ p.IsVar v) : p.usesOf v = {} := by
  have hsize : p.toModel.useIndex.size ≤ v.index := by
    rw [Model.size_useIndex]
    exact Nat.le_of_not_lt hv
  rw [usesOf, hp.uses_eq, Array.getD_eq_getD_getElem?, Array.getElem?_eq_none hsize, Option.getD_none]

theorem mem_usesOf {v : VarId} {β : Type} (list : Uses → List β) (hempty : list {} = [])
    {adds : Stmt → Option β} (hadds : ∀ u s, list (p.useFor v u s) = list u ++ (adds s).toList) {b : β} :
    b ∈ list (p.usesOf v) ↔ ∃ s ∈ (p.method (p.var v).method).body, adds s = some b := by
  by_cases hv : p.IsVar v
  · rw [hp.toList_usesOf hv list hempty hadds, List.mem_filterMap]
    simp only [Array.mem_toList_iff]
  · rw [hp.usesOf_of_not_isVar hv, hempty]
    constructor
    · exact fun hb => absurd hb List.not_mem_nil
    · intro hexists
      obtain ⟨s, hs, hb⟩ := hexists
      have hmem : v ∈ p.varsOf s := by
        by_contra hnot
        have hsame := hadds {} s
        rw [Model.useFor_of_not_mem_varsOf hnot, hb] at hsame
        simp at hsame
      exact absurd (hp.isVar_of_mem_varsOf hs hmem) hv

theorem indexed : p.Indexed where
  storeFields v field rhs := by
    rw [← Array.mem_toList_iff, hp.mem_usesOf (·.storeFields.toList) rfl Model.storeFields_useFor]
    simp only [Stmt.fieldStored?_eq_some_iff, exists_eq_right]
  loadFields v lhs field := by
    rw [← Array.mem_toList_iff, hp.mem_usesOf (·.loadFields.toList) rfl Model.loadFields_useFor]
    simp only [Stmt.fieldLoaded?_eq_some_iff, exists_eq_right]
  storeArrays v rhs := by
    rw [← Array.mem_toList_iff, hp.mem_usesOf (·.storeArrays.toList) rfl Model.storeArrays_useFor]
    simp only [Stmt.elementStored?_eq_some_iff, exists_eq_right]
  loadArrays v lhs := by
    rw [← Array.mem_toList_iff, hp.mem_usesOf (·.loadArrays.toList) rfl Model.loadArrays_useFor]
    simp only [Stmt.elementLoaded?_eq_some_iff, exists_eq_right]
  calls v i := by
    rw [← Array.mem_toList_iff, hp.mem_usesOf (·.calls.toList) rfl Model.calls_useFor]
    simp only [Model.called?_eq_some_iff, exists_eq_right_right]

end Accepted

end Program

end PointsTo
