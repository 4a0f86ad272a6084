import Mathlib.Data.List.Basic
import PointsTo.Numbering

/-! Histories. A history lists what was done, the latest last, so it grows at its end. What came first of
several things with one key, and what each entry found before it, are followed as an entry is added. -/

namespace PointsTo

section Firsts

variable {α β : Type} [DecidableEq β] (key : α → β)

/-- Of the elements with one key, the first. -/
def firstsBy : List α → List α
  | [] => []
  | a :: l => a :: (firstsBy l).filter fun b => key b ≠ key a

theorem exists_mem_firstsBy {l : List α} {k : β} :
    (∃ a ∈ firstsBy key l, key a = k) ↔ ∃ a ∈ l, key a = k := by
  induction l with
  | nil => rfl
  | cons a l ih =>
    simp only [firstsBy, List.mem_cons, List.mem_filter, decide_eq_true_eq, exists_eq_or_imp]
    by_cases ha : key a = k
    · exact iff_of_true (Or.inl ha) (Or.inl ha)
    · rw [or_iff_right ha, or_iff_right ha, ← ih]
      constructor
      · rintro ⟨b, ⟨hb, -⟩, rfl⟩
        exact ⟨b, hb, rfl⟩
      · rintro ⟨b, hb, rfl⟩
        exact ⟨b, ⟨hb, Ne.symm ha⟩, rfl⟩

theorem firstsBy_concat (l : List α) (a : α) : firstsBy key (l ++ [a]) =
    if ∃ b ∈ l, key b = key a then firstsBy key l else firstsBy key l ++ [a] := by
  induction l with
  | nil => rfl
  | cons b l ih =>
    rw [List.cons_append, firstsBy, ih, firstsBy]
    by_cases hb : key b = key a
    · have hsame : ∃ c ∈ b :: l, key c = key a := ⟨b, List.mem_cons_self, hb⟩
      rw [if_pos hsame]
      split
      · rfl
      · rw [List.filter_append, List.filter_cons_of_neg (by simpa using hb.symm), List.filter_nil,
          List.append_nil]
    · have hsame : (∃ c ∈ b :: l, key c = key a) ↔ ∃ c ∈ l, key c = key a := by simp [hb]
      rw [if_congr hsame rfl rfl]
      split
      · rfl
      · rw [List.filter_append, List.filter_cons_of_pos (by simpa using Ne.symm hb), List.filter_nil]
        rfl

end Firsts

theorem eraseDups_concat {α : Type} [DecidableEq α] (l : List α) (a : α) :
    (l ++ [a]).eraseDups = if a ∈ l then l.eraseDups else l.eraseDups ++ [a] := by
  rw [List.eraseDups_append, List.removeAll]
  by_cases ha : a ∈ l
  · rw [if_pos ha, List.filter_cons_of_neg (by simpa using ha)]
    simp
  · rw [if_neg ha, List.filter_cons_of_pos (by simpa using ha)]
    simp [List.eraseDups_cons]

/-- A numbering of what was asked for so far is kept by asking for one thing more. -/
theorem Numbering.toList_insert_eq_eraseDups {α : Type} [Coded α] [DecidableEq α] {n : Numbering α}
    {l : List α} (h : n.toList = l.eraseDups) (a : α) : (n.insert a).toList = (l ++ [a]).eraseDups := by
  rw [eraseDups_concat]
  by_cases ha : a ∈ l
  · rw [if_pos ha, ← h]
    exact congrArg toList (insert_of_mem (h ▸ List.mem_eraseDups.2 ha))
  · rw [if_neg ha, ← h]
    exact toList_insert_of_not_mem fun hmem => ha (List.mem_eraseDups.1 (h ▸ hmem))

/-- What holds of each entry and the history before it. -/
theorem forall_split_concat {α : Type} {P : List α → α → Prop} {l : List α} {a : α} :
    (∀ before b after, l ++ [a] = before ++ b :: after → P before b) ↔
      (∀ before b after, l = before ++ b :: after → P before b) ∧ P l a := by
  constructor
  · intro h
    refine ⟨fun before b after heq => h before b (after ++ [a]) ?_, h l a [] rfl⟩
    rw [heq, List.append_assoc, List.cons_append]
  · rintro ⟨h, ha⟩ before b after heq
    rcases List.eq_nil_or_concat' after with rfl | ⟨after, last, rfl⟩
    · obtain ⟨rfl, hlast⟩ := List.append_inj' heq rfl
      obtain rfl := List.singleton_inj.1 hlast
      exact ha
    · rw [← List.cons_append, ← List.append_assoc] at heq
      exact h before b after (List.append_inj' heq rfl).1

/-- What holds of some entry and the history before it. -/
theorem exists_split_concat {α : Type} {P : List α → α → Prop} {l : List α} {a : α} :
    (∃ before b after, l ++ [a] = before ++ b :: after ∧ P before b) ↔
      (∃ before b after, l = before ++ b :: after ∧ P before b) ∨ P l a := by
  have hnone := forall_split_concat (P := fun before b => ¬P before b) (l := l) (a := a)
  rw [← not_iff_not]
  simpa only [not_exists, not_and, not_or] using hnone

end PointsTo
