import Std.Data.TreeMap
import PointsTo.Id

/-! Numberings. A numbering lists distinct values in the order in which they were first asked for;
the number of a value is its place in that list and never changes. An index finds the place of a
value without a search through the list, and the type keeps the index and the list in step. -/

namespace PointsTo

/-- Distinct values, numbered from zero in the order of their first insertion. -/
structure Numbering (α : Type) [Coded α] where
  values : Array α
  places : Std.TreeMap α Nat
  place_iff : ∀ (a : α) (i : Nat), places[a]? = some i ↔ values[i]? = some a

namespace Numbering

variable {α : Type} [Coded α]

def size (n : Numbering α) : Nat := n.values.size

def toList (n : Numbering α) : List α := n.values.toList

def indexOf? (n : Numbering α) (a : α) : Option Nat := n.places[a]?

def contains (n : Numbering α) (a : α) : Bool := n.places.contains a

/-- The number of a value, or the number it would be given next. -/
def indexOf (n : Numbering α) (a : α) : Nat := (n.indexOf? a).getD n.size

theorem indexOf?_eq_some_iff {n : Numbering α} {a : α} {i : Nat} :
    n.indexOf? a = some i ↔ n.values[i]? = some a := n.place_iff a i

def empty : Numbering α := ⟨#[], ∅, by simp⟩

instance : Inhabited (Numbering α) := ⟨empty⟩

@[simp] theorem toList_empty : (empty : Numbering α).toList = [] := rfl

@[simp] theorem contains_iff {n : Numbering α} {a : α} : n.contains a = true ↔ a ∈ n.toList := by
  rw [contains, ← Std.TreeMap.isSome_getElem?_eq_contains, Option.isSome_iff_exists, toList,
    Array.mem_toList_iff, Array.mem_iff_getElem?]
  simp only [n.place_iff]

private theorem place_iff_push {values : Array α} {places : Std.TreeMap α Nat}
    (hiff : ∀ (a : α) (i : Nat), places[a]? = some i ↔ values[i]? = some a) {a : α}
    (hnew : places[a]? = none) (b : α) (i : Nat) :
    (places.insert a values.size)[b]? = some i ↔ (values.push a)[i]? = some b := by
  rw [Std.TreeMap.getElem?_insert, Array.getElem?_push]
  by_cases hb : a = b
  · subst hb
    have hi := hiff a i
    rw [hnew] at hi
    simp only [Std.ReflCmp.compare_self, if_true]
    by_cases hs : i = values.size
    · simp [hs]
    · simp only [hs, if_false, ← hi, Option.some.injEq]
      simp [Ne.symm hs]
  · have hne : ¬ compare a b = .eq := fun h => hb (Std.LawfulEqOrd.eq_of_compare h)
    simp only [hne, if_false, hiff]
    by_cases hs : i = values.size
    · simp [hs, hb]
    · simp [hs]

/-- A value that is already numbered keeps its number, another one gets the next. -/
def insert (n : Numbering α) (a : α) : Numbering α :=
  if h : n.contains a = true then n
  else ⟨n.values.push a, n.places.insert a n.values.size,
    place_iff_push n.place_iff (by simpa [contains] using h)⟩

def insertAll (n : Numbering α) (as : List α) : Numbering α := as.foldl insert n

def ofList (as : List α) : Numbering α := empty.insertAll as

theorem insert_of_mem {n : Numbering α} {a : α} (h : a ∈ n.toList) : n.insert a = n := by
  have hc := contains_iff.2 h
  simp [insert, hc]

theorem toList_insert_of_not_mem {n : Numbering α} {a : α} (h : a ∉ n.toList) :
    (n.insert a).toList = n.toList ++ [a] := by
  have hc : ¬ n.contains a = true := fun hc => h (contains_iff.1 hc)
  unfold insert
  rw [dif_neg hc]
  exact Array.toList_push

@[simp] theorem mem_toList_insert {n : Numbering α} {a b : α} :
    b ∈ (n.insert a).toList ↔ b ∈ n.toList ∨ b = a := by
  by_cases h : a ∈ n.toList
  · rw [insert_of_mem h, iff_self_or]
    intro he
    exact he ▸ h
  · simp [toList_insert_of_not_mem h]

theorem mem_toList_insertAll {as : List α} {n : Numbering α} {b : α} :
    b ∈ (n.insertAll as).toList ↔ b ∈ n.toList ∨ b ∈ as := by
  induction as generalizing n with
  | nil => simp [insertAll]
  | cons a as ih =>
    rw [insertAll, List.foldl_cons, ← insertAll, ih, mem_toList_insert, or_assoc, List.mem_cons]

@[simp] theorem mem_toList_ofList {as : List α} {b : α} : b ∈ (ofList as).toList ↔ b ∈ as := by
  simp [ofList, mem_toList_insertAll]

theorem size_eq_length (n : Numbering α) : n.size = n.toList.length := by simp [size, toList]

theorem mem_insert_self (n : Numbering α) (a : α) : a ∈ (n.insert a).toList :=
  mem_toList_insert.2 (Or.inr rfl)

theorem forall_mem_insert {n : Numbering α} {a : α} {P : α → Prop} (hn : ∀ b ∈ n.toList, P b) (ha : P a) :
    ∀ b ∈ (n.insert a).toList, P b := by
  intro b hb
  rcases mem_toList_insert.1 hb with hb | rfl
  · exact hn b hb
  · exact ha

theorem prefix_insert (n : Numbering α) (a : α) : n.toList <+: (n.insert a).toList := by
  by_cases h : a ∈ n.toList
  · simp only [insert_of_mem h, List.prefix_rfl]
  · rw [toList_insert_of_not_mem h]
    exact List.prefix_append _ _

theorem size_le_of_prefix {n m : Numbering α} (h : n.toList <+: m.toList) : n.size ≤ m.size := by
  rw [size_eq_length, size_eq_length]
  exact h.length_le

theorem values_indexOf {n : Numbering α} {a : α} (h : a ∈ n.toList) :
    n.values[n.indexOf a]? = some a := by
  obtain ⟨i, hi⟩ := Array.mem_iff_getElem?.1 (Array.mem_toList_iff.1 h)
  rw [indexOf, indexOf?_eq_some_iff.2 hi]
  exact hi

theorem indexOf_lt {n : Numbering α} {a : α} (h : a ∈ n.toList) : n.indexOf a < n.size :=
  (Array.getElem?_eq_some_iff.1 (values_indexOf h)).1

theorem size_insert_of_not_mem {n : Numbering α} {a : α} (h : a ∉ n.toList) :
    (n.insert a).size = n.size + 1 := by
  rw [size_eq_length, toList_insert_of_not_mem h, List.length_append, List.length_singleton,
    size_eq_length]

/-- It is the new values that get the next number. -/
theorem indexOf_insert_eq_size_iff {n : Numbering α} {a : α} :
    (n.insert a).indexOf a = n.size ↔ a ∉ n.toList := by
  by_cases h : a ∈ n.toList
  · rw [insert_of_mem h]
    exact iff_of_false (Nat.ne_of_lt (indexOf_lt h)) (not_not_intro h)
  · refine iff_of_true ?_ h
    have hlast : (n.insert a).values[n.size]? = some a := by
      rw [← Array.getElem?_toList]
      show (n.insert a).toList[n.size]? = some a
      rw [toList_insert_of_not_mem h, size_eq_length, List.getElem?_concat_length]
    rw [indexOf, indexOf?_eq_some_iff.2 hlast]
    rfl

theorem getD_indexOf {n : Numbering α} {a : α} (h : a ∈ n.toList) (d : α) :
    n.values.getD (n.indexOf a) d = a := by
  rw [Array.getD_eq_getD_getElem?, values_indexOf h]
  rfl

theorem getD_mem {n : Numbering α} {i : Nat} (h : i < n.size) (d : α) :
    n.values.getD i d ∈ n.toList := by
  rw [Array.getD_eq_getD_getElem?, Array.getElem?_eq_getElem h, Option.getD_some, toList,
    Array.mem_toList_iff]
  exact Array.getElem_mem h

theorem indexOf_getD {n : Numbering α} {i : Nat} (h : i < n.size) (d : α) :
    n.indexOf (n.values.getD i d) = i := by
  have hi : n.values[i]? = some (n.values.getD i d) := by
    rw [Array.getD_eq_getD_getElem?, Array.getElem?_eq_getElem h, Option.getD_some]
  rw [indexOf, indexOf?_eq_some_iff.2 hi]
  rfl

theorem index_unique {n : Numbering α} {a : α} {i j : Nat} (hi : n.values[i]? = some a)
    (hj : n.values[j]? = some a) : i = j :=
  Option.some.inj ((indexOf?_eq_some_iff.2 hi).symm.trans (indexOf?_eq_some_iff.2 hj))

theorem getElem?_values_mono {n m : Numbering α} (h : n.toList <+: m.toList) {i : Nat} {a : α}
    (hi : n.values[i]? = some a) : m.values[i]? = some a := by
  rw [← Array.getElem?_toList] at hi ⊢
  obtain ⟨hlt, rfl⟩ := List.getElem?_eq_some_iff.1 hi
  exact List.prefix_iff_getElem?.1 h i hlt

theorem getElem?_values_insert_iff {n : Numbering α} {a b : α} {i : Nat} :
    (n.insert a).values[i]? = some b ↔
      n.values[i]? = some b ∨ i = (n.insert a).indexOf a ∧ b = a := by
  have ha := values_indexOf (mem_insert_self n a)
  constructor
  · intro hb
    have hmem : b ∈ (n.insert a).toList := Array.mem_toList_iff.2 (Array.mem_iff_getElem?.2 ⟨i, hb⟩)
    rcases mem_toList_insert.1 hmem with hold | rfl
    · have hi := values_indexOf hold
      left
      rwa [index_unique hb (getElem?_values_mono (prefix_insert n a) hi)]
    · exact Or.inr ⟨index_unique hb ha, rfl⟩
  · rintro (hb | ⟨rfl, rfl⟩)
    · exact getElem?_values_mono (prefix_insert n a) hb
    · exact ha

theorem indexOf?_eq_some_iff_getD {n : Numbering α} {a : α} {i : Nat} (d : α) :
    n.indexOf? a = some i ↔ i < n.size ∧ n.values.getD i d = a := by
  rw [indexOf?_eq_some_iff, Array.getElem?_eq_some_iff]
  constructor
  · rintro ⟨hi, rfl⟩
    exact ⟨hi, by rw [Array.getD_eq_getD_getElem?, Array.getElem?_eq_getElem hi, Option.getD_some]⟩
  · rintro ⟨hi, rfl⟩
    exact ⟨hi, by rw [Array.getD_eq_getD_getElem?, Array.getElem?_eq_getElem hi, Option.getD_some]⟩

/-- Two numbers of one value are one number. -/
theorem getD_injective {n : Numbering α} {i j : Nat} {d : α} (hi : i < n.size) (hj : j < n.size)
    (h : n.values.getD i d = n.values.getD j d) : i = j := by
  rw [← indexOf_getD hi d, h, indexOf_getD hj d]

theorem getD_of_prefix {n m : Numbering α} (h : n.toList <+: m.toList) {i : Nat} (hi : i < n.size)
    (d : α) : m.values.getD i d = n.values.getD i d := by
  have hlen : i < n.toList.length := by rwa [← size_eq_length]
  have hget := List.prefix_iff_getElem?.1 h i hlen
  rw [Array.getD_eq_getD_getElem?, Array.getD_eq_getD_getElem?, ← Array.getElem?_toList,
    ← Array.getElem?_toList]
  exact congrArg (Option.getD · d) (hget.trans (List.getElem?_eq_getElem hlen).symm)

theorem nodup_toList (n : Numbering α) : n.toList.Nodup := by
  rw [List.nodup_iff_pairwise_ne, List.pairwise_iff_getElem]
  intro i j hi hj hij heq
  simp only [toList, Array.length_toList, Array.getElem_toList] at hi hj heq
  have hfirst := indexOf?_eq_some_iff.2 (Array.getElem?_eq_getElem hi)
  have hsecond := indexOf?_eq_some_iff.2 (Array.getElem?_eq_getElem hj)
  rw [heq, hsecond] at hfirst
  exact Nat.ne_of_gt hij (Option.some.inj hfirst)

end Numbering

end PointsTo
