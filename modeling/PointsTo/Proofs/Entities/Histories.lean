import Mathlib.Logic.Function.Basic
import PointsTo.Proofs.Entities.Scope
import PointsTo.Proofs.Histories

/-! Histories of a collection of entities. Things of each sort are numbered in a table of their own, all
in the same way. What a collection was asked for is written down with the numbers that it gave, and by the
record a number stands for one value for good, numbers follow the order of the first requests, and a cell
holds what was put into it and nothing else. -/

namespace PointsTo

/-- The tables of a collection of entities. -/
inductive Table where
  | contexts
  | objects
  | qobjects
  | qmethods
  | qcalls
  | cells
  deriving DecidableEq

namespace Table

/-- What a table lists. -/
def Value : Table → Type
  | contexts => Context
  | objects => HeapObject
  | qobjects => Qualified .object
  | qmethods => Qualified .method
  | qcalls => Qualified .call
  | cells => Cell

/-- The sort of the numbers that a table gives. -/
abbrev entity : Table → Entity
  | contexts => .context
  | objects => .object
  | qobjects => .qualified .object
  | qmethods => .qualified .method
  | qcalls => .qualified .call
  | cells => .cell

instance valueCoded : (k : Table) → Coded k.Value
  | contexts => inferInstanceAs (Coded Context)
  | objects => inferInstanceAs (Coded HeapObject)
  | qobjects => inferInstanceAs (Coded (Qualified .object))
  | qmethods => inferInstanceAs (Coded (Qualified .method))
  | qcalls => inferInstanceAs (Coded (Qualified .call))
  | cells => inferInstanceAs (Coded Cell)

instance valueDecidableEq : (k : Table) → DecidableEq k.Value
  | contexts => inferInstanceAs (DecidableEq Context)
  | objects => inferInstanceAs (DecidableEq HeapObject)
  | qobjects => inferInstanceAs (DecidableEq (Qualified .object))
  | qmethods => inferInstanceAs (DecidableEq (Qualified .method))
  | qcalls => inferInstanceAs (DecidableEq (Qualified .call))
  | cells => inferInstanceAs (DecidableEq Cell)

end Table

namespace Entities

/-! ### Tables -/

section Tables

variable (t : Entities)

def numbering : (k : Table) → Numbering k.Value
  | .contexts => t.contexts
  | .objects => t.objects
  | .qobjects => t.qobjects
  | .qmethods => t.qmethods
  | .qcalls => t.qcalls
  | .cells => t.cells

/-- Sees to it that a value has a number, and gives the number. -/
def intern : (k : Table) → k.Value → Entities × Id k.entity
  | .contexts, c => (t.addContext c, (t.addContext c).contextId c)
  | .objects, o => (t.addObject o, (t.addObject o).objectId o)
  | .qobjects, o => (t.addQObject o, (t.addQObject o).qobjectId o)
  | .qmethods, x => (t.addQMethod x, (t.addQMethod x).qmethodId x)
  | .qcalls, c => (t.addQCall c, (t.addQCall c).qcallId c)
  | .cells, c => (t.addCell c, (t.addCell c).cellId c)

def value : (k : Table) → Id k.entity → k.Value
  | .contexts, c => t.context c
  | .objects, o => t.object o
  | .qobjects, o => t.qobject o
  | .qmethods, x => t.qmethod x
  | .qcalls, c => t.qcall c
  | .cells, c => t.cell c

/-- The number of a value, if it has one. -/
def lookup? : (k : Table) → k.Value → Option (Id k.entity)
  | .contexts, c => t.lookupContext? c
  | .objects, o => (t.objects.indexOf? o).map Id.mk
  | .qobjects, o => (t.qobjects.indexOf? o).map Id.mk
  | .qmethods, x => (t.qmethods.indexOf? x).map Id.mk
  | .qcalls, c => (t.qcalls.indexOf? c).map Id.mk
  | .cells, c => t.lookupCell? c

theorem numbering_intern (k : Table) (v : k.Value) :
    (t.intern k v).1.numbering = Function.update t.numbering k ((t.numbering k).insert v) := by
  funext j
  cases k <;> cases j <;> rfl

theorem intern_snd (k : Table) (v : k.Value) :
    (t.intern k v).2 = ⟨((t.numbering k).insert v).indexOf v⟩ := by
  cases k <;> rfl

theorem pointsTo_intern (k : Table) (v : k.Value) (c : CellId) :
    (t.intern k v).1.pointsTo c = t.pointsTo c := by
  cases k with
  | cells => exact pointsTo_addCell t v c
  | _ => rfl

variable {t} {k : Table} {v : k.Value} {id : Id k.entity}

theorem value_of_getElem? (h : (t.numbering k).values[id.index]? = some v) : t.value k id = v := by
  have hget : ∀ d, (t.numbering k).values.getD id.index d = v := fun d => by
    rw [Array.getD_eq_getD_getElem?, h, Option.getD_some]
  cases k <;> exact hget _

theorem lookup?_eq_some_iff :
    t.lookup? k v = some id ↔ (t.numbering k).values[id.index]? = some v := by
  have hlookup : t.lookup? k v = ((t.numbering k).indexOf? v).map Id.mk := by
    cases k <;> rfl
  rw [hlookup, Id.map_mk_eq_some_iff, Numbering.indexOf?_eq_some_iff]

end Tables

/-! ### The record -/

inductive Request where
  | intern (k : Table) (v : k.Value)
  | lookup (k : Table) (v : k.Value)
  | grow (c : CellId) (objects : IdSet (.qualified .object))

/-- A request that has been served, with its answer if it has one. -/
inductive Entry where
  | interned (k : Table) (v : k.Value) (id : Id k.entity)
  | sought (k : Table) (v : k.Value) (answer : Option (Id k.entity))
  | grown (c : CellId) (objects : IdSet (.qualified .object))

/-- A collection of entities with the record of all that it served, the latest last. -/
structure Served where
  entities : Entities
  history : List Entry

def Served.serve (t : Served) : Request → Served
  | .intern k v =>
    let (entities, id) := t.entities.intern k v
    ⟨entities, t.history ++ [.interned k v id]⟩
  | .lookup k v => ⟨t.entities, t.history ++ [.sought k v (t.entities.lookup? k v)]⟩
  | .grow c objects => ⟨t.entities.grow c objects, t.history ++ [.grown c objects]⟩

def Served.serveAll (t : Served) (requests : List Request) : Served := requests.foldl serve t

/-- An empty collection that has served the requests. -/
def served (requests : List Request) : Served := Served.serveAll ⟨.empty, []⟩ requests

section Record

variable (h : List Entry)

/-- The values that a table was asked to number, repeated ones as well. -/
def asked (k : Table) : List k.Value :=
  h.filterMap fun
    | .interned j v _ => if hj : j = k then some (hj ▸ v) else none
    | _ => none

/-- The values of a table, each at its first request. -/
def firstAsked (k : Table) : List k.Value := (asked h k).eraseDups

/-- The object was put into the cell after the cell had been numbered. -/
def Given (c : CellId) (o : QObjectId) : Prop :=
  ∃ before e after, h = before ++ e :: after ∧
    ∃ objects, e = .grown c objects ∧ o ∈ objects ∧ ∃ v, .interned .cells v c ∈ before

end Record

section Concat

variable {h : List Entry} {k : Table} {v : k.Value} {c : CellId} {o : QObjectId}

theorem asked_concat_interned (id : Id k.entity) :
    asked (h ++ [.interned k v id]) = Function.update (asked h) k (asked h k ++ [v]) := by
  funext j
  by_cases hj : j = k
  · subst hj
    simp [asked]
  · simp [asked, hj, Ne.symm hj]

theorem given_concat {e : Entry} : Given (h ++ [e]) c o ↔ Given h c o ∨
    ∃ objects, e = .grown c objects ∧ o ∈ objects ∧ ∃ v, .interned .cells v c ∈ h :=
  exists_split_concat

theorem given_concat_of_not_grown {e : Entry} (he : ∀ objects, e ≠ .grown c objects) :
    Given (h ++ [e]) c o ↔ Given h c o :=
  given_concat.trans (or_iff_left fun ⟨objects, heq, _⟩ => he objects heq)

end Concat

/-! ### Serving -/

/-- What the collection holds is what the record says. -/
structure Served.Keeps (t : Served) : Prop where
  listed : ∀ k, (t.entities.numbering k).toList = firstAsked t.history k
  interned : ∀ k v id, .interned k v id ∈ t.history ↔
    (t.entities.numbering k).values[id.index]? = some v
  sought : ∀ before e after, t.history = before ++ e :: after →
    ∀ k v answer, e = .sought k v answer → ∀ id, answer = some id ↔ .interned k v id ∈ before
  held : ∀ c o, o ∈ t.entities.pointsTo c ↔ Given t.history c o

namespace Served

variable {t : Served}

theorem keeps_empty : Keeps ⟨.empty, []⟩ where
  listed k := by cases k <;> rfl
  interned k v id := by
    have hnone : (Entities.empty.numbering k).values = #[] := by cases k <;> rfl
    simp [hnone]
  sought before e after heq := by simp at heq
  held c o := by
    refine iff_of_false (by simp [pointsTo, Entities.empty]) ?_
    rintro ⟨before, e, after, heq, -⟩
    simp at heq

theorem Keeps.isCell_iff (h : t.Keeps) {c : CellId} :
    t.entities.IsCell c ↔ ∃ v, .interned .cells v c ∈ t.history := by
  simp only [h.interned, ← Option.isSome_iff_exists, isSome_getElem?]
  rfl

theorem Keeps.intern (h : t.Keeps) (k : Table) (v : k.Value) : (t.serve (.intern k v)).Keeps where
  listed j := by
    show ((t.entities.intern k v).1.numbering j).toList = (asked (t.history ++ [_]) j).eraseDups
    rw [numbering_intern, asked_concat_interned]
    by_cases hj : j = k
    · subst hj
      rw [Function.update_self, Function.update_self]
      exact Numbering.toList_insert_eq_eraseDups (h.listed j) v
    · rw [Function.update_of_ne hj, Function.update_of_ne hj]
      exact h.listed j
  interned j w id := by
    show .interned j w id ∈ t.history ++ [.interned k v (t.entities.intern k v).2] ↔
      ((t.entities.intern k v).1.numbering j).values[id.index]? = some w
    rw [List.mem_append, List.mem_singleton, h.interned, numbering_intern, intern_snd]
    by_cases hj : j = k
    · subst hj
      rw [Function.update_self, Numbering.getElem?_values_insert_iff]
      refine or_congr_right ⟨fun heq => ?_, fun heq => ?_⟩
      · cases heq
        exact ⟨rfl, rfl⟩
      · obtain ⟨hid, rfl⟩ := heq
        exact congrArg (Entry.interned j _) (Id.ext hid)
    · rw [Function.update_of_ne hj, or_iff_left]
      intro heq
      cases heq
      exact hj rfl
  sought := forall_split_concat.2 ⟨h.sought, fun _ _ _ heq => by cases heq⟩
  held c o := by
    show o ∈ (t.entities.intern k v).1.pointsTo c ↔ Given (t.history ++ [_]) c o
    rw [pointsTo_intern, h.held, given_concat_of_not_grown fun _ => Entry.noConfusion]

theorem Keeps.lookup (h : t.Keeps) (k : Table) (v : k.Value) : (t.serve (.lookup k v)).Keeps where
  listed j := (h.listed j).trans (by simp [serve, firstAsked, asked])
  interned j w id := by simpa [serve] using h.interned j w id
  sought := by
    refine forall_split_concat.2 ⟨h.sought, fun j w answer heq id => ?_⟩
    cases heq
    rw [lookup?_eq_some_iff, h.interned]
  held c o := (h.held c o).trans (given_concat_of_not_grown fun _ => Entry.noConfusion).symm

theorem Keeps.grow (h : t.Keeps) (c : CellId) (objects : IdSet (.qualified .object)) :
    (t.serve (.grow c objects)).Keeps where
  listed j := by
    have hsame : asked (t.serve (.grow c objects)).history j = asked t.history j := by
      simp [serve, asked]
    rw [firstAsked, hsame]
    exact h.listed j
  interned j w id := by
    have hsame : (.interned j w id ∈ (t.serve (.grow c objects)).history) ↔
        .interned j w id ∈ t.history := by
      simp [serve]
    rw [hsame, h.interned]
    cases j <;> rfl
  sought := forall_split_concat.2 ⟨h.sought, fun _ _ _ heq => by cases heq⟩
  held d o := by
    show o ∈ (t.entities.grow c objects).pointsTo d ↔ Given (t.history ++ [.grown c objects]) d o
    rw [mem_pointsTo_grow_iff, h.held, given_concat, h.isCell_iff]
    refine or_congr_right ⟨?_, ?_⟩
    · rintro ⟨hcell, rfl, ho⟩
      exact ⟨objects, rfl, ho, hcell⟩
    · rintro ⟨_, heq, ho, hcell⟩
      cases heq
      exact ⟨hcell, rfl, ho⟩

theorem Keeps.serve (h : t.Keeps) (r : Request) : (t.serve r).Keeps := by
  cases r with
  | intern k v => exact h.intern k v
  | lookup k v => exact h.lookup k v
  | grow c objects => exact h.grow c objects

theorem Keeps.serveAll (h : t.Keeps) (requests : List Request) : (t.serveAll requests).Keeps := by
  induction requests generalizing t with
  | nil => exact h
  | cons r requests ih => exact ih (h.serve r)

theorem keeps_served (requests : List Request) : (served requests).Keeps :=
  keeps_empty.serveAll requests

/-! ### What the numbers stand for -/

theorem prefix_history_serveAll (t : Served) (requests : List Request) :
    t.history <+: (t.serveAll requests).history := by
  induction requests generalizing t with
  | nil => exact List.prefix_rfl
  | cons r requests ih =>
    have hstep : t.history <+: (t.serve r).history := by
      cases r <;> exact List.prefix_append _ _
    exact hstep.trans (ih (t.serve r))

variable {k : Table} {v w : k.Value} {i j : Id k.entity}

theorem Keeps.same_iff (h : t.Keeps) (hv : .interned k v i ∈ t.history)
    (hw : .interned k w j ∈ t.history) : i = j ↔ v = w := by
  rw [h.interned] at hv hw
  constructor
  · rintro rfl
    exact Option.some.inj (hv.symm.trans hw)
  · rintro rfl
    exact Id.ext (Numbering.index_unique hv hw)

theorem Keeps.value_eq (h : t.Keeps) (hv : .interned k v i ∈ t.history) : t.entities.value k i = v :=
  value_of_getElem? ((h.interned k v i).1 hv)

/-- Whatever is asked for later, a number stands for the same value. -/
theorem Keeps.value_serveAll (h : t.Keeps) (hv : .interned k v i ∈ t.history)
    (requests : List Request) : (t.serveAll requests).entities.value k i = v :=
  (h.serveAll requests).value_eq ((t.prefix_history_serveAll requests).subset hv)

theorem Keeps.interned_iff (h : t.Keeps) :
    .interned k v i ∈ t.history ↔ (firstAsked t.history k)[i.index]? = some v := by
  rw [h.interned, ← h.listed]
  exact Array.getElem?_toList ▸ Iff.rfl

theorem Keeps.index_lt (h : t.Keeps) (hv : .interned k v i ∈ t.history) :
    i.index < (firstAsked t.history k).length :=
  (List.getElem?_eq_some_iff.1 (h.interned_iff.1 hv)).1

/-! ### What cells hold -/

theorem Keeps.size_contents (h : t.Keeps) :
    t.entities.contents.size = (firstAsked t.history .cells).length := calc
  t.entities.contents.size = t.entities.cells.size := t.entities.size_contents
  _ = t.entities.cells.toList.length := Numbering.size_eq_length _
  _ = (firstAsked t.history .cells).length := congrArg List.length (h.listed .cells)

/-- What is in a cell was put there when the cell had its number, so a new cell is empty. -/
theorem Keeps.pointsTo_intern_new (h : t.Keeps) {v : Table.cells.Value}
    (hv : ∀ i, .interned .cells v i ∉ t.history) :
    (t.entities.intern .cells v).1.pointsTo (t.entities.intern .cells v).2 = ∅ := by
  ext o
  refine iff_of_false (fun ho => ?_) IdSet.not_mem_empty
  rw [pointsTo_intern, h.held] at ho
  obtain ⟨before, e, after, heq, objects, -, -, w, hw⟩ := ho
  have hw' : .interned .cells w (t.entities.intern .cells v).2 ∈ t.history :=
    heq ▸ List.mem_append_left _ hw
  have hboth := (h.intern .cells v).same_iff (List.mem_append_left _ hw')
    (List.mem_append_right _ (List.mem_singleton.2 rfl))
  exact hv _ (hboth.1 rfl ▸ hw')

theorem pointsTo_serve_of_ne (t : Served) {r : Request} {c : CellId}
    (hr : ∀ objects, r ≠ .grow c objects) : (t.serve r).entities.pointsTo c = t.entities.pointsTo c := by
  cases r with
  | intern k v => exact pointsTo_intern t.entities k v c
  | lookup k v => rfl
  | grow d objects =>
    have hne : c ≠ d := fun heq => hr objects (heq ▸ rfl)
    ext o
    show o ∈ (t.entities.grow d objects).pointsTo c ↔ _
    simp [mem_pointsTo_grow_iff, hne]

/-- A number stands for one value for good, numbers follow the first requests without a gap and fit a
machine word as long as there are not too many, looking for a number gives none out, and each cell has a
set of its own. -/
structure Canonical (t : Served) : Prop where
  same : ∀ k v w i j, .interned k v i ∈ t.history → .interned k w j ∈ t.history → (i = j ↔ v = w)
  stored : ∀ requests k v i, .interned k v i ∈ t.history →
    (t.serveAll requests).entities.value k i = v
  listed : ∀ k, (t.entities.numbering k).toList = firstAsked t.history k
  numbered : ∀ k v i, .interned k v i ∈ t.history ↔ (firstAsked t.history k)[i.index]? = some v
  fits : ∀ k, (firstAsked t.history k).length ≤ UInt32.size →
    ∀ v i, .interned k v i ∈ t.history → i.index < UInt32.size
  sought : ∀ before k v answer after, t.history = before ++ .sought k v answer :: after →
    ∀ i, answer = some i ↔ .interned k v i ∈ before
  sets : t.entities.contents.size = (firstAsked t.history .cells).length
  held : ∀ c o, o ∈ t.entities.pointsTo c ↔ Given t.history c o
  fresh : ∀ v, (∀ i, .interned .cells v i ∉ t.history) →
    (t.entities.intern .cells v).1.pointsTo (t.entities.intern .cells v).2 = ∅
  apart : ∀ r c, (∀ objects, r ≠ .grow c objects) →
    (t.serve r).entities.pointsTo c = t.entities.pointsTo c

end Served

/-- Whatever a collection of entities is asked for, and in whichever order, its numbers are canonical and
its cells are kept apart. -/
theorem served_canonical (requests : List Request) : (served requests).Canonical :=
  have h := Served.keeps_served requests
  { same := fun _ _ _ _ _ hv hw => h.same_iff hv hw
    stored := fun later _ _ _ hv => h.value_serveAll hv later
    listed := h.listed
    numbered := fun _ _ _ => h.interned_iff
    fits := fun _ hsize _ _ hv => Nat.lt_of_lt_of_le (h.index_lt hv) hsize
    sought := fun before _ _ _ after heq => h.sought before _ after heq _ _ _ rfl
    sets := h.size_contents
    held := h.held
    fresh := fun _ hv => h.pointsTo_intern_new hv
    apart := fun _ _ hr => Served.pointsTo_serve_of_ne _ hr }

end Entities

end PointsTo
