import Mathlib.Data.List.Nodup
import PointsTo.Program.Description
import PointsTo.Proofs.Drawing.Statements
import PointsTo.Proofs.Program.Accepted
import PointsTo.Views

/-! The drawings of a result. Every node and every edge of a view has its own line, and a label reads as the
text of its cell, method or call, but for brackets that meet. Contexts and cells bring brackets of their own
into that text: they meet others only behind the name of a class that itself ends in a bracket. -/

namespace PointsTo

open Dot

namespace Dot

/-- The graph can be drawn, and its nodes are told apart in the drawing. -/
def Graph.Drawn (g : Graph) : Prop :=
  (g.nodes.map (·.id)).Nodup ∧ ∃ lines, render? g = some lines ∧ g.DrawnBy lines

/-- Each label is drawn as it is. -/
def Graph.Intact (g : Graph) : Prop :=
  (∀ n ∈ g.nodes, Seamless n.label) ∧ ∀ e ∈ g.edges, Seamless e.label

/-- The text ends in a closing bracket. -/
def Closes (text : String) : Prop := text.toList.getLast? = some ']'

instance (text : String) : Decidable (Closes text) :=
  inferInstanceAs (Decidable (text.toList.getLast? = some ']'))

theorem Graph.drawn_of_isIdentifier {g : Graph} (hname : isIdentifier g.name.toList = true)
    (hids : (g.nodes.map (·.id)).Nodup) : g.Drawn := by
  have hlines : ∃ lines, render? g = some lines := by
    rw [render?, if_pos hname]
    exact ⟨_, rfl⟩
  obtain ⟨lines, hlines⟩ := hlines
  exact ⟨hids, lines, hlines, drawnBy_of_render? hlines⟩

section Texts

variable {a b sep : String}

theorem Seamless.of_bare (h : Bare a.toList) : Seamless a := fun hseam => (h _ hseam.mem.1).2.2 rfl

theorem Seamless.append (ha : Seamless a) (hb : Seamless b)
    (hmeet : ¬ (Closes a ∧ b.toList.head? = some '[')) : Seamless (a ++ b) := by
  rw [Seamless, String.toList_append, hasSeam_append]
  rintro (h | h | h)
  · exact ha h
  · exact hb h
  · exact hmeet h

theorem not_closes_append (ha : ¬ Closes a) (hb : ¬ Closes b) : ¬ Closes (a ++ b) := by
  unfold Closes at *
  rw [String.toList_append, List.getLast?_append]
  cases h : b.toList.getLast? with
  | none => simpa using ha
  | some c => simpa [h] using hb

theorem not_closes_of_bare (h : Bare a.toList) : ¬ Closes a := fun hlast =>
  (h _ (List.mem_of_getLast? hlast)).2.2 rfl

theorem not_closes_append_of_bare (hsep : Bare sep.toList ∧ sep.toList ≠ []) : ¬ Closes (a ++ sep) := by
  rw [Closes, String.toList_append, List.getLast?_append_of_ne_nil _ hsep.2]
  exact not_closes_of_bare hsep.1

/-- What stands between two texts keeps their brackets apart. -/
theorem Seamless.join (ha : Seamless a) (hb : Seamless b) (hsep : Bare sep.toList ∧ sep.toList ≠ []) :
    Seamless (a ++ sep ++ b) := by
  have hfront : Seamless (a ++ sep) := ha.append (.of_bare hsep.1) fun h =>
    (hsep.1 _ (List.mem_of_head? h.2)).2.1 rfl
  exact hfront.append hb fun h => not_closes_append_of_bare hsep h.1

theorem bare_intercalate {texts : List String} (h : ∀ t ∈ texts, Bare t.toList)
    (hsep : Bare sep.toList) : Bare (sep.intercalate texts).toList := by
  induction texts with
  | nil => exact List.forall_mem_nil _
  | cons t texts ih =>
    obtain ⟨ht, htexts⟩ := List.forall_mem_cons.1 h
    cases texts with
    | nil => simpa using ht
    | cons u texts =>
      rw [String.intercalate_cons_cons, String.toList_append, String.toList_append]
      exact (ht.append hsep).append (ih htexts)

end Texts

end Dot

theorem ContextElem.bare_text (e : ContextElem) : Bare e.text.toList := by
  cases e <;>
  · simp only [text, String.toList_append]
    exact Bare.append (by decide) (bare_toString _)

theorem ContextOf.seamless_text (c : Context) : Seamless c.text := by
  have helems : Bare (", ".intercalate (c.elems.map ContextElem.text)).toList :=
    bare_intercalate (List.forall_mem_map.2 fun e _ => e.bare_text) (by decide)
  have hopen : Seamless ("[" ++ ", ".intercalate (c.elems.map ContextElem.text)) :=
    Seamless.append (by decide) (.of_bare helems) fun h => (helems _ (List.mem_of_head? h.2)).2.1 rfl
  exact hopen.append (by decide) fun h => absurd h.2 (by decide)

namespace Model

/-- No name has brackets that meet, and none of a class ends in a closing one. So `A` may be the name of a
class and `m(A[])` a subsignature, but not `A[]` or `m(A[][])`. -/
structure SeamlessNames (m : Model) : Prop where
  classes : ∀ c, Seamless (m.className c) ∧ ¬ Closes (m.className c)
  subsignatures : ∀ x, Seamless (m.method x).subsignature.text
  fields : ∀ f, Seamless (m.field f).name
  vars : ∀ v, Seamless (m.var v).name

namespace SeamlessNames

variable {m : Model} (h : m.SeamlessNames)

include h

theorem methodSignature (x : MethodId) : Seamless (m.methodSignature x) :=
  (h.classes _).1.join (h.subsignatures x) (by decide)

theorem fieldSignature (f : FieldId) : Seamless (m.fieldSignature f) :=
  (h.classes _).1.join (h.fields f) (by decide)

theorem varSignature (v : VarId) : Seamless (m.varSignature v) :=
  (h.vars v).join (h.methodSignature _) (by decide)

theorem callSignature (c : CallId) : Seamless (m.callSignature c) :=
  (h.methodSignature _).join (.of_bare (bare_toString _)) (by decide)

theorem siteSignature (s : SiteId) : Seamless (m.siteSignature s) := by
  have hclass : Seamless ("new " ++ m.className (m.site s).cls) :=
    Seamless.append (by decide) (h.classes _).1 fun hmeet => absurd hmeet.1 (by decide)
  exact (hclass.join (h.methodSignature _) (by decide)).join (.of_bare (bare_toString _)) (by decide)

theorem objectText (o : HeapObject) : Seamless (o.text m) ∧ ¬ Closes (o.text m) := by
  rw [HeapObject.text]
  cases o.origin with
  | site site =>
    exact ⟨h.siteSignature site, not_closes_append (not_closes_append_of_bare (by decide))
      (not_closes_of_bare (bare_toString _))⟩
  | merged cls =>
    have hclass : Seamless ("merged " ++ m.className cls) :=
      Seamless.append (by decide) (h.classes _).1 fun hmeet => absurd hmeet.1 (by decide)
    exact ⟨hclass, not_closes_append (by decide) (h.classes cls).2⟩

end SeamlessNames

end Model

namespace Result

variable {r : Result}

section Names

variable (h : r.program.toModel.SeamlessNames)

include h

theorem seamless_qobjectText (o : QObjectId) :
    Seamless (r.qobjectText o) ∧ ¬ Closes (r.qobjectText o) := by
  obtain ⟨hobject, hend⟩ := h.objectText (r.entities.object (r.entities.qobject o).item)
  exact ⟨(ContextOf.seamless_text _).join hobject (by decide),
    not_closes_append (not_closes_append_of_bare (by decide)) hend⟩

theorem seamless_qmethodText (x : QMethodId) : Seamless (r.qmethodText x) :=
  (ContextOf.seamless_text _).join (h.methodSignature _) (by decide)

theorem seamless_qcallText (c : QCallId) : Seamless (r.qcallText c) :=
  (ContextOf.seamless_text _).join (h.callSignature _) (by decide)

theorem seamless_cellText (c : CellId) : Seamless (r.cellText c) := by
  rw [cellText]
  split
  next context v _ => exact (ContextOf.seamless_text _).join (h.varSignature v) (by decide)
  next base f _ => exact (seamless_qobjectText h base).1.join (h.fields f) (by decide)
  next f _ => exact h.fieldSignature f
  next base _ =>
    obtain ⟨hbase, hend⟩ := seamless_qobjectText h base
    exact hbase.append (by decide) fun hmeet => hend hmeet.1

/-- With such names every label of both views is drawn as it is. -/
theorem views_intact : r.flowView.Intact ∧ r.callView.Intact := by
  refine ⟨⟨?_, ?_⟩, ?_, ?_⟩
  · exact List.forall_mem_map.2 fun c _ => seamless_cellText h c
  · exact List.forall_mem_map.2 fun f _ => (by decide : Seamless "")
  · exact List.forall_mem_map.2 fun x _ => seamless_qmethodText h x
  · intro e he
    obtain ⟨f, -, hf⟩ := List.mem_filterMap.1 he
    obtain ⟨x, -, rfl⟩ := Option.map_eq_some_iff.1 hf
    exact seamless_qcallText h f.site

end Names

/-- Every node and every edge of the views has its own line, whose label reads as its text, but for
brackets in it that meet. -/
theorem views_drawn (r : Result) : r.flowView.Drawn ∧ r.callView.Drawn := by
  constructor
  · have hname : isIdentifier "pointer_flow".toList = true := by decide
    refine Graph.drawn_of_isIdentifier hname ?_
    rw [flowView, List.map_map]
    exact List.Nodup.map (fun _ _ => Id.ext) (Numbering.nodup_toList _)
  · have hname : isIdentifier "call_graph".toList = true := by decide
    refine Graph.drawn_of_isIdentifier hname ?_
    rw [callView, List.map_map]
    exact List.Nodup.map (fun _ _ => Id.ext) (Numbering.nodup_toList _)

/-- An array that holds itself, of a class with brackets in its name. -/
def arrays : Description where
  entry := "M.main()"
  classes :=
    [{ name := "A[]" },
     { name := "M"
       methods :=
        [{ signature := "main()"
           isStatic := true
           body := [.new "x" "A[]", .storeArray "x" "x", .loadArray "y" "x"] }] }]

/-- With one object for each class, the cell of the array has a text that no label reads as. -/
theorem exists_label_altered : ∃ p r lines, arrays.toProgram = .ok p ∧
    (⟨p, .insensitive, .type⟩ : Analysis).result .fifo none = .ok r ∧
    render? r.flowView = some lines ∧
      ∃ n ∈ r.flowView.nodes, n.label = "[] merged A[][*]" ∧ ∀ line ∈ lines, labelOf line ≠ n.label := by
  obtain ⟨p, hp, hchecked⟩ := exists_ok_of_any (e := arrays.toProgram)
    (f := fun p => ((⟨p, .insensitive, .type⟩ : Analysis).result .fifo none).toOption.any fun r =>
      (render? r.flowView).any fun lines => r.flowView.nodes.any fun n =>
        decide (n.label = "[] merged A[][*]" ∧ ∀ line ∈ lines, labelOf line ≠ n.label))
    (by decide +kernel)
  obtain ⟨r, hr, hdrawn⟩ := exists_ok_of_any hchecked
  obtain ⟨lines, hlines, hnodes⟩ := (Option.any_eq_true _ _).1 hdrawn
  obtain ⟨n, hn, haltered⟩ := List.any_eq_true.1 hnodes
  exact ⟨p, r, lines, hp, hr, hlines, n, hn, decide_eq_true_iff.1 haltered⟩

end Result

end PointsTo
