import PointsTo.Proofs.Lockstep.Contexts
import PointsTo.Proofs.Lockstep.Oblivious
import PointsTo.Proofs.Variants.TrimmedPrograms

/-! States of a program and of a trimmed one. As long as a state speaks of sites in kept methods only, their
numbers can close ranks and still be told apart, so both states number alike whatever they come across. -/

namespace PointsTo

namespace Relabeling

variable (ρ : Relabeling)

/-- The context with its call sites and types in other numbers. Objects are numbered anew in every run and
keep the numbers they have. -/
def numbered (c : Context) : Context := ρ.contextBy id c

def qcall (c : Qualified .call) : Qualified .call := ⟨c.context, ρ.call c.item⟩

def event : Event → Event
  | .reached x => .reached x
  | .staticCallWithoutTarget i => .staticCallWithoutTarget (ρ.call i)
  | .callWithoutTarget i o => .callWithoutTarget (ρ.call i) o
  | .called e => .called e

end Relabeling

namespace Program

section Kept

variable (p : Program) (keep : MethodId → Bool)

def KeepsContext (c : Context) : Prop := ∀ i, .callSite i ∈ c.elems → p.KeepsCall keep i

def KeepsObject (o : HeapObject) : Prop := ∀ i, o.origin = .site i → p.KeepsSite keep i

def KeepsEvent : Event → Prop
  | .staticCallWithoutTarget i | .callWithoutTarget i _ => p.KeepsCall keep i
  | .reached _ | .called _ => True

end Kept

variable {p : Program} {keep : MethodId → Bool}

/-! ### Numbers that are told apart -/

theorem site_injective {i j : SiteId} (hi : p.KeepsSite keep i) (hj : p.KeepsSite keep j)
    (h : (p.renumber keep).site i = (p.renumber keep).site j) : i = j := by
  apply Id.ext
  rcases Nat.lt_trichotomy i.index j.index with hlt | heq | hlt
  · exact absurd (congrArg Id.index h) (Nat.ne_of_lt (site_lt_site hi hlt))
  · exact heq
  · exact absurd (congrArg Id.index h) (Nat.ne_of_gt (site_lt_site hj hlt))

theorem call_injective {i j : CallId} (hi : p.KeepsCall keep i) (hj : p.KeepsCall keep j)
    (h : (p.renumber keep).call i = (p.renumber keep).call j) : i = j := by
  apply Id.ext
  rcases Nat.lt_trichotomy i.index j.index with hlt | heq | hlt
  · exact absurd (congrArg Id.index h) (Nat.ne_of_lt (call_lt_call hi hlt))
  · exact heq
  · exact absurd (congrArg Id.index h) (Nat.ne_of_gt (call_lt_call hj hlt))

theorem object_injective {o q : HeapObject} (ho : p.KeepsObject keep o) (hq : p.KeepsObject keep q)
    (h : (p.renumber keep).object o = (p.renumber keep).object q) : o = q := by
  obtain ⟨horigin, htype, hcontainer⟩ := HeapObject.mk.inj h
  have hsame : o.container = q.container := by
    rwa [show o.container.map (p.renumber keep).cls = o.container from Option.map_id_apply,
      show q.container.map (p.renumber keep).cls = q.container from Option.map_id_apply] at hcontainer
  obtain ⟨origin, type, container⟩ := o
  obtain ⟨origin', type', container'⟩ := q
  obtain rfl : type = type' := htype
  obtain rfl : container = container' := hsame
  cases origin with
  | site i =>
    cases origin' with
    | site j =>
      obtain rfl := site_injective (ho i rfl) (hq j rfl) (Origin.site.inj horigin)
      rfl
    | merged => cases horigin
  | merged c =>
    cases origin' with
    | site => cases horigin
    | merged d =>
      obtain rfl : c = d := Origin.merged.inj horigin
      rfl

theorem elem_injective {e f : ContextElem} (he : ∀ i, e = .callSite i → p.KeepsCall keep i)
    (hf : ∀ i, f = .callSite i → p.KeepsCall keep i)
    (h : (p.renumber keep).elem id e = (p.renumber keep).elem id f) : e = f := by
  cases e with
  | callSite i =>
    cases f with
    | callSite j => exact congrArg _ (call_injective (he i rfl) (hf j rfl) (ContextElemOf.callSite.inj h))
    | object | type => cases h
  | object o =>
    cases f with
    | object q => exact congrArg _ (ContextElemOf.object.inj h)
    | callSite | type => cases h
  | type c =>
    cases f with
    | type d => exact congrArg ContextElemOf.type (ContextElemOf.type.inj h)
    | callSite | object => cases h

theorem numbered_injective {c d : Context} (hc : p.KeepsContext keep c) (hd : p.KeepsContext keep d)
    (h : (p.renumber keep).numbered c = (p.renumber keep).numbered d) : c = d := by
  have helems : c.elems.map ((p.renumber keep).elem id) = d.elems.map ((p.renumber keep).elem id) :=
    congrArg ContextOf.elems h
  have hlength : c.elems.length = d.elems.length := by simpa using congrArg List.length helems
  refine congrArg ContextOf.mk (List.ext_getElem hlength fun n hn hn' => ?_)
  have hget := congrArg (·[n]?) helems
  apply @elem_injective p keep
  · exact fun i hi => hc i (hi ▸ List.getElem_mem hn)
  · exact fun i hi => hd i (hi ▸ List.getElem_mem hn')
  · simpa [hn, hn'] using hget

/-! ### Contexts that speak of kept call sites only -/

namespace KeepsContext

variable {c : Context}

theorem empty : p.KeepsContext keep .empty := fun _ hi => absurd hi List.not_mem_nil

theorem last (hc : p.KeepsContext keep c) (k : Nat) : p.KeepsContext keep (c.last k) :=
  fun i hi => hc i (ContextOf.mem_of_mem_last hi)

theorem append (hc : p.KeepsContext keep c) {e : ContextElem}
    (he : ∀ i, e = .callSite i → p.KeepsCall keep i) (k : Nat) : p.KeepsContext keep (c.append e k) := by
  intro i hi
  rcases ContextOf.mem_of_mem_append hi with hi | hi
  · exact hc i hi
  · exact he i hi.symm

theorem heapContext (hc : p.KeepsContext keep c) (σ : Selector) :
    p.KeepsContext keep (σ.heapContext c) := by
  cases σ with
  | insensitive => exact .empty
  | callString _ n | object _ n | type _ n => exact hc.last n

theorem calleeContext (hc : p.KeepsContext keep c) (σ : Selector) {i : CallId} (hi : p.KeepsCall keep i)
    {r : Option Receiver} (hr : ∀ x ∈ r, p.KeepsContext keep x.context) :
    p.KeepsContext keep (σ.calleeContext c i r) := by
  cases σ with
  | insensitive => exact .empty
  | callString k n => exact hc.append (fun _ hj => ContextElemOf.callSite.inj hj ▸ hi) k
  | object k n =>
    cases r with
    | none => exact hc
    | some r => exact (hr r rfl).append (fun _ hj => by cases hj) k
  | type k n =>
    cases r with
    | none => exact hc
    | some r => exact (hr r rfl).append (fun _ hj => by cases hj) k

end KeepsContext

theorem keepsObject_object (h : HeapModel) {i : SiteId} (hi : p.KeepsSite keep i) :
    p.KeepsObject keep (h.object p.toModel i) := by
  intro j hj
  cases h with
  | allocationSite => exact Origin.site.inj hj ▸ hi
  | type => cases hj

end Program

/-- Nothing but sites in kept methods is spoken of. -/
structure Entities.Keeps (p : Program) (keep : MethodId → Bool) (t : Entities) : Prop where
  contexts : ∀ c ∈ t.contexts.toList, p.KeepsContext keep c
  objects : ∀ o ∈ t.objects.toList, p.KeepsObject keep o
  qcalls : ∀ c ∈ t.qcalls.toList, p.KeepsCall keep c.item

namespace State

/-- The second state is the first one with allocation sites and call sites in other numbers. -/
structure Renumbered (ρ : Relabeling) (s u : State) : Prop where
  contexts : u.entities.contexts.toList = s.entities.contexts.toList.map ρ.numbered
  objects : u.entities.objects.toList = s.entities.objects.toList.map ρ.object
  qcalls : u.entities.qcalls.toList = s.entities.qcalls.toList.map ρ.qcall
  events : u.events = s.events.map ρ.event
  rest : u = s.withNumbers u.entities.contexts u.entities.objects u.entities.qcalls u.events

/-- The states are alike up to the numbers of the sites that are left in a trimmed program. -/
structure InStep (p : Program) (keep : MethodId → Bool) (s u : State) : Prop
    extends Renumbered (p.renumber keep) s u where
  keeps : s.entities.Keeps p keep
  keepsEvents : ∀ e ∈ s.events, p.KeepsEvent keep e

theorem Renumbered.work_eq {ρ : Relabeling} {s u : State} (h : s.Renumbered ρ u) : u.work = s.work := by
  rw [h.rest]
  rfl

namespace InStep

variable {p : Program} {keep : MethodId → Bool} {s u : State} (h : InStep p keep s u)

include h

/-! ### Reading -/

theorem exists_eq : ∃ n m q e, n.toList = s.entities.contexts.toList.map (p.renumber keep).numbered ∧
    m.toList = s.entities.objects.toList.map (p.renumber keep).object ∧
      q.toList = s.entities.qcalls.toList.map (p.renumber keep).qcall ∧
        e = s.events.map (p.renumber keep).event ∧ u = s.withNumbers n m q e :=
  ⟨_, _, _, _, h.contexts, h.objects, h.qcalls, h.events, h.rest⟩

theorem image_contexts :
    u.entities.contexts.IsImage (p.renumber keep).numbered s.entities.contexts := h.contexts

theorem image_objects : u.entities.objects.IsImage (p.renumber keep).object s.entities.objects := h.objects

theorem image_qcalls : u.entities.qcalls.IsImage (p.renumber keep).qcall s.entities.qcalls := h.qcalls

theorem context (c : ContextId) :
    u.entities.context c = (p.renumber keep).numbered (s.entities.context c) :=
  h.image_contexts.getD_values (a := default) (b := default) rfl c.index

theorem object (o : ObjectId) : u.entities.object o = (p.renumber keep).object (s.entities.object o) :=
  h.image_objects.getD_values (a := default) (b := default) rfl o.index

theorem qcall (c : QCallId) : u.entities.qcall c = (p.renumber keep).qcall (s.entities.qcall c) :=
  h.image_qcalls.getD_values (a := default) (b := default) rfl c.index

theorem keepsContext (c : ContextId) : p.KeepsContext keep (s.entities.context c) := by
  by_cases hc : s.entities.IsContext c
  · exact h.keeps.contexts _ (Numbering.getD_mem hc _)
  · have hdefault : s.entities.context c = .empty := by
      rw [Entities.context, Array.getD_eq_getD_getElem?, Array.getElem?_eq_none (Nat.le_of_not_lt hc)]
      rfl
    rw [hdefault]
    exact .empty

theorem qobject (o : QObjectId) : u.entities.qobject o = s.entities.qobject o := by
  rw [h.rest]
  rfl

theorem qobjectId (o : Qualified .object) : u.entities.qobjectId o = s.entities.qobjectId o := by
  rw [h.rest]
  rfl

theorem qmethod (x : QMethodId) : u.entities.qmethod x = s.entities.qmethod x := by
  rw [h.rest]
  rfl

theorem receiver (o : QObjectId) :
    u.entities.receiver o = (p.renumber keep).receiver id (s.entities.receiver o) := by
  unfold Entities.receiver
  rw [h.qobject, h.context, h.object]
  rfl

/-! ### Operations -/

theorem oblivious {op : State → State} (hop : Oblivious op) : InStep p keep (op s) (op u) where
  contexts := by
    rw [hop.contexts, hop.contexts]
    exact h.contexts
  objects := by
    rw [hop.objects, hop.objects]
    exact h.objects
  qcalls := by
    rw [hop.qcalls, hop.qcalls]
    exact h.qcalls
  events := by
    rw [hop.events, hop.events]
    exact h.events
  rest := by
    rw [hop.contexts, hop.objects, hop.qcalls, hop.events]
    calc
      op u = op (s.withNumbers u.entities.contexts u.entities.objects u.entities.qcalls u.events) :=
        congrArg op h.rest
      _ = _ := hop.withNumbers s _ _ _ _
  keeps := by
    refine ⟨?_, ?_, ?_⟩
    · rw [hop.contexts]
      exact h.keeps.contexts
    · rw [hop.objects]
      exact h.keeps.objects
    · rw [hop.qcalls]
      exact h.keeps.qcalls
  keepsEvents := by
    rw [hop.events]
    exact h.keepsEvents

theorem record (e : Event) (he : p.KeepsEvent keep e) :
    InStep p keep (s.record e) (u.record ((p.renumber keep).event e)) := by
  have hkeepsEvents : ∀ f ∈ (s.record e).events, p.KeepsEvent keep f :=
    Array.forall_mem_push.2 ⟨he, h.keepsEvents⟩
  obtain ⟨n, m, q, f, hcontexts, hobjects, hqcalls, hevents, rfl⟩ := h.exists_eq
  refine ⟨⟨hcontexts, hobjects, hqcalls, ?_, rfl⟩, h.keeps, hkeepsEvents⟩
  show f.push _ = _
  rw [hevents]
  exact Array.map_push.symm

theorem addContext {c : Context} (hc : p.KeepsContext keep c) :
    InStep p keep (s.addContext c) (u.addContext ((p.renumber keep).numbered c)) ∧
      (u.addContext ((p.renumber keep).numbered c)).entities.contextId ((p.renumber keep).numbered c) =
        (s.addContext c).entities.contextId c := by
  have himage : (u.entities.contexts.insert ((p.renumber keep).numbered c)).IsImage
      (p.renumber keep).numbered (s.entities.contexts.insert c) :=
    h.image_contexts.insert fun d hd heq =>
      Program.numbered_injective (h.keeps.contexts d hd) hc heq
  have hkeeps : (s.addContext c).entities.Keeps p keep :=
    ⟨Numbering.forall_mem_insert h.keeps.contexts hc, h.keeps.objects, h.keeps.qcalls⟩
  obtain ⟨n, m, q, e, -, hobjects, hqcalls, hevents, rfl⟩ := h.exists_eq
  refine ⟨⟨⟨himage, hobjects, hqcalls, hevents, rfl⟩, hkeeps, h.keepsEvents⟩, Id.ext ?_⟩
  exact himage.indexOf (Numbering.mem_insert_self _ c)

theorem addObject {o : HeapObject} (ho : p.KeepsObject keep o) :
    InStep p keep (s.addObject o) (u.addObject ((p.renumber keep).object o)) ∧
      (u.addObject ((p.renumber keep).object o)).entities.objectId ((p.renumber keep).object o) =
        (s.addObject o).entities.objectId o := by
  have himage : (u.entities.objects.insert ((p.renumber keep).object o)).IsImage
      (p.renumber keep).object (s.entities.objects.insert o) :=
    h.image_objects.insert fun d hd heq => Program.object_injective (h.keeps.objects d hd) ho heq
  have hkeeps : (s.addObject o).entities.Keeps p keep :=
    ⟨h.keeps.contexts, Numbering.forall_mem_insert h.keeps.objects ho, h.keeps.qcalls⟩
  obtain ⟨n, m, q, e, hcontexts, -, hqcalls, hevents, rfl⟩ := h.exists_eq
  refine ⟨⟨⟨hcontexts, himage, hqcalls, hevents, rfl⟩, hkeeps, h.keepsEvents⟩, Id.ext ?_⟩
  exact himage.indexOf (Numbering.mem_insert_self _ o)

theorem addQCall {c : Qualified .call} (hc : p.KeepsCall keep c.item) :
    InStep p keep (s.addQCall c) (u.addQCall ((p.renumber keep).qcall c)) ∧
      (u.addQCall ((p.renumber keep).qcall c)).entities.qcallId ((p.renumber keep).qcall c) =
        (s.addQCall c).entities.qcallId c := by
  have himage : (u.entities.qcalls.insert ((p.renumber keep).qcall c)).IsImage
      (p.renumber keep).qcall (s.entities.qcalls.insert c) := by
    refine h.image_qcalls.insert fun d hd heq => ?_
    obtain ⟨hcontext, hitem⟩ := Qualified.mk.inj heq
    exact Qualified.ext hcontext (Program.call_injective (h.keeps.qcalls d hd) hc hitem)
  have hkeeps : (s.addQCall c).entities.Keeps p keep :=
    ⟨h.keeps.contexts, h.keeps.objects, Numbering.forall_mem_insert h.keeps.qcalls hc⟩
  obtain ⟨n, m, q, e, hcontexts, hobjects, -, hevents, rfl⟩ := h.exists_eq
  refine ⟨⟨⟨hcontexts, hobjects, himage, hevents, rfl⟩, hkeeps, h.keepsEvents⟩, Id.ext ?_⟩
  exact himage.indexOf (Numbering.mem_insert_self _ c)

/-- Objects under contexts are spoken of by numbers that both states share. -/
theorem addQObject (o : Qualified .object) : InStep p keep (s.addQObject o) (u.addQObject o) := by
  obtain ⟨n, m, q, e, hcontexts, hobjects, hqcalls, hevents, rfl⟩ := h.exists_eq
  have hkeeps : (s.addQObject o).entities.Keeps p keep :=
    ⟨h.keeps.contexts, h.keeps.objects, h.keeps.qcalls⟩
  exact ⟨⟨hcontexts, hobjects, hqcalls, hevents, rfl⟩, hkeeps, h.keepsEvents⟩

/-- A call edge is requested between the same numbers. -/
theorem requestCall (kind : CallKind) {site : Qualified .call} (hsite : p.KeepsCall keep site.item)
    (callee : Qualified .method) : InStep p keep (s.requestCall kind site callee)
      (u.requestCall kind ((p.renumber keep).qcall site) callee) := by
  obtain ⟨hadded, hid⟩ := h.addQCall hsite
  rw [requestCall_eq, requestCall_eq, hid]
  exact (hadded.oblivious (oblivious_addQMethod callee)).oblivious (oblivious_requestFrom kind _ callee)

end InStep

/-- Operations that keep in step do so one after the other. -/
theorem InStep.foldl {p : Program} {keep : MethodId → Bool} {β γ : Type} {op : State → β → State}
    {op' : State → γ → State} {f : β → γ} {l : List β}
    (hstep : ∀ s u, InStep p keep s u → ∀ b ∈ l, InStep p keep (op s b) (op' u (f b))) {s u : State}
    (h : InStep p keep s u) : InStep p keep (l.foldl op s) ((l.map f).foldl op' u) := by
  rw [List.foldl_map]
  exact List.foldl_rel h fun b hb s u hsu => hstep s u hsu b hb

end State

end PointsTo
