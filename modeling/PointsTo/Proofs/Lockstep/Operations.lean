import PointsTo.Proofs.Lockstep.Contexts
import PointsTo.Proofs.Lockstep.Oblivious

/-! States in lockstep. Two states are in lockstep if they differ in their contexts only, and the contexts
of the second list the classes of the objects that those of the first list. Most operations do not look
at contexts and so keep both states in lockstep at once; numbering a context does if both number what the
other does. -/

namespace PointsTo

namespace State

/-- The state with other contexts behind its numbers. -/
def withContexts (s : State) (n : Numbering Context) : State :=
  { s with entities := { s.entities with contexts := n } }

/-- The second state is the first one with objects spoken of by their classes in contexts. -/
structure Retyped (s u : State) : Prop where
  contexts : u.entities.contexts.toList = s.entities.contexts.toList.map s.entities.typed
  rest : u = s.withContexts u.entities.contexts

theorem Retyped.work_eq {s u : State} (h : s.Retyped u) : u.work = s.work := by
  rw [h.rest]
  rfl

/-- The first state keeps to merged objects besides, among them some that are known. -/
structure Lockstep (known : Set QObjectId) (s u : State) : Prop extends Retyped s u where
  merged : s.entities.Merged
  known : ∀ o ∈ known, s.entities.IsQObject o

/-! ### Operations that do not look at contexts -/

/-- The operation neither reads nor numbers contexts, and it numbers no object. -/
structure Blind (op : State → State) : Prop where
  withContexts : ∀ s n, op (s.withContexts n) = (op s).withContexts n
  contexts : ∀ s, (op s).entities.contexts = s.entities.contexts
  objects : ∀ s, (op s).entities.objects = s.entities.objects
  qobjects : ∀ s, (op s).entities.qobjects = s.entities.qobjects

namespace Blind

variable {op op' : State → State}

theorem comp (h : Blind op) (h' : Blind op') : Blind fun s => op' (op s) where
  withContexts s n := by rw [h.withContexts, h'.withContexts]
  contexts s := (h'.contexts _).trans (h.contexts s)
  objects s := (h'.objects _).trans (h.objects s)
  qobjects s := (h'.qobjects _).trans (h.qobjects s)

end Blind

theorem blind_record (e : Event) : Blind (·.record e) :=
  ⟨fun _ _ => rfl, fun _ => rfl, fun _ => rfl, fun _ => rfl⟩

/-- Contexts are among what may be behind the numbers. -/
theorem Oblivious.blind {op : State → State} (h : Oblivious op) : Blind op where
  withContexts s n := by
    calc
      op (s.withContexts n) =
          (op s).withNumbers n s.entities.objects s.entities.qcalls s.events := h.withNumbers s n _ _ _
      _ = (op s).withNumbers n (op s).entities.objects (op s).entities.qcalls (op s).events := by
        rw [h.objects, h.qcalls, h.events]
      _ = (op s).withContexts n := rfl
  contexts := h.contexts
  objects := h.objects
  qobjects := h.qobjects

theorem blind_addCell (c : Cell) : Blind (·.addCell c) := (oblivious_addCell c).blind

theorem blind_give (c : Cell) (o : QObjectId) : Blind (·.give c o) := (oblivious_give c o).blind

theorem blind_connect (x y : Cell) : Blind (·.connect x y) := (oblivious_connect x y).blind

theorem blind_connectAll (flows : List (Cell × Cell)) : Blind (·.connectAll flows) :=
  (oblivious_connectAll flows).blind

/-- The call site has the same number whatever is behind the numbers of contexts. -/
theorem blind_requestCall (kind : CallKind) (site : Qualified .call) (callee : Qualified .method) :
    Blind (·.requestCall kind site callee) := by
  have hrequest : ∀ c, Blind fun s => (s.addQMethod callee).requestFrom kind c callee :=
    fun c => ((oblivious_addQMethod callee).comp (oblivious_requestFrom kind c callee)).blind
  constructor
  case withContexts => exact fun s n => (hrequest _).withContexts (s.addQCall site) n
  case contexts => exact fun s => (hrequest _).contexts (s.addQCall site)
  case objects => exact fun s => (hrequest _).objects (s.addQCall site)
  case qobjects => exact fun s => (hrequest _).qobjects (s.addQCall site)

theorem blind_spread (c : CellId) (objects : IdSet (.qualified .object)) :
    Blind (·.spread c objects) := (oblivious_spread c objects).blind

/-! ### Keeping in lockstep -/

namespace Lockstep

variable {known : Set QObjectId} {s u : State} (h : Lockstep known s u)

include h

theorem exists_eq : ∃ n, u = s.withContexts n := ⟨_, h.rest⟩

theorem isImage : u.entities.contexts.IsImage s.entities.typed s.entities.contexts := h.contexts

theorem context (c : ContextId) : u.entities.context c = s.entities.typed (s.entities.context c) :=
  h.isImage.getD_values (a := default) (b := default) rfl c.index

theorem blind {op : State → State} (hop : Blind op) : Lockstep known (op s) (op u) where
  contexts := by
    rw [hop.contexts, hop.contexts, Entities.typed_of_objects_eq (hop.objects s)]
    exact h.contexts
  rest := by
    rw [hop.contexts]
    calc
      op u = op (s.withContexts u.entities.contexts) := congrArg op h.rest
      _ = (op s).withContexts u.entities.contexts := hop.withContexts s _
  merged := h.merged.of_eq (hop.objects s) (hop.contexts s) (hop.qobjects s)
  known o ho := by
    rw [Entities.IsQObject, hop.qobjects]
    exact h.known o ho

/-- What is known stays known, so more of it can be named at any time. -/
theorem know {more : Set QObjectId} (hmore : ∀ o ∈ more, s.entities.IsQObject o) :
    Lockstep more s u :=
  { h with known := hmore }

/-- The two contexts get the same number. -/
theorem addContext {c d : Context} (hc : s.entities.ListsObjects c) (hd : d = s.entities.typed c) :
    Lockstep known (s.addContext c) (u.addContext d) ∧
      (u.addContext d).entities.contextId d = (s.addContext c).entities.contextId c := by
  subst hd
  have himage : (u.entities.contexts.insert (s.entities.typed c)).IsImage s.entities.typed
      (s.entities.contexts.insert c) :=
    h.isImage.insert fun b hb heq => h.merged.typed_injective (h.merged.contexts b hb) hc heq
  obtain ⟨n, rfl⟩ := h.exists_eq
  refine ⟨⟨⟨himage, rfl⟩, h.merged.addContext hc, h.known⟩, Id.ext ?_⟩
  exact himage.indexOf (Numbering.mem_insert_self _ c)

theorem addObject {o : HeapObject} (ho : o.merge = o) :
    Lockstep known (s.addObject o) (u.addObject o) := by
  have himage : u.entities.contexts.IsImage (s.addObject o).entities.typed s.entities.contexts :=
    h.isImage.congr fun c hc =>
      ((Entities.extends_addObject s.entities o).typed (h.merged.contexts c hc)).symm
  obtain ⟨n, rfl⟩ := h.exists_eq
  exact ⟨⟨himage, rfl⟩, h.merged.addObject ho, h.known⟩

theorem addQObject {o : Qualified .object} (ho : s.entities.IsObject o.item) :
    Lockstep known (s.addQObject o) (u.addQObject o) := by
  have hcontexts := h.contexts
  obtain ⟨n, rfl⟩ := h.exists_eq
  refine ⟨⟨hcontexts, rfl⟩, h.merged.addQObject ho, fun q hq => ?_⟩
  exact (Entities.extends_addQObject s.entities o).isQObject (h.known q hq)

end Lockstep

/-- Operations that keep in lockstep do so one after the other. -/
theorem Lockstep.foldl {known : Set QObjectId} {β : Type} {op op' : State → β → State} {l : List β}
    (hstep : ∀ s u, Lockstep known s u → ∀ b ∈ l, Lockstep known (op s b) (op' u b)) {s u : State}
    (h : Lockstep known s u) : Lockstep known (l.foldl op s) (l.foldl op' u) :=
  List.foldl_rel h fun b hb s u hsu => hstep s u hsu b hb

end State

end PointsTo
