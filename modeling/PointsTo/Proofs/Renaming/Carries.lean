import PointsTo.Proofs.Renaming.Basic
import PointsTo.Proofs.Solver.Figures

/-! Runs under other names. Final states with the same facts have renamings of their entities, and each
of these carries what one state has established over to the other, no more and no less. -/

namespace PointsTo

/-- The renaming takes what the first state has established to what the second has. -/
structure Renaming.Carries {s u : State} (ρ : Renaming s.entities u.entities) : Prop where
  pointsTo : ∀ c, s.entities.IsCell c →
    ρ.qobject '' {o | o ∈ s.entities.pointsTo c} = {o | o ∈ u.entities.pointsTo (ρ.cell c)}
  flow : Prod.map ρ.cell ρ.cell '' {e | e ∈ s.flow.edges} = {e | e ∈ u.flow.edges}
  calls : ρ.edge '' {e | e ∈ s.calls.edges.toList} = {e | e ∈ u.calls.edges.toList}
  containers : ∀ c, s.entities.IsQCall c →
    u.calls.container? (ρ.qcall c) = (s.calls.container? c).map ρ.qmethod
  entries : ρ.qmethod '' {x | x ∈ s.calls.entries.toList} = {x | x ∈ u.calls.entries.toList}
  reachable : ρ.qmethod '' {x | x ∈ s.calls.reachable.toList} = {x | x ∈ u.calls.reachable.toList}

namespace State

variable {a : Analysis} {s u : State}

/-- Sets that read alike differ by any map that respects the readings. -/
theorem image_eq_of_read {α β γ : Type} {A : Set α} {B K : Set β} {e : α → β} {f : α → γ} {g : β → γ}
    (hg : Set.InjOn g K) (hB : B ⊆ K) (he : ∀ x ∈ A, e x ∈ K ∧ g (e x) = f x)
    (h : f '' A = g '' B) : e '' A = B := by
  ext y
  constructor
  · rintro ⟨x, hx, rfl⟩
    obtain ⟨hK, hread⟩ := he x hx
    obtain ⟨y, hy, heq⟩ : f x ∈ g '' B := h ▸ Set.mem_image_of_mem f hx
    rwa [hg hK (hB hy) (hread.trans heq.symm)]
  · intro hy
    obtain ⟨x, hx, heq⟩ : g y ∈ f '' A := h ▸ Set.mem_image_of_mem g hy
    obtain ⟨hK, hread⟩ := he x hx
    exact ⟨x, hx, hg hK (hB hy) (hread.trans heq)⟩

/-- What a cell holds, read structurally. -/
theorem Final.image_pointsTo (hs : s.Final a) {c : CellId} (hc : s.entities.IsCell c) :
    s.entities.qobjectAt '' {o | o ∈ s.entities.pointsTo c} =
      {q | (s.entities.cellAt c, q) ∈ s.facts.pointsTo} := by
  ext q
  constructor
  · rintro ⟨o, ho, rfl⟩
    exact ⟨c, o, ho, rfl⟩
  · intro h
    obtain ⟨d, o, ho, heq⟩ := h
    obtain ⟨hcell, rfl⟩ := Prod.mk.inj heq
    obtain rfl := hs.sound.entities.cellAt_injective (hs.sound.due d o (Or.inl ho)).1 hc hcell
    exact ⟨o, ho, rfl⟩

theorem Final.image_entries (hs : s.Final a) :
    s.entities.qmethodAt '' {x | x ∈ s.calls.entries.toList} = {⟨.empty, a.program.entry⟩} := by
  ext y
  constructor
  · rintro ⟨x, hx, rfl⟩
    exact (hs.sound.entries x hx).2
  · rintro rfl
    obtain ⟨x, hx⟩ := hs.entry
    exact ⟨x, hx, (hs.sound.entries x hx).2⟩

section Same

variable (hs : s.Final a) (hu : u.Final a) (h : s.facts = u.facts)

include hs hu h

theorem Final.exists_renaming : Nonempty (Renaming s.entities u.entities) := by
  apply Renaming.exists_of_images hs.sound.entities hu.sound.entities
  · rw [hs.image_contextAt, hu.image_contextAt, h]
  · rw [hs.image_object, hu.image_object, h]
  · rw [hs.image_qobjectAt, hu.image_qobjectAt, h]
  · rw [hs.image_qmethodAt, hu.image_qmethodAt, h]
  · rw [hs.image_qcallAt, hu.image_qcallAt, h]
  · rw [hs.image_cellAt, hu.image_cellAt, h]

theorem Final.carries (ρ : Renaming s.entities u.entities) : ρ.Carries := by
  have hst := hs.sound.entities
  have hut := hu.sound.entities
  constructor
  case pointsTo =>
    intro c hc
    refine image_eq_of_read (fun _ ho _ hp h => hut.qobjectAt_injective ho hp h)
      (fun o ho => (hu.sound.due _ o (Or.inl ho)).2.1) (fun o ho => ?_)
      ((hs.image_pointsTo hc).trans ?_)
    · have hobject := (hs.sound.due c o (Or.inl ho)).2.1
      exact ⟨ρ.bijOn_qobject.mapsTo hobject, ρ.qobjectAt hst hobject⟩
    · rw [hu.image_pointsTo (ρ.bijOn_cell.mapsTo hc), ρ.cellAt hst hc, h]
  case flow =>
    refine image_eq_of_read hut.map_cellAt_injOn hu.sound.scope.flow_subset (fun e he => ?_)
      ((image_flow s).trans ((congrArg Facts.flow h).trans (image_flow u).symm))
    obtain ⟨hsource, htarget⟩ := hs.sound.scope.flow_subset he
    exact ⟨⟨ρ.bijOn_cell.mapsTo hsource, ρ.bijOn_cell.mapsTo htarget⟩,
      Prod.ext (ρ.cellAt hst hsource) (ρ.cellAt hst htarget)⟩
  case calls =>
    refine image_eq_of_read hut.edgeAt_injOn hu.sound.scope.edges_subset (fun e he => ?_)
      (congrArg Facts.calls h)
    obtain ⟨hsite, hcallee⟩ := hs.sound.scope.edges_subset he
    exact ⟨⟨ρ.bijOn_qcall.mapsTo hsite, ρ.bijOn_qmethod.mapsTo hcallee⟩, ρ.edgeAt hst hsite hcallee⟩
  case containers =>
    intro c hc
    obtain ⟨x, hx, -, hmethod, hcontainer⟩ := hs.container hc
    obtain ⟨y, hy, -, hmethod', hcontainer'⟩ := hu.container (ρ.bijOn_qcall.mapsTo hc)
    rw [hx, hy, Option.map_some]
    refine congrArg some (hut.qmethodAt_injective hmethod' (ρ.bijOn_qmethod.mapsTo hmethod) ?_)
    rw [hcontainer', ρ.qmethodAt hst hmethod, ρ.qcallAt hst hc, hcontainer]
  case entries =>
    refine image_eq_of_read (fun _ hx _ hy h => hut.qmethodAt_injective hx hy h)
      (fun x hx => (hu.sound.entries x hx).1) (fun x hx => ?_)
      (hs.image_entries.trans hu.image_entries.symm)
    have hmethod := (hs.sound.entries x hx).1
    exact ⟨ρ.bijOn_qmethod.mapsTo hmethod, ρ.qmethodAt hst hmethod⟩
  case reachable =>
    refine image_eq_of_read (fun _ hx _ hy h => hut.qmethodAt_injective hx hy h)
      (fun x hx => (hu.sound.reachable x hx).1) (fun x hx => ?_) (congrArg Facts.reach h)
    have hmethod := (hs.sound.reachable x hx).1
    exact ⟨ρ.bijOn_qmethod.mapsTo hmethod, ρ.qmethodAt hst hmethod⟩

end Same

end State

end PointsTo
