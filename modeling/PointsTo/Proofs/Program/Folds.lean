import Mathlib.Data.List.Forall2
import PointsTo.Proofs.Program.Descriptions

/-! Passes over lists. What a pass has done is kept by what it does next, as long as that leaves alone what
is settled; `E b c` says that `c` comes from `b` in such a way. -/

namespace PointsTo

variable {ε α β γ κ : Type}

/-- Two lists are related element by element if they are related at each place. -/
theorem forall₂_iff_getElem? {R : α → γ → Prop} {l : List α} {l' : List γ} :
    List.Forall₂ R l l' ↔ ∀ k : Nat, Option.Rel R l[k]? l'[k]? := by
  constructor
  · intro h k
    induction h generalizing k with
    | nil => exact .none
    | cons hab _ ih =>
      cases k with
      | zero => exact .some hab
      | succ k => exact ih k
  · intro h
    induction l generalizing l' with
    | nil =>
      cases l' with
      | nil => exact .nil
      | cons b l' => cases h 0
    | cons a l ih =>
      cases l' with
      | nil => cases h 0
      | cons b l' =>
        refine .cons ?_ (ih fun k => h (k + 1))
        cases h 0 with
        | some hab => exact hab

section OptionRel

variable {R S : α → γ → Prop} {o : Option α} {o' : Option γ} (hrel : Option.Rel R o o')

include hrel

theorem optionRel_imp (h : ∀ a b, R a b → S a b) : Option.Rel S o o' := by
  cases hrel with
  | none => exact .none
  | some hab => exact .some (h _ _ hab)

theorem optionRel_symm {T : γ → α → Prop} (h : ∀ a b, R a b → T b a) : Option.Rel T o' o := by
  cases hrel with
  | none => exact .none
  | some hab => exact .some (h _ _ hab)

theorem isSome_of_optionRel : o'.isSome = o.isSome := by
  cases hrel with
  | none => rfl
  | some => rfl

theorem map_eq_of_optionRel {f : α → κ} {g : γ → κ} (h : ∀ a b, R a b → g b = f a) :
    o'.map g = o.map f := by
  cases hrel with
  | none => rfl
  | some hab => exact congrArg some (h _ _ hab)

end OptionRel

theorem exists_of_optionRel {R : α → γ → Prop} {a : α} {o' : Option γ} (h : Option.Rel R (some a) o') :
    ∃ b, o' = some b ∧ R a b := by
  cases h with
  | some hab => exact ⟨_, rfl, hab⟩

/-- What is looked up on both sides, and found on both or on none. -/
theorem eq_map_of_isSome {o : Option α} {o' : Option γ} {f : α → γ} (hsome : o'.isSome = o.isSome)
    (hf : ∀ a ∈ o, ∀ b ∈ o', f a = b) : o' = o.map f := by
  cases o with
  | none => rwa [Option.isSome_none, Option.isSome_eq_false_iff, Option.isNone_iff_eq_none] at hsome
  | some a =>
    obtain ⟨b, rfl⟩ := Option.isSome_iff_exists.1 hsome
    exact congrArg some (hf a rfl b rfl).symm

/-- What is related to the same is the image of one another. -/
theorem eq_map_of_optionRel {R : α → β → Prop} {S : α → γ → Prop} {f : β → γ}
    (hf : ∀ a b c, R a b → S a c → c = f b) {o : Option α} {x : Option β} {y : Option γ}
    (hx : Option.Rel R o x) (hy : Option.Rel S o y) : y = x.map f := by
  cases hx with
  | none => cases hy with
    | none => rfl
  | some hab => cases hy with
    | some hac => exact congrArg some (hf _ _ _ hab hac)

theorem eq_map_of_forall₂ {R : α → β → Prop} {S : α → γ → Prop} {f : β → γ}
    (hf : ∀ a b c, R a b → S a c → c = f b) {l : List α} {xs : List β} {ys : List γ}
    (hxs : List.Forall₂ R l xs) (hys : List.Forall₂ S l ys) : ys = xs.map f := by
  induction hxs generalizing ys with
  | nil => cases hys with
    | nil => rfl
  | cons hab _ ih => cases hys with
    | cons hac hys => rw [List.map_cons, hf _ _ _ hab hac, ih hys]

theorem exists_of_forall₂ {R : α → γ → Prop} {l : List α} {l' : List γ} (h : List.Forall₂ R l l') {a : α}
    (ha : a ∈ l) : ∃ b ∈ l', R a b := by
  induction h with
  | nil => cases ha
  | cons hab _ ih =>
    rcases List.mem_cons.1 ha with rfl | ha
    · exact ⟨_, List.mem_cons_self, hab⟩
    · obtain ⟨b, hb, hR⟩ := ih ha
      exact ⟨b, List.mem_cons_of_mem _ hb, hR⟩

theorem forall₂_imp_mem {R S : α → γ → Prop} {l : List α} {l' : List γ} (h : List.Forall₂ R l l')
    (hRS : ∀ a ∈ l, ∀ b ∈ l', R a b → S a b) : List.Forall₂ S l l' := by
  induction h with
  | nil => exact .nil
  | cons hab _ ih =>
    refine .cons (hRS _ List.mem_cons_self _ List.mem_cons_self hab) (ih fun a ha b hb => ?_)
    exact hRS a (List.mem_cons_of_mem _ ha) b (List.mem_cons_of_mem _ hb)

theorem map_eq_of_forall₂ {R : α → γ → Prop} {l : List α} {l' : List γ} (h : List.Forall₂ R l l')
    {f : α → κ} {g : γ → κ} (hR : ∀ a b, R a b → g b = f a) : l'.map g = l.map f := by
  induction h with
  | nil => rfl
  | cons hab _ ih => rw [List.map_cons, List.map_cons, hR _ _ hab, ih]

section Fold

variable {f : β → α → Except ε β} {E : β → β → Prop} (hrefl : ∀ b, E b b)
  (htrans : ∀ {a b c}, E a b → E b c → E a c)

include hrefl htrans

/-- Each step adds one element to a list. -/
theorem foldlM_pushes (part : β → List γ) {R : β → α → γ → Prop}
    (hkeeps : ∀ {b c a e}, E b c → R b a e → R c a e) {l : List α} {b u : β}
    (hstep : ∀ c, E b c → ∀ a ∈ l, ∀ d, f c a = .ok d → E c d ∧ ∃ e, part d = part c ++ [e] ∧ R d a e)
    (h : l.foldlM f b = .ok u) :
    E b u ∧ ∃ es, part u = part b ++ es ∧ List.Forall₂ (R u) l es := by
  induction l generalizing b with
  | nil =>
    obtain rfl := Except.ok.inj h
    exact ⟨hrefl _, [], (List.append_nil _).symm, .nil⟩
  | cons a l ih =>
    obtain ⟨c, hc, hrest⟩ := exists_of_bind_eq_ok h
    obtain ⟨hbc, e, he, hR⟩ := hstep b (hrefl b) a List.mem_cons_self c hc
    obtain ⟨hcu, es, hes, hall⟩ := ih
      (fun d hd a ha => hstep d (htrans hbc hd) a (List.mem_cons_of_mem _ ha)) hrest
    refine ⟨htrans hbc hcu, e :: es, ?_, .cons (hkeeps hcu hR) hall⟩
    rw [hes, he, List.append_assoc]
    rfl

end Fold

section Settle

variable {f : β → κ × α → Except ε β} {E : β → β → Prop} (hrefl : ∀ b, E b b)
  (htrans : ∀ {a b c}, E a b → E b c → E a c)

include hrefl htrans

/-- Each step works on a part of its own. -/
theorem foldlM_settles (part : β → κ → γ) {R : β → κ → α → Prop}
    (hkeeps : ∀ {b c k a}, E b c → part c k = part b k → R b k a → R c k a) {l : List (κ × α)} {b u : β}
    (hstep : ∀ c, E b c → ∀ e ∈ l, part c e.1 = part b e.1 → ∀ d, f c e = .ok d →
      E c d ∧ R d e.1 e.2 ∧ ∀ k, k ≠ e.1 → part d k = part c k)
    (hnodup : (l.map Prod.fst).Nodup) (h : l.foldlM f b = .ok u) :
    E b u ∧ (∀ e ∈ l, R u e.1 e.2) ∧ ∀ k, k ∉ l.map Prod.fst → part u k = part b k := by
  induction l generalizing b with
  | nil =>
    obtain rfl := Except.ok.inj h
    exact ⟨hrefl _, fun e he => absurd he List.not_mem_nil, fun _ _ => rfl⟩
  | cons e l ih =>
    obtain ⟨c, hc, hrest⟩ := exists_of_bind_eq_ok h
    obtain ⟨hfirst, hnodup⟩ := List.nodup_cons.1 hnodup
    obtain ⟨hbc, hR, hothers⟩ := hstep b (hrefl b) e List.mem_cons_self rfl c hc
    have hlater : ∀ e' ∈ l, e'.1 ≠ e.1 := fun e' he' heq =>
      hfirst (heq ▸ List.mem_map_of_mem he')
    obtain ⟨hcu, hall, hkept⟩ := ih (fun d hd e' he' hpart => hstep d (htrans hbc hd) e'
      (List.mem_cons_of_mem _ he') (hpart.trans (hothers _ (hlater e' he')))) hnodup hrest
    refine ⟨htrans hbc hcu, fun e' he' => ?_, fun k hk => ?_⟩
    · rcases List.mem_cons.1 he' with rfl | he'
      · exact hkeeps hcu (hkept _ hfirst) hR
      · exact hall e' he'
    · rw [List.map_cons, List.mem_cons, not_or] at hk
      exact (hkept k hk.2).trans (hothers k hk.1)

end Settle

/-- Folds within a fold are one. -/
theorem foldlM_flatMap {f : β → γ → Except ε β} (g : α → List γ) (l : List α) (b : β) :
    (l.flatMap g).foldlM f b = l.foldlM (fun b a => (g a).foldlM f b) b := by
  induction l generalizing b with
  | nil => rfl
  | cons a l ih =>
    rw [List.flatMap_cons, List.foldlM_append, List.foldlM_cons]
    exact bind_congr fun c => ih c

/-- A fold succeeds if what its steps need is there for each in turn. -/
theorem exists_foldlM_eq_ok {f : β → α → Except ε β} (motive : List α → β → Prop)
    (hstep : ∀ a l b, motive (a :: l) b → ∃ c, f b a = .ok c ∧ motive l c) {l : List α} {b : β}
    (hb : motive l b) : ∃ u, l.foldlM f b = .ok u := by
  induction l generalizing b with
  | nil => exact ⟨b, rfl⟩
  | cons a l ih =>
    obtain ⟨c, hc, hrest⟩ := hstep a l b hb
    obtain ⟨u, hu⟩ := ih hrest
    refine ⟨u, ?_⟩
    rw [List.foldlM_cons, hc]
    exact hu

end PointsTo
