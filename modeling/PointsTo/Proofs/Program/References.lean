import Mathlib.Data.List.TakeDrop
import Mathlib.Data.List.TakeWhile
import PointsTo.CommandLine.Run
import PointsTo.Proofs.Program.Consistency

/-! References read back. A text is cut in one way at most: the owner ends before the parameter list, and the
member has no dot before its own. A signature of a variable is cut where it was joined unless the names are
odd, and then what it finds, if anything, is another variable. -/

namespace PointsTo

/-! ### The form of a reference -/

section Cuts

variable {l a b : List Char} {sep : Char}

theorem forall_bne_of_notMem (h : sep ∉ a) : ∀ x ∈ a, (x != sep) = true := by
  intro x hx
  rw [bne_iff_ne]
  rintro rfl
  exact h hx

theorem notMem_takeWhile_ne : sep ∉ l.takeWhile (· != sep) := by
  intro h
  simpa using List.mem_takeWhile_imp h

/-- A list is cut at its first separator. -/
theorem span_ne_eq_cons_iff {c : Char} :
    l.span (· != sep) = (a, c :: b) ↔ c = sep ∧ sep ∉ a ∧ l = a ++ sep :: b := by
  rw [List.span_eq_takeWhile_dropWhile, Prod.mk.injEq]
  constructor
  · rintro ⟨rfl, hdrop⟩
    have hc := List.head_dropWhile_not (· != sep) (l := l) (by simp [hdrop])
    simp only [hdrop, List.head_cons, bne_eq_false_iff_eq] at hc
    subst hc
    refine ⟨rfl, notMem_takeWhile_ne, ?_⟩
    rw [← hdrop, List.takeWhile_append_dropWhile]
  · rintro ⟨rfl, hsep, rfl⟩
    rw [List.takeWhile_append_of_pos (forall_bne_of_notMem hsep),
      List.dropWhile_append_of_pos (forall_bne_of_notMem hsep)]
    simp

/-- What is left over starts where the part ends. -/
theorem takeWhile_dropWhile_ne : (l.dropWhile (· != sep)).takeWhile (· != sep) = [] := by
  have hparts : l.takeWhile (· != sep) =
      l.takeWhile (· != sep) ++ (l.dropWhile (· != sep)).takeWhile (· != sep) := by
    rw [← List.takeWhile_append_of_pos (forall_bne_of_notMem notMem_takeWhile_ne),
      List.takeWhile_append_dropWhile]
  rwa [List.self_eq_append_right] at hparts

theorem cutMember?_eq_some_iff_exists {text owner member : List Char} :
    cutMember? text = some (owner, member) ↔ ∃ name, '.' ∉ name ∧
      text.takeWhile (· != '(') = owner ++ '.' :: name ∧ member = name ++ text.dropWhile (· != '(') := by
  constructor
  · intro h
    rw [cutMember?] at h
    split at h
    · cases h
    · next name c before hspan =>
      obtain ⟨-, hname, hhead⟩ := span_ne_eq_cons_iff.1 hspan
      obtain ⟨rfl, rfl⟩ := Prod.mk.inj (Option.some.inj h)
      refine ⟨name.reverse, by rwa [List.mem_reverse], ?_, rfl⟩
      rw [List.reverse_eq_iff] at hhead
      simp [hhead]
  · rintro ⟨name, hname, hhead, rfl⟩
    have hspan : (text.takeWhile (· != '(')).reverse.span (· != '.') =
        (name.reverse, '.' :: owner.reverse) := by
      refine span_ne_eq_cons_iff.2 ⟨rfl, by rwa [List.mem_reverse], ?_⟩
      simp [hhead]
    rw [cutMember?, hspan]
    simp

/-- The cut is at the one dot with no parenthesis before it, and no dot between it and the first
parenthesis. -/
theorem cutMember?_eq_some_iff {text owner member : List Char} :
    cutMember? text = some (owner, member) ↔ text = owner ++ '.' :: member ∧ '(' ∉ owner ∧
      '.' ∉ member.takeWhile (· != '(') := by
  rw [cutMember?_eq_some_iff_exists]
  constructor
  · rintro ⟨name, hname, hhead, rfl⟩
    have hparen : '(' ∉ owner ++ '.' :: name := hhead ▸ notMem_takeWhile_ne
    obtain ⟨howner, hparen⟩ : '(' ∉ owner ∧ '(' ∉ name := by simpa using hparen
    refine ⟨?_, howner, ?_⟩
    · calc text = text.takeWhile (· != '(') ++ text.dropWhile (· != '(') :=
          List.takeWhile_append_dropWhile.symm
        _ = owner ++ '.' :: (name ++ text.dropWhile (· != '(')) := by simp [hhead]
    · rwa [List.takeWhile_append_of_pos (forall_bne_of_notMem hparen), takeWhile_dropWhile_ne,
        List.append_nil]
  · rintro ⟨rfl, howner, hmember⟩
    have hall := forall_bne_of_notMem howner
    refine ⟨_, hmember, ?_, ?_⟩
    · rw [List.takeWhile_append_of_pos hall, List.takeWhile_cons_of_pos rfl]
    · rw [List.dropWhile_append_of_pos hall, List.dropWhile_cons_of_pos rfl,
        List.takeWhile_append_dropWhile]

end Cuts

theorem VarRef.ofText?_eq_some_iff {text : String} {r : VarRef} :
    VarRef.ofText? text = some r ↔ '@' ∉ r.name.toList ∧ text = r.name ++ "@" ++ r.method := by
  constructor
  · intro h
    rw [ofText?] at h
    split at h
    · cases h
    · next name c method hspan =>
      obtain ⟨-, hname, htext⟩ := span_ne_eq_cons_iff.1 hspan
      obtain rfl := Option.some.inj h
      refine ⟨by rwa [String.toList_ofList], String.toList_injective ?_⟩
      simp [htext]
  · rintro ⟨hname, rfl⟩
    have hspan : (r.name ++ "@" ++ r.method).toList.span (· != '@') = (r.name.toList, '@' :: r.method.toList) :=
      span_ne_eq_cons_iff.2 ⟨rfl, hname, by simp⟩
    rw [ofText?, hspan]
    simp

/-- The reference is read back from its text, since that is cut where it was joined. -/
structure MemberRef.Legible (r : MemberRef) : Prop where
  owner_ne : r.owner ≠ ""
  owner_paren : '(' ∉ r.owner.toList
  member_ne : r.member ≠ ""
  member_dot : '.' ∉ r.member.toList.takeWhile (· != '(')

instance (r : MemberRef) : Decidable r.Legible :=
  decidable_of_iff (r.owner ≠ "" ∧ '(' ∉ r.owner.toList ∧ r.member ≠ "" ∧
      '.' ∉ r.member.toList.takeWhile (· != '('))
    ⟨fun h => ⟨h.1, h.2.1, h.2.2.1, h.2.2.2⟩, fun h => ⟨h.1, h.2, h.3, h.4⟩⟩

theorem MemberRef.ofText?_eq_some_iff {text : String} {r : MemberRef} :
    MemberRef.ofText? text = some r ↔ r.Legible ∧ text = r.owner ++ "." ++ r.member := by
  have hcut : cutMember? text.toList = some (r.owner.toList, r.member.toList) ↔
      text = r.owner ++ "." ++ r.member ∧ '(' ∉ r.owner.toList ∧
        '.' ∉ r.member.toList.takeWhile (· != '(') := by
    rw [cutMember?_eq_some_iff, ← String.toList_inj]
    simp
  constructor
  · intro h
    rw [ofText?] at h
    split at h
    · cases h
    · next owner member hparts =>
      split at h
      · cases h
      · next hne =>
        obtain rfl := Option.some.inj h
        simp only [String.toList_ofList] at hcut
        obtain ⟨rfl, howner, hmember⟩ := hcut.1 hparts
        simp only [Bool.or_eq_true, List.isEmpty_iff, not_or] at hne
        refine ⟨⟨?_, ?_, ?_, ?_⟩, rfl⟩
        · simpa using hne.1
        · rwa [String.toList_ofList]
        · simpa using hne.2
        · rwa [String.toList_ofList]
  · rintro ⟨hr, htext⟩
    rw [ofText?, hcut.2 ⟨htext, hr.owner_paren, hr.member_dot⟩]
    have howner := hr.owner_ne
    have hmember := hr.member_ne
    simp [howner, hmember]

/-- The method by its class and its subsignature. -/
def Model.memberRef (m : Model) (x : MethodId) : MemberRef :=
  ⟨m.className (m.method x).owner, (m.method x).subsignature.text⟩

namespace Program

variable {p : Program} (hp : p.Accepted)

include hp

/-! ### What a reference finds -/

theorem lookupMethod?_eq_some_iff {r : MemberRef} {x : MethodId} :
    p.lookupMethod? r.owner ⟨r.member⟩ = some x ↔ p.IsMethod x ∧ p.memberRef x = r := by
  rw [lookupMethod?, Option.bind_eq_some_iff]
  constructor
  · rintro ⟨c, hc, hx⟩
    obtain ⟨-, hname⟩ := hp.registered.classNamed?_eq_some_iff.1 hc
    obtain ⟨hmethod, hsub, rfl⟩ := hp.registered.declaredMethod?_eq_some_iff.1 hx
    rw [Model.memberRef, hname, hsub]
    exact ⟨hmethod, rfl⟩
  · rintro ⟨hx, rfl⟩
    refine ⟨(p.method x).owner, hp.registered.classNamed?_eq_some_iff.2 ⟨?_, rfl⟩,
      hp.registered.declaredMethod?_eq_some_iff.2 ⟨hx, rfl, rfl⟩⟩
    exact (hp.scope.method hx).owner

theorem lookupVar?_eq_some_iff {text name : String} {v : VarId} :
    p.lookupVar? text name = some v ↔ p.IsVar v ∧ (p.var v).name = name ∧
      (p.memberRef (p.var v).method).Legible ∧ text = p.methodSignature (p.var v).method := by
  simp only [lookupVar?, Option.bind_eq_bind, Option.bind_eq_some_iff, MemberRef.ofText?_eq_some_iff,
    lookupMethod?_eq_some_iff hp, hp.registered.local?_eq_some_iff]
  constructor
  · rintro ⟨r, ⟨hr, rfl⟩, x, ⟨hx, rfl⟩, hv, rfl, rfl⟩
    exact ⟨hv, rfl, hr, rfl⟩
  · rintro ⟨hv, rfl, hr, rfl⟩
    exact ⟨_, ⟨hr, rfl⟩, _, ⟨(hp.scope.var hv), rfl⟩, hv, rfl, rfl⟩

/-- A variable is found under its signature, if at all. -/
theorem findVar_eq_ok_iff {text : String} {v : VarId} :
    CommandLine.findVar p text = .ok v ↔ p.IsVar v ∧ '@' ∉ (p.var v).name.toList ∧
      (p.memberRef (p.var v).method).Legible ∧ text = p.varSignature v := by
  have hfind : CommandLine.findVar p text = .ok v ↔
      ∃ r, VarRef.ofText? text = some r ∧ p.lookupVar? r.method r.name = some v := by
    rw [CommandLine.findVar]
    cases VarRef.ofText? text with
    | none => simp
    | some r => cases hlookup : p.lookupVar? r.method r.name <;> simp [hlookup]
  simp only [hfind, VarRef.ofText?_eq_some_iff, lookupVar?_eq_some_iff hp]
  constructor
  · rintro ⟨⟨name, method⟩, ⟨hat, rfl⟩, hv, rfl, hr, rfl⟩
    exact ⟨hv, hat, hr, rfl⟩
  · rintro ⟨hv, hat, hr, rfl⟩
    exact ⟨⟨_, _⟩, ⟨hat, rfl⟩, hv, rfl, hr, rfl⟩

/-- A signature finds the variable again just where it is cut as it was joined. -/
theorem varSignature_found_iff {v : VarId} (hv : p.IsVar v) :
    (CommandLine.findVar p (p.varSignature v) = .ok v ↔
      '@' ∉ (p.var v).name.toList ∧ (p.memberRef (p.var v).method).Legible) ∧
    (MemberRef.ofText? (p.methodSignature (p.var v).method) = some (p.memberRef (p.var v).method) ↔
      (p.memberRef (p.var v).method).Legible) ∧
    (p.lookupVar? (p.methodSignature (p.var v).method) (p.var v).name = some v ↔
      (p.memberRef (p.var v).method).Legible) := by
  refine ⟨?_, ?_, ?_⟩
  · rw [findVar_eq_ok_iff hp]
    simp [hv]
  · rw [MemberRef.ofText?_eq_some_iff]
    exact and_iff_left rfl
  · rw [lookupVar?_eq_some_iff hp]
    simp [hv]

end Program

/-- The method `b.C.m()` of the class `A` and the method `m()` of the class `A.b.C`, each with a parameter
`x`. -/
def Builder.overlapping : Builder :=
  Builder.empty.performAll
    [.addClass "A" .plain none,
      .addClass "A.b.C" .plain none,
      .addMethod ⟨0⟩ ⟨"b.C.m()"⟩ true false ["x"],
      .addMethod ⟨1⟩ ⟨"m()"⟩ true false ["x"],
      .setEntry ⟨1⟩]

theorem Program.varSignature_found_overlapping : ∃ p, Builder.overlapping.build = .ok p ∧ p.Accepted ∧
    p.IsVar ⟨0⟩ ∧ p.IsVar ⟨1⟩ ∧ p.varSignature ⟨0⟩ = p.varSignature ⟨1⟩ ∧
    CommandLine.findVar p (p.varSignature ⟨1⟩) = .ok ⟨1⟩ ∧
    CommandLine.findVar p (p.varSignature ⟨0⟩) ≠ .ok ⟨0⟩ ∧
    MemberRef.ofText? (p.methodSignature (p.var ⟨0⟩).method) ≠ some (p.memberRef (p.var ⟨0⟩).method) ∧
    p.lookupVar? (p.methodSignature (p.var ⟨0⟩).method) (p.var ⟨0⟩).name ≠ some ⟨0⟩ := by
  obtain ⟨p, hbuild, hp⟩ := exists_ok_of_any (e := Builder.overlapping.build)
    (f := fun p => decide (p.IsVar ⟨0⟩ ∧ p.IsVar ⟨1⟩ ∧ p.varSignature ⟨0⟩ = p.varSignature ⟨1⟩ ∧
      ¬ (p.memberRef (p.var ⟨0⟩).method).Legible ∧ '@' ∉ (p.var ⟨1⟩).name.toList ∧
      (p.memberRef (p.var ⟨1⟩).method).Legible))
    (by decide +kernel)
  obtain ⟨hv, hw, hsame, hillegible, hat, hlegible⟩ := of_decide_eq_true hp
  have haccepted : p.Accepted := ⟨_, Builder.Reached.performAll .empty (by decide +kernel), hbuild⟩
  obtain ⟨hfind, hread, hlookup⟩ := varSignature_found_iff haccepted hv
  refine ⟨p, hbuild, haccepted, hv, hw, hsame, ?_, fun h => ?_, fun h => ?_, fun h => ?_⟩
  · exact (varSignature_found_iff haccepted hw).1.2 ⟨hat, hlegible⟩
  · exact hillegible (hfind.1 h).2
  · exact hillegible (hread.1 h)
  · exact hillegible (hlookup.1 h)

end PointsTo
