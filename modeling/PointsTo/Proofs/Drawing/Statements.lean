import Mathlib.Data.List.Forall2
import Mathlib.Data.List.Infix
import PointsTo.Dot

/-! What the lines of a drawing say. The lists of a statement are joined in its finished text, which does
not tell a list from a label: a label is drawn with its own brackets joined too. So a label is read back as
it is exactly when no closing bracket of it meets an opening one. -/

namespace PointsTo.Dot

section Seams

/-- A closing bracket meets an opening one. -/
def HasSeam (l : List Char) : Prop := [']', '['] <:+: l

instance (l : List Char) : Decidable (HasSeam l) := inferInstanceAs (Decidable ([']', '['] <:+: l))

variable {l m : List Char} {c : Char}

@[simp] theorem not_hasSeam_nil : ¬ HasSeam [] := by simp [HasSeam]

theorem hasSeam_cons : HasSeam (c :: l) ↔ c = ']' ∧ l.head? = some '[' ∨ HasSeam l := by
  have hhead : ['['] <+: l ↔ l.head? = some '[' := by
    cases l with
    | nil => simp
    | cons d l => simpa using eq_comm
  rw [HasSeam, List.infix_cons_iff, List.cons_prefix_cons, hhead, eq_comm]
  rfl

theorem hasSeam_append : HasSeam (l ++ m) ↔
    HasSeam l ∨ HasSeam m ∨ l.getLast? = some ']' ∧ m.head? = some '[' := by
  induction l with
  | nil => simp
  | cons c l ih =>
    rw [List.cons_append, hasSeam_cons, hasSeam_cons, ih]
    cases l with
    | nil => simp [or_comm]
    | cons d l => simp [or_assoc]

theorem HasSeam.mem (h : HasSeam l) : ']' ∈ l ∧ '[' ∈ l :=
  ⟨h.subset (by simp), h.subset (by simp)⟩

theorem joinLists_eq_self_iff : joinLists l = l ↔ ¬ HasSeam l := by
  fun_induction joinLists l with
  | case1 rest => simp [hasSeam_cons]
  | case2 c rest hne ih =>
    have hstart : ¬ (c = ']' ∧ rest.head? = some '[') := by
      rintro ⟨rfl, hhead⟩
      obtain ⟨rest, rfl⟩ := List.head?_eq_some_iff.1 hhead
      exact hne rest rfl rfl
    rw [List.cons_eq_cons, ih, hasSeam_cons, or_iff_right hstart, and_iff_right rfl]
  | case3 => simp

theorem getLast?_cons_eq_some {d : Char} (h : l.getLast? = some d) : (c :: l).getLast? = some d := by
  rw [List.getLast?_cons, h, Option.getD_some]

/-- Brackets are joined part by part where the parts do not meet in brackets. -/
theorem joinLists_append (h : ¬ (l.getLast? = some ']' ∧ m.head? = some '[')) :
    joinLists (l ++ m) = joinLists l ++ joinLists m := by
  fun_induction joinLists l with
  | case1 rest ih =>
    have hrest : ¬ (rest.getLast? = some ']' ∧ m.head? = some '[') := fun hmeet =>
      h ⟨getLast?_cons_eq_some (getLast?_cons_eq_some hmeet.1), hmeet.2⟩
    rw [List.cons_append, List.cons_append, joinLists, ih hrest, List.cons_append]
  | case2 c rest hne ih =>
    have hrest : ¬ (rest.getLast? = some ']' ∧ m.head? = some '[') := fun hmeet =>
      h ⟨getLast?_cons_eq_some hmeet.1, hmeet.2⟩
    rw [List.cons_append, joinLists, ih hrest, List.cons_append]
    -- the first character does not become part of a seam, at the end of its own text either
    rintro rest' rfl heq
    cases rest with
    | nil => exact h ⟨rfl, congrArg List.head? heq⟩
    | cons d rest =>
      obtain ⟨rfl, -⟩ := List.cons.inj heq
      exact hne rest rfl rfl
  | case3 => rfl

end Seams

section Escapes

variable {l : List Char} {c d : Char}

theorem escape_cons : escape (c :: l) = escapeChar c ++ escape l := rfl

theorem exists_digitChar_of_mem_toDigits {n : Nat} (h : d ∈ Nat.toDigits 16 n) :
    ∃ k < 16, d = Nat.digitChar k := by
  induction n using Nat.strongRecOn with
  | ind n ih =>
    rw [Nat.toDigits_eq_if (by decide)] at h
    split at h
    next hlt => exact ⟨n, hlt, List.mem_singleton.1 h⟩
    next hge =>
      rcases List.mem_append.1 h with h | h
      · exact ih (n / 16) (by omega) h
      · exact ⟨n % 16, Nat.mod_lt n (by decide), List.mem_singleton.1 h⟩

theorem digitChar_not_bracket :
    ∀ k < 16, ¬ (Nat.digitChar k = ']' ∨ Nat.digitChar k = '[') := by decide

/-- No escape holds a bracket, so that a bracket in quotes stands for itself. -/
theorem eq_of_bracket_mem_escapeChar (hd : d = ']' ∨ d = '[') (h : d ∈ escapeChar c) : d = c := by
  unfold escapeChar at h
  split_ifs at h
  on_goal 8 =>
    have hdigit : d ∉ Nat.toDigits 16 c.toNat := by
      intro hmem
      obtain ⟨k, hk, rfl⟩ := exists_digitChar_of_mem_toDigits hmem
      exact digitChar_not_bracket k hk hd
    rcases hd with rfl | rfl <;> simp [hdigit] at h
  on_goal 7 => exact List.mem_singleton.1 h
  all_goals rcases hd with rfl | rfl <;> simp at h

theorem escapeChar_ne_nil : escapeChar c ≠ [] := by
  unfold escapeChar
  split_ifs <;> simp

theorem not_hasSeam_escapeChar : ¬ HasSeam (escapeChar c) := by
  intro h
  have hclose := eq_of_bracket_mem_escapeChar (.inl rfl) h.mem.1
  have hopen := eq_of_bracket_mem_escapeChar (.inr rfl) h.mem.2
  exact absurd (hclose.trans hopen.symm) (by decide)

theorem head?_of_head?_escape (h : (escape l).head? = some '[') : l.head? = some '[' := by
  cases l with
  | nil => exact h
  | cons c l =>
    rw [escape_cons, List.head?_append_of_ne_nil _ escapeChar_ne_nil] at h
    rw [eq_of_bracket_mem_escapeChar (.inr rfl) (List.mem_of_head? h), List.head?_cons]

/-- Brackets may be joined before a text is put in quotes as well. -/
theorem joinLists_escape : joinLists (escape l) = escape (joinLists l) := by
  fun_induction joinLists l with
  | case1 rest ih => exact congrArg (' ' :: ·) ih
  | case2 c rest hne ih =>
    have hmeet : ¬ ((escapeChar c).getLast? = some ']' ∧ (escape rest).head? = some '[') := by
      rintro ⟨hlast, hhead⟩
      obtain ⟨rest, rfl⟩ := List.head?_eq_some_iff.1 (head?_of_head?_escape hhead)
      exact hne rest (eq_of_bracket_mem_escapeChar (.inl rfl) (List.mem_of_getLast? hlast)).symm rfl
    rw [escape_cons, joinLists_append hmeet, joinLists_eq_self_iff.2 not_hasSeam_escapeChar, ih,
      escape_cons]
  | case3 => rfl

end Escapes

section Reading

/-- Where a reader of quoted text stands: at a character, behind a backslash, before the braces of a
character's number, or within them. -/
inductive Reading where
  | text
  | escaped
  | opening
  | number (n : Nat)
  deriving DecidableEq, Repr

def hexValue (c : Char) : Nat := if c ≤ '9' then c.toNat - '0'.toNat else c.toNat - 'a'.toNat + 10

/-- The character that a letter behind a backslash stands for. -/
def unescapeChar (c : Char) : Char :=
  if c = 't' then '\t' else if c = 'n' then '\n' else if c = 'r' then '\r' else c

/-- Reads quoted text up to the quote that ends it. -/
def unquote : Reading → List Char → List Char
  | _, [] => []
  | .text, c :: rest =>
    if c = '"' then []
    else if c = '\\' then unquote .escaped rest
    else c :: unquote .text rest
  | .escaped, c :: rest =>
    if c = 'u' then unquote .opening rest else unescapeChar c :: unquote .text rest
  | .opening, _ :: rest => unquote (.number 0) rest
  | .number n, c :: rest =>
    if c = '\x7d' then Char.ofNat n :: unquote .text rest
    else unquote (.number (16 * n + hexValue c)) rest

/-- The first quoted text of a line. -/
def labelOf (line : String) : String :=
  String.ofList (unquote .text ((line.toList.dropWhile (· != '"')).drop 1))

variable {c : Char} {l rest : List Char}

theorem hexValue_digitChar : ∀ d < 16, hexValue d.digitChar = d ∧ d.digitChar ≠ '\x7d' := by decide

theorem unquote_digitChar {n d : Nat} (hd : d < 16) :
    unquote (.number n) (d.digitChar :: rest) = unquote (.number (16 * n + d)) rest := by
  obtain ⟨hvalue, hne⟩ := hexValue_digitChar d hd
  rw [unquote, if_neg hne, hvalue]

/-- The digits of a number are read one by one, the last one last. -/
theorem unquote_toDigits (n : Nat) (rest : List Char) :
    unquote (.number 0) (Nat.toDigits 16 n ++ rest) = unquote (.number n) rest := by
  induction n using Nat.strongRecOn generalizing rest with
  | ind n ih =>
    rw [Nat.toDigits_eq_if (by decide)]
    split
    next hlt => rw [List.singleton_append, unquote_digitChar hlt, Nat.mul_zero, Nat.zero_add]
    next hge =>
      rw [List.append_assoc, ih (n / 16) (by omega), List.singleton_append,
        unquote_digitChar (Nat.mod_lt n (by decide)), Nat.div_add_mod]

theorem unquote_escapeChar : unquote .text (escapeChar c ++ rest) = c :: unquote .text rest := by
  unfold escapeChar
  split_ifs with htab hnewline hreturn hapostrophe hquote hbackslash hplain
  on_goal 8 =>
    have hnumber : unquote .text (['\\', 'u', '\x7b'] ++ (Nat.toDigits 16 c.toNat ++ '\x7d' :: rest)) =
        unquote (.number 0) (Nat.toDigits 16 c.toNat ++ '\x7d' :: rest) := rfl
    rw [List.append_assoc, List.append_assoc, List.singleton_append, hnumber, unquote_toDigits, unquote,
      if_pos rfl, Char.ofNat_toNat]
  on_goal 7 => rw [List.singleton_append, unquote, if_neg hquote, if_neg hbackslash]
  all_goals subst c; rfl

theorem unquote_escape : unquote .text (escape l ++ '"' :: rest) = l := by
  induction l with
  | nil => rfl
  | cons c l ih => rw [escape_cons, List.append_assoc, unquote_escapeChar, ih]

end Reading

section Lines

/-- The text with its own brackets joined. -/
def joined (text : String) : String := String.ofList (joinLists text.toList)

/-- The text is drawn as it is. -/
def Seamless (text : String) : Prop := ¬ HasSeam text.toList

instance (text : String) : Decidable (Seamless text) :=
  inferInstanceAs (Decidable (¬ HasSeam text.toList))

/-- The name and the quoted value of an attribute. -/
def setting (name value : String) : List Char := name.toList ++ '=' :: quoted value

/-- The attributes of an edge behind its label. -/
def EdgeKind.attributes (k : EdgeKind) : List (String × String) :=
  ("style", k.style) :: k.color?.toList.map ("color", ·)

/-- The text in front of the attributes of an edge. -/
def edgeHead (g : Graph) (e : Edge) : List Char :=
  nodeName g e.source ++ " -> ".toList ++ nodeName g e.target

/-- A text without quotes and brackets. -/
def Bare (l : List Char) : Prop := ∀ c ∈ l, c ≠ '"' ∧ c ≠ '[' ∧ c ≠ ']'

instance (l : List Char) : Decidable (Bare l) := List.decidableBAll _ l

/-- The line is a statement for `head` with one list of attributes, the label first. The label reads as
given, but for the brackets in it that meet. -/
structure Draws (head : List Char) (label : String) (others : List (String × String)) (line : String) :
    Prop where
  text : line = String.ofList ("    ".toList ++ (head ++ '[' :: (setting "label" (joined label) ++
    others.flatMap (fun a => ' ' :: setting a.1 a.2) ++ [']', ';'])))
  reads : labelOf line = joined label
  intact : labelOf line = label ↔ Seamless label

/-- The lines of a graph with each attribute still in a list of its own. -/
def Graph.rawLines (g : Graph) : List String :=
  ("digraph " ++ g.name ++ " \x7b") ::
    (g.nodes.map (fun n => String.ofList ("    ".toList ++ nodeStatement g n)) ++
      g.edges.map (fun e => String.ofList ("    ".toList ++ edgeStatement g e)) ++ ["\x7d"])

/-- Lines as one text. -/
def unlines (lines : List String) : List Char := lines.flatMap fun line => line.toList ++ ['\n']

/-- The lines are the text of the graph with brackets joined all over it, which gives one statement for each
node, and behind those one for each edge. -/
structure Graph.DrawnBy (g : Graph) (lines : List String) : Prop where
  joins : unlines lines = joinLists (unlines g.rawLines)
  statements : ∃ nodeLines edgeLines,
    lines = ("digraph " ++ g.name ++ " \x7b") :: (nodeLines ++ edgeLines ++ ["\x7d"]) ∧
      List.Forall₂ (fun n => Draws (nodeName g n.id) n.label []) g.nodes nodeLines ∧
      List.Forall₂ (fun e => Draws (edgeHead g e) e.label e.kind.attributes) g.edges edgeLines

variable {g : Graph} {head l m : List Char} {name value label line : String}
  {others : List (String × String)} {lines : List String}

theorem joined_eq_self_iff : joined value = value ↔ Seamless value := by
  rw [Seamless, ← joinLists_eq_self_iff, joined, ← String.toList_inj, String.toList_ofList]

example : joined "[] merged A[][*]" = "[] merged A[ *]" := by decide

theorem attributeList_eq (name value : String) :
    attributeList name value = '[' :: (setting name value ++ [']']) := by
  simp [attributeList, setting]

theorem edgeStatement_eq (e : Edge) : edgeStatement g e = edgeHead g e ++
    (attributeList "label" e.label ++ e.kind.attributes.flatMap (fun a => attributeList a.1 a.2) ++ [';']) := by
  rw [edgeStatement, edgeHead, EdgeKind.attributes]
  cases e.kind.color? <;> simp

section Joining

theorem Bare.append (hl : Bare l) (hm : Bare m) : Bare (l ++ m) := fun c hc =>
  (List.mem_append.1 hc).elim (hl c) (hm c)

theorem Bare.joinLists_append (h : Bare l) : joinLists (l ++ m) = l ++ joinLists m := by
  have hlast : ¬ (l.getLast? = some ']' ∧ m.head? = some '[') := fun hmeet =>
    (h _ (List.mem_of_getLast? hmeet.1)).2.2 rfl
  rw [Dot.joinLists_append hlast, joinLists_eq_self_iff.2 fun hseam => (h _ hseam.mem.1).2.2 rfl]

/-- In an attribute only the brackets of its value are joined, whatever follows it. -/
theorem joinLists_setting_append (hname : Bare name.toList) :
    joinLists (setting name value ++ ']' :: m) =
      setting name (joined value) ++ joinLists (']' :: m) := by
  have hvalue : joinLists (escape value.toList ++ '"' :: ']' :: m) =
      escape (joinLists value.toList) ++ '"' :: joinLists (']' :: m) := by
    rw [Dot.joinLists_append (by simp), joinLists_escape, joinLists]
    simp
  simp only [setting, quoted, joined, String.toList_ofList, List.append_assoc, List.cons_append,
    List.nil_append]
  rw [hname.joinLists_append, joinLists, joinLists, hvalue] <;> simp

/-- The lists behind a first one are joined to it. -/
theorem joinLists_lists (h : ∀ a ∈ others, Bare a.1.toList ∧ Seamless a.2) :
    joinLists (']' :: (others.flatMap (fun a => attributeList a.1 a.2) ++ [';'])) =
      others.flatMap (fun a => ' ' :: setting a.1 a.2) ++ [']', ';'] := by
  induction others with
  | nil => rfl
  | cons a others ih =>
    obtain ⟨⟨hname, hvalue⟩, hothers⟩ := List.forall_mem_cons.1 h
    simp only [List.flatMap_cons, attributeList_eq a.1 a.2, List.cons_append, List.append_assoc,
      List.nil_append, joinLists]
    rw [joinLists_setting_append hname, joined_eq_self_iff.2 hvalue, ih hothers]

theorem joinLists_statement (hhead : Bare head)
    (hothers : ∀ a ∈ others, Bare a.1.toList ∧ Seamless a.2) :
    joinLists (head ++ (attributeList "label" label ++ others.flatMap (fun a => attributeList a.1 a.2) ++
        [';'])) =
      head ++ '[' :: (setting "label" (joined label) ++
        others.flatMap (fun a => ' ' :: setting a.1 a.2) ++ [']', ';']) := by
  have hlabel : Bare "label".toList := by decide
  simp only [attributeList_eq "label" label, List.cons_append, List.append_assoc, List.nil_append]
  rw [hhead.joinLists_append, joinLists, joinLists_setting_append hlabel, joinLists_lists hothers]
  simp

end Joining

theorem labelOf_ofList {front rest : List Char} (hfront : ∀ c ∈ front, c ≠ '"') :
    labelOf (String.ofList (front ++ '"' :: (escape l ++ '"' :: rest))) = String.ofList l := by
  have hskipped : ∀ c ∈ front, (c != '"') = true := fun c hc => bne_iff_ne.2 (hfront c hc)
  rw [labelOf, String.toList_ofList, List.dropWhile_append_of_pos hskipped,
    List.dropWhile_cons_of_neg (by decide), List.drop_one, List.tail_cons, unquote_escape]

theorem labelOf_setting (hhead : Bare head) (value : String) (rest : List Char) :
    labelOf (String.ofList ("    ".toList ++ (head ++ '[' :: (setting "label" value ++ rest)))) = value := by
  have hfront : ∀ c ∈ "    ".toList ++ (head ++ '[' :: "label=".toList), c ≠ '"' := by
    intro c hc
    simp only [List.mem_append, List.mem_cons] at hc
    rcases hc with hc | hc | rfl | hc
    · exact ((by decide : Bare "    ".toList) c hc).1
    · exact (hhead c hc).1
    · decide
    · exact ((by decide : Bare "label=".toList) c hc).1
  have hquoted : "    ".toList ++ (head ++ '[' :: (setting "label" value ++ rest)) =
      "    ".toList ++ (head ++ '[' :: "label=".toList) ++
        '"' :: (escape value.toList ++ '"' :: rest) := by
    simp [setting, quoted]
  rw [hquoted, labelOf_ofList hfront, String.ofList_toList]

theorem indented_eq (statement : List Char) :
    indented statement = String.ofList ("    ".toList ++ joinLists statement) := rfl

theorem draws_indented (hhead : Bare head) (label : String)
    (hothers : ∀ a ∈ others, Bare a.1.toList ∧ Seamless a.2) :
    Draws head label others (indented (head ++
      (attributeList "label" label ++ others.flatMap (fun a => attributeList a.1 a.2) ++ [';']))) := by
  rw [indented_eq, joinLists_statement hhead hothers, List.append_assoc (setting _ _)]
  have hreads := labelOf_setting hhead (joined label)
    (others.flatMap (fun a => ' ' :: setting a.1 a.2) ++ [']', ';'])
  exact ⟨by rw [List.append_assoc (setting _ _)], hreads, by rw [hreads, joined_eq_self_iff]⟩

section Heads

theorem bare_of_forall_isIdentifierChar (h : ∀ c ∈ l, isIdentifierChar c = true) : Bare l := by
  intro c hc
  have hchar := h c hc
  refine ⟨?_, ?_, ?_⟩ <;> rintro rfl <;> revert hchar <;> decide

theorem bare_of_isIdentifier (h : isIdentifier l = true) : Bare l := by
  cases l with
  | nil => exact List.forall_mem_nil _
  | cons c l =>
    obtain ⟨hstart, hothers⟩ := Bool.and_eq_true_iff.1 h
    exact bare_of_forall_isIdentifierChar <| List.forall_mem_cons.2
      ⟨Bool.or_eq_true_iff.2 (.inl hstart), List.all_eq_true.1 hothers⟩

theorem bare_toString (n : Nat) : Bare (toString n).toList := by
  refine bare_of_forall_isIdentifierChar fun c hc => ?_
  rw [Nat.toString_eq_ofList_toDigits, String.toList_ofList] at hc
  exact Bool.or_eq_true_iff.2 (.inr (Nat.isDigit_of_mem_toDigits (by decide) (by decide) hc))

theorem bare_nodeName (hname : isIdentifier g.name.toList = true) (id : Nat) : Bare (nodeName g id) :=
  Bare.append (fun c hc => bare_of_isIdentifier hname c (List.mem_of_mem_take hc)) (bare_toString id)

theorem bare_edgeHead (hname : isIdentifier g.name.toList = true) (e : Edge) : Bare (edgeHead g e) :=
  ((bare_nodeName hname _).append (by decide)).append (bare_nodeName hname _)

end Heads

theorem bare_of_mem_attributes {k : EdgeKind} :
    ∀ a ∈ k.attributes, Bare a.1.toList ∧ Seamless a.2 := by
  cases k with
  | flow => decide
  | call k => cases k <;> decide

/-- No bracket meets one of another line. -/
theorem joinLists_unlines (lines : List String) :
    joinLists (unlines lines) = unlines (lines.map joined) := by
  induction lines with
  | nil => rfl
  | cons line lines ih =>
    have hend : joinLists (line.toList ++ ['\n']) = joinLists line.toList ++ ['\n'] :=
      joinLists_append (by simp)
    have hline : joinLists (line.toList ++ ['\n'] ++ unlines lines) =
        joinLists line.toList ++ ['\n'] ++ joinLists (unlines lines) := by
      rw [joinLists_append (by simp), hend]
    rw [unlines, List.flatMap_cons, ← unlines, hline, ih, unlines, unlines, List.map_cons,
      List.flatMap_cons, joined, String.toList_ofList]

theorem joined_eq_indented (statement : List Char) :
    joined (String.ofList ("    ".toList ++ statement)) = indented statement := by
  have hfront : Bare "    ".toList := by decide
  rw [joined, String.toList_ofList, hfront.joinLists_append, indented_eq]

theorem map_joined_rawLines (h : render? g = some lines) : g.rawLines.map joined = lines := by
  rw [render?] at h
  split at h
  next hname =>
    have hheader : Bare ("digraph " ++ g.name ++ " \x7b").toList := by
      rw [String.toList_append, String.toList_append]
      exact (Bare.append (by decide) (bare_of_isIdentifier hname)).append (by decide)
    have hfirst : joined ("digraph " ++ g.name ++ " \x7b") = "digraph " ++ g.name ++ " \x7b" :=
      joined_eq_self_iff.2 fun hseam => (hheader _ hseam.mem.1).2.2 rfl
    have hlast : joined "\x7d" = "\x7d" := by decide
    rw [← Option.some.inj h, Graph.rawLines]
    simp only [List.map_cons, List.map_append, List.map_map, List.map_nil, Function.comp_def,
      joined_eq_indented, hfirst, hlast]
  next => cases h

theorem statements_of_render? (h : render? g = some lines) : ∃ nodeLines edgeLines,
    lines = ("digraph " ++ g.name ++ " \x7b") :: (nodeLines ++ edgeLines ++ ["\x7d"]) ∧
      List.Forall₂ (fun n => Draws (nodeName g n.id) n.label []) g.nodes nodeLines ∧
      List.Forall₂ (fun e => Draws (edgeHead g e) e.label e.kind.attributes) g.edges edgeLines := by
  rw [render?] at h
  split at h
  next hname =>
    refine ⟨_, _, (Option.some.inj h).symm, ?_, ?_⟩
    · rw [List.forall₂_map_right_iff, List.forall₂_same]
      intro n _
      have hdraws := draws_indented (bare_nodeName hname n.id) n.label (List.forall_mem_nil _)
      rwa [List.flatMap_nil, List.append_nil, ← List.append_assoc] at hdraws
    · rw [List.forall₂_map_right_iff, List.forall₂_same]
      intro e _
      rw [edgeStatement_eq]
      exact draws_indented (bare_edgeHead hname e) e.label bare_of_mem_attributes
  next => cases h

theorem drawnBy_of_render? (h : render? g = some lines) : g.DrawnBy lines where
  joins := by rw [joinLists_unlines, map_joined_rawLines h]
  statements := statements_of_render? h

end Lines

end PointsTo.Dot
