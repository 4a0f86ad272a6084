import PointsTo.Proofs.Program.Growth
import PointsTo.Proofs.Variants.Relabeling

/-! Trimmed programs. A program is trimmed to some of its methods by emptying the bodies of the others. The
allocation sites and call sites that are left close ranks. Trimming and assembling a program commute: the
trimmed program is what the same commands assemble without those that write into an emptied body. -/

namespace PointsTo

/-! ### Ranks -/

section Rank

variable {α : Type} (keep : α → Bool) (l : List α)

/-- How many of the first `n` elements are kept: the place that the next one gets if it is kept. -/
def rank (n : Nat) : Nat := (l.take n).countP keep

theorem rank_length : rank keep l l.length = (l.filter keep).length := by
  rw [rank, List.take_length, List.countP_eq_length_filter]

theorem rank_append {n : Nat} (hn : n ≤ l.length) (r : List α) : rank keep (l ++ r) n = rank keep l n := by
  rw [rank, List.take_append_of_le_length hn, rank]

variable {keep l}

theorem getElem?_filter_rank {n : Nat} {a : α} (h : l[n]? = some a) (ha : keep a = true) :
    (l.filter keep)[rank keep l n]? = some a := by
  induction l generalizing n with
  | nil => cases h
  | cons b l ih =>
    cases n with
    | zero =>
      obtain rfl := Option.some.inj h
      simp [rank, ha]
    | succ n =>
      have hrest := ih (n := n) (by simpa using h)
      by_cases hb : keep b = true
      · simpa [rank, hb] using hrest
      · simpa [rank, hb] using hrest

theorem rank_lt_rank {i j : Nat} (hij : i < j) {a : α} (h : l[i]? = some a) (ha : keep a = true) :
    rank keep l i < rank keep l j := by
  have hsucc : rank keep l (i + 1) = rank keep l i + 1 := by
    rw [rank, List.take_add_one, h, List.countP_append, rank]
    simp [ha]
  have hle : rank keep l (i + 1) ≤ rank keep l j :=
    ((List.take_prefix_take_left (Nat.succ_le_of_lt hij)).sublist).countP_le
  omega

theorem exists_rank_eq {k : Nat} (hk : k < (l.filter keep).length) :
    ∃ n a, l[n]? = some a ∧ keep a = true ∧ rank keep l n = k := by
  induction l generalizing k with
  | nil => cases hk
  | cons b l ih =>
    by_cases hb : keep b = true
    · cases k with
      | zero => exact ⟨0, b, rfl, hb, rfl⟩
      | succ k =>
        obtain ⟨n, a, hn, ha, hrank⟩ := ih (k := k) (by simpa [hb] using hk)
        exact ⟨n + 1, a, hn, ha, by simpa [rank, hb] using hrank⟩
    · obtain ⟨n, a, hn, ha, hrank⟩ := ih (k := k) (by simpa [hb] using hk)
      exact ⟨n + 1, a, hn, ha, by simpa [rank, hb] using hrank⟩

end Rank

theorem rank_push_size {α : Type} (keep : α → Bool) (as : Array α) (a : α) :
    rank keep (as.push a).toList as.size = (as.filter keep).size := by
  have hlength : rank keep as.toList as.size = (as.filter keep).toList.length := by
    rw [Array.toList_filter, ← rank_length, Array.length_toList]
  rw [Array.toList_push, rank_append _ _ (Nat.le_of_eq Array.length_toList.symm), hlength,
    Array.length_toList]

namespace Model

variable (m : Model) (keep : MethodId → Bool)

/-! ### Trimming a model -/

/-- The sites that stand in a method that is kept get the numbers from zero on, in their order. -/
def renumber : Relabeling :=
  { Relabeling.id with
    site := fun i => ⟨rank (fun s : Site => keep s.container) m.sites.toList i.index⟩
    call := fun i => ⟨rank (fun c : Call => keep c.container) m.calls.toList i.index⟩ }

def trimMethod (x : MethodId) (y : Method) : Method :=
  if keep x then { y with body := y.body.map (m.renumber keep).stmt }
  else { y with body := #[], returns := #[] }

def trim : Model :=
  { m with
    methods := m.methods.mapIdx fun i y => m.trimMethod keep ⟨i⟩ y
    sites := m.sites.filter fun s => keep s.container
    calls := m.calls.filter fun c => keep c.container }

variable {m keep}

theorem trimMethod_of_keep {x : MethodId} (hx : keep x = true) (y : Method) :
    m.trimMethod keep x y = { y with body := y.body.map (m.renumber keep).stmt } := if_pos hx

theorem trimMethod_of_drop {x : MethodId} (hx : keep x = false) (y : Method) :
    m.trimMethod keep x y = { y with body := #[], returns := #[] } := if_neg (by simp [hx])

theorem declaration_trimMethod (x : MethodId) (y : Method) :
    (m.trimMethod keep x y).declaration = y.declaration := by
  rw [trimMethod]
  split <;> rfl

theorem locals_trimMethod (x : MethodId) (y : Method) : (m.trimMethod keep x y).locals = y.locals := by
  rw [trimMethod]
  split <;> rfl

@[simp] theorem size_methods_trim : (m.trim keep).methods.size = m.methods.size := by simp [trim]

theorem method_trim (x : MethodId) : (m.trim keep).method x = m.trimMethod keep x (m.method x) := by
  simp only [method, trim, Array.getD_eq_getD_getElem?, Array.getElem?_mapIdx]
  cases m.methods[x.index]? with
  | some y => rfl
  | none =>
    have hbody : (default : Method).body.map (m.renumber keep).stmt = #[] := Array.map_empty
    simp only [Option.map_none, Option.getD_none, trimMethod, hbody]
    split <;> rfl

theorem sameDeclarations_trim : m.SameDeclarations (m.trim keep) where
  classes := rfl
  fields := rfl
  size_methods := size_methods_trim
  methods x := by rw [method_trim, declaration_trimMethod]

section Known

variable {n : Model}

/-- Further sites at the end make no difference to those that are there. -/
theorem renumber_stmt_of_append {ss : List Site} {cs : List Call}
    (hsites : n.sites.toList = m.sites.toList ++ ss) (hcalls : n.calls.toList = m.calls.toList ++ cs)
    {s : Stmt} (hs : m.KnowsStmt s) : (n.renumber keep).stmt s = (m.renumber keep).stmt s := by
  cases s with
  | new i =>
    have hi : i.index ≤ m.sites.toList.length := by
      rw [Array.length_toList]
      exact Nat.le_of_lt hs
    exact congrArg (fun k => Stmt.new ⟨k⟩) (by rw [hsites, rank_append _ _ hi])
  | invoke i =>
    have hi : i.index ≤ m.calls.toList.length := by
      rw [Array.length_toList]
      exact Nat.le_of_lt hs
    exact congrArg (fun k => Stmt.invoke ⟨k⟩) (by rw [hcalls, rank_append _ _ hi])
  | _ => rfl

theorem trimMethod_of_append {ss : List Site} {cs : List Call}
    (hsites : n.sites.toList = m.sites.toList ++ ss) (hcalls : n.calls.toList = m.calls.toList ++ cs)
    {y : Method} (hy : m.KnowsMethod y) (x : MethodId) :
    n.trimMethod keep x y = m.trimMethod keep x y := by
  have hbody : y.body.map (n.renumber keep).stmt = y.body.map (m.renumber keep).stmt :=
    Array.map_congr_left fun s hs => renumber_stmt_of_append hsites hcalls (hy.body s hs)
  rw [trimMethod, trimMethod, hbody]

theorem methods_trim_of_append {ss : List Site} {cs : List Call}
    (hsites : n.sites.toList = m.sites.toList ++ ss) (hcalls : n.calls.toList = m.calls.toList ++ cs)
    (hm : m.Scoped) (hmethods : n.methods = m.methods) : (n.trim keep).methods = (m.trim keep).methods := by
  simp only [trim, hmethods]
  apply Array.ext (by simp)
  intro i hi hi'
  simp only [Array.getElem_mapIdx]
  exact trimMethod_of_append hsites hcalls (hm.methods _ (Array.getElem_mem _)) ⟨i⟩

end Known

end Model

/-! ### Trimming a builder -/

namespace Builder

def trim (b : Builder) (keep : MethodId → Bool) : Builder := { b.toModel.trim keep with entry := b.entry }

/-- Whether a command is left after trimming: it does not write into a method that is dropped. -/
def Command.keeps (keep : MethodId → Bool) : Command → Bool
  | .push x _ | .pushNew x _ _ | .pushCall x _ _ _ _ _ _ | .pushReturn x _ => keep x
  | _ => true

variable {b : Builder} {keep : MethodId → Bool}

theorem ext_of_toModel {b u : Builder} (hmodel : b.toModel = u.toModel) (hentry : b.entry = u.entry) :
    b = u := by
  cases b
  cases u
  obtain rfl := hmodel
  obtain rfl := hentry
  rfl

/-! ### Edits -/

theorem trim_modifyMethod (b : Builder) (x : MethodId) {f g : Method → Method}
    (hf : ∀ y, b.trimMethod keep x (f y) = g (b.trimMethod keep x y)) :
    (b.modifyMethod x f).trim keep = (b.trim keep).modifyMethod x g := by
  refine ext_of_toModel (congrArg (fun ms => { b.toModel.trim keep with methods := ms }) ?_) rfl
  apply Array.ext (by simp [modifyMethod, trim, Model.trim])
  intro i hi hi'
  simp only [modifyMethod, trim, Model.trim, Array.getElem_mapIdx, Array.getElem_modify]
  split
  · rename_i heq
    subst heq
    exact hf _
  · rfl

/-- A change to what is dropped of a method. -/
theorem trim_modifyMethod_of_eq (b : Builder) (x : MethodId) {f : Method → Method}
    (hf : ∀ y, b.trimMethod keep x (f y) = b.trimMethod keep x y) :
    (b.modifyMethod x f).trim keep = b.trim keep := by
  refine ext_of_toModel (congrArg (fun ms => { b.toModel.trim keep with methods := ms }) ?_) rfl
  apply Array.ext (by simp [modifyMethod])
  intro i hi hi'
  simp only [modifyMethod, Array.getElem_mapIdx, Array.getElem_modify]
  split
  · rename_i heq
    subst heq
    exact hf _
  · rfl

section Append

variable (hb : b.Scoped)

include hb

theorem trim_pushSite (s : Site) : ({ b with sites := b.sites.push s } : Builder).trim keep =
    if keep s.container then { b.trim keep with sites := (b.trim keep).sites.push s }
    else b.trim keep := by
  have hmethods : (({ b with sites := b.sites.push s } : Builder).trim keep).methods =
      (b.trim keep).methods :=
    Model.methods_trim_of_append Array.toList_push (List.append_nil _).symm hb rfl
  split
  · rename_i hs
    refine ext_of_toModel ?_ rfl
    refine congrArg₂ (fun ms ss => { b.toModel.trim keep with methods := ms, sites := ss }) hmethods ?_
    simp [trim, Model.trim, hs]
  · rename_i hs
    refine ext_of_toModel ?_ rfl
    refine congrArg₂ (fun ms ss => { b.toModel.trim keep with methods := ms, sites := ss }) hmethods ?_
    simp [hs]

theorem trim_pushCallSite (c : Call) : ({ b with calls := b.calls.push c } : Builder).trim keep =
    if keep c.container then { b.trim keep with calls := (b.trim keep).calls.push c }
    else b.trim keep := by
  have hmethods : (({ b with calls := b.calls.push c } : Builder).trim keep).methods =
      (b.trim keep).methods :=
    Model.methods_trim_of_append (List.append_nil _).symm Array.toList_push hb rfl
  split
  · rename_i hc
    refine ext_of_toModel ?_ rfl
    refine congrArg₂ (fun ms cs => { b.toModel.trim keep with methods := ms, calls := cs }) hmethods ?_
    simp [trim, Model.trim, hc]
  · rename_i hc
    refine ext_of_toModel ?_ rfl
    refine congrArg₂ (fun ms cs => { b.toModel.trim keep with methods := ms, calls := cs }) hmethods ?_
    simp [hc]

end Append

/-! ### Variables and methods -/

theorem trim_var (b : Builder) (x : MethodId) (name : String) :
    (b.trim keep).var x name = ((b.var x name).1, (b.var x name).2.trim keep) := by
  have hlocal : ((b.trim keep).method x).local? name = (b.method x).local? name := by
    rw [Method.local?, show (b.trim keep).method x = _ from Model.method_trim x,
      Model.locals_trimMethod, Method.local?]
  rw [var, var, hlocal]
  cases (b.method x).local? name with
  | some v => rfl
  | none =>
    refine congrArg (Prod.mk _) (Eq.symm ?_)
    refine trim_modifyMethod { b with vars := b.vars.push ⟨name, x⟩ } x
      (f := fun y => { y with locals := y.locals.push (name, ⟨b.vars.size⟩) })
      (g := fun y => { y with locals := y.locals.push (name, ⟨b.vars.size⟩) }) fun y => ?_
    simp only [Model.trimMethod]
    split <;> rfl

theorem trim_addThis (b : Builder) (x : MethodId) :
    (b.addThis x).trim keep = (b.trim keep).addThis x := by
  rw [addThis, addThis, trim_var]
  refine trim_modifyMethod _ x (f := fun y => { y with this := some (b.var x "this").1 }) fun y => ?_
  simp only [Model.trimMethod]
  split <;> rfl

theorem trim_addParam (b : Builder) (x : MethodId) (name : String) :
    (b.addParam x name).trim keep = (b.trim keep).addParam x name := by
  rw [addParam, addParam, trim_var]
  refine trim_modifyMethod _ x (f := fun y => { y with params := y.params.push (b.var x name).1 })
    fun y => ?_
  simp only [Model.trimMethod]
  split <;> rfl

theorem trim_addParams (b : Builder) (x : MethodId) (params : List String) :
    (params.foldl (fun b name => b.addParam x name) b).trim keep =
      params.foldl (fun b name => b.addParam x name) (b.trim keep) := by
  induction params generalizing b with
  | nil => rfl
  | cons name params ih =>
    rw [List.foldl_cons, List.foldl_cons, ih, trim_addParam]

theorem trim_declare (b : Builder) (c : ClassId) (s : Subsignature) (isStatic isAbstract : Bool) :
    (b.declare c s isStatic isAbstract).trim keep = (b.trim keep).declare c s isStatic isAbstract := by
  refine ext_of_toModel ?_ rfl
  have hid : (b.trim keep).methods.size = b.methods.size := Model.size_methods_trim
  have hmethods : ((b.declare c s isStatic isAbstract).trim keep).methods =
      ((b.trim keep).declare c s isStatic isAbstract).methods := by
    simp only [declare, trim, Model.trim, Array.mapIdx_push]
    refine congrArg (Array.push _) ?_
    simp only [Model.trimMethod, Array.map_empty]
    split <;> rfl
  have hclasses : ((b.declare c s isStatic isAbstract).trim keep).classes =
      ((b.trim keep).declare c s isStatic isAbstract).classes := by
    simp only [declare, modifyClass, hid]
    rfl
  exact congrArg₂ (fun cs ms => { b.toModel.trim keep with classes := cs, methods := ms }) hclasses hmethods

theorem trim_addMethod (b : Builder) (c : ClassId) (s : Subsignature) (isStatic isAbstract : Bool)
    (params : List String) : (b.after (b.addMethod c s isStatic isAbstract params)).trim keep =
      (b.trim keep).after ((b.trim keep).addMethod c s isStatic isAbstract params) := by
  have hid : (b.trim keep).methods.size = b.methods.size := Model.size_methods_trim
  have hdeclared : ((b.trim keep).cls c).declaredMethod? s = (b.cls c).declaredMethod? s := rfl
  rw [addMethod, addMethod, hdeclared]
  split
  · rfl
  · cases isStatic with
    | true =>
      rw [hid]
      refine (trim_addParams (b.declare c s true isAbstract) ⟨b.methods.size⟩ params).trans ?_
      rw [trim_declare, declare, hid]
      rfl
    | false =>
      rw [hid]
      refine (trim_addParams ((b.declare c s false isAbstract).addThis ⟨b.methods.size⟩)
        ⟨b.methods.size⟩ params).trans ?_
      rw [trim_addThis, trim_declare, declare, hid]
      rfl

/-! ### Statements -/

section Statements

variable {x : MethodId}

theorem trim_push_of_keep (hx : keep x = true) (b : Builder) (s : Stmt) :
    (b.push x s).trim keep = (b.trim keep).push x ((b.renumber keep).stmt s) := by
  apply trim_modifyMethod
  intro y
  rw [Model.trimMethod_of_keep hx, Model.trimMethod_of_keep hx, Array.map_push]

theorem trim_push_of_drop (hx : keep x = false) (b : Builder) (s : Stmt) :
    (b.push x s).trim keep = b.trim keep := by
  apply trim_modifyMethod_of_eq
  intro y
  rw [Model.trimMethod_of_drop hx, Model.trimMethod_of_drop hx]

theorem size_body_trim (hx : keep x = true) (b : Builder) :
    ((b.trim keep).method x).body.size = (b.method x).body.size := by
  rw [show (b.trim keep).method x = _ from Model.method_trim x, Model.trimMethod_of_keep hx,
    Array.size_map]

variable (hb : b.Scoped)

include hb

theorem trim_pushNew_of_keep (hx : keep x = true) (lhs : VarId) (c : ClassId) :
    (b.pushNew x lhs c).2.trim keep = ((b.trim keep).pushNew x lhs c).2 := by
  have hsite := @trim_pushSite _ keep hb ⟨lhs, c, x, (b.method x).body.size⟩
  rw [pushNew, trim_push_of_keep hx, hsite, if_pos hx, pushNew, size_body_trim hx]
  exact congrArg (fun i => push _ x (.new ⟨i⟩)) (rank_push_size _ b.sites _)

theorem trim_pushNew_of_drop (hx : keep x = false) (lhs : VarId) (c : ClassId) :
    (b.pushNew x lhs c).2.trim keep = b.trim keep := by
  rw [pushNew, trim_push_of_drop hx, trim_pushSite hb, if_neg (by simp [hx])]

theorem trim_pushCall_of_keep (hx : keep x = true) (call : Call) :
    (b.pushCall x call).2.trim keep = ((b.trim keep).pushCall x call).2 := by
  have hcall := @trim_pushCallSite _ keep hb
    { call with container := x, index := (b.method x).body.size }
  rw [pushCall, trim_push_of_keep hx, hcall, if_pos hx, pushCall, size_body_trim hx]
  exact congrArg (fun i => push _ x (.invoke ⟨i⟩)) (rank_push_size _ b.calls _)

theorem trim_pushCall_of_drop (hx : keep x = false) (call : Call) :
    (b.pushCall x call).2.trim keep = b.trim keep := by
  rw [pushCall, trim_push_of_drop hx, trim_pushCallSite hb, if_neg (by simp [hx])]

end Statements

theorem trim_pushReturn_of_keep {x : MethodId} (hx : keep x = true) (b : Builder)
    (returned : Option VarId) :
    (b.pushReturn x returned).trim keep = (b.trim keep).pushReturn x returned := by
  have hstmt : (b.renumber keep).stmt (.ret returned) = .ret returned := by
    cases returned <;> rfl
  cases returned with
  | none => exact (trim_push_of_keep hx b _).trans (congrArg (push _ x) hstmt)
  | some v =>
    rw [pushReturn_some, pushReturn_some]
    apply trim_modifyMethod
    intro y
    rw [Model.trimMethod_of_keep hx, Model.trimMethod_of_keep hx]
    split <;> simp [hstmt, Array.map_push]

theorem trim_pushReturn_of_drop {x : MethodId} (hx : keep x = false) (b : Builder)
    (returned : Option VarId) : (b.pushReturn x returned).trim keep = b.trim keep := by
  cases returned with
  | none => exact trim_push_of_drop hx b _
  | some v =>
    rw [pushReturn_some]
    apply trim_modifyMethod_of_eq
    intro y
    rw [Model.trimMethod_of_drop hx, Model.trimMethod_of_drop hx]
    split <;> rfl

/-! ### Commands -/

theorem trim_perform_of_keep (hb : b.Scoped) {c : Command} (hc : c.Allowed b) (hkeep : c.keeps keep = true) :
    (c.perform b).trim keep = c.perform (b.trim keep) := by
  cases c with
  | addClass name kind superclass =>
    have hnamed : (b.trim keep).classNamed? name = b.classNamed? name := rfl
    rw [Command.perform, Command.perform, addClass, addClass, hnamed]
    split <;> rfl
  | addField c name isStatic =>
    have hdeclared : ((b.trim keep).cls c).declaredField? name = (b.cls c).declaredField? name := rfl
    rw [Command.perform, Command.perform, addField, addField, hdeclared]
    split <;> rfl
  | setSuperclass | addInterface | setAbstract | setEntry => rfl
  | addMethod c s isStatic isAbstract params => exact trim_addMethod b c s isStatic isAbstract params
  | var x name => exact (congrArg Prod.snd (trim_var b x name)).symm
  | push x s =>
    have hstmt : (b.renumber keep).stmt s = s := by
      cases s with
      | new | invoke | ret => cases hc.2.1
      | _ => rfl
    exact (trim_push_of_keep hkeep b s).trans (congrArg (push _ x) hstmt)
  | pushNew x lhs c => exact trim_pushNew_of_keep hb hkeep lhs c
  | pushCall x => exact trim_pushCall_of_keep hb hkeep _
  | pushReturn x returned => exact trim_pushReturn_of_keep hkeep b returned

theorem trim_perform_of_drop (hb : b.Scoped) {c : Command} (hdrop : c.keeps keep = false) :
    (c.perform b).trim keep = b.trim keep := by
  cases c with
  | push x s => exact trim_push_of_drop hdrop b s
  | pushNew x lhs c => exact trim_pushNew_of_drop hb hdrop lhs c
  | pushCall x => exact trim_pushCall_of_drop hb hdrop _
  | pushReturn x returned => exact trim_pushReturn_of_drop hdrop b returned
  | _ => cases hdrop

/-- The trimmed builder has all but some allocation sites and call sites, and no command names those. -/
theorem allowed_trim {c : Command} (hc : c.Allowed b) : c.Allowed (b.trim keep) := by
  have hmethod : ∀ x, b.IsMethod x → (b.trim keep).IsMethod x := fun x hx =>
    Nat.lt_of_lt_of_eq hx Model.size_methods_trim.symm
  cases c with
  | addClass | setSuperclass | addInterface | setAbstract | addField | addMethod => exact hc
  | var x | setEntry x => exact hmethod x hc
  | push x s =>
    refine ⟨hmethod x hc.1, hc.2.1, ?_⟩
    cases s with
    | new | invoke | ret => cases hc.2.1
    | _ => exact hc.2.2
  | pushNew x => exact ⟨hmethod x hc.1, hc.2⟩
  | pushCall x => exact ⟨hmethod x hc.1, hc.2⟩
  | pushReturn x => exact ⟨hmethod x hc.1, hc.2⟩

/-- To trim what commands assemble is to leave out those that write into a method that is dropped. -/
theorem trim_performAll (hb : b.Reached) {cs : List Command} (hcs : b.AllAllowed cs) :
    (b.trim keep).AllAllowed (cs.filter (·.keeps keep)) ∧
      (b.performAll cs).trim keep = (b.trim keep).performAll (cs.filter (·.keeps keep)) := by
  induction cs generalizing b with
  | nil => exact ⟨trivial, rfl⟩
  | cons c cs ih =>
    obtain ⟨hc, hcs⟩ := hcs
    obtain ⟨hallowed, hperform⟩ := ih (hb.step c hc) hcs
    cases hkeep : c.keeps keep with
    | true =>
      rw [trim_perform_of_keep (scoped_of_reached hb) hc hkeep] at hallowed hperform
      rw [List.filter_cons_of_pos hkeep]
      exact ⟨⟨allowed_trim hc, hallowed⟩, hperform⟩
    | false =>
      rw [trim_perform_of_drop (scoped_of_reached hb) hkeep] at hallowed hperform
      rw [List.filter_cons_of_neg (by simp [hkeep])]
      exact ⟨hallowed, hperform⟩

end Builder

end PointsTo
